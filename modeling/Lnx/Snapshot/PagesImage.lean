import Mathlib.Algebra.Ring.Nat
import Mathlib.Data.List.Pairwise
import Mathlib.Data.Nat.Notation
import Mathlib.Tactic.Common

/-!
# Images of guest memory

`pages.img` holds the ranges of guest RAM one after the other
(`layout_from_ranges`, `third_party/libkrun/src/vmm/src/macos/snapshot/ram.rs`). A
capture writes all of them, in pieces of 1 MiB (`write_full_pages_img`), or clones an
image and writes blocks of it anew (`clone_and_patch_dirty_pages_img`). The threads that
patch blocks side by side write different blocks, so they are run one after the other
here.

* `GuestMemory.Shows`: a file has a byte of guest RAM where the layout puts it.
* `writeFullPagesImg_shows`: a full image shows all of RAM.
* `patchDirtyBlocks_shows`: a patched image shows what lies in its blocks, and what the
  image it was cloned from showed.
-/

namespace Lnx

open Option List

/-- `u64::div_ceil` -/
def divCeil (n d : ℕ) : ℕ := (n + d - 1) / d

variable {c d n o p : ℕ}

theorem div_lt_divCeil {k : ℕ} (hd : 0 < d) (h : k < n) : k / d < divCeil n d := by
  rw [divCeil, Nat.lt_iff_add_one_le, Nat.le_div_iff_mul_le hd, Nat.add_mul, Nat.one_mul]
  have := Nat.div_mul_le_self k d
  omega

theorem mul_lt_of_lt_divCeil {i : ℕ} (hd : 0 < d) (h : i < divCeil n d) : i * d < n := by
  rw [divCeil, Nat.lt_iff_add_one_le, Nat.le_div_iff_mul_le hd, Nat.add_mul, Nat.one_mul] at h
  omega

/-- Pieces of `d` out of `n`, of which the last may be short. -/
theorem div_eq_iff_piece {k i : ℕ} (hd : 0 < d) (h : k < n) :
    k / d = i ↔ i * d ≤ k ∧ k < i * d + min d (n - i * d) := by
  have hdiv := Nat.div_add_mod k d
  have hmod := Nat.mod_lt k hd
  rw [Nat.mul_comm] at hdiv
  constructor
  · rintro rfl
    omega
  · rintro ⟨hle, hlt⟩
    refine Nat.div_eq_of_lt_le hle ?_
    rw [Nat.add_mul, Nat.one_mul]
    omega

/-! ## Guest memory -/

/-- A range of guest addresses, which ends below `2^64`. -/
structure RamRange where
  addr : ℕ
  size : ℕ
  fits : addr + size < 2 ^ 64
  deriving DecidableEq

/-- The address lies in the range. -/
def RamRange.Has (r : RamRange) (p : ℕ) : Prop := r.addr ≤ p ∧ p < r.addr + r.size

instance (r : RamRange) (p : ℕ) : Decidable (r.Has p) := inferInstanceAs (Decidable (_ ∧ _))

/-- The regions that are mapped, and those of them that are RAM (`ram_ranges`). -/
structure GuestMemory where
  regions : List RamRange
  ranges : List RamRange
  separate : regions.Pairwise fun r r' => ∀ p, ¬ (r.Has p ∧ r'.Has p)
  disjoint : ranges.Pairwise fun r r' => ∀ p, ¬ (r.Has p ∧ r'.Has p)
  mapped : ∀ r ∈ ranges, r ∈ regions

open GuestMemory

structure RamRegion where
  range : RamRange
  fileOffset : ℕ

def layoutFrom (cursor : ℕ) : List RamRange → List RamRegion
  | [] => []
  | r :: rs => ⟨r, cursor⟩ :: layoutFrom (cursor + r.size) rs

def guestAddrToFileOffset : List RamRegion → ℕ → Option ℕ
  | [], _ => none
  | g :: gs, p => if g.range.Has p then some (g.fileOffset + (p - g.range.addr)) else guestAddrToFileOffset gs p

variable {rs : List RamRange}

theorem le_of_fileOffset (h : guestAddrToFileOffset (layoutFrom c rs) p = some o) : c ≤ o := by
  induction rs generalizing c with
  | nil => cases h
  | cons r rs ih =>
    simp only [layoutFrom, guestAddrToFileOffset] at h
    split_ifs at h
    · cases h
      omega
    · have := ih h
      omega

theorem fileOffset_lt (h : guestAddrToFileOffset (layoutFrom c rs) p = some o) :
    o < c + (rs.map (·.size)).sum := by
  induction rs generalizing c with
  | nil => cases h
  | cons r rs ih =>
    simp only [layoutFrom, guestAddrToFileOffset] at h
    rw [map_cons, sum_cons]
    split_ifs at h with hp
    · cases h
      have := hp.1
      have := hp.2
      omega
    · have := ih h
      omega

/-- Different bytes are put in different places. -/
theorem fileOffset_inj {q : ℕ} (hp : guestAddrToFileOffset (layoutFrom c rs) p = some o)
    (hq : guestAddrToFileOffset (layoutFrom c rs) q = some o) : p = q := by
  induction rs generalizing c with
  | nil => cases hp
  | cons r rs ih =>
    simp only [layoutFrom, guestAddrToFileOffset] at hp hq
    split_ifs at hp hq with h₁ h₂ h₂
    · have := h₁.1
      have := h₂.1
      have hp := some.inj hp
      have hq := some.inj hq
      omega
    · have := le_of_fileOffset hq
      have := h₁.1
      have := h₁.2
      have hp := some.inj hp
      omega
    · have := le_of_fileOffset hp
      have := h₂.1
      have := h₂.2
      have hq := some.inj hq
      omega
    · exact ih hp hq

/-- Two ranges that both have an address are one. -/
theorem eq_of_disjoint {r r' : RamRange} (hdisj : rs.Pairwise fun r r' => ∀ p, ¬ (r.Has p ∧ r'.Has p))
    (hr : r ∈ rs) (hr' : r' ∈ rs) (hp : r.Has p) (hp' : r'.Has p) : r = r' := by
  by_contra hne
  have : Std.Symm fun r r' : RamRange => ∀ p, ¬ (r.Has p ∧ r'.Has p) := ⟨fun _ _ h p hp => h p hp.symm⟩
  exact hdisj.forall hr hr' hne p ⟨hp, hp'⟩

/-- A range is put in one piece. -/
theorem fileOffset_range {r : RamRange}
    (hdisj : rs.Pairwise fun r r' => ∀ p, ¬ (r.Has p ∧ r'.Has p)) (hr : r ∈ rs) (c : ℕ) :
    ∃ o, ∀ p, r.Has p → guestAddrToFileOffset (layoutFrom c rs) p = some (o + (p - r.addr)) := by
  induction rs generalizing c with
  | nil => cases hr
  | cons r₀ rs ih =>
    obtain ⟨hhead, htail⟩ := pairwise_cons.1 hdisj
    rcases mem_cons.1 hr with rfl | hr
    · refine ⟨c, fun p hp => ?_⟩
      rw [layoutFrom, guestAddrToFileOffset, if_pos hp]
    · obtain ⟨o, ho⟩ := ih htail hr (c + r₀.size)
      refine ⟨o, fun p hp => ?_⟩
      rw [layoutFrom, guestAddrToFileOffset, if_neg fun h => hhead r hr p ⟨h, hp⟩]
      exact ho p hp

namespace GuestMemory

variable (mem : GuestMemory)

def layout : List RamRegion := layoutFrom 0 mem.ranges

def offset (p : ℕ) : Option ℕ := guestAddrToFileOffset mem.layout p

/-- The address is one of RAM. -/
def Ram (p : ℕ) : Prop := ∃ r ∈ mem.ranges, r.Has p

/-- The length of an image: `max` of where the regions end. -/
def imageLen : ℕ := (mem.layout.map fun g => g.fileOffset + g.range.size).foldl max 0

end GuestMemory

theorem imageLen_layoutFrom (rs : List RamRange) (c : ℕ) :
    ((layoutFrom c rs).map fun g => g.fileOffset + g.range.size).foldl max c = c + (rs.map (·.size)).sum := by
  induction rs generalizing c with
  | nil => rfl
  | cons r rs ih =>
    rw [layoutFrom, map_cons, foldl_cons, Nat.max_eq_right (Nat.le_add_right c r.size), ih,
      map_cons, sum_cons, Nat.add_assoc]

/-! ## Files -/

/-- `pages.img`: its length, and its bytes. -/
structure PagesFile where
  len : ℕ
  byte : ℕ → UInt8

namespace PagesFile

def writeAt (f : PagesFile) (offset size : ℕ) (bytes : ℕ → UInt8) : PagesFile :=
  ⟨max f.len (offset + size), fun o => if offset ≤ o ∧ o < offset + size then bytes (o - offset) else f.byte o⟩

def punchHole (f : PagesFile) (offset size : ℕ) : PagesFile :=
  { f with byte := fun o => if offset ≤ o ∧ o < offset + size then 0 else f.byte o }

end PagesFile

/-- The size of the buffer of `write_full_pages_img`. -/
def ramChunk : ℕ := 1024 * 1024

/-- What the loop of `write_full_pages_img` does with one buffer. -/
def writeChunk (ram : ℕ → UInt8) (f : PagesFile) (addr offset size : ℕ) : PagesFile :=
  if (List.range size).any fun k => ram (addr + k) != 0 then f.writeAt offset size fun k => ram (addr + k)
  else f.punchHole offset size

def writeRegion (ram : ℕ → UInt8) (f : PagesFile) (r : RamRange) (base : ℕ) : PagesFile :=
  (List.range (divCeil r.size ramChunk)).foldl (fun f i =>
    writeChunk ram f (r.addr + i * ramChunk) (base + i * ramChunk) (min (r.size - i * ramChunk) ramChunk)) f

def writeFullPagesImg (mem : GuestMemory) (ram : ℕ → UInt8) : PagesFile :=
  (mem.regions.filter fun r => r ∈ mem.ranges).foldl (fun f r =>
    match mem.offset r.addr with
    | some base => writeRegion ram f r base
    | none => f) ⟨mem.imageLen, fun _ => 0⟩

/-- A block of RAM, of `DIRTY_BLOCK_SIZE` or what is left of its range. -/
structure DirtyBlock where
  guestAddr : ℕ
  size : ℕ
  deriving DecidableEq

def DirtyBlock.Has (b : DirtyBlock) (p : ℕ) : Prop := b.guestAddr ≤ p ∧ p < b.guestAddr + b.size

def patchDirtyBlocks (mem : GuestMemory) (ram : ℕ → UInt8) (f : PagesFile) (blocks : List DirtyBlock) :
    PagesFile :=
  blocks.foldl (fun f b =>
    match mem.offset b.guestAddr with
    | some o => f.writeAt o b.size fun k => ram (b.guestAddr + k)
    | none => f) f

/-! ## What an image shows -/

namespace GuestMemory

variable {mem : GuestMemory} {ram : ℕ → UInt8} {f : PagesFile} {r : RamRange} {p : ℕ}

/-- The file has the byte of `ram` at `p` where it belongs. -/
def Shows (mem : GuestMemory) (ram : ℕ → UInt8) (f : PagesFile) (p : ℕ) : Prop :=
  ∀ o, mem.offset p = some o → f.byte o = ram p

/-- The file holds every byte of RAM. -/
def Holds (mem : GuestMemory) (ram : ℕ → UInt8) (f : PagesFile) : Prop :=
  ∀ p, mem.Ram p → ∃ o, mem.offset p = some o ∧ o < f.len ∧ f.byte o = ram p

theorem offset_range (hr : r ∈ mem.ranges) : ∃ o, ∀ p, r.Has p → mem.offset p = some (o + (p - r.addr)) :=
  fileOffset_range mem.disjoint hr 0

theorem offset_lt_imageLen (h : mem.offset p = some o) : o < mem.imageLen := by
  have hlen := imageLen_layoutFrom mem.ranges 0
  have := fileOffset_lt h
  rw [imageLen, layout, hlen]
  exact this

theorem holds_of_shows (hlen : mem.imageLen ≤ f.len) (h : ∀ p, mem.Ram p → mem.Shows ram f p) :
    mem.Holds ram f := by
  rintro p ⟨r, hr, hp⟩
  obtain ⟨o, ho⟩ := offset_range hr
  exact ⟨_, ho p hp, Nat.lt_of_lt_of_le (offset_lt_imageLen (ho p hp)) hlen, h p ⟨r, hr, hp⟩ _ (ho p hp)⟩

/-- A write of RAM from `addr` to where `addr` belongs. -/
theorem shows_write {g : PagesFile} {addr base size : ℕ} (hr : r ∈ mem.ranges)
    (hfirst : r.addr ≤ addr) (hlast : addr + size ≤ r.addr + r.size)
    (hbase : 0 < size → mem.offset addr = some base)
    (hbyte : ∀ o, g.byte o = if base ≤ o ∧ o < base + size then ram (addr + (o - base)) else f.byte o) :
    (∀ p, mem.Shows ram f p → mem.Shows ram g p) ∧
      ∀ p, addr ≤ p → p < addr + size → mem.Shows ram g p := by
  obtain ⟨c, hc⟩ := offset_range hr
  -- the bytes of the range are put next to each other
  have hnext : ∀ k, k < size → mem.offset (addr + k) = some (base + k) := by
    intro k hk
    have haddr := hc addr ⟨hfirst, by omega⟩
    have hbase := some.inj (haddr.symm.trans (hbase (by omega)))
    rw [hc (addr + k) ⟨by omega, by omega⟩]
    congr 1
    omega
  refine ⟨fun p hp o ho => ?_, fun p hle hlt o ho => ?_⟩
  · rw [hbyte]
    split_ifs with hin
    · have hq := hnext (o - base) (by omega)
      rw [show base + (o - base) = o by omega] at hq
      rw [fileOffset_inj hq ho]
    · exact hp o ho
  · have hp := hnext (p - addr) (by omega)
    rw [show addr + (p - addr) = p by omega] at hp
    have ho : o = base + (p - addr) := some.inj (ho.symm.trans hp)
    rw [hbyte, if_pos (by omega), ho]
    congr 1
    omega

/-- What each of some writes keeps, they all keep; and what one of them writes is there
    in the end. -/
theorem shows_foldl {ι : Type} {op : PagesFile → ι → PagesFile} {l : List ι}
    (hkeep : ∀ f, ∀ i ∈ l, ∀ p, mem.Shows ram f p → mem.Shows ram (op f i) p) (f : PagesFile) (p : ℕ)
    (h : mem.Shows ram f p ∨ ∃ i ∈ l, ∀ f, mem.Shows ram (op f i) p) : mem.Shows ram (l.foldl op f) p := by
  induction l generalizing f with
  | nil =>
    rcases h with h | ⟨i, hi, -⟩
    · exact h
    · cases hi
  | cons i l ih =>
    refine ih (fun f j hj => hkeep f j (mem_cons_of_mem i hj)) (op f i) ?_
    rcases h with h | ⟨j, hj, h⟩
    · exact .inl (hkeep f i mem_cons_self p h)
    · rcases mem_cons.1 hj with rfl | hj
      · exact .inl (h f)
      · exact .inr ⟨j, hj, h⟩

end GuestMemory

theorem le_len_foldl {ι : Type} {op : PagesFile → ι → PagesFile} (hop : ∀ f i, f.len ≤ (op f i).len)
    (l : List ι) (f : PagesFile) : f.len ≤ (l.foldl op f).len := by
  induction l generalizing f with
  | nil => exact Nat.le_refl _
  | cons i l ih => exact Nat.le_trans (hop f i) (ih (op f i))

/-! ### Full images -/

section full

variable {mem : GuestMemory} {r : RamRange} (ram : ℕ → UInt8)

theorem writeChunk_byte (f : PagesFile) (addr base size o : ℕ) :
    (writeChunk ram f addr base size).byte o =
      if base ≤ o ∧ o < base + size then ram (addr + (o - base)) else f.byte o := by
  unfold writeChunk
  split_ifs with hany hin hin
  · exact if_pos hin
  · exact if_neg hin
  · -- a hole reads as zeros, as RAM does
    have hzero : ram (addr + (o - base)) = 0 := by
      by_contra hne
      exact hany (any_eq_true.2 ⟨o - base, mem_range.2 (by omega), by simpa using hne⟩)
    rw [hzero]
    exact if_pos hin
  · exact if_neg hin

theorem len_writeChunk (f : PagesFile) (addr base size : ℕ) : f.len ≤ (writeChunk ram f addr base size).len := by
  unfold writeChunk
  split_ifs
  · exact Nat.le_max_left ..
  · exact Nat.le_refl _

theorem ramChunk_pos : 0 < ramChunk := by
  decide

theorem writeRegion_shows (hr : r ∈ mem.ranges) {base : ℕ} (hbase : mem.offset r.addr = some base)
    (f : PagesFile) (p : ℕ) (h : mem.Shows ram f p ∨ r.Has p) : mem.Shows ram (writeRegion ram f r base) p := by
  unfold writeRegion
  have hsize := ramChunk_pos
  generalize ramChunk = size at *
  have hchunk : ∀ f, ∀ i ∈ List.range (divCeil r.size size),
      (∀ p, mem.Shows ram f p → mem.Shows ram (writeChunk ram f (r.addr + i * size) (base + i * size)
        (min (r.size - i * size) size)) p) ∧
      ∀ p, r.addr + i * size ≤ p → p < r.addr + i * size + min (r.size - i * size) size →
        mem.Shows ram (writeChunk ram f (r.addr + i * size) (base + i * size)
          (min (r.size - i * size) size)) p := by
    intro f i hi
    have hlt := mul_lt_of_lt_divCeil hsize (mem_range.1 hi)
    refine shows_write hr (Nat.le_add_right ..) ?_ (fun _ => ?_)
      (writeChunk_byte ram f _ _ _)
    · have := Nat.min_le_left (r.size - i * size) size
      omega
    · obtain ⟨c, hc⟩ := offset_range hr
      have h₀ := some.inj ((hc r.addr ⟨Nat.le_refl _, by omega⟩).symm.trans hbase)
      rw [hc _ ⟨Nat.le_add_right .., by omega⟩]
      congr 1
      omega
  refine shows_foldl (fun f i hi => (hchunk f i hi).1) f p (h.imp_right fun hp => ?_)
  -- the buffer that the byte is in
  have hin : p - r.addr < r.size := by
    have := hp.1
    have := hp.2
    omega
  have hi := mem_range.2 (div_lt_divCeil hsize hin)
  obtain ⟨hle, hlt⟩ := (div_eq_iff_piece hsize hin).1 rfl
  have hp := hp.1
  refine ⟨(p - r.addr) / size, hi, fun f => (hchunk f _ hi).2 p (by omega) ?_⟩
  omega

-- for any size of the buffer: given the number, the kernel counts up to it
theorem len_writeChunks (f : PagesFile) (addr base n size : ℕ) (l : List ℕ) :
    f.len ≤ (l.foldl (fun f i =>
      writeChunk ram f (addr + i * size) (base + i * size) (min (n - i * size) size)) f).len :=
  le_len_foldl (fun f _ => len_writeChunk ram f _ _ _) l f

theorem len_writeRegion (f : PagesFile) (r : RamRange) (base : ℕ) : f.len ≤ (writeRegion ram f r base).len := by
  exact len_writeChunks ram f r.addr base r.size ramChunk _

variable (mem)

theorem writeFullPagesImg_shows (hp : mem.Ram p) : mem.Shows ram (writeFullPagesImg mem ram) p := by
  obtain ⟨r, hr, hp⟩ := hp
  refine shows_foldl (fun f r hr p h => ?_) _ p (.inr ⟨r, ?_, fun f => ?_⟩)
  · split
    · next base hbase =>
      exact writeRegion_shows ram (of_decide_eq_true (mem_filter.1 hr).2) hbase f p (.inl h)
    · exact h
  · exact mem_filter.2 ⟨mem.mapped r hr, decide_eq_true hr⟩
  · obtain ⟨c, hc⟩ := offset_range hr
    have hbase := hc r.addr ⟨Nat.le_refl _, Nat.lt_of_le_of_lt hp.1 hp.2⟩
    rw [hbase]
    exact writeRegion_shows ram hr hbase f p (.inr hp)

theorem len_writeFullPagesImg : mem.imageLen ≤ (writeFullPagesImg mem ram).len := by
  refine le_len_foldl (fun f r => ?_) _ ⟨mem.imageLen, fun _ => 0⟩
  split
  · exact len_writeRegion ram f r _
  · exact Nat.le_refl _

end full

/-! ### Patched images -/

section patch

variable {mem : GuestMemory} (ram : ℕ → UInt8) {blocks : List DirtyBlock}

/-- The block lies in a range of RAM. -/
def DirtyBlock.In (mem : GuestMemory) (b : DirtyBlock) : Prop :=
  ∃ r ∈ mem.ranges, r.addr ≤ b.guestAddr ∧ b.guestAddr + b.size ≤ r.addr + r.size

theorem patchDirtyBlocks_shows (hblocks : ∀ b ∈ blocks, b.In mem) (f : PagesFile) (p : ℕ)
    (h : mem.Shows ram f p ∨ ∃ b ∈ blocks, b.Has p) : mem.Shows ram (patchDirtyBlocks mem ram f blocks) p := by
  refine shows_foldl (fun f b hb p h => ?_) f p (h.imp_right ?_)
  · split
    · next o ho =>
      obtain ⟨r, hr, hfirst, hlast⟩ := hblocks b hb
      exact (shows_write hr hfirst hlast (fun _ => ho) fun _ => rfl).1 p h
    · exact h
  · rintro ⟨b, hb, hp⟩
    refine ⟨b, hb, fun f => ?_⟩
    obtain ⟨r, hr, hfirst, hlast⟩ := hblocks b hb
    obtain ⟨c, hc⟩ := offset_range hr
    have ho := hc b.guestAddr ⟨hfirst, by have := hp.1; have := hp.2; omega⟩
    rw [ho]
    exact (shows_write hr hfirst hlast (fun _ => ho) fun _ => rfl).2 p hp.1 hp.2

theorem len_patchDirtyBlocks (f : PagesFile) : f.len ≤ (patchDirtyBlocks mem ram f blocks).len := by
  refine le_len_foldl (fun f b => ?_) blocks f
  split
  · exact Nat.le_max_left ..
  · exact Nat.le_refl _

end patch

end Lnx
