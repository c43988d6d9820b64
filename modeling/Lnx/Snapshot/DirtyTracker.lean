import Lnx.Snapshot.PagesImage

/-!
# The dirty tracker

libkrun write-protects guest RAM and records, for blocks of 2 MiB, what was written to
since (`DirtyTracker`, `third_party/libkrun/src/hvf/src/lib.rs:453-593`). A vCPU that
writes to a protected block faults; the fault marks the block and makes it writable.
Devices write from the host, where no protection holds, and mark what they wrote.

The tracker also carries the id of the image that RAM matched when it was last reset, for
as long as its bits are a full record of the writes since (`baseline`).

* `dirty_faultRegions`, `dirty_markDirtyRanges`: what the two ways to record a write make
  dirty.
* `exists_dirtyBlocks`, `dirtyBlocks_inj`: a dirty byte lies in one of the blocks that a
  capture is handed, and no two of them start at one address.
-/

namespace Lnx

open List

/-! ## Protections -/

/-- Which bytes of guest memory a vCPU writes without a fault. -/
abbrev Protection := ℕ → Bool

/-- How a call of `hv_vm_protect` ends: one that fails may have reached part of its
    range. -/
inductive Protect where
  | done
  | failed (reached : ℕ → Bool)

def Protect.ok : Protect → Bool
  | .done => true
  | .failed _ => false

def Protect.reached : Protect → ℕ → Bool
  | .done, _ => true
  | .failed r, p => r p

/-- `hv_protect` -/
def hvProtect (w : Protection) (b : DirtyBlock) (writable : Bool) (o : Protect) : Protection := fun p =>
  if b.guestAddr ≤ p ∧ p < b.guestAddr + b.size ∧ o.reached p then writable else w p

/-- Takes the write permission from each block in turn, up to the first call that
    fails. -/
def protectAll : List DirtyBlock → (ℕ → Protect) → Protection → Bool × Protection
  | [], _, w => (true, w)
  | b :: bs, hv, w =>
    if (hv 0).ok then protectAll bs (fun k => hv (k + 1)) (hvProtect w b false (hv 0))
    else (false, hvProtect w b false (hv 0))

variable {w : Protection} {b : DirtyBlock} {p : ℕ} {bs : List DirtyBlock} {hv : ℕ → Protect}

theorem hvProtect_false {o : Protect} (h : w p = false) : hvProtect w b false o p = false := by
  unfold hvProtect
  split_ifs
  · rfl
  · exact h

theorem protectAll_false (h : w p = false) : (protectAll bs hv w).2 p = false := by
  induction bs generalizing hv w with
  | nil => exact h
  | cons b bs ih =>
    unfold protectAll
    split_ifs
    · exact ih (hvProtect_false h)
    · exact hvProtect_false h

theorem protectAll_mem (hok : (protectAll bs hv w).1 = true) (hb : b ∈ bs) (hp : b.Has p) :
    (protectAll bs hv w).2 p = false := by
  induction bs generalizing hv w with
  | nil => cases hb
  | cons b₀ bs ih =>
    unfold protectAll at hok ⊢
    split_ifs at hok ⊢ with hdone
    rcases mem_cons.1 hb with rfl | hb
    · refine protectAll_false ?_
      have hreached : (hv 0).reached p = true := by
        cases hv₀ : hv 0 with
        | done => rfl
        | failed r =>
          rw [hv₀] at hdone
          cases hdone
      exact if_pos ⟨hp.1, hp.2, hreached⟩
    · exact ih hok hb

/-! ## The tracker -/

def dirtyBlockSize : ℕ := 2 * 1024 * 1024

theorem dirtyBlockSize_pos : 0 < dirtyBlockSize := by
  decide

/-- `DirtyBaseline`, a `u128` -/
abbrev PagesImageId := BitVec 128

/-- One bit for each block of a range of RAM. -/
structure DirtyRegion where
  range : RamRange
  blocks : List Bool
  len : blocks.length = divCeil range.size dirtyBlockSize

open DirtyRegion

namespace DirtyRegion

/-- A region with no dirty block. -/
def fresh (r : RamRange) : DirtyRegion :=
  ⟨r, List.replicate (divCeil r.size dirtyBlockSize) false, length_replicate⟩

/-- `region.blocks[index] = true` for each index. -/
def setBlocks (g : DirtyRegion) (indices : List ℕ) : DirtyRegion where
  range := g.range
  blocks := indices.foldl (fun bs i => bs.set i true) g.blocks
  len := by
    rw [← g.len]
    generalize g.blocks = bs
    induction indices generalizing bs with
    | nil => rfl
    | cons i indices ih => rw [foldl_cons, ih, length_set]

/-- `region.blocks.fill(false)` -/
def fill (g : DirtyRegion) : DirtyRegion :=
  ⟨g.range, g.blocks.map fun _ => false, by rw [length_map, g.len]⟩

/-- The block of an index, of which the last one may be short. -/
def block (g : DirtyRegion) (i : ℕ) : DirtyBlock :=
  ⟨g.range.addr + i * dirtyBlockSize, min dirtyBlockSize (g.range.size - i * dirtyBlockSize)⟩

/-- The index of the block that an address of the region lies in. -/
def index (g : DirtyRegion) (p : ℕ) : ℕ := (p - g.range.addr) / dirtyBlockSize

def dirtyBlocks (g : DirtyRegion) : List DirtyBlock :=
  (g.blocks.zipIdx.filter (·.1)).map fun d => g.block d.2

end DirtyRegion

/-- `u64::saturating_add` -/
def saturatingAdd (a b : ℕ) : ℕ := min (a + b) (2 ^ 64 - 1)

/-- What the loop of `mark_dirty_ranges_in_regions` does with one range and region. -/
def DirtyRegion.mark (g : DirtyRegion) (guestAddr size : ℕ) : DirtyRegion :=
  let rangeEnd := saturatingAdd guestAddr size
  let regionEnd := saturatingAdd g.range.addr g.range.size
  let start := max guestAddr g.range.addr
  let stop := min rangeEnd regionEnd
  if start ≥ stop then g
  else
    let firstBlock := (start - g.range.addr) / dirtyBlockSize
    let lastBlock := (stop - 1 - g.range.addr) / dirtyBlockSize
    g.setBlocks (List.range' firstBlock (lastBlock + 1 - firstBlock))

def markDirtyRangesInRegions (regions : List DirtyRegion) (ranges : List (ℕ × ℕ)) : List DirtyRegion :=
  ranges.foldl (fun gs r => if r.2 = 0 then gs else gs.map (·.mark r.1 r.2)) regions

structure DirtyTracker where
  enabled : Bool := false
  regions : List DirtyRegion := []
  baseline : Option PagesImageId := none

structure DirtySet where
  blocks : List DirtyBlock
  baseline : Option PagesImageId

/-- The region that has the address, with its block marked, among the others; and the
    block. -/
def faultRegions (pa : ℕ) : List DirtyRegion → Option (DirtyBlock × List DirtyRegion)
  | [] => none
  | g :: gs =>
    if g.range.Has pa then some (g.block (g.index pa), g.setBlocks [g.index pa] :: gs)
    else (faultRegions pa gs).map fun r => (r.1, g :: r.2)

namespace DirtyTracker

/-- `reset`, and whether it succeeds. -/
def reset (t : DirtyTracker) (ranges : List RamRange) (baseline : Option PagesImageId) (hv : ℕ → Protect)
    (w : Protection) : Bool × DirtyTracker × Protection :=
  let ranges := ranges.filter fun r => r.size ≠ 0
  match protectAll (ranges.map fun r => ⟨r.addr, r.size⟩) hv w with
  | (true, w) => (true, ⟨true, ranges.map .fresh, baseline⟩, w)
  | (false, w) => (false, t, w)

def mark (t : DirtyTracker) (ranges : List (ℕ × ℕ)) : DirtyTracker :=
  if t.enabled then { t with regions := markDirtyRangesInRegions t.regions ranges } else t

def dirtyBlocks (t : DirtyTracker) : List DirtyBlock := t.regions.flatMap (·.dirtyBlocks)

/-- `take`: the baseline is gone, also where a block cannot be protected. -/
def take (t : DirtyTracker) (hv : ℕ → Protect) (w : Protection) : Option DirtySet × DirtyTracker × Protection :=
  match protectAll t.dirtyBlocks hv w with
  | (true, w) =>
    (some ⟨t.dirtyBlocks, t.baseline⟩, { t with regions := t.regions.map (·.fill), baseline := none }, w)
  | (false, w) => (none, { t with baseline := none }, w)

/-- `handle_write_fault`; whether the fault was one of the tracker's is not kept. -/
def handleWriteFault (t : DirtyTracker) (pa : ℕ) (hv : Protect) (w : Protection) : DirtyTracker × Protection :=
  if !t.enabled then (t, w)
  else
    match faultRegions pa t.regions with
    | none => (t, w)
    | some (b, regions) => ({ t with regions := regions }, hvProtect w b true hv)

end DirtyTracker

/-! ## Dirty bytes -/

/-- The bit of the byte's block is set. -/
def DirtyRegion.Dirty (g : DirtyRegion) (p : ℕ) : Prop :=
  g.range.Has p ∧ g.blocks[g.index p]? = some true

/-- A region records that the byte was written to. -/
def Dirty (gs : List DirtyRegion) (p : ℕ) : Prop := ∃ g ∈ gs, g.Dirty p

namespace DirtyRegion

variable {g : DirtyRegion} {p i : ℕ} {indices : List ℕ}

theorem index_lt (hp : g.range.Has p) : g.index p < g.blocks.length := by
  rw [g.len]
  refine div_lt_divCeil dirtyBlockSize_pos ?_
  have := hp.1
  have := hp.2
  omega

theorem setBlocks_getElem? :
    (g.setBlocks indices).blocks[i]? = if i ∈ indices ∧ i < g.blocks.length then some true else g.blocks[i]? := by
  show (indices.foldl (fun bs i => bs.set i true) g.blocks)[i]? = _
  generalize g.blocks = bs
  induction indices generalizing bs with
  | nil => rw [if_neg fun h => not_mem_nil h.1]; rfl
  | cons j indices ih =>
    rw [foldl_cons, ih, length_set, List.getElem?_set]
    by_cases hi : i ∈ indices ∧ i < bs.length
    · rw [if_pos hi, if_pos ⟨mem_cons_of_mem j hi.1, hi.2⟩]
    · rw [if_neg hi]
      by_cases hj : j = i
      · subst hj
        by_cases hlen : j < bs.length
        · rw [if_pos rfl, if_pos hlen, if_pos ⟨mem_cons_self, hlen⟩]
        · rw [if_pos rfl, if_neg hlen, if_neg fun h => hlen h.2, List.getElem?_eq_none (by omega)]
      · rw [if_neg hj, if_neg]
        rintro ⟨hmem, hlen⟩
        rcases mem_cons.1 hmem with rfl | hmem
        · exact hj rfl
        · exact hi ⟨hmem, hlen⟩

theorem Dirty.setBlocks (h : g.Dirty p) : (g.setBlocks indices).Dirty p := by
  refine ⟨h.1, ?_⟩
  show (g.setBlocks indices).blocks[g.index p]? = some true
  rw [setBlocks_getElem?]
  split_ifs
  · rfl
  · exact h.2

theorem dirty_setBlocks (hp : g.range.Has p) (hi : g.index p ∈ indices) : (g.setBlocks indices).Dirty p := by
  refine ⟨hp, ?_⟩
  show (g.setBlocks indices).blocks[g.index p]? = some true
  rw [setBlocks_getElem?, if_pos ⟨hi, index_lt hp⟩]

theorem mark_range (guestAddr size : ℕ) : (g.mark guestAddr size).range = g.range := by
  simp only [mark]
  split_ifs <;> rfl

theorem Dirty.mark (guestAddr size : ℕ) (h : g.Dirty p) : (g.mark guestAddr size).Dirty p := by
  simp only [DirtyRegion.mark]
  split_ifs
  · exact h
  · exact h.setBlocks

theorem dirty_mark {guestAddr size : ℕ} (hp : g.range.Has p) (hle : guestAddr ≤ p) (hlt : p < guestAddr + size) :
    (g.mark guestAddr size).Dirty p := by
  obtain ⟨hp₁, hp₂⟩ := hp
  have hfits := g.range.fits
  -- the end of the range may saturate, past every byte of RAM
  have hstop : p < min (saturatingAdd guestAddr size) (saturatingAdd g.range.addr g.range.size) := by
    unfold saturatingAdd
    omega
  simp only [mark]
  rw [if_neg (by omega)]
  refine dirty_setBlocks ⟨hp₁, hp₂⟩ (mem_range'_1.2 ?_)
  have hfirst : (max guestAddr g.range.addr - g.range.addr) / dirtyBlockSize ≤ g.index p :=
    Nat.div_le_div_right (by omega)
  have hlast : g.index p ≤ (min (saturatingAdd guestAddr size) (saturatingAdd g.range.addr g.range.size) - 1
      - g.range.addr) / dirtyBlockSize :=
    Nat.div_le_div_right (by omega)
  omega

/-- The blocks cut the region into pieces. -/
theorem block_has (hp : g.range.Has p) : (g.block i).Has p ↔ g.index p = i := by
  obtain ⟨hp₁, hp₂⟩ := hp
  unfold DirtyBlock.Has block index
  rw [div_eq_iff_piece dirtyBlockSize_pos (show p - g.range.addr < g.range.size by omega)]
  generalize i * dirtyBlockSize = start
  generalize min dirtyBlockSize (g.range.size - start) = size
  dsimp only
  constructor <;> rintro ⟨h₁, h₂⟩ <;> omega

theorem mem_dirtyBlocks : b ∈ g.dirtyBlocks ↔ ∃ i, g.blocks[i]? = some true ∧ b = g.block i := by
  unfold dirtyBlocks
  rw [mem_map]
  constructor
  · rintro ⟨⟨d, i⟩, hd, rfl⟩
    obtain ⟨hmem, hd⟩ := mem_filter.1 hd
    cases (show d = true from hd)
    exact ⟨i, mem_zipIdx_iff_getElem?.1 hmem, rfl⟩
  · rintro ⟨i, hi, rfl⟩
    exact ⟨(true, i), mem_filter.2 ⟨mem_zipIdx_iff_getElem?.2 hi, rfl⟩, rfl⟩

/-- The block of a bit starts in the region. -/
theorem lt_of_getElem? {d : Bool} (h : g.blocks[i]? = some d) : i * dirtyBlockSize < g.range.size := by
  have hlt := (List.getElem?_eq_some_iff.1 h).1
  rw [g.len] at hlt
  exact mul_lt_of_lt_divCeil dirtyBlockSize_pos hlt

end DirtyRegion

/-! ## Operations on the regions -/

section regions

variable {gs : List DirtyRegion} {p : ℕ}

theorem dirty_cons {g : DirtyRegion} : Dirty (g :: gs) p ↔ g.Dirty p ∨ Dirty gs p := by
  simp [Dirty]

theorem markDirtyRanges_ranges (ranges : List (ℕ × ℕ)) (gs : List DirtyRegion) :
    (markDirtyRangesInRegions gs ranges).map (·.range) = gs.map (·.range) := by
  induction ranges generalizing gs with
  | nil => rfl
  | cons r ranges ih =>
    rw [markDirtyRangesInRegions, foldl_cons]
    refine (ih _).trans ?_
    split_ifs
    · rfl
    · rw [map_map]
      exact map_congr_left fun g _ => g.mark_range _ _

theorem Dirty.map_mark {guestAddr size : ℕ} (h : Dirty gs p) : Dirty (gs.map (·.mark guestAddr size)) p := by
  obtain ⟨g, hg, hdirty⟩ := h
  exact ⟨_, mem_map_of_mem hg, hdirty.mark guestAddr size⟩

variable {ranges : List (ℕ × ℕ)} {gs' : List DirtyRegion}

theorem Dirty.markDirtyRanges (h : Dirty gs p) : Dirty (markDirtyRangesInRegions gs ranges) p := by
  induction ranges generalizing gs with
  | nil => exact h
  | cons r ranges ih =>
    rw [markDirtyRangesInRegions, foldl_cons]
    refine ih ?_
    split_ifs
    · exact h
    · exact h.map_mark

/-- A byte of a marked range is dirty, if it is of a region. -/
theorem dirty_markDirtyRanges (hp : ∃ g ∈ gs, g.range.Has p)
    (h : ∃ r ∈ ranges, r.1 ≤ p ∧ p < r.1 + r.2) : Dirty (markDirtyRangesInRegions gs ranges) p := by
  induction ranges generalizing gs with
  | nil =>
    obtain ⟨r, hr, -⟩ := h
    cases hr
  | cons r₀ ranges ih =>
    rw [markDirtyRangesInRegions, foldl_cons]
    obtain ⟨g, hg, hhas⟩ := hp
    obtain ⟨r, hr, hle, hlt⟩ := h
    rcases mem_cons.1 hr with rfl | hr
    · rw [if_neg (by omega)]
      exact Dirty.markDirtyRanges ⟨_, mem_map_of_mem hg, dirty_mark hhas hle hlt⟩
    · refine ih ?_ ⟨r, hr, hle, hlt⟩
      split_ifs
      · exact ⟨g, hg, hhas⟩
      · refine ⟨_, mem_map_of_mem hg, ?_⟩
        rw [mark_range]
        exact hhas

theorem faultRegions_ranges {pa : ℕ} (h : faultRegions pa gs = some (b, gs')) :
    gs'.map (·.range) = gs.map (·.range) := by
  induction gs generalizing gs' with
  | nil => cases h
  | cons g gs ih =>
    unfold faultRegions at h
    split_ifs at h
    · cases h
      rfl
    · obtain ⟨⟨b₀, gs₀⟩, h₀, h⟩ := Option.map_eq_some_iff.1 h
      cases h
      rw [map_cons, map_cons, ih h₀]

/-- A fault leaves dirty what was, and its block is dirty. -/
theorem dirty_faultRegions {pa : ℕ} (h : faultRegions pa gs = some (b, gs')) :
    (∀ p, Dirty gs p → Dirty gs' p) ∧ ∀ p, b.Has p → Dirty gs' p := by
  induction gs generalizing gs' with
  | nil => cases h
  | cons g gs ih =>
    unfold faultRegions at h
    split_ifs at h with hpa
    · cases h
      refine ⟨fun p hp => dirty_cons.2 ?_, fun p hp => dirty_cons.2 (.inl ?_)⟩
      · exact (dirty_cons.1 hp).imp_left DirtyRegion.Dirty.setBlocks
      · have hlt := mul_lt_of_lt_divCeil dirtyBlockSize_pos (g.len ▸ index_lt hpa)
        have hhas : g.range.Has p := by
          have h₁ : g.range.addr + g.index pa * dirtyBlockSize ≤ p := hp.1
          have h₂ : p < g.range.addr + g.index pa * dirtyBlockSize +
            min dirtyBlockSize (g.range.size - g.index pa * dirtyBlockSize) := hp.2
          exact ⟨by omega, by omega⟩
        refine dirty_setBlocks hhas (mem_singleton.2 ?_)
        exact (block_has hhas).1 hp
    · obtain ⟨⟨b₀, gs₀⟩, h₀, h⟩ := Option.map_eq_some_iff.1 h
      cases h
      obtain ⟨hkeep, hblock⟩ := ih h₀
      refine ⟨fun p hp => dirty_cons.2 ?_, fun p hp => dirty_cons.2 (.inr (hblock p hp))⟩
      exact (dirty_cons.1 hp).imp_right (hkeep p)

end regions

/-! ## What a capture is handed -/

/-- The ranges are those of RAM that have a byte. -/
structure GuestMemory.Tracks (mem : GuestMemory) (rs : List RamRange) : Prop where
  ram : ∀ r ∈ rs, r ∈ mem.ranges ∧ r.size ≠ 0
  all : ∀ p, mem.Ram p → ∃ r ∈ rs, r.Has p
  disjoint : rs.Pairwise fun r r' => ∀ p, ¬ (r.Has p ∧ r'.Has p)

section taken

variable {mem : GuestMemory} {t : DirtyTracker} {p : ℕ}

theorem exists_dirtyBlocks (h : Dirty t.regions p) : ∃ b ∈ t.dirtyBlocks, b.Has p := by
  obtain ⟨g, hg, hp, hbit⟩ := h
  refine ⟨g.block (g.index p), mem_flatMap.2 ⟨g, hg, ?_⟩, (block_has hp).2 rfl⟩
  exact mem_dirtyBlocks.2 ⟨_, hbit, rfl⟩

/-- A block that is handed out lies in a range of RAM, and is not empty. -/
theorem dirtyBlocks_in (ht : mem.Tracks (t.regions.map (·.range))) (hb : b ∈ t.dirtyBlocks) :
    b.In mem := by
  obtain ⟨g, hg, hb⟩ := mem_flatMap.1 hb
  obtain ⟨i, hi, rfl⟩ := mem_dirtyBlocks.1 hb
  have hlt := lt_of_getElem? hi
  refine ⟨g.range, (ht.ram _ (mem_map_of_mem hg)).1, Nat.le_add_right .., ?_⟩
  show g.range.addr + i * dirtyBlockSize + min dirtyBlockSize (g.range.size - i * dirtyBlockSize) ≤ _
  omega

theorem dirtyBlocks_inj (ht : mem.Tracks (t.regions.map (·.range))) {b' : DirtyBlock}
    (hb : b ∈ t.dirtyBlocks) (hb' : b' ∈ t.dirtyBlocks) (haddr : b.guestAddr = b'.guestAddr) :
    b = b' := by
  obtain ⟨g, hg, hb⟩ := mem_flatMap.1 hb
  obtain ⟨i, hi, rfl⟩ := mem_dirtyBlocks.1 hb
  obtain ⟨g', hg', hb'⟩ := mem_flatMap.1 hb'
  obtain ⟨i', hi', rfl⟩ := mem_dirtyBlocks.1 hb'
  have hlt := lt_of_getElem? hi
  have hlt' := lt_of_getElem? hi'
  have haddr : g.range.addr + i * dirtyBlockSize = g'.range.addr + i' * dirtyBlockSize := haddr
  -- two ranges that both have the address are one
  have hrange : g.range = g'.range :=
    eq_of_disjoint (p := g.range.addr + i * dirtyBlockSize) ht.disjoint (mem_map_of_mem hg)
      (mem_map_of_mem hg') ⟨by omega, by omega⟩ ⟨by omega, by omega⟩
  unfold block
  rw [hrange] at haddr ⊢
  rw [Nat.add_left_cancel haddr]

end taken

end Lnx
