import Lnx.Snapshot.Capture

/-!
# Blocks of guest memory

RAM is cut into blocks of `DIRTY_BLOCK_SIZE` bytes, counted from the start of each range. Two
functions mark what a device wrote: `add_dirty_range` (`macos/snapshot/orchestrator.rs`, lines
720–752) appends blocks, `mark_dirty_ranges_in_regions` (`hvf/src/lib.rs`, lines 572–593) sets
bits of the tracker. The blocks are then written to where the layout puts them, by several
threads (`patch_dirty_blocks`, `macos/snapshot/ram.rs`, lines 179–239).

* `dirty_ranges_exact_iff`: both mark the blocks that share a byte with the range, unless
  the range wraps, which `add_dirty_range` drops, or there is an empty range at address zero.
* `layout_bijective`: bytes of RAM and of the image correspond, blocks go to pieces that are
  apart, and the threads may write them in any order.
-/

namespace Lnx

open List DirtyRegion GuestMemory

/-! ## Blocks -/

/-- A block of a range of RAM. -/
def IsBlock (rs : List RamRange) (b : DirtyBlock) : Prop :=
  ∃ r ∈ rs, ∃ i, i * dirtyBlockSize < r.size ∧ b = r.block i

/-- The block shares a byte with `size` bytes from `addr` on. -/
def Touches (addr size : ℕ) (b : DirtyBlock) : Prop := ∃ p, b.Has p ∧ addr ≤ p ∧ p < addr + size

/-- The blocks are those that share a byte with the range, they cover what the range has of
    RAM, and each lies in its range. -/
structure MarksRange (rs : List RamRange) (addr size : ℕ) (blocks : List DirtyBlock) : Prop where
  exact : ∀ b, b ∈ blocks ↔ IsBlock rs b ∧ Touches addr size b
  covered : ∀ r ∈ rs, ∀ p, r.Has p → addr ≤ p → p < addr + size → ∃ b ∈ blocks, b.Has p
  inside : ∀ b ∈ blocks, ∃ r ∈ rs, ∀ p, b.Has p → r.Has p

theorem exists_div_eq_iff {a b d i : ℕ} (hd : 0 < d) (hab : a ≤ b) :
    (∃ q, a ≤ q ∧ q ≤ b ∧ q / d = i) ↔ a / d ≤ i ∧ i ≤ b / d := by
  constructor
  · rintro ⟨q, ha, hb, rfl⟩
    exact ⟨Nat.div_le_div_right ha, Nat.div_le_div_right hb⟩
  · rintro ⟨ha, hb⟩
    rw [Nat.le_div_iff_mul_le hd] at hb
    -- the start of the piece, or `a` in the first one
    refine ⟨max a (i * d), Nat.le_max_left .., Nat.max_le.2 ⟨hab, hb⟩, ?_⟩
    refine Nat.div_eq_of_lt_le (Nat.le_max_right ..) (Nat.max_lt.2 ⟨?_, ?_⟩)
    · exact (Nat.div_lt_iff_lt_mul hd).1 (Nat.lt_succ_of_le ha)
    · rw [Nat.succ_mul]
      omega

variable {rs : List RamRange} {r : RamRange} {b b' : DirtyBlock} {addr size p i : ℕ}

theorem RamRange.block_has (hp : r.Has p) : (r.block i).Has p ↔ (p - r.addr) / dirtyBlockSize = i :=
  DirtyRegion.block_has (g := .fresh r) hp

theorem RamRange.has_of_block (hp : (r.block i).Has p) (hi : i * dirtyBlockSize < r.size) : r.Has p := by
  obtain ⟨hle, hlt⟩ := hp
  change r.addr + i * dirtyBlockSize ≤ p at hle
  change p < r.addr + i * dirtyBlockSize + min dirtyBlockSize (r.size - i * dirtyBlockSize) at hlt
  exact ⟨by omega, by omega⟩

/-- A block of a range is touched from the one of the first common byte to the one of the
    last. -/
theorem touches_block_iff (hi : i * dirtyBlockSize < r.size) : Touches addr size (r.block i) ↔
    max addr r.addr < min (addr + size) (r.addr + r.size) ∧
      (max addr r.addr - r.addr) / dirtyBlockSize ≤ i ∧
      i ≤ (min (addr + size) (r.addr + r.size) - 1 - r.addr) / dirtyBlockSize := by
  constructor
  · rintro ⟨p, hp, hle, hlt⟩
    have hr := RamRange.has_of_block hp hi
    rw [RamRange.block_has hr] at hp
    obtain ⟨hr₁, hr₂⟩ := hr
    refine ⟨by omega, ?_⟩
    rw [← exists_div_eq_iff dirtyBlockSize_pos (by omega)]
    exact ⟨p - r.addr, by omega, by omega, hp⟩
  · rintro ⟨hmeet, hbounds⟩
    rw [← exists_div_eq_iff dirtyBlockSize_pos (by omega)] at hbounds
    obtain ⟨q, hle, hlt, hq⟩ := hbounds
    have hr : r.Has (r.addr + q) := ⟨by omega, by omega⟩
    refine ⟨r.addr + q, (RamRange.block_has hr).2 ?_, by omega, by omega⟩
    rw [Nat.add_sub_cancel_left, hq]

theorem marksRange_of_exact {blocks : List DirtyBlock}
    (h : ∀ b, b ∈ blocks ↔ IsBlock rs b ∧ Touches addr size b) : MarksRange rs addr size blocks where
  exact := h
  covered r hr p hp hle hlt := by
    have hin : p - r.addr < r.size := by
      obtain ⟨hp₁, hp₂⟩ := hp
      omega
    have hi := Nat.lt_of_le_of_lt (Nat.div_mul_le_self (p - r.addr) dirtyBlockSize) hin
    have hb := (RamRange.block_has hp).2 rfl
    exact ⟨_, (h _).2 ⟨⟨r, hr, _, hi, rfl⟩, p, hb, hle, hlt⟩, hb⟩
  inside b hb := by
    obtain ⟨⟨r, hr, i, hi, rfl⟩, -⟩ := (h b).1 hb
    exact ⟨r, hr, fun p hp => RamRange.has_of_block hp hi⟩

/-! ## The two markers -/

theorem lt_divCeil_iff : i < divCeil r.size dirtyBlockSize ↔ i * dirtyBlockSize < r.size := by
  refine ⟨mul_lt_of_lt_divCeil dirtyBlockSize_pos, fun h => ?_⟩
  have hdiv := div_lt_divCeil dirtyBlockSize_pos h
  rwa [Nat.mul_div_cancel _ dirtyBlockSize_pos] at hdiv

/-- A range of RAM ends below `2^64`, so that nothing saturates. -/
theorem mark_fresh_eq (r : RamRange) (addr size : ℕ) : (fresh r).mark addr size =
    if max addr r.addr ≥ min (addr + size) (r.addr + r.size) then .fresh r
    else (fresh r).setBlocks (range' ((max addr r.addr - r.addr) / dirtyBlockSize)
      ((min (addr + size) (r.addr + r.size) - 1 - r.addr) / dirtyBlockSize + 1 -
        (max addr r.addr - r.addr) / dirtyBlockSize)) := by
  have hfits := r.fits
  have hstop : min (addr + size) (r.addr + r.size) =
      min (saturatingAdd addr size) (saturatingAdd r.addr r.size) := by
    unfold saturatingAdd
    omega
  rw [hstop]
  rfl

theorem mark_bit_iff : ((fresh r).mark addr size).blocks[i]? = some true ↔
    i * dirtyBlockSize < r.size ∧ Touches addr size (r.block i) := by
  have hfalse : (fresh r).blocks[i]? ≠ some true := fun h =>
    absurd (eq_of_mem_replicate (mem_of_getElem? h)) (by decide)
  by_cases hi : i * dirtyBlockSize < r.size
  · rw [touches_block_iff hi, and_iff_right hi, mark_fresh_eq]
    split_ifs with hge
    · exact iff_of_false hfalse fun h => absurd h.1 (by omega)
    · have hlen : i < (fresh r).blocks.length := by
        rwa [len, fresh, lt_divCeil_iff]
      rw [setBlocks_getElem?]
      simp only [mem_range'_1]
      generalize (max addr r.addr - r.addr) / dirtyBlockSize = first
      generalize (min (addr + size) (r.addr + r.size) - 1 - r.addr) / dirtyBlockSize = last
      split_ifs with hin
      · exact iff_of_true rfl ⟨by omega, by omega, by omega⟩
      · exact iff_of_false hfalse fun h => hin ⟨by omega, hlen⟩
  · refine iff_of_false (fun h => hi ?_) fun h => hi h.1
    have hlt := (List.getElem?_eq_some_iff.1 h).1
    rwa [len, mark_range, fresh, lt_divCeil_iff] at hlt

theorem mem_dirtyBlocks_mark : b ∈ ((fresh r).mark addr size).dirtyBlocks ↔
    ∃ i, i * dirtyBlockSize < r.size ∧ b = r.block i ∧ Touches addr size b := by
  rw [mem_dirtyBlocks]
  refine exists_congr fun i => ?_
  have hblock : ((fresh r).mark addr size).block i = r.block i := by
    unfold block
    rw [mark_range]
    rfl
  rw [mark_bit_iff, hblock, and_assoc]
  exact and_congr_right fun _ => ⟨fun h => ⟨h.2, h.2 ▸ h.1⟩, fun h => ⟨h.1 ▸ h.2, h.1⟩⟩

theorem marksRange_of_blocks {f : RamRange → List DirtyBlock}
    (h : ∀ r ∈ rs, ∀ b, b ∈ f r ↔ ∃ i, i * dirtyBlockSize < r.size ∧ b = r.block i ∧ Touches addr size b) :
    MarksRange rs addr size (rs.flatMap f) := by
  refine marksRange_of_exact fun b => ?_
  rw [mem_flatMap]
  constructor
  · rintro ⟨r, hr, hb⟩
    obtain ⟨i, hi, hb, ht⟩ := (h r hr b).1 hb
    exact ⟨⟨r, hr, i, hi, hb⟩, ht⟩
  · rintro ⟨⟨r, hr, i, hi, hb⟩, ht⟩
    exact ⟨r, hr, (h r hr b).2 ⟨i, hi, hb, ht⟩⟩

/-- What `dirty_blocks` reports once a range is marked. -/
def trackedBlocks (rs : List RamRange) (addr size : ℕ) : List DirtyBlock :=
  (markDirtyRangesInRegions (rs.map .fresh) [(addr, size)]).flatMap (·.dirtyBlocks)

theorem marksRange_tracker (hsize : 0 < size) : MarksRange rs addr size (trackedBlocks rs addr size) := by
  have heq : trackedBlocks rs addr size =
      rs.flatMap fun r => ((fresh r).mark addr size).dirtyBlocks := by
    simp only [trackedBlocks, markDirtyRangesInRegions, foldl_cons, foldl_nil, if_neg (Nat.ne_of_gt hsize),
      flatMap_map, map_map]
    rfl
  rw [heq]
  exact marksRange_of_blocks fun r _ b => mem_dirtyBlocks_mark

/-- `add_dirty_range` takes the end to be the last byte, which an empty range does not
    have: at address zero it is taken to be `0`. -/
theorem dirtyRangeBlocks_exact (hsize : 0 < size) (hne : ¬ (addr = 0 ∧ r.addr = 0 ∧ r.size = 0)) :
    b ∈ dirtyRangeBlocks addr (addr + (size - 1)) r ↔
      ∃ i, i * dirtyBlockSize < r.size ∧ b = r.block i ∧ Touches addr size b := by
  rw [mem_dirtyRangeBlocks]
  have hmin : min (addr + size) (r.addr + r.size) - 1 = min (addr + (size - 1)) (r.addr + r.size - 1) := by
    omega
  constructor
  · rintro ⟨hmeet, i, hfirst, hlast, rfl⟩
    have hi : i * dirtyBlockSize < r.size := by
      have := (Nat.le_div_iff_mul_le dirtyBlockSize_pos).1 hlast
      omega
    refine ⟨i, hi, rfl, (touches_block_iff hi).2 ⟨by omega, hfirst, ?_⟩⟩
    rwa [hmin]
  · rintro ⟨i, hi, rfl, ht⟩
    obtain ⟨hmeet, hfirst, hlast⟩ := (touches_block_iff hi).1 ht
    rw [hmin] at hlast
    exact ⟨by omega, i, hfirst, hlast, rfl⟩

theorem mem_dirtyRangeBlocks_empty (haddr : r.addr = 0) (hr : r.size = 0) (stop : ℕ) :
    r.block 0 ∈ dirtyRangeBlocks 0 stop r := by
  refine mem_dirtyRangeBlocks.2 ⟨by omega, 0, ?_, Nat.zero_le _, rfl⟩
  rw [haddr, Nat.max_self, Nat.sub_self, Nat.zero_div]

/-- What `add_dirty_range` appends and what the tracker reports for a range are both the
    blocks that share a byte with it. -/
def MarkersExact (rs : List RamRange) (blocks : List DirtyBlock) (addr size : ℕ) : Prop :=
  ∃ more, addDirtyRange rs blocks addr size = blocks ++ more ∧ MarksRange rs addr size more ∧
    MarksRange rs addr size (trackedBlocks rs addr size)

theorem addDirtyRange_wraps (blocks : List DirtyBlock) (hwrap : 2 ^ 64 ≤ addr + (size - 1)) :
    addDirtyRange rs blocks addr size = blocks ++ [] := by
  rw [append_nil]
  exact if_pos hwrap

theorem dirty_ranges_exact_iff (rs : List RamRange) (blocks : List DirtyBlock) (addr size : ℕ)
    (hsize : 0 < size) (hword : size < 2 ^ 64) : MarkersExact rs blocks addr size ↔
      (addr + size ≤ 2 ^ 64 ∨ ∀ r ∈ rs, ∀ p, r.Has p → p < addr) ∧
        ¬ (addr = 0 ∧ ∃ r ∈ rs, r.addr = 0 ∧ r.size = 0) := by
  by_cases hwrap : 2 ^ 64 ≤ addr + (size - 1)
  · rw [MarkersExact, addDirtyRange_wraps blocks hwrap]
    constructor
    · rintro ⟨more, hmore, hmarks, -⟩
      obtain rfl := append_cancel_left hmore
      refine ⟨.inr fun r hr p hp => ?_, fun h => by omega⟩
      by_contra hle
      have hfits := r.fits
      obtain ⟨b, hb, -⟩ := hmarks.covered r hr p hp (by omega) (by have := hp.2; omega)
      cases hb
    · rintro ⟨hout, -⟩
      refine ⟨[], rfl, marksRange_of_exact fun b => iff_of_false not_mem_nil ?_, marksRange_tracker hsize⟩
      rintro ⟨⟨r, hr, i, hi, rfl⟩, p, hp, hle, -⟩
      have hp := RamRange.has_of_block hp hi
      rcases hout with hout | hout
      · omega
      · exact absurd (hout r hr p hp) (by omega)
  · have hadd : addDirtyRange rs blocks addr size =
        blocks ++ rs.flatMap (dirtyRangeBlocks addr (addr + (size - 1))) := if_neg hwrap
    rw [MarkersExact, hadd]
    constructor
    · rintro ⟨more, hmore, hmarks, -⟩
      obtain rfl := append_cancel_left hmore
      refine ⟨.inl (by omega), ?_⟩
      rintro ⟨rfl, r, hr, haddr, hzero⟩
      -- the block without bytes
      have hb := mem_flatMap.2 ⟨r, hr, mem_dirtyRangeBlocks_empty haddr hzero (0 + (size - 1))⟩
      obtain ⟨-, p, ⟨-, hp⟩, -⟩ := (hmarks.exact _).1 hb
      change p < r.addr + 0 * dirtyBlockSize + min dirtyBlockSize (r.size - 0 * dirtyBlockSize) at hp
      omega
    · rintro ⟨-, hne⟩
      refine ⟨_, rfl, marksRange_of_blocks fun r hr b => ?_, marksRange_tracker hsize⟩
      exact dirtyRangeBlocks_exact hsize fun h => hne ⟨h.1, r, hr, h.2⟩

/-- One page of RAM, and a write from its start on. -/
def onePage : RamRange := ⟨2 ^ 30, 2 ^ 14, by decide⟩

theorem dirty_ranges_exact_page : MarkersExact [onePage] [] (2 ^ 30) 1 :=
  (dirty_ranges_exact_iff _ [] _ 1 (by decide) (by decide)).2
    ⟨.inl (by decide), fun h => absurd h.1 (by decide)⟩

/-- The range that starts at the page and goes on past `2^64` is dropped. -/
theorem add_dirty_range_drops : ¬ MarkersExact [onePage] [] (2 ^ 30) (2 ^ 64 - 1) := by
  rw [MarkersExact, addDirtyRange_wraps [] (by decide)]
  rintro ⟨more, hmore, hmarks, -⟩
  obtain rfl := append_cancel_left hmore
  obtain ⟨b, hb, -⟩ := hmarks.covered onePage mem_cons_self (2 ^ 30) (by decide) (by decide) (by decide)
  cases hb

/-! ## Where the blocks go -/

theorem fileOffset_eq_none_iff {c : ℕ} :
    guestAddrToFileOffset (layoutFrom c rs) p = none ↔ ∀ r ∈ rs, ¬ r.Has p := by
  induction rs generalizing c with
  | nil => exact iff_of_true rfl fun r hr => absurd hr not_mem_nil
  | cons r rs ih =>
    rw [layoutFrom, guestAddrToFileOffset, forall_mem_cons]
    split_ifs with hp
    · exact iff_of_false not_false fun h => h.1 hp
    · rw [ih, and_iff_right hp]

theorem exists_fileOffset {c o : ℕ} (hdisj : rs.Pairwise fun r r' => ∀ p, ¬ (r.Has p ∧ r'.Has p))
    (hle : c ≤ o) (hlt : o < c + (rs.map (·.size)).sum) :
    ∃ p, guestAddrToFileOffset (layoutFrom c rs) p = some o := by
  induction rs generalizing c with
  | nil => exact absurd hle (by simpa using hlt)
  | cons r rs ih =>
    obtain ⟨hhead, htail⟩ := pairwise_cons.1 hdisj
    rw [map_cons, sum_cons] at hlt
    rcases Nat.lt_or_ge o (c + r.size) with ho | ho
    · have hr : r.Has (r.addr + (o - c)) := ⟨by omega, by omega⟩
      refine ⟨r.addr + (o - c), ?_⟩
      rw [layoutFrom, guestAddrToFileOffset, if_pos hr]
      change some (c + (r.addr + (o - c) - r.addr)) = some o
      congr 1
      omega
    · obtain ⟨p, hp⟩ := ih htail ho (by omega)
      refine ⟨p, ?_⟩
      rw [layoutFrom, guestAddrToFileOffset, if_neg, hp]
      -- the address belongs to a later range
      intro hr
      rw [fileOffset_eq_none_iff.2 fun r' hr' h => hhead r' hr' p ⟨hr, h⟩] at hp
      cases hp

/-- The list is what threads do that work on one chunk each, in some order. -/
inductive Interleaves {α : Type} : List (List α) → List α → Prop
  | done {chunks : List (List α)} : chunks.flatten = [] → Interleaves chunks []
  | step {before after : List (List α)} {a : α} {chunk l : List α} :
      Interleaves (before ++ chunk :: after) l → Interleaves (before ++ (a :: chunk) :: after) (a :: l)

theorem Interleaves.perm {α : Type} {chunks : List (List α)} {l : List α} (h : Interleaves chunks l) :
    l.Perm chunks.flatten := by
  induction h with
  | done h => rw [h]
  | step _ ih =>
    rw [flatten_append, flatten_cons] at ih ⊢
    exact (ih.cons _).trans perm_middle.symm

/-- The layout is a bijection of RAM and the image, and blocks go to pieces that are apart:
    threads that write them in chunks leave what one thread leaves. -/
structure LaysOut (mem : GuestMemory) : Prop where
  outside : ∀ p, mem.offset p = none ↔ ¬ mem.Ram p
  one : ∀ p q o, mem.offset p = some o → mem.offset q = some o → p = q
  onto : ∀ o, (∃ p, mem.offset p = some o) ↔ o < (mem.ranges.map (·.size)).sum
  piece : ∀ b, IsBlock mem.ranges b →
    ∃ o, mem.offset b.guestAddr = some o ∧ ∀ k, k < b.size → mem.offset (b.guestAddr + k) = some (o + k)
  apart : ∀ b b' o o', IsBlock mem.ranges b → IsBlock mem.ranges b' → b ≠ b' →
    mem.offset b.guestAddr = some o → mem.offset b'.guestAddr = some o' →
      o + b.size ≤ o' ∨ o' + b'.size ≤ o
  parallel : ∀ ram f (chunks : List (List DirtyBlock)) l, (∀ b ∈ chunks.flatten, IsBlock mem.ranges b) →
    Interleaves chunks l → patchDirtyBlocks mem ram f l = patchDirtyBlocks mem ram f chunks.flatten

section layout

variable {mem : GuestMemory} {o o' : ℕ}

theorem IsBlock.size_pos (hb : IsBlock rs b) : 0 < b.size := by
  obtain ⟨r, -, i, hi, rfl⟩ := hb
  exact Nat.lt_min.2 ⟨dirtyBlockSize_pos, Nat.sub_pos_of_lt hi⟩

theorem IsBlock.piece (hb : IsBlock mem.ranges b) :
    ∃ o, mem.offset b.guestAddr = some o ∧ ∀ k, k < b.size → mem.offset (b.guestAddr + k) = some (o + k) := by
  have hpos := hb.size_pos
  obtain ⟨r, hr, i, hi, rfl⟩ := hb
  obtain ⟨c, hc⟩ := offset_range hr
  have hoff : ∀ k, k < (r.block i).size →
      mem.offset ((r.block i).guestAddr + k) = some (c + i * dirtyBlockSize + k) := by
    intro k hk
    have hp := RamRange.has_of_block (p := (r.block i).guestAddr + k) ⟨by omega, by omega⟩ hi
    rw [hc _ hp]
    change some (c + (r.addr + i * dirtyBlockSize + k - r.addr)) = _
    congr 1
    omega
  refine ⟨_, ?_, hoff⟩
  rw [← Nat.add_zero (r.block i).guestAddr, hoff 0 hpos, Nat.add_zero]

/-- Blocks that share a byte are one block. -/
theorem IsBlock.eq_of_has (hb : IsBlock mem.ranges b) (hb' : IsBlock mem.ranges b') (hp : b.Has p)
    (hp' : b'.Has p) : b = b' := by
  obtain ⟨r, hr, i, hi, rfl⟩ := hb
  obtain ⟨r', hr', i', hi', rfl⟩ := hb'
  have hin := RamRange.has_of_block hp hi
  have hin' := RamRange.has_of_block hp' hi'
  obtain rfl := eq_of_disjoint mem.disjoint hr hr' hin hin'
  rw [RamRange.block_has hin] at hp hp'
  rw [← hp, ← hp']

theorem IsBlock.apart (hb : IsBlock mem.ranges b) (hb' : IsBlock mem.ranges b') (hne : b ≠ b')
    (ho : mem.offset b.guestAddr = some o) (ho' : mem.offset b'.guestAddr = some o') :
    o + b.size ≤ o' ∨ o' + b'.size ≤ o := by
  obtain ⟨c, hc, hk⟩ := hb.piece
  obtain ⟨c', hc', hk'⟩ := hb'.piece
  obtain rfl := Option.some.inj (hc.symm.trans ho)
  obtain rfl := Option.some.inj (hc'.symm.trans ho')
  have hpos := hb.size_pos
  have hpos' := hb'.size_pos
  by_contra hmeet
  -- a place in both pieces is one of a byte that both blocks have
  have hx := hk (max c c' - c) (by omega)
  have hx' := hk' (max c c' - c') (by omega)
  rw [Nat.add_sub_cancel' (Nat.le_max_left ..)] at hx
  rw [Nat.add_sub_cancel' (Nat.le_max_right ..)] at hx'
  have hp := fileOffset_inj hx hx'
  exact hne (hb.eq_of_has hb' (p := b.guestAddr + (max c c' - c)) ⟨by omega, by omega⟩ ⟨by omega, by omega⟩)

/-- Writes to two pieces that are apart, in either order. -/
theorem writeAt_comm (f : PagesFile) {m n : ℕ} (bytes bytes' : ℕ → UInt8) (h : o + m ≤ o' ∨ o' + n ≤ o) :
    (f.writeAt o m bytes).writeAt o' n bytes' = (f.writeAt o' n bytes').writeAt o m bytes := by
  refine PagesFile.mk.injEq .. ▸ ⟨?_, funext fun x => ?_⟩
  · exact Nat.max_right_comm ..
  · change (if _ then _ else if _ then _ else _) = if _ then _ else if _ then _ else _
    split_ifs with hx hx' hx'
    · omega
    · rfl
    · rfl
    · rfl

theorem layout_bijective (mem : GuestMemory) : LaysOut mem where
  outside p := by
    refine fileOffset_eq_none_iff.trans ⟨?_, fun h r hr hp => h ⟨r, hr, hp⟩⟩
    rintro h ⟨r, hr, hp⟩
    exact h r hr hp
  one _ _ _ := fileOffset_inj
  onto o := by
    constructor
    · rintro ⟨p, hp⟩
      simpa using fileOffset_lt hp
    · intro ho
      exact exists_fileOffset mem.disjoint (Nat.zero_le o) (by simpa using ho)
  piece b hb := hb.piece
  apart b b' o o' hb hb' hne ho ho' := hb.apart hb' hne ho ho'
  parallel ram f chunks l hblocks hl := by
    refine hl.perm.foldl_eq' (fun b hb b' hb' f => ?_) f
    have hb := hblocks b (hl.perm.mem_iff.1 hb)
    have hb' := hblocks b' (hl.perm.mem_iff.1 hb')
    by_cases hne : b = b'
    · rw [hne]
    · obtain ⟨o, ho, -⟩ := hb.piece
      obtain ⟨o', ho', -⟩ := hb'.piece
      rw [ho, ho']
      exact writeAt_comm f _ _ (hb.apart hb' hne ho ho')

end layout

end Lnx
