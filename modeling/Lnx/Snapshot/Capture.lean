import Lnx.Lib.Machine
import Lnx.Snapshot.DirtyTracker

/-!
# Incremental captures of guest memory

`capture_paused` (`third_party/libkrun/src/vmm/src/macos/snapshot/orchestrator.rs:485-664`)
takes the dirty blocks from the tracker and writes `pages.img`: if the directory it
captures into was seeded with the image the tracker's bits are relative to, it clones that
image and patches the blocks, and otherwise it writes all of RAM. Any step may fail. The
directory becomes a generation of the store later, when the guest runs again
(`RunSession::stage`, `RunSession::publish`, `src/src/runner/session.rs:121-148`).

Left out of `capture_paused` are the sections of `vmstate.bin` other than the image id.
The ranges that `collect_queue_dma_ranges` reads off the virtio queues may be any.

* `mem_addVirtioDmaDirtyBlocks`: sorting the blocks and dropping those of one address
  loses none that the tracker handed out.
* `TrackedVm.Inv`: while the tracker has a baseline, an image with that id shows every
  byte of RAM that is neither dirty nor about to be marked, and only dirty bytes can be
  written without a fault.
* `published_pages_exact`: what a published image holds is RAM at the instant it was
  captured at.
-/

namespace Lnx

open List

/-! ## Blocks of the virtio queues -/

/-- The blocks that `add_dirty_range` adds for one range of RAM. -/
def dirtyRangeBlocks (addr stop : ℕ) (r : RamRange) : List DirtyBlock :=
  let ramEnd := saturatingAdd r.addr r.size
  let start := max addr r.addr
  let stop := min stop (ramEnd - 1)
  if start > stop then []
  else
    let first := (start - r.addr) / dirtyBlockSize * dirtyBlockSize + r.addr
    let last := (stop - r.addr) / dirtyBlockSize * dirtyBlockSize + r.addr
    (List.range ((last - first) / dirtyBlockSize + 1)).map fun i =>
      ⟨first + i * dirtyBlockSize, min dirtyBlockSize (ramEnd - (first + i * dirtyBlockSize))⟩

def addDirtyRange (ranges : List RamRange) (blocks : List DirtyBlock) (addr size : ℕ) : List DirtyBlock :=
  let stop := addr + (size - 1)
  -- `checked_add`
  if 2 ^ 64 ≤ stop then blocks else blocks ++ ranges.flatMap (dirtyRangeBlocks addr stop)

/-- What `dedup_by_key` keeps after an element of key `k`. -/
def dedupFrom {α : Type} (key : α → ℕ) (k : ℕ) : List α → List α
  | [] => []
  | a :: l => if key a = k then dedupFrom key k l else a :: dedupFrom key (key a) l

def dedupByKey {α : Type} (key : α → ℕ) : List α → List α
  | [] => []
  | a :: l => a :: dedupFrom key (key a) l

def addVirtioDmaDirtyBlocks (ranges : List RamRange) (dma : List (ℕ × ℕ)) (blocks : List DirtyBlock) :
    List DirtyBlock :=
  let blocks := dma.foldl (fun blocks d => addDirtyRange ranges blocks d.1 d.2) blocks
  dedupByKey (·.guestAddr) (blocks.mergeSort fun b b' => b.guestAddr ≤ b'.guestAddr)

/-! ## The VM and the store -/

/-- The id in `vmstate.bin`, which older snapshots lack, and `pages.img`. -/
structure MemoryFiles where
  id : Option PagesImageId
  pages : PagesFile

/-- A generation, and guest RAM at the instant it was captured at. -/
structure SavedGeneration where
  memory : Option MemoryFiles
  paused : Option (ℕ → UInt8)

/-- Where the one capture that may be under way is. -/
inductive CapturePc where
  | idle
  /-- The directory is there, seeded with the files of the last capture. -/
  | staged (seed : Option MemoryFiles)
  /-- The directory holds a snapshot, taken when RAM was `paused`. -/
  | captured (files : MemoryFiles) (paused : ℕ → UInt8)

structure TrackedVm where
  ram : ℕ → UInt8
  writable : Protection
  tracker : DirtyTracker
  /-- Where devices have written and not marked it yet. -/
  unmarked : List ℕ
  /-- What captures published. -/
  generations : List SavedGeneration
  /-- The generation of `RunSession::last_capture`. -/
  lastCapture : Option SavedGeneration
  /-- The image ids that are taken. -/
  minted : List PagesImageId
  pc : CapturePc

/-- How the steps of one capture go. -/
structure CaptureFate where
  /-- The vCPUs and devices pause, and the directory is made. -/
  ready : Bool
  takeHv : ℕ → Protect
  /-- What the virtio queues name. -/
  dma : List (ℕ × ℕ)
  imageId : Option PagesImageId
  ramWritten : Bool
  vmstateWritten : Bool
  hookRan : Bool
  dirPublished : Bool
  resetHv : ℕ → Protect
  resumed : Bool

/-- How the store's publish of a generation goes: it may fail after the rename. -/
inductive PublishFate where
  | failed
  | landed
  | ok

inductive TrackedAct where
  /-- A vCPU faults on a write. -/
  | fault (pa : ℕ) (hv : Protect)
  | guestWrite (p : ℕ) (v : UInt8)
  | hostWrite (p : ℕ) (v : UInt8)
  | markDirtyRanges (ranges : List (ℕ × ℕ))
  /-- `arm_dirty_tracking`, or `arm_dirty_tracking_pre_vcpu_start`. -/
  | arm (preVcpuStart : Bool) (hv : ℕ → Protect)
  | stage (ok : Bool)
  | capture (fate : CaptureFate)
  | publish (fate : PublishFate)

def incrementalBase (dir : Option MemoryFiles) (baseline : Option PagesImageId) : Option PagesFile :=
  match baseline, dir with
  | some baseline, some files => if files.id = some baseline then some files.pages else none
  | _, _ => none

namespace TrackedVm

variable (mem : GuestMemory)

/-- The image that `capture_paused` writes. -/
def capturePages (s : TrackedVm) (dir : Option MemoryFiles) (dirty : DirtySet) (dma : List (ℕ × ℕ)) : PagesFile :=
  match incrementalBase dir dirty.baseline with
  | some base => patchDirtyBlocks mem s.ram base (addVirtioDmaDirtyBlocks mem.ranges dma dirty.blocks)
  | none => writeFullPagesImg mem s.ram

/-- `capture_with_paused_hook`. Where it fails, the staging directory is dropped. -/
def capturePaused (s : TrackedVm) (dir : Option MemoryFiles) (o : CaptureFate) : TrackedVm :=
  if !o.ready then { s with pc := .idle }
  else
    match s.tracker.take o.takeHv s.writable with
    | (none, t, w) => { s with tracker := t, writable := w, pc := .idle }
    | (some dirty, t, w) =>
      match o.imageId with
      | none => { s with tracker := t, writable := w, pc := .idle }
      | some id =>
        let pages := s.capturePages mem dir dirty o.dma
        if !(o.ramWritten && o.vmstateWritten && o.hookRan && o.dirPublished) then
          { s with tracker := t, writable := w, minted := id :: s.minted, pc := .idle }
        else
          match t.reset mem.ranges (some id) o.resetHv w with
          | (false, t, w) => { s with tracker := t, writable := w, minted := id :: s.minted, pc := .idle }
          | (true, t, w) =>
            { s with
              tracker := t, writable := w, minted := id :: s.minted
              pc := if o.resumed then .captured ⟨some id, pages⟩ s.ram else .idle }

def armRanges (preVcpuStart : Bool) : List RamRange :=
  if preVcpuStart then mem.regions.filter fun r => r ∈ mem.ranges else mem.ranges

/-- One action. A capture begins only when devices have marked what they wrote, and with
    an image id that is not taken. -/
def step (s : TrackedVm) : TrackedAct → Option TrackedVm
  | .fault pa hv =>
    let r := s.tracker.handleWriteFault pa hv s.writable
    some { s with tracker := r.1, writable := r.2 }
  | .guestWrite p v => if s.writable p then some { s with ram := Function.update s.ram p v } else none
  | .hostWrite p v => some { s with ram := Function.update s.ram p v, unmarked := p :: s.unmarked }
  | .markDirtyRanges ranges =>
    some { s with
      tracker := s.tracker.mark ranges
      unmarked := s.unmarked.filter fun p => !ranges.any fun r => r.1 ≤ p && p < r.1 + r.2 }
  | .arm preVcpuStart hv =>
    let r := s.tracker.reset (armRanges mem preVcpuStart) none hv s.writable
    some { s with tracker := r.2.1, writable := r.2.2 }
  | .stage ok =>
    match s.pc with
    | .idle => some (if ok then { s with pc := .staged (s.lastCapture.bind (·.memory)) } else s)
    | _ => none
  | .capture o =>
    match s.pc with
    | .staged dir =>
      if s.unmarked = [] ∧ o.imageId.all (fun id => id ∉ s.minted) then some (s.capturePaused mem dir o) else none
    | _ => none
  | .publish o =>
    match s.pc with
    | .captured files paused =>
      match o with
      | .failed => some { s with pc := .idle }
      | .landed => some { s with generations := s.generations ++ [⟨some files, some paused⟩], pc := .idle }
      | .ok =>
        some { s with
          generations := s.generations ++ [⟨some files, some paused⟩]
          lastCapture := some ⟨some files, some paused⟩
          pc := .idle }
    | _ => none

/-- RAM mapped from an image. -/
def restoredRam (pages : PagesFile) (rest : ℕ → UInt8) : ℕ → UInt8 := fun p =>
  match mem.offset p with
  | some o => pages.byte o
  | none => rest p

/-- A VM that boots, or one restored from the generation its run starts from, once
    `enable_dirty_tracking` succeeded. -/
inductive Started : TrackedVm → Prop
  | boot (ram : ℕ → UInt8) (base : Option SavedGeneration) (minted : List PagesImageId)
      (h : ∀ g ∈ base, ∀ f ∈ g.memory, ∀ id ∈ f.id, id ∈ minted) :
      Started ⟨ram, fun _ => true, {}, [], [], base, minted, .idle⟩
  | restored (files : MemoryFiles) (rest : ℕ → UInt8) (hv : ℕ → Protect) (minted : List PagesImageId)
      (hlen : mem.imageLen ≤ files.pages.len) (h : ∀ id ∈ files.id, id ∈ minted) (t : DirtyTracker)
      (w : Protection) (hreset : DirtyTracker.reset {} mem.ranges files.id hv (fun _ => true) = (true, t, w)) :
      Started ⟨restoredRam mem files.pages rest, w, t, [], [], some ⟨some files, none⟩, minted, .idle⟩

end TrackedVm

/-! ## Blocks are not lost -/

section blocks

variable {mem : GuestMemory} {r : RamRange} {b : DirtyBlock} {addr : ℕ}

/-- Block `i` of a range. -/
def RamRange.block (r : RamRange) (i : ℕ) : DirtyBlock := (DirtyRegion.fresh r).block i

theorem mem_dirtyRangeBlocks {stop : ℕ} : b ∈ dirtyRangeBlocks addr stop r ↔
    max addr r.addr ≤ min stop (r.addr + r.size - 1) ∧
      ∃ i, (max addr r.addr - r.addr) / dirtyBlockSize ≤ i ∧
        i ≤ (min stop (r.addr + r.size - 1) - r.addr) / dirtyBlockSize ∧ b = r.block i := by
  have hend : saturatingAdd r.addr r.size = r.addr + r.size := by
    have := r.fits
    unfold saturatingAdd
    omega
  have hblock : ∀ first k, (⟨first * dirtyBlockSize + r.addr + k * dirtyBlockSize, min dirtyBlockSize
      (r.addr + r.size - (first * dirtyBlockSize + r.addr + k * dirtyBlockSize))⟩ : DirtyBlock) =
        r.block (first + k) := by
    intro first k
    have hmul := Nat.add_mul first k dirtyBlockSize
    refine DirtyBlock.mk.injEq .. ▸ ⟨?_, ?_⟩
    · change _ = r.addr + (first + k) * dirtyBlockSize
      omega
    · change _ = min dirtyBlockSize (r.size - (first + k) * dirtyBlockSize)
      congr 1
      omega
  unfold dirtyRangeBlocks
  dsimp only
  rw [hend]
  split_ifs with hlt
  · exact iff_of_false not_mem_nil fun h => absurd h.1 (by omega)
  · rw [and_iff_right (by omega), Nat.add_sub_add_right, ← Nat.sub_mul,
      Nat.mul_div_cancel _ dirtyBlockSize_pos]
    have hle : (max addr r.addr - r.addr) / dirtyBlockSize ≤
        (min stop (r.addr + r.size - 1) - r.addr) / dirtyBlockSize := Nat.div_le_div_right (by omega)
    generalize (max addr r.addr - r.addr) / dirtyBlockSize = first at *
    generalize (min stop (r.addr + r.size - 1) - r.addr) / dirtyBlockSize = last at *
    simp only [mem_map, mem_range, hblock]
    constructor
    · rintro ⟨k, hk, rfl⟩
      exact ⟨first + k, by omega, by omega, rfl⟩
    · rintro ⟨i, hfirst, hlast, rfl⟩
      refine ⟨i - first, by omega, ?_⟩
      rw [Nat.add_sub_cancel' hfirst]

theorem dirtyRangeBlocks_in (hr : r ∈ mem.ranges) {stop : ℕ} (hb : b ∈ dirtyRangeBlocks addr stop r) :
    b.In mem := by
  obtain ⟨-, i, -, hlast, rfl⟩ := mem_dirtyRangeBlocks.1 hb
  refine ⟨r, hr, Nat.le_add_right .., ?_⟩
  -- the block starts before the range ends
  have hi := (Nat.le_div_iff_mul_le dirtyBlockSize_pos).1 hlast
  change r.addr + i * dirtyBlockSize + min dirtyBlockSize (r.size - i * dirtyBlockSize) ≤ _
  omega

theorem exists_addDirtyRange (mem : GuestMemory) (blocks : List DirtyBlock) (addr size : ℕ) :
    ∃ more, addDirtyRange mem.ranges blocks addr size = blocks ++ more ∧ ∀ b ∈ more, b.In mem := by
  unfold addDirtyRange
  dsimp only
  split_ifs
  · exact ⟨[], (append_nil blocks).symm, fun b hb => nomatch hb⟩
  · refine ⟨_, rfl, fun b hb => ?_⟩
    obtain ⟨r, hr, hb⟩ := mem_flatMap.1 hb
    exact dirtyRangeBlocks_in hr hb

theorem exists_addDirtyRanges (mem : GuestMemory) (dma : List (ℕ × ℕ)) (blocks : List DirtyBlock) :
    ∃ more, dma.foldl (fun blocks d => addDirtyRange mem.ranges blocks d.1 d.2) blocks = blocks ++ more ∧
      ∀ b ∈ more, b.In mem := by
  induction dma generalizing blocks with
  | nil => exact ⟨[], (append_nil blocks).symm, fun b hb => nomatch hb⟩
  | cons d dma ih =>
    obtain ⟨more, hmore, hin⟩ := exists_addDirtyRange mem blocks d.1 d.2
    obtain ⟨more', hmore', hin'⟩ := ih (blocks ++ more)
    refine ⟨more ++ more', ?_, fun b hb => ?_⟩
    · rw [foldl_cons, hmore, hmore', append_assoc]
    · rcases mem_append.1 hb with hb | hb
      · exact hin b hb
      · exact hin' b hb

section dedup

variable {α : Type} {key : α → ℕ} {l : List α} {a : α}

theorem mem_of_mem_dedupFrom {k : ℕ} (h : a ∈ dedupFrom key k l) : a ∈ l := by
  induction l generalizing k with
  | nil => exact h
  | cons b l ih =>
    unfold dedupFrom at h
    split_ifs at h
    · exact mem_cons_of_mem b (ih h)
    · rcases mem_cons.1 h with rfl | h
      · exact mem_cons_self
      · exact mem_cons_of_mem b (ih h)

theorem mem_of_mem_dedupByKey (h : a ∈ dedupByKey key l) : a ∈ l := by
  cases l with
  | nil => exact h
  | cons b l =>
    rcases mem_cons.1 h with rfl | h
    · exact mem_cons_self
    · exact mem_cons_of_mem b (mem_of_mem_dedupFrom h)

/-- The first element of a key is kept. -/
theorem mem_dedupFrom {k : ℕ} {l₁ l₂ : List α} (hk : key a ≠ k) (h : ∀ b ∈ l₁, key b ≠ key a) :
    a ∈ dedupFrom key k (l₁ ++ a :: l₂) := by
  induction l₁ generalizing k with
  | nil =>
    rw [nil_append, dedupFrom, if_neg hk]
    exact mem_cons_self
  | cons b l₁ ih =>
    have hl₁ := fun c hc => h c (mem_cons_of_mem b hc)
    rw [cons_append, dedupFrom]
    split_ifs
    · exact ih hk hl₁
    · exact mem_cons_of_mem b (ih (h b mem_cons_self).symm hl₁)

theorem mem_dedupByKey {l₁ l₂ : List α} (h : ∀ b ∈ l₁, key b ≠ key a) :
    a ∈ dedupByKey key (l₁ ++ a :: l₂) := by
  cases l₁ with
  | nil => exact mem_cons_self
  | cons b l₁ =>
    exact mem_cons_of_mem b
      (mem_dedupFrom (h b mem_cons_self).symm fun c hc => h c (mem_cons_of_mem b hc))

/-- Sorting by a key keeps the order of the elements of one key. -/
theorem filter_mergeSort_key (key : α → ℕ) (l : List α) (k : ℕ) :
    (l.mergeSort fun a b => key a ≤ key b).filter (fun a => key a = k) = l.filter fun a => key a = k := by
  have hsub : (l.filter fun a => key a = k).Sublist (l.mergeSort fun a b => key a ≤ key b) := by
    refine sublist_mergeSort ?_ ?_ (pairwise_of_forall_mem_list fun a ha b hb => ?_) filter_sublist
    · intro a b c hab hbc
      exact decide_eq_true (Nat.le_trans (of_decide_eq_true hab) (of_decide_eq_true hbc))
    · intro a b
      simpa using Nat.le_total (key a) (key b)
    · have ha : key a = k := of_decide_eq_true (mem_filter.1 ha).2
      have hb : key b = k := of_decide_eq_true (mem_filter.1 hb).2
      exact decide_eq_true (by omega)
  have hsub := hsub.filter fun a => decide (key a = k)
  rw [filter_filter] at hsub
  simp only [Bool.and_self] at hsub
  exact (hsub.eq_of_length ((mergeSort_perm l _).filter _).length_eq.symm).symm

/-- An element that is the first of its key is kept when the list is sorted. -/
theorem mem_dedupByKey_mergeSort {more : List α} (ha : a ∈ l) (h : ∀ b ∈ l, key b = key a → b = a) :
    a ∈ dedupByKey key ((l ++ more).mergeSort fun a b => key a ≤ key b) := by
  have hsort := filter_mergeSort_key key (l ++ more) (key a)
  obtain ⟨rest, hrest⟩ : ∃ rest, (l ++ more).filter (fun b => key b = key a) = a :: rest := by
    rw [filter_append]
    have hmem : a ∈ l.filter fun b => key b = key a := mem_filter.2 ⟨ha, decide_eq_true rfl⟩
    cases hl : l.filter fun b => key b = key a with
    | nil =>
      rw [hl] at hmem
      cases hmem
    | cons b rest =>
      have hb : b ∈ l.filter fun b => key b = key a := by
        rw [hl]
        exact mem_cons_self
      have hb := mem_filter.1 hb
      exact ⟨rest ++ more.filter fun b => key b = key a, by rw [h b hb.1 (of_decide_eq_true hb.2)]; rfl⟩
  obtain ⟨l₁, l₂, hl, hl₁, -, -⟩ := filter_eq_cons_iff.1 (hsort.trans hrest)
  rw [hl]
  exact mem_dedupByKey fun b hb => fun heq => hl₁ b hb (decide_eq_true heq)

end dedup

variable {dma : List (ℕ × ℕ)} {blocks : List DirtyBlock}

theorem addVirtioDmaDirtyBlocks_in (h : ∀ b ∈ blocks, b.In mem) :
    ∀ b ∈ addVirtioDmaDirtyBlocks mem.ranges dma blocks, b.In mem := by
  intro b hb
  obtain ⟨more, hmore, hin⟩ := exists_addDirtyRanges mem dma blocks
  have hb := (mergeSort_perm _ _).mem_iff.1 (mem_of_mem_dedupByKey hb)
  rw [hmore] at hb
  rcases mem_append.1 hb with hb | hb
  · exact h b hb
  · exact hin b hb

theorem mem_addVirtioDmaDirtyBlocks {b : DirtyBlock} (hb : b ∈ blocks)
    (h : ∀ b' ∈ blocks, b'.guestAddr = b.guestAddr → b' = b) :
    b ∈ addVirtioDmaDirtyBlocks mem.ranges dma blocks := by
  obtain ⟨more, hmore, -⟩ := exists_addDirtyRanges mem dma blocks
  unfold addVirtioDmaDirtyBlocks
  rw [hmore]
  exact mem_dedupByKey_mergeSort hb h

end blocks

/-! ## What holds along a history -/

variable {t t' : DirtyTracker} {rs : List RamRange} {baseline : Option PagesImageId}
  {hv : ℕ → Protect} {w w' : Protection}

/-- What `reset` does when it succeeds. -/
theorem DirtyTracker.reset_ok (h : t.reset rs baseline hv w = (true, t', w')) :
    t' = ⟨true, (rs.filter fun r => r.size ≠ 0).map .fresh, baseline⟩ ∧ ∀ r ∈ rs, ∀ p, r.Has p → w' p = false := by
  unfold DirtyTracker.reset at h
  dsimp only at h
  split at h
  · next w₀ hprot =>
    cases h
    refine ⟨rfl, fun r hr p hp => ?_⟩
    have hne : r.size ≠ 0 := by
      have := hp.1
      have := hp.2
      omega
    have hmem : (⟨r.addr, r.size⟩ : DirtyBlock) ∈ (rs.filter fun r => r.size ≠ 0).map fun r => ⟨r.addr, r.size⟩ :=
      mem_map.2 ⟨r, mem_filter.2 ⟨hr, decide_eq_true hne⟩, rfl⟩
    have := protectAll_mem (p := p) (by rw [hprot]) hmem hp
    rwa [hprot] at this
  · cases h

open DirtyTracker

/-- A `reset` that fails leaves the tracker, and makes nothing writable. -/
theorem DirtyTracker.reset_failed (h : t.reset rs baseline hv w = (false, t', w')) :
    t' = t ∧ ∀ p, w p = false → w' p = false := by
  unfold reset at h
  dsimp only at h
  split at h
  · cases h
  · next w₀ hprot =>
    cases h
    refine ⟨rfl, fun p hp => ?_⟩
    have hw : (protectAll _ hv w).2 = w' := congrArg Prod.snd hprot
    rw [← hw]
    exact protectAll_false hp

theorem map_range_fresh (rs : List RamRange) : (rs.map DirtyRegion.fresh).map (·.range) = rs := by
  rw [map_map]
  exact map_id rs

/-- The ranges a tracker is reset with, without those that are empty. -/
theorem GuestMemory.tracks_filter {mem : GuestMemory} (hram : ∀ r ∈ rs, r ∈ mem.ranges)
    (hall : ∀ r ∈ mem.ranges, r ∈ rs) (hdisj : rs.Pairwise fun r r' => ∀ p, ¬ (r.Has p ∧ r'.Has p)) :
    mem.Tracks (rs.filter fun r => r.size ≠ 0) where
  ram r hr := ⟨hram r (mem_filter.1 hr).1, of_decide_eq_true (mem_filter.1 hr).2⟩
  all p := by
    rintro ⟨r, hr, hp⟩
    refine ⟨r, mem_filter.2 ⟨hall r hr, decide_eq_true ?_⟩, hp⟩
    have := hp.1
    have := hp.2
    omega
  disjoint := hdisj.filter _

open GuestMemory

namespace TrackedVm

variable {mem : GuestMemory} {s s' : TrackedVm}

/-- An image with the id is in the generation that a capture would be seeded from, or in
    the directory of the capture under way. -/
def HasImage (s : TrackedVm) (id : PagesImageId) (f : PagesFile) : Prop :=
  (∃ g, s.lastCapture = some g ∧ g.memory = some ⟨some id, f⟩) ∨ s.pc = .staged (some ⟨some id, f⟩) ∨
    ∃ r, s.pc = .captured ⟨some id, f⟩ r

variable (mem) in
/-- The image and the record of writes since give RAM. -/
structure Baseline (s : TrackedVm) (id : PagesImageId) : Prop where
  enabled : s.tracker.enabled = true
  protects : ∀ p, mem.Ram p → s.writable p = true → Dirty s.tracker.regions p
  len : ∀ f, s.HasImage id f → mem.imageLen ≤ f.len
  shows : ∀ f, s.HasImage id f → ∀ p, mem.Ram p → ¬ Dirty s.tracker.regions p → p ∉ s.unmarked →
    mem.Shows s.ram f p

variable (mem) in
structure Inv (s : TrackedVm) : Prop where
  tracks : s.tracker.enabled = true → mem.Tracks (s.tracker.regions.map (·.range))
  baseline : ∀ id, s.tracker.baseline = some id → s.Baseline mem id
  minted : ∀ id f, s.HasImage id f → id ∈ s.minted
  captured : ∀ f r, s.pc = .captured f r → mem.Holds r f.pages
  published : ∀ g ∈ s.generations, ∃ f r, g.memory = some f ∧ g.paused = some r ∧ mem.Holds r f.pages

/-! ### Writes -/

theorem Inv.fault (h : s.Inv mem) (pa : ℕ) (hv : Protect) :
    Inv mem { s with
      tracker := (s.tracker.handleWriteFault pa hv s.writable).1
      writable := (s.tracker.handleWriteFault pa hv s.writable).2 } := by
  unfold handleWriteFault
  split_ifs
  · exact h
  split
  · exact h
  · next b regions hfault =>
    obtain ⟨hkeep, hblock⟩ := dirty_faultRegions hfault
    refine { h with tracks := fun hen => ?_, baseline := fun id hid => ?_ }
    · rw [show _ = _ from faultRegions_ranges hfault]
      exact h.tracks hen
    · have hb := h.baseline id hid
      refine ⟨hb.enabled, fun p hp hw => ?_, hb.len, fun f hf p hp hclean hun => ?_⟩
      · -- what the fault makes writable is the block it marks
        by_cases hin : b.Has p
        · exact hblock p hin
        · have : hvProtect s.writable b true hv p = s.writable p := if_neg fun h => hin ⟨h.1, h.2.1⟩
          exact hkeep p (hb.protects p hp (this.symm.trans hw))
      · exact hb.shows f hf p hp (fun hd => hclean (hkeep p hd)) hun

theorem shows_update {ram : ℕ → UInt8} {f : PagesFile} {p q : ℕ} {v : UInt8} (hne : q ≠ p)
    (h : mem.Shows ram f q) : mem.Shows (Function.update ram p v) f q := by
  intro o ho
  rw [Function.update_of_ne hne]
  exact h o ho

theorem Inv.guestWrite (h : s.Inv mem) {p : ℕ} {v : UInt8} (hw : s.writable p = true) :
    Inv mem { s with ram := Function.update s.ram p v } := by
  refine { h with baseline := fun id hid => ?_ }
  have hb := h.baseline id hid
  refine { hb with shows := fun f hf q hq hclean hun => ?_ }
  refine shows_update (fun hqp => hclean ?_) (hb.shows f hf q hq hclean hun)
  rw [hqp] at hq ⊢
  exact hb.protects p hq hw

theorem Inv.hostWrite (h : s.Inv mem) (p : ℕ) (v : UInt8) :
    Inv mem { s with ram := Function.update s.ram p v, unmarked := p :: s.unmarked } := by
  refine { h with baseline := fun id hid => ?_ }
  have hb := h.baseline id hid
  refine { hb with shows := fun f hf q hq hclean hun => ?_ }
  refine shows_update (fun hqp => hun ?_) (hb.shows f hf q hq hclean fun hmem => hun ?_)
  · rw [hqp]
    exact mem_cons_self
  · exact mem_cons_of_mem p hmem

theorem Inv.markDirtyRanges (h : s.Inv mem) (ranges : List (ℕ × ℕ)) :
    Inv mem { s with
      tracker := s.tracker.mark ranges
      unmarked := s.unmarked.filter fun p => !ranges.any fun r => r.1 ≤ p && p < r.1 + r.2 } := by
  unfold mark
  split_ifs with hen
  · refine { h with tracks := fun _ => ?_, baseline := fun id hid => ?_ }
    · rw [show _ = _ from markDirtyRanges_ranges ranges s.tracker.regions]
      exact h.tracks hen
    · have hb := h.baseline id hid
      refine ⟨hen, fun p hp hw => (hb.protects p hp hw).markDirtyRanges, hb.len, fun f hf p hp hclean hun => ?_⟩
      refine hb.shows f hf p hp (fun hd => hclean hd.markDirtyRanges) fun hmem => ?_
      -- a byte that has been marked is dirty
      by_cases hany : ∃ r ∈ ranges, r.1 ≤ p ∧ p < r.1 + r.2
      · refine hclean (dirty_markDirtyRanges ?_ hany)
        obtain ⟨r, hr, hhas⟩ := (h.tracks hen).all p hp
        obtain ⟨g, hg, rfl⟩ := mem_map.1 hr
        exact ⟨g, hg, hhas⟩
      · refine hun (mem_filter.2 ⟨hmem, ?_⟩)
        simpa using hany
  · refine { h with baseline := fun id hid => absurd (h.baseline id hid).enabled hen }

/-! ### Captures -/

theorem armRanges_tracks (mem : GuestMemory) (preVcpuStart : Bool) :
    mem.Tracks ((armRanges mem preVcpuStart).filter fun r => r.size ≠ 0) := by
  unfold armRanges
  split_ifs
  · refine tracks_filter (fun r hr => of_decide_eq_true (mem_filter.1 hr).2)
      (fun r hr => mem_filter.2 ⟨mem.mapped r hr, decide_eq_true hr⟩) (mem.separate.filter _)
  · exact tracks_filter (fun r hr => hr) (fun r hr => hr) mem.disjoint

theorem Inv.arm (h : s.Inv mem) (preVcpuStart : Bool) (hv : ℕ → Protect) :
    Inv mem { s with
      tracker := (s.tracker.reset (armRanges mem preVcpuStart) none hv s.writable).2.1
      writable := (s.tracker.reset (armRanges mem preVcpuStart) none hv s.writable).2.2 } := by
  rcases hr : s.tracker.reset (armRanges mem preVcpuStart) none hv s.writable with ⟨ok, t, w⟩
  cases ok with
  | true =>
    obtain ⟨rfl, -⟩ := reset_ok hr
    refine { h with tracks := fun _ => ?_, baseline := nofun }
    show mem.Tracks (List.map _ (List.map _ _))
    rw [map_range_fresh]
    exact armRanges_tracks mem preVcpuStart
  | false =>
    obtain ⟨rfl, hkeep⟩ := reset_failed hr
    refine { h with baseline := fun id hid => ?_ }
    have hb := h.baseline id hid
    refine { hb with protects := fun p hp hw => hb.protects p hp ?_ }
    by_contra hne
    exact absurd (hw.symm.trans (hkeep p (Bool.eq_false_iff.2 hne))) (by decide)

/-- A state in which no capture is under way and the tracker has no baseline. -/
theorem Inv.unbased (h : s.Inv mem) {m : List PagesImageId}
    (ht : t.enabled = true → mem.Tracks (t.regions.map (·.range))) (hnone : t.baseline = none)
    (hm : ∀ id ∈ s.minted, id ∈ m) :
    Inv mem { s with tracker := t, writable := w, minted := m, pc := .idle } where
  tracks := ht
  baseline id hid := by
    rw [hnone] at hid
    cases hid
  minted id f hf := by
    rcases hf with hf | hf | ⟨r, hf⟩
    · exact hm id (h.minted id f (.inl hf))
    · cases hf
    · cases hf
  captured f r hf := nomatch hf
  published := h.published

/-- A capture that ends early, before it took the blocks. -/
theorem Inv.drop (h : s.Inv mem) : Inv mem { s with pc := .idle } where
  tracks := h.tracks
  baseline id hid := by
    have hb := h.baseline id hid
    have hlast : ∀ f, HasImage { s with pc := .idle } id f → s.HasImage id f := by
      rintro f (hf | hf | ⟨r, hf⟩)
      · exact .inl hf
      · cases hf
      · cases hf
    exact ⟨hb.enabled, hb.protects, fun f hf => hb.len f (hlast f hf), fun f hf => hb.shows f (hlast f hf)⟩
  minted id f hf := by
    rcases hf with hf | hf | ⟨r, hf⟩
    · exact h.minted id f (.inl hf)
    · cases hf
    · cases hf
  captured f r hf := nomatch hf
  published := h.published

theorem Inv.stage (h : s.Inv mem) : Inv mem { s with pc := .staged (s.lastCapture.bind (·.memory)) } := by
  -- the directory has the image of the last capture
  have himage : ∀ id f, HasImage { s with pc := .staged (s.lastCapture.bind (·.memory)) } id f → s.HasImage id f := by
    rintro id f (hf | hf | ⟨r, hf⟩)
    · exact .inl hf
    · obtain ⟨g, hg, hmem⟩ := Option.bind_eq_some_iff.1 (CapturePc.staged.inj hf)
      exact .inl ⟨g, hg, hmem⟩
    · cases hf
  refine ⟨h.tracks, fun id hid => ?_, fun id f hf => h.minted id f (himage id f hf), nofun, h.published⟩
  have hb := h.baseline id hid
  exact ⟨hb.enabled, hb.protects, fun f hf => hb.len f (himage id f hf), fun f hf => hb.shows f (himage id f hf)⟩

/-- The snapshot of the capture under way becomes a generation, and may become the last
    one. -/
theorem Inv.publish (h : s.Inv mem) {files : MemoryFiles} {paused : ℕ → UInt8} (hpc : s.pc = .captured files paused)
    (last : Option SavedGeneration)
    (hlast : ∀ g, last = some g → s.lastCapture = some g ∨ g = ⟨some files, some paused⟩) :
    Inv mem { s with
      generations := s.generations ++ [⟨some files, some paused⟩]
      lastCapture := last
      pc := .idle } := by
  have himage : ∀ id f, HasImage { s with
      generations := s.generations ++ [⟨some files, some paused⟩]
      lastCapture := last
      pc := .idle } id f → s.HasImage id f := by
    rintro id f (⟨g, hg, hmem⟩ | hf | ⟨r, hf⟩)
    · rcases hlast g hg with hold | rfl
      · exact .inl ⟨g, hold, hmem⟩
      · cases hmem
        exact .inr (.inr ⟨paused, hpc⟩)
    · cases hf
    · cases hf
  refine ⟨h.tracks, fun id hid => ?_, fun id f hf => h.minted id f (himage id f hf), nofun, fun g hg => ?_⟩
  · have hb := h.baseline id hid
    exact ⟨hb.enabled, hb.protects, fun f hf => hb.len f (himage id f hf), fun f hf => hb.shows f (himage id f hf)⟩
  · rcases mem_append.1 hg with hg | hg
    · exact h.published g hg
    · cases mem_singleton.1 hg
      exact ⟨files, paused, rfl, rfl, h.captured files paused hpc⟩

theorem fill_ranges (gs : List DirtyRegion) : (gs.map (·.fill)).map (·.range) = gs.map (·.range) := by
  rw [map_map]
  rfl

variable {dir : Option MemoryFiles}

/-- The image that a capture writes shows RAM. -/
theorem Inv.capturePages (h : s.Inv mem) (hpc : s.pc = .staged dir) (hun : s.unmarked = [])
    (dma : List (ℕ × ℕ)) :
    mem.imageLen ≤ (s.capturePages mem dir ⟨s.tracker.dirtyBlocks, s.tracker.baseline⟩ dma).len ∧
      ∀ p, mem.Ram p →
        mem.Shows s.ram (s.capturePages mem dir ⟨s.tracker.dirtyBlocks, s.tracker.baseline⟩ dma) p := by
  unfold TrackedVm.capturePages incrementalBase
  split
  · next base hbase =>
    split at hbase
    · next id files hid =>
      split_ifs at hbase with hfiles
      cases hbase
      obtain ⟨_, pages⟩ := files
      cases hfiles
      have hb := h.baseline id hid
      have ht := h.tracks hb.enabled
      have hhas : s.HasImage id pages := .inr (.inl hpc)
      refine ⟨Nat.le_trans (hb.len pages hhas) (len_patchDirtyBlocks _ _), fun p hp => ?_⟩
      refine patchDirtyBlocks_shows _ (addVirtioDmaDirtyBlocks_in fun b hb => dirtyBlocks_in ht hb) _ p ?_
      by_cases hdirty : Dirty s.tracker.regions p
      · obtain ⟨b, hmem, hhas⟩ := exists_dirtyBlocks hdirty
        exact .inr ⟨b, mem_addVirtioDmaDirtyBlocks hmem fun b' hb' => dirtyBlocks_inj ht hb' hmem, hhas⟩
      · exact .inl (hb.shows pages hhas p hp hdirty (by rw [hun]; exact not_mem_nil))
    · cases hbase
  · exact ⟨len_writeFullPagesImg _ _, fun p hp => writeFullPagesImg_shows _ _ hp⟩

/-- A capture that succeeds: the tracker is relative to its image, and to no other. -/
theorem Inv.recaptured (h : s.Inv mem) {id : PagesImageId} {pages : PagesFile} {resumed : Bool}
    (hnew : id ∉ s.minted)
    (hpages : mem.imageLen ≤ pages.len ∧ ∀ p, mem.Ram p → mem.Shows s.ram pages p)
    (hprot : ∀ r ∈ mem.ranges, ∀ p, r.Has p → w p = false) :
    Inv mem { s with
      tracker := ⟨true, (mem.ranges.filter fun r => r.size ≠ 0).map .fresh, some id⟩
      writable := w
      minted := id :: s.minted
      pc := if resumed then .captured ⟨some id, pages⟩ s.ram else .idle } := by
  -- images of the state before have other ids
  have himage : ∀ id' f, HasImage { s with
      tracker := ⟨true, (mem.ranges.filter fun r => r.size ≠ 0).map .fresh, some id⟩
      writable := w
      minted := id :: s.minted
      pc := if resumed then .captured ⟨some id, pages⟩ s.ram else .idle } id' f →
      s.HasImage id' f ∨ id' = id ∧ f = pages := by
    rintro id' f (hf | hf | ⟨r, hf⟩)
    · exact .inl (.inl hf)
    · cases resumed <;> cases hf
    · cases resumed <;> cases hf
      exact .inr ⟨rfl, rfl⟩
  have hhere : ∀ f, _ → f = pages := fun f hf =>
    ((himage id f hf).resolve_left fun hold => hnew (h.minted id f hold)).2
  refine ⟨fun _ => ?_, fun id' hid => ?_, fun id' f hf => ?_, fun f r hf => ?_, h.published⟩
  · show mem.Tracks (List.map _ (List.map _ _))
    rw [map_range_fresh]
    exact tracks_filter (fun r hr => hr) (fun r hr => hr) mem.disjoint
  · cases hid
    refine ⟨rfl, fun p hp hw => ?_, fun f hf => ?_, fun f hf p hp _ _ => ?_⟩
    · obtain ⟨r, hr, hp⟩ := hp
      exact absurd (hw.symm.trans (hprot r hr p hp)) (by decide)
    · rw [hhere f hf]
      exact hpages.1
    · rw [hhere f hf]
      exact hpages.2 p hp
  · rcases himage id' f hf with hold | ⟨rfl, -⟩
    · exact mem_cons_of_mem id (h.minted id' f hold)
    · exact mem_cons_self
  · cases resumed <;> cases hf
    exact holds_of_shows hpages.1 hpages.2

theorem Inv.capturePaused (h : s.Inv mem) (hpc : s.pc = .staged dir) (hun : s.unmarked = [])
    {o : CaptureFate} (hfresh : ∀ id ∈ o.imageId, id ∉ s.minted) :
    Inv mem (s.capturePaused mem dir o) := by
  unfold TrackedVm.capturePaused
  split
  · exact h.drop
  unfold DirtyTracker.take
  split
  · next t w htake =>
    split at htake
    · cases htake
    · cases htake
      exact h.unbased h.tracks rfl fun _ hid => hid
  · next dirty t w htake =>
    split at htake
    · cases htake
      have htracks : s.tracker.enabled = true → mem.Tracks ((s.tracker.regions.map (·.fill)).map (·.range)) := by
        rw [fill_ranges]
        exact h.tracks
      split
      · exact h.unbased htracks rfl fun _ hid => hid
      · next id hid =>
        have hnew : id ∉ s.minted := hfresh id hid
        have hpages := h.capturePages hpc hun o.dma
        split
        · exact h.unbased htracks rfl fun _ hid => mem_cons_of_mem id hid
        split
        · next t' w' hreset =>
          obtain ⟨rfl, -⟩ := reset_failed hreset
          exact h.unbased htracks rfl fun _ hid => mem_cons_of_mem id hid
        · next t' w' hreset =>
          obtain ⟨rfl, hprot⟩ := reset_ok hreset
          exact h.recaptured hnew hpages hprot
    · cases htake

theorem Inv.step (h : s.Inv mem) {a : TrackedAct} (hstep : s.step mem a = some s') : s'.Inv mem := by
  cases a with
  | fault pa hv =>
    cases hstep
    exact h.fault pa hv
  | guestWrite p v =>
    obtain ⟨hw, rfl⟩ := of_guard hstep
    exact h.guestWrite hw
  | hostWrite p v =>
    cases hstep
    exact h.hostWrite p v
  | markDirtyRanges ranges =>
    cases hstep
    exact h.markDirtyRanges ranges
  | arm preVcpuStart hv =>
    cases hstep
    exact h.arm preVcpuStart hv
  | stage ok =>
    simp only [TrackedVm.step] at hstep
    split at hstep
    · next hpc =>
      cases hstep
      split_ifs
      · exact h.stage
      · exact h
    · cases hstep
  | capture o =>
    simp only [TrackedVm.step] at hstep
    split at hstep
    · next dir hpc =>
      split_ifs at hstep with hguard
      cases hstep
      refine h.capturePaused hpc hguard.1 fun id hid => ?_
      have hall := hguard.2
      rw [Option.mem_def.1 hid] at hall
      exact of_decide_eq_true hall
    · cases hstep
  | publish o =>
    simp only [TrackedVm.step] at hstep
    split at hstep
    · next files paused hpc =>
      cases o with
      | failed =>
        cases hstep
        exact h.drop
      | landed =>
        cases hstep
        exact h.publish hpc s.lastCapture fun g hg => .inl hg
      | ok =>
        cases hstep
        exact h.publish hpc _ fun g hg => .inr (Option.some.inj hg).symm
    · cases hstep

theorem Started.inv (h : Started mem s) : s.Inv mem := by
  cases h with
  | boot ram base minted h =>
    refine ⟨nofun, nofun, fun id f hf => ?_, nofun, nofun⟩
    rcases hf with ⟨g, hg, hmem⟩ | hf | ⟨r, hf⟩
    · exact h g hg _ hmem id rfl
    · cases hf
    · cases hf
  | restored files rest hv minted hlen h t w hreset =>
    have himage : ∀ id f, HasImage ⟨restoredRam mem files.pages rest, w, t, [], [], some ⟨some files, none⟩,
        minted, .idle⟩ id f → files = ⟨some id, f⟩ := by
      rintro id f (⟨g, hg, hmem⟩ | hf | ⟨r, hf⟩)
      · cases hg
        exact Option.some.inj hmem
      · cases hf
      · cases hf
    obtain ⟨rfl, hprot⟩ := reset_ok hreset
    refine ⟨fun _ => ?_, fun id hid => ?_, fun id f hf => ?_, nofun, nofun⟩
    · show mem.Tracks (List.map _ (List.map _ _))
      rw [map_range_fresh]
      exact tracks_filter (fun r hr => hr) (fun r hr => hr) mem.disjoint
    · refine ⟨rfl, fun p hp hw => ?_, fun f hf => ?_, fun f hf p hp _ _ o ho => ?_⟩
      · obtain ⟨r, hr, hp⟩ := hp
        exact absurd (hw.symm.trans (hprot r hr p hp)) (by decide)
      · rw [himage id f hf] at hlen
        exact hlen
      · show f.byte o = restoredRam mem files.pages rest p
        rw [restoredRam, ho, himage id f hf]
    · have := himage id f hf
      exact h id (by rw [this]; rfl)

end TrackedVm

open TrackedVm in
/-- In every history of writes, faults, marks and captures, of which any step may fail, the
    image of each generation that is published holds every byte of RAM as it was when the
    capture had paused the VM. -/
theorem published_pages_exact {mem : GuestMemory} {s₀ s : TrackedVm} {as : List TrackedAct}
    (h : Started mem s₀) (hr : as.foldlM (step mem) s₀ = some s) :
    ∀ g ∈ s.generations, ∃ f r, g.memory = some f ∧ g.paused = some r ∧ mem.Holds r f.pages :=
  (run_inv (fun _ _ _ hs hstep => Inv.step hs hstep) h.inv hr).published

/-- Two bytes of RAM. -/
def twoBytes : GuestMemory where
  regions := [⟨0, 2, by decide⟩]
  ranges := [⟨0, 2, by decide⟩]
  separate := pairwise_singleton ..
  disjoint := pairwise_singleton ..
  mapped _ h := h

/-- A capture of which every step succeeds. -/
def CaptureFate.good (id : PagesImageId) : CaptureFate :=
  ⟨true, fun _ => .done, [], some id, true, true, true, true, fun _ => .done, true⟩

/-- A full capture, one whose hook fails after the guest wrote, and two more, of which the
    second patches the image of the first. -/
def fourCaptures : List TrackedAct :=
  [.guestWrite 0 1, .arm true fun _ => .done, .stage true, .capture (.good 1), .publish .ok,
   .fault 1 .done, .guestWrite 1 7, .stage true, .capture { CaptureFate.good 2 with hookRan := false },
   .stage true, .capture (.good 3), .publish .ok,
   .fault 0 .done, .guestWrite 0 9, .stage true, .capture (.good 4), .publish .landed]

open TrackedVm in
theorem published_pages_exact_twoBytes : ∃ s,
    List.foldlM (step twoBytes) ⟨fun _ => 0, fun _ => true, {}, [], [], none, [], .idle⟩ fourCaptures = some s ∧
      s.generations.map (fun g => g.paused.map fun r => (r 0, r 1)) = [some (1, 0), some (1, 7), some (9, 7)] ∧
      ∀ g ∈ s.generations, ∃ f r, g.memory = some f ∧ g.paused = some r ∧ twoBytes.Holds r f.pages := by
  have hrun : (List.foldlM (step twoBytes) ⟨fun _ => 0, fun _ => true, {}, [], [], none, [], .idle⟩
      fourCaptures).map (fun s => s.generations.map fun g => g.paused.map fun r => (r 0, r 1)) =
      some [some (1, 0), some (1, 7), some (9, 7)] := by
    decide +kernel
  obtain ⟨s, hs, hpaused⟩ := Option.map_eq_some_iff.1 hrun
  exact ⟨s, hs, hpaused, published_pages_exact (.boot _ none [] nofun) hs⟩

end Lnx
