import Lnx.Overlay.Simulation

/-!
# The overlay as a private copy

The overlay against the plain file system that starts as a copy of the share, over whole runs
of requests.

* `sim_start`: both start alike.
* `private_copy`: every run is answered alike and leaves the share as it was, as long as the
  guest makes no directory in the place of a lower file, opens no directory or link for
  writing, only directories with `opendir`, writes to no removed file and does not remove a
  removed lower file again.
* `removed_file_as_directory`: a directory in the place of a lower file cannot be used.
-/

namespace Lnx.Overlay

open Trial

variable {L : Lower} {ign : Path → Bool} {s : State} {t : Plain} {m : ℕ → Key} {p : Path}

/-! ## The start -/

theorem Lower.disk_upper (L : Lower) (p : Path) :
    L.disk.tree .upper p = if p = [] then some ⟨L.keys, .dir⟩ else none := rfl

theorem Lower.disk_whiteouts (L : Lower) (p : Path) :
    L.disk.tree .whiteouts p = if p = [] then some ⟨L.keys + 1, .dir⟩ else none := rfl

/-- A tree with a root alone. -/
theorem wellFormed_root (k : Key) : PathTree.WellFormed Obj.isDir
    fun p : Path => if p = [] then some ⟨k, .dir⟩ else none := by
  refine ⟨⟨⟨k, .dir⟩, if_pos rfl, rfl⟩, ?_⟩
  intro p n h
  simp at h

theorem root_of_some {k : Key} {o : Obj}
    (h : (if p = [] then some (⟨k, .dir⟩ : Obj) else none) = some o) : p = [] ∧ o = ⟨k, .dir⟩ := by
  split_ifs at h with hp
  exact ⟨hp, (Option.some.inj h).symm⟩

theorem Lower.disk_vol (L : Lower) (k : Key) (l : Layer) (p : Path) :
    L.disk.vol k = some (l, p) ↔ ∃ kind, L.disk.tree l p = some ⟨k, kind⟩ := by
  have hplace : ∀ q, L.place k = some q → k < L.keys := by
    intro q hq
    obtain ⟨kind, htree⟩ := (L.place_iff k q).1 hq
    exact L.key_lt q _ htree
  change (if k = L.keys then some (Layer.upper, [])
    else if k = L.keys + 1 then some (Layer.whiteouts, [])
    else (L.place k).map fun p => (Layer.lower, p)) = some (l, p) ↔ _
  constructor
  · intro h
    split_ifs at h with hup hwhite
    · cases h
      exact ⟨.dir, by rw [hup]; rfl⟩
    · cases h
      exact ⟨.dir, by rw [hwhite]; rfl⟩
    · obtain ⟨q, hq, heq⟩ := Option.map_eq_some_iff.1 h
      cases heq
      exact (L.place_iff k p).1 hq
  · rintro ⟨kind, h⟩
    cases l with
    | lower =>
      have hk := (L.place_iff k p).2 ⟨kind, h⟩
      have hlt := hplace p hk
      rw [if_neg (Nat.ne_of_lt hlt), if_neg (Nat.ne_of_lt (Nat.lt_succ_of_lt hlt)), hk]
      rfl
    | upper =>
      obtain ⟨rfl, hobj⟩ := root_of_some h
      rw [if_pos (congrArg Obj.key hobj)]
    | whiteouts =>
      obtain ⟨rfl, hobj⟩ := root_of_some h
      have hk : k = L.keys + 1 := congrArg Obj.key hobj
      rw [hk, if_neg (Nat.succ_ne_self _), if_pos rfl]

theorem Lower.diskInv (L : Lower) : DiskInv L L.disk := by
  refine ⟨⟨?_, rfl, fun _ _ => rfl, L.disk_vol, ?_, ?_, Nat.le_add_right _ _⟩, ?_, ?_, ?_, ?_⟩
  · intro l
    cases l with
    | lower => exact L.wellFormed
    | upper | whiteouts => exact wellFormed_root _
  · intro l p o h
    cases l with
    | lower => exact Nat.lt_of_lt_of_le (L.key_lt p o h) (Nat.le_add_right _ _)
    | upper =>
      obtain ⟨-, rfl⟩ := root_of_some h
      exact Nat.lt_add_of_pos_right Nat.two_pos
    | whiteouts =>
      obtain ⟨-, rfl⟩ := root_of_some h
      exact Nat.lt_succ_self _
  · intro l p o hl h
    cases l with
    | lower => exact absurd rfl hl
    | upper =>
      obtain ⟨-, rfl⟩ := root_of_some h
      exact Nat.le_refl _
    | whiteouts =>
      obtain ⟨-, rfl⟩ := root_of_some h
      exact Nat.le_succ _
  · intro p o h hleaf
    obtain ⟨-, rfl⟩ := root_of_some h
    cases hleaf
  · intro p o h _
    obtain ⟨rfl, -⟩ := root_of_some h
    exact ⟨_, L.root, rfl⟩
  · intro p
    rw [L.disk_whiteouts, if_neg (by simp)]
  · intro p u lo hu hlo
    obtain ⟨rfl, rfl⟩ := root_of_some hu
    cases L.root.symm.trans hlo
    rfl

/-- Nothing but the share is shown at first. -/
theorem Lower.view_disk (L : Lower) : L.disk.view = L.tree := by
  funext p
  rw [Disk.view, Disk.isWhite, L.disk_whiteouts, L.disk_upper]
  by_cases hp : p = []
  · subst hp
    have hroot : L.disk.tree .lower [] = some ⟨L.rootKey, .dir⟩ := L.root
    rw [if_pos rfl, if_pos rfl, hroot, L.root]
    rfl
  · rw [if_neg hp, if_neg hp]
    rfl

theorem inv_start (L : Lower) (ign : Path → Bool) : Inv L (start L ign) := by
  have hmain : (start L ign).inodes.main =
      Function.update (fun _ => none) rootId (some (L.rootKey, ⟨rootId, L.rootKey, none⟩)) :=
    Multikey.main_insert rfl _ _
  refine ⟨L.diskInv, Multikey.agrees_empty.insert rfl _ _, ?_, ?_, rfl, ?_, ?_, ?_⟩
  · intro i k data h
    rw [hmain] at h
    by_cases hi : i = rootId
    · subst hi
      cases h
      exact ⟨rfl, Nat.lt_succ_self _, Nat.lt_of_lt_of_le (L.key_lt _ _ L.root) (Nat.le_add_right _ _)⟩
    · rw [Function.update_of_ne hi] at h
      cases h
  · intro i p h
    change (if i = rootId then some [] else none) = some p at h
    split_ifs at h with hi
    cases h
    refine ⟨⟨L.rootKey, .dir⟩, ?_, ?_⟩
    · change L.disk.view [] = _
      rw [L.view_disk, L.root]
    · rw [hmain, hi, Function.update_self]
  · intro h data hh
    cases hh
  · intro h data hh
    cases hh
  · intro h data hh
    cases hh

theorem sim_start (L : Lower) (ign : Path → Bool) : Sim L ign (start L ign) (.copyOf L) fun k => k := by
  -- a live file is one of the share
  have hlive : ∀ id, (Plain.copyOf L).Live id → id < L.keys := by
    rintro id (⟨p, hp⟩ | ⟨h, hh⟩)
    · change (L.tree p).map _ = _ at hp
      obtain ⟨o, ho, hnode⟩ := Option.map_eq_some_iff.1 hp
      have hkey : o.key = id := by
        split at hnode <;> cases hnode
        rfl
      rw [← hkey]
      exact L.key_lt p o ho
    · cases hh
  refine ⟨inv_start L ign, rfl, ?_, fun _ _ => rfl, fun _ _ _ _ h => h, ?_, fun _ => .none, rfl⟩
  · intro p
    change NodeSim (fun k => k) (L.disk.view p) ((L.tree p).map _)
    rw [L.view_disk]
    cases L.tree p with
    | none => exact .none
    | some o =>
      obtain ⟨k, kind⟩ := o
      cases kind with
      | dir => exact .dir k
      | link => exact .link k
      | file => exact .file k
  · intro id hid
    exact ⟨hlive id hid, Nat.lt_of_lt_of_le (hlive id hid) (Nat.le_add_right _ _)⟩

/-! ## Runs -/

/-- The answers to requests, one after another, and the end. -/
def run : List Request → State → List (Option Answer) × State
  | [], s => ([], s)
  | r :: rs, s =>
    let rest := run rs (serve r s).2
    ((serve r s).1.toOption :: rest.1, rest.2)

def Plain.run (t : Plain) : List Request → List (Option Answer) × Plain
  | [] => ([], t)
  | r :: rs =>
    let rest := (t.serve r).2.run rs
    ((t.serve r).1 :: rest.1, rest.2)

/-- A run all of whose requests satisfy `P`. -/
def Plain.Along (P : Plain → Request → Prop) : Plain → List Request → Prop
  | _, [] => True
  | t, r :: rs => P t r ∧ Along P (t.serve r).2 rs

theorem Sim.run (h : Sim L ign s t m) {rs : List Request}
    (hrs : t.Along (fun t r => Asked ign t r ∧ Plainly L t r) rs) :
    (run rs s).1 = (t.run rs).1 ∧ ∃ m, Sim L ign (Overlay.run rs s).2 (t.run rs).2 m := by
  induction rs generalizing s t m with
  | nil => exact ⟨rfl, m, h⟩
  | cons r rs ih =>
    obtain ⟨⟨hasked, hplain⟩, hrest⟩ := hrs
    obtain ⟨a, s', hserve, hanswer, m', h'⟩ := h.step hasked hplain
    obtain ⟨hrun, hsim⟩ := ih h' hrest
    rw [Overlay.run, Plain.run, hserve]
    exact ⟨by rw [hanswer, hrun], hsim⟩

/-- The overlay is a private copy of the share, which stays as it was. -/
theorem private_copy (L : Lower) (ign : Path → Bool) (rs : List Request)
    (hrs : (Plain.copyOf L).Along (fun t r => Asked ign t r ∧ Plainly L t r) rs) :
    (run rs (start L ign)).1 = ((Plain.copyOf L).run rs).1 ∧
      (run rs (start L ign)).2.disk.tree .lower = L.tree ∧
      ∀ k, k < L.keys → (run rs (start L ign)).2.disk.data k = L.data k := by
  obtain ⟨hanswers, m, hsim⟩ := (sim_start L ign).run hrs
  exact ⟨hanswers, hsim.inv.disk.lower, hsim.inv.disk.lowerData⟩

/-! ### A share with one file -/

theorem wellFormed_oneFile : PathTree.WellFormed Obj.isDir fun p : Path =>
    if p = [] then some ⟨0, .dir⟩ else if p = ["f"] then some ⟨1, .file⟩ else none := by
  refine ⟨⟨⟨0, .dir⟩, rfl, rfl⟩, ?_⟩
  intro p n h
  cases p with
  | nil => exact ⟨⟨0, .dir⟩, rfl, rfl⟩
  | cons a p => simp at h

theorem key_lt_oneFile (p : Path) (o : Obj)
    (h : (if p = [] then some ⟨0, .dir⟩ else if p = ["f"] then some ⟨1, .file⟩ else none) = some o) :
    o.key < 2 := by
  split_ifs at h <;> cases h <;> decide

theorem place_oneFile (k : Key) (p : Path) :
    (if k = 0 then some [] else if k = 1 then some ["f"] else none) = some p ↔
      ∃ kind, (if p = [] then some (⟨0, .dir⟩ : Obj)
        else if p = ["f"] then some ⟨1, .file⟩ else none) = some ⟨k, kind⟩ := by
  constructor
  · intro h
    split_ifs at h with h0 h1 <;> cases h
    · exact ⟨.dir, by rw [h0]; rfl⟩
    · exact ⟨.file, by rw [h1]; rfl⟩
  · rintro ⟨kind, h⟩
    split_ifs at h with h0 h1 <;> cases h
    · rw [if_pos rfl, h0]
    · rw [if_neg Nat.one_ne_zero, if_pos rfl, h1]

/-- A root with `f` in it. -/
def oneFile : Lower where
  tree p := if p = [] then some ⟨0, .dir⟩ else if p = ["f"] then some ⟨1, .file⟩ else none
  data _ := []
  keys := 2
  rootKey := 0
  wellFormed := wellFormed_oneFile
  root := rfl
  key_lt := key_lt_oneFile
  place k := if k = 0 then some [] else if k = 1 then some ["f"] else none
  place_iff := place_oneFile
  beyond _ _ _ := .error .enoent

/-- A new file is written and read, and the shared one removed. -/
theorem private_copy_oneFile :
    (run [.create [] "g", .write 1 0 [7], .read 1 0 4, .unlink [] "f"]
      (start oneFile fun _ => true)).1 =
    ((Plain.copyOf oneFile).run [.create [] "g", .write 1 0 [7], .read 1 0 4, .unlink [] "f"]).1 := by
  refine (private_copy oneFile (fun _ => true) _ ?_).1
  refine ⟨⟨⟨by decide, rfl, rfl⟩, trivial⟩, ⟨trivial, ?_⟩, ⟨trivial, trivial⟩,
    ⟨⟨by decide, rfl⟩, ?_⟩, trivial⟩
  · intro id hid
    cases hid
    exact ⟨["g"], rfl⟩
  · intro h
    cases h

/-- The directory made in the place of the removed file takes no name. -/
theorem removed_file_as_directory :
    (Plain.copyOf oneFile).Along (Asked fun _ => true)
      [.unlink [] "f", .mkdir [] "f", .mkdir ["f"] "d"] ∧
    (run [.unlink [] "f", .mkdir [] "f", .mkdir ["f"] "d"] (start oneFile fun _ => true)).1.map
      Option.isSome = [true, true, false] ∧
    ((Plain.copyOf oneFile).run [.unlink [] "f", .mkdir [] "f", .mkdir ["f"] "d"]).1.map
      Option.isSome = [true, true, true] := by
  refine ⟨⟨⟨by decide, rfl⟩, ⟨by decide, rfl, rfl⟩, ⟨by decide, rfl, rfl⟩, trivial⟩, ?_, ?_⟩
  · decide +kernel
  · decide +kernel

end Lnx.Overlay
