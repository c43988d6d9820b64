import Lnx.Overlay.Changes

/-!
# Inodes of the overlay

The server's table of inodes fits what the disk shows: an inode with a remembered path is the
file shown there.

* `Inv`: the invariant of the server.
* `lookup_some`, `lookup_none`, `walkDir_ok`: lookups find what is shown, and change only the
  table.
-/

namespace Lnx.Overlay

open Trial Function

/-- The invariant: the trees fit, remembered paths show the files of their inodes, and open
    files are not lower ones. -/
structure Inv (L : Lower) (s : State) : Prop where
  disk : DiskInv L s.disk
  agrees : s.inodes.Agrees
  entry : ∀ i k data, s.inodes.main i = some (k, data) →
    data = ⟨i, k, none⟩ ∧ i < s.nextInode ∧ k < s.disk.nextKey
  paths : ∀ i p, s.inodePaths i = some p →
    ∃ o, s.disk.view p = some o ∧ s.inodes.main i = some (o.key, ⟨i, o.key, none⟩)
  root : s.inodePaths rootId = some []
  handle_lt : ∀ h data, s.handles h = some data → h < s.nextHandle
  files : ∀ h data, s.handles h = some data → data.mode = .readWrite →
    L.keys ≤ data.key ∧ data.key < s.disk.nextKey ∧
      ∀ p o, s.disk.view p = some o → o.key = data.key → s.inodePaths data.inode = some p
  dirs : ∀ h data, s.handles h = some data → data.mode = .dir →
    ∃ p, s.inodePaths data.inode = some p ∧ s.disk.view p = some ⟨data.key, .dir⟩

/-- Only the table of inodes differs. -/
structure SameFiles (s s' : State) : Prop where
  disk : s'.disk = s.disk
  ignored : s'.ignored = s.ignored
  handles : s'.handles = s.handles
  nextHandle : s'.nextHandle = s.nextHandle

theorem SameFiles.refl (s : State) : SameFiles s s := ⟨rfl, rfl, rfl, rfl⟩

theorem SameFiles.trans {s s' s'' : State} (h : SameFiles s s') (h' : SameFiles s' s'') :
    SameFiles s s'' :=
  ⟨h'.disk.trans h.disk, h'.ignored.trans h.ignored, h'.handles.trans h.handles,
    h'.nextHandle.trans h.nextHandle⟩

/-- A name that a guest may use. -/
def ValidName (n : Name) : Prop := n.toList.contains '/' = false ∧ n ≠ "." ∧ n ≠ ".." ∧ n ≠ marker

instance (n : Name) : Decidable (ValidName n) :=
  inferInstanceAs (Decidable (_ ∧ _ ∧ _ ∧ _))

variable {L : Lower} {s : State} {p q : Path} {n : Name} {o : Obj} {i : Inode}

theorem inodePath_eq (h : s.inodePaths i = some p) : inodePath i s = (.ok p, s) := by
  simp [inodePath, h]

theorem relChildPath_eq (h : s.inodePaths i = some q) (hn : ValidName n) :
    relChildPath i n s = (.ok (q ++ [n]), s) := by
  obtain ⟨hslash, hdot, hdots, -⟩ := hn
  rw [relChildPath, bind_ok (inodePath_eq h)]
  simp only [hslash, hdot, hdots, decide_false, Bool.or_false, Bool.false_eq_true, if_false]
  rfl

theorem Inv.getInode_eq (hs : Inv L s) (h : s.inodePaths i = some p)
    (hview : s.disk.view p = some o) : getInode i s = (.ok ⟨i, o.key, none⟩, s) := by
  obtain ⟨o', ho', hmain⟩ := hs.paths i p h
  cases hview.symm.trans ho'
  simp [getInode, Multikey.get, hmain]

/-! ## Remembered paths -/

/-- A path is remembered for the inode of the file that is shown there. -/
theorem Inv.remember (hs : Inv L s) (hview : s.disk.view p = some o)
    (hmain : s.inodes.main i = some (o.key, ⟨i, o.key, none⟩)) :
    Inv L { s with inodePaths := update s.inodePaths i (some p) } := by
  -- the inode had this path already, if it had one
  have hold : ∀ p', s.inodePaths i = some p' → p' = p := by
    intro p' hp'
    obtain ⟨o', ho', hmain'⟩ := hs.paths i p' hp'
    rw [hmain] at hmain'
    exact hs.disk.view_key ho' hview (congrArg Prod.fst (Option.some.inj hmain')).symm
  have hkeep : ∀ j p', s.inodePaths j = some p' →
      update s.inodePaths i (some p) j = some p' := by
    intro j p' hp'
    by_cases hj : j = i
    · subst hj
      rw [update_self, hold p' hp']
    · rw [update_of_ne hj, hp']
  refine ⟨hs.disk, hs.agrees, hs.entry, ?_, hkeep _ _ hs.root, hs.handle_lt, ?_, ?_⟩
  · intro j p' hp'
    by_cases hj : j = i
    · subst hj
      cases (update_self _ _ _).symm.trans hp'
      exact ⟨o, hview, hmain⟩
    · exact hs.paths j p' ((update_of_ne hj _ _).symm.trans hp')
  · intro h data hh hdata
    obtain ⟨hle, hlt, hpath⟩ := hs.files h data hh hdata
    exact ⟨hle, hlt, fun p' o' ho' hkey => hkeep _ _ (hpath p' o' ho' hkey)⟩
  · intro h data hh hdata
    obtain ⟨p', hp', hview'⟩ := hs.dirs h data hh hdata
    exact ⟨p', hkeep _ _ hp', hview'⟩

/-- A file that is shown has an inode, or gets one. -/
theorem Inv.inodeOf_spec (hs : Inv L s) (hview : s.disk.view p = some o) :
    ∃ i s', inodeOf o.key s = (.ok i, s') ∧ Inv L s' ∧ SameFiles s s' ∧
      s'.inodes.main i = some (o.key, ⟨i, o.key, none⟩) := by
  cases hget : s.inodes.getAlt o.key with
  | some data =>
    obtain ⟨k, hk⟩ := hs.agrees.getAlt hget
    obtain ⟨rfl, -, -⟩ := hs.entry k _ data hk
    exact ⟨k, s, by simp [inodeOf, hget], hs, .refl s, hk⟩
  | none =>
    have halt := hs.agrees.getAlt_none hget
    refine ⟨s.nextInode, { s with
      inodes := s.inodes.insert s.nextInode o.key ⟨s.nextInode, o.key, none⟩
      nextInode := s.nextInode + 1 }, by simp only [inodeOf, hget], ?_, ⟨rfl, rfl, rfl, rfl⟩, ?_⟩
    · have hlt : o.key < s.disk.nextKey := by
        obtain ⟨l, -, hl⟩ := tree_of_view hview
        exact hs.disk.key_lt l p o hl
      refine ⟨hs.disk, hs.agrees.insert halt _ _, ?_, ?_, hs.root, hs.handle_lt, hs.files, hs.dirs⟩
      · intro i k data hi
        rw [Multikey.main_insert halt] at hi
        by_cases hne : i = s.nextInode
        · subst hne
          rw [update_self] at hi
          cases hi
          exact ⟨rfl, Nat.lt_succ_self _, hlt⟩
        · rw [update_of_ne hne] at hi
          obtain ⟨hdata, hi, hk⟩ := hs.entry i k data hi
          exact ⟨hdata, Nat.lt_succ_of_lt hi, hk⟩
      · intro i p' hp'
        obtain ⟨o', ho', hmain⟩ := hs.paths i p' hp'
        have hne : i ≠ s.nextInode := Nat.ne_of_lt (hs.entry i _ _ hmain).2.1
        exact ⟨o', ho', by rw [Multikey.main_insert halt, update_of_ne hne, hmain]⟩
    · rw [Multikey.main_insert halt, update_self]

/-! ## Lookups -/

/-- The size that a lookup reports. -/
def sizeOf (d : Disk) (o : Obj) : ℕ := if o.kind = .file then (d.data o.key).length else 0

theorem Inv.lookup_some (hs : Inv L s) (hi : s.inodePaths i = some q) (hq : s.disk.ShowsDir q)
    (hn : ValidName n) (hview : s.disk.view (q ++ [n]) = some o) :
    ∃ j s', lookup i n s = (.ok ⟨j, o.kind, sizeOf s.disk o⟩, s') ∧ Inv L s' ∧ SameFiles s s' ∧
      s'.inodePaths j = some (q ++ [n]) := by
  obtain ⟨l, hover, hstat⟩ := hs.disk.overlayPath_some hq hview
  obtain ⟨j, s₁, hinode, hs₁, hsame, hmain⟩ := hs.inodeOf_spec hview
  obtain ⟨x, hx, -⟩ := hq
  have hview₁ : s₁.disk.view (q ++ [n]) = some o := by rw [hsame.disk, hview]
  refine ⟨j, _, ?_, hs₁.remember hview₁ hmain, ⟨hsame.disk, hsame.ignored, hsame.handles,
    hsame.nextHandle⟩, update_self _ _ _⟩
  rw [lookup, bind_ok (relChildPath_eq hi hn), bind_ok (hs.getInode_eq hi hx),
    bind_ask, hover, next_ok]
  simp only
  rw [bind_ask, hstat, next_ok, bind_ok hinode, rememberInodePath, bind_edit, bind_ask, next_ok,
    sizeOf, ← hsame.disk]
  rfl

theorem Inv.lookup_none (hs : Inv L s) (hi : s.inodePaths i = some q) (hq : s.disk.ShowsDir q)
    (hn : ValidName n) (hview : s.disk.view (q ++ [n]) = none) :
    ∃ e, lookup i n s = (.error e, s) := by
  obtain ⟨x, hx, hdir⟩ := id hq
  rw [lookup, bind_ok (relChildPath_eq hi hn), bind_ok (hs.getInode_eq hi hx)]
  rcases hs.disk.overlayPath_none hq hview with hover | ⟨hover, hstat⟩
  · rw [bind_ask, hover]
    exact ⟨_, rfl⟩
  · rw [bind_ask, hover, next_ok]
    simp only
    rw [bind_ask, hstat]
    exact ⟨_, rfl⟩

theorem SameFiles.showsDir {s' : State} (h : SameFiles s s') : s'.disk.ShowsDir q ↔ s.disk.ShowsDir q := by
  rw [h.disk]

/-- The guest comes to a directory that is shown. -/
theorem Inv.walkDir_ok (hs : Inv L s) (hi : s.inodePaths i = some q) (rest : Path)
    (hvalid : ∀ n ∈ rest, ValidName n) (hshown : s.disk.ShowsDir (q ++ rest)) :
    ∃ j s', walkDir i rest s = (.ok j, s') ∧ Inv L s' ∧ SameFiles s s' ∧
      s'.inodePaths j = some (q ++ rest) := by
  induction rest generalizing s i q with
  | nil =>
    rw [List.append_nil]
    exact ⟨i, s, rfl, hs, .refl s, hi⟩
  | cons n rest ih =>
    rw [List.forall_mem_cons] at hvalid
    have hpath : q ++ n :: rest = q ++ [n] ++ rest := by simp
    have hq : s.disk.ShowsDir q := by
      obtain ⟨o, ho, -⟩ := hshown
      exact hs.disk.view_wellFormed.above (n := n) rest (by rw [ho]; exact Option.some_ne_none o)
    obtain ⟨o, ho, hdir⟩ : s.disk.ShowsDir (q ++ [n]) := by
      rw [hpath] at hshown
      cases rest with
      | nil => simpa using hshown
      | cons m rest =>
        obtain ⟨o, ho, -⟩ := hshown
        exact hs.disk.view_wellFormed.above (n := m) rest (by rw [ho]; exact Option.some_ne_none o)
    have hkind : o.kind = .dir := by simpa [Obj.isDir] using hdir
    obtain ⟨j, s₁, hlook, hs₁, hsame₁, hj⟩ := hs.lookup_some hi hq hvalid.1 ho
    rw [hpath, ← hsame₁.showsDir] at hshown
    obtain ⟨k, s₂, hwalk, hs₂, hsame₂, hk⟩ := ih hs₁ hj hvalid.2 hshown
    refine ⟨k, s₂, ?_, hs₂, hsame₁.trans hsame₂, by rw [hk, hpath]⟩
    rw [walkDir, bind_ok hlook]
    simp only [hkind, if_true]
    exact hwalk

theorem Inv.walkDir_error (hs : Inv L s) (hi : s.inodePaths i = some q) (hq : s.disk.ShowsDir q)
    (rest : Path) (hvalid : ∀ n ∈ rest, ValidName n) (hshown : ¬ s.disk.ShowsDir (q ++ rest)) :
    ∃ e s', walkDir i rest s = (.error e, s') ∧ Inv L s' ∧ SameFiles s s' := by
  induction rest generalizing s i q with
  | nil => exact absurd (by simpa using hq) hshown
  | cons n rest ih =>
    rw [List.forall_mem_cons] at hvalid
    have hpath : q ++ n :: rest = q ++ [n] ++ rest := by simp
    cases hview : s.disk.view (q ++ [n]) with
    | none =>
      obtain ⟨e, hlook⟩ := hs.lookup_none hi hq hvalid.1 hview
      exact ⟨e, s, by rw [walkDir, bind_error hlook], hs, .refl s⟩
    | some o =>
      obtain ⟨j, s₁, hlook, hs₁, hsame₁, hj⟩ := hs.lookup_some hi hq hvalid.1 hview
      rw [walkDir, bind_ok hlook]
      by_cases hkind : o.kind = .dir
      · have hq₁ : s₁.disk.ShowsDir (q ++ [n]) :=
          hsame₁.showsDir.2 ⟨o, hview, by simp [Obj.isDir, hkind]⟩
        rw [hpath, ← hsame₁.showsDir] at hshown
        obtain ⟨e, s₂, hwalk, hs₂, hsame₂⟩ := ih hs₁ hj hq₁ hvalid.2 hshown
        simp only [hkind, if_true]
        exact ⟨e, s₂, hwalk, hs₂, hsame₁.trans hsame₂⟩
      · simp only [hkind, if_false]
        exact ⟨_, s₁, rfl, hs₁, hsame₁⟩

end Lnx.Overlay
