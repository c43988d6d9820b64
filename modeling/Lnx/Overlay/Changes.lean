import Lnx.Overlay.View

/-!
# Changes of the overlay's trees

What the steps of the overlay do to the disk, and to what is shown of it.

* `DiskInv.addUpper`, `removeUpper`, `addWhiteFile`, `removeWhite`: the changes one at a time.
* `Grown`: a layer gets directories on the way to a path; `Sound.createDirAll_spec`.
* `DiskInv.createDirectWhiteout`, `clearDirectWhiteout`: the functions of the
  source that are made of them.
-/

namespace Lnx.Overlay

open List PathTree Function

section changes

variable {L : Lower} {d d' : Disk} {l : Layer} {p q : Path} {n : Name} {o : Obj} {kind : Kind}
  {content : List UInt8}

/-- Old files keep their contents. -/
structure Frame (d d' : Disk) : Prop where
  next : d.nextKey ≤ d'.nextKey
  data : ∀ k, k < d.nextKey → d'.data k = d.data k

theorem Frame.refl (d : Disk) : Frame d d := ⟨Nat.le_refl _, fun _ _ => rfl⟩

theorem Frame.trans {d'' : Disk} (h : Frame d d') (h' : Frame d' d'') : Frame d d'' :=
  ⟨Nat.le_trans h.next h'.next,
    fun k hk => (h'.data k (Nat.lt_of_lt_of_le hk h.next)).trans (h.data k hk)⟩

theorem Frame.add (d : Disk) (l : Layer) (p : Path) (kind : Kind) (content : List UInt8) :
    Frame d (d.add l p kind content) :=
  ⟨Nat.le_succ _, fun _ hk => update_of_ne (Nat.ne_of_lt hk) _ _⟩

theorem Frame.remove (d : Disk) (l : Layer) (p : Path) (o : Obj) : Frame d (d.remove l p o) :=
  ⟨Nat.le_refl _, fun _ _ => rfl⟩

theorem add_tree_apart {l' : Layer} (h : (l', q) ≠ (l, p)) :
    (d.add l p kind content).tree l' q = d.tree l' q := setTree_apart h

theorem add_tree_same (d : Disk) (l : Layer) (p : Path) (kind : Kind) (content : List UInt8) :
    (d.add l p kind content).tree l p = some ⟨d.nextKey, kind⟩ := setTree_same _ _ _ _

theorem remove_tree_apart {l' : Layer} (h : (l', q) ≠ (l, p)) :
    (d.remove l p o).tree l' q = d.tree l' q := setTree_apart h

theorem remove_tree_same (d : Disk) (l : Layer) (p : Path) (o : Obj) :
    (d.remove l p o).tree l p = none := setTree_same _ _ _ _

/-- What is shown at a path depends on the trees there. -/
theorem view_congr (h : ∀ l, d'.tree l q = d.tree l q) : d'.view q = d.view q := by
  rw [Disk.view, Disk.view, Disk.isWhite, Disk.isWhite, h, h, h]

theorem view_add (d : Disk) (l : Layer) (p : Path) (kind : Kind) (content : List UInt8) :
    (d.add l p kind content).view =
      update d.view p ((d.add l p kind content).view p) := by
  funext q
  by_cases hq : q = p
  · rw [hq, update_self]
  · rw [update_of_ne hq]
    exact view_congr fun l' => add_tree_apart fun h => hq (congrArg Prod.snd h)

theorem view_remove (d : Disk) (l : Layer) (p : Path) (o : Obj) :
    (d.remove l p o).view = update d.view p ((d.remove l p o).view p) := by
  funext q
  by_cases hq : q = p
  · rw [hq, update_self]
  · rw [update_of_ne hq]
    exact view_congr fun l' => remove_tree_apart fun h => hq (congrArg Prod.snd h)

/-- Where there is a whiteout nothing is in the upper tree. -/
theorem DiskInv.not_white_of_upper (hd : DiskInv L d) (h : d.tree .upper p = some o) :
    d.isWhite p = false := by
  by_contra hwhite
  rw [Bool.not_eq_false] at hwhite
  obtain ⟨w, hw, hleaf⟩ := (Option.any_eq_true _ _).1 hwhite
  obtain ⟨hnone, -⟩ := hd.white_file p w hw (by simpa using hleaf)
  rw [h] at hnone
  cases hnone

/-! ## One at a time -/

/-- What the invariant asks of one path. -/
structure Fits (L : Lower) (d : Disk) (p : Path) : Prop where
  file : ∀ w, d.tree .whiteouts p = some w → w.isDir = false →
    d.tree .upper p = none ∧ ∃ lo, L.tree p = some lo ∧ lo.isDir = false
  dir : ∀ w, d.tree .whiteouts p = some w → w.isDir = true → ∃ lo, L.tree p = some lo ∧ lo.isDir = true
  marker : p.getLast? = some marker → d.tree .whiteouts p = none
  same : ∀ u lo, d.tree .upper p = some u → L.tree p = some lo → u.isDir = lo.isDir

section

variable (hd : DiskInv L d)

include hd

theorem DiskInv.fits (p : Path) : Fits L d p := by
  refine ⟨hd.white_file p, hd.white_dir p, ?_, hd.same p⟩
  intro hlast
  obtain ⟨q, rfl⟩ := List.getLast?_eq_some_iff.1 hlast
  exact hd.white_marker q

/-- It holds where the trees are as before, or as it asks. -/
theorem DiskInv.of_fits (hs : Sound L d') (h : ∀ p, (∀ l, d'.tree l p = d.tree l p) ∨ Fits L d' p) :
    DiskInv L d' := by
  have hfits : ∀ p, Fits L d' p := by
    intro p
    rcases h p with hsame | hfits
    · obtain ⟨hfile, hdir, hmarker, hkind⟩ := hd.fits p
      exact ⟨by rwa [hsame, hsame], by rwa [hsame], by rwa [hsame], by rwa [hsame]⟩
    · exact hfits
  exact ⟨hs, fun p => (hfits p).file, fun p => (hfits p).dir, fun p => (hfits _).marker (by simp),
    fun p => (hfits p).same⟩

theorem DiskInv.add (hl : l ≠ .lower) (hparent : d.HasDir l p) (hfree : d.tree l (p ++ [n]) = none)
    (hfits : Fits L (d.add l (p ++ [n]) kind content) (p ++ [n])) :
    DiskInv L (d.add l (p ++ [n]) kind content) := by
  refine hd.of_fits (hd.toSound.add hl kind content hparent hfree) fun q => ?_
  by_cases hq : q = p ++ [n]
  · exact .inr (hq ▸ hfits)
  · exact .inl fun l' => add_tree_apart (by simp [hq])

theorem DiskInv.remove (hl : l ≠ .lower) (hp : d.tree l p = some o) (hleaf : o.isDir = false)
    (hfits : Fits L (d.remove l p o) p) : DiskInv L (d.remove l p o) := by
  refine hd.of_fits (hd.toSound.remove hl hp ((hd.wf l).leaf hp hleaf)) fun q => ?_
  by_cases hq : q = p
  · exact .inr (hq ▸ hfits)
  · exact .inl fun l' => remove_tree_apart (by simp [hq])

/-- A file in the upper tree, of the kind the lower one has there. -/
theorem DiskInv.addUpper (content : List UInt8) (hparent : d.HasDir .upper p)
    (hfree : d.tree .upper (p ++ [n]) = none) (hwhite : d.isWhite (p ++ [n]) = false)
    (hkind : ∀ lo, L.tree (p ++ [n]) = some lo → (kind == .dir) = lo.isDir) :
    DiskInv L (d.add .upper (p ++ [n]) kind content) := by
  obtain ⟨-, hdir, hmarker, -⟩ := hd.fits (p ++ [n])
  refine hd.add (by decide) hparent hfree ⟨?_, ?_, ?_, ?_⟩
  · intro w hw hleaf
    rw [add_tree_apart (by simp)] at hw
    rw [Disk.isWhite, hw] at hwhite
    simp [hleaf] at hwhite
  · rwa [add_tree_apart (by simp)]
  · rwa [add_tree_apart (by simp)]
  · intro u lo hu
    rw [add_tree_same] at hu
    cases hu
    exact hkind lo

theorem DiskInv.view_addUpper (content : List UInt8) (hwhite : d.isWhite p = false) :
    (d.add .upper p kind content).view =
      update d.view p (stacked (some ⟨d.nextKey, kind⟩) (L.tree p)) := by
  rw [view_add]
  congr 1
  have hwhite' : (d.add .upper p kind content).isWhite p = false := by
    exact hwhite
  rw [view_of_not_white hwhite', add_tree_same, add_tree_apart (by simp), hd.lower]

/-- A file of the upper tree is removed. -/
theorem DiskInv.removeUpper (hp : d.tree .upper p = some o) (hleaf : o.isDir = false) :
    DiskInv L (d.remove .upper p o) := by
  obtain ⟨hfile, hdir, hmarker, -⟩ := hd.fits p
  refine hd.remove (by decide) hp hleaf ⟨?_, ?_, ?_, ?_⟩
  · rw [remove_tree_apart (by simp), remove_tree_same]
    exact fun w hw hw' => ⟨rfl, (hfile w hw hw').2⟩
  · rwa [remove_tree_apart (by simp)]
  · rwa [remove_tree_apart (by simp)]
  · intro u lo hu
    rw [remove_tree_same] at hu
    cases hu

end

theorem isWhite_remove (d : Disk) (p : Path) (o : Obj) :
    (d.remove .upper p o).isWhite p = d.isWhite p := by
  rw [Disk.isWhite, remove_tree_apart (by simp), Disk.isWhite]

theorem DiskInv.view_removeUpper (hd : DiskInv L d) (hp : d.tree .upper p = some o) :
    (d.remove .upper p o).view = update d.view p (L.tree p) := by
  rw [view_remove]
  congr 1
  have hwhite := hd.not_white_of_upper hp
  rw [view_of_not_white ((isWhite_remove d p o).trans hwhite), remove_tree_same, remove_tree_apart (by simp), hd.lower]
  rfl

theorem not_marker (hn : n ≠ marker) : (p ++ [n]).getLast? ≠ some marker := by
  simpa using hn

/-- A whiteout is added in the place of a lower file. -/
theorem DiskInv.addWhiteFile (hd : DiskInv L d) (content : List UInt8)
    (hparent : d.HasDir .whiteouts p)
    (hfree : d.tree .whiteouts (p ++ [n]) = none) (hupper : d.tree .upper (p ++ [n]) = none)
    (hlower : ∃ lo, L.tree (p ++ [n]) = some lo ∧ lo.isDir = false) (hmarker : n ≠ marker) :
    DiskInv L (d.add .whiteouts (p ++ [n]) .file content) := by
  have hupper' : (d.add .whiteouts (p ++ [n]) .file content).tree .upper (p ++ [n]) = none := by
    rw [add_tree_apart (by simp), hupper]
  refine hd.add (by decide) hparent hfree
    ⟨fun _ _ _ => ⟨hupper', hlower⟩, ?_, fun h => absurd h (not_marker hmarker), ?_⟩
  · intro w hw hdir
    rw [add_tree_same] at hw
    cases hw
    cases hdir
  · rw [hupper']
    exact fun u lo hu => by cases hu

theorem view_addWhiteFile (d : Disk) (p : Path) (content : List UInt8) :
    (d.add .whiteouts p .file content).view = update d.view p none := by
  rw [view_add]
  congr 1
  have hwhite : (d.add .whiteouts p .file content).isWhite p = true := by
    rw [Disk.isWhite, add_tree_same]
    rfl
  rw [Disk.view, if_pos hwhite]

/-- A whiteout is removed. -/
theorem DiskInv.removeWhite (hd : DiskInv L d) (hp : d.tree .whiteouts p = some o)
    (hleaf : o.isDir = false) : DiskInv L (d.remove .whiteouts p o) := by
  have hnone := remove_tree_same d .whiteouts p o
  refine hd.remove (by decide) hp hleaf ⟨?_, ?_, fun _ => hnone, ?_⟩
  · rw [hnone]
    exact fun w hw => by cases hw
  · rw [hnone]
    exact fun w hw => by cases hw
  · rw [remove_tree_apart (by simp)]
    exact hd.same p

theorem DiskInv.setData (hd : DiskInv L d) {k : Key} (hk : L.keys ≤ k) (content : List UInt8) :
    DiskInv L (d.setData k content) :=
  ⟨hd.toSound.setData hk content, hd.white_file, hd.white_dir, hd.white_marker, hd.same⟩

/-! ## The functions on whiteouts -/

/-- `clear_direct_whiteout` has nothing to do without a whiteout. -/
theorem Sound.clearDirectWhiteout_eq (hs : Sound L d) (h : d.Open q)
    (hhidden : d.hidden (q ++ [n]) = false) : d.clearDirectWhiteout (q ++ [n]) = .ok d := by
  have hclear := hs.clear h (l := .whiteouts) (by decide) n
  rw [Disk.clearDirectWhiteout, hs.pathMetadata_eq hclear]
  cases hw : d.tree .whiteouts (q ++ [n]) with
  | none => simp [hs.removeFile_missing hclear hw]
  | some w =>
    obtain ⟨hdir, hnone⟩ := (not_hidden_iff hw).1 hhidden
    have hclear' := hclear.concat (fun a ha => by cases ha.symm.trans hw; exact hdir) marker
    simp only [Option.any_some, hdir, if_true, hs.removeFile_missing hclear' hnone]

/-- It leaves the name without a whiteout, and everything else. -/
theorem DiskInv.clearDirectWhiteout (hd : DiskInv L d) (h : d.ShowsDir q) (n : Name) :
    ∃ d', d.clearDirectWhiteout (q ++ [n]) = .ok d' ∧ DiskInv L d' ∧ Frame d d' ∧
      d'.isWhite (q ++ [n]) = false ∧ (∀ p, p ≠ q ++ [n] → d'.view p = d.view p) ∧
      (∀ l p, l ≠ .whiteouts → d'.tree l p = d.tree l p) ∧ d'.nextKey = d.nextKey := by
  cases hwhite : d.isWhite (q ++ [n]) with
  | false =>
    have hrun := hd.clearDirectWhiteout_eq (hd.open h) ((hd.hidden_eq _).trans hwhite)
    exact ⟨d, hrun, hd, .refl d, hwhite, fun _ _ => rfl, fun _ _ _ => rfl, rfl⟩
  | true =>
    obtain ⟨w, hw, hleaf⟩ := (Option.any_eq_true _ _).1 hwhite
    rw [Bool.not_eq_true'] at hleaf
    refine ⟨d.remove .whiteouts (q ++ [n]) w, ?_, hd.removeWhite hw hleaf, .remove _ _ _ _, ?_, ?_,
      ?_, rfl⟩
    · rw [Disk.clearDirectWhiteout, hd.pathMetadata_eq (hd.clear h _ n), hw]
      simp only [Option.any_some, hleaf, Bool.false_eq_true, if_false, hd.removeFile_eq hw hleaf]
    · rw [Disk.isWhite, remove_tree_same]
      rfl
    · intro p hp
      rw [view_remove, update_of_ne hp]
    · intro l p hl
      exact remove_tree_apart (by simp [hl])

/-! ## Directories on the way -/

/-- A layer has got directories on the way to `q`. -/
structure Grown (l : Layer) (q : Path) (d d' : Disk) : Prop where
  frame : Frame d d'
  other : ∀ l' p, l' ≠ l → d'.tree l' p = d.tree l' p
  kept : ∀ p o, d.tree l p = some o → d'.tree l p = some o
  made : ∀ p o, d.tree l p = none → d'.tree l p = some o → o.isDir = true ∧ p <+: q

theorem Grown.refl (l : Layer) (q : Path) (d : Disk) : Grown l q d d := by
  refine ⟨.refl d, fun _ _ _ => rfl, fun _ _ h => h, ?_⟩
  intro p o hnone ho
  cases hnone.symm.trans ho

theorem Grown.trans {d'' : Disk} (h : Grown l q d d') (h' : Grown l q d' d'') : Grown l q d d'' := by
  refine ⟨h.frame.trans h'.frame, fun l' p hl => (h'.other l' p hl).trans (h.other l' p hl),
    fun p o ho => h'.kept p o (h.kept p o ho), ?_⟩
  intro p o hnone ho
  cases hp : d'.tree l p with
  | none => exact h'.made p o hp ho
  | some o' =>
    cases (h'.kept p o' hp).symm.trans ho
    exact h.made p o hnone hp

theorem Grown.add (hfree : d.tree l p = none) (hp : p <+: q) : Grown l q d (d.add l p .dir []) := by
  refine ⟨.add _ _ _ _ _, fun l' p' hl => add_tree_apart (by simp [hl]), ?_, ?_⟩
  · intro p' o ho
    have hne : p' ≠ p := by
      rintro rfl
      cases hfree.symm.trans ho
    rw [add_tree_apart (by simp [hne]), ho]
  · intro p' o hnone ho
    by_cases hp' : p' = p
    · rw [hp', add_tree_same] at ho
      cases ho
      exact ⟨rfl, hp' ▸ hp⟩
    · rw [add_tree_apart (by simp [hp']), hnone] at ho
      cases ho

/-- A path is as before, or has got a directory. -/
theorem Grown.cases (h : Grown l q d d') (p : Path) :
    (∀ l', d'.tree l' p = d.tree l' p) ∨ (d.tree l p = none ∧ d'.HasDir l p ∧ p <+: q) := by
  have hsame : d'.tree l p = d.tree l p → ∀ l', d'.tree l' p = d.tree l' p := by
    intro heq l'
    by_cases hl : l' = l
    · rw [hl, heq]
    · exact h.other l' p hl
  cases hold : d.tree l p with
  | some o => exact .inl (hsame (by rw [h.kept p o hold, hold]))
  | none =>
    cases hnew : d'.tree l p with
    | none => exact .inl (hsame (by rw [hnew, hold]))
    | some o =>
      obtain ⟨hdir, hp⟩ := h.made p o hold hnew
      exact .inr ⟨rfl, ⟨o, hnew, hdir⟩, hp⟩

/-- A name in `q` is as before. -/
theorem Grown.below (h : Grown l q d d') (l' : Layer) (n : Name) :
    d'.tree l' (q ++ [n]) = d.tree l' (q ++ [n]) := by
  refine ((h.cases (q ++ [n])).resolve_right ?_) l'
  rintro ⟨-, -, hp⟩
  exact absurd hp.length_le (by simp)

/-- The directories of `base ++ rest`, those that are missing made. -/
def Disk.mkdirs (d : Disk) (l : Layer) (base : Path) : Path → Disk
  | [] => d
  | n :: rest =>
    Disk.mkdirs (if (d.tree l (base ++ [n])).isSome then d else d.add l (base ++ [n]) .dir []) l
      (base ++ [n]) rest

theorem Sound.clear_of_hasDir (hs : Sound L d) (h : d.HasDir l p) (n : Name) :
    Clear Obj.isDir (d.tree l) (p ++ [n]) := by
  obtain ⟨o, ho, hdir⟩ := h
  refine ((hs.wf l).clear (by simp [ho])).concat ?_ n
  intro a ha
  cases ha.symm.trans ho
  exact hdir

/-- `create_dir_all`, where no file is on the way. -/
theorem Sound.createDirAll_spec (hs : Sound L d) (hl : l ≠ .lower) (base rest : Path)
    (hbase : d.HasDir l base)
    (hdir : ∀ p o, p <+: base ++ rest → d.tree l p = some o → o.isDir = true) :
    d.createDirAll l base rest = .ok (d.mkdirs l base rest) ∧ Sound L (d.mkdirs l base rest) ∧
      Grown l (base ++ rest) d (d.mkdirs l base rest) ∧
      (d.mkdirs l base rest).HasDir l (base ++ rest) := by
  induction rest generalizing d base with
  | nil =>
    rw [append_nil]
    exact ⟨rfl, hs, .refl _ _ _, hbase⟩
  | cons m rest ih =>
    have hpath : base ++ m :: rest = base ++ [m] ++ rest := by simp
    rw [hpath] at hdir ⊢
    rw [Disk.createDirAll, Disk.mkdirs, hs.pathMetadata_eq (hs.clear_of_hasDir hbase m)]
    cases hm : d.tree l (base ++ [m]) with
    | some o =>
      have hodir := hdir _ o (prefix_append _ _) hm
      have hkind : o.kind = .dir := by simpa [Obj.isDir] using hodir
      simp only [hkind, if_true, Option.isSome_some]
      exact ih hs (base ++ [m]) ⟨o, hm, hodir⟩ hdir
    | none =>
      simp only [hs.createAt_eq .dir [] hbase hm, Option.isSome_none, Bool.false_eq_true, if_false]
      have hgrown : Grown l (base ++ [m] ++ rest) d (d.add l (base ++ [m]) .dir []) :=
        .add hm (prefix_append _ _)
      have hdir' : ∀ p o, p <+: base ++ [m] ++ rest →
          (d.add l (base ++ [m]) .dir []).tree l p = some o → o.isDir = true := by
        intro p o hp ho
        rcases hgrown.cases p with hsame | ⟨-, ⟨o', ho', hdir'⟩, -⟩
        · exact hdir p o hp ((hsame l).symm.trans ho)
        · cases ho.symm.trans ho'
          exact hdir'
      obtain ⟨hrun, hs', hgrown', hlast⟩ := ih (hs.add hl .dir [] hbase hm) (base ++ [m])
        ⟨_, add_tree_same _ _ _ _ _, rfl⟩ hdir'
      exact ⟨hrun, hs', hgrown.trans hgrown', hlast⟩

/-- Directories of whiteouts hide nothing. -/
theorem Grown.view (h : Grown .whiteouts q d d') : d'.view = d.view := by
  funext p
  rcases h.cases p with hsame | ⟨hnone, ⟨o, ho, hdir⟩, -⟩
  · exact view_congr hsame
  · rw [Disk.view, Disk.view, Disk.isWhite, Disk.isWhite, ho, hnone, h.other _ _ (by decide),
      h.other _ _ (by decide)]
    simp [hdir]

/-- Directories in the upper tree, along a path of directories that are shown, show nothing. -/
theorem Grown.shown (h : Grown .upper q d d') (hq : d.Open q) : d'.shown = d.shown := by
  funext p
  have hhidden : d'.hidden p = d.hidden p := by
    rw [Disk.hidden, Disk.hidden, h.other _ _ (by decide), h.other _ _ (by decide)]
  rw [Disk.shown, Disk.shown, hhidden]
  rcases h.cases p with hsame | ⟨hnone, ⟨o, ho, hdir⟩, hp⟩
  · rw [hsame, hsame]
  · obtain ⟨x, hx, hxdir⟩ := hq p hp
    rw [Disk.shown, hnone] at hx
    rw [hnone, ho, h.other _ _ (by decide)]
    split_ifs at hx ⊢ with hh
    have hlower : d.tree .lower p = some x := hx
    simp [hlower, hdir, hxdir]

/-- `create_dir_all` in the whiteouts. -/
theorem Sound.mkdirs_white (hs : Sound L d) (h : d.Open q) :
    d.createDirAll .whiteouts [] q = .ok (d.mkdirs .whiteouts [] q) ∧
      Sound L (d.mkdirs .whiteouts [] q) ∧ Grown .whiteouts q d (d.mkdirs .whiteouts [] q) ∧
      (d.mkdirs .whiteouts [] q).HasDir .whiteouts q :=
  hs.createDirAll_spec (l := .whiteouts) (by decide) [] q (hs.wf .whiteouts).root
    fun _ _ hp => hs.isDir h (by decide) hp

/-- `create_direct_whiteout` where nothing is in the whiteouts. -/
theorem Sound.createDirectWhiteout_eq (hs : Sound L d) (h : d.Open q)
    (hw : d.tree .whiteouts (q ++ [n]) = none) : d.createDirectWhiteout (q ++ [n]) =
      .ok ((d.mkdirs .whiteouts [] q).add .whiteouts (q ++ [n]) .file []) := by
  obtain ⟨hrun, hs', hgrown, hdir⟩ := hs.mkdirs_white h
  have hfree := (hgrown.below .whiteouts n).trans hw
  rw [Disk.createDirectWhiteout, hs.pathMetadata_eq (hs.clear h (by decide) n), hw]
  simp only [Option.any_none, Bool.false_eq_true, if_false, dropLast_concat, hrun]
  rw [Disk.writeFile, hs'.pathMetadata_eq (hs'.clear_of_hasDir hdir n), hfree]
  exact hs'.createAt_eq .file [] hdir hfree

theorem DiskInv.mkdirs_white (hd : DiskInv L d) (h : d.ShowsDir q)
    (hlower : ∃ lo, L.tree q = some lo ∧ lo.isDir = true) (hmarker : marker ∉ q) :
    DiskInv L (d.mkdirs .whiteouts [] q) := by
  obtain ⟨-, hs, hgrown, -⟩ := hd.toSound.mkdirs_white (hd.open h)
  refine hd.of_fits hs fun p => (hgrown.cases p).imp_right ?_
  rintro ⟨-, ⟨o, ho, hodir⟩, rest, rfl⟩
  have hlower' : ∃ lo, L.tree p = some lo ∧ lo.isDir = true := by
    obtain ⟨lo, hlo, hlodir⟩ := hlower
    cases rest with
    | nil => exact ⟨lo, by simpa using hlo, hlodir⟩
    | cons m rest => exact L.wellFormed.above (n := m) rest (by simp [hlo])
  refine ⟨?_, fun _ _ _ => hlower', ?_, ?_⟩
  · intro w hw hleaf
    cases ho.symm.trans hw
    cases hodir.symm.trans hleaf
  · intro hlast
    exact absurd (mem_append_left _ (mem_of_getLast? hlast)) hmarker
  · rw [hgrown.other _ _ (by decide)]
    exact hd.same p

/-- `create_direct_whiteout` hides a lower file that has no upper one. -/
theorem DiskInv.createDirectWhiteout (hd : DiskInv L d) (h : d.ShowsDir q)
    (hupper : d.tree .upper (q ++ [n]) = none) (hwhite : d.isWhite (q ++ [n]) = false)
    (hlower : ∃ lo, L.tree (q ++ [n]) = some lo ∧ lo.isDir = false)
    (hmarker : marker ∉ q ++ [n]) :
    ∃ d', d.createDirectWhiteout (q ++ [n]) = .ok d' ∧ DiskInv L d' ∧ Frame d d' ∧
      d'.view = update d.view (q ++ [n]) none := by
  obtain ⟨lo, hlo, hleaf⟩ := hlower
  rw [mem_append, not_or] at hmarker
  have hw : d.tree .whiteouts (q ++ [n]) = none := by
    by_contra hne
    obtain ⟨w, hw⟩ := Option.ne_none_iff_exists'.1 hne
    rw [Disk.isWhite, hw] at hwhite
    obtain ⟨lo', hlo', hdir⟩ := hd.white_dir _ w hw (by simpa using hwhite)
    cases hlo.symm.trans hlo'
    rw [hleaf] at hdir
    cases hdir
  obtain ⟨-, -, hgrown, hdir⟩ := hd.toSound.mkdirs_white (hd.open h)
  have hd' := hd.mkdirs_white h (L.wellFormed.parent q n (by simp [hlo])) hmarker.1
  refine ⟨_, hd.createDirectWhiteout_eq (hd.open h) hw, ?_, hgrown.frame.trans (.add _ _ _ _ _), ?_⟩
  · refine hd'.addWhiteFile [] hdir (by rw [hgrown.below, hw]) (by rw [hgrown.below, hupper])
      ⟨lo, hlo, hleaf⟩ ?_
    intro hn
    exact hmarker.2 (by simp [hn])
  · rw [view_addWhiteFile, hgrown.view]

end changes

end Lnx.Overlay
