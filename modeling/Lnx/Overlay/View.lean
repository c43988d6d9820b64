import Lnx.Overlay.Plain

/-!
# What the overlay shows

The three trees of the disk make one: a name is shown unless it has a whiteout, from the
upper tree if it is there, and else from the lower tree (`Disk.view`).

* `DiskInv`: what holds between the trees as long as no directory takes the place of a lower
  file. Everything shown is in a directory that is shown, and above it all three trees have
  directories or nothing.
* `DiskInv.overlayPath_some`, `DiskInv.overlayPath_none`: `overlay_path` and `lstat` find what
  is shown.
-/

namespace Lnx.Overlay

open List PathTree Function

/-- What is shown of a name in the upper and the lower tree. -/
@[simp] def stacked (upper lower : Option Obj) : Option Obj :=
  match upper with
  | none => lower
  | some u => if u.isDir && lower.any Obj.isDir then lower else some u

def Disk.isWhite (d : Disk) (p : Path) : Bool := (d.tree .whiteouts p).any fun o => !o.isDir

open Disk

/-- What is shown at a path. -/
def Disk.view (d : Disk) (p : Path) : Option Obj :=
  if d.isWhite p then none else stacked (d.tree .upper p) (d.tree .lower p)

/-- A directory is shown. -/
def Disk.ShowsDir (d : Disk) (p : Path) : Prop := ∃ o, d.view p = some o ∧ o.isDir = true

/-- There is a directory in the layer. -/
def Disk.HasDir (d : Disk) (l : Layer) (p : Path) : Prop := ∃ o, d.tree l p = some o ∧ o.isDir = true

/-! ## Trees and identities -/

/-- The disk is one: trees, and files that are in one place. The lower tree is as it was. -/
structure Sound (L : Lower) (d : Disk) : Prop where
  wf : ∀ l, WellFormed Obj.isDir (d.tree l)
  lower : d.tree .lower = L.tree
  lowerData : ∀ k, k < L.keys → d.data k = L.data k
  vol : ∀ k l p, d.vol k = some (l, p) ↔ ∃ kind, d.tree l p = some ⟨k, kind⟩
  key_lt : ∀ l p o, d.tree l p = some o → o.key < d.nextKey
  above : ∀ l p o, l ≠ .lower → d.tree l p = some o → L.keys ≤ o.key
  keys_le : L.keys ≤ d.nextKey

section trees

variable {d : Disk} {l l' : Layer} {p q : Path} {o : Option Obj}

theorem setTree_self (d : Disk) (l : Layer) (p : Path) (o : Option Obj) :
    d.setTree l p o l = update (d.tree l) p o := update_self _ _ _

theorem setTree_of_ne (hl : l' ≠ l) : d.setTree l p o l' = d.tree l' :=
  update_of_ne hl _ _

theorem setTree_same (d : Disk) (l : Layer) (p : Path) (o : Option Obj) : d.setTree l p o l p = o := by
  rw [setTree_self, update_self]

/-- A place apart from the one that is set. -/
theorem setTree_apart (h : (l', q) ≠ (l, p)) : d.setTree l p o l' q = d.tree l' q := by
  by_cases hl : l' = l
  · subst hl
    have hq : q ≠ p := by
      rintro rfl
      exact h rfl
    rw [setTree_self, update_of_ne hq]
  · rw [setTree_of_ne hl]

end trees

section sound

variable {L : Lower} {d : Disk} {l : Layer} {p q : Path} {n : Name} {o : Obj}

/-- A file is in one place. -/
theorem Sound.place_unique (hs : Sound L d) {l' : Layer} {p' : Path} {o' : Obj}
    (h : d.tree l p = some o) (h' : d.tree l' p' = some o') (hkey : o.key = o'.key) :
    (l, p) = (l', p') := by
  have hvol := (hs.vol o.key l p).2 ⟨o.kind, h⟩
  have hvol' := (hs.vol o.key l' p').2 ⟨o'.kind, by rw [h', hkey]⟩
  exact Option.some.inj (hvol.symm.trans hvol')

theorem wellFormed_setTree {x : Option Obj} (hd : ∀ l', WellFormed Obj.isDir (d.tree l'))
    (h : WellFormed Obj.isDir (update (d.tree l) p x)) (l' : Layer) :
    WellFormed Obj.isDir (d.setTree l p x l') := by
  by_cases hl' : l' = l
  · subst hl'
    rwa [setTree_self]
  · rw [setTree_of_ne hl']
    exact hd l'

theorem Sound.add (hs : Sound L d) (hl : l ≠ .lower) (kind : Kind) (content : List UInt8)
    (hparent : d.HasDir l p) (hfree : d.tree l (p ++ [n]) = none) :
    Sound L (d.add l (p ++ [n]) kind content) := by
  refine ⟨?_, ?_, ?_, ?_, ?_, ?_, Nat.le_succ_of_le hs.keys_le⟩
  · exact wellFormed_setTree hs.wf ((hs.wf l).add hparent hfree)
  · exact (setTree_of_ne (Ne.symm hl)).trans hs.lower
  · intro k hk
    have hne : k ≠ d.nextKey := Nat.ne_of_lt (Nat.lt_of_lt_of_le hk hs.keys_le)
    exact (update_of_ne hne _ _).trans (hs.lowerData k hk)
  · intro k l' q
    change update d.vol d.nextKey (some (l, p ++ [n])) k = _ ↔
      ∃ kind', d.setTree l (p ++ [n]) _ l' q = _
    by_cases hplace : (l', q) = (l, p ++ [n])
    · cases hplace
      rw [setTree_same]
      by_cases hk : k = d.nextKey
      · subst hk
        simp
      · rw [update_of_ne hk, hs.vol, hfree]
        simp [Ne.symm hk]
    · rw [setTree_apart hplace]
      by_cases hk : k = d.nextKey
      · subst hk
        rw [update_self]
        refine ⟨fun h => absurd (Option.some.inj h).symm hplace, ?_⟩
        rintro ⟨kind', h⟩
        exact absurd (hs.key_lt _ _ _ h) (Nat.lt_irrefl _)
      · rw [update_of_ne hk]
        exact hs.vol k l' q
  · intro l' q x hx
    by_cases hplace : (l', q) = (l, p ++ [n])
    · cases hplace
      cases (setTree_same _ _ _ _).symm.trans hx
      exact Nat.lt_succ_self _
    · exact Nat.lt_succ_of_lt (hs.key_lt _ _ _ ((setTree_apart hplace).symm.trans hx))
  · intro l' q x hl' hx
    by_cases hplace : (l', q) = (l, p ++ [n])
    · cases hplace
      cases (setTree_same _ _ _ _).symm.trans hx
      exact hs.keys_le
    · exact hs.above l' q x hl' ((setTree_apart hplace).symm.trans hx)

theorem Sound.remove (hs : Sound L d) (hl : l ≠ .lower) (hp : d.tree l p = some o)
    (hend : p ≠ [] ∧ ∀ n, d.tree l (p ++ [n]) = none) : Sound L (d.remove l p o) := by
  have hback : ∀ l' q x, d.setTree l p none l' q = some x → d.tree l' q = some x := by
    intro l' q x hx
    by_cases hplace : (l', q) = (l, p)
    · cases hplace
      rw [setTree_same] at hx
      cases hx
    · exact (setTree_apart hplace).symm.trans hx
  refine ⟨?_, ?_, hs.lowerData, ?_, ?_, ?_, hs.keys_le⟩
  · exact wellFormed_setTree hs.wf ((hs.wf l).remove hend)
  · exact (setTree_of_ne (Ne.symm hl)).trans hs.lower
  · intro k l' q
    change update d.vol o.key none k = _ ↔ ∃ kind', d.setTree l p none l' q = _
    by_cases hk : k = o.key
    · subst hk
      rw [update_self]
      refine ⟨fun h => (by cases h), ?_⟩
      rintro ⟨kind', h⟩
      have hplace := hs.place_unique (hback _ _ _ h) hp rfl
      cases hplace
      rw [setTree_same] at h
      cases h
    · rw [update_of_ne hk, hs.vol]
      by_cases hplace : (l', q) = (l, p)
      · cases hplace
        rw [setTree_same, hp]
        refine ⟨?_, ?_⟩
        · rintro ⟨kind', h⟩
          cases h
          exact absurd rfl hk
        · rintro ⟨kind', h⟩
          cases h
      · rw [setTree_apart hplace]
  · intro l' q x hx
    exact hs.key_lt _ _ _ (hback _ _ _ hx)
  · intro l' q x hl' hx
    exact hs.above l' q x hl' (hback _ _ _ hx)

theorem Sound.setData (hs : Sound L d) {k : Key} (hk : L.keys ≤ k) (content : List UInt8) :
    Sound L (d.setData k content) := by
  refine ⟨hs.wf, hs.lower, ?_, hs.vol, hs.key_lt, hs.above, hs.keys_le⟩
  intro k' hk'
  have hne : k' ≠ k := Nat.ne_of_lt (Nat.lt_of_lt_of_le hk' hk)
  exact (update_of_ne hne _ _).trans (hs.lowerData k' hk')

/-! ## Resolution -/

/-- The answer of `lstat` where no leaf is on the way. -/
def found : Option Obj → Except Errno Obj
  | some o => .ok o
  | none => .error .enoent

section

variable (hs : Sound L d)

include hs

theorem Sound.stat_eq (h : Clear Obj.isDir (d.tree l) p) : d.stat l p = found (d.tree l p) := by
  rw [stat, walk_of_clear (hs.wf l) h]
  cases d.tree l p <;> rfl

theorem Sound.hasPath_eq (h : Clear Obj.isDir (d.tree l) p) :
    d.hasPath l p = .ok (d.tree l p).isSome := by
  rw [hasPath, hs.stat_eq h]
  cases d.tree l p <;> rfl

theorem Sound.pathMetadata_eq (h : Clear Obj.isDir (d.tree l) p) :
    d.pathMetadata l p = .ok (d.tree l p) := by
  rw [pathMetadata, hs.stat_eq h]
  cases d.tree l p <;> rfl

theorem Sound.stat_of_some (h : d.tree l p = some o) : d.stat l p = .ok o := by
  rw [hs.stat_eq ((hs.wf l).clear (by simp [h])), h]
  rfl

theorem Sound.createAt_eq (kind : Kind) (content : List UInt8) (hparent : d.HasDir l p)
    (hfree : d.tree l (p ++ [n]) = none) :
    d.createAt l (p ++ [n]) kind content = .ok (d.add l (p ++ [n]) kind content) := by
  obtain ⟨x, hx, hdir⟩ := hparent
  have hkind : x.kind = .dir := by simpa [Obj.isDir] using hdir
  rw [createAt, dropLast_concat, hs.stat_of_some hx]
  simp [hkind, hx, hfree]

theorem Sound.removeFile_eq (hp : d.tree l p = some o) (hleaf : o.isDir = false) :
    d.removeFile l p = .ok (d.remove l p o) := by
  have hkind : o.kind ≠ .dir := by simpa [Obj.isDir] using hleaf
  rw [removeFile, hs.stat_of_some hp]
  simp [hkind]

theorem Sound.removeFile_missing (h : Clear Obj.isDir (d.tree l) p) (hnone : d.tree l p = none) :
    d.removeFile l p = .error .enoent := by
  rw [removeFile, hs.stat_eq h, hnone]
  rfl

end

/-! ## Directories that a guest gets to -/

/-- A whiteout of the path itself: a file, or a directory with the marker. -/
def Disk.hidden (d : Disk) (p : Path) : Bool :=
  (d.tree .whiteouts p).any fun o => !o.isDir || (d.tree .whiteouts (p ++ [marker])).isSome

/-- What is shown of a path in a directory that a guest gets to. -/
def Disk.shown (d : Disk) (p : Path) : Option Obj :=
  if p ≠ [] ∧ d.hidden p = true then none else stacked (d.tree .upper p) (d.tree .lower p)

theorem not_hidden_iff (ho : d.tree .whiteouts p = some o) :
    d.hidden p = false ↔ o.isDir = true ∧ d.tree .whiteouts (p ++ [marker]) = none := by
  rw [Disk.hidden, ho]
  simp

def Disk.Open (d : Disk) (q : Path) : Prop := ∀ r, r <+: q → ∃ o, d.shown r = some o ∧ o.isDir = true

theorem Disk.Open.not_hidden {r : Path} (h : d.Open q) (hr : r <+: q) (hne : r ≠ []) :
    d.hidden r = false := by
  obtain ⟨o, ho, -⟩ := h r hr
  by_contra hhidden
  rw [shown, if_pos ⟨hne, by simpa using hhidden⟩] at ho
  cases ho

/-- On the way there the trees of the overlay have directories or nothing. -/
theorem Sound.isDir (hs : Sound L d) (h : d.Open q) (hl : l ≠ .lower) {r : Path} (hr : r <+: q)
    (ho : d.tree l r = some o) : o.isDir = true := by
  cases l with
  | lower => exact absurd rfl hl
  | upper =>
    obtain ⟨x, hx, hdir⟩ := h r hr
    rw [shown, ho] at hx
    simp only [stacked] at hx
    split_ifs at hx with hhidden hboth
    · exact (Bool.and_eq_true _ _ ▸ hboth).1
    · cases hx
      exact hdir
  | whiteouts =>
    by_cases hne : r = []
    · obtain ⟨x, hx, hdir⟩ := (hs.wf .whiteouts).root
      rw [hne] at ho
      cases ho.symm.trans hx
      exact hdir
    · exact ((not_hidden_iff ho).1 (h.not_hidden hr hne)).1

theorem Sound.clear (hs : Sound L d) (h : d.Open q) (hl : l ≠ .lower) (n : Name) :
    Clear Obj.isDir (d.tree l) (q ++ [n]) := by
  intro r m rest hpath a ha
  refine hs.isDir h hl ((prefix_concat_iff.1 ⟨m :: rest, hpath.symm⟩).resolve_left ?_) ha
  rintro rfl
  simp at hpath

theorem Sound.direct_eq (hs : Sound L d) (h : Clear Obj.isDir (d.tree .whiteouts) p) :
    d.directWhiteoutExists p = .ok (d.hidden p) := by
  rw [Disk.directWhiteoutExists, hs.pathMetadata_eq h, Disk.hidden]
  cases hw : d.tree .whiteouts p with
  | none => rfl
  | some w =>
    by_cases hdir : w.isDir = true
    · have hkind : w.kind = .dir := by simpa [Obj.isDir] using hdir
      have hclear : Clear Obj.isDir (d.tree .whiteouts) (p ++ [marker]) := by
        refine h.concat ?_ marker
        intro a ha
        cases ha.symm.trans hw
        exact hdir
      simp [hkind, hs.hasPath_eq hclear, Obj.isDir]
    · have hkind : w.kind ≠ .dir := by simpa [Obj.isDir] using hdir
      simp [hkind, Obj.isDir]

theorem anyWhiteout_eq {f : Path → Bool} {qs : List Path}
    (h : ∀ q ∈ qs, d.directWhiteoutExists q = .ok (f q)) : d.anyWhiteout qs = .ok (qs.any f) := by
  induction qs with
  | nil => rfl
  | cons q qs ih =>
    rw [anyWhiteout, h q mem_cons_self]
    cases hf : f q with
    | true => simp [hf]
    | false => simp [hf, ih fun x hx => h x (mem_cons_of_mem _ hx)]

theorem mem_ancestors : q ∈ Disk.ancestors p ↔ q <+: p ∧ q ≠ [] := by
  simp [ancestors, mem_inits]

/-- A name in the directory is covered by its own whiteout only. -/
theorem Sound.covers_eq (hs : Sound L d) (h : d.Open q) (n : Name) :
    d.whiteoutCovers (q ++ [n]) = .ok (d.hidden (q ++ [n])) := by
  have hdirect : ∀ r ∈ ancestors (q ++ [n]), d.directWhiteoutExists r = .ok (d.hidden r) := by
    intro r hr
    obtain ⟨rest, hrest⟩ := (mem_ancestors.1 hr).1
    have hclear := hs.clear h (l := .whiteouts) (by decide) n
    rw [← hrest] at hclear
    exact hs.direct_eq hclear.of_append
  rw [whiteoutCovers, anyWhiteout_eq hdirect]
  congr 1
  cases hhidden : d.hidden (q ++ [n]) with
  | true => exact any_eq_true.2 ⟨_, mem_ancestors.2 ⟨prefix_rfl, by simp⟩, hhidden⟩
  | false =>
    rw [any_eq_false]
    intro r hr
    obtain ⟨hr, hne⟩ := mem_ancestors.1 hr
    rcases prefix_concat_iff.1 hr with rfl | hr
    · rw [hhidden]
      decide
    · rw [h.not_hidden hr hne]
      decide

end sound

/-! ## The three trees together -/

/-- A whiteout is in the place of a lower file that has no upper one; a directory of
    whiteouts, in that of a lower directory. What is in both other trees is a directory in
    both or in none. -/
structure DiskInv (L : Lower) (d : Disk) : Prop extends Sound L d where
  white_file : ∀ p o, d.tree .whiteouts p = some o → o.isDir = false →
    d.tree .upper p = none ∧ ∃ lo, L.tree p = some lo ∧ lo.isDir = false
  white_dir : ∀ p o, d.tree .whiteouts p = some o → o.isDir = true →
    ∃ lo, L.tree p = some lo ∧ lo.isDir = true
  white_marker : ∀ p, d.tree .whiteouts (p ++ [marker]) = none
  same : ∀ p u lo, d.tree .upper p = some u → L.tree p = some lo → u.isDir = lo.isDir

section view

variable {L : Lower} {d : Disk} {l : Layer} {p q : Path} {n : Name} {o : Obj}

theorem isWhite_of_view (h : d.view p = some o) : d.isWhite p = false := by
  by_contra hwhite
  rw [Bool.not_eq_false] at hwhite
  rw [view, if_pos hwhite] at h
  cases h

theorem view_of_not_white (h : d.isWhite p = false) :
    d.view p = stacked (d.tree .upper p) (d.tree .lower p) := by
  rw [view, h]
  rfl

/-- What is shown is in the upper or the lower tree. -/
theorem tree_of_view (h : d.view p = some o) : ∃ l, l ≠ .whiteouts ∧ d.tree l p = some o := by
  have hwhite := isWhite_of_view h
  rw [view_of_not_white hwhite] at h
  cases hupper : d.tree .upper p with
  | none => exact ⟨.lower, by decide, by simpa [hupper] using h⟩
  | some u =>
    simp only [hupper, stacked] at h
    split_ifs at h
    · exact ⟨.lower, by decide, h⟩
    · exact ⟨.upper, by decide, hupper.trans h⟩

section

variable (hd : DiskInv L d)

include hd

theorem DiskInv.view_key (h : d.view p = some o) {o' : Obj} (h' : d.view q = some o')
    (hkey : o.key = o'.key) : p = q := by
  obtain ⟨l, -, hl⟩ := tree_of_view h
  obtain ⟨l', -, hl'⟩ := tree_of_view h'
  exact congrArg Prod.snd (hd.place_unique hl hl' hkey)

/-- A directory of the upper or the lower tree is shown as one. -/
theorem DiskInv.showsDir (hl : l ≠ .whiteouts) (h : d.tree l p = some o) (hdir : o.isDir = true) :
    d.ShowsDir p := by
  have hwhite : d.isWhite p = false := by
    by_contra hwhite
    rw [Bool.not_eq_false] at hwhite
    obtain ⟨w, hw, hleaf⟩ := (Option.any_eq_true _ _).1 hwhite
    obtain ⟨hupper, lo, hlo, hlower⟩ := hd.white_file p w hw (by simpa using hleaf)
    cases l with
    | upper => rw [h] at hupper; cases hupper
    | lower =>
      rw [hd.lower] at h
      cases hlo.symm.trans h
      rw [hdir] at hlower
      cases hlower
    | whiteouts => exact hl rfl
  rw [Disk.ShowsDir, view_of_not_white hwhite]
  cases hupper : d.tree .upper p with
  | none =>
    cases l with
    | upper => rw [h] at hupper; cases hupper
    | lower => exact ⟨o, h, hdir⟩
    | whiteouts => exact absurd rfl hl
  | some u =>
    cases hlower : d.tree .lower p with
    | none =>
      cases l with
      | upper =>
        cases h.symm.trans hupper
        exact ⟨o, by simp, hdir⟩
      | lower => rw [h] at hlower; cases hlower
      | whiteouts => exact absurd rfl hl
    | some lo =>
      have hsame := hd.same p u lo hupper (by rw [← hd.lower, hlower])
      have hu : u.isDir = true := by
        cases l with
        | upper => cases h.symm.trans hupper; exact hdir
        | lower => cases h.symm.trans hlower; exact hsame.trans hdir
        | whiteouts => exact absurd rfl hl
      exact ⟨lo, by simp [hu, ← hsame], hsame ▸ hu⟩

theorem DiskInv.view_wellFormed : WellFormed Obj.isDir d.view := by
  refine ⟨?_, ?_⟩
  · obtain ⟨o, ho, hdir⟩ := (hd.wf .lower).root
    exact hd.showsDir (by decide) ho hdir
  · intro p n h
    cases hview : d.view (p ++ [n]) with
    | none => exact absurd hview h
    | some o =>
      obtain ⟨l, hl, hnode⟩ := tree_of_view hview
      obtain ⟨x, hx, hdir⟩ := (hd.wf l).parent p n (by simp [hnode])
      exact hd.showsDir hl hx hdir

theorem DiskInv.hidden_eq (p : Path) : d.hidden p = d.isWhite p := by
  rw [Disk.hidden, hd.white_marker p, isWhite]
  simp

theorem DiskInv.shown_eq : d.shown = d.view := by
  funext p
  have hroot : d.isWhite [] = false := by
    obtain ⟨w, hw, hdir⟩ := (hd.wf .whiteouts).root
    simp [isWhite, hw, hdir]
  rw [shown, hd.hidden_eq, view]
  refine if_congr ⟨fun h => h.2, fun h => ⟨?_, h⟩⟩ rfl rfl
  rintro rfl
  cases hroot.symm.trans h

theorem DiskInv.open (h : d.ShowsDir q) : d.Open q := by
  rintro r ⟨rest, rfl⟩
  have hr : d.ShowsDir r := by
    cases rest with
    | nil => simpa using h
    | cons m rest =>
      obtain ⟨o, ho, -⟩ := h
      exact hd.view_wellFormed.above (n := m) rest (by simp [ho])
  rwa [hd.shown_eq]

/-- Where a directory is shown every tree has one or nothing. -/
theorem DiskInv.dir_of_showsDir (h : d.ShowsDir p) {x : Obj} (hx : d.tree l p = some x) :
    x.isDir = true := by
  by_cases hl : l = .lower
  · subst hl
    cases hupper : d.tree .upper p with
    | none =>
      obtain ⟨o, ho, hdir⟩ := h
      rw [view_of_not_white (isWhite_of_view ho), hupper, hx] at ho
      cases ho
      exact hdir
    | some u =>
      rw [← hd.same p u x hupper (by rw [← hd.lower, hx])]
      exact hd.isDir (hd.open h) (by decide) prefix_rfl hupper
  · exact hd.isDir (hd.open h) hl prefix_rfl hx

theorem DiskInv.clear_self (h : d.ShowsDir q) (l : Layer) : Clear Obj.isDir (d.tree l) q := by
  rintro p m r rfl a ha
  obtain ⟨o, ho, -⟩ := h
  exact hd.dir_of_showsDir (hd.view_wellFormed.above (n := m) r (by simp [ho])) ha

/-- Above what is shown in a directory, or could be, are only directories. -/
theorem DiskInv.clear (h : d.ShowsDir q) (l : Layer) (n : Name) :
    Clear Obj.isDir (d.tree l) (q ++ [n]) :=
  (hd.clear_self h l).concat (fun _ ha => hd.dir_of_showsDir h ha) n

end

theorem DiskInv.not_white_of_showsDir (h : d.ShowsDir p) : d.isWhite p = false := by
  obtain ⟨o, ho, -⟩ := h
  exact isWhite_of_view ho

/-- Where a directory is shown, a name in it is covered by its own whiteout only. -/
theorem DiskInv.covers_eq (hd : DiskInv L d) (h : d.ShowsDir q) (n : Name) :
    d.whiteoutCovers (q ++ [n]) = .ok (d.isWhite (q ++ [n])) := by
  rw [hd.toSound.covers_eq (hd.open h), hd.hidden_eq]

/-! ### Lookups -/

theorem DiskInv.overlayPath_some (hd : DiskInv L d) (h : d.ShowsDir q)
    (hview : d.view (q ++ [n]) = some o) :
    ∃ l, d.overlayPath (q ++ [n]) = .ok (some l) ∧ d.stat l (q ++ [n]) = .ok o := by
  have hwhite := isWhite_of_view hview
  rw [view_of_not_white hwhite] at hview
  rw [overlayPath, hd.covers_eq h, hwhite, hd.pathMetadata_eq (hd.clear h _ n)]
  cases hupper : d.tree .upper (q ++ [n]) with
  | none =>
    simp only [hupper, stacked] at hview
    exact ⟨.lower, rfl, hd.stat_of_some hview⟩
  | some u =>
    simp only [hupper, stacked] at hview
    by_cases hu : u.isDir = true
    · have hkind : u.kind = .dir := by simpa [Obj.isDir] using hu
      simp only [hkind, if_true, hd.pathMetadata_eq (hd.clear h .lower n)]
      by_cases hlower : (d.tree .lower (q ++ [n])).any Obj.isDir = true
      · rw [if_pos (by simp [hu, hlower])] at hview
        exact ⟨.lower, by simp [hlower], hd.stat_of_some hview⟩
      · rw [if_neg (by simp [hlower])] at hview
        exact ⟨.upper, by simp [hlower], hd.stat_of_some (hupper.trans hview)⟩
    · have hkind : u.kind ≠ .dir := by simpa [Obj.isDir] using hu
      rw [if_neg (by simp [hu])] at hview
      exact ⟨.upper, by simp [hkind], hd.stat_of_some (hupper.trans hview)⟩

/-- What is not shown has a whiteout or is in neither tree. -/
theorem view_eq_none (h : d.view p = none) :
    d.isWhite p = true ∨ (d.tree .upper p = none ∧ d.tree .lower p = none) := by
  cases hwhite : d.isWhite p with
  | true => exact .inl rfl
  | false =>
    rw [view_of_not_white hwhite] at h
    cases hupper : d.tree .upper p with
    | none => exact .inr ⟨rfl, by simpa [hupper] using h⟩
    | some u =>
      simp only [hupper, stacked] at h
      split_ifs at h with hboth
      rw [h] at hboth
      simp at hboth

theorem DiskInv.overlayPath_none (hd : DiskInv L d) (h : d.ShowsDir q)
    (hview : d.view (q ++ [n]) = none) : d.overlayPath (q ++ [n]) = .ok none ∨
      (d.overlayPath (q ++ [n]) = .ok (some .lower) ∧
        d.stat .lower (q ++ [n]) = .error .enoent) := by
  rw [overlayPath, hd.covers_eq h]
  rcases view_eq_none hview with hwhite | ⟨hupper, hlower⟩
  · rw [hwhite]
    exact .inl rfl
  · cases hwhite : d.isWhite (q ++ [n]) with
    | true => exact .inl rfl
    | false =>
      refine .inr ⟨?_, ?_⟩
      · rw [hd.pathMetadata_eq (hd.clear h _ n), hupper]
      · rw [hd.stat_eq (hd.clear h _ n), hlower]
        rfl

end view

end Lnx.Overlay
