import Lnx.Overlay.Inodes

/-!
# The overlay's answers

What each request does to the disk that is shown, to open files and to contents, from a state
that satisfies the invariant.

* `Inv.create_spec`, `mkdir_spec`, `openFile_spec`, `truncate_spec`, `opendir_ok`: the
  requests that succeed; `unlink_spec`, `unlink_missing`, `unlink_dir`.
* `Inv.ensureUnshared_spec`: the copy that is written to instead of a lower file.
* `Inv.readdir_eq`: a listing has what is shown.
-/

namespace Lnx.Overlay

open Obj Option Trial PathTree Function

variable {L : Lower} {s : State} {d : Disk} {p q : Path} {n : Name} {o : Obj} {i : Inode}

/-! ## Steps on the disk -/

/-- Go on with a changed disk. -/
def nextDisk {β : Type} (r : Except Errno Disk) (g : Unit → Serve β) (s : State) :
    Except Errno β × State :=
  match r with
  | .ok d => g () { s with disk := d }
  | .error e => (.error e, s)

@[simp] theorem nextDisk_ok {β : Type} (d : Disk) (g : Unit → Serve β) (s : State) :
    nextDisk (.ok d) g s = g () { s with disk := d } := rfl

theorem bind_onDisk {β : Type} (f : Disk → Except Errno Disk) (g : Unit → Serve β) (s : State) :
    (onDisk f >>= g) s = nextDisk (f s.disk) g s := by
  cases hf : f s.disk with
  | ok d => exact bind_ok (by simp [onDisk, hf])
  | error e => exact bind_error (by simp [onDisk, hf])

theorem onDisk_eq (f : Disk → Except Errno Disk) (s : State) :
    onDisk f s = nextDisk (f s.disk) pure s := by
  cases hf : f s.disk <;> simp [onDisk, nextDisk, hf]

variable {x : Option Obj}

/-- A file that is open is at no path that shows a new file, or none. -/
theorem Inv.files_update (hs : Inv L s) (hframe : Frame s.disk d)
    (hview : d.view = update s.disk.view p x) (hfresh : ∀ o, x = some o → s.disk.nextKey ≤ o.key)
    {h : Handle} {data : HandleData} (hh : s.handles h = some data) (hdata : data.mode = .readWrite) :
    L.keys ≤ data.key ∧ data.key < d.nextKey ∧ ∀ p' o, d.view p' = some o → o.key = data.key →
      p' ≠ p ∧ s.inodePaths data.inode = some p' := by
  obtain ⟨hle, hlt, hpath⟩ := hs.files h data hh hdata
  refine ⟨hle, Nat.lt_of_lt_of_le hlt hframe.next, ?_⟩
  intro p' o ho hkey
  have hne : p' ≠ p := by
    rintro rfl
    rw [hview, update_self] at ho
    exact absurd hkey (Nat.ne_of_gt (Nat.lt_of_lt_of_le hlt (hfresh o ho)))
  rw [hview, update_of_ne hne] at ho
  exact ⟨hne, hpath p' o ho hkey⟩

/-- A new file is shown where nothing was. -/
theorem Inv.newFile (hs : Inv L s) (hd : DiskInv L d) (hframe : Frame s.disk d)
    (hview : d.view = update s.disk.view p (some o)) (hold : s.disk.view p = none)
    (hkey : s.disk.nextKey ≤ o.key) : Inv L { s with disk := d } := by
  have hkeep : ∀ p' x, s.disk.view p' = some x → d.view p' = some x := by
    intro p' x hx
    have hne : p' ≠ p := by
      rintro rfl
      rw [hold] at hx
      cases hx
    rw [hview, update_of_ne hne, hx]
  refine ⟨hd, hs.agrees, ?_, ?_, hs.root, hs.handle_lt, ?_, ?_⟩
  · intro i k data hi
    obtain ⟨hdata, hlt, hk⟩ := hs.entry i k data hi
    exact ⟨hdata, hlt, Nat.lt_of_lt_of_le hk hframe.next⟩
  · intro i p' hp'
    obtain ⟨x, hx, hmain⟩ := hs.paths i p' hp'
    exact ⟨x, hkeep p' x hx, hmain⟩
  · intro h data hh hdata
    have hfresh : ∀ x, some o = some x → s.disk.nextKey ≤ x.key := by
      intro x hx
      cases hx
      exact hkey
    obtain ⟨hle, hlt, hpath⟩ := hs.files_update hframe hview hfresh hh hdata
    exact ⟨hle, hlt, fun p' x hx hxkey => (hpath p' x hx hxkey).2⟩
  · intro h data hh hdata
    obtain ⟨p', hp', hx⟩ := hs.dirs h data hh hdata
    exact ⟨p', hp', hkeep p' _ hx⟩

/-! ## Directories of the upper tree -/

/-- A directory is shown still when a name in it changes. -/
theorem Disk.ShowsDir.update {d' : Disk} (h : d.ShowsDir q)
    (hview : d'.view = update d.view (q ++ [n]) x) : d'.ShowsDir q := by
  obtain ⟨y, hy, hdir⟩ := h
  exact ⟨y, by rw [hview, update_of_ne (by simp), hy], hdir⟩

open Disk

/-- A directory that is shown without an upper one is a lower one. -/
theorem DiskInv.lower_of_showsDir (hd : DiskInv L d) (h : d.ShowsDir p)
    (hupper : d.tree .upper p = none) :
    ∃ lo, L.tree p = some lo ∧ lo.isDir = true ∧ d.view p = some lo := by
  obtain ⟨x, hx, hdir⟩ := h
  have hview := hx
  rw [view_of_not_white (isWhite_of_view hx), hupper, hd.lower] at hx
  exact ⟨x, hx, hdir, hview⟩

/-- `prepare_upper_parent` makes the directories that are missing. -/
theorem Sound.upperDirs_eq (hs : Sound L s.disk) (base rest : Path) (hbase : s.disk.HasDir .upper base)
    (h : s.disk.Open (base ++ rest)) :
    upperDirs base rest s = (.ok (), { s with disk := s.disk.mkdirs .upper base rest }) := by
  induction rest generalizing s base with
  | nil => rfl
  | cons m rest ih =>
    have hpath : base ++ m :: rest = base ++ [m] ++ rest := by simp
    rw [hpath] at h
    rw [upperDirs, bind_ask, hs.hasPath_eq (hs.clear_of_hasDir hbase m), next_ok, mkdirs]
    cases hupper : s.disk.tree .upper (base ++ [m]) with
    | some u =>
      exact ih hs (base ++ [m]) ⟨u, hupper, hs.isDir h (by decide) (List.prefix_append _ _) hupper⟩ h
    | none =>
      have hgrown : Grown .upper (base ++ [m] ++ rest) s.disk (s.disk.add .upper (base ++ [m]) .dir []) :=
        .add hupper (List.prefix_append _ _)
      have hs₁ := hs.add (by decide) .dir [] hbase hupper
      -- what is shown here is the lower directory
      obtain ⟨lo, hlo, -⟩ := h (base ++ [m]) (List.prefix_append _ _)
      rw [shown, hupper] at hlo
      split_ifs at hlo
      have hlower := (hgrown.other .lower (base ++ [m]) (by decide)).trans hlo
      simp only [isSome_none, Bool.false_eq_true, if_false]
      rw [bind_onDisk, hs.createAt_eq .dir [] hbase hupper, nextDisk_ok, bind_ask]
      simp only [hasPath, hs₁.stat_of_some hlower, next_ok]
      refine ih hs₁ (base ++ [m]) ⟨_, add_tree_same _ _ _ _ _, rfl⟩ ?_
      rw [Disk.Open, hgrown.shown h]
      exact h

/-- It shows nothing new. -/
theorem DiskInv.upperDirs_spec (hd : DiskInv L s.disk) (hq : s.disk.ShowsDir q) :
    ∃ d', upperDirs [] q s = (.ok (), { s with disk := d' }) ∧ DiskInv L d' ∧
      Grown .upper q s.disk d' ∧ d'.view = s.disk.view ∧ d'.HasDir .upper q := by
  have hopen := hd.open hq
  obtain ⟨-, hs, hgrown, hdir⟩ := hd.toSound.createDirAll_spec (l := .upper) (by decide) [] q
    (hd.wf .upper).root fun p o hp => hd.isDir hopen (by decide) hp
  have hd' : DiskInv L (s.disk.mkdirs .upper [] q) := by
    refine hd.of_fits hs fun p => (hgrown.cases p).imp_right ?_
    rintro ⟨hnone, ⟨u, hu, hudir⟩, hp⟩
    obtain ⟨-, hwhite, hmarker, -⟩ := hd.fits p
    have hshown : s.disk.ShowsDir p := by
      rw [Disk.ShowsDir, ← hd.shown_eq]
      exact hopen p hp
    refine ⟨?_, ?_, ?_, ?_⟩
    · intro w hw hleaf
      rw [hgrown.other _ _ (by decide)] at hw
      cases (hd.dir_of_showsDir hshown hw).symm.trans hleaf
    · rwa [hgrown.other _ _ (by decide)]
    · rwa [hgrown.other _ _ (by decide)]
    · intro u' lo hu' hlo
      cases hu.symm.trans hu'
      rw [hudir, hd.dir_of_showsDir hshown ((congrFun hd.lower p).trans hlo)]
  refine ⟨_, hd.toSound.upperDirs_eq [] q (hd.wf .upper).root hopen, hd', hgrown, ?_, hdir⟩
  rw [← hd'.shown_eq, ← hd.shown_eq, hgrown.shown hopen]

/-! ## New names -/

theorem Sound.shouldUnshare_eq (hs : Sound L s.disk) (h : s.disk.Open q)
    (hign : s.ignored (q ++ [n]) = true) : shouldUnsharePath (q ++ [n]) s = (.ok true, s) := by
  rw [shouldUnsharePath, if_neg (by simp), bind_ask,
    hs.hasPath_eq (hs.clear h (l := .upper) (by decide) n), next_ok]
  cases (s.disk.tree .upper (q ++ [n])).isSome with
  | true => rfl
  | false =>
    simp only [Bool.false_eq_true, if_false]
    rw [bind_ask, hs.covers_eq h, next_ok]
    cases s.disk.hidden (q ++ [n]) with
    | true => rfl
    | false => simp [hign]

theorem Inv.shouldUnshare_eq (hs : Inv L s) (hq : s.disk.ShowsDir q)
    (hign : s.ignored (q ++ [n]) = true) : shouldUnsharePath (q ++ [n]) s = (.ok true, s) :=
  hs.disk.toSound.shouldUnshare_eq (hs.disk.open hq) hign

/-- The place a new name is made in. -/
theorem Inv.childWritePath_spec (hs : Inv L s) (hq : s.disk.ShowsDir q) (i : Inode)
    (hign : s.ignored (q ++ [n]) = true) :
    ∃ d', childWritePath i n (q ++ [n]) s = (.ok (.upper, q ++ [n]), { s with disk := d' }) ∧
      DiskInv L d' ∧ Frame s.disk d' ∧ d'.isWhite (q ++ [n]) = false ∧
      (∀ p, p ≠ q ++ [n] → d'.view p = s.disk.view p) ∧
      d'.HasDir .upper q ∧
      d'.tree .upper (q ++ [n]) = s.disk.tree .upper (q ++ [n]) := by
  obtain ⟨d₁, hrun₁, hd₁, hgrown₁, hview₁, hdir₁⟩ := hs.disk.upperDirs_spec hq
  have hq₁ : d₁.ShowsDir q := by
    rw [Disk.ShowsDir, hview₁]
    exact hq
  obtain ⟨d₂, hrun₂, hd₂, hframe₂, hwhite₂, hview₂, htree₂, -⟩ := hd₁.clearDirectWhiteout hq₁ n
  refine ⟨d₂, ?_, hd₂, hgrown₁.frame.trans hframe₂, hwhite₂, ?_, ?_, ?_⟩
  · rw [childWritePath, bind_ok (hs.shouldUnshare_eq hq hign)]
    simp only [if_true]
    have hprepare : prepareUpperCreate (q ++ [n]) s = (.ok (), { s with disk := d₂ }) := by
      rw [prepareUpperCreate, prepareUpperParent, List.dropLast_concat, bind_ok hrun₁, onDisk_eq]
      rw [hrun₂]
      rfl
    rw [bind_ok hprepare]
    rfl
  · intro p hp
    rw [hview₂ p hp, hview₁]
  · rw [Disk.HasDir, htree₂ .upper q (by decide)]
    exact hdir₁
  · rw [htree₂ .upper _ (by decide), hgrown₁.below]

/-- Nothing is in the upper tree where nothing is shown, and no directory in the lower one. -/
theorem DiskInv.free_of_view (hd : DiskInv L d) (h : d.view p = none) :
    d.tree .upper p = none ∧ ∀ lo, L.tree p = some lo → lo.isDir = false := by
  rcases view_eq_none h with hwhite | ⟨hupper, hlower⟩
  · obtain ⟨w, hw, hleaf⟩ := (Option.any_eq_true _ _).1 hwhite
    obtain ⟨hupper, lo, hlo, hdir⟩ := hd.white_file p w hw (by simpa using hleaf)
    refine ⟨hupper, ?_⟩
    intro lo' hlo'
    cases hlo.symm.trans hlo'
    exact hdir
  · refine ⟨hupper, ?_⟩
    intro lo hlo
    rw [hd.lower, hlo] at hlower
    cases hlower

/-- A new name: what the disk shows with it. -/
theorem Inv.addNew (hs : Inv L s) (kind : Kind) (hold : s.disk.view (q ++ [n]) = none)
    (hkind : ∀ lo, L.tree (q ++ [n]) = some lo → (kind == .dir) = lo.isDir)
    (hdir : kind = .dir → L.tree (q ++ [n]) = none) (hd : DiskInv L d) (hframe : Frame s.disk d)
    (hwhite : d.isWhite (q ++ [n]) = false)
    (hview : ∀ p, p ≠ q ++ [n] → d.view p = s.disk.view p)
    (hparent : d.HasDir .upper q)
    (hfree : d.tree .upper (q ++ [n]) = none) :
    Inv L { s with disk := d.add .upper (q ++ [n]) kind [] } ∧
      Frame s.disk (d.add .upper (q ++ [n]) kind []) ∧
      (d.add .upper (q ++ [n]) kind []).view =
        update s.disk.view (q ++ [n]) (some ⟨d.nextKey, kind⟩) := by
  have hframe' : Frame s.disk (d.add .upper (q ++ [n]) kind []) := hframe.trans (.add _ _ _ _ _)
  have hview' : (d.add .upper (q ++ [n]) kind []).view =
      update s.disk.view (q ++ [n]) (some ⟨d.nextKey, kind⟩) := by
    rw [hd.view_addUpper [] hwhite]
    have hstack : stacked (some ⟨d.nextKey, kind⟩) (L.tree (q ++ [n])) = some ⟨d.nextKey, kind⟩ := by
      by_cases hk : kind = .dir
      · rw [hdir hk]
        simp
      · simp [isDir, hk]
    rw [hstack]
    funext p
    by_cases hp : p = q ++ [n]
    · rw [hp, update_self, update_self]
    · rw [update_of_ne hp, update_of_ne hp, hview p hp]
  exact ⟨hs.newFile (hd.addUpper [] hparent hfree hwhite hkind) hframe' hview' hold hframe.next,
    hframe', hview'⟩

theorem rememberInodePath_same (h : s.inodePaths i = some p) :
    rememberInodePath i p s = (.ok (), s) := by
  rw [rememberInodePath, edit_apply, ← h, update_eq_self]

/-- A new handle: of a file of the upper tree, or of a directory. -/
theorem Inv.addHandle (hs : Inv L s) (mode : Mode) (hi : s.inodePaths i = some p)
    (hview : s.disk.view p = some o) (hfile : mode = .readWrite → L.keys ≤ o.key)
    (hdir : mode = .dir → o.kind = .dir) :
    Inv L { s with
      handles := update s.handles s.nextHandle (some ⟨i, o.key, mode⟩)
      nextHandle := s.nextHandle + 1 } := by
  refine ⟨hs.disk, hs.agrees, hs.entry, hs.paths, hs.root, ?_, ?_, ?_⟩ <;> intro h data hh <;>
    by_cases hnew : h = s.nextHandle
  · rw [hnew]
    exact Nat.lt_succ_self _
  · exact Nat.lt_succ_of_lt (hs.handle_lt h data ((update_of_ne hnew _ _).symm.trans hh))
  · subst hnew
    cases (update_self _ _ _).symm.trans hh
    intro hdata
    obtain ⟨l, -, hl⟩ := tree_of_view hview
    refine ⟨hfile hdata, hs.disk.key_lt l p o hl, ?_⟩
    intro p' o' ho' hkey'
    rw [hs.disk.view_key ho' hview hkey']
    exact hi
  · exact hs.files h data ((update_of_ne hnew _ _).symm.trans hh)
  · subst hnew
    cases (update_self _ _ _).symm.trans hh
    intro hdata
    exact ⟨p, hi, by rw [hview, ← hdir hdata]⟩
  · exact hs.dirs h data ((update_of_ne hnew _ _).symm.trans hh)

/-- What a request that made a file did. -/
structure Made (s s' : State) (p : Path) (o : Obj) : Prop where
  frame : Frame s.disk s'.disk
  view : s'.disk.view = update s.disk.view p (some o)
  fresh : s.disk.nextKey ≤ o.key
  empty : o.kind = .file → s'.disk.data o.key = []
  ignored : s'.ignored = s.ignored

/-- `open` with `O_CREAT` of a name that the upper tree does not have. -/
theorem openCreate_eq (hd : DiskInv L s.disk) (hq : s.disk.ShowsDir q)
    (hparent : s.disk.HasDir .upper q)
    (hfree : s.disk.tree .upper (q ++ [n]) = none) :
    openCreate .upper (q ++ [n]) s =
      (.ok s.disk.nextKey, { s with disk := s.disk.add .upper (q ++ [n]) .file [] }) := by
  rw [openCreate, bind_ask, hd.pathMetadata_eq (hd.clear hq _ n), hfree, next_ok]
  simp only
  rw [bind_ask, next_ok, bind_onDisk, hd.createAt_eq .file [] hparent hfree]
  rfl

section

variable (hs : Inv L s) (hi : s.inodePaths i = some q) (hq : s.disk.ShowsDir q) (hn : ValidName n)
  (hign : s.ignored (q ++ [n]) = true) (hold : s.disk.view (q ++ [n]) = none)

include hs hi hq hn hign hold

theorem Inv.mkdir_spec (hlower : L.tree (q ++ [n]) = none) :
    ∃ j k s', mkdir i n s = (.ok ⟨j, .dir, 0⟩, s') ∧ Inv L s' ∧
      Made s s' (q ++ [n]) ⟨k, .dir⟩ ∧ s'.handles = s.handles ∧ s'.nextHandle = s.nextHandle := by
  obtain ⟨d, hrun, hd, hframe, hwhite, hview, hparent, hupper⟩ :=
    hs.childWritePath_spec hq i hign
  have hfree := hupper.trans (hs.disk.free_of_view hold).1
  obtain ⟨hs₁, hframe₁, hview₁⟩ := hs.addNew .dir hold
    (fun lo hlo => by rw [hlower] at hlo; cases hlo) (fun _ => hlower) hd hframe hwhite hview hparent hfree
  have hq₁ : (d.add .upper (q ++ [n]) .dir []).ShowsDir q := hq.update hview₁
  obtain ⟨j, s₂, hlook, hs₂, hsame, hj⟩ := hs₁.lookup_some hi hq₁ hn
    (o := ⟨d.nextKey, .dir⟩) (by simp only [hview₁, update_self])
  refine ⟨j, d.nextKey, s₂, ?_, hs₂, ⟨?_, ?_, hframe.next, fun h => (by cases h), hsame.ignored⟩,
    hsame.handles, hsame.nextHandle⟩
  · rw [mkdir, bind_ok (relChildPath_eq hi hn), bind_ok hrun, bind_onDisk,
      hd.createAt_eq .dir [] hparent hfree, nextDisk_ok, bind_ok hlook,
      bind_ok (rememberInodePath_same hj)]
    rfl
  · rw [hsame.disk]
    exact hframe₁
  · rw [hsame.disk]
    exact hview₁

theorem Inv.create_spec :
    ∃ j k s', create i n s = (.ok (⟨j, .file, 0⟩, s.nextHandle), s') ∧ Inv L s' ∧
      Made s s' (q ++ [n]) ⟨k, .file⟩ ∧
      s'.handles = update s.handles s.nextHandle (some ⟨j, k, .readWrite⟩) ∧
      s'.nextHandle = s.nextHandle + 1 := by
  obtain ⟨d, hrun, hd, hframe, hwhite, hview, hparent, hupper⟩ :=
    hs.childWritePath_spec hq i hign
  obtain ⟨hnone, hleaf⟩ := hs.disk.free_of_view hold
  have hfree := hupper.trans hnone
  obtain ⟨hs₁, hframe₁, hview₁⟩ := hs.addNew .file hold
    (fun lo hlo => (hleaf lo hlo).symm) (fun h => by cases h) hd hframe hwhite hview hparent hfree
  have hq_d : d.ShowsDir q := by
    obtain ⟨x, hx, hdir⟩ := hq
    exact ⟨x, by rw [hview q (by simp), hx], hdir⟩
  have hq₁ : (d.add .upper (q ++ [n]) .file []).ShowsDir q := hq.update hview₁
  have hview_p : (d.add .upper (q ++ [n]) .file []).view (q ++ [n]) = some ⟨d.nextKey, .file⟩ := by
    rw [hview₁, update_self]
  obtain ⟨j, s₂, hlook, hs₂, hsame, hj⟩ := hs₁.lookup_some hi hq₁ hn hview_p
  have hdata : (d.add .upper (q ++ [n]) .file []).data d.nextKey = [] := update_self _ _ _
  have hview₂ : s₂.disk.view (q ++ [n]) = some ⟨d.nextKey, .file⟩ := by
    rw [hsame.disk]
    exact hview_p
  have hopen : openCreate .upper (q ++ [n]) { s with disk := d } =
      (.ok d.nextKey, { s with disk := d.add .upper (q ++ [n]) .file [] }) :=
    openCreate_eq hd hq_d hparent hfree
  refine ⟨j, d.nextKey, _, ?_, hs₂.addHandle .readWrite hj hview₂ (fun _ => hd.keys_le) (fun h => by cases h),
    ⟨?_, ?_, hframe.next, ?_, hsame.ignored⟩, ?_, ?_⟩
  · rw [create, bind_ok (relChildPath_eq hi hn), bind_ok hrun, bind_ok hopen, bind_ok hlook,
      bind_ok (rememberInodePath_same hj)]
    have hnext : s₂.nextHandle = s.nextHandle := hsame.nextHandle
    rw [← hnext]
    simp only [sizeOf, hdata]
    rfl
  · rw [show ({ s₂ with
      handles := update s₂.handles s₂.nextHandle (some ⟨j, d.nextKey, .readWrite⟩)
      nextHandle := s₂.nextHandle + 1 } : State).disk = s₂.disk from rfl, hsame.disk]
    exact hframe₁
  · exact (congrArg view hsame.disk).trans hview₁
  · intro _
    exact (congrArg (fun d' : Disk => d'.data d.nextKey) hsame.disk).trans hdata
  · simp only [hsame.handles, hsame.nextHandle]
  · simp only [hsame.nextHandle]

end

/-! ## Open files -/

section

variable (hs : Inv L s) (hi : s.inodePaths i = some p) (hview : s.disk.view p = some o)

include hs hi hview

theorem Inv.openInode_eq : openInode i s = (.ok o, s) := by
  obtain ⟨l, -, hl⟩ := tree_of_view hview
  have hvol : s.disk.vol o.key = some (l, p) := (hs.disk.vol o.key l p).2 ⟨o.kind, hl⟩
  rw [openInode, bind_ok (hs.getInode_eq hi hview)]
  simp only [ask_apply, hvol, hs.disk.stat_of_some hl]

/-- Another file is shown at a path, and its inode refers to it. -/
theorem Inv.rebase (hleaf : o.kind ≠ .dir) (hd : DiskInv L d) (hframe : Frame s.disk d) {x : Obj}
    (hview' : d.view = update s.disk.view p (some x)) (hfresh : s.disk.nextKey ≤ x.key)
    (hlt : x.key < d.nextKey) :
    Inv L { s with disk := d, inodes := s.inodes.insert i x.key ⟨i, x.key, none⟩ } := by
  have halt : s.inodes.alt x.key = none := by
    cases halt : s.inodes.alt x.key with
    | none => rfl
    | some j =>
      obtain ⟨data, hj⟩ := (hs.agrees _ _).1 halt
      exact absurd (hs.entry j _ data hj).2.2 (Nat.not_lt.2 hfresh)
  obtain ⟨o', ho', hmain⟩ := hs.paths i p hi
  cases hview.symm.trans ho'
  have hmain_of_ne : ∀ j, j ≠ i →
      (s.inodes.insert i x.key ⟨i, x.key, none⟩).main j = s.inodes.main j := by
    intro j hj
    rw [Multikey.main_insert halt, update_of_ne hj]
  refine ⟨hd, hs.agrees.insert halt _ _, ?_, ?_, hs.root, hs.handle_lt, ?_, ?_⟩
  · intro j k data hj
    by_cases hji : j = i
    · subst hji
      rw [Multikey.main_insert halt, update_self] at hj
      cases hj
      exact ⟨rfl, (hs.entry j _ _ hmain).2.1, hlt⟩
    · rw [hmain_of_ne j hji] at hj
      obtain ⟨hdata, hj, hk⟩ := hs.entry j k data hj
      exact ⟨hdata, hj, Nat.lt_of_lt_of_le hk hframe.next⟩
  · intro j p' hp'
    by_cases hji : j = i
    · subst hji
      cases hi.symm.trans hp'
      exact ⟨x, by simp only [hview', update_self],
        by rw [Multikey.main_insert halt, update_self]⟩
    · obtain ⟨o', ho', hmain'⟩ := hs.paths j p' hp'
      have hne : p' ≠ p := by
        intro hp
        rw [hp] at ho'
        rw [some.inj (ho'.symm.trans hview)] at hmain'
        exact hji (hs.agrees.unique hmain' hmain)
      exact ⟨o', by simp only [hview', update_of_ne hne, ho'], by rw [hmain_of_ne j hji, hmain']⟩
  · intro h data hh hdata
    have hnew : ∀ y, some x = some y → s.disk.nextKey ≤ y.key := by
      intro y hy
      cases hy
      exact hfresh
    obtain ⟨hle, hkey, hpath⟩ := hs.files_update hframe hview' hnew hh hdata
    exact ⟨hle, hkey, fun p' y hy hykey => (hpath p' y hy hykey).2⟩
  · intro h data hh hdata
    obtain ⟨p', hp', hy⟩ := hs.dirs h data hh hdata
    have hne : p' ≠ p := by
      rintro rfl
      cases hview.symm.trans hy
      exact hleaf rfl
    exact ⟨p', hp', by simp only [hview', update_of_ne hne, hy]⟩

end

/-- What `ensure_unshared_inode` did: the file at `p` is now one of the upper tree. -/
structure Unshared (L : Lower) (s s' : State) (p : Path) (o o' : Obj) : Prop where
  frame : Frame s.disk s'.disk
  view : s'.disk.view = update s.disk.view p (some o')
  kind : o'.kind = .file
  upper : L.keys ≤ o'.key
  data : s'.disk.data o'.key = s.disk.data o.key
  old : o' = o ∨ (s.disk.nextKey ≤ o'.key ∧ o.key < L.keys)
  ignored : s'.ignored = s.ignored
  handles : s'.handles = s.handles
  nextHandle : s'.nextHandle = s.nextHandle
  inodePaths : s'.inodePaths = s.inodePaths

/-- The upper file that is shown. -/
theorem upper_of_view {u : Obj} (hview : d.view p = some o) (hleaf : o.isDir = false)
    (hu : d.tree .upper p = some u) : u = o := by
  rw [view_of_not_white (isWhite_of_view hview), hu] at hview
  simp only [stacked] at hview
  split_ifs at hview with hboth
  · rw [hview] at hboth
    simp [hleaf] at hboth
  · exact some.inj hview

theorem Inv.copyUp_spec (hs : Inv L s) (hq : s.disk.ShowsDir q)
    (hview : s.disk.view (q ++ [n]) = some o) (hfile : o.kind = .file)
    (hupper : s.disk.tree .upper (q ++ [n]) = none) :
    ∃ d k, copyUpPath (q ++ [n]) s = (.ok (), { s with disk := d }) ∧ DiskInv L d ∧
      Frame s.disk d ∧ d.view = update s.disk.view (q ++ [n]) (some ⟨k, .file⟩) ∧
      d.tree .upper (q ++ [n]) = some ⟨k, .file⟩ ∧ s.disk.nextKey ≤ k ∧ k < d.nextKey ∧
      d.data k = s.disk.data o.key := by
  have hwhite := isWhite_of_view hview
  have hlower : s.disk.tree .lower (q ++ [n]) = some o := by
    rw [view_of_not_white hwhite, hupper] at hview
    exact hview
  have hlo : L.tree (q ++ [n]) = some o := by rw [← hs.disk.lower, hlower]
  obtain ⟨d₁, hrun₁, hd₁, hgrown₁, hview₁, hdir₁⟩ := hs.disk.upperDirs_spec hq
  have hfree : d₁.tree .upper (q ++ [n]) = none := by rw [hgrown₁.below, hupper]
  have hwhite₁ : d₁.isWhite (q ++ [n]) = false := by
    rw [isWhite, hgrown₁.below]
    exact hwhite
  have hd₂ : DiskInv L (d₁.add .upper (q ++ [n]) .file (d₁.data o.key)) := by
    refine hd₁.addUpper _ hdir₁ hfree hwhite₁ ?_
    intro lo hlo'
    cases hlo.symm.trans hlo'
    simp [isDir, hfile]
  have hview₂ : (d₁.add .upper (q ++ [n]) .file (d₁.data o.key)).view =
      update s.disk.view (q ++ [n]) (some ⟨d₁.nextKey, .file⟩) := by
    rw [hd₁.view_addUpper _ hwhite₁, hview₁]
    simp [isDir]
  have hq₂ : (d₁.add .upper (q ++ [n]) .file (d₁.data o.key)).ShowsDir q := hq.update hview₂
  obtain ⟨d₃, hrun₃, hd₃, hframe₃, hwhite₃, hview₃, htree₃, hnext₃⟩ := hd₂.clearDirectWhiteout hq₂ n
  have hupper₃ : d₃.tree .upper (q ++ [n]) = some ⟨d₁.nextKey, .file⟩ := by
    rw [htree₃ .upper _ (by decide), add_tree_same]
  refine ⟨d₃, d₁.nextKey, ?_, hd₃, (hgrown₁.frame.trans (.add _ _ _ _ _)).trans hframe₃, ?_, hupper₃,
    hgrown₁.frame.next, ?_, ?_⟩
  · rw [copyUpPath, bind_ask, hs.disk.hasPath_eq (hs.disk.clear hq _ n), hupper, next_ok]
    simp only [isSome_none, Bool.false_eq_true, if_false]
    rw [bind_ask, hs.disk.covers_eq hq, hwhite, next_ok]
    simp only [Bool.false_eq_true, if_false]
    rw [bind_ask, hs.disk.stat_of_some hlower, next_ok, prepareUpperParent, List.dropLast_concat,
      bind_ok hrun₁, bind_onDisk]
    simp only [hfile, reduceCtorEq, if_false]
    rw [hd₁.createAt_eq .file _ hdir₁ hfree, nextDisk_ok, onDisk_eq]
    rw [hrun₃]
    rfl
  · funext p
    by_cases hp : p = q ++ [n]
    · rw [hp, update_self, view_of_not_white hwhite₃, hupper₃]
      simp [isDir]
    · rw [hview₃ p hp, hview₂]
  · rw [hnext₃]
    exact Nat.lt_succ_self _
  · rw [hframe₃.data _ (Nat.lt_succ_self _)]
    have hlt : o.key < s.disk.nextKey := hs.disk.key_lt _ _ _ hlower
    exact (update_self _ _ _).trans (hgrown₁.frame.data _ hlt)

/-- A file that is opened for writing becomes one of the upper tree. -/
theorem Inv.ensureUnshared_spec (hs : Inv L s) (hi : s.inodePaths i = some (q ++ [n]))
    (hq : s.disk.ShowsDir q) (hign : s.ignored (q ++ [n]) = true)
    (hview : s.disk.view (q ++ [n]) = some o) (hfile : o.kind = .file) :
    ∃ o' s', ensureUnsharedInode i s = (.ok true, s') ∧ Inv L s' ∧
      Unshared L s s' (q ++ [n]) o o' := by
  have hleaf : o.isDir = false := by simp [isDir, hfile]
  have hlead : ensureUnsharedInode i s = (do
      copyUpPath (q ++ [n])
      refreshInodeBacking i (q ++ [n])
      return true : Serve Bool) s := by
    rw [ensureUnsharedInode, bind_ok (inodePath_eq hi), bind_ok (hs.shouldUnshare_eq hq hign)]
    rfl
  cases hupper : s.disk.tree .upper (q ++ [n]) with
  | some u =>
    obtain rfl := upper_of_view hview hleaf hupper
    obtain ⟨o', ho', hmain⟩ := hs.paths i _ hi
    cases hview.symm.trans ho'
    have hcopy : copyUpPath (q ++ [n]) s = (.ok (), s) := by
      rw [copyUpPath, bind_ask, hs.disk.hasPath_eq (hs.disk.clear hq _ n), hupper]
      rfl
    have hrefresh : refreshInodeBacking i (q ++ [n]) s = (.ok (), s) := by
      rw [refreshInodeBacking, bind_ask, hs.disk.stat_of_some hupper, next_ok, edit_apply,
        hs.agrees.insert_self hmain]
    refine ⟨u, s, ?_, hs, ?_⟩
    · rw [hlead, bind_ok hcopy, bind_ok hrefresh]
      rfl
    · exact ⟨.refl _, by rw [← hview, update_eq_self], hfile,
        hs.disk.above .upper _ u (by decide) hupper, rfl, .inl rfl, rfl, rfl, rfl, rfl⟩
  | none =>
    obtain ⟨d, k, hrun, hd, hframe, hview', htree, hfresh, hlt, hdata⟩ :=
      hs.copyUp_spec hq hview hfile hupper
    have hrefresh : refreshInodeBacking i (q ++ [n]) { s with disk := d } =
        (.ok (), { s with disk := d, inodes := s.inodes.insert i k ⟨i, k, none⟩ }) := by
      rw [refreshInodeBacking, bind_ask]
      rw [hd.stat_of_some htree, next_ok, edit_apply]
    have hlower : o.key < L.keys := by
      rw [view_of_not_white (isWhite_of_view hview), hupper, hs.disk.lower] at hview
      exact L.key_lt _ o hview
    refine ⟨⟨k, .file⟩, _, ?_, hs.rebase hi hview (by simp [hfile]) hd hframe hview' hfresh hlt, ?_⟩
    · rw [hlead, bind_ok hrun, bind_ok hrefresh]
      rfl
    · exact ⟨hframe, hview', rfl, Nat.le_trans hs.disk.keys_le hfresh, hdata,
        .inr ⟨hfresh, hlower⟩, rfl, rfl, rfl, rfl⟩

/-- Contents of upper files may change. -/
theorem Inv.setData (hs : Inv L s) {k : Key} (hk : L.keys ≤ k) (content : List UInt8) :
    Inv L { s with disk := s.disk.setData k content } :=
  ⟨hs.disk.setData hk content, hs.agrees, hs.entry, hs.paths, hs.root, hs.handle_lt, hs.files, hs.dirs⟩

section

variable (hs : Inv L s) (hi : s.inodePaths i = some (q ++ [n])) (hq : s.disk.ShowsDir q)
  (hign : s.ignored (q ++ [n]) = true) (hview : s.disk.view (q ++ [n]) = some o)
  (hfile : o.kind = .file)

include hs hi hq hign hview hfile

theorem Inv.openFile_spec (trunc : Bool) :
    ∃ o' s₁, Inv L s₁ ∧ Unshared L s s₁ (q ++ [n]) o o' ∧ openFile i trunc s =
      newHandle ⟨i, o'.key, .readWrite⟩
        { s₁ with disk := if trunc then s₁.disk.setData o'.key [] else s₁.disk } := by
  obtain ⟨o', s₁, hrun, hs₁, hun⟩ := hs.ensureUnshared_spec hi hq hign hview hfile
  refine ⟨o', s₁, hs₁, hun, ?_⟩
  have hi₁ : s₁.inodePaths i = some (q ++ [n]) := by rw [hun.inodePaths, hi]
  have hview₁ : s₁.disk.view (q ++ [n]) = some o' := by rw [hun.view, update_self]
  rw [openFile, bind_ok (inodePath_eq hi), bind_ok hrun, bind_ok (hs₁.openInode_eq hi₁ hview₁)]
  simp only [hun.kind]
  cases trunc <;> rfl

theorem Inv.truncate_spec (size : ℕ) :
    ∃ o' s₁, Inv L s₁ ∧ Unshared L s s₁ (q ++ [n]) o o' ∧ truncate i size s =
      (.ok (), { s₁ with disk := s₁.disk.setData o'.key (resize (s₁.disk.data o'.key) size) }) := by
  obtain ⟨o', s₁, hrun, hs₁, hun⟩ := hs.ensureUnshared_spec hi hq hign hview hfile
  refine ⟨o', s₁, hs₁, hun, ?_⟩
  have hi₁ : s₁.inodePaths i = some (q ++ [n]) := by rw [hun.inodePaths, hi]
  have hview₁ : s₁.disk.view (q ++ [n]) = some o' := by rw [hun.view, update_self]
  rw [truncate, bind_ok (inodePath_eq hi), bind_ok hrun, bind_ok (hs₁.openInode_eq hi₁ hview₁)]
  simp only [hun.kind]
  rfl

end

theorem Inv.opendir_ok (hs : Inv L s) (hi : s.inodePaths i = some p) (hview : s.disk.view p = some o)
    (hdir : o.kind = .dir) : opendir i s = newHandle ⟨i, o.key, .dir⟩ s := by
  rw [opendir, bind_ok (hs.openInode_eq hi hview)]
  simp only [hdir]

/-! ## Removed names -/

/-- A name is gone, and remembered for no inode. -/
theorem Inv.forget (hs : Inv L s) (hp : p ≠ []) (hleaf : ∀ o, s.disk.view p = some o → o.kind ≠ .dir)
    (hd : DiskInv L d) (hframe : Frame s.disk d) (hview : d.view = update s.disk.view p none) :
    Inv L { s with
      disk := d
      inodePaths := fun i => if s.inodePaths i = some p then none else s.inodePaths i } := by
  have hkeep : ∀ i p', s.inodePaths i = some p' → p' ≠ p →
      (if s.inodePaths i = some p then none else s.inodePaths i) = some p' := by
    intro i p' hi hne
    rw [if_neg, hi]
    rw [hi]
    exact fun h => hne (some.inj h)
  refine ⟨hd, hs.agrees, ?_, ?_, hkeep _ _ hs.root (Ne.symm hp), hs.handle_lt, ?_, ?_⟩
  · intro i k data hi
    obtain ⟨hdata, hlt, hk⟩ := hs.entry i k data hi
    exact ⟨hdata, hlt, Nat.lt_of_lt_of_le hk hframe.next⟩
  · intro i p' hp'
    simp only at hp'
    split_ifs at hp' with hold
    obtain ⟨o, ho, hmain⟩ := hs.paths i p' hp'
    have hne : p' ≠ p := by
      rintro rfl
      exact hold hp'
    exact ⟨o, by simp only [hview, update_of_ne hne, ho], hmain⟩
  · intro h data hh hdata
    obtain ⟨hle, hkey, hpath⟩ := hs.files_update hframe hview (fun _ h => by cases h) hh hdata
    refine ⟨hle, hkey, ?_⟩
    intro p' x hx hxkey
    obtain ⟨hne, hi⟩ := hpath p' x hx hxkey
    exact hkeep _ _ hi hne
  · intro h data hh hdata
    obtain ⟨p', hp', hx⟩ := hs.dirs h data hh hdata
    have hne : p' ≠ p := by
      rintro rfl
      exact hleaf _ hx rfl
    exact ⟨p', hkeep _ _ hp' hne, by simp only [hview, update_of_ne hne, hx]⟩

/-- What a request that removed a name did. -/
structure Removed (s s' : State) (p : Path) : Prop where
  frame : Frame s.disk s'.disk
  view : s'.disk.view = update s.disk.view p none
  ignored : s'.ignored = s.ignored
  handles : s'.handles = s.handles
  nextHandle : s'.nextHandle = s.nextHandle

section

variable (hd : DiskInv L s.disk) (hq : s.disk.ShowsDir q)

include hd hq

theorem removeUpper_some (hupper : s.disk.tree .upper (q ++ [n]) = some o) (hleaf : o.isDir = false) :
    removeUpper (q ++ [n]) s = (.ok true, { s with disk := s.disk.remove .upper (q ++ [n]) o }) := by
  have hkind : o.kind ≠ .dir := by simpa [isDir] using hleaf
  rw [removeUpper, bind_ask, hd.pathMetadata_eq (hd.clear hq _ n), hupper, next_ok]
  simp only [hkind, if_false]
  rw [bind_onDisk, hd.removeFile_eq hupper hleaf]
  rfl

theorem removeUpper_none (hupper : s.disk.tree .upper (q ++ [n]) = none) :
    removeUpper (q ++ [n]) s = (.ok false, s) := by
  rw [removeUpper, bind_ask, hd.pathMetadata_eq (hd.clear hq _ n), hupper]
  rfl

/-- Without an upper file, `overlay_unlink` shows nothing at the path any more. -/
theorem hideLower_spec (hupper : s.disk.tree .upper (q ++ [n]) = none)
    (hwhite : s.disk.isWhite (q ++ [n]) = false) (hmarker : marker ∉ q ++ [n]) (removed : Bool)
    (hlower : ∀ lo, L.tree (q ++ [n]) = some lo → lo.isDir = false)
    (hthere : L.tree (q ++ [n]) = none → removed = true) :
    ∃ d, hideLower (q ++ [n]) removed s = (.ok (), { s with disk := d }) ∧ DiskInv L d ∧
      Frame s.disk d ∧ d.view = update s.disk.view (q ++ [n]) none := by
  rw [hideLower, bind_ask, hd.pathMetadata_eq (hd.clear hq _ n), hd.lower, next_ok]
  cases hlo : L.tree (q ++ [n]) with
  | some lo =>
    have hleaf := hlower lo hlo
    obtain ⟨d, hrun, hd', hframe, hview⟩ :=
      hd.createDirectWhiteout hq hupper hwhite ⟨lo, hlo, hleaf⟩ hmarker
    refine ⟨d, ?_, hd', hframe, hview⟩
    simp only [hleaf, Bool.and_false, Bool.false_eq_true, if_false]
    rw [onDisk_eq, hrun]
    rfl
  | none =>
    have hrun := hd.clearDirectWhiteout_eq (hd.open hq) ((hd.hidden_eq _).trans hwhite)
    refine ⟨s.disk, ?_, hd, .refl _, ?_⟩
    · simp only [hthere hlo, Bool.not_true, Bool.false_eq_true, if_false]
      rw [onDisk_eq, hrun]
      rfl
    · have hnone : s.disk.view (q ++ [n]) = none := by
        rw [view_of_not_white hwhite, hupper, hd.lower, hlo]
        rfl
      rw [← hnone, update_eq_self]

end

/-- A name that no whiteout covers is removed from both trees. -/
theorem Sound.unlink_eq (hs : Sound L s.disk) (hpath : relChildPath i n s = (.ok (q ++ [n]), s))
    (h : s.disk.Open q) (hign : s.ignored (q ++ [n]) = true) (hhidden : s.disk.hidden (q ++ [n]) = false) :
    unlink i n s = (do
      let removed ← removeUpper (q ++ [n])
      hideLower (q ++ [n]) removed
      edit fun s => { s with
        inodePaths := fun i => if s.inodePaths i = some (q ++ [n]) then none else s.inodePaths i } :
      Serve Unit) s := by
  rw [unlink, bind_ok hpath, bind_ok (hs.shouldUnshare_eq h hign)]
  simp only [if_true]
  rw [overlayUnlink, bind_ask, hs.covers_eq h, hhidden, next_ok]
  rfl

section

variable (hs : Inv L s) (hi : s.inodePaths i = some q) (hq : s.disk.ShowsDir q) (hn : ValidName n)
  (hign : s.ignored (q ++ [n]) = true)

include hs hi hq hn hign

theorem Inv.unlink_spec (hmarker : marker ∉ q ++ [n]) (hview : s.disk.view (q ++ [n]) = some o)
    (hleaf : o.isDir = false) :
    ∃ s', unlink i n s = (.ok (), s') ∧ Inv L s' ∧ Removed s s' (q ++ [n]) := by
  have hwhite := isWhite_of_view hview
  have hnotdir : ∀ o', s.disk.view (q ++ [n]) = some o' → o'.kind ≠ .dir := by
    intro o' ho'
    cases hview.symm.trans ho'
    simpa [isDir] using hleaf
  -- it is enough to say what happens to the trees
  suffices htrees : ∃ removed d₁ d, removeUpper (q ++ [n]) s = (.ok removed, { s with disk := d₁ }) ∧
      hideLower (q ++ [n]) removed { s with disk := d₁ } = (.ok (), { s with disk := d }) ∧
      DiskInv L d ∧ Frame s.disk d ∧ d.view = update s.disk.view (q ++ [n]) none by
    obtain ⟨removed, d₁, d, hrun₁, hrun₂, hd, hframe, hview'⟩ := htrees
    refine ⟨_, ?_, hs.forget (by simp) hnotdir hd hframe hview', ⟨hframe, hview', rfl, rfl, rfl⟩⟩
    rw [hs.disk.unlink_eq (relChildPath_eq hi hn) (hs.disk.open hq) hign
      ((hs.disk.hidden_eq _).trans hwhite), bind_ok hrun₁, bind_ok hrun₂]
    rfl
  cases hupper : s.disk.tree .upper (q ++ [n]) with
  | some u =>
    obtain rfl := upper_of_view hview hleaf hupper
    have hd₁ := hs.disk.removeUpper hupper hleaf
    have hview₁ := hs.disk.view_removeUpper hupper
    have hq₁ : (s.disk.remove .upper (q ++ [n]) u).ShowsDir q := hq.update hview₁
    obtain ⟨d, hrun, hd, hframe, hview₂⟩ := hideLower_spec
      (s := { s with disk := s.disk.remove .upper (q ++ [n]) u }) hd₁ hq₁
      (remove_tree_same _ _ _ _) ((isWhite_remove _ _ _).trans hwhite) hmarker true
      (fun lo hlo => (hs.disk.same _ u lo hupper hlo).symm.trans hleaf) (fun _ => rfl)
    refine ⟨true, _, d, removeUpper_some hs.disk hq hupper hleaf, hrun, hd,
      (Frame.remove _ _ _ _).trans hframe, ?_⟩
    rw [hview₂]
    simp only [hview₁, update_idem]
  | none =>
    have hlo : L.tree (q ++ [n]) = some o := by
      rw [view_of_not_white hwhite, hupper, hs.disk.lower] at hview
      exact hview
    obtain ⟨d, hrun, hd, hframe, hview₂⟩ := hideLower_spec hs.disk hq hupper hwhite hmarker false
      (fun lo hlo' => by cases hlo.symm.trans hlo'; exact hleaf)
      (fun h => by rw [hlo] at h; cases h)
    exact ⟨false, s.disk, d, removeUpper_none hs.disk hq hupper, hrun, hd, hframe, hview₂⟩

/-- A name that neither is shown nor was in the lower tree cannot be removed. -/
theorem Inv.unlink_missing (hview : s.disk.view (q ++ [n]) = none) (hlower : L.tree (q ++ [n]) = none) :
    ∃ e, unlink i n s = (.error e, s) := by
  have hwhite : s.disk.isWhite (q ++ [n]) = false := by
    by_contra hwhite
    rw [Bool.not_eq_false] at hwhite
    obtain ⟨w, hw, hleaf⟩ := (Option.any_eq_true _ _).1 hwhite
    obtain ⟨-, lo, hlo, -⟩ := hs.disk.white_file _ w hw (by simpa using hleaf)
    rw [hlower] at hlo
    cases hlo
  refine ⟨.enoent, ?_⟩
  rw [hs.disk.unlink_eq (relChildPath_eq hi hn) (hs.disk.open hq) hign
      ((hs.disk.hidden_eq _).trans hwhite),
    bind_ok (removeUpper_none hs.disk hq (hs.disk.free_of_view hview).1)]
  refine bind_error ?_
  rw [hideLower, bind_ask, hs.disk.pathMetadata_eq (hs.disk.clear hq _ n), hs.disk.lower, hlower]
  rfl

theorem Inv.unlink_dir (hdir : s.disk.ShowsDir (q ++ [n])) :
    ∃ e, unlink i n s = (.error e, s) := by
  refine ⟨.eisdir, ?_⟩
  rw [hs.disk.unlink_eq (relChildPath_eq hi hn) (hs.disk.open hq) hign
    ((hs.disk.hidden_eq _).trans (DiskInv.not_white_of_showsDir hdir))]
  cases hupper : s.disk.tree .upper (q ++ [n]) with
  | some u =>
    have hkind : u.kind = .dir := by simpa [isDir] using hs.disk.dir_of_showsDir hdir hupper
    refine bind_error ?_
    rw [removeUpper, bind_ask, hs.disk.pathMetadata_eq (hs.disk.clear hq _ n), hupper, next_ok]
    simp only [hkind, if_true]
    rfl
  | none =>
    obtain ⟨lo, hlo, hlodir, -⟩ := hs.disk.lower_of_showsDir hdir hupper
    rw [bind_ok (removeUpper_none hs.disk hq hupper)]
    refine bind_error ?_
    rw [hideLower, bind_ask, hs.disk.pathMetadata_eq (hs.disk.clear hq _ n), hs.disk.lower, hlo, next_ok]
    simp only [hlodir]
    rfl

end

/-! ## Listings -/

theorem collectUpper_eq (hd : DiskInv L d) (hp : d.ShowsDir p) (entries : Name → Option Kind) :
    collectUpper d p entries = .ok fun n => (dirEntries d .upper p n).or (entries n) := by
  rw [collectUpper, hd.pathMetadata_eq (hd.clear_self hp _)]
  cases hupper : d.tree .upper p with
  | none =>
    have hnone : ∀ n, dirEntries d .upper p n = none := by
      intro n
      rw [dirEntries, (hd.wf .upper).append_none hupper]
      rfl
    simp only [hnone, none_or]
  | some u =>
    have hkind : u.kind = .dir := by simpa [isDir] using hd.dir_of_showsDir hp hupper
    simp only [hkind, if_true]

theorem applyWhiteouts_eq (hd : DiskInv L d) (hp : d.ShowsDir p) (entries : Name → Option Kind) :
    applyWhiteouts d p entries = .ok fun n => if d.isWhite (p ++ [n]) then none else entries n := by
  rw [applyWhiteouts, hd.pathMetadata_eq (hd.clear_self hp _)]
  cases hwhite : d.tree .whiteouts p with
  | none =>
    have hnone : ∀ n, d.isWhite (p ++ [n]) = false := by
      intro n
      rw [Disk.isWhite, (hd.wf .whiteouts).append_none hwhite]
      rfl
    simp only [hnone, Bool.false_eq_true, if_false]
  | some w =>
    have hkind : w.kind = .dir := by simpa [Obj.isDir] using hd.dir_of_showsDir hp hwhite
    simp only [hkind, if_true]
    congr 1
    funext n
    cases hn : d.tree .whiteouts (p ++ [n]) with
    | none => simp [Disk.isWhite, hn]
    | some x =>
      have hmarker : n ≠ marker := by
        rintro rfl
        rw [hd.white_marker p] at hn
        cases hn
      by_cases hx : x.kind = .dir
      · have hshown : d.isWhite (p ++ [n]) = false := by simp [Disk.isWhite, hn, hx, Obj.isDir]
        simp only [hx, if_true, hd.white_marker (p ++ [n]), hshown, Option.isSome_none,
          Bool.false_eq_true, and_false, if_false]
      · simp [Disk.isWhite, hn, hx, Obj.isDir, hmarker]

theorem kind_stacked (upper lower : Option Obj) :
    (stacked upper lower).map Obj.kind = (upper.map Obj.kind).or (lower.map Obj.kind) := by
  cases upper with
  | none => rfl
  | some u =>
    simp only [stacked]
    split_ifs with hboth
    · rw [Bool.and_eq_true] at hboth
      obtain ⟨lo, hlo, hdir⟩ := (Option.any_eq_true _ _).1 hboth.2
      have hu : u.kind = .dir := by simpa [isDir] using hboth.1
      have hlo' : lo.kind = .dir := by simpa [isDir] using hdir
      simp [hlo, hu, hlo']
    · rfl

/-- An upper directory that is shown for itself has nothing below it. -/
theorem DiskInv.lower_none (hd : DiskInv L d) (hview : d.view p = some o) (hdir : o.isDir = true)
    (hupper : d.tree .upper p = some o) : d.tree .lower p = none := by
  rw [view_of_not_white (isWhite_of_view hview), hupper] at hview
  cases hlower : d.tree .lower p with
  | none => rfl
  | some lo =>
    have hsame := hd.same p o lo hupper (by rw [← hd.lower, hlower])
    simp only [stacked, hlower, any_some, ← hsame, hdir, Bool.and_self, if_true] at hview
    have hplace := hd.place_unique hupper (hlower.trans hview) rfl
    cases hplace

/-- A directory's listing has the names that are shown in it. -/
theorem Inv.readdir_eq (hs : Inv L s) {h : Handle} {data : HandleData} (hh : s.handles h = some data)
    (hdata : data.mode = .dir) (hview : s.disk.view p = some ⟨data.key, .dir⟩) :
    readdir h s = (.ok fun n => (s.disk.view (p ++ [n])).map Obj.kind, s) := by
  have hp : s.disk.ShowsDir p := ⟨_, hview, rfl⟩
  have hi : s.inodePaths data.inode = some p := by
    obtain ⟨p', hp', hview'⟩ := hs.dirs h data hh hdata
    rw [hs.disk.view_key hview hview' rfl]
    exact hp'
  have hget : getHandle h s = (.ok data, s) := by simp [getHandle, hh]
  obtain ⟨l, hl, htree⟩ := tree_of_view hview
  have hvol : s.disk.vol data.key = some (l, p) := (hs.disk.vol data.key l p).2 ⟨.dir, htree⟩
  rw [readdir, bind_ok hget]
  simp only [hdata, ne_eq, not_true_eq_false, if_false]
  rw [bind_ok (inodePath_eq hi), bind_ask]
  simp only [hvol]
  rw [next_ok, bind_ask, collectUpper_eq hs.disk hp, next_ok, ask_apply, applyWhiteouts_eq hs.disk hp]
  congr 2
  funext n
  have hentries : (dirEntries s.disk .upper p n).or (dirEntries s.disk l p n) =
      (dirEntries s.disk .upper p n).or (dirEntries s.disk .lower p n) := by
    cases l with
    | lower => rfl
    | whiteouts => exact absurd rfl hl
    | upper =>
      have hnone := hs.disk.lower_none hview rfl htree
      rw [dirEntries, dirEntries, (hs.disk.wf .lower).append_none hnone]
      simp
  rw [view, hentries]
  split_ifs with hwhite
  · rfl
  · rw [kind_stacked]
    rfl

end Lnx.Overlay
