import Lnx.Overlay.PrivateCopy

/-!
# What unlinking and copying up leave as it was

* `Disk.find`: what a lookup of a path finds; `lookup_eq` and `Sound.find_eq`.
* `unlink_hides_only_iff`: unlinking a lower file changes no other lookup in its directory or
  on the way there, if and only if no name below the first of the path is that of the marker.
* `copy_up_invisible_iff`: copying up a file or a link is not seen, and a directory always is.
-/

namespace Lnx.Overlay

open Multikey Option List Trial PathTree Function

/-! ## Lookups -/

/-- What a lookup of a path finds. -/
def Disk.find (d : Disk) (p : Path) : Except Errno Obj :=
  match d.overlayPath p with
  | .error e => .error e
  | .ok none => .error .enoent
  | .ok (some l) => d.stat l p

open Disk

/-- A lookup asks the disk for that, and for the size. -/
theorem lookup_eq (i : Inode) (n : Name) : lookup i n = do
    let p ← relChildPath i n
    let _ ← getInode i
    let st ← ask fun s => s.disk.find p
    let inode ← inodeOf st.key
    rememberInodePath inode p
    let size ← ask fun s => .ok (if st.kind = .file then (s.disk.data st.key).length else 0)
    return ⟨inode, st.kind, size⟩ := by
  unfold lookup
  congr 1
  funext p
  congr 1
  funext _ s
  rw [bind_ask, bind_ask, find]
  cases s.disk.overlayPath p with
  | error e => rfl
  | ok layer =>
    cases layer with
    | none => rfl
    | some l => exact bind_ask _ _ _

section find

variable {L : Lower} {s s' : State} {d d' : Disk} {p q r : Path} {n : Name} {o : Obj} {i j : Inode}

theorem Sound.find_eq (hs : Sound L d) (h : d.Open q)
    (hlower : Clear Obj.isDir (d.tree .lower) (q ++ [n])) :
    d.find (q ++ [n]) = found (d.shown (q ++ [n])) := by
  rw [Disk.find, Disk.overlayPath, hs.covers_eq h, Disk.shown]
  cases d.hidden (q ++ [n]) with
  | true => simp [found]
  | false =>
    simp only [hs.pathMetadata_eq (hs.clear h (l := .upper) (by decide) n), hs.pathMetadata_eq hlower]
    cases hupper : d.tree .upper (q ++ [n]) with
    | none => simp [hs.stat_eq hlower]
    | some u =>
      by_cases hu : u.kind = .dir <;> by_cases hlo : (d.tree .lower (q ++ [n])).any Obj.isDir <;>
        simp [hu, hlo, Obj.isDir, hs.stat_eq hlower, hs.stat_of_some hupper, found]

/-- A path that has a whiteout is not found. -/
theorem Sound.find_hidden (hs : Sound L d) (hh : d.hidden (r ++ [n]) = true) :
    d.find (r ++ [n]) = .error .enoent := by
  have hne : d.tree .whiteouts (r ++ [n]) ≠ none := by
    intro hnone
    rw [Disk.hidden, hnone] at hh
    cases hh
  have hfirst : ancestors (r ++ [n]) = (r ++ [n]) :: ancestors r := by
    simp [ancestors, inits_append]
  rw [find, overlayPath, whiteoutCovers, hfirst, anyWhiteout,
    hs.direct_eq ((hs.wf .whiteouts).clear hne), hh]

/-! ## Unlinking -/

/-- The marker below a path hides it. -/
theorem Sound.hidden_of_marker (hs : Sound L d) {rest : Path}
    (h : d.tree .whiteouts (r ++ marker :: rest) ≠ none) : d.hidden r = true := by
  obtain ⟨o, ho, -⟩ := (hs.wf .whiteouts).above rest h
  have hsome : d.tree .whiteouts (r ++ [marker]) ≠ none := by
    cases rest with
    | nil => exact h
    | cons m rest =>
      obtain ⟨x, hx, -⟩ := (hs.wf .whiteouts).above (q := r ++ [marker]) (n := m) rest (by simpa using h)
      simp [hx]
  rw [Disk.hidden, ho]
  simp [isSome_iff_ne_none.2 hsome]

theorem hidden_add {x : Path} {kind : Kind} (hr : r ≠ x) (hm : r ++ [marker] ≠ x) :
    (d.add .whiteouts x kind []).hidden r = d.hidden r := by
  rw [Disk.hidden, Disk.hidden, add_tree_apart (by simp [hm]), add_tree_apart (by simp [hr])]

/-- New directories of whiteouts hide nothing, unless one is the marker. -/
theorem Sound.hidden_grown (hs : Sound L d) (hgrown : Grown .whiteouts q d d')
    (hm : ¬ r ++ [marker] <+: q) : d'.hidden r = d.hidden r := by
  have hmark : d'.tree .whiteouts (r ++ [marker]) = d.tree .whiteouts (r ++ [marker]) :=
    (hgrown.cases _).resolve_right (fun h => hm h.2.2) .whiteouts
  rw [Disk.hidden, Disk.hidden, hmark]
  rcases hgrown.cases r with hsame | ⟨hnone, ⟨o, ho, hdir⟩, -⟩
  · rw [hsame]
  · rw [ho, hnone, (hs.wf .whiteouts).append_none hnone]
    simp [hdir]

/-- What `create_direct_whiteout` of a name that is shown does. -/
theorem Sound.createDirectWhiteout_inv (hs : Sound L d) (h : d.Open q)
    (hhidden : d.hidden (q ++ [n]) = false) (hrun : d.createDirectWhiteout (q ++ [n]) = .ok d') :
    Sound L d' ∧ d'.tree .whiteouts (q ++ [n]) ≠ none ∧
      (∀ l r, l ≠ .whiteouts → d'.tree l r = d.tree l r) ∧
      ∀ r, r.length ≤ q.length + 1 → r ≠ q ++ [n] → ¬ r ++ [marker] <+: q ++ [n] →
        d'.hidden r = d.hidden r := by
  cases hw : d.tree .whiteouts (q ++ [n]) with
  | none =>
    obtain ⟨-, hs', hgrown, hdir⟩ := hs.mkdirs_white h
    cases (hs.createDirectWhiteout_eq h hw).symm.trans hrun
    refine ⟨hs'.add (by decide) .file [] hdir ((hgrown.below _ n).trans hw), ?_, ?_, ?_⟩
    · rw [add_tree_same]
      exact some_ne_none _
    · intro l r hl
      rw [add_tree_apart (by simp [hl]), hgrown.other l r hl]
    · intro r _ hr hm
      rw [hidden_add hr fun heq => hm (heq ▸ prefix_rfl)]
      exact hs.hidden_grown hgrown fun hpre => hm (hpre.trans (prefix_append _ _))
  | some w =>
    obtain ⟨hdir, hnone⟩ := (not_hidden_iff hw).1 hhidden
    rw [createDirectWhiteout, hs.pathMetadata_eq (hs.clear h (by decide) n), hw] at hrun
    simp only [any_some, hdir, if_true] at hrun
    rw [Disk.writeFile, hs.pathMetadata_eq (hs.clear_of_hasDir ⟨w, hw, hdir⟩ marker), hnone] at hrun
    cases (hs.createAt_eq .file [] ⟨w, hw, hdir⟩ hnone).symm.trans hrun
    refine ⟨hs.add (by decide) .file [] ⟨w, hw, hdir⟩ hnone, ?_, ?_, ?_⟩
    · rw [add_tree_apart (by simp), hw]
      exact some_ne_none _
    · intro l r hl
      exact add_tree_apart (by simp [hl])
    · intro r hlen hr _
      refine hidden_add ?_ ?_
      · rintro rfl
        simp at hlen
      · intro heq
        exact hr (append_inj_left' heq rfl)

theorem hidden_remove (p r : Path) : (d.remove .upper p o).hidden r = d.hidden r := by
  rw [Disk.hidden, Disk.hidden, remove_tree_apart (by simp), remove_tree_apart (by simp)]

theorem shown_remove (h : r ≠ p) : (d.remove .upper p o).shown r = d.shown r := by
  rw [shown, shown, hidden_remove, remove_tree_apart (by simp [h]), remove_tree_apart (by simp)]

theorem relChildPath_ok {t : State} (hi : s.inodePaths i = some q)
    (h : relChildPath i n s = (.ok p, s')) (ht : t.inodePaths i = some q) :
    relChildPath i n t = (.ok (q ++ [n]), t) := by
  rw [relChildPath, bind_ok (inodePath_eq hi)] at h
  rw [relChildPath, bind_ok (inodePath_eq ht)]
  split_ifs at h ⊢
  · cases h
  · rfl

/-- What unlinking a lower file did: its upper file is gone, and it has a whiteout. -/
theorem Sound.unlink_inv (hs : Sound L s.disk) (hi : s.inodePaths i = some q) (h : s.disk.Open q)
    (hign : s.ignored (q ++ [n]) = true) (hhidden : s.disk.hidden (q ++ [n]) = false)
    (hlo : s.disk.tree .lower (q ++ [n]) = some o) (hleaf : o.isDir = false)
    (hrun : unlink i n s = (.ok (), s')) :
    ∃ d, Sound L d ∧ (∀ r, d.hidden r = s.disk.hidden r) ∧ d.tree .lower = s.disk.tree .lower ∧
      (∀ r, r ≠ q ++ [n] → d.shown r = s.disk.shown r) ∧
      d.createDirectWhiteout (q ++ [n]) = .ok s'.disk := by
  obtain ⟨p, s₀, hpath, -⟩ := Trial.bind_eq_ok.1 hrun
  rw [hs.unlink_eq (relChildPath_ok hi hpath hi) h hign hhidden] at hrun
  obtain ⟨b, s₁, hupper, hrun⟩ := Trial.bind_eq_ok.1 hrun
  obtain ⟨_, s₂, hwhite, hrun⟩ := Trial.bind_eq_ok.1 hrun
  cases hrun
  -- the second step, once the first has left the lower tree
  have hcover : s₁.disk.tree .lower = s.disk.tree .lower → Sound L s₁.disk →
      s₁.disk.createDirectWhiteout (q ++ [n]) = .ok s₂.disk := by
    intro htree hs₁
    rw [hideLower, bind_ask, Disk.pathMetadata, hs₁.stat_of_some (htree ▸ hlo), next_ok] at hwhite
    simp only [hleaf, Bool.and_false, Bool.false_eq_true, if_false] at hwhite
    rw [onDisk_eq] at hwhite
    cases hcreate : s₁.disk.createDirectWhiteout (q ++ [n]) with
    | error e =>
      rw [hcreate] at hwhite
      cases hwhite
    | ok d =>
      rw [hcreate] at hwhite
      cases hwhite
      rfl
  rw [removeUpper, bind_ask, hs.pathMetadata_eq (hs.clear h (by decide) n), next_ok] at hupper
  cases hu : s.disk.tree .upper (q ++ [n]) with
  | none =>
    rw [hu] at hupper
    cases hupper
    exact ⟨s.disk, hs, fun _ => rfl, rfl, fun _ _ => rfl, hcover rfl hs⟩
  | some u =>
    simp only [hu] at hupper
    split_ifs at hupper with hkind
    · cases hupper
    · have hudir : u.isDir = false := by simp [Obj.isDir, hkind]
      rw [bind_onDisk, hs.removeFile_eq hu hudir] at hupper
      cases hupper
      have hs₁ := hs.remove (by decide) hu ((hs.wf .upper).leaf hu hudir)
      have htree : (s.disk.remove .upper (q ++ [n]) u).tree .lower = s.disk.tree .lower :=
        funext fun _ => remove_tree_apart (by simp)
      exact ⟨_, hs₁, hidden_remove _, htree, fun _ => shown_remove, hcover htree hs₁⟩

/-- No lookup on the way to the name, or of another name there, has changed. -/
def HidesOnly (d d' : Disk) (q : Path) (n : Name) : Prop :=
  ∀ r, r ≠ [] → (r <+: q ∨ ∃ m, m ≠ n ∧ r = q ++ [m]) → d'.find r = d.find r

/-- Unlinking a lower file hides only its name, if and only if no name below the first of its
    path is that of the marker. -/
theorem unlink_hides_only_iff (L : Lower) (s s' : State) (hs : Sound L s.disk) (q : Path) (n : Name)
    (i : Inode) (hi : s.inodePaths i = some q) (hign : s.ignored (q ++ [n]) = true)
    (hfile : ∃ k, L.tree (q ++ [n]) = some ⟨k, .file⟩) (hopen : s.disk.Open q)
    (hshown : s.disk.shown (q ++ [n]) ≠ none) (hrun : unlink i n s = (.ok (), s')) :
    HidesOnly s.disk s'.disk q n ↔ ∀ r, r ≠ [] → ¬ r ++ [marker] <+: q ++ [n] := by
  obtain ⟨k, hfile⟩ := hfile
  have hhidden : s.disk.hidden (q ++ [n]) = false := by
    by_contra hh
    rw [shown, if_pos ⟨by simp, by simpa using hh⟩] at hshown
    exact hshown rfl
  have hlow : s.disk.tree .lower (q ++ [n]) = some ⟨k, .file⟩ := by rw [hs.lower, hfile]
  obtain ⟨d, hd, hhid, hlower, hshow, hcreate⟩ := hs.unlink_inv hi hopen hign hhidden hlow rfl hrun
  have hopen_d : d.Open q := by
    intro r hr
    rw [hshow r fun heq => absurd (heq ▸ hr).length_le (by simp)]
    exact hopen r hr
  obtain ⟨hs', hsome, htree, hkeep⟩ := hd.createDirectWhiteout_inv hopen_d ((hhid _).trans hhidden) hcreate
  -- a path that ends on the way, or in the directory
  have hplace : ∀ {r}, r ≠ [] → (r <+: q ∨ ∃ m, m ≠ n ∧ r = q ++ [m]) →
      ∃ r' m, r = r' ++ [m] ∧ r' <+: q ∧ r ≠ q ++ [n] ∧ r.length ≤ q.length + 1 := by
    intro r hr hplace
    obtain ⟨r', m, rfl⟩ := (eq_nil_or_concat' r).resolve_left hr
    refine ⟨r', m, rfl, ?_⟩
    rcases hplace with hpre | ⟨m', hm', heq⟩
    · refine ⟨(prefix_append _ _).trans hpre, ?_, Nat.le_succ_of_le hpre.length_le⟩
      intro heq
      exact absurd (heq ▸ hpre).length_le (by simp)
    · obtain ⟨rfl, hm⟩ := append_inj' heq rfl
      refine ⟨prefix_rfl, ?_, by simp⟩
      intro heq'
      exact hm' (by simpa using (heq.symm.trans heq'))
  have hclear : ∀ {t r m}, Sound L t → r <+: q → Clear Obj.isDir (t.tree .lower) (r ++ [m]) := by
    intro t r m ht hr
    exact ht.clear_of_hasDir ((ht.wf .lower).dir_above (n := n) hr (by simp [ht.lower, hfile])) m
  have hfind : ∀ {r m}, r <+: q → s.disk.find (r ++ [m]) = found (s.disk.shown (r ++ [m])) :=
    fun hr => hs.find_eq (fun r' hr' => hopen r' (hr'.trans hr)) (hclear hs hr)
  constructor
  · rintro hsame r hr ⟨rest, hrest⟩
    rw [append_assoc] at hrest
    have hpre : r <+: q := by
      refine (prefix_concat_iff.1 ⟨_, hrest⟩).resolve_left ?_
      rintro rfl
      simp at hrest
    obtain ⟨r', m, rfl, hr', -⟩ := hplace hr (.inl hpre)
    obtain ⟨o, ho, -⟩ := hopen _ hpre
    have hfound := hsame _ hr (.inl hpre)
    rw [← hrest] at hsome
    rw [hfind hr', ho, hs'.find_hidden (hs'.hidden_of_marker hsome)] at hfound
    cases hfound
  · intro hmark r hr hr'
    have hshown' : ∀ r, r ≠ q ++ [n] → r.length ≤ q.length + 1 → s'.disk.shown r = s.disk.shown r := by
      intro r hne hlen
      rw [← hshow r hne, shown, shown, htree _ _ (by decide), htree _ _ (by decide)]
      refine if_congr (and_congr_right fun hr => ?_) rfl rfl
      rw [hkeep r hlen hne (hmark r hr)]
    obtain ⟨r', m, rfl, hpre, hne, hlen⟩ := hplace hr hr'
    have hopen' : s'.disk.Open r' := by
      intro r hr
      have hrq := hr.trans hpre
      rw [hshown' r (fun heq => absurd (heq ▸ hrq).length_le (by simp)) (Nat.le_succ_of_le hrq.length_le)]
      exact hopen r hrq
    rw [hfind hpre, hs'.find_eq hopen' (hclear hs' hpre), hshown' _ hne hlen]

/-! ## Copying up -/

/-- The table of inodes is one, and what is new is not in it. -/
structure Numbered (s : State) : Prop where
  agrees : s.inodes.Agrees
  fresh : ∀ i k data, s.inodes.main i = some (k, data) → i < s.nextInode ∧ k < s.disk.nextKey

/-- The names that are listed through an inode. -/
def listing (i : Inode) : Serve (Name → Option Kind) := do
  let h ← opendir i
  readdir h

/-- What the guest has of the object at `n` in the directory `j`, through its inode `i` and by
    lookup, is as before. -/
structure CopyUpInvisible (s s' : State) (i j : Inode) (n : Name) (o : Obj) : Prop where
  object : ∃ o', (openInode i s').1 = .ok o' ∧ o'.kind = o.kind ∧
    (o.kind ≠ .dir → s'.disk.data o'.key = s.disk.data o.key)
  names : o.kind = .dir → (listing i s').1 = (listing i s).1
  number : (lookup j n s').1.map Entry.inode = .ok i

/-- The inode that a lookup returns for what it finds. -/
theorem lookup_number (hpath : relChildPath j n s = (.ok p, s)) (hfind : s.disk.find p = .ok o) :
    (lookup j n s).1.map Entry.inode =
      if (s.inodes.get j).isSome then .ok (((s.inodes.getAlt o.key).map InodeData.inode).getD s.nextInode)
      else .error .ebadf := by
  rw [lookup_eq, bind_ok hpath, getInode, bind_ask]
  cases s.inodes.get j with
  | none => rfl
  | some data =>
    rw [next_ok, bind_ask, hfind, next_ok]
    cases hget : s.inodes.getAlt o.key with
    | none =>
      obtain ⟨t, hnew⟩ : ∃ t, inodeOf o.key s = (.ok s.nextInode, t) := ⟨_, by simp only [inodeOf, hget]; rfl⟩
      rw [bind_ok hnew]
      rfl
    | some data =>
      have hold : inodeOf o.key s = (.ok data.inode, s) := by simp only [inodeOf, hget]
      rw [bind_ok hold]
      rfl

/-- The disk with a copy of the lower object `o`. -/
def Disk.copied (d : Disk) (q : Path) (n : Name) (o : Obj) : Disk :=
  (d.mkdirs .upper [] q).add .upper (q ++ [n]) o.kind
    (if o.kind = .dir then [] else (d.mkdirs .upper [] q).data o.key)

theorem hidden_addUpper (d : Disk) (p r : Path) (kind : Kind) (content : List UInt8) :
    (d.add .upper p kind content).hidden r = d.hidden r := by
  rw [Disk.hidden, Disk.hidden, add_tree_apart (by simp), add_tree_apart (by simp)]

section

variable (hs : Sound L s.disk) (h : s.disk.Open q) (hhidden : s.disk.hidden (q ++ [n]) = false)
  (hlo : s.disk.tree .lower (q ++ [n]) = some o)

include hs h hhidden hlo

/-- What `copy_up_path` does, if there is no upper object. -/
theorem Sound.copyUpPath_eq (hup : s.disk.tree .upper (q ++ [n]) = none) :
    copyUpPath (q ++ [n]) s = (.ok (), { s with disk := s.disk.copied q n o }) ∧
      Sound L (s.disk.copied q n o) ∧ (s.disk.copied q n o).Open q ∧
      (s.disk.copied q n o).hidden (q ++ [n]) = false ∧
      ∃ u, (s.disk.copied q n o).tree .upper (q ++ [n]) = some u ∧ u.kind = o.kind ∧
        s.disk.nextKey ≤ u.key ∧
        (o.kind ≠ .dir → (s.disk.copied q n o).data u.key = s.disk.data o.key) := by
  obtain ⟨-, hs₁, hgrown, hdir⟩ := hs.createDirAll_spec (l := .upper) (by decide) [] q
    (hs.wf .upper).root fun p o hp => hs.isDir h (by decide) hp
  rw [nil_append] at hgrown hdir
  have hfree := (hgrown.below .upper n).trans hup
  have hs₂ : Sound L (s.disk.copied q n o) := hs₁.add (by decide) _ _ hdir hfree
  have hhidden₂ : (s.disk.copied q n o).hidden (q ++ [n]) = false := by
    rw [Disk.copied, hidden_addUpper, Disk.hidden, hgrown.other _ _ (by decide),
      hgrown.other _ _ (by decide)]
    exact hhidden
  have hopen₂ : (s.disk.copied q n o).Open q := by
    intro r hr
    have hne : r ≠ q ++ [n] := fun heq => absurd (heq ▸ hr).length_le (by simp)
    rw [shown, Disk.copied, hidden_addUpper, add_tree_apart (by simp [hne]), add_tree_apart (by simp)]
    change ∃ o, (s.disk.mkdirs .upper [] q).shown r = some o ∧ _
    rw [hgrown.shown h]
    exact h r hr
  refine ⟨?_, hs₂, hopen₂, hhidden₂, _, add_tree_same _ _ _ _ _, rfl, hgrown.frame.next, ?_⟩
  · rw [copyUpPath, bind_ask, hs.hasPath_eq (hs.clear h (by decide) n), hup, next_ok]
    simp only [isSome_none, Bool.false_eq_true, if_false]
    rw [bind_ask, hs.covers_eq h, hhidden, next_ok]
    simp only [Bool.false_eq_true, if_false]
    rw [bind_ask, hs.stat_of_some hlo, next_ok, prepareUpperParent, dropLast_concat,
      bind_ok (hs.upperDirs_eq [] q (hs.wf .upper).root h), bind_onDisk, hs₁.createAt_eq _ _ hdir hfree,
      nextDisk_ok, onDisk_eq]
    have hclear := hs₂.clearDirectWhiteout_eq hopen₂ hhidden₂
    rw [Disk.copied] at hclear
    rw [hclear]
    rfl
  · intro hkind
    refine (update_self _ _ _).trans ?_
    rw [if_neg hkind]
    exact hgrown.frame.data _ (hs.key_lt _ _ _ hlo)

/-- What `ensure_unshared_inode` does for a lower object: the inode is one of an upper object. -/
theorem Sound.ensureUnshared_eq (hshown : s.disk.shown (q ++ [n]) = some o)
    (hign : s.ignored (q ++ [n]) = true) (hi : s.inodePaths i = some (q ++ [n])) :
    ∃ d u, ensureUnsharedInode i s =
        (.ok true, { s with disk := d, inodes := s.inodes.insert i u.key ⟨i, u.key, none⟩ }) ∧
      Sound L d ∧ d.Open q ∧ d.hidden (q ++ [n]) = false ∧ d.tree .upper (q ++ [n]) = some u ∧
      u.kind = o.kind ∧
      (o.kind ≠ .dir → s.disk.nextKey ≤ u.key ∧ d.data u.key = s.disk.data o.key) := by
  -- the last step
  have hrefresh : ∀ d u, d.tree .upper (q ++ [n]) = some u → Sound L d →
      copyUpPath (q ++ [n]) s = (.ok (), { s with disk := d }) → ensureUnsharedInode i s =
        (.ok true, { s with disk := d, inodes := s.inodes.insert i u.key ⟨i, u.key, none⟩ }) := by
    intro d u hu hd hcopy
    have hback : refreshInodeBacking i (q ++ [n]) { s with disk := d } =
        (.ok (), { s with disk := d, inodes := s.inodes.insert i u.key ⟨i, u.key, none⟩ }) := by
      rw [refreshInodeBacking, bind_ask]
      rw [hd.stat_of_some hu, next_ok, edit_apply]
    rw [ensureUnsharedInode, bind_ok (inodePath_eq hi), bind_ok (hs.shouldUnshare_eq h hign)]
    simp only [if_true]
    rw [bind_ok hcopy, bind_ok hback]
    rfl
  cases hup : s.disk.tree .upper (q ++ [n]) with
  | none =>
    obtain ⟨hcopy, hs', hopen', hhidden', u, hu, hkind, hfresh, hdata⟩ :=
      hs.copyUpPath_eq h hhidden hlo hup
    exact ⟨_, u, hrefresh _ u hu hs' hcopy, hs', hopen', hhidden', hu, hkind,
      fun hk => ⟨hfresh, hdata hk⟩⟩
  | some u =>
    -- above a lower directory, the upper object is one
    have hdirs : u.kind = .dir ∧ o.kind = .dir := by
      rw [Disk.shown, if_neg (by simp [hhidden]), hup, hlo, stacked] at hshown
      split_ifs at hshown with hboth
      · simpa [Obj.isDir] using hboth
      · cases hshown
        cases hs.place_unique hup hlo rfl
    have hcopy : copyUpPath (q ++ [n]) s = (.ok (), s) := by
      rw [copyUpPath, bind_ask, hs.hasPath_eq (hs.clear h (by decide) n), hup]
      rfl
    exact ⟨s.disk, u, hrefresh _ u hup hs hcopy, hs, h, hhidden, hup, hdirs.1.trans hdirs.2.symm,
      fun hk => absurd hdirs.2 hk⟩

end

/-- Copying up is not seen if and only if the object is no directory: a directory is looked up in
    the lower tree still, with another inode. -/
theorem copy_up_invisible_iff (L : Lower) (s : State) (hs : Sound L s.disk) (ht : Numbered s)
    (q : Path) (n : Name) (o : Obj) (i j : Inode) (h : s.disk.Open q)
    (hlo : L.tree (q ++ [n]) = some o) (hshown : s.disk.shown (q ++ [n]) = some o)
    (hign : s.ignored (q ++ [n]) = true) (hi : s.inodePaths i = some (q ++ [n]))
    (hmain : s.inodes.main i = some (o.key, ⟨i, o.key, none⟩)) (hj : s.inodePaths j = some q)
    (hget : s.inodes.get j ≠ none) (hname : (relChildPath j n s).1 = .ok (q ++ [n])) :
    ∃ s', ensureUnsharedInode i s = (.ok true, s') ∧
      (CopyUpInvisible s s' i j n o ↔ o.kind ≠ .dir) := by
  have hhidden : s.disk.hidden (q ++ [n]) = false := by
    by_contra hh
    rw [shown, if_pos ⟨by simp, by simpa using hh⟩] at hshown
    cases hshown
  have hlower : s.disk.tree .lower (q ++ [n]) = some o := by rw [hs.lower, hlo]
  obtain ⟨d, u, hrun, hd, hopen, hhid, hu, hkind, hleaf⟩ :=
    hs.ensureUnshared_eq h hhidden hlower hshown hign hi
  refine ⟨_, hrun, ?_⟩
  have hlow : d.tree .lower (q ++ [n]) = some o := by rw [hd.lower, hlo]
  have hne : u.key ≠ o.key := fun heq => by cases hd.place_unique hu hlow heq
  have hfind : d.find (q ++ [n]) = found (stacked (some u) (some o)) := by
    rw [hd.find_eq hopen ((hd.wf .lower).clear (by simp [hlow])), shown, if_neg (by simp [hhid]), hu,
      hlow]
  have hnumber {x : Obj} (hx : d.find (q ++ [n]) = .ok x) := lookup_number (o := x)
    (s := { s with disk := d, inodes := s.inodes.insert i u.key ⟨i, u.key, none⟩ })
    (relChildPath_ok hj (Prod.ext hname rfl) hj) hx
  constructor
  · intro hinv hdir
    have hdirs : (u.isDir && o.isDir) = true := by simp [Obj.isDir, hkind, hdir]
    rw [stacked, any_some, if_pos hdirs] at hfind
    have hold : (s.inodes.insert i u.key ⟨i, u.key, none⟩).getAlt o.key = none := by
      rw [getAlt, ht.agrees.alt_insert_old hmain hne.symm]
      rfl
    have heq := (hnumber hfind).symm.trans hinv.number
    rw [hold] at heq
    split_ifs at heq
    exact absurd (Except.ok.inj heq) (Nat.ne_of_gt (ht.fresh i _ _ hmain).1)
  · intro hdir
    obtain ⟨hfresh, hdata⟩ := hleaf hdir
    have hdirs : ¬ (u.isDir && o.isDir) = true := by simp [Obj.isDir, hdir]
    rw [stacked, any_some, if_neg hdirs] at hfind
    have halt : s.inodes.alt u.key = none := by
      cases halt : s.inodes.alt u.key with
      | none => rfl
      | some k =>
        obtain ⟨data, hk⟩ := (ht.agrees _ _).1 halt
        exact absurd (ht.fresh k _ data hk).2 (Nat.not_lt.2 hfresh)
    have hgeti := get_insert_self s.inodes i u.key ⟨i, u.key, none⟩
    refine ⟨⟨u, ?_, hkind, fun _ => hdata⟩, fun hk => absurd hk hdir, ?_⟩
    · have hvol := (hd.vol u.key .upper (q ++ [n])).2 ⟨u.kind, hu⟩
      rw [openInode, getInode, bind_ask]
      simp [hgeti, hvol, hd.stat_of_some hu]
    · have hji : j ≠ i := by
        rintro rfl
        exact absurd (some.inj (hi.symm.trans hj)) (by simp)
      have hgetj := get_insert_of_ne ⟨i, u.key, none⟩ hji (by simp [halt] : s.inodes.alt u.key ≠ some j)
      rw [hnumber hfind, hgetj, if_pos (isSome_iff_ne_none.2 hget), getAlt,
        alt_insert_self halt]
      simp [hgeti]

end find

/-! ## A share with one file in a directory -/

@[simp] def treeOneDir (b : Name) (p : Path) : Option Obj :=
  if p = [] then some ⟨0, .dir⟩ else if p = ["d"] then some ⟨1, .dir⟩
  else if p = ["d", b] then some ⟨2, .file⟩ else none

def placeOneDir (b : Name) (k : Key) : Option Path :=
  if k = 0 then some [] else if k = 1 then some ["d"] else if k = 2 then some ["d", b] else none

theorem wellFormed_oneDir (b : Name) : WellFormed Obj.isDir (treeOneDir b) := by
  refine ⟨⟨_, rfl, rfl⟩, ?_⟩
  intro p n h
  rcases p with _ | ⟨a, _ | ⟨c, p⟩⟩
  · exact ⟨_, rfl, rfl⟩
  · have ha : a = "d" := by
      by_contra ha
      simp [ha] at h
    exact ⟨_, by rw [ha]; rfl, rfl⟩
  · simp at h

theorem key_lt_oneDir (b : Name) (p : Path) (o : Obj) (h : treeOneDir b p = some o) : o.key < 3 := by
  unfold treeOneDir at h
  split_ifs at h <;> cases h <;> decide

theorem place_oneDir (b : Name) (k : Key) (p : Path) :
    placeOneDir b k = some p ↔ ∃ kind, treeOneDir b p = some ⟨k, kind⟩ := by
  constructor
  · intro h
    unfold placeOneDir at h
    split_ifs at h with h0 h1 h2 <;> cases h
    · exact ⟨.dir, by rw [h0]; rfl⟩
    · exact ⟨.dir, by rw [h1]; rfl⟩
    · exact ⟨.file, by rw [h2]; simp⟩
  · rintro ⟨kind, h⟩
    unfold treeOneDir at h
    split_ifs at h with h0 h1 h2 <;> cases h
    · rw [h0]; rfl
    · rw [h1]; rfl
    · rw [h2]; rfl

/-- A root with `d` in it, and a file in that. -/
def oneDir (b : Name) : Lower where
  tree := treeOneDir b
  data _ := []
  keys := 3
  rootKey := 0
  wellFormed := wellFormed_oneDir b
  root := rfl
  key_lt := key_lt_oneDir b
  place := placeOneDir b
  place_iff := place_oneDir b
  beyond _ _ _ := .error .enoent

/-- The server after a lookup of `d`. -/
def atDir (b : Name) : State := (lookup rootId "d" (start (oneDir b) fun _ => true)).2

theorem unlink_hides_only_f :
    HidesOnly (atDir "f").disk (unlink 2 "f" (atDir "f")).2.disk ["d"] "f" := by
  have hopen : (atDir "f").disk.Open ["d"] := (oneDir "f").diskInv.open ⟨⟨1, .dir⟩, rfl, rfl⟩
  refine (unlink_hides_only_iff (oneDir "f") (atDir "f") _ (oneDir "f").diskInv.toSound ["d"] "f" 2 rfl rfl
    ⟨2, rfl⟩ hopen (by decide) (Prod.ext rfl rfl)).2 ?_
  intro r _ hmark
  exact absurd (hmark.subset (mem_append_right _ (mem_singleton_self _))) (by decide)

/-- With the marker's file the directory is gone. -/
theorem unlink_hides_directory : (unlink 2 marker (atDir marker)).1 = .ok () ∧
    ¬ HidesOnly (atDir marker).disk (unlink 2 marker (atDir marker)).2.disk ["d"] marker := by
  refine ⟨rfl, fun h => ?_⟩
  have := h ["d"] (by decide) (.inl prefix_rfl)
  revert this
  decide +kernel

theorem Inv.numbered {L : Lower} {s : State} (hs : Inv L s) : Numbered s :=
  ⟨hs.agrees, fun i k data h => (hs.entry i k data h).2⟩

/-- The server after a lookup of `f`. -/
def atFile : State := (lookup rootId "f" (start oneFile fun _ => true)).2

theorem copy_up_invisible_f : ∃ s', ensureUnsharedInode 2 atFile = (.ok true, s') ∧
    (CopyUpInvisible atFile s' 2 rootId "f" ⟨1, .file⟩ ↔ Kind.file ≠ .dir) := by
  have hinv : Inv oneFile atFile := by
    obtain ⟨j, s', hrun, hs', -⟩ := (inv_start oneFile fun _ => true).lookup_some
      (i := rootId) (q := []) rfl ⟨⟨0, .dir⟩, rfl, rfl⟩ (n := "f") (by decide) (o := ⟨1, .file⟩) rfl
    rw [atFile, hrun]
    exact hs'
  exact copy_up_invisible_iff oneFile atFile oneFile.diskInv.toSound hinv.numbered [] "f" ⟨1, .file⟩ 2 rootId
    (oneFile.diskInv.open ⟨⟨0, .dir⟩, rfl, rfl⟩) rfl rfl rfl rfl rfl rfl (by decide) rfl

/-- A directory that was copied up has lost its names, and is looked up as another inode. -/
theorem copy_up_loses_names :
    ((listing 2 (atDir "f")).1.toOption.bind (· "f"),
      (listing 2 (ensureUnsharedInode 2 (atDir "f")).2).1.toOption.bind (· "f"),
      (lookup rootId "d" (ensureUnsharedInode 2 (atDir "f")).2).1.toOption.map Entry.inode) =
    (some .file, none, some 3) := by
  decide +kernel

end Lnx.Overlay
