import Lnx.Overlay.Requests

/-!
# The overlay and a plain file system, request by request

Every file of the plain file system has a file of the disk (`m` below), which changes when
the overlay copies it up.

* `Sim`: the relation of the two.
* `Asked`, `Plainly`: the requests that the overlay is for, and those it serves well.
* `Sim.step`: such a request keeps the relation and is answered alike.
-/

namespace Lnx.Overlay

open Trial Function

variable {x : Handle}

/-! ## The relation -/

/-- A file that has a name or is open. -/
def Plain.Live (t : Plain) (id : ℕ) : Prop :=
  (∃ p, t.tree p = some (.file id)) ∨ ∃ h, t.handles h = some (.file id)

/-- The same is shown. -/
inductive NodeSim (m : ℕ → Key) : Option Obj → Option Node → Prop
  | none : NodeSim m none none
  | dir (k : Key) : NodeSim m (some ⟨k, .dir⟩) (some .dir)
  | link (k : Key) : NodeSim m (some ⟨k, .link⟩) (some .link)
  | file (id : ℕ) : NodeSim m (some ⟨m id, .file⟩) (some (.file id))

/-- The same is open. -/
inductive HandleSim (d : Disk) (m : ℕ → Key) : Option PlainHandle → Option HandleData → Prop
  | none : HandleSim d m none none
  | file (id : ℕ) (i : Inode) : HandleSim d m (some (.file id)) (some ⟨i, m id, .readWrite⟩)
  | dir {p : Path} {k : Key} (i : Inode) (h : d.view p = some ⟨k, .dir⟩) :
      HandleSim d m (some (.dir p)) (some ⟨i, k, .dir⟩)

structure Sim (L : Lower) (ignored : Path → Bool) (s : State) (t : Plain) (m : ℕ → Key) : Prop where
  inv : Inv L s
  ignored : s.ignored = ignored
  nodes : ∀ p, NodeSim m (s.disk.view p) (t.tree p)
  content : ∀ id, t.Live id → t.content id = s.disk.data (m id)
  inj : ∀ id id', t.Live id → t.Live id' → m id = m id' → id = id'
  fresh : ∀ id, t.Live id → id < t.nextFile ∧ m id < s.disk.nextKey
  handles : ∀ h, HandleSim s.disk m (t.handles h) (s.handles h)
  nextHandle : t.nextHandle = s.nextHandle

variable {L : Lower} {ign : Path → Bool} {s s' : State} {t : Plain} {m m' : ℕ → Key} {p : Path}
  {dir : Path} {n : Name} {id : ℕ} {o o' : Obj}
variable {ob : Option Obj} {nd : Option Node} {i : Inode} {r : Request}

theorem NodeSim.kind (h : NodeSim m ob nd) : ob.map Obj.kind = nd.map Node.kind := by
  cases h <;> rfl

theorem NodeSim.congr (h : NodeSim m ob nd) (hm : ∀ id, nd = some (.file id) → m' id = m id) :
    NodeSim m' ob nd := by
  cases h with
  | none => exact .none
  | dir k => exact .dir k
  | link k => exact .link k
  | file id =>
    rw [← hm id rfl]
    exact .file id

/-- The same is shown at one more path. -/
theorem NodeSim.update {v : Path → Option Obj} {tree : Path → Option Node}
    (h : ∀ q, q ≠ p → NodeSim m (v q) (tree q)) (hp : NodeSim m ob nd) (q : Path) :
    NodeSim m (update v p ob q) (update tree p nd q) := by
  by_cases hq : q = p
  · rw [hq, update_self, update_self]
    exact hp
  · rw [update_of_ne hq, update_of_ne hq]
    exact h q hq

/-- Files have places of their own still when one has moved to where no other is. -/
theorem inj_update {P : ℕ → Prop} {k : Key} (hinj : ∀ a b, P a → P b → m a = m b → a = b)
    (hne : ∀ a, P a → a ≠ id → m a ≠ k) {a b : ℕ} (ha : a = id ∨ P a) (hb : b = id ∨ P b)
    (hab : update m id k a = update m id k b) : a = b := by
  by_cases haid : a = id <;> by_cases hbid : b = id
  · rw [haid, hbid]
  · rw [haid, update_self, update_of_ne hbid] at hab
    exact absurd hab.symm (hne b (hb.resolve_left hbid) hbid)
  · rw [hbid, update_self, update_of_ne haid] at hab
    exact absurd hab (hne a (ha.resolve_left haid) haid)
  · rw [update_of_ne haid, update_of_ne hbid] at hab
    exact hinj a b (ha.resolve_left haid) (hb.resolve_left hbid) hab

/-- Handles under a changed view, in which directories stay. -/
theorem HandleSim.mono {d d' : Disk} {x : Option PlainHandle} {data : Option HandleData}
    (h : HandleSim d m x data) (hm : ∀ id, x = some (.file id) → m' id = m id)
    (hview : ∀ p k, d.view p = some ⟨k, .dir⟩ → d'.view p = some ⟨k, .dir⟩) :
    HandleSim d' m' x data := by
  cases h with
  | none => exact .none
  | file id i =>
    rw [← hm id rfl]
    exact .file id i
  | dir i h => exact .dir i (hview _ _ h)

section

variable (h : Sim L ign s t m)

include h

theorem Sim.same (hinv : Inv L s') (hsame : SameFiles s s') : Sim L ign s' t m := by
  refine ⟨hinv, hsame.ignored.trans h.ignored, ?_, ?_, h.inj, ?_, ?_, ?_⟩
  · rw [hsame.disk]
    exact h.nodes
  · rw [hsame.disk]
    exact h.content
  · rw [hsame.disk]
    exact h.fresh
  · rw [hsame.disk, hsame.handles]
    exact h.handles
  · rw [h.nextHandle, hsame.nextHandle]

theorem Sim.view_none : s.disk.view p = none ↔ t.tree p = none := by
  rw [← Option.map_eq_none_iff (f := Obj.kind), (h.nodes p).kind, Option.map_eq_none_iff]

theorem Sim.file (hp : t.tree p = some (.file id)) : s.disk.view p = some ⟨m id, .file⟩ := by
  have hsim := h.nodes p
  rw [hp] at hsim
  generalize s.disk.view p = ob at hsim ⊢
  cases hsim
  rfl

theorem Sim.view_some {nd : Node} (hp : t.tree p = some nd) :
    ∃ o, s.disk.view p = some o ∧ o.kind = nd.kind := by
  have hkind := (h.nodes p).kind
  rw [hp] at hkind
  exact Option.map_eq_some_iff.1 hkind

theorem Sim.showsDir : s.disk.ShowsDir p ↔ t.tree p = some .dir := by
  constructor
  · rintro ⟨o, ho, hdir⟩
    have hsim := h.nodes p
    rw [ho] at hsim
    generalize t.tree p = nd at hsim ⊢
    cases hsim with
    | dir k => rfl
    | link k | file id => cases hdir
  · intro hp
    obtain ⟨o, ho, hkind⟩ := h.view_some hp
    exact ⟨o, ho, by simp [Obj.isDir, hkind, Node.kind]⟩

theorem Sim.size {nd : Node} (hp : t.tree p = some nd) (ho : s.disk.view p = some o) :
    sizeOf s.disk o = t.size nd := by
  have hsim := h.nodes p
  rw [hp, ho] at hsim
  cases hsim with
  | dir k | link k => rfl
  | file id => rw [sizeOf, Plain.size, h.content id (.inl ⟨p, hp⟩), if_pos rfl]

/-- A file has one name. -/
theorem Sim.name_unique {q : Path} (hp : t.tree p = some (.file id))
    (hq : t.tree q = some (.file id)) : p = q :=
  h.inv.disk.view_key (h.file hp) (h.file hq) rfl

/-- What is open in the plain file system is open in the overlay. -/
theorem Sim.fileHandle (hx : t.handles x = some (.file id)) :
    ∃ i, s.handles x = some ⟨i, m id, .readWrite⟩ := by
  have hsim := h.handles x
  rw [hx] at hsim
  generalize s.handles x = data at hsim ⊢
  cases hsim with
  | file id i => exact ⟨i, rfl⟩

theorem Sim.upper_of_handle (hx : t.handles x = some (.file id)) : L.keys ≤ m id := by
  obtain ⟨i, hi⟩ := h.fileHandle hx
  exact (h.inv.files x _ hi rfl).1

/-! ## Steps of both -/

/-- Another thing that is not a file is shown at a path without a directory. -/
theorem Sim.setNode (hinv : Inv L s') (hign : s'.ignored = s.ignored)
    (hframe : Frame s.disk s'.disk) (hview : s'.disk.view = update s.disk.view p ob)
    (hp : NodeSim m ob nd) (hfile : ∀ id, nd ≠ some (.file id)) (hdir : t.tree p ≠ some .dir)
    (hh : s'.handles = s.handles) (hnext : s'.nextHandle = s.nextHandle) :
    Sim L ign s' (t.setNode p nd) m := by
  have hlive : ∀ id, (t.setNode p nd).Live id → t.Live id := by
    rintro id (hq | hx)
    · rcases (exists_update_iff t.tree fun _ y => y = some (.file id)).1 hq with hq | ⟨q, -, hq⟩
      · exact absurd hq (hfile id)
      · exact .inl ⟨q, hq⟩
    · exact .inr hx
  refine ⟨hinv, hign.trans h.ignored, ?_, ?_, ?_, ?_, ?_, ?_⟩
  · rw [hview]
    exact NodeSim.update (fun q _ => h.nodes q) hp
  · intro id hid
    rw [hframe.data _ (h.fresh id (hlive id hid)).2]
    exact h.content id (hlive id hid)
  · intro id id' hid hid'
    exact h.inj id id' (hlive id hid) (hlive id' hid')
  · intro id hid
    obtain ⟨hlt, hkey⟩ := h.fresh id (hlive id hid)
    exact ⟨hlt, Nat.lt_of_lt_of_le hkey hframe.next⟩
  · intro x
    rw [hh]
    refine (h.handles x).mono (fun _ _ => rfl) ?_
    intro q k' hq
    rw [hview, update_of_ne ?_, hq]
    rintro rfl
    exact hdir (h.showsDir.1 ⟨_, hq, rfl⟩)
  · rw [hnext]
    exact h.nextHandle

/-- A new file, open. -/
theorem Sim.create (hinv : Inv L s') {k : Key} {j : Inode}
    (hmade : Made s s' (dir ++ [n]) ⟨k, .file⟩) (hold : t.tree (dir ++ [n]) = none)
    (hh : s'.handles = update s.handles s.nextHandle (some ⟨j, k, .readWrite⟩))
    (hnext : s'.nextHandle = s.nextHandle + 1) :
    Sim L ign s' ((t.create dir n).newHandle (.file t.nextFile)) (update m t.nextFile k) := by
  have hlive : ∀ id, ((t.create dir n).newHandle (.file t.nextFile)).Live id →
      id = t.nextFile ∨ t.Live id := by
    rintro id (hq | hx)
    · rcases (exists_update_iff t.tree fun _ y => y = some (.file id)).1 hq with hq | ⟨q, -, hq⟩
      · cases hq
        exact .inl rfl
      · exact .inr (.inl ⟨q, hq⟩)
    · rcases (exists_update_iff t.handles fun _ y => y = some (.file id)).1 hx with hx | ⟨x, -, hx⟩
      · cases hx
        exact .inl rfl
      · exact .inr (.inr ⟨x, hx⟩)
  -- old files keep their place
  have hm : ∀ id, t.Live id → update m t.nextFile k id = m id := by
    intro id hid
    exact update_of_ne (Nat.ne_of_lt (h.fresh id hid).1) _ _
  have hne : ∀ id, t.Live id → m id ≠ k := by
    intro id hid
    exact Nat.ne_of_lt (Nat.lt_of_lt_of_le (h.fresh id hid).2 hmade.fresh)
  refine ⟨hinv, hmade.ignored.trans h.ignored, ?_, ?_, ?_, ?_, ?_, ?_⟩
  · rw [hmade.view]
    refine NodeSim.update (fun q _ => (h.nodes q).congr fun id hid => hm id (.inl ⟨q, hid⟩)) ?_
    have hself : update m t.nextFile k t.nextFile = k := update_self _ _ _
    conv => arg 2; rw [← hself]
    exact .file t.nextFile
  · intro id hid
    rcases hlive id hid with rfl | hid
    · rw [update_self, hmade.empty rfl]
      exact update_self _ _ _
    · rw [hm id hid, hmade.frame.data _ (h.fresh id hid).2, ← h.content id hid]
      exact update_of_ne (Nat.ne_of_lt (h.fresh id hid).1) _ _
  · intro a b ha hb
    exact inj_update h.inj (fun id hid _ => hne id hid) (hlive a ha) (hlive b hb)
  · intro id hid
    rcases hlive id hid with rfl | hid
    · refine ⟨Nat.lt_succ_self _, ?_⟩
      rw [update_self]
      have hshown : s'.disk.view (dir ++ [n]) = some ⟨k, .file⟩ := by
        rw [hmade.view, update_self]
      obtain ⟨l, -, hl⟩ := tree_of_view hshown
      exact hinv.disk.key_lt l _ _ hl
    · rw [hm id hid]
      obtain ⟨hlt, hkey⟩ := h.fresh id hid
      exact ⟨Nat.lt_succ_of_lt hlt, Nat.lt_of_lt_of_le hkey hmade.frame.next⟩
  · intro x
    rw [hh, ← h.nextHandle]
    change HandleSim _ _ (update t.handles t.nextHandle (some (.file t.nextFile)) x) _
    by_cases hxn : x = t.nextHandle
    · rw [hxn, update_self, update_self]
      have hself : update m t.nextFile k t.nextFile = k := update_self _ _ _
      conv => arg 4; rw [← hself]
      exact .file t.nextFile j
    · rw [update_of_ne hxn, update_of_ne hxn]
      refine (h.handles x).mono (fun id hid => hm id (.inr ⟨x, hid⟩)) ?_
      intro q k' hq
      rw [hmade.view, update_of_ne ?_, hq]
      rintro rfl
      rw [h.view_none.2 hold] at hq
      cases hq
  · rw [hnext, ← h.nextHandle]
    rfl

/-- A file is copied up. -/
theorem Sim.unshared (hinv : Inv L s') (hp : t.tree p = some (.file id))
    (hview : s.disk.view p = some o) (hun : Unshared L s s' p o o') :
    Sim L ign s' t (update m id o'.key) := by
  have ho : o.key = m id := by
    cases hview.symm.trans (h.file hp)
    rfl
  have hm : ∀ id', id' ≠ id → update m id o'.key id' = m id' := by
    intro id' hne
    exact update_of_ne hne _ _
  -- no other file has the new place
  have hne : ∀ id', t.Live id' → id' ≠ id → m id' ≠ o'.key := by
    intro id' hid' hne heq
    rcases hun.old with rfl | ⟨hfresh, -⟩
    · exact hne (h.inj id' id hid' (.inl ⟨p, hp⟩) (heq.trans ho))
    · exact absurd heq (Nat.ne_of_lt (Nat.lt_of_lt_of_le (h.fresh id' hid').2 hfresh))
  refine ⟨hinv, hun.ignored.trans h.ignored, ?_, ?_, ?_, ?_, ?_, ?_⟩
  · intro q
    rw [hun.view]
    by_cases hqp : q = p
    · subst hqp
      rw [update_self, hp]
      have hself : (⟨update m id o'.key id, .file⟩ : Obj) = o' := by
        rw [update_self, ← hun.kind]
      rw [← hself]
      have hfile := NodeSim.file (m := update m id o'.key) id
      rw [update_self] at hfile ⊢
      exact hfile
    · rw [update_of_ne hqp]
      refine (h.nodes q).congr ?_
      intro id' hq
      refine hm id' ?_
      rintro rfl
      exact hqp (h.name_unique hq hp)
  · intro id' hid'
    by_cases heq : id' = id
    · subst heq
      rw [update_self, hun.data, h.content id' hid', ho]
    · rw [hm id' heq, hun.frame.data _ (h.fresh id' hid').2]
      exact h.content id' hid'
  · intro a b ha hb
    exact inj_update h.inj hne (.inr ha) (.inr hb)
  · intro id' hid'
    obtain ⟨hlt, hkey⟩ := h.fresh id' hid'
    refine ⟨hlt, ?_⟩
    by_cases heq : id' = id
    · subst heq
      rw [update_self]
      have hshown : s'.disk.view p = some o' := by rw [hun.view, update_self]
      obtain ⟨l, -, hl⟩ := tree_of_view hshown
      exact hinv.disk.key_lt l _ _ hl
    · rw [hm id' heq]
      exact Nat.lt_of_lt_of_le hkey hun.frame.next
  · intro x
    rw [hun.handles]
    refine (h.handles x).mono ?_ ?_
    · intro id' hx
      by_cases heq : id' = id
      · subst heq
        rw [update_self]
        rcases hun.old with rfl | ⟨-, hlower⟩
        · exact ho
        · rw [ho] at hlower
          exact absurd hlower (Nat.not_lt.2 (h.upper_of_handle hx))
      · exact hm id' heq
    · intro q k' hq
      rw [hun.view, update_of_ne ?_, hq]
      rintro rfl
      rw [h.file hp] at hq
      cases hq
  · rw [hun.nextHandle]
    exact h.nextHandle

/-- A file's contents change. -/
theorem Sim.setContent (hid : t.Live id) (hkey : L.keys ≤ m id) (bytes : List UInt8) :
    Sim L ign { s with disk := s.disk.setData (m id) bytes } (t.setContent id bytes) m := by
  refine ⟨h.inv.setData hkey bytes, h.ignored, h.nodes, ?_, h.inj, h.fresh, ?_, h.nextHandle⟩
  · intro id' hid'
    change update t.content id bytes id' = update s.disk.data (m id) bytes (m id')
    by_cases heq : id' = id
    · rw [heq, update_self, update_self]
    · have hne : m id' ≠ m id := fun h' => heq (h.inj id' id hid' hid h')
      rw [update_of_ne heq, update_of_ne hne]
      exact h.content id' hid'
  · intro x
    exact (h.handles x).mono (fun _ _ => rfl) fun _ _ hq => hq

/-- A file or a directory is opened. -/
theorem Sim.addHandle {ph : PlainHandle} {data : HandleData} (hinv : Inv L { s with
      handles := update s.handles s.nextHandle (some data)
      nextHandle := s.nextHandle + 1 })
    (hlive : ∀ id, ph = .file id → t.Live id) (hsim : HandleSim s.disk m (some ph) (some data)) :
    Sim L ign { s with
      handles := update s.handles s.nextHandle (some data)
      nextHandle := s.nextHandle + 1 } (t.newHandle ph) m := by
  have hlive' : ∀ id', (t.newHandle ph).Live id' → t.Live id' := by
    rintro id' (hq | hx)
    · exact .inl hq
    · rcases (exists_update_iff t.handles fun _ y => y = some (.file id')).1 hx with hx | ⟨x, -, hx⟩
      · exact hlive id' (Option.some.inj hx)
      · exact .inr ⟨x, hx⟩
  refine ⟨hinv, h.ignored, h.nodes, fun id' hid' => h.content id' (hlive' id' hid'),
    fun a b ha hb => h.inj a b (hlive' a ha) (hlive' b hb),
    fun id' hid' => h.fresh id' (hlive' id' hid'), ?_, congrArg (· + 1) h.nextHandle⟩
  intro x
  change HandleSim _ _ (update t.handles t.nextHandle (some ph) x)
    (update s.handles s.nextHandle (some data) x)
  rw [← h.nextHandle]
  by_cases hxn : x = t.nextHandle
  · rw [hxn, update_self, update_self]
    exact hsim
  · rw [update_of_ne hxn, update_of_ne hxn]
    exact h.handles x

theorem Sim.openFile (hp : t.tree p = some (.file id)) (hi : s.inodePaths i = some p)
    (hkey : L.keys ≤ m id) :
    Sim L ign { s with
      handles := update s.handles s.nextHandle (some ⟨i, m id, .readWrite⟩)
      nextHandle := s.nextHandle + 1 } (t.newHandle (.file id)) m := by
  refine h.addHandle (h.inv.addHandle .readWrite hi (h.file hp) (fun _ => hkey) ?_) ?_ (.file id i)
  · intro hdir
    cases hdir
  · intro id' hid'
    cases hid'
    exact .inl ⟨p, hp⟩

theorem Sim.opendir (hi : s.inodePaths i = some p) (ho : s.disk.view p = some o)
    (hdir : o.kind = .dir) :
    Sim L ign { s with
      handles := update s.handles s.nextHandle (some ⟨i, o.key, .dir⟩)
      nextHandle := s.nextHandle + 1 } (t.newHandle (.dir p)) m := by
  refine h.addHandle (h.inv.addHandle .dir hi ho ?_ fun _ => hdir) ?_ (.dir i (by rw [ho, ← hdir]))
  · intro hfile
    cases hfile
  · intro id hid
    cases hid

end

/-! ## Requests -/

/-- The requests the overlay is for: names a guest may use, paths that git ignores, and new
    names for new files. -/
def Asked (ignored : Path → Bool) (t : Plain) : Request → Prop
  | .lookup dir name | .openWrite dir name _ | .truncate dir name _ | .unlink dir name
  | .opendir dir name => (∀ n ∈ dir ++ [name], ValidName n) ∧ ignored (dir ++ [name]) = true
  | .create dir name | .mkdir dir name =>
    (∀ n ∈ dir ++ [name], ValidName n) ∧ ignored (dir ++ [name]) = true ∧
      t.tree (dir ++ [name]) = none
  | .write .. | .read .. | .readdir .. => True

/-- The requests that the overlay serves well: no directory in the place of a lower file, no
    writing to a directory, a link or a removed file, no second removal of a lower file, and
    nothing but directories opened as directories. -/
def Plainly (L : Lower) (t : Plain) : Request → Prop
  | .mkdir dir name => L.tree (dir ++ [name]) = none
  | .openWrite dir name _ | .truncate dir name _ =>
    ∀ nd, t.tree (dir ++ [name]) = some nd → nd.kind = .file
  | .write handle _ _ => ∀ id, t.handles handle = some (.file id) → ∃ p, t.tree p = some (.file id)
  | .unlink dir name => t.tree (dir ++ [name]) = none → L.tree (dir ++ [name]) = none
  | .opendir dir name => ∀ nd, t.tree (dir ++ [name]) = some nd → nd = .dir
  | _ => True

/-- A request is answered as by the plain file system. -/
def Follows (L : Lower) (ign : Path → Bool) (r : Request) (s : State) (t : Plain) : Prop :=
  ∃ a s', serve r s = (a, s') ∧ a.toOption = (t.serve r).1 ∧ ∃ m, Sim L ign s' (t.serve r).2 m

theorem valid_dir {name : Name} (h : ∀ n ∈ dir ++ [name], ValidName n) :
    (∀ n ∈ dir, ValidName n) ∧ ValidName name :=
  ⟨fun n hn => h n (List.mem_append_left _ hn), h name (List.mem_append_right _ List.mem_cons_self)⟩

theorem marker_not_mem {q : Path} (h : ∀ n ∈ q, ValidName n) : marker ∉ q := by
  intro hmem
  exact (h marker hmem).2.2.2 rfl

/-- The guest comes to the directory of a request. -/
theorem Sim.walk (h : Sim L ign s t m) (hvalid : ∀ n ∈ dir, ValidName n) :
    (t.tree dir = some .dir ∧ ∃ i s', walkDir rootId dir s = (.ok i, s') ∧ Sim L ign s' t m ∧
      s'.inodePaths i = some dir) ∨
    (t.tree dir ≠ some .dir ∧ ∃ e s', walkDir rootId dir s = (.error e, s') ∧ Sim L ign s' t m) := by
  have hroot : s.disk.ShowsDir [] := h.inv.disk.view_wellFormed.root
  by_cases hdir : t.tree dir = some .dir
  · obtain ⟨i, s', hwalk, hinv, hsame, hi⟩ := h.inv.walkDir_ok h.inv.root dir hvalid
      (by simpa using h.showsDir.2 hdir)
    exact .inl ⟨hdir, i, s', hwalk, h.same hinv hsame, by simpa using hi⟩
  · obtain ⟨e, s', hwalk, hinv, hsame⟩ := h.inv.walkDir_error h.inv.root hroot dir hvalid
      (by simpa using fun hshown => hdir (h.showsDir.1 hshown))
    exact .inr ⟨hdir, e, s', hwalk, h.same hinv hsame⟩

/-- Then it looks the name up. -/
theorem Sim.lookup (h : Sim L ign s t m) (hi : s.inodePaths i = some dir)
    (hdir : t.tree dir = some .dir) (hn : ValidName n) :
    (∃ nd o j s', t.tree (dir ++ [n]) = some nd ∧ s.disk.view (dir ++ [n]) = some o ∧
      o.kind = nd.kind ∧ lookup i n s = (.ok ⟨j, nd.kind, t.size nd⟩, s') ∧ Sim L ign s' t m ∧
      s'.disk = s.disk ∧ s'.inodePaths j = some (dir ++ [n])) ∨
    (t.tree (dir ++ [n]) = none ∧ ∃ e, lookup i n s = (.error e, s)) := by
  have hshown := h.showsDir.2 hdir
  cases hnode : t.tree (dir ++ [n]) with
  | none =>
    obtain ⟨e, he⟩ := h.inv.lookup_none hi hshown hn (h.view_none.2 hnode)
    exact .inr ⟨rfl, e, he⟩
  | some nd =>
    obtain ⟨o, ho, hkind⟩ := h.view_some hnode
    obtain ⟨j, s', hlook, hinv, hsame, hj⟩ := h.inv.lookup_some hi hshown hn ho
    refine .inl ⟨nd, o, j, s', rfl, ho, hkind, ?_, h.same hinv hsame, hsame.disk, hj⟩
    rw [hlook, h.size hnode ho, hkind]

section requests

variable {name : Name}

/-- What the request does in its directory decides the answer. -/
theorem Sim.follows_dir (h : Sim L ign s t m) (hvalid : ∀ n ∈ dir, ValidName n)
    {act : Inode → Serve Answer} (hserve : serve r = walkDir rootId dir >>= act)
    (hnot : t.tree dir ≠ some .dir → t.serve r = (none, t))
    (hact : ∀ i s₁, t.tree dir = some .dir → Sim L ign s₁ t m → s₁.inodePaths i = some dir →
      ∃ a s', act i s₁ = (a, s') ∧ a.toOption = (t.serve r).1 ∧ ∃ m', Sim L ign s' (t.serve r).2 m') :
    Follows L ign r s t := by
  unfold Follows
  rw [hserve]
  rcases h.walk hvalid with ⟨hdir, i, s₁, hwalk, h₁, hi⟩ | ⟨hdir, e, s₁, hwalk, h₁⟩
  · rw [bind_ok hwalk]
    exact hact i s₁ hdir h₁ hi
  · rw [bind_error hwalk, hnot hdir]
    exact ⟨_, _, rfl, rfl, m, h₁⟩

section

variable (h : Sim L ign s t m) (hvalid : ∀ n ∈ dir ++ [name], ValidName n)

include h hvalid

/-- What it does with the name that it finds there decides the answer. -/
theorem Sim.follows_found {act : Entry → Serve Answer}
    (hserve : serve r = walkDir rootId dir >>= fun i => Overlay.lookup i name >>= act)
    (hnone : t.find dir name = none → t.serve r = (none, t))
    (hact : ∀ nd o j s₁, t.tree dir = some .dir → t.tree (dir ++ [name]) = some nd →
      t.find dir name = some nd → s₁.disk.view (dir ++ [name]) = some o → o.kind = nd.kind →
      Sim L ign s₁ t m → s₁.inodePaths j = some (dir ++ [name]) →
      ∃ a s', act ⟨j, nd.kind, t.size nd⟩ s₁ = (a, s') ∧ a.toOption = (t.serve r).1 ∧
        ∃ m', Sim L ign s' (t.serve r).2 m') : Follows L ign r s t := by
  obtain ⟨hdirs, hn⟩ := valid_dir hvalid
  refine h.follows_dir hdirs hserve (fun hdir => hnone (if_neg hdir)) ?_
  intro i s₁ hdir h₁ hi
  have hfind : t.find dir name = t.tree (dir ++ [name]) := if_pos hdir
  rcases h₁.lookup hi hdir hn with
    ⟨nd, o, j, s₂, hnode, ho, hkind, hlook, h₂, hdisk, hj⟩ | ⟨hnode, e, hlook⟩
  · rw [bind_ok hlook]
    exact hact nd o j s₂ hdir hnode (hfind.trans hnode) (by rw [hdisk, ho]) hkind h₂ hj
  · rw [bind_error hlook, hnone (hfind.trans hnode)]
    exact ⟨_, _, rfl, rfl, m, h₁⟩

theorem Sim.step_lookup : Follows L ign (.lookup dir name) s t := by
  refine h.follows_found hvalid rfl (fun hnone => by rw [Plain.serve, hnone]) ?_
  intro nd o j s₁ _ _ hfind _ _ h₁ _
  rw [Plain.serve, hfind]
  exact ⟨_, _, rfl, rfl, m, h₁⟩

theorem Sim.step_create (hign : ign (dir ++ [name]) = true) (hold : t.tree (dir ++ [name]) = none) :
    Follows L ign (.create dir name) s t := by
  obtain ⟨hdirs, hn⟩ := valid_dir hvalid
  refine h.follows_dir hdirs rfl (fun hdir => if_neg fun hboth => hdir hboth.1) ?_
  intro i s₁ hdir h₁ hi
  obtain ⟨j, k, s₂, hrun, hinv, hmade, hh, hnext⟩ := h₁.inv.create_spec hi (h₁.showsDir.2 hdir) hn
    (by rw [h₁.ignored, hign]) (h₁.view_none.2 hold)
  rw [bind_ok hrun, Plain.serve, if_pos ⟨hdir, hold⟩, h₁.nextHandle]
  exact ⟨_, _, rfl, rfl, _, h₁.create hinv hmade hold hh hnext⟩

theorem Sim.step_mkdir (hign : ign (dir ++ [name]) = true) (hold : t.tree (dir ++ [name]) = none)
    (hlower : L.tree (dir ++ [name]) = none) : Follows L ign (.mkdir dir name) s t := by
  obtain ⟨hdirs, hn⟩ := valid_dir hvalid
  refine h.follows_dir hdirs rfl (fun hdir => if_neg fun hboth => hdir hboth.1) ?_
  intro i s₁ hdir h₁ hi
  obtain ⟨j, k, s₂, hrun, hinv, hmade, hh, hnext⟩ := h₁.inv.mkdir_spec hi (h₁.showsDir.2 hdir) hn
    (by rw [h₁.ignored, hign]) (h₁.view_none.2 hold) hlower
  rw [bind_ok hrun, Plain.serve, if_pos ⟨hdir, hold⟩]
  refine ⟨_, _, rfl, rfl, _, h₁.setNode hinv hmade.ignored hmade.frame hmade.view (.dir k) ?_ ?_ hh hnext⟩
  · simp
  · simp [hold]

end

theorem Node.file_of_kind {nd : Node} (h : nd.kind = .file) : ∃ id, nd = .file id := by
  cases nd with
  | dir | link => cases h
  | file id => exact ⟨id, rfl⟩

section

variable (h : Sim L ign s t m) (hvalid : ∀ n ∈ dir ++ [name], ValidName n)

include h hvalid

theorem Sim.step_openWrite (hign : ign (dir ++ [name]) = true) {trunc : Bool}
    (hfile : ∀ nd, t.tree (dir ++ [name]) = some nd → nd.kind = .file) :
    Follows L ign (.openWrite dir name trunc) s t := by
  refine h.follows_found hvalid rfl (fun hnone => by rw [Plain.serve, hnone]) ?_
  intro nd o j s₁ hdir hnode hfind ho hkind h₁ hj
  obtain ⟨id, rfl⟩ := Node.file_of_kind (hfile nd hnode)
  obtain ⟨o', s₂, hinv, hun, hrun⟩ := h₁.inv.openFile_spec hj (h₁.showsDir.2 hdir)
    (by rw [h₁.ignored, hign]) ho hkind trunc
  obtain ⟨m', hkey, h₂⟩ : ∃ m', m' id = o'.key ∧ Sim L ign s₂ t m' :=
    ⟨_, update_self id o'.key m, h₁.unshared hinv hnode ho hun⟩
  have hupper := hun.upper
  rw [← hkey] at hrun hupper
  have hj₂ : s₂.inodePaths j = some (dir ++ [name]) := by rw [hun.inodePaths, hj]
  rw [bind_ok hrun, Plain.serve, hfind, h₂.nextHandle]
  cases trunc with
  | false => exact ⟨_, _, rfl, rfl, m', h₂.openFile hnode hj₂ hupper⟩
  | true =>
    have h₃ := h₂.setContent (.inl ⟨_, hnode⟩) hupper []
    exact ⟨_, _, rfl, rfl, m', h₃.openFile hnode hj₂ hupper⟩

theorem Sim.step_truncate (hign : ign (dir ++ [name]) = true) {size : ℕ}
    (hfile : ∀ nd, t.tree (dir ++ [name]) = some nd → nd.kind = .file) :
    Follows L ign (.truncate dir name size) s t := by
  refine h.follows_found hvalid rfl (fun hnone => by rw [Plain.serve, hnone]) ?_
  intro nd o j s₁ hdir hnode hfind ho hkind h₁ hj
  obtain ⟨id, rfl⟩ := Node.file_of_kind (hfile nd hnode)
  obtain ⟨o', s₂, hinv, hun, hrun⟩ := h₁.inv.truncate_spec hj (h₁.showsDir.2 hdir)
    (by rw [h₁.ignored, hign]) ho hkind size
  obtain ⟨m', hkey, h₂⟩ : ∃ m', m' id = o'.key ∧ Sim L ign s₂ t m' :=
    ⟨_, update_self id o'.key m, h₁.unshared hinv hnode ho hun⟩
  have hlive : t.Live id := .inl ⟨_, hnode⟩
  have hupper := hun.upper
  rw [← hkey] at hrun hupper
  rw [← h₂.content id hlive] at hrun
  rw [bind_ok hrun, Plain.serve, hfind]
  exact ⟨_, _, rfl, rfl, m', h₂.setContent hlive hupper _⟩

theorem Sim.step_opendir (hdirs : ∀ nd, t.tree (dir ++ [name]) = some nd → nd = .dir) :
    Follows L ign (.opendir dir name) s t := by
  refine h.follows_found hvalid rfl (fun hnone => by rw [Plain.serve, hnone]) ?_
  intro nd o j s₁ _ hnode hfind ho hkind h₁ hj
  cases hdirs nd hnode
  rw [Plain.serve, hfind, bind_ok (h₁.inv.opendir_ok hj ho hkind), h₁.nextHandle]
  exact ⟨_, _, rfl, rfl, m, h₁.opendir hj ho hkind⟩

theorem Sim.step_unlink (hign : ign (dir ++ [name]) = true)
    (honce : t.tree (dir ++ [name]) = none → L.tree (dir ++ [name]) = none) :
    Follows L ign (.unlink dir name) s t := by
  obtain ⟨hdirs, hn⟩ := valid_dir hvalid
  refine h.follows_dir hdirs rfl (fun hdir => by rw [Plain.serve, Plain.find, if_neg hdir]) ?_
  intro i s₁ hdir h₁ hi
  have hshown := h₁.showsDir.2 hdir
  have hign₁ : s₁.ignored (dir ++ [name]) = true := by rw [h₁.ignored, hign]
  rw [Plain.serve, Plain.find, if_pos hdir]
  cases hnode : t.tree (dir ++ [name]) with
  | none =>
    obtain ⟨e, he⟩ := h₁.inv.unlink_missing hi hshown hn hign₁ (h₁.view_none.2 hnode) (honce hnode)
    rw [bind_error he]
    exact ⟨_, _, rfl, rfl, m, h₁⟩
  | some nd =>
    by_cases hnd : nd = .dir
    · rw [hnd] at hnode ⊢
      obtain ⟨e, he⟩ := h₁.inv.unlink_dir hi hshown hn hign₁ (h₁.showsDir.2 hnode)
      rw [bind_error he]
      exact ⟨_, _, rfl, rfl, m, h₁⟩
    · obtain ⟨o, ho, hkind⟩ := h₁.view_some hnode
      have hleaf : o.isDir = false := by
        rw [Obj.isDir, hkind]
        cases nd with
        | dir => exact absurd rfl hnd
        | link | file id => rfl
      obtain ⟨s₂, hrun, hinv, hrem⟩ :=
        h₁.inv.unlink_spec hi hshown hn hign₁ (marker_not_mem hvalid) ho hleaf
      have h₂ := h₁.setNode hinv hrem.ignored hrem.frame hrem.view .none (by simp)
        (by rw [hnode]; exact fun heq => hnd (Option.some.inj heq)) hrem.handles hrem.nextHandle
      rw [bind_ok hrun]
      cases nd with
      | dir => exact absurd rfl hnd
      | link | file id => exact ⟨_, _, rfl, rfl, m, h₂⟩

end

end requests

/-! ### Open files -/

theorem getHandle_eq {data : HandleData} (h : s.handles x = some data) : getHandle x s = (.ok data, s) := by
  rw [getHandle, ask_apply, h]

theorem getHandle_none (h : s.handles x = none) : getHandle x s = (.error .ebadf, s) := by
  rw [getHandle, ask_apply, h]

section

variable (h : Sim L ign s t m)

include h

theorem Sim.noHandle (hx : t.handles x = none) : s.handles x = none := by
  have hsim := h.handles x
  rw [hx] at hsim
  generalize s.handles x = data at hsim ⊢
  cases hsim
  rfl

theorem Sim.dirHandle (hx : t.handles x = some (.dir p)) :
    ∃ i k, s.handles x = some ⟨i, k, .dir⟩ ∧ s.disk.view p = some ⟨k, .dir⟩ := by
  have hsim := h.handles x
  rw [hx] at hsim
  generalize s.handles x = data at hsim ⊢
  cases hsim with
  | dir i hview => exact ⟨i, _, rfl, hview⟩

theorem Sim.step_write {offset : ℕ} {bytes : List UInt8}
    (hnamed : ∀ id, t.handles x = some (.file id) → ∃ p, t.tree p = some (.file id)) :
    Follows L ign (.write x offset bytes) s t := by
  unfold Follows
  rw [Plain.serve, serve]
  cases hx : t.handles x with
  | none =>
    rw [write, bind_error (bind_error (getHandle_none (h.noHandle hx)))]
    exact ⟨_, _, rfl, rfl, m, h⟩
  | some ph =>
    cases ph with
    | file id =>
      obtain ⟨i, hdata⟩ := h.fileHandle hx
      obtain ⟨p, hp⟩ := hnamed id hx
      obtain ⟨hupper, -, hpath⟩ := h.inv.files x _ hdata rfl
      have hi : s.inodePaths i = some p := hpath p _ (h.file hp) rfl
      have hrun : write x offset bytes s = (.ok bytes.length, { s with
          disk := s.disk.setData (m id) (writeAt (t.content id) offset bytes) }) := by
        rw [write, bind_ok (getHandle_eq hdata), bind_ok (inodePath_eq hi),
          h.content id (.inr ⟨x, hx⟩)]
        rfl
      rw [bind_ok hrun]
      exact ⟨_, _, rfl, rfl, m, h.setContent (.inr ⟨x, hx⟩) hupper _⟩
    | dir p =>
      obtain ⟨i, k, hdata, -⟩ := h.dirHandle hx
      obtain ⟨q, hq, -⟩ := h.inv.dirs x _ hdata rfl
      have hrun : write x offset bytes s = (.error .ebadf, s) := by
        rw [write, bind_ok (getHandle_eq hdata), bind_ok (inodePath_eq hq)]
        rfl
      rw [bind_error hrun]
      exact ⟨_, _, rfl, rfl, m, h⟩

theorem Sim.step_read {offset size : ℕ} : Follows L ign (.read x offset size) s t := by
  unfold Follows
  rw [Plain.serve, serve]
  cases hx : t.handles x with
  | none =>
    rw [read, bind_error (bind_error (getHandle_none (h.noHandle hx)))]
    exact ⟨_, _, rfl, rfl, m, h⟩
  | some ph =>
    cases ph with
    | file id =>
      obtain ⟨i, hdata⟩ := h.fileHandle hx
      have hrun : read x offset size s = (.ok (((t.content id).drop offset).take size), s) := by
        rw [read, bind_ok (getHandle_eq hdata), h.content id (.inr ⟨x, hx⟩)]
        rfl
      rw [bind_ok hrun]
      exact ⟨_, _, rfl, rfl, m, h⟩
    | dir p =>
      obtain ⟨i, k, hdata, -⟩ := h.dirHandle hx
      have hrun : read x offset size s = (.error .eisdir, s) := by
        rw [read, bind_ok (getHandle_eq hdata)]
        rfl
      rw [bind_error hrun]
      exact ⟨_, _, rfl, rfl, m, h⟩

theorem Sim.step_readdir : Follows L ign (.readdir x) s t := by
  unfold Follows
  rw [Plain.serve, serve]
  cases hx : t.handles x with
  | none =>
    rw [readdir, bind_error (bind_error (getHandle_none (h.noHandle hx)))]
    exact ⟨_, _, rfl, rfl, m, h⟩
  | some ph =>
    cases ph with
    | file id =>
      obtain ⟨i, hdata⟩ := h.fileHandle hx
      have hrun : readdir x s = (.error .enotdir, s) := by
        rw [readdir, bind_ok (getHandle_eq hdata)]
        rfl
      rw [bind_error hrun]
      exact ⟨_, _, rfl, rfl, m, h⟩
    | dir p =>
      obtain ⟨i, k, hdata, hview⟩ := h.dirHandle hx
      have hrun : readdir x s = (.ok fun n => (t.tree (p ++ [n])).map Node.kind, s) := by
        rw [h.inv.readdir_eq hdata rfl hview]
        simp only [(h.nodes _).kind]
      rw [bind_ok hrun]
      exact ⟨_, _, rfl, rfl, m, h⟩

/-- Every request. -/
theorem Sim.step (hasked : Asked ign t r) (hplain : Plainly L t r) : Follows L ign r s t := by
  cases r with
  | lookup dir name => exact h.step_lookup hasked.1
  | create dir name => exact h.step_create hasked.1 hasked.2.1 hasked.2.2
  | mkdir dir name => exact h.step_mkdir hasked.1 hasked.2.1 hasked.2.2 hplain
  | openWrite dir name trunc => exact h.step_openWrite hasked.1 hasked.2 hplain
  | write x offset bytes => exact h.step_write hplain
  | read x offset size => exact h.step_read
  | truncate dir name size => exact h.step_truncate hasked.1 hasked.2 hplain
  | unlink dir name => exact h.step_unlink hasked.1 hasked.2 hplain
  | opendir dir name => exact h.step_opendir hasked.1 hplain
  | readdir x => exact h.step_readdir

end

end Lnx.Overlay
