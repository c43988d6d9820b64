import Lnx.Lib.Prog
import Lnx.Store.Types

/-!
# The instance directory and what system calls do to it

The store talks to the file system through the operations `FsOp`; a store
function is a program over them (`Io`). `FsSem` says what each operation may do
to a `World`: the instance directory, who holds which pin, whether the VM is
paused, and the history the theorems speak about. With `faults` every modifying
call may also fail, as a full disk makes it.

* `Edit.apply`: the directory tree after one modifying call.
* `EditSem.get_apart`: a call changes nothing apart from the paths it names.
* `EditSem.get_of_mkdir`: making a directory changes nothing but that directory.
-/

namespace Lnx

open Option List

variable {t : Dir} {p q : Path} {n : Name} {faults : Bool} {r : Except IoError Unit}

/-- A capture of a running VM: the work directory of `run` at the paused instant
    of the capture that stages `generation`. -/
structure Capture where
  run : RunId
  generation : GenerationId
  work : Option Dir

/-- What a directory entry was before a change to it. -/
inductive Old
  | absent
  /-- a file that was replaced or removed, and whether its bytes were synced -/
  | file (bytes : Bytes) (synced : Bool)
  /-- a directory or a link, or something that has moved elsewhere -/
  | other
  deriving DecidableEq

/-- What is not on stable storage yet: `data` tells whether the bytes of a file
    are synced, `old` lists what an entry was at any time since its directory
    was last synced. -/
structure Disk where
  data : Path → Bool
  old : Path → List Old

/-- The instance directory, kept in two parts because the guest writes one of
    them: `runs` is what stands under `runs/`, `top` is everything else.
    `held` tells which generations' `.pin` is share-locked, `disk` which changes
    are on stable storage. The last three fields are history: what every rename
    put where, what every capture paused on, and what every lock attempt of the
    collector found; newest first. -/
structure World where
  top : Dir
  runs : Dir
  held : Name → Bool
  paused : Bool
  disk : Disk
  moved : List (Path × Dir)
  captured : List Capture
  examined : List (Name × Bool)

/-- The entry at a path, or the error of looking it up. Symbolic links are not
    followed. -/
def resolve : Dir → Path → Except IoError Dir
  | t, [] => .ok t
  | .leaf _, _ :: _ => .error .notADirectory
  | .node es, n :: p =>
    match Assoc.get n es with
    | none => .error .notFound
    | some c => resolve c p

theorem resolve_eq_ok {u : Dir} : resolve t p = .ok u ↔ t.get p = some u := by
  induction p generalizing t with
  | nil => cases t <;> simp [resolve]
  | cons n p ih =>
    cases t with
    | leaf a => simp [resolve]
    | node es =>
      rw [Tree.get_node_cons]
      simp only [resolve]
      cases Assoc.get n es with
      | none => simp
      | some c => simpa using ih

theorem resolve_concat {es : List (Name × Dir)}
    (h : t.get p = some (.node es)) (hn : Assoc.get n es = none) :
    resolve t (p ++ [n]) = .error .notFound := by
  induction p generalizing t with
  | nil =>
    cases h
    simp [resolve, hn]
  | cons m p ih =>
    cases t with
    | leaf a => cases h
    | node es' =>
      rw [Tree.get_node_cons] at h
      obtain ⟨c, hc, h⟩ := bind_eq_some_iff.1 h
      simpa [resolve, hc] using ih h

theorem resolve_below_leaf {a : Leaf} (h : t.get p = some (.leaf a)) :
    resolve t (p ++ [n]) = .error .notADirectory := by
  induction p generalizing t with
  | nil =>
    cases h
    rfl
  | cons m p ih =>
    cases t with
    | leaf a => cases h
    | node es =>
      rw [Tree.get_node_cons] at h
      obtain ⟨c, hc, h⟩ := bind_eq_some_iff.1 h
      simpa [resolve, hc] using ih h

variable {w w' : World}

namespace World

/-- What stands at a path. -/
def get (w : World) : Path → Option Dir
  | [] => some w.top
  | n :: p => if n = RUNS_DIR then w.runs.get p else w.top.get (n :: p)

/-- What reading at a path finds. -/
def look (w : World) : Path → Except IoError Dir
  | [] => .ok w.top
  | n :: p => if n = RUNS_DIR then resolve w.runs p else resolve w.top (n :: p)

/-- The world with `t` at a path, if the path's parent is a directory. -/
def put (w : World) (p : Path) (t : Dir) : Option World :=
  match p with
  | [] => none
  | n :: q =>
    if n = RUNS_DIR then (w.runs.put q t).map fun d => { w with runs := d }
    else (w.top.put (n :: q) t).map fun d => { w with top := d }

/-- The world without what stands at a path. -/
def del (w : World) (p : Path) : World :=
  match p with
  | [] => w
  | n :: q =>
    if n = RUNS_DIR then { w with runs := w.runs.del q } else { w with top := w.top.del (n :: q) }

theorem look_eq_ok : w.look p = .ok t ↔ w.get p = some t := by
  cases p with
  | nil => simp [look, get]
  | cons n p => by_cases h : n = RUNS_DIR <;> simp [look, get, h, resolve_eq_ok]

theorem get_of_look_error {e : IoError} (h : w.look p = .error e) : w.get p = none := by
  cases hg : w.get p with
  | none => rfl
  | some t => rw [look_eq_ok.2 hg] at h; cases h

theorem get_append (hp : p ≠ []) (q : Path) : w.get (p ++ q) = (w.get p).bind fun t => t.get q := by
  cases p with
  | nil => exact absurd rfl hp
  | cons n p =>
    simp only [cons_append, get]
    split_ifs with hn
    · exact Tree.get_append _ _ _
    · exact Tree.get_append _ (n :: p) q

section

variable (h : w.put p t = some w')

include h

/-- `World.put` reaches one of the two parts. -/
theorem put_cases :
    (∃ q d, p = RUNS_DIR :: q ∧ w.runs.put q t = some d ∧ w' = { w with runs := d }) ∨
    (∃ n q d, p = n :: q ∧ n ≠ RUNS_DIR ∧ w.top.put p t = some d ∧ w' = { w with top := d }) := by
  cases p with
  | nil => cases h
  | cons n q =>
    by_cases hn : n = RUNS_DIR
    · subst hn
      obtain ⟨d, hd, rfl⟩ := map_eq_some_iff.1 (by simpa [put] using h)
      exact .inl ⟨q, d, rfl, hd, rfl⟩
    · obtain ⟨d, hd, rfl⟩ := map_eq_some_iff.1 (by simpa [put, hn] using h)
      exact .inr ⟨n, q, d, rfl, hn, hd, rfl⟩

theorem get_put_append (q : Path) : w'.get (p ++ q) = t.get q := by
  rcases put_cases h with ⟨r, d, rfl, hd, rfl⟩ | ⟨n, r, d, rfl, hn, hd, rfl⟩
  · simpa [get] using Tree.get_put_append hd q
  · simpa [get, hn] using Tree.get_put_append hd q

theorem get_put_self : w'.get p = some t := by
  simpa using get_put_append h []

theorem get_put_apart (hpq : Tree.Apart p q) : w'.get q = w.get q := by
  cases q with
  | nil => exact absurd hpq Tree.not_apart_nil_right
  | cons m q =>
    rcases put_cases h with ⟨r, d, rfl, hd, rfl⟩ | ⟨n, r, d, rfl, hn, hd, rfl⟩
    · by_cases hm : m = RUNS_DIR
      · subst hm
        simpa [get] using Tree.get_put_apart hd (Tree.apart_cons_self.1 hpq)
      · simp [get, hm]
    · by_cases hm : m = RUNS_DIR
      · simp [get, hm]
      · simpa [get, hm] using Tree.get_put_apart hd hpq

end

theorem get_del_append (hp : p ≠ [] ∧ p ≠ [RUNS_DIR]) (q : Path) :
    (w.del p).get (p ++ q) = none := by
  cases p with
  | nil => exact absurd rfl hp.1
  | cons n p =>
    by_cases hn : n = RUNS_DIR
    · subst hn
      have hp' : p ≠ [] := fun h => hp.2 (by rw [h])
      simpa [get, del] using Tree.get_del_append hp' q
    · simpa [get, del, hn] using Tree.get_del_append (t := w.top) (cons_ne_nil n p) q

theorem get_del_self (hp : p ≠ [] ∧ p ≠ [RUNS_DIR]) : (w.del p).get p = none := by
  simpa using get_del_append hp []

theorem get_del_apart (hpq : Tree.Apart p q) : (w.del p).get q = w.get q := by
  cases p with
  | nil => exact absurd hpq Tree.not_apart_nil_left
  | cons n p =>
    cases q with
    | nil => exact absurd hpq Tree.not_apart_nil_right
    | cons m q =>
      by_cases hn : n = RUNS_DIR
      · by_cases hm : m = RUNS_DIR
        · subst hn hm
          simpa [get, del] using Tree.get_del_apart (Tree.apart_cons_self.1 hpq)
        · simp [get, del, hn, hm]
      · by_cases hm : m = RUNS_DIR
        · simp [get, del, hn, hm]
        · simpa [get, del, hn, hm] using Tree.get_del_apart hpq

/-- What stands at a path, without its entries: nothing, a directory
    (`some none`) or a leaf. -/
def peek (w : World) (p : Path) : Option (Option Leaf) := (w.get p).map Tree.label

theorem peek_append (hp : p ≠ []) (h : w.get p = some t) (q : Path) :
    w.peek (p ++ q) = t.peek q := by
  rw [peek, get_append hp, h]
  rfl

theorem peek_eq_none : w.peek p = none ↔ w.get p = none := by simp [peek]

theorem peek_eq_leaf {a : Leaf} : w.peek p = some (some a) ↔ w.get p = some (.leaf a) :=
  Tree.map_label_eq_leaf

theorem peek_eq_node : w.peek p = some none ↔ ∃ es, w.get p = some (.node es) := Tree.map_label_eq_node

section

variable (hp : p = [] → n ≠ RUNS_DIR) (h : w.peek p = some none)

include hp h

/-- In a directory, what is not there is not found. -/
theorem look_of_parent :
    (∃ t, w.look (p ++ [n]) = .ok t) ∨ w.look (p ++ [n]) = .error .notFound := by
  obtain ⟨es, hu⟩ := peek_eq_node.1 h
  have hfind : ∀ {t : Dir} {q : Path}, t.get q = some (.node es) →
      (∃ u, resolve t (q ++ [n]) = .ok u) ∨ resolve t (q ++ [n]) = .error .notFound := by
    intro t q ht
    cases hn : Assoc.get n es with
    | some c =>
      refine .inl ⟨c, resolve_eq_ok.2 ?_⟩
      rw [Tree.get_append, ht]
      simp [Tree.get_node_cons, hn]
    | none => exact .inr (resolve_concat ht hn)
  cases p with
  | nil =>
    simp only [nil_append, look, hp rfl, ite_false]
    exact hfind (q := []) (by simpa [get] using hu)
  | cons m p =>
    simp only [get] at hu
    simp only [look, cons_append]
    split_ifs at hu ⊢
    · exact hfind hu
    · exact hfind (q := m :: p) hu

/-- In a directory, anything can be put. -/
theorem put_of_parent (t : Dir) : ∃ w', w.put (p ++ [n]) t = some w' := by
  obtain ⟨es, hu⟩ := peek_eq_node.1 h
  have hput : ∀ {u : Dir} {q : Path}, u.get q = some (.node es) → ∃ u', u.put (q ++ [n]) t = some u' :=
    fun hu => isSome_iff_exists.1 (Tree.put_concat_isSome hu)
  cases p with
  | nil =>
    obtain ⟨d, hd⟩ := hput (u := w.top) (q := []) (by simpa [get] using hu)
    refine ⟨{ w with top := d }, ?_⟩
    simp only [nil_append] at hd
    simp only [put, nil_append, hp rfl, ite_false, hd, map_some]
  | cons m p =>
    simp only [get] at hu
    simp only [put, cons_append]
    split_ifs at hu ⊢
    · obtain ⟨d, hd⟩ := hput hu
      exact ⟨_, by rw [hd]; rfl⟩
    · obtain ⟨d, hd⟩ := hput (q := m :: p) hu
      rw [cons_append] at hd
      exact ⟨_, by rw [hd]; rfl⟩

end

theorem peek_parent (hp : p ≠ []) (h : w.peek (p ++ [n]) ≠ none) : w.peek p = some none := by
  rw [ne_eq, peek_eq_none, get_append hp] at h
  cases hg : w.get p with
  | none =>
    rw [hg] at h
    exact absurd rfl h
  | some t =>
    cases t with
    | leaf a =>
      rw [hg] at h
      exact absurd rfl h
    | node es => simp [peek, hg]

theorem peek_cons (n : Name) (p : Path) :
    w.peek (n :: p) = if n = RUNS_DIR then w.runs.peek p else w.top.peek (n :: p) := by
  simp only [peek, get]
  split_ifs <;> rfl

theorem peek_put (h : w.put p t = some w') (hq : ¬ p <+: q) : w'.peek q = w.peek q := by
  rcases put_cases h with ⟨r, d, rfl, hd, rfl⟩ | ⟨n, r, d, rfl, hn, hd, rfl⟩
  · cases q with
    | nil => rfl
    | cons m q =>
      simp only [peek_cons]
      split_ifs with hm
      · exact Tree.peek_put hd fun hp => hq (by simp [hm, hp])
      · rfl
  · cases q with
    | nil => simpa [peek, get, Tree.peek] using Tree.peek_put hd hq
    | cons m q =>
      simp only [peek_cons]
      split_ifs with hm
      · rfl
      · exact Tree.peek_put hd hq

theorem peek_del (hq : ¬ p <+: q) : (w.del p).peek q = w.peek q := by
  cases p with
  | nil => exact absurd nil_prefix hq
  | cons n p =>
    by_cases hn : n = RUNS_DIR
    · subst hn
      cases q with
      | nil => simp [del, peek, get]
      | cons m q =>
        simp only [del, ite_true, peek_cons]
        split_ifs with hm
        · exact Tree.peek_del fun hp => hq (by simp [hm, hp])
        · rfl
    · cases q with
      | nil => simpa [del, hn, peek, get, Tree.peek] using Tree.peek_del (t := w.top) hq
      | cons m q =>
        simp only [del, hn, ite_false, peek_cons]
        split_ifs with hm
        · rfl
        · exact Tree.peek_del hq

end World

/-! ## Modifying calls -/

/-- The calls that change the directory tree or make it durable. -/
inductive Edit
  /-- `mkdir` -/
  | mkdir (p : Path)
  /-- `open` with `O_CREAT | O_EXCL` -/
  | createNew (p : Path)
  /-- `open` with `O_CREAT | O_TRUNC` -/
  | create (p : Path)
  /-- `write_all` to the empty file at `p` -/
  | write (p : Path) (bytes : Bytes)
  /-- `clonefile` or `symlink`: a new file or link, in one step -/
  | place (p : Path) (leaf : Leaf)
  | rename (src dst : Path)
  | unlink (p : Path)
  /-- any part of the work of `remove_dir_all` -/
  | shrink (p : Path)
  /-- the end of `remove_dir_all` -/
  | removeDir (p : Path)
  /-- a caller writes its own staging directory, in any way -/
  | fill (p : Path) (t : { t : Dir // t.Distinct })
  | syncFile (p : Path)
  | syncDir (p : Path)

open Edit

/-- Make a new entry. -/
def World.add (w : World) (p : Path) (t : Dir) : Except IoError World :=
  match w.look p with
  | .ok _ => .error .alreadyExists
  | .error .notFound =>
    match w.put p t with
    | some w' => .ok w'
    | none => .error .notFound
  | .error e => .error e

/-- Replace the entry at a path. -/
def World.overwrite (w : World) (p : Path) (t : Dir) : Except IoError World :=
  match w.put p t with
  | some w' => .ok w'
  | none => .error .notFound

/-- The second half of `rename(2)`, once the target is known to be replaceable. -/
def World.move (w : World) (src dst : Path) (t : Dir) : Except IoError World :=
  match (w.del src).put dst t with
  | some w' => .ok { w' with moved := (dst, t) :: w.moved }
  | none => .error .notFound

/-- The world after a call that succeeds, or the error of one that does not. -/
def Edit.apply (w : World) : Edit → Except IoError World
  | .mkdir p => w.add p (.node [])
  | .createNew p => w.add p (.leaf (.file []))
  | .create p =>
    match w.look p with
    | .ok (.leaf (.file _)) => w.overwrite p (.leaf (.file []))
    | .ok (.leaf (.symlink _)) => .error .other
    | .ok (.node _) => .error .isADirectory
    | .error _ => w.add p (.leaf (.file []))
  | .write p bytes =>
    match w.look p with
    | .ok (.leaf (.file _)) => w.overwrite p (.leaf (.file bytes))
    | .ok _ => .error .other
    | .error e => .error e
  | .place p leaf => w.add p (.leaf leaf)
  | .rename src dst =>
    match w.look src with
    | .error e => .error e
    | .ok t =>
      match t, w.look dst with
      | _, .error .notFound => w.move src dst t
      | _, .error e => .error e
      | .leaf _, .ok (.leaf _) => w.move src dst t
      | .leaf _, .ok (.node _) => .error .isADirectory
      | .node _, .ok (.leaf _) => .error .notADirectory
      | .node _, .ok (.node []) => w.move src dst t
      | .node _, .ok (.node (_ :: _)) => .error .directoryNotEmpty
  | .unlink p =>
    match w.look p with
    | .ok (.leaf _) => .ok (w.del p)
    | .ok (.node _) => .error .isADirectory
    | .error e => .error e
  | .shrink p =>
    match w.look p with
    | .ok (.node _) => .ok w
    | .ok (.leaf _) => .error .notADirectory
    | .error e => .error e
  | .removeDir p =>
    match w.look p with
    | .ok (.node _) => .ok (w.del p)
    | .ok (.leaf _) => .error .notADirectory
    | .error e => .error e
  | .fill p t =>
    match w.look p with
    | .ok (.node _) => w.overwrite p t.1
    | .ok (.leaf _) => .error .notADirectory
    | .error e => .error e
  | .syncFile p =>
    match w.look p with
    | .ok (.leaf (.file _)) => .ok w
    | .ok _ => .error .other
    | .error e => .error e
  | .syncDir p =>
    match w.look p with
    | .ok (.node _) => .ok w
    | .ok (.leaf _) => .error .notADirectory
    | .error e => .error e

/-! ## What is on stable storage -/

namespace Disk

/-- The entry at `p` is a new one, where there was `o` before. -/
@[simp] def rebind (d : Disk) (p : Path) (o : Old) : Disk where
  data q := if q = p then false else d.data q
  old q := if q = p then o :: d.old q else if p <+: q then [] else d.old q

/-- The bytes of the file at `p` have changed. -/
@[simp] def rewrite (d : Disk) (p : Path) : Disk where
  data q := if q = p then false else d.data q
  old := d.old

/-- Anything below `p` may have changed. -/
@[simp] def disturb (d : Disk) (p : Path) : Disk where
  data q := if p <+: q then false else d.data q
  old q := if p <+: q ∧ q ≠ p then .other :: d.old q else d.old q

/-- What stood at `src` stands at `dst`, where there was `o` before. -/
@[simp] def move (d : Disk) (src dst : Path) (o : Old) : Disk where
  data q := if dst <+: q then d.data (src ++ q.drop dst.length) else d.data q
  old q :=
    if q = dst then o :: d.old q
    else if dst <+: q then d.old (src ++ q.drop dst.length)
    else if q = src then .other :: d.old q
    else if src <+: q then [] else d.old q

/-- `sync_file` -/
@[simp] def syncFile (d : Disk) (p : Path) : Disk where
  data q := if q = p then true else d.data q
  old := d.old

/-- `sync_dir` -/
@[simp] def syncDir (d : Disk) (p : Path) : Disk where
  data := d.data
  old q := if q ≠ [] ∧ q.dropLast = p then [] else d.old q

end Disk

/-- The world with other changes on stable storage. -/
@[simps disk runs moved] def World.withDisk (w : World) (d : Disk) : World := { w with disk := d }

section

variable (w : World) (d : Disk)

@[simp] theorem World.get_withDisk (p : Path) : (w.withDisk d).get p = w.get p := by
  cases p <;> rfl

@[simp] theorem World.peek_withDisk (p : Path) : (w.withDisk d).peek p = w.peek p := by
  simp [World.peek]

end

/-- What the entry at `p` is now. -/
def World.binding (w : World) (p : Path) : Old :=
  match w.get p with
  | none => .absent
  | some (.leaf (.file b)) => .file b (w.disk.data p)
  | some _ => .other

/-- What is on stable storage after a call that succeeds in `w`. -/
@[simp] def Edit.persist (w : World) : Edit → Disk
  | .mkdir p | .createNew p | .place p _ => w.disk.rebind p .absent
  | .create p =>
    match w.look p with
    | .ok _ => w.disk.rewrite p
    | .error _ => w.disk.rebind p .absent
  | .write p _ => w.disk.rewrite p
  | .rename src dst => w.disk.move src dst (w.binding dst)
  | .unlink p | .removeDir p => w.disk.rebind p (w.binding p)
  | .shrink p | .fill p _ => w.disk.disturb p
  | .syncFile p => w.disk.syncFile p
  | .syncDir p => w.disk.syncDir p

/-- `t'` is `t` with some entries removed: what it holds, `t` holds. -/
def Prunes (t' t : Dir) : Prop :=
  (t.Distinct → t'.Distinct) ∧ ∀ p l, t'.peek p = some l → t.peek p = some l

/-- What a modifying call may do. -/
inductive EditSem (faults : Bool) : Edit → World → Except IoError Unit → World → Prop
  | done {e : Edit} {w w' : World} : e.apply w = .ok w' →
      EditSem faults e w (.ok ()) (w'.withDisk (e.persist w))
  | refused {e : Edit} {w : World} {x : IoError} : e.apply w = .error x →
      EditSem faults e w (.error x) w
  | fault {e : Edit} {w : World} : faults = true → EditSem faults e w (.error .other) w
  | partialWrite {p : Path} {b : Bytes} {n : ℕ} {w w' : World} : faults = true →
      (Edit.write p (b.take n)).apply w = .ok w' →
      EditSem faults (.write p b) w (.error .other) (w'.withDisk (w.disk.rewrite p))
  | shrunk {p : Path} {t t' : Dir} {w w' : World} : w.look p = .ok t → Prunes t' t →
      w.put p t' = some w' →
      EditSem faults (.shrink p) w (.ok ()) (w'.withDisk (w.disk.disturb p))

/-! ## Operations -/

/-- The operations the store's functions are made of. -/
inductive FsOp : Type → Type
  /-- read what stands at a path, at one instant -/
  | look (p : Path) : FsOp (Except IoError Dir)
  | edit (e : Edit) : FsOp (Except IoError Unit)
  /-- `flock(LOCK_EX | LOCK_NB)` on a generation's `.pin`: whether it was locked -/
  | tryLock (name : Name) : FsOp Bool
  /-- `GenerationId::new` -/
  | newGenerationId : FsOp GenerationId
  /-- `RunId::new` -/
  | newRunId : FsOp RunId
  /-- `new_id("")` -/
  | newTempId : FsOp String
  /-- nanoseconds since the epoch -/
  | now : FsOp ℕ
  /-- pause the VM of a run for the capture that stages a generation -/
  | pause (run : RunId) (generation : GenerationId) : FsOp Unit
  | resume : FsOp Unit

/-- No directory under `generations/` is named after `id`: neither a generation,
    its staging or trash directory, nor a capture being written for it. -/
def World.Unused (w : World) (id : GenerationId) : Prop :=
  (∀ pre, w.get [GENERATIONS_DIR, pre ++ id.asStr] = none) ∧
    ∀ pre suf, w.get [GENERATIONS_DIR, pre ++ id.asStr ++ ".tmp." ++ suf] = none

/-- What the operations may do; with `faults`, modifying calls may fail at any
    time. A new generation's id, made of the time, the process and a
    counter, is unused; a temporary id is digits and dashes. -/
def FsSem (faults : Bool) : Sem FsOp World
  | _, .look p, w, r, w' => r = w.look p ∧ w' = w
  | _, .edit e, w, r, w' => EditSem faults e w r w'
  | _, .tryLock n, w, r, w' =>
    r = !w.held n ∧ w' = { w with examined := (n, w.held n) :: w.examined }
  | _, .newGenerationId, w, r, w' => startsWith r.asStr "g" = true ∧ w.Unused r ∧ w' = w
  | _, .newRunId, w, r, w' => startsWith r.asStr "r" = true ∧ w' = w
  | _, .newTempId, w, r, w' => '.' ∉ r.toList ∧ w' = w
  | _, .now, w, _, w' => w' = w
  | _, .pause run g, w, _, w' =>
    w' = { w with paused := true, captured := ⟨run, g, w.runs.get [run.asStr]⟩ :: w.captured }
  | _, .resume, w, _, w' => w' = { w with paused := false }

/-- A store function: a program over the operations that may fail with a
    `StoreError`. -/
abbrev Io (α : Type) := ExceptT StoreError (Prog FsOp) α

/-! ## What calls leave alone -/

/-- The paths a modifying call may change. -/
@[simp] def Edit.footprint : Edit → List Path
  | .mkdir p | .createNew p | .create p | .write p _ | .place p _ | .unlink p | .shrink p
  | .removeDir p | .fill p _ => [p]
  | .rename src dst => [src, dst]
  | .syncFile _ | .syncDir _ => []

theorem Edit.forall_rename {P : Path → Prop} {src dst : Path} (hs : P src) (hd : P dst) :
    ∀ p ∈ (rename src dst).footprint, P p := forall_mem_cons.2 ⟨hs, forall_mem_singleton.2 hd⟩

theorem World.add_eq_ok (h : w.add p t = .ok w') :
    w.look p = .error .notFound ∧ w.put p t = some w' := by
  unfold World.add at h
  split at h
  · cases h
  · next hl =>
    split at h
    · next w'' hp => cases h; exact ⟨hl, hp⟩
    · cases h
  · cases h

theorem World.overwrite_eq_ok (h : w.overwrite p t = .ok w') : w.put p t = some w' := by
  unfold World.overwrite at h
  split at h
  · next w'' hp => cases h; exact hp
  · cases h

theorem World.move_eq_ok {src dst : Path} (h : w.move src dst t = .ok w') :
    ∃ x, (w.del src).put dst t = some x ∧ w' = { x with moved := (dst, t) :: w.moved } := by
  unfold World.move at h
  split at h
  · next x hp => cases h; exact ⟨x, hp, rfl⟩
  · cases h

/-- What a successful rename does; it replaces a file by a file, or nothing or an
    empty directory by anything. -/
theorem Edit.rename_eq_ok {src dst : Path} (h : (Edit.rename src dst).apply w = .ok w') :
    ∃ t x, w.get src = some t ∧ (w.del src).put dst t = some x ∧
      w' = { x with moved := (dst, t) :: w.moved } ∧
      ∀ u, w.get dst = some u → u = .node [] ∨ ∃ a, t = .leaf a := by
  simp only [Edit.apply] at h
  split at h
  · cases h
  · next t hsrc =>
    have hm : w.move src dst t = .ok w' ∧
        ∀ u, w.get dst = some u → u = .node [] ∨ ∃ a, t = .leaf a := by
      split at h <;> first | cases h | skip
      · next hl =>
        refine ⟨h, fun u hu => ?_⟩
        rw [World.look_eq_ok.2 hu] at hl
        cases hl
      · next a _ _ => exact ⟨h, fun u _ => .inr ⟨a, rfl⟩⟩
      · next hl =>
        refine ⟨h, fun u hu => ?_⟩
        rw [World.look_eq_ok.2 hu] at hl
        cases hl
        exact .inl rfl
    obtain ⟨x, hx, rfl⟩ := World.move_eq_ok hm.1
    exact ⟨t, x, World.look_eq_ok.1 hsrc, hx, rfl, hm.2⟩

variable {e : Edit}

/-- Everything a successful call can do to the world. -/
theorem Edit.apply_cases (h : e.apply w = .ok w') :
    w' = w ∨
    (∃ p ∈ e.footprint, ∃ t : Dir, t.Distinct ∧ w.put p t = some w') ∨
    (∃ p ∈ e.footprint, w' = w.del p) ∨
    (∃ src dst t x, e = .rename src dst ∧ w.get src = some t ∧ (w.del src).put dst t = some x ∧
      w' = { x with moved := (dst, t) :: w.moved }) := by
  have hfile : ∀ b, (Tree.leaf (.file b) : Dir).Distinct := fun b => .leaf _
  cases e with
  | mkdir p =>
    exact .inr (.inl ⟨p, by simp, _, .node (by simp) (by simp),
      (World.add_eq_ok h).2⟩)
  | createNew p =>
    exact .inr (.inl ⟨p, by simp, _, hfile _, (World.add_eq_ok h).2⟩)
  | place p l =>
    exact .inr (.inl ⟨p, by simp, _, .leaf l, (World.add_eq_ok h).2⟩)
  | create p =>
    refine .inr (.inl ⟨p, by simp, _, hfile [], ?_⟩)
    simp only [apply] at h
    split at h
    · exact World.overwrite_eq_ok h
    · cases h
    · cases h
    · exact (World.add_eq_ok h).2
  | write p b =>
    refine .inr (.inl ⟨p, by simp, _, hfile b, ?_⟩)
    simp only [apply] at h
    split at h
    · exact World.overwrite_eq_ok h
    · cases h
    · cases h
  | rename src dst =>
    obtain ⟨t, x, ht, hx, rfl, -⟩ := rename_eq_ok h
    exact .inr (.inr (.inr ⟨src, dst, t, x, rfl, ht, hx, rfl⟩))
  | unlink p | removeDir p =>
    simp only [apply] at h
    split at h <;> cases h
    exact .inr (.inr (.inl ⟨p, by simp, rfl⟩))
  | fill p t =>
    simp only [apply] at h
    split at h <;> first | cases h | skip
    exact .inr (.inl ⟨p, by simp, t.1, t.2, World.overwrite_eq_ok h⟩)
  | shrink p | syncFile p | syncDir p =>
    simp only [apply] at h
    split at h <;> cases h
    exact .inl rfl

/-- What a call can do to the tree: nothing, put something at a path it names,
    remove what stands there, or move it. -/
inductive Edit.Moves (w : World) (e : Edit) : World → Prop
  | same : Moves w e w
  | put {p : Path} {t : Dir} {x : World} : p ∈ e.footprint → w.put p t = some x → Moves w e x
  | del {p : Path} : p ∈ e.footprint → Moves w e (w.del p)
  | rename {src dst : Path} {t : Dir} {x : World} : e = .rename src dst → w.get src = some t →
      (w.del src).put dst t = some x → Moves w e { x with moved := (dst, t) :: w.moved }

section

variable (h : EditSem faults e w r w')

include h

/-- Everything a call can do to the world, failed or not. -/
theorem EditSem.world_cases : ∃ x d, Edit.Moves w e x ∧ w' = x.withDisk d := by
  have happly : ∀ (e' : Edit) {x : World}, e'.footprint = e.footprint →
      (∀ src dst, e' = .rename src dst → e = e') → e'.apply w = .ok x → Edit.Moves w e x := by
    intro e' x hf he h
    rcases apply_cases h with rfl | ⟨p, hp, t, -, h⟩ | ⟨p, hp, rfl⟩ |
      ⟨src, dst, t, y, rfl, ht, hx, rfl⟩
    · exact .same
    · exact .put (hf ▸ hp) h
    · exact .del (hf ▸ hp)
    · exact .rename (he src dst rfl) ht hx
  cases h with
  | done h => exact ⟨_, _, happly _ rfl (fun _ _ _ => rfl) h, rfl⟩
  | refused h | fault h => exact ⟨w, w.disk, .same, rfl⟩
  | @partialWrite p b n w w' hf h =>
    exact ⟨_, _, happly (.write p (b.take n)) rfl (fun _ _ h => by cases h) h, rfl⟩
  | @shrunk p t t' w w' hl hp hw => exact ⟨_, _, .put (by simp) hw, rfl⟩

/-- A call changes only what stands at the paths it names and below them. -/
theorem EditSem.peek_eq (hq : ∀ p ∈ e.footprint, ¬ p <+: q) : w'.peek q = w.peek q := by
  obtain ⟨x, d, hm, rfl⟩ := h.world_cases
  rw [World.peek_withDisk]
  cases hm with
  | same => rfl
  | put hp h => exact World.peek_put h (hq _ hp)
  | del hp => exact World.peek_del (hq _ hp)
  | @rename src dst t x he _ hx =>
    subst he
    calc x.peek q = (w.del src).peek q := World.peek_put hx (hq dst (by simp))
      _ = w.peek q := World.peek_del (hq src (by simp))

/-- A call changes nothing apart from the paths it names. -/
theorem EditSem.get_apart (hq : ∀ p ∈ e.footprint, Tree.Apart p q) : w'.get q = w.get q := by
  obtain ⟨x, d, hm, rfl⟩ := h.world_cases
  rw [World.get_withDisk]
  cases hm with
  | same => rfl
  | put hp h => exact World.get_put_apart h (hq _ hp)
  | del hp => exact World.get_del_apart (hq _ hp)
  | @rename src dst t x he _ hx =>
    subst he
    calc x.get q = (w.del src).get q := World.get_put_apart hx (hq dst (by simp))
      _ = w.get q := World.get_del_apart (hq src (by simp))

end

/-- Making a directory changes what stands at no path but its own and those that
    lead to it. -/
theorem EditSem.get_of_mkdir (h : EditSem faults (.mkdir p) w r w') (hq : ¬ q <+: p) :
    w'.get q = w.get q := by
  cases h with
  | done h =>
    obtain ⟨hl, hput⟩ := World.add_eq_ok h
    rw [World.get_withDisk]
    by_cases hp : p <+: q
    · obtain ⟨s, rfl⟩ := hp
      have hs : s ≠ [] := by
        rintro rfl
        simp at hq
      obtain ⟨n, s, rfl⟩ := exists_cons_of_ne_nil hs
      have hne : p ≠ [] := by
        rintro rfl
        cases hl
      rw [World.get_put_append hput, World.get_append hne, World.get_of_look_error hl]
      rfl
    · exact World.get_put_apart hput ⟨hp, hq⟩
  | refused h | fault h => rfl

/-! ## Fields other than the tree -/

theorem World.put_rest (h : w.put p t = some w') :
    w'.held = w.held ∧ w'.paused = w.paused ∧ w'.moved = w.moved ∧ w'.captured = w.captured ∧
      w'.examined = w.examined := by
  rcases World.put_cases h with ⟨r, d, rfl, hd, rfl⟩ | ⟨n, r, d, rfl, hn, hd, rfl⟩ <;> simp

theorem World.del_rest (w : World) (p : Path) :
    (w.del p).held = w.held ∧ (w.del p).paused = w.paused ∧ (w.del p).moved = w.moved ∧
      (w.del p).captured = w.captured ∧ (w.del p).examined = w.examined := by
  cases p with
  | nil => simp [World.del]
  | cons n p => by_cases h : n = RUNS_DIR <;> simp [World.del, h]

section

variable (h : EditSem faults e w r w')

include h

theorem EditSem.rest :
    w'.held = w.held ∧ w'.paused = w.paused ∧ w'.captured = w.captured ∧
      w'.examined = w.examined := by
  obtain ⟨x, d, hm, rfl⟩ := h.world_cases
  cases hm with
  | same => exact ⟨rfl, rfl, rfl, rfl⟩
  | put _ h =>
    obtain ⟨h₁, h₂, -, h₃, h₄⟩ := World.put_rest h
    exact ⟨h₁, h₂, h₃, h₄⟩
  | @del p _ =>
    obtain ⟨h₁, h₂, -, h₃, h₄⟩ := w.del_rest p
    exact ⟨h₁, h₂, h₃, h₄⟩
  | @rename src dst t x _ _ hx =>
    obtain ⟨h₁, h₂, -, h₃, h₄⟩ := World.put_rest hx
    obtain ⟨g₁, g₂, -, g₃, g₄⟩ := w.del_rest src
    exact ⟨h₁.trans g₁, h₂.trans g₂, h₃.trans g₃, h₄.trans g₄⟩

/-- Only a rename adds to what renames put where, and only at its target. -/
theorem EditSem.moved_get (hq : ∀ p ∈ e.footprint, Tree.Apart p q) :
    Assoc.get q w'.moved = Assoc.get q w.moved := by
  obtain ⟨x, d, hm, rfl⟩ := h.world_cases
  rw [World.withDisk_moved]
  cases hm with
  | same => rfl
  | put _ h => rw [(World.put_rest h).2.2.1]
  | @del p _ => rw [(w.del_rest p).2.2.1]
  | @rename src dst t x he _ hx =>
    subst he
    have hne : dst ≠ q := by
      rintro rfl
      exact (hq dst (by simp)).1 (prefix_refl _)
    simp [hne]

/-- Only a rename adds to what renames put where. -/
theorem EditSem.moved_eq (he : ∀ src dst, e ≠ .rename src dst) : w'.moved = w.moved := by
  obtain ⟨x, d, hm, rfl⟩ := h.world_cases
  cases hm with
  | same => rfl
  | put _ h => exact (World.put_rest h).2.2.1
  | @del p _ => exact (w.del_rest p).2.2.1
  | rename heq _ _ => exact absurd heq (he _ _)

end

theorem World.put_runs (h : w.put p t = some w') (hp : p.head? ≠ some RUNS_DIR) :
    w'.runs = w.runs := by
  rcases World.put_cases h with ⟨r, d, rfl, hd, rfl⟩ | ⟨n, r, d, rfl, hn, hd, rfl⟩
  · simp at hp
  · rfl

theorem World.del_runs (w : World) (hp : p.head? ≠ some RUNS_DIR) : (w.del p).runs = w.runs := by
  cases p with
  | nil => rfl
  | cons n p =>
    have hn : n ≠ RUNS_DIR := by simpa using hp
    simp [World.del, hn]

theorem EditSem.runs_eq (h : EditSem faults e w r w')
    (he : ∀ p ∈ e.footprint, p.head? ≠ some RUNS_DIR) : w'.runs = w.runs := by
  obtain ⟨x, d, hm, rfl⟩ := h.world_cases
  rw [World.withDisk_runs]
  cases hm with
  | same => rfl
  | put hp h => exact World.put_runs h (he _ hp)
  | del hp => exact w.del_runs (he _ hp)
  | @rename src dst t x heq _ hx =>
    subst heq
    exact (World.put_runs hx (he dst (by simp))).trans
      (w.del_runs (he src (by simp)))

/-! ## Stable storage -/

/-- At `q`, what is on stable storage stays there, and what an entry was is not
    forgotten but by syncing it. -/
structure Disk.Keeps (d d' : Disk) (q : Path) : Prop where
  data : d.data q = true → d'.data q = true
  old : d'.old q = d.old q ∨ d'.old q = []

theorem Disk.Keeps.refl (d : Disk) (q : Path) : Disk.Keeps d d q := ⟨id, .inl rfl⟩

theorem Disk.Keeps.trans {d₁ d₂ d₃ : Disk} (h₁ : Disk.Keeps d₁ d₂ q)
    (h₂ : Disk.Keeps d₂ d₃ q) : Disk.Keeps d₁ d₃ q where
  data h := h₂.data (h₁.data h)
  old := by
    rcases h₂.old with h | h
    · rw [h]
      exact h₁.old
    · exact .inr h

theorem Disk.Keeps.mem {d d' : Disk} (h : Disk.Keeps d d' q) {o : Old} (ho : o ∈ d'.old q) : o ∈ d.old q := by
  rcases h.old with h | h
  · rwa [h] at ho
  · rw [h] at ho
    cases ho

theorem Disk.Keeps.synced {d d' : Disk} (h : Disk.Keeps d d' q) (ho : d.old q = []) : d'.old q = [] := by
  rcases h.old with h | h
  · rw [h, ho]
  · exact h

theorem Disk.keeps_rebind (d : Disk) (o : Old) (h : q ≠ p) : Disk.Keeps d (d.rebind p o) q := by
  refine ⟨fun hd => by simp [h, hd], ?_⟩
  by_cases hp : p <+: q
  · exact .inr (by simp [h, hp])
  · exact .inl (by simp [h, hp])

/-- A call changes what is on stable storage only at and below the paths it
    names. -/
theorem Edit.keeps_persist (hq : ∀ p ∈ e.footprint, ¬ p <+: q) :
    Disk.Keeps w.disk (e.persist w) q := by
  have hne : ∀ p ∈ e.footprint, q ≠ p := fun p hp h => hq p hp (h ▸ prefix_refl _)
  cases e with
  | mkdir p | createNew p | place p _ | unlink p | removeDir p =>
    exact Disk.keeps_rebind _ _ (hne p (by simp))
  | create p =>
    have hp : q ≠ p := hne p (by simp)
    simp only [persist]
    split
    · exact ⟨fun hd => by simp [hp, hd], .inl rfl⟩
    · exact Disk.keeps_rebind _ _ hp
  | write p b =>
    have hp : q ≠ p := hne p (by simp)
    exact ⟨fun hd => by simp [hp, hd], .inl rfl⟩
  | rename src dst =>
    have hs : ¬ src <+: q := hq src (by simp)
    have hd : ¬ dst <+: q := hq dst (by simp)
    have hs' : q ≠ src := hne src (by simp)
    have hd' : q ≠ dst := hne dst (by simp)
    exact ⟨fun h => by simp [hd, h],
      .inl (by simp [hs, hd, hs', hd'])⟩
  | shrink p | fill p _ =>
    have hp : ¬ p <+: q := hq p (by simp)
    exact ⟨fun hd => by simp [hp, hd],
      .inl (by simp [hp])⟩
  | syncFile p =>
    refine ⟨fun hd => ?_, .inl rfl⟩
    simp only [persist, Disk.syncFile]
    split_ifs
    · rfl
    · exact hd
  | syncDir p =>
    refine ⟨id, ?_⟩
    simp only [persist, Disk.syncDir]
    split_ifs
    · exact .inr rfl
    · exact .inl rfl

theorem EditSem.keeps (h : EditSem faults e w r w') (hq : ∀ p ∈ e.footprint, ¬ p <+: q) :
    Disk.Keeps w.disk w'.disk q := by
  cases h with
  | done h => exact keeps_persist hq
  | refused h | fault h => exact .refl _ _
  | @partialWrite p b n w w' hf h => exact keeps_persist (e := .write p b) hq
  | @shrunk p t t' w w' hl hp hput => exact keeps_persist (e := .shrink p) hq

/-- Making a directory changes what is on stable storage at no other path. -/
theorem EditSem.keeps_of_mkdir (h : EditSem faults (.mkdir p) w r w') (hq : q ≠ p) :
    Disk.Keeps w.disk w'.disk q := by
  cases h with
  | done h => exact Disk.keeps_rebind _ _ hq
  | refused h | fault h => exact .refl _ _

/-! ## Well-formed directories -/

/-- No directory lists a name twice, `generations/` is a directory if it is there,
    and unless that it is there has been synced, it was not there before. -/
structure World.Wf (w : World) : Prop where
  top : w.top.Distinct
  runs : w.runs.Distinct
  gens : ∀ a, w.peek [GENERATIONS_DIR] ≠ some (some a)
  made : w.disk.old [GENERATIONS_DIR] = [] ∨ Old.absent ∈ w.disk.old [GENERATIONS_DIR]

theorem World.Wf.distinct (hw : w.Wf) : w.top.Distinct ∧ w.runs.Distinct :=
  ⟨hw.top, hw.runs⟩

/-- A directory with nothing in it, and nothing on its way to stable storage. -/
structure World.Empty (w : World) : Prop where
  top : w.top = .node []
  runs : w.runs = .node []
  disk : ∀ p, w.disk.old p = []

theorem World.Empty.get (h : w.Empty) (hn : n ≠ RUNS_DIR) (p : Path) : w.get (n :: p) = none := by
  simp [World.get, hn, h.top, Tree.get_node_cons]

theorem World.Empty.wf (h : w.Empty) : w.Wf where
  top := by
    rw [h.top]
    exact .node (by simp) (by simp)
  runs := by
    rw [h.runs]
    exact .node (by simp) (by simp)
  gens a := by
    rw [World.peek_eq_none.2 (h.get (by decide) [])]
    simp
  made := .inl (h.disk _)

theorem World.put_distinct (h : w.put p t = some w') (ht : t.Distinct)
    (hw : w.top.Distinct ∧ w.runs.Distinct) : w'.top.Distinct ∧ w'.runs.Distinct := by
  rcases World.put_cases h with ⟨r, d, rfl, hd, rfl⟩ | ⟨n, r, d, rfl, hn, hd, rfl⟩
  · exact ⟨hw.1, hw.2.put ht hd⟩
  · exact ⟨hw.1.put ht hd, hw.2⟩

theorem World.del_distinct (hw : w.top.Distinct ∧ w.runs.Distinct) (p : Path) :
    (w.del p).top.Distinct ∧ (w.del p).runs.Distinct := by
  cases p with
  | nil => exact hw
  | cons n p =>
    simp only [World.del]
    split_ifs
    · exact ⟨hw.1, hw.2.del⟩
    · exact ⟨hw.1.del, hw.2⟩

theorem World.get_distinct (hw : w.top.Distinct ∧ w.runs.Distinct) (h : w.get p = some t) :
    t.Distinct := by
  cases p with
  | nil =>
    cases h
    exact hw.1
  | cons n p =>
    simp only [World.get] at h
    split_ifs at h
    · exact hw.2.get h
    · exact hw.1.get h

/-- No call makes a directory list a name twice. -/
theorem EditSem.distinct (h : EditSem faults e w r w') (hd : w.top.Distinct ∧ w.runs.Distinct) :
    w'.top.Distinct ∧ w'.runs.Distinct := by
  have happly : ∀ {e : Edit} {w'}, e.apply w = .ok w' → w'.top.Distinct ∧ w'.runs.Distinct := by
    intro e w' h
    rcases apply_cases h with rfl | ⟨p, -, t, ht, h⟩ | ⟨p, -, rfl⟩ |
      ⟨src, dst, t, x, rfl, ht, hx, rfl⟩
    · exact hd
    · exact World.put_distinct h ht hd
    · exact World.del_distinct hd p
    · have hx' := World.put_distinct hx (World.get_distinct hd ht) (World.del_distinct hd src)
      exact hx'
  cases h with
  | done h | partialWrite hf h =>
    have hx := happly h
    exact hx
  | refused h | fault h => exact hd
  | shrunk hl hp hput =>
    have hx := World.put_distinct hput (hp.1 (World.get_distinct hd (World.look_eq_ok.1 hl))) hd
    exact hx

/-- Calls that do not replace `generations/` keep directories well-formed. -/
theorem EditSem.wf (h : EditSem faults e w r w') (he : ∀ p ∈ e.footprint, ¬ p <+: [GENERATIONS_DIR])
    (hw : w.Wf) : w'.Wf where
  top := (h.distinct hw.distinct).1
  runs := (h.distinct hw.distinct).2
  gens := by rw [h.peek_eq he]; exact hw.gens
  made := by
    rcases (h.keeps he).old with h | h
    · rw [h]
      exact hw.made
    · exact .inl h

theorem EditSem.wf_of_mkdir (h : EditSem faults (.mkdir p) w r w') (hw : w.Wf) : w'.Wf := by
  refine ⟨(h.distinct hw.distinct).1, (h.distinct hw.distinct).2, ?_, ?_⟩
  · cases h with
    | refused h | fault h => exact hw.gens
    | done h =>
    obtain ⟨hl, hput⟩ := World.add_eq_ok h
    by_cases hp : p <+: [GENERATIONS_DIR]
    · rcases prefix_cons_iff.1 hp with rfl | ⟨q, rfl, hq⟩
      · cases hl
      · obtain rfl := prefix_nil.1 hq
        simp [World.peek, World.get_put_self hput]
    · rw [World.peek_withDisk, World.peek_put hput hp]
      exact hw.gens
  · cases h with
    | refused h | fault h => exact hw.made
    | done h =>
      rw [World.withDisk_disk]
      by_cases hp : [GENERATIONS_DIR] = p
      · exact .inr (by simp [hp])
      · rcases (Disk.keeps_rebind w.disk .absent hp).old with h | h
        · rw [Edit.persist, h]
          exact hw.made
        · exact .inl h

end Lnx
