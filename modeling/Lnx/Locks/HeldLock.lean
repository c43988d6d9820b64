import Lnx.Lib.Machine

/-!
# Instance locks

The locks of `src/src/runner/locks.rs`: an exclusive `flock` on a file inside the
instance directory. Whoever takes one makes the directory, opens the file, locks
it and then checks that it is still the file at that path, because a holder of
the instance lock may move the directory away. Each of these is one step, and any
number of processes take their steps in any order.

* `LockState.step`: one step of a process in `HeldLock::try_acquire`, in
  `InstanceLock::try_acquire`, in `with_instance_guard` or in
  `OwnerStartLock::try_acquire`.
* `LockState.Sound`: whoever got past its `flock` has the lock of that file.
-/

namespace Lnx

open Function

/-! ## Files -/

/-- The lock files of an instance directory: `INSTANCE_LOCK_GUARD`, `INSTANCE_LOCK`
    and `OWNER_START_LOCK`. -/
inductive LockFile
  | guard
  | lock
  | starter
  deriving DecidableEq

/-- An instance directory: the saved state in it, if any, and the inodes of the lock
    files it has. -/
structure InstanceDir (σ : Type) where
  state : Option σ
  files : LockFile → Option ℕ

namespace InstanceDir

variable {σ : Type}

/-- A directory just made by `create_dir_all`. -/
def empty : InstanceDir σ := ⟨none, fun _ => none⟩

/-- Whether `rename` can replace it. -/
def isEmpty (d : InstanceDir σ) : Bool :=
  d.state.isNone && (d.files .guard).isNone && (d.files .lock).isNone && (d.files .starter).isNone

/-- The directory with a new lock file. -/
def create (d : InstanceDir σ) (k : LockFile) (inode : ℕ) : InstanceDir σ :=
  { d with files := update d.files k (some inode) }

theorem not_isEmpty {d : InstanceDir σ} {k : LockFile} {inode : ℕ} (h : d.files k = some inode) :
    d.isEmpty = false := by
  cases k <;> simp [isEmpty, h]

theorem isEmpty_create (d : InstanceDir σ) (k : LockFile) (inode : ℕ) :
    (d.create k inode).isEmpty = false :=
  not_isEmpty (update_self _ _ _)

end InstanceDir

/-- The inode of a lock file at the instance path, as `symlink_metadata` finds it. -/
def inodeAt {σ : Type} (path : Option (InstanceDir σ)) (k : LockFile) : Option ℕ :=
  path.bind fun d => d.files k

/-- The saved state at the instance path. -/
def stateAt {σ : Type} (path : Option (InstanceDir σ)) : Option σ := path.bind fun d => d.state

/-! ## Processes -/

/-- Where a process is in `HeldLock::try_acquire`. -/
inductive Attempt
  /-- at the head of the loop -/
  | start (retry : Bool)
  /-- past the test that the parent directory exists -/
  | checked
  /-- `create_dir_all` of the parent is done -/
  | made
  | opened (inode : ℕ)
  /-- `flock` has been taken -/
  | locked (inode : ℕ)
  /-- it has returned `Ok(None)` -/
  | busy
  deriving DecidableEq

/-- What a lock is taken for. -/
inductive Goal
  /-- the guard, in `InstanceLock::try_acquire` -/
  | own
  /-- the guard, in `with_instance_guard` -/
  | inspect
  /-- the instance lock, holding the guard -/
  | lock (guard : ℕ)
  /-- the start lock, in `OwnerStartLock::try_acquire` -/
  | start
  deriving DecidableEq

def Goal.file : Goal → LockFile
  | own | inspect => .guard
  | lock _ => .lock
  | start => .starter

/-- Where a process is with the instance. -/
inductive Proc
  /-- it holds nothing and asks for nothing -/
  | out
  | trying (goal : Goal) (a : Attempt)
  /-- in the action of `with_instance_guard` -/
  | inspecting (guard : ℕ)
  /-- both locks are held; the lease is read, validated and written -/
  | leasing (guard lock : ℕ)
  /-- `InstanceLock::try_acquire` has returned the lock -/
  | owner (lock : ℕ)
  | starter (lock : ℕ)
  deriving DecidableEq

/-- What follows once the lock is held. -/
def Goal.reached : Goal → ℕ → Proc
  | own, inode => .trying (.lock inode) (.start false)
  | inspect, inode => .inspecting inode
  | lock guard, inode => .leasing guard inode
  | start, inode => .starter inode

/-- The files whose lock a process has. -/
def Proc.Has : Proc → ℕ → Prop
  | out, _ => False
  | trying goal a, i => a = .locked i ∨ goal = .lock i
  | inspecting g, i => i = g
  | leasing g f, i => i = g ∨ i = f
  | owner f, i => i = f
  | starter f, i => i = f

/-- Whether a process holds the instance lock `f`: it is past the check of the inode. -/
def Proc.Holds : Proc → ℕ → Prop
  | leasing _ f, i | owner f, i => i = f
  | out, _ | trying _ _, _ | inspecting _, _ | starter _, _ => False

/-- The two locks of a process are on two files. -/
def Proc.Distinct : Proc → Prop
  | trying (.lock g) (.locked i) => g ≠ i
  | leasing g f => g ≠ f
  | _ => True

theorem Proc.Holds.has {x : Proc} {f : ℕ} (h : x.Holds f) : x.Has f := by
  cases x with
  | leasing g f' => exact .inr h
  | owner f' => exact h
  | out | trying | inspecting | starter => exact h.elim

/-- The steps of a process. -/
inductive LockAct
  | call (goal : Goal)
  /-- `path.parent().is_some_and(|parent| !parent.exists())` -/
  | check
  /-- `fs::create_dir_all(parent)` -/
  | createDir
  /-- `open` with `O_CREAT` -/
  | open
  | flock
  /-- `flock` finds the file locked, be it shared by one who probes it -/
  | busy
  /-- the caller's loop tries again -/
  | retry
  /-- `is_file_at` -/
  | recheck
  /-- the lease is valid and written, and the guard is dropped -/
  | lease
  /-- every lock is dropped: the work is done, a call fails or times out, or the
      process dies -/
  | leave
  deriving DecidableEq

/-- What stands at the instance path, the inode number to use next, who has which
    file locked, and where every process is. -/
structure LockState (σ P : Type) where
  path : Option (InstanceDir σ)
  next : ℕ
  flocks : ℕ → Option P
  procs : P → Proc

namespace LockState

variable {σ P : Type} [DecidableEq P]

/-- The state after `p` has moved. -/
def move (s : LockState σ P) (p : P) (x : Proc) : LockState σ P :=
  { s with procs := update s.procs p x }

/-- `p` drops all its locks. -/
def leave (s : LockState σ P) (p : P) : LockState σ P :=
  { s.move p .out with flocks := fun i => if s.flocks i = some p then none else s.flocks i }

/-- The lock of a file is taken or dropped. -/
def setFlock (s : LockState σ P) (i : ℕ) (p : Option P) : LockState σ P :=
  { s with flocks := update s.flocks i p }

/-- The step `open` of `open_lock_file`. -/
def openFile (s : LockState σ P) (p : P) (goal : Goal) : LockState σ P :=
  match s.path with
  | none => s.leave p
  | some d =>
    match d.files goal.file with
    | some i => s.move p (.trying goal (.opened i))
    | none =>
      { s.move p (.trying goal (.opened s.next)) with
        path := some (d.create goal.file s.next), next := s.next + 1 }

/-- A step of `HeldLock::try_acquire`. -/
def tryAcquire (s : LockState σ P) (p : P) (goal : Goal) : Attempt → LockAct → Option (LockState σ P)
  | .start retry, .check =>
    if retry && s.path.isNone then some (s.leave p) else some (s.move p (.trying goal .checked))
  | .checked, .createDir =>
    some { s.move p (.trying goal .made) with path := some (s.path.getD .empty) }
  | .made, .open => some (s.openFile p goal)
  | .opened i, .flock =>
    if s.flocks i = none then some ((s.move p (.trying goal (.locked i))).setFlock i (some p)) else none
  | .opened _, .busy => some (s.move p (.trying goal .busy))
  | .busy, .retry => some (s.move p (.trying goal (.start false)))
  | .locked i, .recheck =>
    if inodeAt s.path goal.file = some i then some (s.move p (goal.reached i))
    else some ((s.move p (.trying goal (.start true))).setFlock i none)
  | _, _ => none

/-- A process turns to the instance. -/
def call (s : LockState σ P) (p : P) : LockAct → Option (LockState σ P)
  | .call .own => some (s.move p (.trying .own (.start false)))
  | .call .start => some (s.move p (.trying .start (.start false)))
  | .call .inspect =>
    -- without an instance directory there is nothing to guard
    if s.path.isNone then some s else some (s.move p (.trying .inspect (.start false)))
  | _ => none

/-- A step of the process `p`. -/
def step (s : LockState σ P) (p : P) (act : LockAct) : Option (LockState σ P) :=
  if act = .leave then some (s.leave p)
  else
    match s.procs p with
    | .out => s.call p act
    | .trying goal a => s.tryAcquire p goal a act
    | .leasing g f => if act = .lease then some ((s.move p (.owner f)).setFlock g none) else none
    | .inspecting _ | .owner _ | .starter _ => none

/-- Nobody has begun. -/
def Initial (s : LockState σ P) : Prop := (∀ p, s.procs p = .out) ∧ ∀ i, s.flocks i = none

/-! ## What a step does -/

/-- What a step does to the process that takes it, to the lock table and to the
    instance path. -/
inductive Effect (s : LockState σ P) (p : P) (act : LockAct) : LockState σ P → Prop
  /-- every lock is dropped -/
  | leave : Effect s p act (s.leave p)
  | stay : Effect s p act s
  /-- no lock changes hands -/
  | go {x : Proc} : (∀ i, x.Has i → (s.procs p).Has i) → (∀ i, ¬ x.Holds i) → x.Distinct →
      Effect s p act (s.move p x)
  | makeDir {x : Proc} : (∀ i, x.Has i → (s.procs p).Has i) → (∀ i, ¬ x.Holds i) → x.Distinct →
      Effect s p act { s.move p x with path := some (s.path.getD .empty) }
  | makeFile {x : Proc} {d : InstanceDir σ} {goal : Goal} :
      act = .open → s.procs p = .trying goal .made →
      (∀ i, x.Has i → (s.procs p).Has i) → (∀ i, ¬ x.Holds i) → x.Distinct → s.path = some d →
      d.files goal.file = none →
      Effect s p act { s.move p x with path := some (d.create goal.file s.next), next := s.next + 1 }
  | lock {x : Proc} {i : ℕ} : s.flocks i = none → (∀ j, x.Has j → j = i ∨ (s.procs p).Has j) →
      (∀ j, ¬ x.Holds j) → (¬ (s.procs p).Has i → x.Distinct) →
      Effect s p act ((s.move p x).setFlock i (some p))
  | unlock {x : Proc} {i : ℕ} : (s.procs p).Has i →
      (∀ j, x.Has j → (s.procs p).Has j ∧ ((s.procs p).Distinct → j ≠ i)) →
      (∀ j, x.Holds j → (s.procs p).Holds j) → x.Distinct → Effect s p act ((s.move p x).setFlock i none)
  /-- the instance lock is held from now on -/
  | acquire {g i : ℕ} : act = .recheck → s.procs p = .trying (.lock g) (.locked i) → inodeAt s.path .lock = some i →
      Effect s p act (s.move p (.leasing g i))

variable {s s' : LockState σ P} {p : P}

theorem openFile_effect {goal : Goal} (h : s.procs p = .trying goal .made) :
    Effect s p .open (s.openFile p goal) := by
  have hhas : ∀ i j, (Proc.trying goal (.opened i)).Has j → (s.procs p).Has j := by
    intro i j hj
    rw [h]
    exact .inr (hj.resolve_left nofun)
  have hdist : ∀ i, (Proc.trying goal (.opened i)).Distinct := fun i => by
    cases goal <;> trivial
  unfold openFile
  split
  · exact .leave
  · next d hd =>
    split
    · next i hi => exact .go (hhas i) (fun _ => not_false) (hdist i)
    · next hn => exact .makeFile rfl h (hhas _) (fun _ => not_false) (hdist _) hd hn

variable {act : LockAct}

theorem tryAcquire_effect {goal : Goal} {a : Attempt} (h : s.procs p = .trying goal a)
    (hs : s.tryAcquire p goal a act = some s') : Effect s p act s' := by
  have hgo : ∀ b : Attempt, (∀ i, b ≠ .locked i) → (∀ i, (Proc.trying goal b).Has i →
      (s.procs p).Has i) ∧ (Proc.trying goal b).Distinct := by
    intro b hb
    constructor
    · intro i hi
      rw [h]
      exact .inr (hi.resolve_left (hb i))
    · cases goal with
      | own | inspect | start => trivial
      | lock g =>
        cases b with
        | locked i => exact absurd rfl (hb i)
        | start | checked | made | opened | busy => trivial
  unfold tryAcquire at hs
  split at hs
  · split_ifs at hs
    · cases hs
      exact .leave
    · cases hs
      exact .go (hgo .checked nofun).1 (fun _ => not_false) (hgo .checked nofun).2
  · cases hs
    exact .makeDir (hgo .made nofun).1 (fun _ => not_false) (hgo .made nofun).2
  · cases hs
    exact openFile_effect h
  · next i =>
    split_ifs at hs with hfree
    cases hs
    refine .lock hfree (fun j hj => ?_) (fun _ => not_false) fun hi => ?_
    · rcases hj with hj | hj
      · cases hj
        exact .inl rfl
      · rw [h]
        exact .inr (.inr hj)
    · cases goal with
      | own | inspect | start => trivial
      | lock g =>
        rintro rfl
        exact hi (by rw [h]; exact .inr rfl)
  · cases hs
    exact .go (hgo .busy nofun).1 (fun _ => not_false) (hgo .busy nofun).2
  · cases hs
    exact .go (hgo (.start false) nofun).1 (fun _ => not_false) (hgo (.start false) nofun).2
  · next i =>
    have hi : (s.procs p).Has i := by
      rw [h]
      exact .inl rfl
    split_ifs at hs with hat
    · cases hs
      cases goal with
      | lock g => exact .acquire rfl h hat
      | own =>
        refine .go (fun j hj => ?_) (fun _ => not_false) trivial
        obtain rfl : i = j := by simpa [Goal.reached, Proc.Has] using hj
        exact hi
      | inspect | start =>
        refine .go (fun j hj => ?_) (fun _ => not_false) trivial
        cases (hj : j = i)
        exact hi
    · cases hs
      refine .unlock hi (fun j hj => ⟨(hgo (.start true) nofun).1 j hj, fun hd => ?_⟩)
        (fun _ => False.elim) (hgo (.start true) nofun).2
      -- the guard is not the file that was locked
      obtain rfl : goal = .lock j := hj.resolve_left nofun
      rw [h] at hd
      exact hd
  · cases hs

theorem call_effect (hs : s.call p act = some s') : Effect s p act s' := by
  have hnot : ∀ goal : Goal, (∀ g, goal ≠ .lock g) → ∀ i,
      (Proc.trying goal (.start false)).Has i → (s.procs p).Has i := by
    rintro goal hg i (h | h)
    · cases h
    · exact absurd h (hg i)
  unfold call at hs
  split at hs
  · cases hs
    exact .go (hnot .own nofun) (fun _ => not_false) trivial
  · cases hs
    exact .go (hnot .start nofun) (fun _ => not_false) trivial
  · split_ifs at hs
    · cases hs
      exact .stay
    · cases hs
      exact .go (hnot .inspect nofun) (fun _ => not_false) trivial
  · cases hs

theorem step_effect (hs : s.step p act = some s') : Effect s p act s' := by
  unfold step at hs
  split at hs
  · cases hs
    exact .leave
  · split at hs
    · exact call_effect hs
    · next h => exact tryAcquire_effect h hs
    · next g f h =>
      split_ifs at hs
      cases hs
      refine .unlock (by rw [h]; exact .inl rfl) (fun j hj => ?_) (fun j hj => ?_) trivial
      · rw [h]
        cases (hj : j = f)
        exact ⟨.inr rfl, Ne.symm⟩
      · rw [h]
        exact hj
    · cases hs
    · cases hs
    · cases hs

/-! ## Who has which lock -/

/-- Whoever got past its `flock` has the lock. -/
structure Sound (s : LockState σ P) : Prop where
  has : ∀ p i, (s.procs p).Has i → s.flocks i = some p
  distinct : ∀ p, (s.procs p).Distinct

omit [DecidableEq P] in
theorem Sound.init (h : s.Initial) : s.Sound where
  has p i hi := by
    rw [h.1 p] at hi
    exact hi.elim
  distinct p := by
    rw [h.1 p]
    trivial

omit [DecidableEq P] in
/-- No two processes have the lock of one file. -/
theorem Sound.eq_of_has (h : s.Sound) {q : P} {i : ℕ} (hp : (s.procs p).Has i)
    (hq : (s.procs q).Has i) : p = q :=
  Option.some.inj ((h.has p i hp).symm.trans (h.has q i hq))

theorem Sound.effect (h : s.Sound) (he : Effect s p act s') : s'.Sound := by
  have hmove : ∀ {x : Proc}, (∀ i, x.Has i → (s.procs p).Has i) → x.Distinct →
      (s.move p x).Sound := by
    intro x hx hd
    exact ⟨forall_update (P := fun q (x : Proc) => ∀ i, x.Has i → s.flocks i = some q)
        (fun q _ => h.has q) fun i hi => h.has p i (hx i hi),
      forall_update (P := fun _ (x : Proc) => x.Distinct) (fun q _ => h.distinct q) hd⟩
  cases he with
  | stay => exact h
  | leave =>
    refine ⟨?_, forall_update (P := fun _ (x : Proc) => x.Distinct) (fun q _ => h.distinct q) trivial⟩
    refine forall_update (P := fun q (x : Proc) => ∀ i, x.Has i → (s.leave p).flocks i = some q)
      (fun q hq i hi => ?_) fun i hi => hi.elim
    have hqi := h.has q i hi
    show (if s.flocks i = some p then none else s.flocks i) = some q
    rw [if_neg fun hp => hq (Option.some.inj (hqi.symm.trans hp))]
    exact hqi
  | go hx _ hd => exact hmove hx hd
  | makeDir hx _ hd | makeFile _ _ hx _ hd _ _ => exact ⟨(hmove hx hd).has, (hmove hx hd).distinct⟩
  | @lock x i hfree hx _ hd =>
    have hnot : ∀ q, ¬ (s.procs q).Has i := fun q hq => by
      rw [h.has q i hq] at hfree
      cases hfree
    refine ⟨?_, forall_update (P := fun _ (x : Proc) => x.Distinct) (fun q _ => h.distinct q)
      (hd (hnot p))⟩
    refine forall_update (P := fun q (x : Proc) => ∀ j, x.Has j →
      update s.flocks i (some p) j = some q) (fun q _ j hj => ?_) fun j hj => ?_
    · rw [update_of_ne (fun he : j = i => hnot q (he ▸ hj))]
      exact h.has q j hj
    · by_cases hji : j = i
      · rw [hji, update_self]
      · rw [update_of_ne hji]
        exact h.has p j ((hx j hj).resolve_left hji)
  | @unlock x i hi hx _ hd =>
    refine ⟨?_, forall_update (P := fun _ (x : Proc) => x.Distinct) (fun q _ => h.distinct q) hd⟩
    refine forall_update (P := fun q (x : Proc) => ∀ j, x.Has j →
      update s.flocks i none j = some q) (fun q hq j hj => ?_) fun j hj => ?_
    · rw [update_of_ne (fun he : j = i => hq (h.eq_of_has (he ▸ hj) hi))]
      exact h.has q j hj
    · obtain ⟨hj', hne⟩ := hx j hj
      rw [update_of_ne (hne (h.distinct p))]
      exact h.has p j hj'
  | @acquire g i _ hp _ =>
    refine hmove (fun j hj => ?_) ?_
    · rw [hp]
      rcases hj with rfl | rfl
      · exact .inr rfl
      · exact .inl rfl
    · have hd := h.distinct p
      rw [hp] at hd
      exact hd

section

variable (he : Effect s p act s')

include he

/-- A lock file at the path stays there, as long as the directory does. -/
theorem Effect.inodeAt_eq {k : LockFile} {i : ℕ} (h : inodeAt s.path k = some i) :
    inodeAt s'.path k = some i := by
  obtain ⟨d, hd, hi⟩ := Option.bind_eq_some_iff.1 h
  cases he with
  | leave | stay | go | lock | unlock | acquire => exact h
  | makeDir =>
    show inodeAt (some (s.path.getD .empty)) k = some i
    rw [hd]
    exact hi
  | @makeFile x d' goal _ _ _ _ _ hd' hnone =>
    obtain rfl : d' = d := Option.some.inj (hd'.symm.trans hd)
    show (update d'.files goal.file (some s.next)) k = some i
    rw [update_of_ne]
    · exact hi
    · rintro rfl
      rw [hnone] at hi
      cases hi

/-- Taking locks does not change what is saved. -/
theorem Effect.stateAt_eq : stateAt s'.path = stateAt s.path := by
  cases he with
  | leave | stay | go | lock | unlock | acquire => rfl
  | makeDir =>
    show stateAt (some (s.path.getD .empty)) = stateAt s.path
    cases s.path <;> rfl
  | makeFile _ _ _ _ _ hd _ =>
    rw [hd]
    rfl

/-- An empty directory at the path stays so until a lock file is made there. -/
theorem Effect.vacant (h : s.path.all InstanceDir.isEmpty = true)
    (hno : act = .open → (∃ goal, s.procs p = .trying goal .made) → s.path = none) :
    s'.path.all InstanceDir.isEmpty = true := by
  cases he with
  | leave | stay | go | lock | unlock | acquire => exact h
  | makeDir =>
    show (some (s.path.getD .empty)).all InstanceDir.isEmpty = true
    cases hp : s.path with
    | none => rfl
    | some d =>
      rw [hp] at h
      exact h
  | makeFile ha hp _ _ _ hd _ =>
    rw [hno ha ⟨_, hp⟩] at hd
    cases hd

/-- What is not empty does not become so. -/
theorem Effect.occupied (h : s.path.all InstanceDir.isEmpty = false) :
    s'.path.all InstanceDir.isEmpty = false := by
  cases he with
  | leave | stay | go | lock | unlock | acquire => exact h
  | makeDir =>
    show (some (s.path.getD .empty)).all InstanceDir.isEmpty = false
    cases hp : s.path with
    | none =>
      rw [hp] at h
      cases h
    | some d =>
      rw [hp] at h
      exact h
  | makeFile => exact InstanceDir.isEmpty_create _ _ _

/-- Who holds the instance lock afterwards held it before, or has passed the check of
    the inode just now. -/
theorem Effect.holds :
    (∀ q f, (s'.procs q).Holds f → (s.procs q).Holds f) ∨
      ∃ g i, act = .recheck ∧ s.procs p = .trying (.lock g) (.locked i) ∧
        inodeAt s.path .lock = some i ∧ s' = s.move p (.leasing g i) := by
  have hmove : ∀ {x : Proc}, (∀ f, x.Holds f → (s.procs p).Holds f) →
      ∀ q f, (update s.procs p x q).Holds f → (s.procs q).Holds f := fun hx =>
    forall_update (P := fun q (x : Proc) => ∀ f, x.Holds f → (s.procs q).Holds f)
      (fun _ _ _ h => h) hx
  cases he with
  | leave => exact .inl (hmove fun _ => False.elim)
  | stay => exact .inl fun _ _ h => h
  | go _ hx _ | makeDir _ hx _ | makeFile _ _ _ hx _ _ _ | lock _ _ hx _ =>
    exact .inl (hmove fun f h => absurd h (hx f))
  | unlock _ _ hx _ => exact .inl (hmove hx)
  | acquire ha hp hat => exact .inr ⟨_, _, ha, hp, hat, rfl⟩

end

end LockState

end Lnx
