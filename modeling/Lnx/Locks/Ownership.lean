import Lnx.Locks.HeldLock

/-!
# Exclusive ownership of an instance

A holder of the instance lock may move the instance directory, and with it the
lock file, out of the way and another into its place: `lnx delete` and
`replace_instance_dir` do. The lock it holds then no longer guards the path, and
whoever comes next finds no lock file there, makes one and takes it.

* `Exclusive`: at most one process holds the instance lock.
* `Intrudes`: a process passes the check of the inode while another holds a lock
  file that is not the one at the path.
* `ownership_exclusive_iff`: a run keeps ownership exclusive if and only if no step
  of it intrudes.
-/

namespace Lnx

open Function

variable {σ P : Type} [DecidableEq P]

/-- The steps of processes that take the instance lock, hold it and, while they do,
    move directories. -/
inductive OwnAct (σ P : Type)
  | lock (p : P) (act : LockAct)
  /-- the holder `p` renames the instance directory away -/
  | detach (p : P)
  /-- the holder `p` renames some directory to the instance path -/
  | attach (p : P) (d : InstanceDir σ)

variable {a : OwnAct σ P}

namespace LockState

/-- A `rename` to the instance path, which fails unless nothing or an empty directory
    stands there. -/
def attach (s : LockState σ P) (d : InstanceDir σ) : Option (LockState σ P) :=
  if s.path.all InstanceDir.isEmpty then some { s with path := some d } else none

/-- A step of a process that takes or holds the instance lock. -/
def ownStep (s : LockState σ P) : OwnAct σ P → Option (LockState σ P)
  | .lock p act => s.step p act
  | .detach p =>
    match s.procs p with
    | .owner _ => some { s with path := none }
    | _ => none
  | .attach p d =>
    match s.procs p with
    | .owner _ => s.attach d
    | _ => none

/-- At most one process holds the instance lock. -/
def Exclusive (s : LockState σ P) : Prop :=
  ∀ p q f f', (s.procs p).Holds f → (s.procs q).Holds f' → p = q

/-- `p` passes the check of the inode while another process holds a lock file that is
    not at the path. -/
def Intrudes (s : LockState σ P) : OwnAct σ P → Prop
  | .lock p .recheck => ∃ g i, s.procs p = .trying (.lock g) (.locked i) ∧
      inodeAt s.path .lock = some i ∧ ∃ q f, (s.procs q).Holds f ∧ inodeAt s.path .lock ≠ some f
  | _ => False

variable {s s' : LockState σ P} {p : P}

theorem ownStep_cases (h : s.ownStep a = some s') :
    (∃ p act, a = .lock p act ∧ s.step p act = some s') ∨
      ((∀ p act, a ≠ .lock p act) ∧ s'.procs = s.procs ∧ s'.flocks = s.flocks) := by
  cases a with
  | lock p act => exact .inl ⟨p, act, rfl, h⟩
  | detach p =>
    simp only [ownStep] at h
    split at h
    · cases h
      exact .inr ⟨nofun, rfl, rfl⟩
    · cases h
  | attach p d =>
    simp only [ownStep] at h
    split at h
    · unfold attach at h
      split_ifs at h
      cases h
      exact .inr ⟨nofun, rfl, rfl⟩
    · cases h

theorem Sound.ownStep (hs : s.Sound) (h : s.ownStep a = some s') : s'.Sound := by
  rcases ownStep_cases h with ⟨p, act, -, h⟩ | ⟨-, hp, hf⟩
  · exact hs.effect (step_effect h)
  · exact ⟨fun p i hi => by rw [hf]; exact hs.has p i (hp ▸ hi), fun p => by
      rw [hp]
      exact hs.distinct p⟩

/-- A step breaks exclusive ownership just when it intrudes. -/
theorem exclusive_step (hs : s.Sound) (hx : s.Exclusive) (h : s.ownStep a = some s') :
    s'.Exclusive ↔ ¬ s.Intrudes a := by
  rcases ownStep_cases h with ⟨p, act, rfl, h⟩ | ⟨hnot, hp, -⟩
  · rcases (step_effect h).holds with hsame | ⟨g, i, rfl, htry, hat, rfl⟩
    · refine iff_of_true (fun q r f f' hq hr => hx q r f f' (hsame q f hq) (hsame r f' hr)) ?_
      intro hi
      cases act with
      | recheck =>
        obtain ⟨g, i, htry, hat, -⟩ := hi
        have hstep : s.step p .recheck = some (s.move p (.leasing g i)) := by
          simp [step, htry, tryAcquire, Goal.file, hat, Goal.reached]
        cases hstep.symm.trans h
        have hp : (s.procs p).Holds i := hsame p i (by
          show (update s.procs p (.leasing g i) p).Holds i
          rw [update_self]
          exact rfl)
        rw [htry] at hp
        exact hp
      | call | check | createDir | «open» | flock | busy | retry | lease | leave => exact hi
    · -- `p` holds the lock from now on, so nobody else may
      have hself : ((s.move p (.leasing g i)).procs p).Holds i := by
        show (update s.procs p (.leasing g i) p).Holds i
        rw [update_self]
        exact rfl
      constructor
      · rintro hx' ⟨g', i', -, -, q, f, hq, -⟩
        have hqp : q ≠ p := by
          rintro rfl
          rw [htry] at hq
          exact hq
        refine hqp (hx' q p f i ?_ hself)
        show (update s.procs p (.leasing g i) q).Holds f
        rwa [update_of_ne hqp]
      · intro hi
        have hnone : ∀ q f, ¬ (s.procs q).Holds f := by
          intro q f hq
          have hf : inodeAt s.path .lock = some f := by
            by_contra hne
            exact hi ⟨g, i, htry, hat, q, f, hq, hne⟩
          obtain rfl : f = i := Option.some.inj (hf.symm.trans hat)
          have hqp : q = p := hs.eq_of_has hq.has (by rw [htry]; exact .inl rfl)
          rw [hqp, htry] at hq
          exact hq
        have honly : ∀ q f, ((s.move p (.leasing g i)).procs q).Holds f → q = p := by
          intro q f hq
          by_contra hqp
          refine hnone q f ?_
          have : (update s.procs p (.leasing g i) q).Holds f := hq
          rwa [update_of_ne hqp] at this
        exact fun q r f f' hq hr => (honly q f hq).trans (honly r f' hr).symm
  · refine iff_of_true (fun q r f f' hq hr => hx q r f f' (hp ▸ hq) (hp ▸ hr)) ?_
    cases a with
    | lock p act => exact absurd rfl (hnot p act)
    | detach | attach => exact not_false

/-- Everyone who holds the instance lock holds the file at the path. -/
def InPlace (s : LockState σ P) : Prop :=
  ∀ p f, (s.procs p).Holds f → inodeAt s.path .lock = some f

theorem InPlace.step {act : LockAct} (hs : s.InPlace) (h : s.step p act = some s') :
    s'.InPlace := by
  have he := step_effect h
  rcases he.holds with hsame | ⟨g, i, -, -, hat, rfl⟩
  · exact fun q f hq => he.inodeAt_eq (hs q f (hsame q f hq))
  · refine forall_update (P := fun _ (x : Proc) => ∀ f, x.Holds f → inodeAt s.path .lock = some f)
      (fun q _ => hs q) ?_
    rintro f rfl
    exact hat

omit [DecidableEq P] in
theorem InPlace.not_intrudes (hs : s.InPlace) (a : OwnAct σ P) : ¬ s.Intrudes a := by
  intro hi
  cases a with
  | lock p act =>
    cases act with
    | recheck =>
      obtain ⟨-, -, -, -, q, f, hq, hne⟩ := hi
      exact hne (hs q f hq)
    | call | check | createDir | «open» | flock | busy | retry | lease | leave => exact hi
  | detach | attach => exact hi

end LockState

/-- Whether a step moves a directory. -/
def OwnAct.Moves : OwnAct σ P → Prop
  | .lock _ _ => False
  | .detach _ | .attach _ _ => True

open LockState in
/-- Any number of processes take the instance lock, hold it and, while they do, move
    directories to and from the instance path, in any order. At no time two of them
    hold it if and only if none passes the check of the inode while another has moved
    the directory with the lock it holds away. In runs in which nobody moves a
    directory this never happens. -/
theorem ownership_exclusive_iff {s : LockState σ P} (hs : s.Initial) (as : List (OwnAct σ P)) :
    (Along ownStep Exclusive s as ↔ Avoids ownStep Intrudes s as) ∧
      (Avoids ownStep (fun _ a => a.Moves) s as → Along ownStep Exclusive s as) := by
  have hx : s.Exclusive := fun p q f f' hp => by
    rw [hs.1 p] at hp
    exact hp.elim
  refine ⟨along_iff_avoids (fun s a s' hi h => Sound.ownStep hi h)
    (fun s a s' hi hx h => exclusive_step hi hx h) (Sound.init hs) hx as, fun hav => ?_⟩
  have hI : Along ownStep (fun s : LockState σ P => s.Sound ∧ s.InPlace ∧ s.Exclusive) s as := by
    refine along_of_avoids (fun s a s' hi hb h => ?_) ⟨Sound.init hs, fun p f hp => ?_, hx⟩ hav
    · obtain ⟨hsound, hplace, hx⟩ := hi
      refine ⟨hsound.ownStep h, ?_, (exclusive_step hsound hx h).2 (hplace.not_intrudes a)⟩
      cases a with
      | lock p act => exact hplace.step h
      | detach | attach => exact absurd trivial hb
    · rw [hs.1 p] at hp
      exact hp.elim
  exact hI.mono fun _ h => h.2.2

/-- The steps of one `InstanceLock::try_acquire` that meets nobody. -/
def acquireSteps (p : P) : List (OwnAct σ P) :=
  ([.call .own, .check, .createDir, .open, .flock, .recheck, .check, .createDir, .open, .flock,
    .recheck, .lease] : List LockAct).map (.lock p)

/-- An instance with a saved state, and nobody about. -/
def savedInstance : LockState Unit Bool :=
  ⟨some ⟨some (), fun _ => none⟩, 0, fun _ => none, fun _ => .out⟩

/-- One process takes the lock and replaces the instance directory, as
    `replace_instance_dir` does; before it drops its lock another takes the lock of
    the new directory. -/
def replacedRun : List (OwnAct Unit Bool) :=
  acquireSteps false ++ [.detach false, .attach false ⟨some (), fun _ => none⟩] ++ acquireSteps true

/-- Then both own the instance. -/
theorem ownership_may_be_shared : savedInstance.Initial ∧
    (replacedRun.foldlM LockState.ownStep savedInstance).map (fun s => (s.procs false, s.procs true)) =
      some (.owner 1, .owner 3) := by
  refine ⟨⟨fun _ => rfl, fun _ => rfl⟩, ?_⟩
  decide

/-- Alone, one process owns it. -/
theorem ownership_exclusive_alone :
    Along LockState.ownStep LockState.Exclusive savedInstance (acquireSteps false) := by
  refine (ownership_exclusive_iff ⟨fun _ => rfl, fun _ => rfl⟩ _).2 (avoids_of_forall ?_ _)
  intro a ha _
  obtain ⟨act, -, rfl⟩ := List.mem_map.1 ha
  exact not_false

end Lnx
