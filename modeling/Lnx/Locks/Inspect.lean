import Lnx.Locks.HeldLock

/-!
# Inspecting an instance that is deleted

`with_instance_guard` (`runner/locks.rs` lines 376–392) looks whether the instance
directory exists and then takes the instance guard, which makes the directory
(`open_lock_file`, lines 289–302). Deleting an instance takes the instance lock and
renames the directory away (`detach_planned_instance_dirs`, `cli.rs`). Any number of
processes inspect the instance while one deletes it; none starts or creates it.

* `DeleteState.step`: one step of an inspecting process or of the deletion.
* `Proc.Heedless`: the places from which a process gets to `create_dir_all` without finding
  out that the directory is gone.
* `inspect_leaves_deleted`: a directory renamed away stays away just when no inspecting
  process stands at such a place at that moment.
-/

namespace Lnx

/-- The locks and the instance path, and whether the deletion has renamed the directory
    away. -/
structure DeleteState (σ P : Type) where
  locks : LockState σ P
  renamed : Bool

inductive DeleteAct (P : Type)
  /-- a step of a process in `with_instance_guard` -/
  | inspect (p : P) (act : LockAct)
  /-- a step of the deletion in `InstanceLock::try_acquire`, or the end of it -/
  | delete (act : LockAct)
  /-- `fs::rename` of the instance directory -/
  | rename

/-- A process that only inspects takes the step. -/
def LockAct.inspects : LockAct → Bool
  | .call goal => goal = .inspect
  | _ => true

/-- The deletion takes the step: it asks for the instance lock, and is done with locks once
    the directory is away. -/
def LockAct.deletes (renamed : Bool) : LockAct → Bool
  | .leave => true
  | .call goal => !renamed && goal = .own
  | _ => !renamed

/-- The process can get to `create_dir_all` without looking for the directory again: the test
    before it is made on a retry after a failed recheck only. -/
def Proc.Heedless : Proc → Prop
  | .trying _ (.start false) => True
  | .trying _ .checked => True
  | .trying _ (.opened _) => True
  | .trying _ .busy => True
  | _ => False

namespace DeleteState

variable {σ P : Type} [DecidableEq P] {s s' : DeleteState σ P} {d : P}

/-- A step, where `d` is the process that deletes the instance. -/
def step (d : P) (s : DeleteState σ P) : DeleteAct P → Option (DeleteState σ P)
  | .inspect p act =>
    if p ≠ d ∧ act.inspects then (s.locks.step p act).map fun l => { s with locks := l } else none
  | .delete act =>
    if act.deletes s.renamed then (s.locks.step d act).map fun l => { s with locks := l } else none
  | .rename =>
    match s.locks.procs d with
    | .owner _ => if s.locks.path.isSome then some ⟨{ s.locks with path := none }, true⟩ else none
    | _ => none

/-- What the deletion took away is not there. -/
def Gone (s : DeleteState σ P) : Prop := s.renamed = true → s.locks.path = none

/-- The directory is renamed away from under an inspecting process that will make it again. -/
def Overtakes (d : P) (s : DeleteState σ P) : DeleteAct P → Prop
  | .rename => ∃ p, p ≠ d ∧ (s.locks.procs p).Heedless
  | _ => False

/-- The directory is away, and no inspecting process will make it again. -/
def Settled (d : P) (s : DeleteState σ P) : Prop :=
  s.locks.path = none ∧ ∀ p, p ≠ d → ¬ (s.locks.procs p).Heedless

end DeleteState

namespace LockState

variable {σ P : Type} [DecidableEq P] {s s' : LockState σ P} {p : P} {act : LockAct}

/-- A step of `try_acquire` where there is no directory. -/
theorem tryAcquire_settled {goal : Goal} {a : Attempt} (hpath : s.path = none)
    (hp : ¬ (Proc.trying goal a).Heedless) (h : s.tryAcquire p goal a act = some s') :
    ∃ x, s'.path = none ∧ s'.procs = Function.update s.procs p x ∧ ¬ x.Heedless := by
  unfold tryAcquire at h
  split at h
  · next retry =>
    cases retry with
    | false => exact (hp trivial).elim
    | true =>
      rw [hpath] at h
      cases h
      exact ⟨.out, hpath, rfl, id⟩
  · exact (hp trivial).elim
  · cases h
    unfold openFile
    rw [hpath]
    exact ⟨.out, hpath, rfl, id⟩
  · exact (hp trivial).elim
  · exact (hp trivial).elim
  · exact (hp trivial).elim
  · -- the lock file is not at the path any more
    rw [if_neg (by rw [hpath]; nofun)] at h
    cases h
    exact ⟨.trying goal (.start true), hpath, rfl, id⟩
  · cases h

/-- Without a directory, a process that is not heedless does not get so. -/
theorem step_settled (hpath : s.path = none) (hp : ¬ (s.procs p).Heedless) (hact : act.inspects = true)
    (h : s.step p act = some s') :
    ∃ x, s'.path = none ∧ s'.procs = Function.update s.procs p x ∧ ¬ x.Heedless := by
  unfold step at h
  split at h
  · cases h
    exact ⟨.out, hpath, rfl, id⟩
  split at h
  · next hproc =>
    unfold call at h
    split at h
    · cases hact
    · cases hact
    · rw [hpath] at h
      cases h
      exact ⟨s.procs p, hpath, (Function.update_eq_self p _).symm, hp⟩
    · cases h
  · next goal a hproc =>
    rw [hproc] at hp
    exact tryAcquire_settled hpath hp h
  · split_ifs at h
    cases h
    exact ⟨.owner _, hpath, rfl, id⟩
  · cases h
  · cases h
  · cases h

end LockState

namespace DeleteState

variable {σ P : Type} [DecidableEq P] {s s' : DeleteState σ P} {d : P}

/-- A process moves to a place that is not heedless. -/
theorem Settled.update {l : LockState σ P} {q : P} {x : Proc} (hs : s.Settled d)
    (hpath : l.path = none) (hprocs : l.procs = Function.update s.locks.procs q x)
    (hx : q ≠ d → ¬ x.Heedless) : Settled d ⟨l, s.renamed⟩ := by
  refine ⟨hpath, fun p hp => ?_⟩
  change ¬ (l.procs p).Heedless
  rw [hprocs, Function.update_apply]
  split_ifs with hq
  · exact hx (hq ▸ hp)
  · exact hs.2 p hp

theorem settled_step {a : DeleteAct P} (hs : s.renamed = true → s.Settled d) (hbad : ¬ s.Overtakes d a)
    (h : s.step d a = some s') (hren : s'.renamed = true) : s'.Settled d := by
  cases a with
  | inspect p act =>
    simp only [step] at h
    split_ifs at h with hinspect
    obtain ⟨l, hl, rfl⟩ := Option.map_eq_some_iff.1 h
    have hsettled := hs hren
    obtain ⟨x, hpath, hprocs, hx⟩ :=
      LockState.step_settled hsettled.1 (hsettled.2 p hinspect.1) hinspect.2 hl
    exact hsettled.update hpath hprocs fun _ => hx
  | delete act =>
    simp only [step] at h
    split_ifs at h with hdel
    obtain ⟨l, hl, rfl⟩ := Option.map_eq_some_iff.1 h
    have hsettled := hs hren
    -- the deletion only drops its locks
    have hleave : act = .leave := by
      have hren : s.renamed = true := hren
      rw [hren] at hdel
      cases act <;> first | rfl | cases hdel
    rw [hleave] at hl
    cases hl
    exact hsettled.update hsettled.1 rfl fun hd => (hd rfl).elim
  | rename =>
    simp only [step] at h
    split at h
    · split_ifs at h
      cases h
      exact ⟨rfl, fun p hp hheedless => hbad ⟨p, hp, hheedless⟩⟩
    · cases h

/-- From there the process makes the directory again. -/
theorem exists_not_gone {p : P} (hp : p ≠ d) (hren : s.renamed = true)
    (h : (s.locks.procs p).Heedless) : ∃ as, ¬ Along (step d) Gone s as := by
  unfold Proc.Heedless at h
  split at h
  on_goal 1 => refine ⟨[.check, .createDir].map (.inspect p), ?_⟩
  on_goal 2 => refine ⟨[.createDir].map (.inspect p), ?_⟩
  on_goal 3 => refine ⟨[.busy, .retry, .check, .createDir].map (.inspect p), ?_⟩
  on_goal 4 => refine ⟨[.retry, .check, .createDir].map (.inspect p), ?_⟩
  on_goal 5 => exact h.elim
  all_goals
    rename_i hproc
    simp [Along, step, LockState.step, LockState.tryAcquire, LockState.move, LockAct.inspects, Gone, hp, hren,
      hproc]

/-- Along a run that the deletion overtakes nobody in, the directory stays away. -/
theorem gone_of_avoids {as : List (DeleteAct P)} (hs : s.renamed = true → s.Settled d)
    (h : Avoids (step d) (Overtakes d) s as) : Along (step d) Gone s as :=
  .mono (fun _ hs hren => (hs hren).1)
    (along_of_avoids (I := fun s => s.renamed = true → s.Settled d)
      (fun _ _ _ hs hbad h => settled_step hs hbad h) hs h)

end DeleteState

open DeleteState in
/-- Whatever the processes are at when it begins: the directory stays away in every run in
    which it is never renamed away from under a heedless process; and once it is, some run
    brings it back. -/
theorem inspect_leaves_deleted {σ P : Type} [DecidableEq P] (d : P) :
    (∀ (l : LockState σ P) (as : List (DeleteAct P)),
      Avoids (step d) (Overtakes d) ⟨l, false⟩ as → Along (step d) Gone ⟨l, false⟩ as) ∧
    ∀ s s' : DeleteState σ P, s.step d .rename = some s' → s.Overtakes d .rename →
      ∃ as, ¬ Along (step d) Gone s' as := by
  refine ⟨fun l as h => gone_of_avoids (fun hren => nomatch hren) h, ?_⟩
  rintro s s' h ⟨p, hp, hheedless⟩
  simp only [step] at h
  split at h
  · split_ifs at h
    cases h
    exact exists_not_gone hp rfl hheedless
  · cases h

open DeleteState in
/-- An inspection that has made the directory finds it gone when it opens the guard. -/
theorem inspect_leaves_deleted_made :
    let s : DeleteState Unit Bool := ⟨⟨some ⟨some (), fun _ => none⟩, 2, fun _ => none,
      fun p => if p then .owner 1 else .trying .inspect .made⟩, false⟩
    let as := [.rename, .inspect false .open]
    ((as.foldlM (step true) s).map fun s => s.renamed) = some true ∧ Along (step true) Gone s as := by
  refine ⟨rfl, (inspect_leaves_deleted true).1 _ _ fun s' h => ⟨?_, fun _ _ => ⟨id, trivial⟩⟩⟩
  rintro ⟨p, hp, hheedless⟩
  cases p with
  | false => exact hheedless
  | true => exact hp rfl

open DeleteState in
/-- An inspection finds the directory, the instance is deleted, and the inspection makes the
    directory again, and the guard file in it. -/
theorem inspect_may_recreate :
    ∃ as : List (DeleteAct Bool), ((as.foldlM (step true)
      ⟨⟨some ⟨some (), fun _ => none⟩, 0, fun _ => none, fun _ => .out⟩, false⟩).map fun s =>
        (s.renamed, s.locks.procs false, s.locks.path.isSome, stateAt s.locks.path)) =
      some (true, .inspecting 2, true, none) :=
  ⟨[.inspect false (.call .inspect), .inspect false .check, .delete (.call .own), .delete .check, .delete .createDir,
    .delete .open, .delete .flock, .delete .recheck, .delete .check, .delete .createDir, .delete .open, .delete .flock,
    .delete .recheck, .delete .lease, .rename, .delete .leave, .inspect false .createDir, .inspect false .open,
    .inspect false .flock, .inspect false .recheck], rfl⟩

end Lnx
