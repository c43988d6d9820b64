import Lnx.Locks.HeldLock

/-!
# Replacing an instance

`replace_instance_dir` (`server.rs` lines 1003–1040) swaps an imported sandbox in
for an existing instance: it takes the instance lock, renames the instance
directory into a temporary one, renames the import to the instance path and, if
that fails, the old directory back. The temporary directory is deleted when the
function returns. Between its two renames nothing stands at the instance path,
and another process that takes a lock of the instance makes the directory again.

* `SwapState.step`: one step of `replace_instance_dir` or of another process.
* `SwapState.Intrudes`: another process makes a lock file at the instance path while
  the instance is away.
* `replace_keeps_state`: without such a step the old state is on disk until the new
  one is in place; after one, the function returns with neither at the path.
-/

namespace Lnx

open LockState Option

/-- Where `replace_instance_dir` is. -/
inductive SwapPhase
  /-- the temporary directory is made; in `InstanceLock::try_acquire` -/
  | locking
  /-- in the closure of `with_exclusive_instance_state` -/
  | holding
  /-- the instance directory is renamed away -/
  | detached
  /-- and the import is synced -/
  | synced
  /-- and renamed to the instance path -/
  | moved
  /-- `move_into_place` has failed -/
  | failed
  /-- `move_into_place` has succeeded -/
  | swapped
  /-- the closure has returned -/
  | closing (ok : Bool)
  /-- the lock is dropped, and the temporary directory is being deleted -/
  | cleaning (ok : Bool)
  | returned (ok : Bool)
  | crashed
  deriving DecidableEq

/-- The locks and the instance path; what stands at `trash/state` and at the import's
    path; and where `replace_instance_dir` is. -/
structure SwapState (σ P : Type) where
  locks : LockState σ P
  replaced : Option (InstanceDir σ)
  imported : Option (InstanceDir σ)
  phase : SwapPhase

open SwapState

/-- The steps of `replace_instance_dir`, and of the other processes. -/
inductive SwapAct (P : Type)
  | other (p : P) (act : LockAct)
  /-- in `InstanceLock::try_acquire` -/
  | lock (act : LockAct)
  | enter
  /-- `with_exclusive_instance_state` returns `Ok(None)` or an error -/
  | refused
  | detach (ok : Bool)
  | syncTree (ok : Bool)
  | moveIn (ok : Bool)
  | syncDir (ok : Bool)
  | removeRunDir (ok : Bool)
  | restore
  /-- the instance lock is dropped -/
  | unlock
  /-- the temporary directory is deleted, at the end or by its `Drop` -/
  | remove
  | «return»
  | crash

namespace SwapState

variable {σ P : Type} [DecidableEq P]

/-- `fs::rename` of `d` to the instance path: it fails unless nothing or an empty
    directory stands there. -/
def vacant (s : SwapState σ P) : Bool := s.locks.path.all InstanceDir.isEmpty

def setPath (s : SwapState σ P) (d : Option (InstanceDir σ)) : SwapState σ P :=
  { s with locks := { s.locks with path := d } }

/-- `fs::rename(&dest.instance_dir, &replaced)`. -/
def detach (s : SwapState σ P) (ok : Bool) : SwapState σ P :=
  if ok && s.locks.path.isSome then
    { s.setPath none with replaced := s.locks.path, phase := .detached }
  else { s with phase := .closing false }

/-- `fs::rename(imported, instance_dir)`. -/
def moveIn (s : SwapState σ P) (ok : Bool) : SwapState σ P :=
  if ok && s.vacant && s.imported.isSome then
    { s.setPath s.imported with imported := none, phase := .moved }
  else { s with phase := .failed }

/-- `fs::rename(&replaced, &dest.instance_dir)`. -/
def restore (s : SwapState σ P) : SwapState σ P :=
  if s.vacant && s.replaced.isSome then
    { s.setPath s.replaced with replaced := none, phase := .closing false }
  else { s with phase := .closing false }

/-- One step of `replace_instance_dir`, run by the process `r`, or of another process. -/
def step (r : P) (s : SwapState σ P) : SwapAct P → Option (SwapState σ P)
  | .other p act =>
    if p = r then none else (s.locks.step p act).map fun l => { s with locks := l }
  | .lock act =>
    if s.phase = .locking then (s.locks.step r act).map fun l => { s with locks := l } else none
  | .enter =>
    match s.phase, s.locks.procs r with
    | .locking, .owner _ => some { s with phase := .holding }
    | _, _ => none
  | .refused =>
    if s.phase = .locking ∧ s.locks.procs r = .out then some { s with phase := .closing false }
    else none
  | .detach ok => if s.phase = .holding then some (s.detach ok) else none
  | .syncTree ok =>
    if s.phase = .detached then some { s with phase := if ok then .synced else .failed } else none
  | .moveIn ok => if s.phase = .synced then some (s.moveIn ok) else none
  | .syncDir ok =>
    if s.phase = .moved then some { s with phase := if ok then .swapped else .failed } else none
  | .removeRunDir ok => if s.phase = .swapped then some { s with phase := .closing ok } else none
  | .restore => if s.phase = .failed then some s.restore else none
  | .unlock =>
    match s.phase with
    | .closing ok => some { s with locks := s.locks.leave r, phase := .cleaning ok }
    | _ => none
  | .remove =>
    match s.phase with
    | .cleaning _ => some { s with replaced := none }
    | _ => none
  | .return =>
    match s.phase with
    | .cleaning ok => some { s with phase := .returned ok }
    | _ => none
  | .crash =>
    match s.phase with
    | .returned _ => none
    | _ => some { s with locks := s.locks.leave r, phase := .crashed }

/-- `replace_instance_dir` is about to begin, and nobody else has begun: the instance
    holds the state `old` and the import the state `new`. -/
structure Initial (old new : σ) (s : SwapState σ P) : Prop where
  locks : s.locks.Initial
  path : stateAt s.locks.path = some old
  imported : stateAt s.imported = some new
  phase : s.phase = .locking

/-- The instance path holds the new state, or the old one is still on disk. -/
def Safe (old new : σ) (s : SwapState σ P) : Prop :=
  stateAt s.locks.path = some new ∨ stateAt s.locks.path = some old ∨ stateAt s.replaced = some old

/-- The instance is away: detached, and no other state is in its place. -/
def Away (s : SwapState σ P) : Prop :=
  (s.phase = .detached ∨ s.phase = .synced ∨ s.phase = .failed) ∧ stateAt s.locks.path = none

/-- Another process opens a lock file, and so makes one, while the instance is away. -/
def Intrudes (s : SwapState σ P) : SwapAct P → Prop
  | .other p .open => s.Away ∧ ∃ goal, s.locks.procs p = .trying goal .made ∧ s.locks.path ≠ none
  | _ => False

/-! ## While nobody intrudes -/

/-- What holds at each phase. -/
def KeptAt (old new : σ) (s : SwapState σ P) : SwapPhase → Prop
  | .locking | .holding => stateAt s.locks.path = some old ∧ stateAt s.imported = some new
  | .detached | .synced =>
    s.vacant = true ∧ stateAt s.imported = some new ∧ stateAt s.replaced = some old
  | .failed =>
    (s.vacant = true ∧ stateAt s.replaced = some old) ∨ stateAt s.locks.path = some new
  | .moved | .swapped | .closing true | .cleaning true | .returned true =>
    stateAt s.locks.path = some new
  | .closing false | .cleaning false | .returned false =>
    stateAt s.locks.path = some new ∨ stateAt s.locks.path = some old
  | .crashed => s.Safe old new

def Kept (old new : σ) (s : SwapState σ P) : Prop := s.KeptAt old new s.phase

variable {old new : σ} {r : P} {s s' : SwapState σ P}

omit [DecidableEq P] in
theorem Kept.safe (h : s.Kept old new) : s.Safe old new := by
  unfold Kept KeptAt at h
  split at h
  · exact .inr (.inl h.1)
  · exact .inr (.inl h.1)
  · exact .inr (.inr h.2.2)
  · exact .inr (.inr h.2.2)
  · rcases h with h | h
    · exact .inr (.inr h.2)
    · exact .inl h
  · exact .inl h
  · exact .inl h
  · exact .inl h
  · exact .inl h
  · exact .inl h
  · exact h.imp_right .inl
  · exact h.imp_right .inl
  · exact h.imp_right .inl
  · exact h

omit [DecidableEq P] in
theorem stateAt_of_vacant (h : s.vacant = true) : stateAt s.locks.path = none := by
  unfold vacant at h
  cases hp : s.locks.path with
  | none => rfl
  | some d =>
    rw [hp] at h
    have hd : d.isEmpty = true := h
    simp only [InstanceDir.isEmpty, Bool.and_eq_true, isNone_iff_eq_none] at hd
    exact hd.1.1.1

omit [DecidableEq P] in
/-- Taking and dropping locks keeps it. -/
theorem Kept.setLocks {l : LockState σ P} (h : s.Kept old new)
    (hstate : stateAt l.path = stateAt s.locks.path)
    (hv : s.Away → s.vacant = true → l.path.all InstanceDir.isEmpty = true) :
    ({ s with locks := l } : SwapState σ P).Kept old new := by
  have haway : (s.phase = .detached ∨ s.phase = .synced ∨ s.phase = .failed) → s.vacant = true →
      l.path.all InstanceDir.isEmpty = true := fun hp hvac =>
    hv ⟨hp, stateAt_of_vacant hvac⟩ hvac
  show KeptAt old new _ s.phase
  unfold Kept at h
  generalize s.phase = ph at h haway ⊢
  cases ph with
  | locking | holding => exact ⟨hstate.trans h.1, h.2⟩
  | detached | synced => exact ⟨haway (by simp) h.1, h.2⟩
  | moved | swapped => exact hstate.trans h
  | failed => exact h.imp (fun h => ⟨haway (by simp) h.1, h.2⟩) hstate.trans
  | closing ok | cleaning ok | returned ok =>
    cases ok with
    | true => exact hstate.trans h
    | false => exact h.imp hstate.trans hstate.trans
  | crashed => exact h.imp hstate.trans (.imp_left hstate.trans)

omit [DecidableEq P] in
theorem Kept.detach (h : stateAt s.locks.path = some old ∧ stateAt s.imported = some new) (ok : Bool) :
    (s.detach ok).Kept old new := by
  unfold SwapState.detach
  split_ifs
  · exact ⟨rfl, h.2, h.1⟩
  · exact .inr h.1

omit [DecidableEq P] in
theorem Kept.moveIn (h : s.vacant = true ∧ stateAt s.imported = some new ∧
    stateAt s.replaced = some old) (ok : Bool) : (s.moveIn ok).Kept old new := by
  unfold SwapState.moveIn
  split_ifs
  · exact h.2.1
  · exact .inl ⟨h.1, h.2.2⟩

omit [DecidableEq P] in
theorem Kept.restore (h : (s.vacant = true ∧ stateAt s.replaced = some old) ∨
    stateAt s.locks.path = some new) : s.restore.Kept old new := by
  unfold SwapState.restore
  rcases h with ⟨hv, hr⟩ | h
  · have hsome : s.replaced.isSome = true := by
      obtain ⟨d, hd, -⟩ := bind_eq_some_iff.1 hr
      rw [hd]
      rfl
    rw [if_pos (by rw [hv, hsome]; rfl)]
    exact .inr hr
  · -- the import is in place, so nothing can be renamed there
    rw [if_neg]
    · exact .inl h
    · intro hc
      have hv : s.vacant = true := by simp_all
      rw [stateAt_of_vacant hv] at h
      cases h

variable {a : SwapAct P}

theorem of_other {p : P} {act : LockAct} (hs : s.step r (.other p act) = some s') :
    ∃ l, s.locks.step p act = some l ∧ s' = { s with locks := l } := by
  simp only [step] at hs
  split_ifs at hs
  obtain ⟨l, hl, rfl⟩ := map_eq_some_iff.1 hs
  exact ⟨l, hl, rfl⟩

theorem Kept.step (h : s.Kept old new) (hb : ¬ s.Intrudes a) (hs : s.step r a = some s') :
    s'.Kept old new := by
  have hat : ∀ {ph}, s.phase = ph → s.KeptAt old new ph := fun hp => hp ▸ h
  cases a with
  | other p act =>
    obtain ⟨l, hl, rfl⟩ := of_other hs
    have he := step_effect hl
    refine h.setLocks he.stateAt_eq fun haway hv => he.vacant hv ?_
    rintro rfl ⟨goal, hgoal⟩
    by_contra hne
    exact hb ⟨haway, goal, hgoal, hne⟩
  | lock act =>
    simp only [step] at hs
    split_ifs at hs with hp
    obtain ⟨l, hl, rfl⟩ := map_eq_some_iff.1 hs
    refine h.setLocks (step_effect hl).stateAt_eq fun haway _ => ?_
    rw [Away, hp] at haway
    simp at haway
  | enter =>
    simp only [step] at hs
    split at hs
    · next f hp hf =>
      cases hs
      exact hat hp
    · cases hs
  | refused =>
    obtain ⟨hp, rfl⟩ := of_guard hs
    exact .inr (hat hp.1).1
  | detach ok =>
    obtain ⟨hp, rfl⟩ := of_guard hs
    exact .detach (hat hp) ok
  | syncTree ok =>
    obtain ⟨hp, rfl⟩ := of_guard hs
    cases ok with
    | true => exact hat hp
    | false => exact .inl ⟨(hat hp).1, (hat hp).2.2⟩
  | moveIn ok =>
    obtain ⟨hp, rfl⟩ := of_guard hs
    exact .moveIn (hat hp) ok
  | syncDir ok =>
    obtain ⟨hp, rfl⟩ := of_guard hs
    cases ok with
    | true => exact hat hp
    | false => exact .inr (hat hp)
  | removeRunDir ok =>
    obtain ⟨hp, rfl⟩ := of_guard hs
    cases ok with
    | true => exact hat hp
    | false => exact .inl (hat hp)
  | restore =>
    obtain ⟨hp, rfl⟩ := of_guard hs
    exact .restore (hat hp)
  | unlock | «return» =>
    simp only [step] at hs
    split at hs
    · next ok hp =>
      cases hs
      cases ok <;> exact hat hp
    · cases hs
  | remove =>
    simp only [step] at hs
    split at hs
    · next ok hp =>
      cases hs
      show KeptAt old new _ s.phase
      rw [hp]
      cases ok <;> exact hat hp
    · cases hs
  | crash =>
    simp only [step] at hs
    split at hs
    · cases hs
    · cases hs
      exact h.safe

/-! ## Once somebody has intruded -/

/-- Something without a state stands at the path of the instance that is away. -/
def DoomedAt (s : SwapState σ P) : SwapPhase → Prop
  | .detached | .synced | .failed => s.vacant = false ∧ stateAt s.locks.path = none
  | .closing ok | .cleaning ok | .returned ok => ok = false ∧ stateAt s.locks.path = none
  | .crashed => True
  | .locking | .holding | .moved | .swapped => False

def Doomed (s : SwapState σ P) : Prop := s.DoomedAt s.phase

theorem Doomed.step (h : s.Doomed) (hs : s.step r a = some s') : s'.Doomed := by
  have hat : ∀ {ph}, s.phase = ph → s.DoomedAt ph := fun hp => hp ▸ h
  cases a with
  | other p act =>
    obtain ⟨l, hl, rfl⟩ := of_other hs
    have he := step_effect hl
    show DoomedAt _ s.phase
    cases hp : s.phase with
    | locking | holding | moved | swapped => exact (hat hp).elim
    | detached | synced | failed => exact ⟨he.occupied (hat hp).1, he.stateAt_eq.trans (hat hp).2⟩
    | closing ok | cleaning ok | returned ok => exact ⟨(hat hp).1, he.stateAt_eq.trans (hat hp).2⟩
    | crashed => trivial
  | lock act =>
    simp only [step] at hs
    split_ifs at hs with hp
    exact (hat hp).elim
  | detach ok | syncDir ok | removeRunDir ok =>
    obtain ⟨hp, -⟩ := of_guard hs
    exact (hat hp).elim
  | enter =>
    simp only [step] at hs
    split at hs
    · next hp _ => exact (hat hp).elim
    · cases hs
  | refused =>
    obtain ⟨hp, -⟩ := of_guard hs
    exact (hat hp.1).elim
  | syncTree ok =>
    obtain ⟨hp, rfl⟩ := of_guard hs
    cases ok <;> exact hat hp
  | moveIn ok =>
    obtain ⟨hp, rfl⟩ := of_guard hs
    have hd := hat hp
    rw [moveIn, if_neg (by rw [hd.1]; simp)]
    exact hd
  | restore =>
    obtain ⟨hp, rfl⟩ := of_guard hs
    have hd := hat hp
    rw [SwapState.restore, if_neg (by rw [hd.1]; simp)]
    exact ⟨rfl, hd.2⟩
  | unlock | «return» =>
    simp only [step] at hs
    split at hs
    · next hp =>
      cases hs
      exact hat hp
    · cases hs
  | remove =>
    simp only [step] at hs
    split at hs
    · next hp =>
      cases hs
      show DoomedAt _ s.phase
      rw [hp]
      exact hat hp
    · cases hs
  | crash =>
    simp only [step] at hs
    split at hs
    · cases hs
    · cases hs
      trivial

/-- A lock file made while the instance is away blocks both renames. -/
theorem Intrudes.doomed (h : s.Intrudes a) (hs : s.step r a = some s') : s'.Doomed := by
  cases a with
  | other p act =>
    cases act with
    | «open» =>
      obtain ⟨⟨hphase, hstate⟩, goal, hgoal, hne⟩ := h
      obtain ⟨l, hl, rfl⟩ := of_other hs
      have hstate' := (LockState.step_effect hl).stateAt_eq.trans hstate
      have hoccupied : l.path.all InstanceDir.isEmpty = false := by
        simp only [LockState.step, hgoal, LockState.tryAcquire] at hl
        cases hl
        unfold LockState.openFile
        split
        · next hnone => exact absurd hnone hne
        · next d hd =>
          split
          · next i hi =>
            show s.locks.path.all InstanceDir.isEmpty = false
            rw [hd]
            exact InstanceDir.not_isEmpty hi
          · exact InstanceDir.isEmpty_create _ _ _
      show DoomedAt _ s.phase
      rcases hphase with hp | hp | hp <;> rw [hp] <;> exact ⟨hoccupied, hstate'⟩
    | _ => exact h.elim
  | _ => exact h.elim

end SwapState

open SwapState in
/-- `replace_instance_dir` while any number of other processes inspect, lock or start
    the instance, in any order. As long as none of them opens a lock file while the
    instance is away, at every time (so when it returns and when it crashes) the new
    state is at the instance path or the old one is still on disk. Once one has, the
    function can only return an error, with neither state at the instance path, and
    when the temporary directory has been deleted the old state is lost. -/
theorem replace_keeps_state {σ P : Type} [DecidableEq P] (r : P) {old new : σ} {s : SwapState σ P}
    (hs : s.Initial old new) :
    (∀ as, Avoids (step r) Intrudes s as →
      Along (step r) (fun s => s.Safe old new ∧
        (s.phase = .returned true → stateAt s.locks.path = some new)) s as) ∧
    (∀ (s₁ : SwapState σ P) a as s₂ ok, s₁.Intrudes a → (a :: as).foldlM (step r) s₁ = some s₂ →
      s₂.phase = .returned ok →
      ok = false ∧ stateAt s₂.locks.path = none ∧ (s₂.replaced = none → ¬ s₂.Safe old new)) := by
  have hkept : s.Kept old new := by
    rw [Kept, hs.phase]
    exact ⟨hs.path, hs.imported⟩
  refine ⟨fun as hav => ?_, fun s₁ a as s₂ ok hi hr hp => ?_⟩
  · refine (along_of_avoids (I := Kept old new) (fun s a s' h hb hstep => h.step hb hstep) hkept
      hav).mono fun s h => ⟨h.safe, fun hp => ?_⟩
    rw [Kept, hp] at h
    exact h
  · rw [List.foldlM_cons] at hr
    obtain ⟨t, ht, hr⟩ := bind_eq_some_iff.1 hr
    have hd : s₂.Doomed := run_inv (I := Doomed) (fun s a s' h hstep => h.step hstep) (hi.doomed ht) hr
    rw [Doomed, hp] at hd
    refine ⟨hd.1, hd.2, fun hnone hsafe => ?_⟩
    rw [Safe, hd.2, hnone] at hsafe
    rcases hsafe with h | h | h <;> cases h

/-- An instance with the state `false` and an import with the state `true`. -/
def readyToReplace : SwapState Bool Bool where
  locks := ⟨some ⟨some false, fun _ => none⟩, 0, fun _ => none, fun _ => .out⟩
  replaced := none
  imported := some ⟨some true, fun _ => none⟩
  phase := .locking

/-- The instance lock is taken, without contention. -/
def lockSteps : List (SwapAct Bool) :=
  ([.call .own, .check, .createDir, .open, .flock, .recheck, .check, .createDir, .open, .flock,
    .recheck, .lease] : List LockAct).map .lock ++ [.enter]

/-- The instance is replaced while nobody else is about. -/
theorem replace_keeps_state_alone :
    Along (SwapState.step false) (fun s => s.Safe false true ∧
      (s.phase = .returned true → stateAt s.locks.path = some true)) readyToReplace
      (lockSteps ++ [.detach true, .syncTree true, .moveIn true, .syncDir true, .removeRunDir true, .unlock,
        .remove, .return]) := by
  refine (replace_keeps_state false ⟨⟨fun _ => rfl, fun _ => rfl⟩, rfl, rfl, rfl⟩).1 _
    (avoids_of_forall ?_ _)
  simp [lockSteps, SwapState.Intrudes]

/-- Another process begins to inspect the instance, finds it gone and makes its lock
    file anew before the import is in place. -/
def inspectedRun : List (SwapAct Bool) :=
  lockSteps ++ [.other true (.call .inspect), .other true .check, .detach true,
    .other true .createDir, .other true .open, .syncTree true, .moveIn true, .restore, .unlock, .remove,
    .return]

/-- Then neither state is left. -/
theorem replace_may_lose_state : readyToReplace.Initial false true ∧
    ∃ s, inspectedRun.foldlM (SwapState.step false) readyToReplace = some s ∧
      s.phase = .returned false ∧ ¬ s.Safe false true := by
  refine ⟨⟨⟨fun _ => rfl, fun _ => rfl⟩, rfl, rfl, rfl⟩, _, rfl, rfl, ?_⟩
  rintro (h | h | h) <;> cases h

end Lnx
