import Mathlib.Data.List.AList
import Mathlib.Data.List.Sort
import Lnx.Lib.Machine

/-!
# Forks that run at the same time

`fork` assembles a new instance in a staging directory and publishes it by one
rename. The staging directories stand in `fork/` below a transaction root of the
instances root, and each holds a lease file that its fork keeps locked. A fork
begins by removing the staging directories of crashed forks
(`cleanup_stale_fork_transactions`): under the guard of a `fork/` directory it
reads the names in it, and then opens and tries the lease of each.

`ForkState.step` takes any of the forks one step on. A fork crashes at any point,
which closes its files and so drops the guard and the lease it has. Errors of a
fork's own, such as a full disk, are left out.
-/

namespace Lnx

open AList Option List Function

variable {P D : Type}

/-- A directory that a fork assembles an instance in. -/
structure Staging (P : Type) where
  owner : P
  /-- whether `.lnx-fork-lease` stands in it -/
  lease : Bool
  /-- whether the exported store and the descriptor are all there -/
  complete : Bool
deriving DecidableEq

/-- Where `cleanup_stale_fork_transactions` is. The list `rs` holds the transaction roots that it
    has not come to, `ds` the entries of the root `r` that it has read. -/
inductive Cleanup (P D : Type)
  | sweep (rs : List ℕ)
  /-- it has the guard of `r` -/
  | holding (r : ℕ) (rs : List ℕ)
  | scan (r : ℕ) (ds : List D) (rs : List ℕ)
  /-- it has the lease of `d` open, which is the one of `lease`, or has found none -/
  | opened (r : ℕ) (d : D) (lease : Option P) (ds : List D) (rs : List ℕ)
  | removing (r : ℕ) (d : D) (ds : List D) (rs : List ℕ)
deriving DecidableEq

/-- What a fork does next. -/
inductive ForkPc (P D : Type)
  | start
  | cleanup (c : Cleanup P D)
  | findRoot
  | tryRoot (attempt : ℕ)
  | markRoot (attempt : ℕ)
  | createForkRoot (r : ℕ)
  | lockRoot (r : ℕ)
  | makeDir (r : ℕ)
  | makeLease (r : ℕ) (d : D)
  | lockLease (r : ℕ) (d : D)
  | dropGuard (r : ℕ) (d : D)
  | export (r : ℕ) (d : D)
  | publish (r : ℕ) (d : D)
  | removeLease
  | done
  | failed
  | crashed
deriving DecidableEq

variable {c : ForkPc P D} {r : ℕ} {d : D} {k : ℕ × D} {st st' : Staging P}

namespace ForkPc

/-- The staging directory that the fork has. -/
def staged : ForkPc P D → Option (ℕ × D)
  | makeLease r d | lockLease r d | dropGuard r d | «export» r d | publish r d => some (r, d)
  | _ => none

/-- Whether the fork has its lease locked. It does until `publish` is over. -/
def hasLease : ForkPc P D → Bool
  | dropGuard _ _ | «export» _ _ | publish _ _ | removeLease => true
  | _ => false

/-- Whether the fork may have renamed its staging directory to the destination. -/
def landed : ForkPc P D → Bool
  | removeLease | done | crashed => true
  | _ => false

def ended : ForkPc P D → Bool
  | done | failed | crashed => true
  | _ => false

/-- The entries of a root that the cleanup has read and not yet dealt with. -/
def pending : ForkPc P D → Option (ℕ × List D)
  | cleanup (.scan r ds _) => some (r, ds)
  | cleanup (.opened r d _ ds _) | cleanup (.removing r d ds _) => some (r, d :: ds)
  | _ => none

/-- The directory that the cleanup is about to remove. -/
def removes : ForkPc P D → Option (ℕ × D)
  | cleanup (.removing r d _ _) => some (r, d)
  | _ => none

theorem pending_of_removes (h : c.removes = some (r, d)) : ∃ ds, c.pending = some (r, d :: ds) := by
  cases c with
  | cleanup c =>
    cases c with
    | removing r' d' ds rs =>
      cases h
      exact ⟨ds, rfl⟩
    | sweep | holding | scan | opened => cases h
  | start | findRoot | tryRoot | markRoot | createForkRoot | lockRoot | makeDir | makeLease | lockLease
    | dropGuard | «export» | publish | removeLease | done | failed | crashed => cases h

/-- Whether the fork is through with its cleanup. -/
def cleaned : ForkPc P D → Bool
  | start | cleanup _ | failed | crashed => false
  | _ => true

end ForkPc

/-- The instances root, and the forks at work below it. A transaction root is given by
    the number in its name. -/
structure ForkState (P D : Type) where
  /-- the transaction roots with their marker -/
  marked : List ℕ
  /-- the directories that are named like one, with a marker or without -/
  made : List ℕ
  /-- those that have a directory `fork/` -/
  forkRoots : List ℕ
  /-- who has the guard of a `fork/` directory -/
  guard : ℕ → Option P
  /-- the staging directories -/
  dirs : AList (fun _ : ℕ × D => Staging P)
  /-- what stands at the destination of a fork -/
  dest : P → Option (Staging P)
  pc : P → ForkPc P D

/-- The steps of the forks. -/
inductive ForkAct (P D : Type)
  /-- `p` does what comes next -/
  | go (p : P)
  /-- `tempdir_in` of `p` makes a directory named `d` -/
  | makeDir (p : P) (d : D)
  /-- `remove_dir_all` of `p` removes some of what is in the directory -/
  | removePart (p : P)
  | crash (p : P)

open ForkAct

/-- The fork that takes the step. -/
@[simp] def ForkAct.actor : ForkAct P D → P
  | go p | makeDir p _ | removePart p | crash p => p

namespace ForkState

/-- The name of a transaction root, after what all such names begin with. -/
def rootName (attempt : ℕ) : String :=
  if attempt = 0 then "" else "-" ++ toString attempt

/-- `instance_transaction_roots`, by name. -/
def roots (s : ForkState P D) : List ℕ :=
  s.marked.insertionSort (fun a b => rootName a ≤ rootName b)

section model

variable [DecidableEq P] [DecidableEq D]

/-- The fork `p` goes on to `c`. -/
@[simps dirs dest] def move (s : ForkState P D) (p : P) (c : ForkPc P D) : ForkState P D :=
  { s with pc := update s.pc p c }

def lockGuard (s : ForkState P D) (r : ℕ) (p : P) : ForkState P D :=
  { s with guard := update s.guard r (some p) }

def dropGuard (s : ForkState P D) (r : ℕ) : ForkState P D :=
  { s with guard := update s.guard r none }

def setDir (s : ForkState P D) (r : ℕ) (d : D) (st : Staging P) : ForkState P D :=
  { s with dirs := s.dirs.insert (r, d) st }

def removeDir (s : ForkState P D) (r : ℕ) (d : D) : ForkState P D :=
  { s with dirs := s.dirs.erase (r, d) }

def setDest (s : ForkState P D) (p : P) (st : Staging P) : ForkState P D :=
  { s with dest := update s.dest p (some st) }

/-- `fs::read_dir` of `fork/` in the root `r`. -/
def entries (s : ForkState P D) (r : ℕ) : List D :=
  (s.dirs.keys.filter (fun k => k.1 = r)).map Prod.snd

/-- Opens the lease in a staging directory. There may be none, or no such directory
    anymore. -/
def openLease (s : ForkState P D) (r : ℕ) (d : D) : Option P :=
  (s.dirs.lookup (r, d)).bind fun st => if st.lease then some st.owner else none

/-- A step of `cleanup_stale_fork_transactions`. -/
def cleanupStep (s : ForkState P D) (p : P) : Cleanup P D → Option (ForkState P D)
  | .sweep [] => some (s.move p .findRoot)
  | .sweep (r :: rs) =>
    if r ∈ s.forkRoots then
      -- waits for the guard
      if s.guard r = none then some ((s.lockGuard r p).move p (.cleanup (.holding r rs))) else none
    else some (s.move p (.cleanup (.sweep rs)))
  | .holding r rs => some (s.move p (.cleanup (.scan r (s.entries r) rs)))
  | .scan r [] rs => some ((s.dropGuard r).move p (.cleanup (.sweep rs)))
  | .scan r (d :: ds) rs => some (s.move p (.cleanup (.opened r d (s.openLease r d) ds rs)))
  | .opened r d lease ds rs =>
    -- `LOCK_NB` fails if the owner has the lease locked
    if lease.any fun q => (s.pc q).hasLease then some (s.move p (.cleanup (.scan r ds rs)))
    else some (s.move p (.cleanup (.removing r d ds rs)))
  | .removing r d ds rs =>
    match s.dirs.lookup (r, d) with
    | some _ => some ((s.removeDir r d).move p (.cleanup (.scan r ds rs)))
    | none => some ((s.dropGuard r).move p .failed)

/-- A step of a fork that needs no choice. -/
def goOn (s : ForkState P D) (p : P) : Option (ForkState P D) :=
  match s.pc p with
  | .start => some (s.move p (.cleanup (.sweep s.roots)))
  | .cleanup c => s.cleanupStep p c
  -- `ensure_instance_transaction_root`
  | .findRoot =>
    match s.roots with
    | r :: _ => some (s.move p (.createForkRoot r))
    | [] => some (s.move p (.tryRoot 0))
  | .tryRoot n =>
    if n ∈ s.marked then some (s.move p (.createForkRoot n))
    else if n ∈ s.made then some (s.move p (.tryRoot (n + 1)))
    else some ({ s with made := n :: s.made }.move p (.markRoot n))
  | .markRoot n => some ({ s with marked := n :: s.marked }.move p (.createForkRoot n))
  -- `StagedInstance::create`
  | .createForkRoot r => some ({ s with forkRoots := r :: s.forkRoots }.move p (.lockRoot r))
  | .lockRoot r =>
    if s.guard r = none then some ((s.lockGuard r p).move p (.makeDir r)) else none
  | .makeDir _ => none
  | .makeLease r d =>
    match s.dirs.lookup (r, d) with
    | some st => some ((s.setDir r d { st with lease := true }).move p (.lockLease r d))
    | none => some ((s.dropGuard r).move p .failed)
  | .lockLease r d => some (s.move p (.dropGuard r d))
  | .dropGuard r d => some ((s.dropGuard r).move p (.export r d))
  -- `Store::export` and `save_in_instance_dir`
  | .export r d =>
    match s.dirs.lookup (r, d) with
    | some st => some ((s.setDir r d { st with complete := true }).move p (.publish r d))
    | none => some (s.move p .failed)
  -- `StagedInstance::publish`
  | .publish r d =>
    match s.dest p, s.dirs.lookup (r, d) with
    | none, some st => some (((s.removeDir r d).setDest p st).move p .removeLease)
    | _, _ => some (s.move p .failed)
  | .removeLease =>
    match s.dest p with
    | some st => some ((s.setDest p { st with lease := false }).move p .done)
    | none => some (s.move p .done)
  | .done | .failed | .crashed => none

/-- A step of any of the forks. -/
def step (s : ForkState P D) : ForkAct P D → Option (ForkState P D)
  | .go p => s.goOn p
  | .makeDir p d =>
    match s.pc p with
    | .makeDir r =>
      if s.dirs.lookup (r, d) = none then
        some ((s.setDir r d ⟨p, false, false⟩).move p (.makeLease r d))
      else none
    | _ => none
  | .removePart p =>
    match s.pc p with
    | .cleanup (.removing r d _ _) =>
      (s.dirs.lookup (r, d)).map fun st => s.setDir r d ⟨st.owner, false, false⟩
    | _ => none
  | .crash p =>
    if (s.pc p).ended then none
    else some ({ s with guard := fun r => if s.guard r = some p then none else s.guard r }.move p .crashed)

/-- Before any fork has started. -/
structure Initial (s : ForkState P D) : Prop where
  pc : ∀ p, s.pc p = .start
  dirs : s.dirs = ∅
  dest : ∀ p, s.dest p = none
  guard : ∀ r, s.guard r = none

end model

/-! ## What a step can do -/

variable {s s' : ForkState P D} {p q : P}

section moves

variable [DecidableEq P]

@[simp] theorem move_pc_self (s : ForkState P D) (p : P) (c : ForkPc P D) : (s.move p c).pc p = c :=
  update_self ..

theorem move_pc_of_ne (s : ForkState P D) (c : ForkPc P D) (h : q ≠ p) : (s.move p c).pc q = s.pc q :=
  update_of_ne h ..

end moves

variable [DecidableEq D]

/-- What a fork knows where it stands. -/
def Knows (s : ForkState P D) (p : P) : ForkPc P D → Prop
  | .cleanup (.holding r _) | .cleanup (.scan r _ _) => s.guard r = some p
  -- nobody makes a directory while the guard is held, so one that is there is the old one
  | .cleanup (.opened r d (some q) _ _) => s.guard r = some p ∧
      ∀ st, s.dirs.lookup (r, d) = some st → st.owner = q
  | .cleanup (.opened r d none _ _) | .cleanup (.removing r d _ _) => s.guard r = some p ∧
      ∀ st, s.dirs.lookup (r, d) = some st → s.pc st.owner = .crashed
  | .createForkRoot r => r ∈ s.marked
  | .lockRoot r => r ∈ s.marked ∧ r ∈ s.forkRoots
  | .makeDir r => s.guard r = some p ∧ r ∈ s.marked ∧ r ∈ s.forkRoots
  | .makeLease r d => s.guard r = some p ∧ s.dirs.lookup (r, d) = some ⟨p, false, false⟩
  | .lockLease r d | .dropGuard r d =>
    s.guard r = some p ∧ s.dirs.lookup (r, d) = some ⟨p, true, false⟩
  | .export r d => s.dirs.lookup (r, d) = some ⟨p, true, false⟩
  | .publish r d => s.dirs.lookup (r, d) = some ⟨p, true, true⟩
  | _ => True

/-- What holds of each fork at any time. -/
structure Good (s : ForkState P D) (p : P) : Prop where
  knows : s.Knows p (s.pc p)
  /-- it has left no other directory than the one it has -/
  owns : ∀ k st, s.dirs.lookup k = some st → st.owner = p →
    (s.pc p = .crashed ∨ (s.pc p).staged = some k) ∧ k.1 ∈ s.marked ∧ k.1 ∈ s.forkRoots
  dest : ∀ st, s.dest p = some st → st.complete = true ∧ (s.pc p).landed = true

/-- What a step of `p` does to a staging directory. -/
inductive Changes (s s' : ForkState P D) (p : P) (k : ℕ × D) : Prop
  | same : s'.dirs.lookup k = s.dirs.lookup k → Changes s s' p k
  | own (st : Staging P) : s.dirs.lookup k = some st → st.owner = p →
      (∀ st', s'.dirs.lookup k = some st' → st'.owner = p) →
      (s'.dirs.lookup k = none → s.pc p = .publish k.1 k.2) → Changes s s' p k
  | make : s.dirs.lookup k = none → s.guard k.1 = some p →
      (∀ st', s'.dirs.lookup k = some st' → st'.owner = p) → Changes s s' p k
  | sweep (st : Staging P) : s.dirs.lookup k = some st → s.pc st.owner = .crashed →
      s.guard k.1 = some p → (∀ st', s'.dirs.lookup k = some st' → st'.owner = st.owner) →
      Changes s s' p k

/-- What a step of `p` does to the rest. -/
structure Effect (s s' : ForkState P D) (p : P) : Prop where
  acts : s.pc p ≠ .crashed
  pc : ∀ q, q ≠ p → s'.pc q = s.pc q
  guard : ∀ r q, q ≠ p → s.guard r = some q → s'.guard r = some q
  dirs : ∀ k, Changes s s' p k
  dest : ∀ q, q ≠ p → s'.dest q = s.dest q
  marked : s.marked ⊆ s'.marked
  forkRoots : s.forkRoots ⊆ s'.forkRoots

section

variable (h : Effect s s' p)

include h

theorem Effect.crashed (hq : s.pc q = .crashed) : s'.pc q = .crashed := by
  have hne : q ≠ p := by
    rintro rfl
    exact h.acts hq
  rw [h.pc q hne, hq]

/-- Of another fork that has not crashed, a step leaves the directory as it is. -/
theorem Effect.dir_eq (hne : q ≠ p) (hq : s.pc q ≠ .crashed) (hk : s.dirs.lookup k = some st)
    (ho : st.owner = q) :
    s'.dirs.lookup k = some st := by
  rcases h.dirs k with hs | ⟨st', hs, hp, -, -⟩ | ⟨hs, -, -⟩ | ⟨st', hs, hc, -, -⟩
  · rw [hs, hk]
  · cases hs.symm.trans hk
    exact absurd (ho.symm.trans hp) hne
  · cases hs.symm.trans hk
  · cases hs.symm.trans hk
    exact absurd (ho ▸ hc) hq

/-- A directory that another fork owns after the step was there before it. -/
theorem Effect.was (hne : q ≠ p) (hk : s'.dirs.lookup k = some st') (ho : st'.owner = q) :
    ∃ st, s.dirs.lookup k = some st ∧ st.owner = q := by
  rcases h.dirs k with hs | ⟨st, hs, -, hp, -⟩ | ⟨hs, -, hp⟩ | ⟨st, hs, -, -, hp⟩
  · exact ⟨st', hs ▸ hk, ho⟩
  · exact absurd (ho.symm.trans (hp st' hk)) hne
  · exact absurd (ho.symm.trans (hp st' hk)) hne
  · exact ⟨st, hs, (hp st' hk).symm.trans ho⟩

/-- In a root whose guard another has, a step of `p` makes no directory. -/
theorem Effect.owner (hne : q ≠ p) (hg : s.guard k.1 = some q) (hk : s'.dirs.lookup k = some st') :
    ∃ st, s.dirs.lookup k = some st ∧ st'.owner = st.owner := by
  rcases h.dirs k with hs | ⟨st, hs, hp, hp', -⟩ | ⟨-, hg', -⟩ | ⟨-, -, -, hg', -⟩
  · exact ⟨st', hs ▸ hk, rfl⟩
  · exact ⟨st, hs, (hp' st' hk).trans hp.symm⟩
  · exact absurd (some.inj (hg.symm.trans hg')) hne
  · exact absurd (some.inj (hg.symm.trans hg')) hne

/-- What another fork knows stays true. -/
theorem Effect.knows (hne : q ≠ p) (hq : s.Knows q (s.pc q)) : s'.Knows q (s.pc q) := by
  have hdir : ∀ {k st}, s.pc q ≠ .crashed → s.dirs.lookup k = some st → st.owner = q →
      s'.dirs.lookup k = some st := fun hc hk ho => h.dir_eq hne hc hk ho
  cases hpc : s.pc q with
  | cleanup c =>
    rw [hpc] at hq
    cases c with
    | sweep => trivial
    | holding | scan => exact h.guard _ _ hne hq
    | removing r d ds rs =>
      refine ⟨h.guard _ _ hne hq.1, fun st' hst' => ?_⟩
      obtain ⟨st, hst, ho⟩ := h.owner (k := (r, d)) hne hq.1 hst'
      exact ho ▸ h.crashed (hq.2 st hst)
    | opened r d lease ds rs =>
      cases lease with
      | none =>
        refine ⟨h.guard _ _ hne hq.1, fun st' hst' => ?_⟩
        obtain ⟨st, hst, ho⟩ := h.owner (k := (r, d)) hne hq.1 hst'
        exact ho ▸ h.crashed (hq.2 st hst)
      | some x =>
        refine ⟨h.guard _ _ hne hq.1, fun st' hst' => ?_⟩
        obtain ⟨st, hst, ho⟩ := h.owner (k := (r, d)) hne hq.1 hst'
        exact ho ▸ hq.2 st hst
  | createForkRoot r =>
    rw [hpc] at hq
    exact h.marked hq
  | lockRoot r =>
    rw [hpc] at hq
    exact ⟨h.marked hq.1, h.forkRoots hq.2⟩
  | makeDir r =>
    rw [hpc] at hq
    exact ⟨h.guard _ _ hne hq.1, h.marked hq.2.1, h.forkRoots hq.2.2⟩
  | makeLease r d | lockLease r d | dropGuard r d =>
    rw [hpc] at hq hdir
    exact ⟨h.guard _ _ hne hq.1, hdir (by simp) hq.2 rfl⟩
  | «export» r d | publish r d =>
    rw [hpc] at hq hdir
    exact hdir (by simp) hq rfl
  | _ => trivial

theorem Effect.good (hne : q ≠ p) (hq : s.Good q) : s'.Good q := by
  have hpc := h.pc q hne
  refine ⟨?_, fun k st' hk ho => ?_, fun st hst => ?_⟩
  · rw [hpc]
    exact h.knows hne hq.knows
  · obtain ⟨st, hst, ho⟩ := h.was hne hk ho
    obtain ⟨hown, hm, hf⟩ := hq.owns k st hst ho
    rw [hpc]
    exact ⟨hown, h.marked hm, h.forkRoots hf⟩
  · rw [hpc]
    rw [h.dest q hne] at hst
    exact hq.dest st hst

end

/-! ## Every step keeps the rest as it has to be -/

theorem Changes.congr {t : ForkState P D} (h : Changes s s' p k) (ht : t.dirs = s'.dirs) :
    Changes s t p k := by
  rcases h with h | ⟨st, h, ho, h', hn⟩ | ⟨h, hg, h'⟩ | ⟨st, h, hc, hg, h'⟩
  · exact .same (ht ▸ h)
  · exact .own st h ho (ht ▸ h') (ht ▸ hn)
  · exact .make h hg (ht ▸ h')
  · exact .sweep st h hc hg (ht ▸ h')

section

variable (hp : s.pc p ≠ .crashed)

include hp

theorem Effect.refl : Effect s s p :=
  ⟨hp, fun _ _ => rfl, fun _ _ _ h => h, fun _ => .same rfl, fun _ _ => rfl, List.Subset.refl _,
    List.Subset.refl _⟩

theorem effect_lockGuard (hr : s.guard r = none) : Effect s (s.lockGuard r p) p :=
  { Effect.refl hp with
    guard := fun r' q _ hg => by
      have hne : r' ≠ r := by
        rintro rfl
        cases hr.symm.trans hg
      exact (update_of_ne hne ..).trans hg
    dirs := fun _ => .same rfl }

theorem effect_dropGuard (hr : s.guard r = some p) : Effect s (s.dropGuard r) p :=
  { Effect.refl hp with
    guard := fun r' q hq hg => by
      have hne : r' ≠ r := by
        rintro rfl
        exact hq (some.inj (hg.symm.trans hr))
      exact (update_of_ne hne ..).trans hg
    dirs := fun _ => .same rfl }

/-- A step that changes one directory only. -/
theorem Effect.of_dirs (k : ℕ × D) (dirs : AList fun _ : ℕ × D => Staging P)
    (hne : ∀ k', k' ≠ k → dirs.lookup k' = s.dirs.lookup k')
    (hk : Changes s { s with dirs := dirs } p k) : Effect s { s with dirs := dirs } p :=
  { Effect.refl hp with
    dirs := fun k' => by
      by_cases h : k' = k
      · exact h ▸ hk
      · exact .same (hne k' h) }

theorem effect_setDir (hk : Changes s (s.setDir r d st) p (r, d)) : Effect s (s.setDir r d st) p :=
  .of_dirs hp (r, d) _ (fun _ h => lookup_insert_ne h) hk

end

/-- A fork writes into its own directory. -/
theorem Changes.own_setDir (hst : s.dirs.lookup (r, d) = some st) (ho : st.owner = p)
    (ho' : st'.owner = p) :
    Changes s (s.setDir r d st') p (r, d) := by
  have hset : (s.setDir r d st').dirs.lookup (r, d) = some st' := lookup_insert _
  refine .own st hst ho (fun st'' h => ?_) fun h => ?_
  · cases hset.symm.trans h
    exact ho'
  · cases hset.symm.trans h

theorem effect_removeDir (hp : s.pc p ≠ .crashed) (hk : Changes s (s.removeDir r d) p (r, d)) :
    Effect s (s.removeDir r d) p :=
  .of_dirs hp (r, d) _ (fun _ h => lookup_erase_ne h) hk

/-- Every staging directory of `p` was there before. -/
def NoNew (s s' : ForkState P D) (p : P) : Prop :=
  ∀ k st, s'.dirs.lookup k = some st → st.owner = p → ∃ st', s.dirs.lookup k = some st' ∧ st'.owner = p

theorem NoNew.of_eq (h : s'.dirs = s.dirs) : NoNew s s' p := by
  intro k st hst ho
  exact ⟨st, h ▸ hst, ho⟩

theorem noNew_removeDir (s : ForkState P D) (p : P) (r : ℕ) (d : D) : NoNew s (s.removeDir r d) p := by
  intro k st hst ho
  by_cases hk : k = (r, d)
  · rw [hk, removeDir, lookup_erase] at hst
    cases hst
  · rw [removeDir, lookup_erase_ne hk] at hst
    exact ⟨st, hst, ho⟩

theorem noNew_setDir (hst : s.dirs.lookup (r, d) = some st) (ho : st.owner = st'.owner) :
    NoNew s (s.setDir r d st') p := by
  intro k st'' hst'' ho'
  by_cases hk : k = (r, d)
  · rw [hk, setDir, lookup_insert] at hst''
    cases hst''
    exact ⟨st, hk ▸ hst, ho.trans ho'⟩
  · rw [setDir, lookup_insert_ne hk] at hst''
    exact ⟨st'', hst'', ho'⟩

/-- A fork that has a staging directory has the guard or else its lease. -/
theorem Good.staged (hg : s.Good q) (h : (s.pc q).staged = some k) :
    s.guard k.1 = some q ∨ ((s.pc q).hasLease = true ∧ ∃ c, s.dirs.lookup k = some ⟨q, true, c⟩) := by
  have hk := hg.knows
  cases hpc : s.pc q with
  | makeLease r d | lockLease r d | dropGuard r d =>
    rw [hpc] at h hk
    cases h
    exact .inl hk.1
  | «export» r d | publish r d =>
    rw [hpc] at h hk
    cases h
    exact .inr ⟨rfl, _, hk⟩
  | _ =>
    rw [hpc] at h
    cases h

/-- A fork that has no staging directory owns none. -/
theorem Good.owns_none (hg : s.Good p) (hp : s.pc p ≠ .crashed) (hstaged : (s.pc p).staged = none)
    (hst : s.dirs.lookup k = some st) : st.owner ≠ p := by
  intro ho
  rcases (hg.owns k st hst ho).1 with hc | hown
  · exact hp hc
  · cases hstaged.symm.trans hown

/-- Before the rename there is nothing at the destination. -/
theorem Good.dest_none (hg : s.Good p) (hl : (s.pc p).landed = false) : s.dest p = none := by
  cases hd : s.dest p with
  | none => rfl
  | some st => cases hl.symm.trans (hg.dest st hd).2

/-- To whoever has the guard, a directory whose lease is missing or free is one of a
    crashed fork. -/
theorem crashed_of_free (hs : ∀ q, s.Good q) (hg : s.guard k.1 = some p)
    (hp : (s.pc p).staged = none) (hst : s.dirs.lookup k = some st)
    (hl : st.lease = false ∨ (s.pc st.owner).hasLease = false) : s.pc st.owner = .crashed := by
  refine ((hs st.owner).owns k st hst rfl).1.resolve_right fun hown => ?_
  rcases (hs st.owner).staged hown with hg' | ⟨hlease, c, hst'⟩
  · rw [← some.inj (hg.symm.trans hg'), hp] at hown
    cases hown
  · have hl' : st.lease = true := congrArg Staging.lease (some.inj (hst.symm.trans hst'))
    rcases hl with hl | hl
    · exact Bool.noConfusion (hl'.symm.trans hl)
    · exact Bool.noConfusion (hlease.symm.trans hl)

variable [DecidableEq P]

theorem Effect.move (h : Effect s s' p) (c : ForkPc P D) : Effect s (s'.move p c) p :=
  { h with
    pc := fun q hq => (move_pc_of_ne s' c hq).trans (h.pc q hq)
    dirs := fun k => (h.dirs k).congr rfl }

/-- A fork that goes on and makes no directory. -/
theorem Good.move (hg : s.Good p) (hp : s.pc p ≠ .crashed) (he : Effect s s' p) (hd : NoNew s s' p)
    (hdest : s'.dest p = s.dest p) (hc : c.staged = (s.pc p).staged) (hl : (s.pc p).landed = false)
    (hk : (s'.move p c).Knows p c) : (s'.move p c).Good p := by
  refine ⟨by rwa [move_pc_self], fun k st hst ho => ?_, fun st hst => ?_⟩
  · obtain ⟨st', hst', ho'⟩ := hd k st hst ho
    obtain ⟨hown, hm, hf⟩ := hg.owns k st' hst' ho'
    rw [move_pc_self, hc]
    exact ⟨hown.imp_left fun h => absurd h hp, he.marked hm, he.forkRoots hf⟩
  · rw [move_dest, hdest] at hst
    exact absurd (hg.dest st hst).2 (by simp [hl])

/-- The directory that the cleanup is about to remove is not there. -/
def Misses (s : ForkState P D) (p : P) : Prop :=
  (s.pc p).removes.any (fun k => (s.dirs.lookup k).isNone) = true

omit [DecidableEq P] in
theorem not_misses (hpc : s.pc p = c) (hc : c.removes = none) : ¬ s.Misses p := by
  simp [Misses, hpc, hc]

/-- The usual step: it makes no directory, it is not after the rename, and it does not fail. -/
theorem Good.goes {t : ForkState P D} {c' : ForkPc P D} (hg : s.Good p) (hpc : s.pc p = c)
    (he : Effect s t p) (hd : NoNew s t p) (hdest : t.dest p = s.dest p)
    (hc : c'.staged = c.staged ∧ c.landed = false ∧ c.removes = none) (hf : c' ≠ .failed)
    (hk : (t.move p c').Knows p c') : Effect s (t.move p c') p ∧ (t.move p c').Good p ∧
      ((t.move p c').pc p = .failed ↔ s.Misses p) := by
  obtain ⟨hstaged, hlanded, hremoves⟩ := hc
  refine ⟨he.move _, hg.move he.acts he hd hdest (by rw [hpc, hstaged]) (by rw [hpc, hlanded]) hk, ?_⟩
  rw [move_pc_self]
  exact iff_of_false hf (not_misses hpc hremoves)

theorem cleanupStep_good (hs : ∀ q, s.Good q) {c : Cleanup P D} (hpc : s.pc p = .cleanup c)
    (h : s.cleanupStep p c = some s') :
    Effect s s' p ∧ s'.Good p ∧ (s'.pc p = .failed ↔ s.Misses p) := by
  have hp : s.pc p ≠ .crashed := by simp [hpc]
  have hquiet := Effect.refl hp
  have hk := (hs p).knows
  rw [hpc] at hk
  cases c with
  | sweep rs =>
    cases rs with
    | nil =>
      cases h
      exact (hs p).goes hpc hquiet (.of_eq rfl) rfl ⟨rfl, rfl, rfl⟩ (by simp) trivial
    | cons r rs =>
      simp only [cleanupStep] at h
      split at h
      · split_ifs at h with hr
        cases h
        exact (hs p).goes hpc (effect_lockGuard hp hr) (.of_eq rfl) rfl ⟨rfl, rfl, rfl⟩ (by simp)
          (update_self ..)
      · cases h
        exact (hs p).goes hpc hquiet (.of_eq rfl) rfl ⟨rfl, rfl, rfl⟩ (by simp) trivial
  | holding r rs =>
    cases h
    exact (hs p).goes hpc hquiet (.of_eq rfl) rfl ⟨rfl, rfl, rfl⟩ (by simp) hk
  | scan r ds rs =>
    cases ds with
    | nil =>
      cases h
      exact (hs p).goes hpc (effect_dropGuard hp hk) (.of_eq rfl) rfl ⟨rfl, rfl, rfl⟩ (by simp) trivial
    | cons d ds =>
      cases h
      refine (hs p).goes hpc hquiet (.of_eq rfl) rfl ⟨rfl, rfl, rfl⟩ (by simp) ?_
      cases hl : s.openLease r d with
      | none =>
        refine ⟨hk, fun st hst => ?_⟩
        have hlease : st.lease = false := by
          simp only [move_dirs] at hst
          simpa [openLease, hst] using hl
        have hc := crashed_of_free hs (k := (r, d)) hk (by rw [hpc]; rfl) hst (.inl hlease)
        exact (hquiet.move _).crashed hc
      | some q =>
        refine ⟨hk, fun st hst => ?_⟩
        simp only [move_dirs] at hst
        have : st.lease = true ∧ st.owner = q := by simpa [openLease, hst] using hl
        exact this.2
  | opened r d lease ds rs =>
    have hguard : s.guard r = some p := by
      cases lease with
      | none | some q => exact hk.1
    simp only [cleanupStep] at h
    split at h
    · cases h
      exact (hs p).goes hpc hquiet (.of_eq rfl) rfl ⟨rfl, rfl, rfl⟩ (by simp) hguard
    · next hfree =>
      cases h
      refine (hs p).goes hpc hquiet (.of_eq rfl) rfl ⟨rfl, rfl, rfl⟩ (by simp)
        ⟨hguard, fun st hst => (hquiet.move _).crashed ?_⟩
      cases lease with
      | none => exact hk.2 st hst
      | some q =>
        have ho := hk.2 st hst
        refine crashed_of_free hs (k := (r, d)) hguard (by rw [hpc]; rfl) hst (.inr ?_)
        simpa [ho] using hfree
  | removing r d ds rs =>
    obtain ⟨hguard, hcr⟩ := hk
    have hmove : ∀ {t : ForkState P D} {c'}, Effect s t p → NoNew s t p → t.dest p = s.dest p →
        c'.staged = none → (t.move p c').Knows p c' → (t.move p c').Good p := fun he hd hdest hc' hk' =>
      (hs p).move hp he hd hdest (by rw [hc', hpc]; rfl) (by rw [hpc]; rfl) hk'
    simp only [cleanupStep] at h
    split at h
    · next st hst =>
      cases h
      have hgone : ∀ st', (s.removeDir r d).dirs.lookup (r, d) = some st' → st'.owner = st.owner := by
        intro st' hst'
        rw [removeDir, lookup_erase] at hst'
        cases hst'
      have he := effect_removeDir hp (.sweep st hst (hcr st hst) hguard hgone)
      refine ⟨he.move _, hmove he (noNew_removeDir s p r d) rfl rfl hguard, iff_of_false (by simp) ?_⟩
      simp [Misses, hpc, ForkPc.removes, hst]
    · next hnone =>
      cases h
      have he := effect_dropGuard hp hguard
      exact ⟨he.move _, hmove he (.of_eq rfl) rfl rfl trivial,
        iff_of_true (by simp) (by simp [Misses, hpc, ForkPc.removes, hnone])⟩

/-- A step that needs no choice keeps the invariant, and fails just when a cleanup misses
    a directory. -/
theorem goOn_good (hs : ∀ q, s.Good q) (h : s.goOn p = some s') :
    Effect s s' p ∧ s'.Good p ∧ (s'.pc p = .failed ↔ s.Misses p) := by
  obtain ⟨c, hpc⟩ : ∃ c, s.pc p = c := ⟨_, rfl⟩
  have hk := (hs p).knows
  rw [hpc] at hk
  simp only [goOn, hpc] at h
  have hp : s.pc p ≠ .crashed := by
    intro hc
    cases hpc.symm.trans hc
    cases h
  have hquiet := Effect.refl hp
  cases c with
  | start =>
    cases h
    exact (hs p).goes hpc hquiet (.of_eq rfl) rfl ⟨rfl, rfl, rfl⟩ (by simp) trivial
  | cleanup c => exact cleanupStep_good hs hpc h
  | findRoot =>
    dsimp only at h
    split at h
    · next r rs hr =>
      cases h
      have hmem : r ∈ s.roots := hr ▸ mem_cons_self
      exact (hs p).goes hpc hquiet (.of_eq rfl) rfl ⟨rfl, rfl, rfl⟩ (by simp)
        ((mem_insertionSort _).1 hmem)
    · cases h
      exact (hs p).goes hpc hquiet (.of_eq rfl) rfl ⟨rfl, rfl, rfl⟩ (by simp) trivial
  | tryRoot n =>
    dsimp only at h
    split_ifs at h with hn
    · cases h
      exact (hs p).goes hpc hquiet (.of_eq rfl) rfl ⟨rfl, rfl, rfl⟩ (by simp) hn
    · cases h
      exact (hs p).goes hpc hquiet (.of_eq rfl) rfl ⟨rfl, rfl, rfl⟩ (by simp) trivial
    · cases h
      exact (hs p).goes hpc { hquiet with dirs := fun _ => .same rfl } (.of_eq rfl) rfl
        ⟨rfl, rfl, rfl⟩ (by simp) trivial
  | markRoot n =>
    cases h
    exact (hs p).goes hpc
      { hquiet with dirs := fun _ => .same rfl, marked := subset_cons_self _ _ } (.of_eq rfl) rfl
      ⟨rfl, rfl, rfl⟩ (by simp) mem_cons_self
  | createForkRoot r =>
    cases h
    exact (hs p).goes hpc
      { hquiet with dirs := fun _ => .same rfl, forkRoots := subset_cons_self _ _ } (.of_eq rfl)
      rfl ⟨rfl, rfl, rfl⟩ (by simp) ⟨hk, mem_cons_self⟩
  | lockRoot r =>
    dsimp only at h
    split_ifs at h with hr
    cases h
    exact (hs p).goes hpc (effect_lockGuard hp hr) (.of_eq rfl) rfl ⟨rfl, rfl, rfl⟩ (by simp)
      ⟨update_self .., hk⟩
  | makeLease r d =>
    dsimp only at h
    rw [hk.2] at h
    cases h
    exact (hs p).goes hpc (effect_setDir hp (.own_setDir hk.2 rfl rfl)) (noNew_setDir hk.2 rfl) rfl
      ⟨rfl, rfl, rfl⟩ (by simp) ⟨hk.1, lookup_insert _⟩
  | lockLease r d =>
    cases h
    exact (hs p).goes hpc hquiet (.of_eq rfl) rfl ⟨rfl, rfl, rfl⟩ (by simp) hk
  | dropGuard r d =>
    cases h
    exact (hs p).goes hpc (effect_dropGuard hp hk.1) (.of_eq rfl) rfl ⟨rfl, rfl, rfl⟩ (by simp) hk.2
  | «export» r d =>
    dsimp only at h
    rw [show s.dirs.lookup (r, d) = _ from hk] at h
    cases h
    exact (hs p).goes hpc (effect_setDir hp (.own_setDir hk rfl rfl)) (noNew_setDir hk rfl) rfl
      ⟨rfl, rfl, rfl⟩ (by simp) (lookup_insert _)
  | publish r d =>
    dsimp only at h
    rw [(hs p).dest_none (by rw [hpc]; rfl), show s.dirs.lookup (r, d) = _ from hk] at h
    cases h
    have hgone : (s.removeDir r d).dirs.lookup (r, d) = none := lookup_erase _ _
    have he : Effect s (s.removeDir r d) p := effect_removeDir hp (.own _ hk rfl (fun st' hst' => by
      rw [hgone] at hst'
      cases hst') fun _ => hpc)
    have he' : Effect s ((s.removeDir r d).setDest p ⟨p, true, true⟩) p :=
      { he with
        dirs := fun k => (he.dirs k).congr rfl
        dest := fun q hq => update_of_ne hq .. }
    refine ⟨he'.move _, ⟨by rw [move_pc_self]; trivial, fun k st hst ho => ?_, fun st hst => ?_⟩,
      iff_of_false (by simp) (not_misses hpc rfl)⟩
    · -- it had no other directory
      obtain ⟨st', hst', ho'⟩ := noNew_removeDir s p r d k st hst ho
      rcases ((hs p).owns k st' hst' ho').1 with hc | hown
      · exact absurd hc hp
      · rw [hpc] at hown
        cases hown
        cases hgone.symm.trans hst
    · have : ((s.removeDir r d).setDest p ⟨p, true, true⟩).dest p = some ⟨p, true, true⟩ :=
        update_self ..
      rw [move_dest, this] at hst
      cases hst
      exact ⟨rfl, by rw [move_pc_self]; rfl⟩
  | removeLease =>
    have hnone : ∀ k st, s.dirs.lookup k = some st → st.owner ≠ p :=
      fun _ _ => (hs p).owns_none hp (by rw [hpc]; rfl)
    dsimp only at h
    split at h
    · next st hst =>
      cases h
      have he : Effect s (s.setDest p { st with lease := false }) p :=
        { hquiet with
          dirs := fun _ => .same rfl
          dest := fun q hq => update_of_ne hq .. }
      refine ⟨he.move _, ⟨by rw [move_pc_self]; trivial, fun k st' hst' ho => absurd ho (hnone k st' hst'),
        fun st' hst' => ?_⟩, iff_of_false (by simp) (not_misses hpc rfl)⟩
      have : (s.setDest p { st with lease := false }).dest p = some { st with lease := false } :=
        update_self ..
      rw [move_dest, this] at hst'
      cases hst'
      exact ⟨((hs p).dest st hst).1, by rw [move_pc_self]; rfl⟩
    · next hst =>
      cases h
      refine ⟨hquiet.move _, ⟨by rw [move_pc_self]; trivial, fun k st' hst' ho => absurd ho (hnone k st' hst'),
        fun st' hst' => ?_⟩, iff_of_false (by simp) (not_misses hpc rfl)⟩
      cases hst.symm.trans hst'
  | makeDir | done | failed | crashed => cases h

/-- A cleanup goes to remove a directory that has been published since it was listed. -/
def Outrun (s : ForkState P D) : ForkAct P D → Prop
  | .go p => s.Misses p
  | _ => False

instance (s : ForkState P D) : (a : ForkAct P D) → Decidable (s.Outrun a)
  | .go p => inferInstanceAs (Decidable ((s.pc p).removes.any _ = true))
  | .makeDir _ _ | .removePart _ | .crash _ => .isFalse not_false

/-- One step of any fork: it keeps the invariant, and the fork fails just when its
    cleanup is outrun. -/
theorem step_good (hs : ∀ q, s.Good q) {a : ForkAct P D} (h : s.step a = some s') :
    Effect s s' a.actor ∧ s'.Good a.actor ∧ (s'.pc a.actor = .failed ↔ s.Outrun a) := by
  cases a with
  | go p => exact goOn_good hs h
  | makeDir p d =>
    simp only [step] at h
    split at h
    · next r hpc =>
      have hk := (hs p).knows
      have hp : s.pc p ≠ .crashed := by simp [hpc]
      rw [hpc] at hk
      split_ifs at h with hnone
      cases h
      have hset : (s.setDir r d ⟨p, false, false⟩).dirs.lookup (r, d) = some ⟨p, false, false⟩ :=
        lookup_insert _
      have he : Effect s (s.setDir r d ⟨p, false, false⟩) p :=
        effect_setDir hp (.make hnone hk.1 fun st' hst' => by
          rw [hset] at hst'
          cases hst'
          rfl)
      refine ⟨he.move _, ⟨by rw [actor, move_pc_self]; exact ⟨hk.1, hset⟩,
        fun k st hst ho => ?_, fun st hst => ?_⟩, iff_of_false (by simp) not_false⟩
      · by_cases hkd : k = (r, d)
        · subst hkd
          exact ⟨.inr (by rw [actor, move_pc_self]; rfl), hk.2⟩
        · have hst' : s.dirs.lookup k = some st := (lookup_insert_ne hkd).symm.trans hst
          exact absurd ho ((hs p).owns_none hp (by rw [hpc]; rfl) hst')
      · cases ((hs p).dest_none (by rw [hpc]; rfl)).symm.trans hst
    · cases h
  | removePart p =>
    simp only [step] at h
    split at h
    · next r d ds rs hpc =>
      obtain ⟨st, hst, rfl⟩ := map_eq_some_iff.1 h
      have hk := (hs p).knows
      have hp : s.pc p ≠ .crashed := by simp [hpc]
      rw [hpc] at hk
      have hset : (s.setDir r d ⟨st.owner, false, false⟩).dirs.lookup (r, d) =
          some ⟨st.owner, false, false⟩ := lookup_insert _
      have he : Effect s (s.setDir r d ⟨st.owner, false, false⟩) p :=
        effect_setDir hp (.sweep st hst (hk.2 st hst) hk.1 fun st' hst' => by
          rw [hset] at hst'
          cases hst'
          rfl)
      refine ⟨he, ⟨?_, fun k st' hst' ho => ?_, (hs p).dest⟩,
        iff_of_false (by simp [setDir, hpc]) not_false⟩
      · show (s.setDir r d ⟨st.owner, false, false⟩).Knows p (s.pc p)
        rw [hpc]
        refine ⟨hk.1, fun st' hst' => ?_⟩
        cases hset.symm.trans hst'
        exact hk.2 st hst
      · have hnew : NoNew s (s.setDir r d ⟨st.owner, false, false⟩) p := noNew_setDir hst rfl
        obtain ⟨st₀, hst₀, ho₀⟩ := hnew k st' hst' ho
        exact (hs p).owns k st₀ hst₀ ho₀
    · cases h
  | crash p =>
    simp only [step] at h
    split_ifs at h with hend
    cases h
    have hp : s.pc p ≠ .crashed := by
      intro hc
      rw [hc] at hend
      exact hend rfl
    have he : Effect s { s with guard := fun r => if s.guard r = some p then none else s.guard r } p :=
      { Effect.refl hp with
        guard := fun r q hq hg => by
          have hne : s.guard r ≠ some p := by
            rw [hg]
            exact fun h => hq (some.inj h)
          exact (if_neg hne).trans hg
        dirs := fun _ => .same rfl }
    refine ⟨he.move _, ⟨by rw [actor, move_pc_self]; trivial, fun k st hst ho => ?_,
      fun st hst => ⟨((hs p).dest st hst).1, ?_⟩⟩, iff_of_false (by simp) not_false⟩
    · exact ⟨.inl (by rw [actor, move_pc_self]), ((hs p).owns k st hst ho).2⟩
    · rw [actor, move_pc_self]
      rfl

theorem good_step (hs : ∀ q, s.Good q) {a : ForkAct P D} (h : s.step a = some s') (q : P) :
    s'.Good q := by
  obtain ⟨he, hg, -⟩ := step_good hs h
  by_cases hq : q = a.actor
  · exact hq ▸ hg
  · exact he.good hq (hs q)

omit [DecidableEq P] in
theorem Initial.good (hs : s.Initial) (p : P) : s.Good p := by
  refine ⟨?_, fun k st hst => ?_, fun st hst => ?_⟩
  · rw [hs.pc]
    trivial
  · rw [hs.dirs, lookup_empty] at hst
    cases hst
  · rw [hs.dest] at hst
    cases hst

end ForkState

end Lnx
