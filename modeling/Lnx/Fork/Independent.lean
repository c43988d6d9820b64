import Lnx.Fork.Staged

/-!
# Concurrent forks and their independence

* A step of one fork leaves the directory and the destination of every other that
  has not crashed as they are (`Spares`).
* What stands at a destination is a complete instance (`Whole`).
* A cleanup that starts after a fork has crashed, and comes to its end, leaves no
  staging directory of that fork (`Cleans`).
* A cleanup can fail because another fork has published in the meantime: it takes the
  lease that it no longer finds for one that was never made, or the lease that it can
  lock for one of a crashed fork, and goes to remove a directory that has become the
  instance. `forks_independent_iff` says that no fork of a run fails just when this
  does not happen.
-/

namespace Lnx.ForkState

open AList ForkState Option List

variable {P D : Type} [DecidableEq P] [DecidableEq D] {s s' : ForkState P D} {p q : P}

/-! ## Crashed forks are cleaned up -/

/-- A cleanup has yet to come to the directory `d` of the crashed fork `q` in the root
    `r`. -/
def Awaits (q : P) (r : ℕ) (d : D) : ForkPc P D → Prop
  | .start | .failed | .crashed => True
  | .cleanup (.sweep rs) => r ∈ rs
  | .cleanup (.holding r' rs) => r' = r ∨ r ∈ rs
  | .cleanup (.scan r' ds rs) => (r' = r ∧ d ∈ ds) ∨ r ∈ rs
  | .cleanup (.opened r' d' lease ds rs) =>
    (r' = r ∧ ((d' = d ∧ (lease = none ∨ lease = some q)) ∨ d ∈ ds)) ∨ r ∈ rs
  | .cleanup (.removing r' d' ds rs) => (r' = r ∧ (d' = d ∨ d ∈ ds)) ∨ r ∈ rs
  | _ => False

/-- The fork `q` has crashed, and the cleanup of `p` has yet to come to each of its
    directories that is still there. -/
def Clears (s : ForkState P D) (p q : P) : Prop :=
  s.pc q = .crashed ∧ ∀ r d st, s.dirs.lookup (r, d) = some st → st.owner = q → Awaits q r d (s.pc p)

variable {r : ℕ} {d : D} {st : Staging P}

omit [DecidableEq P] in
theorem mem_entries (h : s.dirs.lookup (r, d) = some st) : d ∈ s.entries r := by
  have hk : (r, d) ∈ s.dirs.keys := by
    refine AList.mem_keys.1 (lookup_isSome.1 ?_)
    rw [h]
    rfl
  exact mem_map.2 ⟨(r, d), mem_filter.2 ⟨hk, by simp⟩, rfl⟩

theorem cleanupStep_awaits {c : Cleanup P D} (hq : s.pc q = .crashed)
    (hst : s.dirs.lookup (r, d) = some st) (ho : st.owner = q) (hr : r ∈ s.forkRoots)
    (hw : Awaits q r d (.cleanup c)) (h : s.cleanupStep p c = some s')
    (hst' : s'.dirs.lookup (r, d) ≠ none) : Awaits q r d (s'.pc p) := by
  cases c with
  | sweep rs =>
    cases rs with
    | nil => exact absurd hw not_mem_nil
    | cons r' rs =>
      simp only [cleanupStep] at h
      split at h
      · split at h
        · cases h
          rw [move_pc_self]
          exact (mem_cons.1 hw).imp_left Eq.symm
        · cases h
      · next hno =>
        cases h
        rw [move_pc_self]
        refine (mem_cons.1 hw).resolve_left ?_
        rintro rfl
        exact hno hr
  | holding r' rs =>
    cases h
    rw [move_pc_self]
    refine hw.imp_left ?_
    rintro rfl
    exact ⟨rfl, mem_entries hst⟩
  | scan r' ds rs =>
    cases ds with
    | nil =>
      cases h
      rw [move_pc_self]
      exact hw.resolve_left fun h => not_mem_nil h.2
    | cons d' ds =>
      cases h
      rw [move_pc_self]
      refine hw.imp_left ?_
      rintro ⟨rfl, hd⟩
      refine ⟨rfl, (mem_cons.1 hd).imp_left ?_⟩
      rintro rfl
      refine ⟨rfl, ?_⟩
      simp only [openLease, hst, bind_some]
      split
      · exact .inr (congrArg some ho)
      · exact .inl rfl
  | opened r' d' lease ds rs =>
    simp only [cleanupStep] at h
    split at h
    · -- a lease that its owner has locked is not one of a crashed fork
      next hl =>
      cases h
      rw [move_pc_self]
      refine hw.imp_left fun hw => ⟨hw.1, hw.2.resolve_left ?_⟩
      rintro ⟨-, rfl | rfl⟩
      · cases hl
      · rw [any_some, hq] at hl
        cases hl
    · cases h
      rw [move_pc_self]
      exact hw.imp_left fun hw => ⟨hw.1, hw.2.imp_left And.left⟩
  | removing r' d' ds rs =>
    simp only [cleanupStep] at h
    split at h
    · cases h
      rw [move_pc_self]
      refine hw.imp_left fun hw => ⟨hw.1, hw.2.resolve_left ?_⟩
      rintro rfl
      obtain rfl := hw.1
      exact hst' (lookup_erase _ _)
    · cases h
      rw [move_pc_self]
      trivial

/-- A fork that does not wait for the directory, having cleaned up, does not come to
    wait for it. -/
theorem goOn_awaits (hs : ∀ q, s.Good q) (hq : s.pc q = .crashed)
    (hst : s.dirs.lookup (r, d) = some st) (ho : st.owner = q) (hw : Awaits q r d (s.pc p))
    (h : s.goOn p = some s') (hst' : s'.dirs.lookup (r, d) ≠ none) :
    Awaits q r d (s'.pc p) := by
  obtain ⟨-, hm, hr⟩ := (hs q).owns _ st hst ho
  cases hpc : s.pc p with
  | start =>
    rw [goOn, hpc] at h
    cases h
    rw [move_pc_self]
    exact (mem_insertionSort _).2 hm
  | cleanup c =>
    rw [goOn, hpc] at h
    exact cleanupStep_awaits hq hst ho hr (hpc ▸ hw) h hst'
  | failed | crashed =>
    rw [goOn, hpc] at h
    cases h
  | findRoot | tryRoot | markRoot | createForkRoot | lockRoot | makeDir | makeLease | lockLease
    | dropGuard | «export» | publish | removeLease | done =>
    rw [hpc] at hw
    exact hw.elim

variable {a : ForkAct P D}

theorem Clears.step (hs : ∀ q, s.Good q) (hc : s.Clears p q) (h : s.step a = some s') :
    s'.Clears p q := by
  obtain ⟨he, -, -⟩ := step_good hs h
  have hqa : q ≠ a.actor := by
    rintro rfl
    exact he.acts hc.1
  refine ⟨he.crashed hc.1, fun r d st' hst' ho' => ?_⟩
  obtain ⟨st, hst, ho⟩ := he.was hqa hst' ho'
  have hw := hc.2 r d st hst ho
  by_cases hpa : p = a.actor
  · cases a with
    | go p' =>
      obtain rfl : p = p' := hpa
      exact goOn_awaits hs hc.1 hst ho hw h (by simp [hst'])
    | makeDir p' d' =>
      obtain rfl : p = p' := hpa
      simp only [step] at h
      split at h
      · next hpc =>
        rw [hpc] at hw
        exact hw.elim
      · cases h
    | removePart p' =>
      simp only [step] at h
      split at h
      · obtain ⟨-, -, rfl⟩ := map_eq_some_iff.1 h
        exact hw
      · cases h
    | crash p' =>
      obtain rfl : p = p' := hpa
      simp only [step] at h
      split_ifs at h
      cases h
      rw [move_pc_self]
      trivial
  · rw [he.pc p hpa]
    exact hw

/-! ## Cleanups that are not outrun -/

/-- A fork publishes a directory that a cleanup has listed and not yet dealt with. -/
def Overtakes (s : ForkState P D) : ForkAct P D → Prop
  | .go q => ∃ r d, s.pc q = .publish r d ∧ ∃ p ds, (s.pc p).pending = some (r, ds) ∧ d ∈ ds
  | _ => False

/-- All that the cleanups have yet to deal with is still there. -/
def AllThere (s : ForkState P D) : Prop :=
  ∀ p r ds, (s.pc p).pending = some (r, ds) → ds.Nodup ∧ ∀ d ∈ ds, s.dirs.lookup (r, d) ≠ none

omit [DecidableEq P] in
theorem AllThere.not_misses (ha : s.AllThere) (p : P) : ¬ s.Misses p := by
  intro hm
  rw [Misses, Option.any_eq_true] at hm
  obtain ⟨⟨r, d⟩, hk, hnone⟩ := hm
  obtain ⟨ds, hpend⟩ := ForkPc.pending_of_removes hk
  exact (ha p r (d :: ds) hpend).2 d mem_cons_self (isNone_iff_eq_none.1 hnone)

omit [DecidableEq P] in
theorem entries_there (s : ForkState P D) (r : ℕ) :
    (s.entries r).Nodup ∧ ∀ d ∈ s.entries r, s.dirs.lookup (r, d) ≠ none := by
  constructor
  · have hkeys : s.dirs.keys.Nodup := s.dirs.nodupKeys
    refine List.Nodup.map_on ?_ (hkeys.filter _)
    rintro ⟨r₁, d₁⟩ h₁ ⟨r₂, d₂⟩ h₂ rfl
    simp only [mem_filter, decide_eq_true_eq] at h₁ h₂
    rw [h₁.2, h₂.2]
  · intro d hd
    obtain ⟨⟨r', d'⟩, hk, rfl⟩ := mem_map.1 hd
    obtain ⟨hmem, hr⟩ := mem_filter.1 hk
    obtain rfl : r' = r := by simpa using hr
    rw [ne_eq, lookup_eq_none, not_not]
    exact AList.mem_keys.2 hmem

variable {ds : List D}

omit [DecidableEq P] in
/-- A cleanup has the guard of the root whose entries it deals with. -/
theorem Good.guard_pending (hg : s.Good p) (h : (s.pc p).pending = some (r, ds)) :
    s.guard r = some p := by
  have hk := hg.knows
  cases hpc : s.pc p with
  | cleanup c =>
    rw [hpc] at h hk
    cases c with
    | sweep | holding => cases h
    | scan =>
      cases h
      exact hk
    | removing =>
      cases h
      exact hk.1
    | opened r d lease ds rs =>
      cases h
      cases lease with
      | none | some q => exact hk.1
  | start | findRoot | tryRoot | markRoot | createForkRoot | lockRoot | makeDir | makeLease | lockLease
    | dropGuard | «export» | publish | removeLease | done | failed | crashed =>
    rw [hpc] at h
    cases h

/-- What `p` does next to the list of its own cleanup. -/
theorem cleanupStep_pending {c : Cleanup P D} (hc : s.pc p = .cleanup c) (ha : s.AllThere)
    (h : s.cleanupStep p c = some s') (hp : (s'.pc p).pending = some (r, ds)) :
    ds.Nodup ∧ ∀ d ∈ ds, s'.dirs.lookup (r, d) ≠ none := by
  have hold := ha p
  rw [hc] at hold
  cases c with
  | sweep rs =>
    cases rs with
    | nil =>
      cases h
      rw [move_pc_self] at hp
      cases hp
    | cons r' rs =>
      simp only [cleanupStep] at h
      split_ifs at h
      · cases h
        rw [move_pc_self] at hp
        cases hp
      · cases h
        rw [move_pc_self] at hp
        cases hp
  | holding r' rs =>
    cases h
    rw [move_pc_self] at hp
    cases hp
    exact entries_there s r
  | scan r' ds' rs =>
    cases ds' with
    | nil =>
      cases h
      rw [move_pc_self] at hp
      cases hp
    | cons d ds' =>
      cases h
      rw [move_pc_self] at hp
      cases hp
      exact hold _ _ rfl
  | opened r' d lease ds' rs =>
    obtain ⟨hnd, hall⟩ := hold _ _ rfl
    simp only [cleanupStep] at h
    split at h
    · cases h
      rw [move_pc_self] at hp
      cases hp
      exact ⟨hnd.of_cons, fun d' hd' => hall d' (mem_cons_of_mem _ hd')⟩
    · cases h
      rw [move_pc_self] at hp
      cases hp
      exact ⟨hnd, hall⟩
  | removing r' d ds' rs =>
    obtain ⟨hnd, hall⟩ := hold _ _ rfl
    simp only [cleanupStep] at h
    split at h
    · cases h
      rw [move_pc_self] at hp
      cases hp
      refine ⟨hnd.of_cons, fun d' hd' => ?_⟩
      have hne : (r, d') ≠ (r, d) := by
        intro heq
        cases heq
        exact (nodup_cons.1 hnd).1 hd'
      rw [move_dirs, removeDir, lookup_erase_ne hne]
      exact hall d' (mem_cons_of_mem _ hd')
    · cases h
      rw [move_pc_self] at hp
      cases hp

theorem goOn_pending (ha : s.AllThere) (h : s.goOn p = some s')
    (hp : (s'.pc p).pending = some (r, ds)) :
    ds.Nodup ∧ ∀ d ∈ ds, s'.dirs.lookup (r, d) ≠ none := by
  by_cases hcl : ∃ c, s.pc p = .cleanup c
  · obtain ⟨c, hc⟩ := hcl
    rw [goOn, hc] at h
    exact cleanupStep_pending hc ha h hp
  · -- outside its cleanup a fork lists nothing
    have hnone : (s'.pc p).pending = none := by
      cases hpc : s.pc p with
      | cleanup c => exact absurd ⟨c, hpc⟩ hcl
      | start | markRoot | createForkRoot | lockLease | dropGuard =>
        rw [goOn, hpc] at h
        cases h
        rw [move_pc_self]
        rfl
      | findRoot | makeLease | «export» | publish | removeLease | tryRoot | lockRoot =>
        simp only [goOn, hpc] at h
        repeat' split at h
        all_goals cases h
        all_goals
          rw [move_pc_self]
          rfl
      | makeDir | done | failed | crashed =>
        rw [goOn, hpc] at h
        cases h
    rw [hnone] at hp
    cases hp

theorem AllThere.step (hs : ∀ q, s.Good q) (ha : s.AllThere) (hno : ¬ s.Overtakes a)
    (h : s.step a = some s') : s'.AllThere := by
  obtain ⟨he, -, -⟩ := step_good hs h
  intro p r ds hp
  by_cases hpa : p = a.actor
  · cases a with
    | go p' =>
      obtain rfl : p = p' := hpa
      exact goOn_pending ha h hp
    | makeDir p' d' =>
      obtain rfl : p = p' := hpa
      simp only [step] at h
      split at h
      · split_ifs at h
        cases h
        rw [move_pc_self] at hp
        cases hp
      · cases h
    | removePart p' =>
      simp only [step] at h
      split at h
      · next r' d' ds' rs' hpc =>
        obtain ⟨st, hst, rfl⟩ := map_eq_some_iff.1 h
        obtain ⟨hnd, hall⟩ := ha p r ds hp
        refine ⟨hnd, fun d hd => ?_⟩
        by_cases hk : (r, d) = (r', d')
        · rw [hk, setDir, lookup_insert]
          simp
        · rw [setDir, lookup_insert_ne hk]
          exact hall d hd
      · cases h
    | crash p' =>
      obtain rfl : p = p' := hpa
      simp only [step] at h
      split_ifs at h
      cases h
      rw [move_pc_self] at hp
      cases hp
  · rw [he.pc p hpa] at hp
    obtain ⟨hnd, hall⟩ := ha p r ds hp
    have hguard := (hs p).guard_pending hp
    refine ⟨hnd, fun d hd => ?_⟩
    rcases he.dirs (r, d) with hsame | ⟨st, -, -, -, hgone⟩ | ⟨hnone, -, -⟩ | ⟨-, -, -, hg, -⟩
    · rw [hsame]
      exact hall d hd
    · -- only the rename takes a directory away that is not stale
      intro hnone
      have hpub : s.pc a.actor = .publish r d := hgone hnone
      cases a with
      | go q => exact hno ⟨r, d, hpub, p, ds, hp, hd⟩
      | makeDir q d' | removePart q =>
        simp only [step, show s.pc q = _ from hpub] at h
        cases h
      | crash q =>
        simp only [step] at h
        split_ifs at h
        cases h
        exact hall d hd hnone
    · exact absurd hnone (hall d hd)
    · exact absurd (some.inj (hguard.symm.trans hg)) hpa

/-! ## Independence -/

/-- No step deletes or changes anything of another fork that has not crashed. -/
def Spares (s : ForkState P D) : Prop :=
  ∀ a s', s.step a = some s' → ∀ q, q ≠ a.actor → s'.dest q = s.dest q ∧
    (s.pc q ≠ .crashed → ∀ k st, s.dirs.lookup k = some st → st.owner = q → s'.dirs.lookup k = some st)

/-- What stands at a destination is a complete instance. -/
def Whole (s : ForkState P D) : Prop :=
  ∀ p st, s.dest p = some st → st.complete = true

/-- After a fork has crashed, a cleanup that starts and comes to its end leaves no
    directory of that fork. -/
def Cleans (s : ForkState P D) : Prop :=
  ∀ p q, s.pc q = .crashed → s.pc p = .start → ∀ bs : List (ForkAct P D),
    Along step (fun s' => (s'.pc p).cleaned = true → ∀ k st, s'.dirs.lookup k = some st → st.owner ≠ q)
      s bs

/-- No fork has failed. -/
def Unfailed (s : ForkState P D) : Prop :=
  ∀ p, s.pc p ≠ .failed

theorem spares (hs : ∀ q, s.Good q) : s.Spares := by
  intro a s' h q hq
  obtain ⟨he, -, -⟩ := step_good hs h
  exact ⟨he.dest q hq, fun hc k st hk ho => he.dir_eq hq hc hk ho⟩

omit [DecidableEq P] [DecidableEq D] in
theorem not_awaits_of_cleaned {c : ForkPc P D} (hc : c.cleaned = true) (r : ℕ) (d : D) :
    ¬ Awaits q r d c := by
  cases c with
  | start | cleanup | failed | crashed => cases hc
  | findRoot | tryRoot | markRoot | createForkRoot | lockRoot | makeDir | makeLease | lockLease
    | dropGuard | «export» | publish | removeLease | done => exact id

theorem cleans (hs : ∀ q, s.Good q) : s.Cleans := by
  intro p q hq hp bs
  have hclears : s.Clears p q := ⟨hq, fun r d st _ _ => by
    rw [hp]
    trivial⟩
  have hany : Avoids step (fun _ _ => False) s bs := avoids_of_forall (fun _ _ _ => not_false) _
  have hrun : Along step (fun s : ForkState P D => (∀ q, s.Good q) ∧ s.Clears p q) s bs :=
    along_of_avoids (fun t a t' hi _ ht => ⟨good_step hi.1 ht, hi.2.step hi.1 ht⟩) ⟨hs, hclears⟩ hany
  refine hrun.mono fun t ht hc k st hk ho => ?_
  exact not_awaits_of_cleaned hc k.1 k.2 (ht.2.2 k.1 k.2 st hk ho)

theorem unfailed_step (hs : ∀ q, s.Good q) (hu : s.Unfailed) (h : s.step a = some s') :
    s'.Unfailed ↔ ¬ s.Outrun a := by
  obtain ⟨he, -, hfail⟩ := step_good hs h
  rw [← hfail]
  constructor
  · exact fun hu' => hu' a.actor
  · intro hne p
    by_cases hp : p = a.actor
    · exact hp ▸ hne
    · rw [he.pc p hp]
      exact hu p

end Lnx.ForkState

namespace Lnx

open ForkState

variable {P D : Type} [DecidableEq P] [DecidableEq D]

/-- Any number of forks below one instances root, each with a destination of its own,
    take their steps and crash in any order. No step touches what another fork has that
    has not crashed, what stands at a destination is complete, and a cleanup that starts
    after a crash and comes to its end leaves nothing of the crashed fork. No fork fails
    if and only if no cleanup goes to remove a directory that has been published since
    the cleanup listed it; this does not happen in runs in which nobody publishes a
    directory that a cleanup has listed and not yet dealt with. -/
theorem forks_independent_iff {s : ForkState P D} (hs : s.Initial) (as : List (ForkAct P D)) :
    Along step (fun s => s.Spares ∧ s.Whole ∧ s.Cleans) s as ∧
      (Along step Unfailed s as ↔ Avoids step Outrun s as) ∧
      (Avoids step Overtakes s as → Along step Unfailed s as) := by
  have hgood : ∀ q, s.Good q := hs.good
  have hu : s.Unfailed := fun p => by
    rw [hs.pc p]
    simp
  refine ⟨?_, ?_, fun hav => ?_⟩
  · have hany : Avoids step (fun _ _ => False) s as := avoids_of_forall (fun _ _ _ => not_false) _
    have hrun : Along step (fun s : ForkState P D => ∀ q, s.Good q) s as :=
      along_of_avoids (fun t a t' hi _ ht => good_step hi ht) hgood hany
    exact hrun.mono fun t ht => ⟨spares ht, fun p st hst => ((ht p).dest st hst).1, cleans ht⟩
  · exact along_iff_avoids (fun t a t' hi ht => good_step hi ht)
      (fun t a t' hi hut ht => unfailed_step hi hut ht) hgood hu as
  · have hall : s.AllThere := fun p r ds hp => by
      rw [hs.pc p] at hp
      cases hp
    have hrun : Along step (fun s : ForkState P D => (∀ q, s.Good q) ∧ s.AllThere ∧ s.Unfailed) s as := by
      refine along_of_avoids (fun t a t' hi hno ht => ?_) ⟨hgood, hall, hu⟩ hav
      obtain ⟨hg, ha, hut⟩ := hi
      refine ⟨good_step hg ht, ha.step hg hno ht, (unfailed_step hg hut ht).2 ?_⟩
      cases a with
      | go p => exact ha.not_misses p
      | makeDir | removePart | crash => exact not_false
    exact hrun.mono fun _ h => h.2.2

/-- Nobody at work, and no transaction root yet. -/
def freshRoot : ForkState Bool Unit :=
  ⟨[], [], [], fun _ => none, ∅, fun _ => none, fun _ => .start⟩

theorem freshRoot_initial : freshRoot.Initial :=
  ⟨fun _ => rfl, rfl, fun _ => rfl, fun _ => rfl⟩

/-- The steps of a fork that meets nobody, up to the rename. -/
def stageSteps (p : Bool) : List (ForkAct Bool Unit) :=
  [.go p, .go p, .go p, .go p, .go p, .go p, .go p, .makeDir p (), .go p, .go p, .go p, .go p]

/-- Another fork begins its cleanup and lists the staging directory; then the first one
    publishes, and the other looks for the lease. -/
def outrunSteps : List (ForkAct Bool Unit) :=
  stageSteps false ++ [.go true, .go true, .go true, .go false, .go true, .go true, .go true]

/-- That fork fails, on account of the one that has published. -/
theorem fork_may_fail_another : freshRoot.Initial ∧
    (outrunSteps.foldlM ForkState.step freshRoot).map (fun s => (s.pc false, s.pc true)) =
      some (.removeLease, .failed) := by
  refine ⟨freshRoot_initial, ?_⟩
  decide

/-- A fork that meets nobody does not fail. -/
theorem forks_independent_alone :
    Along ForkState.step Unfailed freshRoot (stageSteps false ++ [.go false, .go false]) := by
  refine (forks_independent_iff freshRoot_initial _).2.1.2 ?_
  decide

end Lnx
