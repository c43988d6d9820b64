import Mathlib.Data.Nat.Notation
import Mathlib.Logic.Function.Basic
import Mathlib.Logic.Relation
import Mathlib.Tactic.Common

/-!
# Transition systems

A system of several processes as one step relation on states: any interleaving
of the processes is a path. `Machine.reachable_inv` derives what holds in every
reachable state from what one step keeps; `along_iff_avoids` tells which runs of a
step function keep a property that not every step keeps; `finishes_of_measure`
shows that runs get done; `forall_update` is for states that hold
one component for each process, of which a step changes one.
-/

namespace Lnx

open Option List

universe u

/-- A step behind a guard that was taken. -/
theorem of_guard {α : Type u} {c : Prop} [Decidable c] {a b : α}
    (h : (if c then some a else none) = some b) : c ∧ a = b := by
  rw [ite_none_right_eq_some] at h
  exact ⟨h.1, some.inj h.2⟩

/-- A transition system. -/
structure Machine (σ : Type u) where
  init : σ → Prop
  next : σ → σ → Prop

namespace Machine

variable {σ : Type u} (M : Machine σ)

/-- The states the system can get into. -/
inductive Reachable : σ → Prop
  | init {s : σ} : M.init s → Reachable s
  | step {s s' : σ} : Reachable s → M.next s s' → Reachable s'

/-- `s'` comes at or after `s` in some run. -/
inductive Later : σ → σ → Prop
  | here (s : σ) : Later s s
  | step {s s' s'' : σ} : Later s s' → M.next s' s'' → Later s s''

variable {M}

theorem Reachable.later {s s' : σ} (h : M.Reachable s) (hl : M.Later s s') : M.Reachable s' := by
  induction hl with
  | here => exact h
  | step _ hn ih => exact ih.step hn

variable {I : σ → Prop}

/-- What holds at the start and is kept by every step from a reachable state holds
    in every reachable state. -/
theorem reachable_inv (hinit : ∀ s, M.init s → I s)
    (hstep : ∀ s s', M.Reachable s → I s → M.next s s' → I s') {s : σ} (h : M.Reachable s) : I s := by
  induction h with
  | init h => exact hinit _ h
  | step h hn ih => exact hstep _ _ h ih hn

/-- What every step from a reachable state keeps holds ever after. -/
theorem later_inv (hstep : ∀ s s', M.Reachable s → I s → M.next s s' → I s') {s s' : σ}
    (hr : M.Reachable s) (h : I s) (hl : M.Later s s') : I s' := by
  induction hl with
  | here => exact h
  | step hl hn ih => exact hstep _ _ (hr.later hl) ih hn

end Machine

/-! ## Systems given by a step function -/

section steps

variable {σ : Type u} {α : Type*} (step : σ → α → Option σ)

/-- `P` holds in every state of the run of the actions `as` from `s`, which ends at
    an action that is not possible. -/
def Along (P : σ → Prop) : σ → List α → Prop
  | s, [] => P s
  | s, a :: as => P s ∧ ∀ s', step s a = some s' → Along P s' as

/-- No action of that run is taken where it is `bad`. -/
def Avoids (bad : σ → α → Prop) : σ → List α → Prop
  | _, [] => True
  | s, a :: as => ∀ s', step s a = some s' → ¬ bad s a ∧ Avoids bad s' as

instance Avoids.decidable {bad : σ → α → Prop} [∀ s a, Decidable (bad s a)] :
    (s : σ) → (as : List α) → Decidable (Avoids step bad s as)
  | _, [] => .isTrue trivial
  | s, a :: as =>
    have (s' : σ) : Decidable (Avoids step bad s' as) := decidable s' as
    inferInstanceAs (Decidable (∀ s' ∈ step s a, ¬ bad s a ∧ Avoids step bad s' as))

/-- The system that takes any of the actions at any time. -/
def Machine.ofStep (init : σ → Prop) : Machine σ where
  init := init
  next s s' := ∃ a, step s a = some s'

variable {step} {s s' : σ} {I P : σ → Prop} {bad : σ → α → Prop} {as : List α}

/-- If an action breaks `P` just when it is `bad`, a run keeps `P` just when it avoids
    such actions. `I` is an invariant of all runs. -/
theorem along_iff_avoids (hI : ∀ s a s', I s → step s a = some s' → I s')
    (hP : ∀ s a s', I s → P s → step s a = some s' → (P s' ↔ ¬ bad s a)) (hs : I s) (hp : P s)
    (as : List α) : Along step P s as ↔ Avoids step bad s as := by
  induction as generalizing s with
  | nil => exact iff_of_true hp trivial
  | cons a as ih =>
    constructor
    · rintro ⟨-, h⟩ s' hs'
      have hp' : P s' := by
        have := h s' hs'
        cases as with
        | nil => exact this
        | cons b bs => exact this.1
      exact ⟨(hP s a s' hs hp hs').1 hp', (ih (hI s a s' hs hs') hp').1 (h s' hs')⟩
    · intro h
      refine ⟨hp, fun s' hs' => ?_⟩
      obtain ⟨hb, ha⟩ := h s' hs'
      exact (ih (hI s a s' hs hs') ((hP s a s' hs hp hs').2 hb)).2 ha

/-- What the actions that are not `bad` keep holds along runs that avoid those. -/
theorem along_of_avoids (hI : ∀ s a s', I s → ¬ bad s a → step s a = some s' → I s') (hs : I s)
    (h : Avoids step bad s as) : Along step I s as := by
  induction as generalizing s with
  | nil => exact hs
  | cons a as ih =>
    refine ⟨hs, fun s' hs' => ?_⟩
    obtain ⟨hb, ha⟩ := h s' hs'
    exact ih (hI s a s' hs hb hs') ha

/-- A run along which `P` holds has no action that breaks it. -/
theorem avoids_of_along (hbad : ∀ s a s', step s a = some s' → P s' → ¬ bad s a)
    (h : Along step P s as) : Avoids step bad s as := by
  induction as generalizing s with
  | nil => trivial
  | cons a as ih =>
    intro s' hs'
    have hrest := h.2 s' hs'
    have hp : P s' := by
      cases as with
      | nil => exact hrest
      | cons b bs => exact hrest.1
    exact ⟨hbad s a s' hs' hp, ih hrest⟩

theorem avoids_of_forall (h : ∀ a ∈ as, ∀ s, ¬ bad s a) (s : σ) : Avoids step bad s as := by
  induction as generalizing s with
  | nil => trivial
  | cons a as ih =>
    exact fun s' _ => ⟨h a mem_cons_self s, ih (fun b hb => h b (mem_cons_of_mem a hb)) s'⟩

theorem Along.mono {Q : σ → Prop} (h : ∀ s, P s → Q s) (ha : Along step P s as) :
    Along step Q s as := by
  induction as generalizing s with
  | nil => exact h s ha
  | cons a as ih => exact ⟨h s ha.1, fun s' hs' => ih (ha.2 s' hs')⟩

theorem Along.last (h : Along step P s as) (hr : as.foldlM step s = some s') : P s' := by
  induction as generalizing s with
  | nil =>
    cases hr
    exact h
  | cons a as ih =>
    obtain ⟨t, ht, hr⟩ := bind_eq_some_iff.1 hr
    exact ih (h.2 t ht) hr

/-- What every action keeps, a run keeps. -/
theorem run_inv (hI : ∀ s a s', I s → step s a = some s' → I s') (h : I s)
    (hr : as.foldlM step s = some s') : I s' := by
  induction as generalizing s with
  | nil =>
    cases hr
    exact h
  | cons a as ih =>
    obtain ⟨t, ht, hr⟩ := bind_eq_some_iff.1 hr
    exact ih (hI s a t h ht) hr

/-- If only a `bad` action breaks `P`, and then into something that lasts, a run ends in `P`
    just when it has no such action. -/
theorem last_iff_avoids {W : σ → Prop} (hI : ∀ s a s', I s → step s a = some s' → I s')
    (hkeep : ∀ s a s', I s → P s → ¬ bad s a → step s a = some s' → P s')
    (hbreak : ∀ s a s', I s → bad s a → step s a = some s' → W s')
    (hlast : ∀ s a s', I s → W s → step s a = some s' → W s') (hno : ∀ s, I s → W s → ¬ P s)
    (hs : I s) (hp : P s) (hr : as.foldlM step s = some s') :
    P s' ↔ Avoids step bad s as := by
  induction as generalizing s with
  | nil =>
    cases hr
    exact iff_of_true hp trivial
  | cons a as ih =>
    rw [foldlM_cons, bind_eq_bind, bind_eq_some_iff] at hr
    obtain ⟨t, ht, hr⟩ := hr
    have hIt := hI s a t hs ht
    have havoids : Avoids step bad s (a :: as) ↔ ¬ bad s a ∧ Avoids step bad t as := by
      constructor
      · intro h
        exact h t ht
      · intro h u hu
        rw [ht] at hu
        cases hu
        exact h
    rw [havoids]
    by_cases hb : bad s a
    · have hend : I s' ∧ W s' :=
        run_inv (I := fun s => I s ∧ W s)
          (fun s a s' h hstep => ⟨hI s a s' h.1 hstep, hlast s a s' h.1 h.2 hstep⟩)
          ⟨hIt, hbreak s a t hs hb ht⟩ hr
      exact iff_of_false (hno s' hend.1 hend.2) fun h => h.1 hb
    · rw [ih hIt (hkeep s a t hs hp hb ht) hr]
      exact (and_iff_right hb).symm

/-- A run of the step function is a path. -/
theorem Machine.Later.run {init : σ → Prop} (as : List α) (hr : as.foldlM step s = some s') :
    (Machine.ofStep step init).Later s s' := by
  suffices ∀ t, (Machine.ofStep step init).Later t s → (Machine.ofStep step init).Later t s' from
    this s (.here s)
  intro t h
  induction as generalizing s with
  | nil =>
    cases hr
    exact h
  | cons a as ih =>
    obtain ⟨t', ht', hr⟩ := bind_eq_some_iff.1 hr
    exact ih hr (.step h ⟨a, ht'⟩)

/-! ### Getting done -/

variable (step) in
/-- `s'` comes after `s` in a run with `n` actions that are not `idle`. -/
inductive Busy (idle : σ → α → Prop) (s : σ) : ℕ → σ → Prop
  | here : Busy idle s 0 s
  | idle {n : ℕ} {t u : σ} {a : α} : Busy idle s n t → idle t a → step t a = some u → Busy idle s n u
  | work {n : ℕ} {t u : σ} {a : α} : Busy idle s n t → ¬ idle t a → step t a = some u →
      Busy idle s (n + 1) u

variable (step) in
/-- Every run from `s` gets done, unless it is spent on idle actions: there is a bound on
    the actions that are not, and one of those is possible until the run is `done`. -/
structure Finishes (idle : σ → α → Prop) (done : σ → Prop) (s : σ) : Prop where
  bounded : ∃ N, ∀ n t, Busy step idle s n t → n ≤ N
  live : ∀ n t, Busy step idle s n t → ¬ done t → ∃ a u, ¬ idle t a ∧ step t a = some u

/-- Along a measure that idle actions do not raise and all others lower. -/
theorem finishes_of_measure {idle : σ → α → Prop} {done : σ → Prop} (μ : σ → ℕ)
    (hI : ∀ s a s', I s → step s a = some s' → I s')
    (hμ : ∀ s a s', I s → step s a = some s' → μ s' < μ s ∨ (idle s a ∧ μ s' ≤ μ s))
    (hlive : ∀ s, I s → ¬ done s → ∃ a s', ¬ idle s a ∧ step s a = some s') (hs : I s) :
    Finishes step idle done s := by
  have hbusy : ∀ n t, Busy step idle s n t → I t ∧ n + μ t ≤ μ s := by
    intro n t h
    induction h with
    | here => exact ⟨hs, by omega⟩
    | idle _ hi hstep ih =>
      have := hμ _ _ _ ih.1 hstep
      exact ⟨hI _ _ _ ih.1 hstep, by omega⟩
    | work _ hw hstep ih =>
      have := (hμ _ _ _ ih.1 hstep).resolve_right fun h => hw h.1
      exact ⟨hI _ _ _ ih.1 hstep, by omega⟩
  refine ⟨⟨μ s, fun n t h => ?_⟩, fun n t h hd => hlive t (hbusy n t h).1 hd⟩
  have := (hbusy n t h).2
  omega

/-- Where a measure decreases, one comes to a state that cannot go on. -/
theorem exists_stuck {R : σ → σ → Prop} (μ : σ → ℕ) (hI : ∀ s s', I s → R s s' → I s')
    (hR : ∀ s s', I s → R s s' → μ s' < μ s) (hs : I s) :
    ∃ t, I t ∧ Relation.ReflTransGen R s t ∧ ∀ u, ¬ R t u := by
  induction hn : μ s using Nat.strongRecOn generalizing s with
  | ind n ih =>
    by_cases hstuck : ∀ u, ¬ R s u
    · exact ⟨s, hs, .refl, hstuck⟩
    · push Not at hstuck
      obtain ⟨u, hu⟩ := hstuck
      obtain ⟨t, ht, hut, hno⟩ := ih (μ u) (hn ▸ hR s u hs hu) (hI s u hs hu) rfl
      exact ⟨t, ht, .head hu hut, hno⟩

end steps

/-- What holds of every component and of the new one holds after an update. -/
theorem forall_update {ι : Type*} {α : Type*} [DecidableEq ι] {P : ι → α → Prop} {f : ι → α} {i : ι}
    {a : α} (hf : ∀ j, j ≠ i → P j (f j)) (ha : P i a) : ∀ j, P j (Function.update f i a j) := by
  intro j
  by_cases h : j = i
  · subst h
    rwa [Function.update_self]
  · rw [Function.update_of_ne h]
    exact hf j h

end Lnx
