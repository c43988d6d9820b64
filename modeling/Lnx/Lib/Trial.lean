import Mathlib.Data.Nat.Notation

/-!
# Steps that may fail

A step reads and changes a state and returns a value or an error. What it changed before an
error stays.

* `Trial.bind_ok`, `Trial.bind_error`: a sequence, once its first step is known.
* `Trial.bind_eq_ok`: a sequence that returns.
-/

namespace Lnx

/-- A step over states `σ` with errors `ε`. -/
def Trial (ε σ α : Type) := σ → Except ε α × σ

namespace Trial

variable {ε σ α β : Type}

instance : Monad (Trial ε σ) where
  pure a := fun s => (.ok a, s)
  bind x f := fun s => match x s with
    | (.ok a, s') => f a s'
    | (.error e, s') => (.error e, s')

/-- Fail. -/
def fail (e : ε) : Trial ε σ α := fun s => (.error e, s)

/-- Read the state. -/
def ask (f : σ → Except ε α) : Trial ε σ α := fun s => (f s, s)

/-- Change the state. -/
def edit (f : σ → σ) : Trial ε σ Unit := fun s => (.ok (), f s)

@[simp] theorem pure_apply (a : α) (s : σ) : (pure a : Trial ε σ α) s = (.ok a, s) := rfl

@[simp] theorem ask_apply (f : σ → Except ε α) (s : σ) : ask f s = (f s, s) := rfl

@[simp] theorem edit_apply (f : σ → σ) (s : σ) : (edit f : Trial ε σ Unit) s = (.ok (), f s) := rfl

/-- Go on with an answer. -/
def next (r : Except ε α) (f : α → Trial ε σ β) (s : σ) : Except ε β × σ :=
  match r with
  | .ok a => f a s
  | .error e => (.error e, s)

@[simp] theorem next_ok (a : α) (f : α → Trial ε σ β) (s : σ) : next (.ok a) f s = f a s := rfl

theorem bind_ask (f : σ → Except ε α) (g : α → Trial ε σ β) (s : σ) :
    (ask f >>= g) s = next (f s) g s := by
  change (match ask f s with
    | (.ok a, s') => g a s'
    | (.error e, s') => (.error e, s')) = _
  rw [ask_apply]
  cases f s <;> rfl

theorem bind_edit (f : σ → σ) (g : Unit → Trial ε σ β) (s : σ) : (edit f >>= g) s = g () (f s) := rfl

variable {x : Trial ε σ α} {f : α → Trial ε σ β} {s : σ}

theorem bind_ok {s' : σ} {a : α} (h : x s = (.ok a, s')) : (x >>= f) s = f a s' := by
  change (match x s with
    | (.ok a, s') => f a s'
    | (.error e, s') => (.error e, s')) = _
  rw [h]

theorem bind_error {s' : σ} {e : ε} (h : x s = (.error e, s')) : (x >>= f) s = (.error e, s') := by
  change (match x s with
    | (.ok a, s') => f a s'
    | (.error e, s') => (.error e, s')) = _
  rw [h]

theorem bind_eq_ok {s'' : σ} {b : β} :
    (x >>= f) s = (.ok b, s'') ↔ ∃ a s', x s = (.ok a, s') ∧ f a s' = (.ok b, s'') := by
  constructor
  · intro h
    rcases hx : x s with ⟨r, s'⟩
    cases r with
    | error e =>
      rw [bind_error hx] at h
      cases h
    | ok a =>
      rw [bind_ok hx] at h
      exact ⟨a, s', rfl, h⟩
  · rintro ⟨a, s', hx, hf⟩
    rw [bind_ok hx, hf]

end Trial

end Lnx
