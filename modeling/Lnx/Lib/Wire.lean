import Mathlib.Data.List.Basic

/-!
# Byte forms that can be read back

A `Wire α` writes values of `α` as bytes such that reading finds the value again
and where it ended. Wires are built from the wire of natural numbers by pairing,
listing and embedding one type in another.
-/

namespace Lnx

open List

/-- A self-delimiting byte form of a type. -/
structure Wire (α : Type) where
  put : α → List UInt8
  get : List UInt8 → Option (α × List UInt8)
  get_put : ∀ a rest, get (put a ++ rest) = some (a, rest)

namespace Wire

variable {α β : Type}

/-- Read a natural number: ones up to the first zero. -/
def getNat : List UInt8 → Option (ℕ × List UInt8)
  | [] => none
  | b :: bs => if b = 0 then some (0, bs) else (getNat bs).map fun r => (r.1 + 1, r.2)

/-- Natural numbers, in unary. -/
def nat : Wire ℕ where
  put n := List.replicate n 1 ++ [0]
  get := getNat
  get_put n rest := by
    induction n with
    | zero => simp [getNat]
    | succ n ih =>
      rw [replicate_succ, cons_append, cons_append, getNat, ih]
      simp

/-- Nothing. -/
def unit : Wire Unit where
  put _ := []
  get bs := some ((), bs)
  get_put _ _ := rfl

/-- A pair, one after the other. -/
def pair (u : Wire α) (v : Wire β) : Wire (α × β) where
  put x := u.put x.1 ++ v.put x.2
  get bs := (u.get bs).bind fun a => (v.get a.2).map fun b => ((a.1, b.1), b.2)
  get_put x rest := by
    rw [append_assoc, u.get_put]
    simp [v.get_put]

/-- Read `n` values. -/
def getMany (u : Wire α) : ℕ → List UInt8 → Option (List α × List UInt8)
  | 0, bs => some ([], bs)
  | n + 1, bs => (u.get bs).bind fun a => (getMany u n a.2).map fun r => (a.1 :: r.1, r.2)

theorem getMany_put (u : Wire α) (l : List α) (rest : List UInt8) :
    u.getMany l.length (l.flatMap u.put ++ rest) = some (l, rest) := by
  induction l with
  | nil => simp [getMany]
  | cons a l ih =>
    rw [flatMap_cons, append_assoc, length_cons, getMany, u.get_put]
    simp [ih]

/-- A list, after its length. -/
def list (u : Wire α) : Wire (List α) where
  put l := nat.put l.length ++ l.flatMap u.put
  get bs := (nat.get bs).bind fun n => u.getMany n.1 n.2
  get_put l rest := by
    rw [append_assoc, nat.get_put]
    exact u.getMany_put l rest

/-- A type whose values are written as values of another. -/
def embed (u : Wire β) (f : α → β) (g : β → Option α) (h : ∀ a, g (f a) = some a) : Wire α where
  put a := u.put (f a)
  get bs := (u.get bs).bind fun b => (g b.1).map fun a => (a, b.2)
  get_put a rest := by
    rw [u.get_put]
    simp [h]

/-- An option, as a list of at most one value. -/
def option (u : Wire α) : Wire (Option α) :=
  u.list.embed Option.toList (fun l => some l.head?) fun o => by cases o <;> rfl

end Wire

end Lnx
