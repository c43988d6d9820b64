import Mathlib.Data.List.Basic
import Mathlib.Tactic.Common

/-!
# Reading a stream piece by piece

A stream that is read with calls that return as many bytes as they like: one list for
each call, an empty one for a call that was interrupted and is repeated. `Pieces.exact`
reads a given number of bytes, over as many calls as it takes; how the stream is split
makes no difference to what it returns.
-/

namespace Lnx

open List

variable {α : Type}

/-- What the calls return, up to the end of the stream. -/
abbrev Pieces (α : Type) := List (List α)

/-- Reads `n` bytes, unless the stream ends before. A call returns no more than is
    asked for; what is left of a piece is returned by the next one. -/
def Pieces.exact : ℕ → Pieces α → Option (List α × Pieces α)
  | 0, cs => some ([], cs)
  | _ + 1, [] => none
  | n + 1, c :: cs =>
    if c.length ≤ n + 1 then (Pieces.exact (n + 1 - c.length) cs).map fun r => (c ++ r.1, r.2)
    else some (c.take (n + 1), c.drop (n + 1) :: cs)

theorem Pieces.exact_of_le (n : ℕ) (cs : Pieces α) (h : n ≤ cs.flatten.length) :
    ∃ rest, Pieces.exact n cs = some (cs.flatten.take n, rest) ∧ rest.flatten = cs.flatten.drop n := by
  induction cs generalizing n with
  | nil =>
    obtain rfl : n = 0 := by simpa using h
    exact ⟨[], rfl, rfl⟩
  | cons c cs ih =>
    cases n with
    | zero => exact ⟨c :: cs, rfl, rfl⟩
    | succ n =>
      rw [flatten_cons, length_append] at h
      rw [Pieces.exact, flatten_cons]
      split_ifs with hc
      · obtain ⟨rest, hrest, hflat⟩ := ih (n + 1 - c.length) (by omega)
        refine ⟨rest, ?_, ?_⟩
        · rw [hrest, take_append, take_of_length_le hc]
          rfl
        · rw [hflat, drop_append, drop_of_length_le hc, nil_append]
      · refine ⟨c.drop (n + 1) :: cs, ?_, ?_⟩
        · rw [take_append_of_le_length (by omega)]
        · rw [flatten_cons, drop_append_of_le_length (by omega)]

/-- The bytes that come first in the stream are the ones that are read. -/
theorem Pieces.exact_append {taken more : List α} {cs : Pieces α} (h : cs.flatten = taken ++ more) :
    ∃ rest, Pieces.exact taken.length cs = some (taken, rest) ∧ rest.flatten = more := by
  obtain ⟨rest, hrest, hflat⟩ := Pieces.exact_of_le taken.length cs (by rw [h]; simp)
  rw [h, take_left] at hrest
  rw [h, drop_left] at hflat
  exact ⟨rest, hrest, hflat⟩

theorem Pieces.exact_of_lt (n : ℕ) (cs : Pieces α) (h : cs.flatten.length < n) :
    Pieces.exact n cs = none := by
  induction cs generalizing n with
  | nil =>
    cases n with
    | zero => cases h
    | succ n => rfl
  | cons c cs ih =>
    rw [flatten_cons, length_append] at h
    cases n with
    | zero => omega
    | succ n =>
      rw [Pieces.exact, if_pos (by omega), ih (n + 1 - c.length) (by omega)]
      rfl

end Lnx
