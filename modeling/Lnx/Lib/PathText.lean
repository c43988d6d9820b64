import Mathlib.Data.List.Basic

/-!
# Path texts

A path text is cut into pieces at its slashes. Empty pieces and `.` stand for the
directory reached so far, so that different texts may lead to one place: `places` are the
pieces that count.

* `join`: where a text leads from a directory, without links on the way.
* `pieces_of_no_slash`, `join_of_plain`: a text without a slash is one piece, and leads to
  the entry of that name unless it is `.` or `..`.
* `prefix_join`: such a text leads nowhere else than into the directory unless it is `..`.
-/

namespace Lnx

/-- A text cut at its slashes. -/
def splitSlash : List Char → List (List Char)
  | [] => [[]]
  | c :: cs =>
    if c = '/' then [] :: splitSlash cs
    else match splitSlash cs with
      | [] => [[c]]
      | p :: ps => (c :: p) :: ps

/-- The pieces of a path text. -/
def pieces (text : String) : List String := (splitSlash text.toList).map String.ofList

/-- The pieces that lead further. -/
def places (text : String) : List String := (pieces text).filter fun p => p ≠ "" ∧ p ≠ "."

/-- A text that ends in a slash, or in `.`, names a directory only. -/
def endsAtDir (text : String) : Bool :=
  match (pieces text).getLast? with
  | some p => p = "" ∨ p = "."
  | none => true

theorem splitSlash_of_no_slash {cs : List Char} (h : '/' ∉ cs) : splitSlash cs = [cs] := by
  induction cs with
  | nil => rfl
  | cons c cs ih =>
    obtain ⟨hc, hcs⟩ := not_or.1 (mt List.mem_cons.2 h)
    rw [splitSlash, if_neg (Ne.symm hc), ih hcs]

variable {text : String}

theorem pieces_of_no_slash (h : '/' ∉ text.toList) : pieces text = [text] := by
  rw [pieces, splitSlash_of_no_slash h]
  simp

/-! ## Joining -/

/-- Where the pieces lead from a directory: `..` to the one above, the root to itself. -/
def walk (dir : List String) : List String → List String
  | [] => dir
  | p :: ps =>
    if p = "" ∨ p = "." then walk dir ps
    else if p = ".." then walk dir.dropLast ps
    else walk (dir ++ [p]) ps

/-- Where a text leads from a directory; an absolute text starts at the root. -/
def join (dir : List String) (text : String) : List String :=
  walk (if text.toList.head? = some '/' then [] else dir) (pieces text)

/-- A text that names an entry of a directory. -/
def Plain (text : String) : Prop := '/' ∉ text.toList ∧ text ≠ "" ∧ text ≠ "." ∧ text ≠ ".."

instance (text : String) : Decidable (Plain text) :=
  inferInstanceAs (Decidable (_ ∧ _ ∧ _ ∧ _))

theorem join_of_no_slash (h : '/' ∉ text.toList) (dir : List String) :
    join dir text = walk dir [text] := by
  have hhead : text.toList.head? ≠ some '/' := fun hh => h (List.mem_of_mem_head? (by simpa using hh))
  rw [join, if_neg hhead, pieces_of_no_slash h]

theorem join_of_plain (h : Plain text) (dir : List String) : join dir text = dir ++ [text] := by
  obtain ⟨hslash, hempty, hdot, hdots⟩ := h
  rw [join_of_no_slash hslash, walk, if_neg (by simp [hempty, hdot]), if_neg hdots, walk]

/-- A text that names an entry of a directory, or the directory itself. -/
def Inner (text : String) : Prop := '/' ∉ text.toList ∧ text ≠ ".."

instance (text : String) : Decidable (Inner text) := inferInstanceAs (Decidable (_ ∧ _))

theorem prefix_join (h : Inner text) (dir : List String) : dir <+: join dir text := by
  rw [join_of_no_slash h.1, walk, if_neg h.2]
  split
  · exact List.prefix_rfl
  · exact List.prefix_append _ _

end Lnx
