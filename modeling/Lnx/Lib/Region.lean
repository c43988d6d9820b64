import Mathlib.Data.List.Basic

/-!
# Pieces of lists

A list read and overwritten in pieces, as a file is: `slice l o n` is what stands in the
`n` places from `o` on, `writeAt l o d` has `d` there instead. What is outside of the
piece stays (`getElem?_writeAt`), and what was written can be read (`slice_eq`).
-/

namespace Lnx

open List

variable {α : Type}

/-- The `n` elements from place `o` on. -/
def slice (l : List α) (o n : ℕ) : List α := (l.drop o).take n

/-- `d` in place of what stands from place `o` on. -/
def writeAt (l : List α) (o : ℕ) (d : List α) : List α := l.take o ++ d ++ l.drop (o + d.length)

variable {d l : List α} {n o : ℕ}

theorem getElem?_slice {i : ℕ} (h : i < n) : (slice l o n)[i]? = l[o + i]? := by
  rw [slice, List.getElem?_take_of_lt h, List.getElem?_drop]

theorem length_slice (h : o + n ≤ l.length) : (slice l o n).length = n := by
  rw [slice, length_take, length_drop]
  omega

theorem length_writeAt (h : o + d.length ≤ l.length) : (writeAt l o d).length = l.length := by
  simp only [writeAt, length_append, length_take, length_drop]
  omega

theorem getElem?_writeAt (h : o + d.length ≤ l.length) (i : ℕ) :
    (writeAt l o d)[i]? = if o ≤ i ∧ i < o + d.length then d[i - o]? else l[i]? := by
  have hlen : (l.take o).length = o := by
    rw [length_take]
    omega
  rw [writeAt, append_assoc, List.getElem?_append, hlen]
  by_cases hi : i < o
  · rw [if_pos hi, if_neg (by omega), List.getElem?_take_of_lt hi]
  · rw [if_neg hi, List.getElem?_append]
    by_cases hd : i - o < d.length
    · rw [if_pos hd, if_pos (by omega)]
    · rw [if_neg hd, if_neg (by omega), List.getElem?_drop]
      congr 1
      omega

/-- Two pieces that agree place by place are one. -/
theorem slice_eq (hl : o + n ≤ l.length) (hd : d.length = n) (h : ∀ i < n, l[o + i]? = d[i]?) :
    slice l o n = d := by
  refine ext_getElem? fun i => ?_
  by_cases hi : i < n
  · rw [getElem?_slice hi, h i hi]
  · have hs := length_slice hl
    rw [List.getElem?_eq_none (by omega), List.getElem?_eq_none (by omega)]

end Lnx
