import Mathlib.Algebra.Ring.Nat
import Mathlib.Data.Nat.Notation
import Mathlib.Tactic.Common

/-!
# Lines that end in CR LF

`cutAt w` finds the first place where `w` stands in a list. `crlfLines` cuts bytes at every
`\r\n`, and `joinCrlf` puts lines together again.

* `joinCrlf_crlfLines`: lines put together are the bytes they were cut from.
* `cutAt_crlf`: the first line is what stands before the first `\r\n`.
* `firstAt`: the first line of a kind, with the place where it begins.
-/

namespace Crlf

open Option List

abbrev Bytes := List UInt8

/-! ## The first place of a text -/

section cut

variable {α : Type*} [DecidableEq α]

/-- The elements before the first place of `w`, and those from there on. -/
def cutAt (w : List α) : List α → Option (List α × List α)
  | [] => if w = [] then some ([], []) else none
  | a :: l => if w <+: a :: l then some ([], a :: l) else (cutAt w l).map fun r => (a :: r.1, r.2)

variable {w : List α}

theorem cutAt_eq_some {l x y : List α} (h : cutAt w l = some (x, y)) : l = x ++ y ∧ w <+: y := by
  induction l generalizing x with
  | nil =>
    rw [cutAt] at h
    split_ifs at h with hw
    cases h
    rw [hw]
    exact ⟨rfl, prefix_rfl⟩
  | cons a l ih =>
    rw [cutAt] at h
    split_ifs at h with hw
    · cases h
      exact ⟨rfl, hw⟩
    · obtain ⟨⟨x', y'⟩, h', heq⟩ := map_eq_some_iff.1 h
      cases heq
      obtain ⟨rfl, hy⟩ := ih h'
      exact ⟨rfl, hy⟩

theorem cutAt_eq_none {l : List α} : cutAt w l = none ↔ ¬ w <:+: l := by
  induction l with
  | nil =>
    rw [cutAt, infix_nil]
    split_ifs with hw <;> simp [hw]
  | cons a l ih =>
    rw [cutAt, infix_cons_iff, not_or]
    split_ifs with hw
    · simp [hw]
    · rw [map_eq_none_iff, ih]
      exact ⟨fun h => ⟨hw, h⟩, fun h => h.2⟩

theorem cutAt_first {l x y : List α} (hw : w ≠ []) (h : cutAt w l = some (x, y)) : ¬ w <:+: x := by
  induction l generalizing x with
  | nil =>
    rw [cutAt, if_neg hw] at h
    cases h
  | cons a l ih =>
    rw [cutAt] at h
    split_ifs at h with hhere
    · cases h
      rw [infix_nil]
      exact hw
    · obtain ⟨⟨x', y'⟩, h', heq⟩ := map_eq_some_iff.1 h
      cases heq
      rw [infix_cons_iff, not_or]
      refine ⟨?_, ih h'⟩
      intro hhead
      obtain ⟨rfl, -⟩ := cutAt_eq_some h'
      exact hhere (hhead.trans (prefix_append (a :: x') y'))

end cut

/-! ## Lines -/

/-- `\r\n` -/
def crlf : Bytes := [13, 10]

/-- Bytes cut at every `\r\n`. -/
def crlfLines : Bytes → List Bytes
  | [] => [[]]
  | [a] => [[a]]
  | a :: b :: rest =>
    if a = 13 ∧ b = 10 then [] :: crlfLines rest
    else (crlfLines (b :: rest)).modifyHead (a :: ·)

/-- Lines put together with `\r\n` between them. -/
def joinCrlf (ls : List Bytes) : Bytes := crlf.intercalate ls

theorem crlfLines_ne_nil (bs : Bytes) : crlfLines bs ≠ [] := by
  fun_induction crlfLines bs with
  | case1 => simp
  | case2 => simp
  | case3 => simp
  | case4 a b rest h ih => simpa using ih

variable {bs l : Bytes} {ls : List Bytes}

theorem joinCrlf_cons (h : ls ≠ []) : joinCrlf (l :: ls) = l ++ 13 :: 10 :: joinCrlf ls := by
  obtain ⟨m, ms, rfl⟩ := exists_cons_of_ne_nil h
  simp [crlf, joinCrlf]

theorem joinCrlf_singleton (l : Bytes) : joinCrlf [l] = l := by
  simp [joinCrlf]

theorem joinCrlf_crlfLines (bs : Bytes) : joinCrlf (crlfLines bs) = bs := by
  fun_induction crlfLines bs with
  | case1 => simp [joinCrlf]
  | case2 a => simp [joinCrlf]
  | case3 a b rest h ih =>
    obtain ⟨rfl, rfl⟩ := h
    rw [joinCrlf_cons (crlfLines_ne_nil _), ih, nil_append]
  | case4 a b rest h ih =>
    obtain ⟨l, ls, hls⟩ := exists_cons_of_ne_nil (crlfLines_ne_nil (b :: rest))
    rw [hls] at ih ⊢
    rw [modifyHead_cons]
    cases ls with
    | nil =>
      rw [joinCrlf_singleton] at ih ⊢
      rw [ih]
    | cons m ms =>
      rw [joinCrlf_cons (by simp)] at ih ⊢
      rw [cons_append, ih]

/-- A line that ends before the first `\r\n`. -/
def IsLine (l : Bytes) : Prop := ¬ crlf <:+: l

theorem IsLine.tail {a : UInt8} (h : IsLine (a :: l)) : IsLine l :=
  fun hin => h (infix_cons_iff.2 (.inr hin))

theorem crlfLines_append (h : IsLine l) (rest : Bytes) :
    crlfLines (l ++ 13 :: 10 :: rest) = l :: crlfLines rest := by
  induction l with
  | nil => rw [nil_append, crlfLines, if_pos ⟨rfl, rfl⟩]
  | cons a l ih =>
    cases l with
    | nil =>
      rw [cons_append, nil_append, crlfLines, if_neg (fun hc => absurd hc.2 (by decide)),
        crlfLines, if_pos ⟨rfl, rfl⟩, modifyHead_cons]
    | cons b l =>
      have hab : ¬ (a = 13 ∧ b = 10) := by
        rintro ⟨rfl, rfl⟩
        exact h ⟨[], l, rfl⟩
      rw [cons_append, cons_append, crlfLines, if_neg hab, ← cons_append, ih h.tail,
        modifyHead_cons]

theorem crlfLines_line (h : IsLine l) : crlfLines l = [l] := by
  induction l with
  | nil => rfl
  | cons a l ih =>
    cases l with
    | nil => rfl
    | cons b l =>
      have hab : ¬ (a = 13 ∧ b = 10) := by
        rintro ⟨rfl, rfl⟩
        exact h ⟨[], l, rfl⟩
      rw [crlfLines, if_neg hab, ih h.tail, modifyHead_cons]

/-- The first line, and the bytes after it. -/
theorem cutAt_crlf {line rest : Bytes} (h : cutAt crlf bs = some (line, rest)) :
    IsLine line ∧ ∃ more, rest = 13 :: 10 :: more ∧ bs = line ++ 13 :: 10 :: more ∧
      crlfLines bs = line :: crlfLines more := by
  have hline : IsLine line := cutAt_first (by decide) h
  obtain ⟨rfl, more, rfl⟩ := cutAt_eq_some h
  exact ⟨hline, more, rfl, rfl, crlfLines_append hline more⟩

theorem crlfLines_of_cutAt_none (h : cutAt crlf bs = none) : crlfLines bs = [bs] :=
  crlfLines_line (cutAt_eq_none.1 h)

theorem isLine_of_mem (h : l ∈ crlfLines bs) : IsLine l := by
  induction hn : bs.length using Nat.strongRecOn generalizing bs with
  | ind n ih =>
    cases hcut : cutAt crlf bs with
    | none =>
      rw [crlfLines_of_cutAt_none hcut, mem_singleton] at h
      rw [h]
      exact cutAt_eq_none.1 hcut
    | some parts =>
      obtain ⟨hline, more, -, rfl, hlines⟩ := cutAt_crlf hcut
      rw [hlines] at h
      rcases mem_cons.1 h with rfl | h
      · exact hline
      · refine ih more.length ?_ h rfl
        rw [← hn, length_append, length_cons, length_cons]
        omega

/-- Where the first `\r\n` of a text is, and what is before it and after it. -/
theorem line_inj {l' x y : Bytes} (hl : IsLine l) (hl' : IsLine l')
    (h : l ++ 13 :: 10 :: x = l' ++ 13 :: 10 :: y) : l = l' ∧ x = y := by
  have hlines : l :: crlfLines x = l' :: crlfLines y := by
    rw [← crlfLines_append hl, ← crlfLines_append hl', h]
  obtain ⟨rfl, -⟩ := List.cons.inj hlines
  simpa using h

/-- Every line with its `\r\n`. -/
def ended (ls : List Bytes) : Bytes := ls.flatMap (· ++ crlf)

theorem ended_cons (l : Bytes) (ls : List Bytes) : ended (l :: ls) = l ++ 13 :: 10 :: ended ls := by
  simp [ended, crlf]

theorem ended_append (xs ys : List Bytes) : ended (xs ++ ys) = ended xs ++ ended ys :=
  flatMap_append

theorem joinCrlf_append_crlf (h : ls ≠ []) (bs : Bytes) :
    joinCrlf ls ++ 13 :: 10 :: bs = ended ls ++ bs := by
  induction ls with
  | nil => exact absurd rfl h
  | cons l ls ih =>
    cases ls with
    | nil => simp [joinCrlf_singleton, ended, crlf]
    | cons m ms =>
      rw [joinCrlf_cons (by simp), ended_cons, append_assoc, cons_append, cons_append,
        ih (by simp), append_assoc, cons_append, cons_append]

theorem ended_eq_concat (h : ls ≠ []) : ∃ bs, ended ls = bs ++ [10] := by
  obtain ⟨init, l, rfl⟩ := (eq_nil_or_concat ls).resolve_left h
  exact ⟨ended init ++ l ++ [13], by simp [ended, crlf]⟩

/-! ## The first line of a kind -/

section first

variable {β : Type*} (sep : ℕ) (f : Bytes → Option β)

/-- The number of bytes of lines with `sep` bytes after each. -/
def width (ls : List Bytes) : ℕ := (ls.map fun l => l.length + sep).sum

/-- The first line for which there is a value, with the place where it begins. The first line
    of all begins at `i`, and there are `sep` bytes between two lines. -/
def firstAt : ℕ → List Bytes → Option (ℕ × β)
  | _, [] => none
  | i, l :: ls => ((f l).map fun v => (i, v)).or (firstAt (i + l.length + sep) ls)

variable {sep f}

theorem width_cons (l : Bytes) (ls : List Bytes) : width sep (l :: ls) = l.length + sep + width sep ls := by
  rw [width, map_cons, sum_cons, width]

theorem width_append (xs ys : List Bytes) : width sep (xs ++ ys) = width sep xs + width sep ys := by
  simp [width]

theorem width_ended (ls : List Bytes) : width 2 ls = (ended ls).length := by
  induction ls with
  | nil => rfl
  | cons l ls ih =>
    rw [width_cons, ih, ended_cons, length_append, length_cons, length_cons]
    omega

theorem width_splitOn (c : UInt8) (bs : Bytes) : width 1 (bs.splitOn c) = bs.length + 1 := by
  induction hn : bs.length using Nat.strongRecOn generalizing bs with
  | ind n ih =>
    by_cases hmem : c ∈ bs
    · obtain ⟨x, y, rfl, hx⟩ := eq_append_cons_of_mem hmem
      rw [length_append, length_cons] at hn
      rw [splitOn_append_cons_self_of_not_mem hx, width_cons, ih y.length (by omega) y rfl, ← hn]
      omega
    · rw [splitOn_eq_singleton hmem, width_cons, ← hn]
      rfl

variable {i : ℕ} {v : β}

theorem firstAt_eq_none : firstAt sep f i ls = none ↔ ∀ l ∈ ls, f l = none := by
  induction ls generalizing i with
  | nil => simp [firstAt]
  | cons l ls ih => simp [firstAt, ih]

/-- Lines without a value are passed over. -/
theorem firstAt_append {pre : List Bytes} (hpre : ∀ l ∈ pre, f l = none) (ls : List Bytes) :
    firstAt sep f i (pre ++ ls) = firstAt sep f (i + width sep pre) ls := by
  induction pre generalizing i with
  | nil => rfl
  | cons l pre ih =>
    rw [cons_append, firstAt, hpre l mem_cons_self, map_none, none_or,
      ih fun x hx => hpre x (mem_cons_of_mem l hx), width_cons]
    congr 1
    omega

theorem firstAt_cons_of_some (h : f l = some v) (ls : List Bytes) :
    firstAt sep f i (l :: ls) = some (i, v) := by
  rw [firstAt, h, map_some, some_or]

/-- Where the first line with a value stands. -/
theorem firstAt_eq_some {k : ℕ} : firstAt sep f i ls = some (k, v) ↔
    ∃ pre l post, ls = pre ++ l :: post ∧ (∀ x ∈ pre, f x = none) ∧ f l = some v ∧
      k = i + width sep pre := by
  constructor
  · intro h
    induction ls generalizing i with
    | nil => cases h
    | cons l ls ih =>
      cases hv : f l with
      | none =>
        rw [firstAt, hv, map_none, none_or] at h
        obtain ⟨pre, m, post, rfl, hpre, hm, rfl⟩ := ih h
        refine ⟨l :: pre, m, post, rfl, ?_, hm, ?_⟩
        · rw [forall_mem_cons]
          exact ⟨hv, hpre⟩
        · rw [width_cons]
          omega
      | some w =>
        rw [firstAt_cons_of_some hv] at h
        cases h
        exact ⟨[], l, ls, rfl, by simp, hv, rfl⟩
  · rintro ⟨pre, l, post, rfl, hpre, hl, rfl⟩
    rw [firstAt_append hpre, firstAt_cons_of_some hl]

/-- A line that begins at `i` is found there if it has a value, and only then. -/
theorem firstAt_cons_eq_self (hsep : 0 < sep) :
    firstAt sep f i (l :: ls) = some (i, v) ↔ f l = some v := by
  refine ⟨fun h => ?_, fun h => firstAt_cons_of_some h ls⟩
  obtain ⟨pre, m, post, hls, hpre, hm, hi⟩ := firstAt_eq_some.1 h
  cases pre with
  | nil =>
    cases hls
    exact hm
  | cons x pre =>
    rw [width_cons] at hi
    omega

/-- A place behind lines is found if none of them has a value, and only then. -/
theorem firstAt_append_eq_some {k : ℕ} {xs ys : List Bytes} (hsep : 0 < sep)
    (hk : i + width sep xs ≤ k) : firstAt sep f i (xs ++ ys) = some (k, v) ↔
      (∀ l ∈ xs, f l = none) ∧ firstAt sep f (i + width sep xs) ys = some (k, v) := by
  cases hfirst : firstAt sep f i xs with
  | none =>
    have hnone := firstAt_eq_none.1 hfirst
    rw [firstAt_append hnone]
    exact ⟨fun h => ⟨hnone, h⟩, fun h => h.2⟩
  | some r =>
    obtain ⟨pre, l, post, rfl, hpre, hl, hr⟩ := firstAt_eq_some.1 hfirst
    constructor
    · intro h
      rw [append_assoc, cons_append, firstAt_append hpre, firstAt_cons_of_some hl] at h
      cases h
      rw [width_append, width_cons] at hk
      omega
    · intro h
      have hnone := h.1 l (by simp)
      rw [hl] at hnone
      cases hnone

theorem firstAt_map_snd (i : ℕ) (ls : List Bytes) : (firstAt sep f i ls).map Prod.snd = ls.findSome? f := by
  induction ls generalizing i with
  | nil => rfl
  | cons l ls ih =>
    rw [firstAt, List.findSome?_cons, ← ih (i + l.length + sep)]
    cases f l <;> rfl

end first

end Crlf
