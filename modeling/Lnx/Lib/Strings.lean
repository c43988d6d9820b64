import Lnx.Lib.Lines
import Mathlib.Data.Bool.AllAny
import Mathlib.Data.List.DropRight
import Mathlib.Data.String.Basic
import Mathlib.Tactic.Common

/-!
# Texts cut at characters

More of Rust's `str`, over lists of characters: cutting at the first or last of a separator,
trimming a repeated end, and reading a decimal number below a bound.

* `splitOnce_eq_some`, `rsplitOnce_eq_some`: where a text is cut.
* `trimEndMatches_spec`: what is left of a text without its repeated end.
* `parseDec_eq_some`: a number is read from its digits, after a plus sign or none.
-/

namespace Strings

open List
open Lines (Text splitOnce)

variable {t a b : Text} {sep : Char}

/-! ## White space -/

/-- `char::is_whitespace` -/
def isWhitespace (c : Char) : Bool :=
  (9 ≤ c.toNat && c.toNat ≤ 13) || c.toNat == 0x20 || c.toNat == 0x85 || c.toNat == 0xA0 ||
    c.toNat == 0x1680 || (0x2000 ≤ c.toNat && c.toNat ≤ 0x200A) || c.toNat == 0x2028 ||
    c.toNat == 0x2029 || c.toNat == 0x202F || c.toNat == 0x205F || c.toNat == 0x3000

/-- `str::trim` -/
def trim (t : Text) : Text := (t.rdropWhile isWhitespace).dropWhile isWhitespace

/-! ## Separators -/

theorem splitOnce_of_not_mem (h : sep ∉ t) : splitOnce sep t = none := by
  rw [splitOnce, if_neg h]

theorem splitOnce_eq_some : splitOnce sep t = some (a, b) ↔ t = a ++ sep :: b ∧ sep ∉ a := by
  constructor
  · intro h
    by_cases hmem : sep ∈ t
    · obtain ⟨x, y, rfl, hx⟩ := eq_append_cons_of_mem hmem
      rw [Lines.splitOnce_append hx] at h
      cases h
      exact ⟨rfl, hx⟩
    · rw [splitOnce_of_not_mem hmem] at h
      cases h
  · rintro ⟨rfl, ha⟩
    exact Lines.splitOnce_append ha

/-- The parts of a cut text do not have the separator. -/
theorem not_mem_of_mem_splitOn {part : Text} (h : part ∈ t.splitOn sep) : sep ∉ part := by
  induction hn : t.length using Nat.strong_induction_on generalizing t with
  | h n ih =>
    by_cases hmem : sep ∈ t
    · obtain ⟨x, y, rfl, hx⟩ := eq_append_cons_of_mem hmem
      rw [splitOn_append_cons_self_of_not_mem hx] at h
      rcases mem_cons.1 h with rfl | h
      · exact hx
      · refine ih y.length ?_ h rfl
        rw [← hn, length_append, length_cons]
        omega
    · rw [splitOn_eq_singleton hmem] at h
      rw [mem_singleton.1 h]
      exact hmem

theorem isAlphanum_toNat {c : Char} (h : c.isAlphanum = true) : 48 ≤ c.toNat ∧ c.toNat ≤ 122 := by
  change (decide (c.val ≥ 'A'.val ∧ c.val ≤ 'Z'.val) ||
    (decide (c.val ≥ 'a'.val) && decide (c.val ≤ 'z'.val)) ||
      (decide (c.val ≥ '0'.val) && decide (c.val ≤ '9'.val))) = true at h
  simp only [Bool.or_eq_true, Bool.and_eq_true, decide_eq_true_eq, ge_iff_le, UInt32.le_iff_toNat_le] at h
  simp at h
  omega

/-- `str::rsplit_once` -/
def rsplitOnce (sep : Char) (t : Text) : Option (Text × Text) :=
  (splitOnce sep t.reverse).map fun (a, b) => (b.reverse, a.reverse)

theorem rsplitOnce_eq_some : rsplitOnce sep t = some (a, b) ↔ t = a ++ sep :: b ∧ sep ∉ b := by
  rw [rsplitOnce, Option.map_eq_some_iff]
  constructor
  · rintro ⟨⟨x, y⟩, h, heq⟩
    obtain ⟨hrev, hx⟩ := splitOnce_eq_some.1 h
    cases heq
    refine ⟨?_, by simpa using hx⟩
    rw [← reverse_reverse t, hrev]
    simp
  · rintro ⟨rfl, hb⟩
    refine ⟨(b.reverse, a.reverse), splitOnce_eq_some.2 ⟨by simp, by simpa using hb⟩, by simp⟩

/-- `str::strip_prefix` of a character. -/
def stripChar (c : Char) : Text → Option Text
  | [] => none
  | x :: t => if x = c then some t else none

theorem stripChar_eq_some {c : Char} : stripChar c t = some a ↔ t = c :: a := by
  cases t with
  | nil | cons x t => simp [stripChar]

/-! ## Repeated ends -/

/-- `n` copies of a text. -/
def copies (n : ℕ) (u : Text) : Text := (List.replicate n u).flatten

theorem copies_succ (n : ℕ) (u : Text) : copies (n + 1) u = copies n u ++ u := by
  rw [copies, replicate_succ', flatten_append, copies]
  simp

theorem length_copies (n : ℕ) (u : Text) : (copies n u).length = n * u.length := by
  rw [copies, length_flatten, map_replicate, sum_replicate_nat]

/-- Takes an end off up to `n` times. -/
def trimTimes (suffix : Text) : ℕ → Text → Text
  | 0, t => t
  | n + 1, t => if suffix <:+ t then trimTimes suffix n (t.take (t.length - suffix.length)) else t

/-- `str::trim_end_matches`, for a text that is not empty. -/
def trimEndMatches (suffix t : Text) : Text := trimTimes suffix t.length t

variable {suffix : Text}

theorem trimTimes_append {u : Text} (hu : ¬ suffix <:+ u) (k n : ℕ) (hn : k ≤ n) :
    trimTimes suffix n (u ++ copies k suffix) = u := by
  induction k generalizing n with
  | zero =>
    rw [copies, replicate_zero, flatten_nil, append_nil]
    cases n with
    | zero => rfl
    | succ n => rw [trimTimes, if_neg hu]
  | succ k ih =>
    obtain ⟨n, rfl⟩ : ∃ m, n = m + 1 := ⟨n - 1, by omega⟩
    rw [copies_succ, ← append_assoc, trimTimes, if_pos (suffix_append _ _)]
    have htake : (u ++ copies k suffix ++ suffix).take
        ((u ++ copies k suffix ++ suffix).length - suffix.length) = u ++ copies k suffix := by
      rw [length_append, Nat.add_sub_cancel, take_left']
      rfl
    rw [htake]
    exact ih n (by omega)

/-- A text is what is left of it, and copies of the end. -/
theorem exists_copies (hne : suffix ≠ []) (t : Text) :
    ∃ u k, t = u ++ copies k suffix ∧ ¬ suffix <:+ u := by
  induction hn : t.length using Nat.strong_induction_on generalizing t with
  | h n ih =>
    by_cases hs : suffix <:+ t
    · obtain ⟨v, rfl⟩ := hs
      have hpos := length_pos_iff.2 hne
      obtain ⟨u, k, rfl, hu⟩ := ih v.length (by rw [← hn, length_append]; omega) v rfl
      exact ⟨u, k + 1, by rw [copies_succ, append_assoc], hu⟩
    · exact ⟨t, 0, by simp [copies], hs⟩

theorem trimEndMatches_append {u : Text} (hne : suffix ≠ []) (hu : ¬ suffix <:+ u) (k : ℕ) :
    trimEndMatches suffix (u ++ copies k suffix) = u := by
  refine trimTimes_append hu k _ ?_
  have hpos := length_pos_iff.2 hne
  rw [length_append, length_copies]
  exact Nat.le_trans (Nat.le_mul_of_pos_right k hpos) (Nat.le_add_left _ _)

theorem trimEndMatches_spec (hne : suffix ≠ []) (t : Text) :
    ∃ k, t = trimEndMatches suffix t ++ copies k suffix ∧ ¬ suffix <:+ trimEndMatches suffix t := by
  obtain ⟨u, k, rfl, hu⟩ := exists_copies hne t
  refine ⟨k, ?_⟩
  rw [trimEndMatches_append hne hu]
  exact ⟨rfl, hu⟩

/-! ## Numbers -/

/-- The digits of a number in decimal; it may begin with zeros. -/
structure IsDecimal (t : Text) (n : ℕ) : Prop where
  nonempty : t ≠ []
  digits : ∀ c ∈ t, c.isDigit = true
  value : Nat.ofDigitChars 10 t 0 = n

/-- `str::parse` for an unsigned type with values below `bound`. -/
def parseDec (bound : ℕ) (t : Text) : Option ℕ :=
  let digits := if t.head? = some '+' then t.tail else t
  if digits ≠ [] ∧ digits.all Char.isDigit = true ∧ Nat.ofDigitChars 10 digits 0 < bound then
    some (Nat.ofDigitChars 10 digits 0)
  else none

theorem parseDec_digits {bound n : ℕ} {digits : Text} (h : IsDecimal digits n) (hn : n < bound) :
    parseDec bound digits = some n := by
  have hplus : digits.head? ≠ some '+' := by
    intro hhead
    exact absurd (h.digits '+' (mem_of_mem_head? hhead)) (by decide)
  simp only [parseDec, if_neg hplus]
  rw [if_pos ⟨h.nonempty, all_eq_true.2 h.digits, by rw [h.value]; exact hn⟩, h.value]

theorem parseDec_eq_some {bound n : ℕ} : parseDec bound t = some n ↔
    ∃ digits, (t = digits ∨ t = '+' :: digits) ∧ IsDecimal digits n ∧ n < bound := by
  constructor
  · intro h
    by_cases hhead : t.head? = some '+'
    · obtain ⟨digits, rfl⟩ : ∃ ds, t = '+' :: ds := by
        cases t with
        | nil => cases hhead
        | cons c ds => exact ⟨ds, by rw [Option.some.inj hhead]⟩
      simp only [parseDec, hhead, if_true, tail_cons] at h
      split_ifs at h with hcond
      cases h
      exact ⟨digits, .inr rfl, ⟨hcond.1, all_eq_true.1 hcond.2.1, rfl⟩, hcond.2.2⟩
    · simp only [parseDec, hhead, if_false] at h
      split_ifs at h with hcond
      cases h
      exact ⟨t, .inl rfl, ⟨hcond.1, all_eq_true.1 hcond.2.1, rfl⟩, hcond.2.2⟩
  · rintro ⟨digits, rfl | rfl, hdec, hn⟩
    · exact parseDec_digits hdec hn
    · simp only [parseDec, List.head?_cons, if_true, tail_cons]
      rw [if_pos ⟨hdec.nonempty, all_eq_true.2 hdec.digits, by rw [hdec.value]; exact hn⟩, hdec.value]

end Strings
