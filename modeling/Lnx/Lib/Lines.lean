import Mathlib.Algebra.Ring.Nat
import Mathlib.Data.Nat.Notation

/-!
# Text files of `key=value` lines

A text is a list of characters. `lines` cuts a text as Rust's `str::lines` does, `splitOnce`
is `str::split_once`, and `parseU64` is `str::parse::<u64>`. `unfields` writes a list of
fields, one per line.

* `fields_unfields`: fields that are written are read back.
* `parseU64_showU64`: so are numbers.
* `lookupFirst`, `lookupLast`: the two ways to read a list of fields as a map; they agree
  where the keys are distinct.
-/

namespace Lines

open List

abbrev Text := List Char

/-! ## Lines -/

/-- A carriage return before the line feed belongs to the line's end. -/
def dropCr (l : Text) : Text :=
  if l.getLast? = some '\r' then l.dropLast else l

def lines (t : Text) : List Text :=
  let parts := t.splitOn '\n'
  parts.dropLast.map dropCr ++ (parts.getLast?.filter fun l => !l.isEmpty).toList

def unlines (ls : List Text) : Text :=
  ls.flatMap fun l => l ++ ['\n']

/-- What a line of its own may be. -/
def IsLine (l : Text) : Prop :=
  '\n' ∉ l ∧ l.getLast? ≠ some '\r'

theorem unlines_eq (ls : List Text) : unlines ls = ['\n'].intercalate (ls ++ [[]]) := by
  induction ls with
  | nil => rfl
  | cons l ls ih =>
    have hne : ls ++ [[]] ≠ [] := by simp
    obtain ⟨x, xs, hx⟩ := exists_cons_of_ne_nil hne
    rw [cons_append, hx, intercalate_cons_cons, ← hx, ← ih]
    simp [unlines]

theorem lines_unlines {ls : List Text} (h : ∀ l ∈ ls, IsLine l) : lines (unlines ls) = ls := by
  have hsplit : (unlines ls).splitOn '\n' = ls ++ [[]] := by
    rw [unlines_eq, splitOn_intercalate]
    · intro l hl
      rcases mem_append.1 hl with hl | hl
      · exact (h l hl).1
      · rw [mem_singleton.1 hl]
        simp
    · simp
  have hcr : ls.map dropCr = ls := by
    refine (map_congr_left fun l hl => ?_).trans (map_id ls)
    exact if_neg (h l hl).2
  simp only [lines, hsplit, dropLast_concat, List.getLast?_concat, hcr]
  exact append_nil ls

/-! ## Fields -/

/-- The text before and after the first separator. -/
def splitOnce (sep : Char) (t : Text) : Option (Text × Text) :=
  if sep ∈ t then some (t.takeWhile (· != sep), (t.dropWhile (· != sep)).drop 1) else none

theorem splitOnce_append {sep : Char} {key value : Text} (h : sep ∉ key) :
    splitOnce sep (key ++ sep :: value) = some (key, value) := by
  have hall : ∀ x ∈ key, (x != sep) = true := by
    intro x hx
    exact bne_iff_ne.2 fun he => h (he ▸ hx)
  rw [splitOnce, if_pos (by simp), takeWhile_append_of_pos hall,
    dropWhile_append_of_pos hall]
  simp

abbrev Fields := List (Text × Text)

def fieldLine (f : Text × Text) : Text := f.1 ++ '=' :: f.2

def fields (t : Text) : Fields := (lines t).filterMap (splitOnce '=')

def unfields (fs : Fields) : Text := unlines (fs.map fieldLine)

/-- A field that stays one line with one key. -/
structure IsField (f : Text × Text) : Prop where
  key : '=' ∉ f.1
  line : IsLine (fieldLine f)

theorem fields_unfields {fs : Fields} (h : ∀ f ∈ fs, IsField f) : fields (unfields fs) = fs := by
  have hlines : ∀ l ∈ fs.map fieldLine, IsLine l := by
    intro l hl
    obtain ⟨f, hf, rfl⟩ := mem_map.1 hl
    exact (h f hf).line
  rw [fields, unfields, lines_unlines hlines]
  induction fs with
  | nil => rfl
  | cons f fs ih =>
    have hsplit : splitOnce '=' (fieldLine f) = some f := splitOnce_append (h f mem_cons_self).key
    rw [map_cons, filterMap_cons_some hsplit,
      ih (fun g hg => h g (mem_cons_of_mem _ hg))
        (fun l hl => hlines l (mem_cons_of_mem _ hl))]

/-- The first field of a key. -/
def lookupFirst (fs : Fields) (key : Text) : Option Text :=
  (fs.find? fun f => f.1 == key).map Prod.snd

/-- The last field of a key, as a map built by insertion has it. -/
def lookupLast (fs : Fields) (key : Text) : Option Text :=
  lookupFirst fs.reverse key

/-- Replaces the first field of a key, or appends one. -/
def setField (key value : Text) : Fields → Fields
  | [] => [(key, value)]
  | f :: fs => if f.1 == key then (f.1, value) :: fs else f :: setField key value fs

theorem lookupFirst_setField {key key' : Text} (h : key ≠ key') (value : Text) (fs : Fields) :
    lookupFirst (setField key value fs) key' = lookupFirst fs key' := by
  induction fs with
  | nil => simp [setField, lookupFirst, h]
  | cons f fs ih =>
    rw [setField]
    split
    · next hf => simp [lookupFirst, beq_iff_eq.1 hf, h]
    · simp only [lookupFirst, find?_cons] at ih ⊢
      split
      · rfl
      · exact ih

/-! ## Numbers -/

def showU64 (n : UInt64) : Text := Nat.toDigits 10 n.toNat

def parseU64 (t : Text) : Option UInt64 :=
  let digits := if t.head? = some '+' then t.tail else t
  if digits ≠ [] ∧ digits.all Char.isDigit = true ∧ Nat.ofDigitChars 10 digits 0 < 2 ^ 64 then
    some (UInt64.ofNat (Nat.ofDigitChars 10 digits 0))
  else none

theorem isDigit_of_mem_showU64 {n : UInt64} {c : Char} (h : c ∈ showU64 n) : c.isDigit = true :=
  Nat.isDigit_of_mem_toDigits (by decide) (by decide) h

theorem parseU64_showU64 (n : UInt64) : parseU64 (showU64 n) = some n := by
  have hplus : (showU64 n).head? ≠ some '+' := by
    intro h
    exact absurd (isDigit_of_mem_showU64 (mem_of_mem_head? h)) (by decide)
  have hvalue : Nat.ofDigitChars 10 (showU64 n) 0 = n.toNat := Nat.ofDigitChars_ten_toDigits
  have hdigits : (showU64 n).all Char.isDigit = true :=
    all_eq_true.2 fun c hc => isDigit_of_mem_showU64 hc
  simp only [parseU64, if_neg hplus, hvalue]
  rw [if_pos ⟨Nat.toDigits_ne_nil, hdigits, n.toNat_lt⟩, UInt64.ofNat_toNat]

/-- A number is a value that may follow any key. -/
theorem isField_showU64 {key : Text} (hkey : '=' ∉ key) (hline : '\n' ∉ key) (n : UInt64) :
    IsField (key, showU64 n) := by
  have hlast : ∃ c, c.isDigit = true ∧ (fieldLine (key, showU64 n)).getLast? = some c := by
    obtain ⟨c, hc⟩ := List.getLast?_isSome.2 (Nat.toDigits_ne_nil (n := n.toNat) (b := 10))
      |> Option.isSome_iff_exists.1
    refine ⟨c, isDigit_of_mem_showU64 (mem_of_getLast? hc), ?_⟩
    rw [fieldLine, List.getLast?_append, List.getLast?_cons]
    simp [showU64, hc]
  refine ⟨hkey, ?_, ?_⟩
  · rw [fieldLine, mem_append, mem_cons, not_or, not_or]
    refine ⟨hline, by decide, ?_⟩
    intro h
    exact absurd (isDigit_of_mem_showU64 h) (by decide)
  · obtain ⟨c, hc, heq⟩ := hlast
    rw [heq]
    rintro h
    cases h
    exact absurd hc (by decide)

end Lines
