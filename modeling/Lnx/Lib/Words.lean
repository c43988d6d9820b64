import Mathlib.Data.Nat.Notation
import Mathlib.Tactic.Common

/-!
# Words separated by blanks outside quotes

`pieces` cuts a text at every blank that stands outside double quotes; the quotes stay part
of the pieces. `words` drops the empty ones.

* `Closed`: a word that is one piece wherever it stands: it has no blank outside quotes and
  ends outside quotes.
* `words_unwords`: closed words that are joined by blanks are the words of the text.
* `closed_of_words_eq`: a word that comes out of a text, with another one after it, is closed.
-/

namespace Words

abbrev Text := List Char

/-- The pieces of a text whose start is inside quotes or not. The first one continues what
    came before. -/
def pieces : Bool → Text → List Text
  | _, [] => [[]]
  | q, c :: cs =>
    if c = '"' then (pieces (!q) cs).modifyHead (c :: ·)
    else if c = ' ' ∧ q = false then [] :: pieces q cs
    else (pieces q cs).modifyHead (c :: ·)

def words (t : Text) : List Text := (pieces false t).filter fun w => !w.isEmpty

/-- Whether a text that starts inside quotes or not ends so; `none` if there is a blank
    outside quotes in it. -/
def quoteAfter : Bool → Text → Option Bool
  | q, [] => some q
  | q, c :: cs =>
    if c = '"' then quoteAfter (!q) cs
    else if c = ' ' ∧ q = false then none
    else quoteAfter q cs

def Closed (w : Text) : Prop := quoteAfter false w = some false

instance (w : Text) : Decidable (Closed w) := inferInstanceAs (Decidable (_ = _))

variable {q : Bool} {w : Text} {as bs ws : List Text}

theorem pieces_append {q' : Bool} (h : quoteAfter q w = some q') (t : Text) :
    pieces q (w ++ t) = (pieces q' t).modifyHead (w ++ ·) := by
  induction w generalizing q with
  | nil =>
    cases h
    rw [List.nil_append]
    cases pieces q' t <;> rfl
  | cons c cs ih =>
    unfold quoteAfter at h
    rw [List.cons_append, pieces]
    split at h
    · next hc =>
      rw [if_pos hc, ih h]
      cases pieces q' t <;> rfl
    · next hc =>
      split at h
      · cases h
      · next hb =>
        rw [if_neg hc, if_neg hb, ih h]
        cases pieces q' t <;> rfl

theorem quoteAfter_append {q' : Bool} (h : quoteAfter q w = some q') (t : Text) :
    quoteAfter q (w ++ t) = quoteAfter q' t := by
  induction w generalizing q with
  | nil =>
    cases h
    rfl
  | cons c cs ih =>
    unfold quoteAfter at h
    rw [List.cons_append, quoteAfter]
    split at h
    · next hc => rw [if_pos hc, ih h]
    · next hc =>
      split at h
      · cases h
      · next hb => rw [if_neg hc, if_neg hb, ih h]

/-- A word without quotes and blanks is closed. -/
theorem closed_of_plain (h : ∀ c ∈ w, c ≠ '"' ∧ c ≠ ' ') : Closed w := by
  induction w with
  | nil => rfl
  | cons c cs ih =>
    have hc := h c List.mem_cons_self
    rw [Closed, quoteAfter, if_neg hc.1, if_neg fun hb => hc.2 hb.1]
    exact ih fun x hx => h x (List.mem_cons_of_mem _ hx)

theorem pieces_ne_nil (q : Bool) (t : Text) : pieces q t ≠ [] := by
  induction t generalizing q with
  | nil => simp [pieces]
  | cons c cs ih =>
    rw [pieces]
    split
    · simpa using ih (!q)
    · split
      · simp
      · simpa using ih q

theorem words_blank (t : Text) : words (' ' :: t) = words t := by
  simp [words, pieces]

/-- A closed word before a blank is a word. -/
theorem words_cons (hw : Closed w) (hne : w ≠ []) (t : Text) :
    words (w ++ ' ' :: t) = w :: words t := by
  have hp : pieces false (' ' :: t) = [] :: pieces false t := by simp [pieces]
  simp [words, pieces_append hw, hp, hne]

/-- A closed word at the end of a text is a word. -/
theorem words_last (hw : Closed w) (hne : w ≠ []) : words w = [w] := by
  have h := pieces_append hw []
  rw [List.append_nil] at h
  simp [words, h, pieces, hne]

/-- Words joined by blanks. -/
def unwords (ws : List Text) : Text := [' '].intercalate ws

theorem words_unwords_append (hws : ∀ w ∈ ws, Closed w ∧ w ≠ []) (t : Text) :
    words (unwords ws ++ ' ' :: t) = ws ++ words t := by
  induction ws with
  | nil => exact words_blank t
  | cons w ws ih =>
    have hw := hws w List.mem_cons_self
    have hrest := ih fun x hx => hws x (List.mem_cons_of_mem _ hx)
    cases ws with
    | nil => simpa [unwords] using words_cons hw.1 hw.2 t
    | cons w' ws =>
      rw [unwords, List.intercalate_cons_cons, List.append_assoc, List.append_assoc,
        List.singleton_append, words_cons hw.1 hw.2, List.cons_append]
      exact congrArg (w :: ·) hrest

theorem words_unwords (hws : ∀ w ∈ ws, Closed w ∧ w ≠ []) : words (unwords ws) = ws := by
  induction ws with
  | nil => rfl
  | cons w ws ih =>
    have hw := hws w List.mem_cons_self
    have hrest := ih fun x hx => hws x (List.mem_cons_of_mem _ hx)
    cases ws with
    | nil => simpa [unwords] using words_last hw.1 hw.2
    | cons w' ws =>
      rw [unwords, List.intercalate_cons_cons, List.append_assoc, List.singleton_append,
        words_cons hw.1 hw.2]
      exact congrArg (w :: ·) hrest

/-- Every piece but the last ends outside quotes, and has no blank outside them. -/
theorem quoteAfter_of_pieces {t : Text} (h : pieces q t = as ++ w :: bs) (hb : bs ≠ []) :
    quoteAfter (if as = [] then q else false) w = some false := by
  induction t generalizing q as w with
  | nil =>
    rw [pieces] at h
    cases as with
    | nil =>
      cases h
      exact absurd rfl hb
    | cons a as => simp at h
  | cons c cs ih =>
    -- the first piece of the rest, with the character in front of it
    have hcons : ∀ q' : Bool, (∀ v, quoteAfter q (c :: v) = quoteAfter q' v) →
        (pieces q' cs).modifyHead (c :: ·) = as ++ w :: bs →
        quoteAfter (if as = [] then q else false) w = some false := by
      intro q' hq h
      obtain ⟨x, xs, hx⟩ := List.exists_cons_of_ne_nil (pieces_ne_nil q' cs)
      rw [hx, List.modifyHead_cons] at h
      cases as with
      | nil =>
        cases h
        have hx' : pieces q' cs = [] ++ x :: bs := hx
        have hrest := ih hx'
        rw [if_pos rfl] at hrest ⊢
        rw [hq, hrest]
      | cons a as =>
        cases h
        have hx' : pieces q' cs = (x :: as) ++ w :: bs := hx
        simpa using ih hx'
    rw [pieces] at h
    split at h
    · next hc =>
      refine hcons (!q) (fun v => ?_) h
      rw [quoteAfter, if_pos hc]
    · next hc =>
      split at h
      · next hblank =>
        obtain ⟨-, rfl⟩ := hblank
        cases as with
        | nil =>
          cases h
          rfl
        | cons a as =>
          have hrest := (List.cons.inj h).2
          simpa using ih hrest
      · next hblank =>
        refine hcons q (fun v => ?_) h
        rw [quoteAfter, if_neg hc, if_neg hblank]

/-- A word with another one after it is closed. -/
theorem closed_of_words_eq {t : Text} (h : words t = as ++ w :: bs) (hb : bs ≠ []) : Closed w := by
  obtain ⟨l₁, l₂, hl, -, h₂⟩ := List.filter_eq_append_iff.1 h
  obtain ⟨m₁, m₂, hm, -, -, h₃⟩ := List.filter_eq_cons_iff.1 h₂
  have hm₂ : m₂ ≠ [] := by
    rintro rfl
    exact hb h₃.symm
  have hp : pieces false t = (l₁ ++ m₁) ++ w :: m₂ := by
    rw [hl, hm, List.append_assoc]
  have hq := quoteAfter_of_pieces hp hm₂
  rwa [ite_self] at hq

end Words
