import Mathlib.Algebra.Ring.Nat
import Mathlib.Data.List.Forall2
import Mathlib.Data.Nat.Notation
import Mathlib.Tactic.SplitIfs

/-!
# UTF-8, read with replacements

`lossy` reads bytes as UTF-8 the way `String::from_utf8_lossy` does: where no character can
be read, the bytes that could still have begun one are replaced by `U+FFFD`, and at least
one byte is.

* `lossy_utf8`: the text of a well-formed encoding is the encoded text.
* `lossy_append_ascii`: a byte below 128 is a character of its own wherever it stands, so
  texts can be read up to it and after it.
* `map_isPrefix_lossy`: and it is read nowhere else.
* `hexDigit`, `digitByte`: a hexadecimal digit as a byte.
-/

namespace Utf8

open Bool List

variable {a b x : UInt8}

abbrev Bytes := List UInt8
abbrev Text := List Char

/-- The encoding of a text. -/
def utf8 (t : Text) : Bytes := t.flatMap String.utf8EncodeChar

/-- `U+FFFD` -/
def replacement : Char := Char.ofNat 0xFFFD

/-! ## Sequences of bytes -/

/-- A byte that continues a character. -/
def follows (b : UInt8) : Bool := 0x80 ≤ b.toNat && b.toNat < 0xC0

/-- The first byte of a character of two bytes. -/
def leads2 (b : UInt8) : Bool := 0xC2 ≤ b.toNat && b.toNat < 0xE0

/-- The first byte of a character of three bytes. -/
def leads3 (b : UInt8) : Bool := 0xE0 ≤ b.toNat && b.toNat < 0xF0

/-- The first byte of a character of four bytes. -/
def leads4 (b : UInt8) : Bool := 0xF0 ≤ b.toNat && b.toNat < 0xF5

/-- The second byte of a character of three bytes: no longer than needed, and no surrogate. -/
def second3 (a b : UInt8) : Bool :=
  follows b && (a.toNat != 0xE0 || 0xA0 ≤ b.toNat) && (a.toNat != 0xED || b.toNat < 0xA0)

/-- The second byte of a character of four bytes: no longer than needed, and below `U+110000`. -/
def second4 (a b : UInt8) : Bool :=
  follows b && (a.toNat != 0xF0 || 0x90 ≤ b.toNat) && (a.toNat != 0xF4 || b.toNat < 0x90)

/-- What the bytes after a first byte have to be, if it is one. -/
def tailOf (a : UInt8) : Option (List (UInt8 → Bool)) :=
  if a.toNat < 0x80 then some []
  else if leads2 a then some [follows]
  else if leads3 a then some [second3 a, follows]
  else if leads4 a then some [second4 a, follows, follows]
  else none

/-- Bytes are taken as long as they are what they have to be; `none` if that ends early. -/
@[simp] def accept : List (UInt8 → Bool) → Bytes → Option Bytes × Bytes
  | [], bs => (some [], bs)
  | _ :: _, [] => (none, [])
  | p :: ps, b :: bs =>
    if p b then ((accept ps bs).1.map (b :: ·), (accept ps bs).2) else (none, b :: bs)

/-- The character of a first byte and the bytes after it. -/
def assemble (a : UInt8) : Bytes → Char
  | [] => Char.ofNat a.toNat
  | [b] => Char.ofNat ((a.toNat - 0xC0) * 64 + (b.toNat - 0x80))
  | [b, c] => Char.ofNat ((a.toNat - 0xE0) * 4096 + (b.toNat - 0x80) * 64 + (c.toNat - 0x80))
  | b :: c :: d :: _ => Char.ofNat ((a.toNat - 0xF0) * 262144 + (b.toNat - 0x80) * 4096 +
      (c.toNat - 0x80) * 64 + (d.toNat - 0x80))

/-- The character that is read first, and what is left. -/
def readChar (a : UInt8) (as : Bytes) : Char × Bytes :=
  match tailOf a with
  | none => (replacement, as)
  | some ps => (((accept ps as).1.map (assemble a)).getD replacement, (accept ps as).2)

theorem length_accept (ps : List (UInt8 → Bool)) (bs : Bytes) :
    (accept ps bs).2.length ≤ bs.length := by
  induction ps generalizing bs with
  | nil => exact Nat.le_refl _
  | cons p ps ih =>
    cases bs with
    | nil => exact Nat.le_refl _
    | cons b bs =>
      rw [accept]
      split_ifs
      · exact Nat.le_succ_of_le (ih bs)
      · exact Nat.le_refl _

theorem length_readChar (a : UInt8) (as : Bytes) : (readChar a as).2.length ≤ as.length := by
  rw [readChar]
  cases tailOf a with
  | none => exact Nat.le_refl _
  | some ps => exact length_accept ps as

/-- `String::from_utf8_lossy` -/
def lossy : Bytes → Text
  | [] => []
  | a :: as => (readChar a as).1 :: lossy (readChar a as).2
termination_by bs => bs.length
decreasing_by exact Nat.lt_succ_of_le (length_readChar a as)

theorem lossy_nil : lossy [] = [] := by
  rw [lossy]

theorem lossy_cons (a : UInt8) (as : Bytes) :
    lossy (a :: as) = (readChar a as).1 :: lossy (readChar a as).2 := by
  rw [lossy]

/-! ## Characters of one byte -/

theorem lossy_ascii (h : a.toNat < 0x80) (as : Bytes) : lossy (a :: as) = Char.ofNat a.toNat :: lossy as := by
  have htail : tailOf a = some [] := by rw [tailOf, if_pos h]
  rw [lossy_cons, readChar, htail]
  rfl

variable {ps : List (UInt8 → Bool)} {bs : Bytes} {v : ℕ}

/-- A character of one byte is nowhere after a first byte. -/
theorem tailOf_ascii (h : x.toNat < 0x80) (ha : tailOf a = some ps) : ∀ p ∈ ps, p x = false := by
  have hf : follows x = false := by
    simp only [follows, and_eq_false_iff, decide_eq_false_iff_not]
    omega
  rw [tailOf] at ha
  split_ifs at ha <;> cases ha <;> simp [second3, second4, hf]

theorem accept_append (h : ∀ p ∈ ps, p x = false) (as ys : Bytes) :
    accept ps (as ++ x :: ys) = ((accept ps as).1, (accept ps as).2 ++ x :: ys) := by
  induction ps generalizing as with
  | nil => rfl
  | cons p ps ih =>
    cases as with
    | nil => simp [h p mem_cons_self]
    | cons a as =>
      rw [cons_append, accept, accept, ih fun q hq => h q (mem_cons_of_mem p hq)]
      split_ifs <;> rfl

/-- Bytes are read up to a character of one byte, and after it. -/
theorem lossy_append_ascii (h : x.toNat < 0x80) (xs ys : Bytes) :
    lossy (xs ++ x :: ys) = lossy xs ++ Char.ofNat x.toNat :: lossy ys := by
  induction hn : xs.length using Nat.strong_induction_on generalizing xs with
  | h n ih =>
    cases xs with
    | nil => rw [nil_append, lossy_ascii h, lossy_nil, nil_append]
    | cons a as =>
      have hread : readChar a (as ++ x :: ys) =
          ((readChar a as).1, (readChar a as).2 ++ x :: ys) := by
        rw [readChar, readChar]
        cases ha : tailOf a with
        | none => rfl
        | some ps => simp only [accept_append (tailOf_ascii h ha)]
      have hlen := length_readChar a as
      rw [cons_append, lossy_cons, lossy_cons, hread,
        ih _ (by rw [← hn, length_cons]; omega) _ rfl, cons_append]

theorem follows_iff : follows b = true ↔ 0x80 ≤ b.toNat ∧ b.toNat < 0xC0 := by
  simp [follows]

/-- The bytes that are taken are what they have to be. -/
theorem accept_eq_some {taken : Bytes} (h : (accept ps bs).1 = some taken) :
    List.Forall₂ (fun p b => p b = true) ps taken := by
  induction ps generalizing bs taken with
  | nil =>
    cases h
    exact .nil
  | cons p ps ih =>
    cases bs with
    | nil => cases h
    | cons b bs =>
      rw [accept] at h
      split_ifs at h with hb
      · obtain ⟨more, hmore, rfl⟩ := Option.map_eq_some_iff.1 h
        exact .cons hb (ih hmore)

theorem toNat_ofNat (h : v < 0xD800 ∨ 0xDFFF < v ∧ v < 0x110000) : (Char.ofNat v).toNat = v := by
  have hv : v.isValidChar := h
  rw [Char.ofNat, dif_pos hv]
  exact UInt32.toNat_ofNatLT

/-- A character that begins with a byte of 128 or more is no character of one byte. -/
theorem assemble_not_ascii {taken : Bytes} (ha : ¬ a.toNat < 0x80) (hps : tailOf a = some ps)
    (h : List.Forall₂ (fun p b => p b = true) ps taken) : 0x80 ≤ (assemble a taken).toNat := by
  rw [tailOf, if_neg ha] at hps
  split_ifs at hps with h2 h3 h4
  · cases hps
    obtain ⟨b, _, hb, hnil, rfl⟩ := List.forall₂_cons_left_iff.1 h
    cases hnil
    rw [follows_iff] at hb
    simp only [leads2, and_eq_true, decide_eq_true_eq] at h2
    rw [assemble, toNat_ofNat (by omega)]
    omega
  · cases hps
    obtain ⟨b, _, hb, hmore, rfl⟩ := List.forall₂_cons_left_iff.1 h
    obtain ⟨c, _, hc, hnil, rfl⟩ := List.forall₂_cons_left_iff.1 hmore
    cases hnil
    simp only [leads3, and_eq_true, decide_eq_true_eq] at h3
    simp only [second3, and_eq_true, or_eq_true, bne_iff_ne, decide_eq_true_eq,
      follows_iff] at hb hc
    rw [assemble, toNat_ofNat (by omega)]
    omega
  · cases hps
    obtain ⟨b, _, hb, hmore, rfl⟩ := List.forall₂_cons_left_iff.1 h
    obtain ⟨c, _, hc, hlast, rfl⟩ := List.forall₂_cons_left_iff.1 hmore
    obtain ⟨d, _, hd, hnil, rfl⟩ := List.forall₂_cons_left_iff.1 hlast
    cases hnil
    simp only [leads4, and_eq_true, decide_eq_true_eq] at h4
    simp only [second4, and_eq_true, or_eq_true, bne_iff_ne, decide_eq_true_eq,
      follows_iff] at hb hc hd
    rw [assemble, toNat_ofNat (by omega)]
    omega

theorem readChar_not_ascii (ha : ¬ a.toNat < 0x80) (as : Bytes) : 0x80 ≤ (readChar a as).1.toNat := by
  have hrep : 0x80 ≤ replacement.toNat := by decide
  rw [readChar]
  cases hps : tailOf a with
  | none => exact hrep
  | some ps =>
    cases htaken : (accept ps as).1 with
    | none => simpa [htaken] using hrep
    | some taken => simpa [htaken] using assemble_not_ascii ha hps (accept_eq_some htaken)

theorem lossy_append_of_ascii {w : Bytes} (h : ∀ b ∈ w, b.toNat < 0x80) (bs : Bytes) :
    lossy (w ++ bs) = (w.map fun b => Char.ofNat b.toNat) ++ lossy bs := by
  induction w with
  | nil => rfl
  | cons b w ih =>
    rw [cons_append, lossy_ascii (h b mem_cons_self),
      ih fun x hx => h x (mem_cons_of_mem b hx), map_cons, cons_append]

theorem lossy_of_ascii (h : ∀ b ∈ bs, b.toNat < 0x80) :
    lossy bs = bs.map fun b => Char.ofNat b.toNat := by
  have happ := lossy_append_of_ascii h []
  rwa [append_nil, lossy_nil, append_nil] at happ

/-- A text of one-byte characters is that of such bytes. -/
theorem ascii_of_lossy (h : ∀ c ∈ lossy bs, c.toNat < 0x80) : ∀ b ∈ bs, b.toNat < 0x80 := by
  induction bs with
  | nil => simp
  | cons a as ih =>
    have ha : a.toNat < 0x80 := by
      by_contra ha
      have hlow := h (readChar a as).1 (by rw [lossy_cons]; exact mem_cons_self)
      exact absurd (readChar_not_ascii ha as) (Nat.not_le.2 hlow)
    rw [lossy_ascii ha] at h
    exact forall_mem_cons.2 ⟨ha, ih (forall_mem_cons.1 h).2⟩

/-- A text of one-byte characters is where its bytes are. -/
theorem map_isPrefix_lossy {w : Bytes} (h : ∀ b ∈ w, b.toNat < 0x80) :
    (w.map fun b => Char.ofNat b.toNat) <+: lossy bs ↔ w <+: bs := by
  constructor
  · intro hin
    induction w generalizing bs with
    | nil => exact nil_prefix
    | cons b w ih =>
      have hb : b.toNat < 0x80 := h b mem_cons_self
      cases bs with
      | nil =>
        rw [lossy_nil] at hin
        exact absurd (prefix_nil.1 hin) (cons_ne_nil _ _)
      | cons a as =>
        have hchar : (Char.ofNat b.toNat).toNat = b.toNat := toNat_ofNat (by omega)
        have ha : a.toNat < 0x80 := by
          by_contra hna
          rw [lossy_cons, map_cons, cons_prefix_cons] at hin
          have := readChar_not_ascii hna as
          rw [← hin.1, hchar] at this
          omega
        rw [lossy_ascii ha, map_cons, cons_prefix_cons] at hin
        have hab : b = a := by
          apply UInt8.toNat.inj
          rw [← hchar, hin.1, toNat_ofNat (by omega)]
        rw [hab, cons_prefix_cons]
        exact ⟨rfl, ih (fun x hx => h x (mem_cons_of_mem b hx)) hin.2⟩
  · rintro ⟨r, rfl⟩
    rw [lossy_append_of_ascii h]
    exact prefix_append _ _

/-! ## Encoded texts -/

theorem char_toNat (c : Char) : c.toNat < 0x110000 ∧ ¬ (0xD800 ≤ c.toNat ∧ c.toNat < 0xE000) := by
  have h := c.valid
  change c.toNat < 0xD800 ∨ 0xDFFF < c.toNat ∧ c.toNat < 0x110000 at h
  omega

/-- A first byte with the bytes after it that it asks for. -/
theorem lossy_of_accept (ps : List (UInt8 → Bool)) (taken : Bytes) {c : Char}
    (ha : tailOf a = some ps) (htaken : ∀ r, accept ps (taken ++ r) = (some taken, r))
    (hc : assemble a taken = c) (r : Bytes) : lossy (a :: taken ++ r) = c :: lossy r := by
  rw [cons_append, lossy_cons, readChar, ha]
  simp only [htaken r, Option.map_some, Option.getD_some, hc]

theorem lossy_two (ha : a.toNat = v / 64 + 0xC0) (hb : b.toNat = v % 64 + 0x80) (hlow : 0x80 ≤ v)
    (hhigh : v < 0x800) (r : Bytes) : lossy (a :: [b] ++ r) = Char.ofNat v :: lossy r := by
  have hfb : follows b = true := follows_iff.2 (by omega)
  refine lossy_of_accept [follows] [b] ?_ (fun r => ?_) ?_ r
  · have h2 : leads2 a = true := by simp only [leads2, Bool.and_eq_true, decide_eq_true_eq]; omega
    rw [tailOf, if_neg (by omega), if_pos h2]
  · simp [hfb]
  · rw [assemble, ha, hb]
    exact congrArg Char.ofNat (by omega)

theorem lossy_three {c : UInt8} (ha : a.toNat = v / 4096 + 0xE0) (hb : b.toNat = v / 64 % 64 + 0x80)
    (hc : c.toNat = v % 64 + 0x80) (hlow : 0x800 ≤ v) (hhigh : v < 0x10000)
    (hsur : ¬ (0xD800 ≤ v ∧ v < 0xE000)) (r : Bytes) :
    lossy (a :: [b, c] ++ r) = Char.ofNat v :: lossy r := by
  have hfb : follows b = true := follows_iff.2 (by omega)
  have hfc : follows c = true := follows_iff.2 (by omega)
  have hsecond : second3 a b = true := by
    simp only [second3, hfb, Bool.true_and, Bool.and_eq_true, Bool.or_eq_true, bne_iff_ne,
      decide_eq_true_eq]
    omega
  refine lossy_of_accept [second3 a, follows] [b, c] ?_ (fun r => ?_) ?_ r
  · have h2 : ¬ leads2 a = true := by simp only [leads2, Bool.and_eq_true, decide_eq_true_eq]; omega
    have h3 : leads3 a = true := by simp only [leads3, Bool.and_eq_true, decide_eq_true_eq]; omega
    rw [tailOf, if_neg (by omega), if_neg h2, if_pos h3]
  · simp [hsecond, hfc]
  · rw [assemble, ha, hb, hc]
    exact congrArg Char.ofNat (by omega)

theorem lossy_four {c d : UInt8} (ha : a.toNat = v / 262144 + 0xF0)
    (hb : b.toNat = v / 4096 % 64 + 0x80) (hc : c.toNat = v / 64 % 64 + 0x80)
    (hd : d.toNat = v % 64 + 0x80) (hlow : 0x10000 ≤ v) (hhigh : v < 0x110000) (r : Bytes) :
    lossy (a :: [b, c, d] ++ r) = Char.ofNat v :: lossy r := by
  have hfb : follows b = true := follows_iff.2 (by omega)
  have hfc : follows c = true := follows_iff.2 (by omega)
  have hfd : follows d = true := follows_iff.2 (by omega)
  have hsecond : second4 a b = true := by
    simp only [second4, hfb, Bool.true_and, Bool.and_eq_true, Bool.or_eq_true, bne_iff_ne,
      decide_eq_true_eq]
    omega
  refine lossy_of_accept [second4 a, follows, follows] [b, c, d] ?_ (fun r => ?_) ?_ r
  · have h2 : ¬ leads2 a = true := by simp only [leads2, Bool.and_eq_true, decide_eq_true_eq]; omega
    have h3 : ¬ leads3 a = true := by simp only [leads3, Bool.and_eq_true, decide_eq_true_eq]; omega
    have h4 : leads4 a = true := by simp only [leads4, Bool.and_eq_true, decide_eq_true_eq]; omega
    rw [tailOf, if_neg (by omega), if_neg h2, if_neg h3, if_pos h4]
  · simp [hsecond, hfc, hfd]
  · rw [assemble, ha, hb, hc, hd]
    exact congrArg Char.ofNat (by omega)

theorem lossy_encodeChar (c : Char) (r : Bytes) :
    lossy (String.utf8EncodeChar c ++ r) = c :: lossy r := by
  obtain ⟨hlt, hsur⟩ := char_toNat c
  have hc : Char.ofNat c.toNat = c := Char.ofNat_toNat c
  have hbyte : ∀ n, n < 256 → (UInt8.ofNat n).toNat = n := by
    intro n hn
    exact Nat.mod_eq_of_lt hn
  have hencode : String.utf8EncodeChar c =
      if c.toNat ≤ 0x7f then [UInt8.ofNat c.toNat]
      else if c.toNat ≤ 0x7ff then
        [UInt8.ofNat (c.toNat / 64 % 0x20 + 0xc0), UInt8.ofNat (c.toNat % 0x40 + 0x80)]
      else if c.toNat ≤ 0xffff then
        [UInt8.ofNat (c.toNat / 4096 % 0x10 + 0xe0), UInt8.ofNat (c.toNat / 64 % 0x40 + 0x80),
          UInt8.ofNat (c.toNat % 0x40 + 0x80)]
      else
        [UInt8.ofNat (c.toNat / 262144 % 0x08 + 0xf0), UInt8.ofNat (c.toNat / 4096 % 0x40 + 0x80),
          UInt8.ofNat (c.toNat / 64 % 0x40 + 0x80), UInt8.ofNat (c.toNat % 0x40 + 0x80)] := rfl
  rw [hencode]
  generalize c.toNat = v at hlt hsur hc
  subst hc
  split_ifs with h1 h2 h3
  · rw [singleton_append, lossy_ascii (by rw [hbyte v (by omega)]; omega), hbyte v (by omega)]
  · exact lossy_two (by rw [hbyte _ (by omega)]; omega) (hbyte _ (by omega)) (by omega) (by omega) r
  · exact lossy_three (by rw [hbyte _ (by omega)]; omega) (hbyte _ (by omega)) (hbyte _ (by omega))
      (by omega) (by omega) hsur r
  · exact lossy_four (by rw [hbyte _ (by omega)]; omega) (hbyte _ (by omega)) (hbyte _ (by omega))
      (hbyte _ (by omega)) (by omega) hlt r

/-- The text of a well-formed encoding. -/
theorem lossy_utf8 (t : Text) : lossy (utf8 t) = t := by
  induction t with
  | nil => exact lossy_nil
  | cons c t ih =>
    change lossy (String.utf8EncodeChar c ++ utf8 t) = _
    rw [lossy_encodeChar, ih]

/-! ## Hexadecimal digits -/

/-- The value of a hexadecimal digit. -/
def hexDigit (b : UInt8) : Option ℕ :=
  if 48 ≤ b.toNat ∧ b.toNat ≤ 57 then some (b.toNat - 48)
  else if 97 ≤ b.toNat ∧ b.toNat ≤ 102 then some (b.toNat - 87)
  else if 65 ≤ b.toNat ∧ b.toNat ≤ 70 then some (b.toNat - 55)
  else none

theorem hexDigit_lt {d : ℕ} (h : hexDigit b = some d) : d < 16 ∧ b.toNat < 0x80 := by
  unfold hexDigit at h
  split_ifs at h <;> cases h <;> omega

/-- A hexadecimal digit, in upper or lower case. -/
def digitChar (upper : Bool) (n : ℕ) : Char :=
  Char.ofNat (if n < 10 then 48 + n else if upper then 55 + n else 87 + n)

/-- The byte of a digit. -/
def digitByte (upper : Bool) (n : ℕ) : UInt8 := UInt8.ofNat (digitChar upper n).toNat

theorem utf8_digitChar (upper : Bool) : ∀ n < 16,
    String.utf8EncodeChar (digitChar upper n) = [digitByte upper n] ∧
      hexDigit (digitByte upper n) = some n := by
  cases upper <;> decide

end Utf8
