import Lnx.Lib.Strings
import Lnx.Lib.Utf8
import Mathlib.Tactic.Common

/-!
# Fork requests in a request target

`src/src/ingress.rs`, lines 1883–1931. A request whose target has a query pair
`lnx:fork=SOURCE` makes the proxy fork an instance and answer with a redirect to the same
target without that pair.

* `fork_redirect_ends`: the target of the redirect asks for no fork, and is otherwise the
  target of the request.
* `percentDecode_iff`: `percent_decode` reads `%` and two hexadecimal digits as a byte, and
  nothing else, unless a `%` is followed by `+` and a digit.
* `signed_escape_decodes`: that one is read as well.
-/

namespace Lnx.Ingress

open List
open Lines (splitOnce)
open Strings
open Utf8

variable {path target : Text}

/-! ## Percent decoding -/

/-- The digits of `u8::from_str_radix`, added to what was read before. -/
@[simp] def radixDigits (acc : ℕ) : Bytes → Option ℕ
  | [] => if acc < 256 then some acc else none
  | b :: bs => (hexDigit b).bind fun d => radixDigits (16 * acc + d) bs

/-- `u8::from_str_radix(text, 16)`, which allows for a plus sign. -/
def fromStrRadix16 (text : Bytes) : Option ℕ :=
  let digits := if text.head? = some 43 then text.tail else text
  if digits = [] then none else radixDigits 0 digits

/-- `std::str::from_utf8` of two bytes. -/
def isUtf8Pair (a b : UInt8) : Bool :=
  (a.toNat < 0x80 && b.toNat < 0x80) || (leads2 a && follows b)

/-- The byte that two bytes after a `%` stand for. -/
def escaped (a b : UInt8) : Option UInt8 :=
  if isUtf8Pair a b then (fromStrRadix16 [a, b]).map UInt8.ofNat else none

/-- The loop of `percent_decode`, for any reading of the two bytes after a `%`. -/
def unescape (esc : UInt8 → UInt8 → Option UInt8) : Bytes → Bytes
  | [] => []
  | [x] => [x]
  | [x, a] => [x, a]
  | x :: a :: b :: rest =>
    match if x = 37 then esc a b else none with
    | some y => y :: unescape esc rest
    | none => x :: unescape esc (a :: b :: rest)

/-- `percent_decode` (lines 1913–1931). -/
def percentDecode (value : Text) : Text := lossy (unescape escaped (utf8 value))

/-! ### What it is to read -/

/-- The byte that two hexadecimal digits denote. -/
def twoDigits (a b : UInt8) : Option UInt8 :=
  (hexDigit a).bind fun h => (hexDigit b).map fun l => UInt8.ofNat (16 * h + l)

/-- `%` followed by two hexadecimal digits stands for the byte they denote. -/
def percentReading (value : Text) : Text := lossy (unescape twoDigits (utf8 value))

theorem unescape_cons (esc : UInt8 → UInt8 → Option UInt8) {x : UInt8} (hx : x ≠ 37) (rest : Bytes) :
    unescape esc (x :: rest) = x :: unescape esc rest := by
  rcases rest with _ | ⟨a, _ | ⟨b, rest⟩⟩
  · rfl
  · rfl
  · rw [unescape, if_neg hx]

variable {b : UInt8}

theorem hexDigit_plus : hexDigit 43 = none := by decide

theorem escaped_of_ne {a : UInt8} (ha : a ≠ 43) (b : UInt8) : escaped a b = twoDigits a b := by
  have hradix : fromStrRadix16 [a, b] =
      (hexDigit a).bind fun h => (hexDigit b).bind fun l => radixDigits (16 * h + l) [] := by
    simp [fromStrRadix16, ha]
  unfold escaped twoDigits
  rw [hradix]
  cases ha' : hexDigit a with
  | none => simp
  | some h =>
    cases hb' : hexDigit b with
    | none => simp
    | some l =>
      obtain ⟨hh, hha⟩ := hexDigit_lt ha'
      obtain ⟨hl, hlb⟩ := hexDigit_lt hb'
      have hpair : isUtf8Pair a b = true := by simp [isUtf8Pair, hha, hlb]
      have hsmall : 16 * h + l < 256 := by omega
      simp [hpair, hsmall]

/-- The sign that `from_str_radix` allows. -/
theorem escaped_plus (b : UInt8) : escaped 43 b = (hexDigit b).map UInt8.ofNat := by
  have hradix : fromStrRadix16 [43, b] = (hexDigit b).bind fun l => radixDigits l [] := by
    simp [fromStrRadix16]
  unfold escaped
  rw [hradix]
  cases hb' : hexDigit b with
  | none => simp
  | some l =>
    obtain ⟨hl, hlb⟩ := hexDigit_lt hb'
    have hpair : isUtf8Pair 43 b = true := by simp [isUtf8Pair, hlb]
    have hsmall : l < 256 := by omega
    simp [hpair, hsmall]

/-- How often a `%` is followed by a plus sign and a digit. -/
@[simp] def signedEscapes : Bytes → ℕ
  | x :: a :: b :: rest =>
    (if x = 37 ∧ a = 43 ∧ (hexDigit b).isSome then 1 else 0) + signedEscapes (a :: b :: rest)
  | _ => 0

theorem signedEscapes_cons {x : UInt8} (hx : x ≠ 37) (rest : Bytes) :
    signedEscapes (x :: rest) = signedEscapes rest := by
  rcases rest with _ | ⟨a, _ | ⟨b, rest⟩⟩
  · rfl
  · rfl
  · rw [signedEscapes, if_neg (fun h => hx h.1), Nat.zero_add]

theorem ne_percent_of_hexDigit {d : ℕ} (h : hexDigit b = some d) : b ≠ 37 := by
  rintro rfl
  cases h

/-- A reading and what is decoded, which differ in `n` signed escapes. -/
inductive Differ : Bytes → Bytes → ℕ → Prop
  | nil : Differ [] [] 0
  | same {r d : Bytes} {n : ℕ} (y : UInt8) : Differ r d n → Differ (y :: r) (y :: d) n
  | signed {r d : Bytes} {n v : ℕ} {b : UInt8} (hb : hexDigit b = some v) :
      Differ r d n → Differ (37 :: 43 :: b :: r) (UInt8.ofNat v :: d) (n + 1)

theorem differ_unescape (bs : Bytes) :
    Differ (unescape twoDigits bs) (unescape escaped bs) (signedEscapes bs) := by
  induction hn : bs.length using Nat.strong_induction_on generalizing bs with
  | h n ih =>
    rcases bs with _ | ⟨x, _ | ⟨a, _ | ⟨b, rest⟩⟩⟩
    · exact .nil
    · exact .same x .nil
    · exact .same x (.same a .nil)
    · have hnext := ih _ (by rw [← hn]; exact Nat.lt_succ_self _) (a :: b :: rest) rfl
      have hrest := ih rest.length (by rw [← hn]; simp only [length_cons]; omega) rest rfl
      by_cases hx : x = 37
      · subst hx
        by_cases ha : a = 43
        · subst ha
          have htwo : twoDigits 43 b = none := by simp [twoDigits, hexDigit_plus]
          rw [unescape, unescape, signedEscapes, if_pos rfl, if_pos rfl, htwo, escaped_plus]
          cases hb : hexDigit b with
          | none => simpa using Differ.same 37 hnext
          | some v =>
            have hb37 := ne_percent_of_hexDigit hb
            rw [unescape_cons _ (by decide), unescape_cons _ hb37, signedEscapes_cons (by decide),
              signedEscapes_cons hb37, Nat.add_comm]
            exact .signed hb hrest
        · rw [unescape, unescape, signedEscapes, if_pos rfl, if_pos rfl, escaped_of_ne ha,
            if_neg (fun h => ha h.2.1), Nat.zero_add]
          cases htwo : twoDigits a b with
          | none => exact .same 37 hnext
          | some y =>
            obtain ⟨h, hh, hl⟩ := Option.bind_eq_some_iff.1 htwo
            obtain ⟨l, hl, -⟩ := Option.map_eq_some_iff.1 hl
            rw [signedEscapes_cons (ne_percent_of_hexDigit hh),
              signedEscapes_cons (ne_percent_of_hexDigit hl)]
            exact .same y hrest
      · rw [unescape_cons _ hx, unescape_cons _ hx, signedEscapes_cons hx]
        exact .same x hnext

/-- Each signed escape is three characters of the reading and one of the decoded text. What
    comes before (`p`) may end within a character. -/
theorem Differ.length_lossy {r d : Bytes} {n : ℕ} (h : Differ r d n) (p : Bytes) :
    (lossy (p ++ r)).length = (lossy (p ++ d)).length + 2 * n := by
  induction h generalizing p with
  | nil => rfl
  | same y h ih => simpa using ih (p ++ [y])
  | @signed r d n v b hb h ih =>
    obtain ⟨hv, hlow⟩ := hexDigit_lt hb
    have hvlow : (UInt8.ofNat v).toNat < 0x80 := by
      rw [UInt8.toNat_ofNat']
      omega
    have hrest := ih []
    simp only [nil_append] at hrest
    rw [lossy_append_ascii (by decide), lossy_ascii (by decide), lossy_ascii hlow,
      lossy_append_ascii hvlow]
    simp only [length_append, length_cons, hrest]
    omega

theorem Differ.eq_of_zero {r d : Bytes} (h : Differ r d 0) : r = d := by
  generalize hn : 0 = n at h
  induction h with
  | nil => rfl
  | same y h ih => rw [ih hn]
  | signed hb h => cases hn

theorem signedEscapes_eq_zero (bs : Bytes) : signedEscapes bs = 0 ↔
    ∀ x b y, bs = x ++ 37 :: 43 :: b :: y → hexDigit b = none := by
  induction bs with
  | nil => simp
  | cons z bs ih =>
    -- the occurrences are the first one, and those further on
    have hsplit : (∀ x b y, z :: bs = x ++ 37 :: 43 :: b :: y → hexDigit b = none) ↔
        (∀ b y, z :: bs = 37 :: 43 :: b :: y → hexDigit b = none) ∧ signedEscapes bs = 0 := by
      rw [ih]
      constructor
      · intro h
        refine ⟨fun b y he => h [] b y he, ?_⟩
        intro x b y he
        exact h (z :: x) b y (by rw [he, cons_append])
      · rintro ⟨hfirst, hlater⟩ x b y he
        cases x with
        | nil => exact hfirst b y he
        | cons w x => exact hlater x b y (List.cons.inj he).2
    rw [hsplit]
    rcases bs with _ | ⟨a, _ | ⟨b, rest⟩⟩
    · simp
    · simp
    · rw [signedEscapes]
      constructor
      · intro h
        have hone : ¬ (z = 37 ∧ a = 43 ∧ (hexDigit b).isSome = true) := by
          intro hc
          rw [if_pos hc] at h
          omega
        refine ⟨?_, by omega⟩
        rintro b' y ⟨⟩
        simpa using hone
      · rintro ⟨hfirst, hlater⟩
        rw [hlater, if_neg]
        rintro ⟨rfl, rfl, hb⟩
        rw [hfirst b rest rfl] at hb
        cases hb

/-! ### What is encoded -/

/-- The percent-encoding of a text, in which the bytes of ASCII that `keep` allows stay. -/
def percentEncode (upper : Bool) (keep : UInt8 → Bool) (t : Text) : Text :=
  (utf8 t).flatMap fun b =>
    if b.toNat < 0x80 && b != 37 && keep b then [Char.ofNat b.toNat]
    else ['%', digitChar upper (b.toNat / 16), digitChar upper (b.toNat % 16)]

theorem utf8_ascii (h : b.toNat < 0x80) : String.utf8EncodeChar (Char.ofNat b.toNat) = [b] := by
  have hchar : (Char.ofNat b.toNat).toNat = b.toNat := toNat_ofNat (.inl (by omega))
  change (if (Char.ofNat b.toNat).toNat ≤ 0x7f then [UInt8.ofNat (Char.ofNat b.toNat).toNat] else _) = _
  rw [hchar, if_pos (by omega), UInt8.ofNat_toNat]

theorem unescape_percentEncode (upper : Bool) (keep : UInt8 → Bool) (bs : Bytes) :
    unescape escaped (utf8 (bs.flatMap fun b =>
      if b.toNat < 0x80 && b != 37 && keep b then [Char.ofNat b.toNat]
      else ['%', digitChar upper (b.toNat / 16), digitChar upper (b.toNat % 16)])) = bs := by
  induction bs with
  | nil => rfl
  | cons b bs ih =>
    rw [flatMap_cons, utf8, flatMap_append]
    split_ifs with hkeep
    · simp only [Bool.and_eq_true, decide_eq_true_eq, bne_iff_ne] at hkeep
      rw [flatMap_singleton, utf8_ascii hkeep.1.1, singleton_append, unescape_cons _ hkeep.1.2]
      rw [show List.flatMap _ _ = utf8 _ from rfl, ih]
    · have hb := b.toNat_lt
      obtain ⟨hhigh, hhigh'⟩ := utf8_digitChar upper (b.toNat / 16) (by omega)
      obtain ⟨hlow, hlow'⟩ := utf8_digitChar upper (b.toNat % 16) (by omega)
      have hne : digitByte upper (b.toNat / 16) ≠ 43 := by
        intro heq
        rw [heq, hexDigit_plus] at hhigh'
        cases hhigh'
      have htwo : twoDigits (digitByte upper (b.toNat / 16)) (digitByte upper (b.toNat % 16)) = some b := by
        rw [twoDigits, hhigh', hlow', Option.bind_some, Option.map_some, Nat.div_add_mod,
          UInt8.ofNat_toNat]
      have hpercent : String.utf8EncodeChar '%' = [37] := by decide
      simp only [flatMap_cons, flatMap_nil, hpercent, hhigh, hlow, nil_append,
        append_nil, cons_append]
      rw [unescape, if_pos rfl, escaped_of_ne hne, htwo]
      rw [show List.flatMap _ _ = utf8 _ from rfl, ih]

/-- `percent_decode` reads as it is to, but for signed escapes; what is encoded is read back. -/
theorem percentDecode_iff (value : Text) :
    (percentDecode value = percentReading value ↔
      ∀ x b y, utf8 value = x ++ 37 :: 43 :: b :: y → hexDigit b = none) ∧
    ∀ upper keep, percentDecode (percentEncode upper keep value) = value := by
  refine ⟨?_, ?_⟩
  · rw [← signedEscapes_eq_zero]
    have hdiffer := differ_unescape (utf8 value)
    constructor
    · intro h
      have hlen := hdiffer.length_lossy []
      rw [percentDecode, percentReading] at h
      rw [nil_append, nil_append, ← h] at hlen
      omega
    · intro h
      rw [h] at hdiffer
      rw [percentDecode, percentReading, hdiffer.eq_of_zero]
  · intro upper keep
    rw [percentDecode, percentEncode, unescape_percentEncode, lossy_utf8]

/-- `%+f` is decoded as the byte 15. -/
theorem signed_escape_decodes :
    percentDecode ['%', '+', 'f'] = [Char.ofNat 15] ∧
      percentReading ['%', '+', 'f'] = ['%', '+', 'f'] := by
  have hbytes : utf8 ['%', '+', 'f'] = [37, 43, 102] := by decide
  have hdecode : unescape escaped [37, 43, 102] = [15] := by decide
  have hread : unescape twoDigits [37, 43, 102] = [37, 43, 102] := by decide
  rw [percentDecode, percentReading, hbytes, hdecode, hread,
    lossy_of_ascii (all_iff_forall_prop.1 (by decide)),
    lossy_of_ascii (all_iff_forall_prop.1 (by decide))]
  decide

/-! ## Query pairs -/

/-- The key of a fork request. -/
def forkKey : Text := "lnx:fork".toList

/-- The key and value of a pair; a pair without `=` is a key. -/
def keyValue (pair : Text) : Text × Text := (splitOnce '=' pair).getD (pair, [])

/-- `fork_source_from_request_target` (lines 1883–1892). -/
def forkSourceFromRequestTarget (target : Text) : Option Text :=
  (splitOnce '?' target).bind fun (_, query) =>
    (query.splitOn '&').findSome? fun pair =>
      let (key, value) := keyValue pair
      if key = forkKey ∧ value ≠ [] then some (percentDecode value) else none

/-- `clean_fork_request_target` (lines 1894–1911). -/
def cleanForkRequestTarget (target : Text) : Text :=
  match splitOnce '?' target with
  | none => target
  | some (path, query) =>
    let kept := ((query.splitOn '&').filter fun pair => (keyValue pair).1 ≠ forkKey).filter
      fun pair => pair ≠ []
    if kept = [] then path else path ++ '?' :: ['&'].intercalate kept

/-! ### What a target has -/

/-- The path of a target. -/
def pathOf (target : Text) : Text := target.takeWhile (· != '?')

/-- The pairs of a target's query. -/
def pairsOf (target : Text) : List Text :=
  match splitOnce '?' target with
  | none => []
  | some (_, query) => query.splitOn '&'

/-- A pair that a redirect keeps. -/
def Kept (pair : Text) : Prop := pair ≠ [] ∧ (keyValue pair).1 ≠ forkKey

instance (pair : Text) : Decidable (Kept pair) := inferInstanceAs (Decidable (_ ∧ _))

theorem pathOf_append (h : '?' ∉ path) (query : Text) : pathOf (path ++ '?' :: query) = path := by
  have hall : ∀ c ∈ path, (c != '?') = true := fun c hc => bne_iff_ne.2 fun he => h (he ▸ hc)
  rw [pathOf, takeWhile_append_of_pos hall]
  simp

theorem pathOf_of_no_query (h : '?' ∉ target) : pathOf target = target := by
  have hall : ∀ c ∈ target, (c != '?') = true := fun c hc => bne_iff_ne.2 fun he => h (he ▸ hc)
  have htake : (target ++ []).takeWhile (· != '?') = target ++ [] := takeWhile_append_of_pos hall
  rwa [append_nil] at htake

theorem pairsOf_append (h : '?' ∉ path) (query : Text) :
    pairsOf (path ++ '?' :: query) = query.splitOn '&' := by
  rw [pairsOf, Lines.splitOnce_append h]

theorem pairsOf_of_no_query (h : '?' ∉ target) : pairsOf target = [] := by
  rw [pairsOf, splitOnce_of_not_mem h]

theorem clean_of_no_query (h : '?' ∉ target) : cleanForkRequestTarget target = target := by
  rw [cleanForkRequestTarget, splitOnce_of_not_mem h]

theorem clean_append (h : '?' ∉ path) (query : Text) : cleanForkRequestTarget (path ++ '?' :: query) =
      if (query.splitOn '&').filter Kept = [] then path
      else path ++ '?' :: ['&'].intercalate ((query.splitOn '&').filter Kept) := by
  have hkept : ((query.splitOn '&').filter fun pair => (keyValue pair).1 ≠ forkKey).filter
      (fun pair => pair ≠ []) = (query.splitOn '&').filter Kept := by
    rw [filter_filter]
    refine filter_congr fun pair _ => ?_
    by_cases hempty : pair = [] <;> simp [Kept, hempty]
  rw [cleanForkRequestTarget, Lines.splitOnce_append h]
  simp only [hkept]

/-- A target is a path, or a path and a query. -/
theorem target_cases (target : Text) :
    '?' ∉ target ∨ ∃ path query, '?' ∉ path ∧ target = path ++ '?' :: query := by
  by_cases h : '?' ∈ target
  · obtain ⟨path, query, rfl, hpath⟩ := eq_append_cons_of_mem h
    exact .inr ⟨path, query, hpath, rfl⟩
  · exact .inl h

/-- The path stays, and so do the other pairs. -/
theorem parts_clean (target : Text) : pathOf (cleanForkRequestTarget target) = pathOf target ∧
    pairsOf (cleanForkRequestTarget target) = (pairsOf target).filter Kept := by
  rcases target_cases target with h | ⟨path, query, h, rfl⟩
  · rw [clean_of_no_query h, pairsOf_of_no_query h]
    exact ⟨rfl, rfl⟩
  · rw [clean_append h, pathOf_append h, pairsOf_append h]
    split_ifs with hkept
    · rw [hkept]
      exact ⟨pathOf_of_no_query h, pairsOf_of_no_query h⟩
    · refine ⟨pathOf_append h _, ?_⟩
      rw [pairsOf_append h, splitOn_intercalate _ _ hkept]
      intro pair hpair
      exact not_mem_of_mem_splitOn (mem_filter.1 hpair).1

/-- A target with none but other pairs stays. -/
theorem clean_of_kept (h : ∀ pair ∈ pairsOf target, Kept pair) : cleanForkRequestTarget target = target := by
  rcases target_cases target with hpath | ⟨path, query, hpath, rfl⟩
  · exact clean_of_no_query hpath
  · rw [pairsOf_append hpath] at h
    have hall : (query.splitOn '&').filter Kept = query.splitOn '&' :=
      filter_eq_self.2 fun pair hpair => decide_eq_true (h pair hpair)
    rw [clean_append hpath, hall, if_neg (splitOn_ne_nil _ _), intercalate_splitOn]

theorem forkSource_eq (target : Text) : forkSourceFromRequestTarget target =
    (pairsOf target).findSome? fun pair =>
      if (keyValue pair).1 = forkKey ∧ (keyValue pair).2 ≠ [] then
        some (percentDecode (keyValue pair).2) else none := by
  rw [forkSourceFromRequestTarget, pairsOf]
  cases splitOnce '?' target <;> rfl

theorem forkSource_of_kept (h : ∀ pair ∈ pairsOf target, Kept pair) :
    forkSourceFromRequestTarget target = none := by
  rw [forkSource_eq, List.findSome?_eq_none_iff]
  intro pair hpair
  rw [if_neg fun hfork => (h pair hpair).2 hfork.1]

/-- The redirect after a fork asks for no other, and leads to the same target otherwise. -/
theorem fork_redirect_ends (target : Text) :
    forkSourceFromRequestTarget (cleanForkRequestTarget target) = none ∧
    cleanForkRequestTarget (cleanForkRequestTarget target) = cleanForkRequestTarget target ∧
    pathOf (cleanForkRequestTarget target) = pathOf target ∧
    pairsOf (cleanForkRequestTarget target) = (pairsOf target).filter Kept ∧
    ((∀ pair ∈ pairsOf target, Kept pair) → cleanForkRequestTarget target = target) ∧
    ('?' ∉ target → cleanForkRequestTarget (target ++ ['?']) = target) := by
  obtain ⟨hpath, hpairs⟩ := parts_clean target
  have hkept : ∀ pair ∈ pairsOf (cleanForkRequestTarget target), Kept pair := by
    intro pair hpair
    rw [hpairs] at hpair
    exact of_decide_eq_true (mem_filter.1 hpair).2
  refine ⟨forkSource_of_kept hkept, clean_of_kept hkept, hpath, hpairs, clean_of_kept, ?_⟩
  intro h
  rw [clean_append h, if_pos (by decide)]

end Lnx.Ingress
