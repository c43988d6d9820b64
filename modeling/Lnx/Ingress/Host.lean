import Lnx.Lib.Strings
import Mathlib.Data.List.DropRight

/-!
# Hosts of the ingress proxy

`parse_host` and `instance_from_host` of `src/src/ingress.rs` (lines 1933–1966 and 1996–2003):
`p<port>-<instance>.<domain>` leads to a port of an instance, and `<instance>.<domain>` to its
address.

* `parseHost_eq_ok`: what `parse_host` takes for a port of an instance.
* `parseHost_grammar_iff`: these are the hosts it is to take, unless a plus sign is before a
  port, the domain is repeated or the instance has a name that no instance can have.
* `lenient_hosts`: it takes those as well.
-/

namespace Lnx.Ingress

open List
open Lines (Text splitOnce)
open Strings

structure Route where
  instanceName : Text
  port : ℕ
  deriving DecidableEq

inductive HostError
  | notUnder (host domain : Text)
  | mustLookLike (host domain : Text)
  | mustStart (host : Text)
  | invalidPort
  deriving DecidableEq

/-- `str::to_ascii_lowercase` -/
def lower (t : Text) : Text := t.map Char.toLower

/-- `str::trim_end_matches` of dots. -/
def trimDots (t : Text) : Text := t.rdropWhile (· == '.')

/-- `strip_optional_port` (lines 1961–1966). -/
def stripOptionalPort (host : Text) : Text :=
  match rsplitOnce ':' host with
  | some (before, port) => if (parseDec 65536 port).isSome then before else host
  | none => host

/-- The host that both functions go on with. -/
def normalHost (host : Text) : Text := lower (trimDots (stripOptionalPort host))

/-- `parse_host` (lines 1933–1959). -/
def parseHost (host domain : Text) : Except HostError Route :=
  let host := normalHost host
  let suffix := '.' :: lower domain
  if ¬ suffix <:+ host then .error (.notUnder host domain)
  else
    let name := trimEndMatches suffix host
    if '.' ∈ name then .error (.mustLookLike host domain)
    else
      match splitOnce '-' name with
      | none => .error (.mustLookLike host domain)
      | some (label, inst) =>
        match stripChar 'p' label with
        | none => .error (.mustStart host)
        | some port =>
          match parseDec 65536 port with
          | none => .error .invalidPort
          | some port => if port = 0 ∨ inst = [] then .error .invalidPort else .ok ⟨inst, port⟩

/-- `instance_from_host` (lines 1996–2003). -/
def instanceFromHost (host domain : Text) : Option Text :=
  let host := normalHost host
  let suffix := '.' :: lower domain
  if suffix <:+ host then
    let name := host.take (host.length - suffix.length)
    if name ≠ [] ∧ '.' ∉ name then some name else none
  else none

/-! ## What is taken -/

variable {c : Char} {domain host t : Text}

theorem mem_digits_ne {digits : Text} {n : ℕ} (h : IsDecimal digits n) (hc : c.isDigit = false) :
    c ∉ digits := by
  intro hmem
  rw [h.digits c hmem] at hc
  cases hc

theorem parseDec_not_mem {bound n : ℕ} (h : parseDec bound t = some n) (hc : c.isDigit = false)
    (hplus : c ≠ '+') : c ∉ t := by
  obtain ⟨digits, rfl | rfl, hdec, -⟩ := parseDec_eq_some.1 h
  · exact mem_digits_ne hdec hc
  · rw [mem_cons, not_or]
    exact ⟨hplus, mem_digits_ne hdec hc⟩

/-- The part of a host before the domain. -/
theorem trim_domain {d name : Text} {k : ℕ} (hname : '.' ∉ name) :
    trimEndMatches ('.' :: d) (name ++ copies k ('.' :: d)) = name := by
  refine trimEndMatches_append (by simp) ?_ k
  intro hsuffix
  exact hname (hsuffix.subset mem_cons_self)

/-- A host is taken for a port of an instance. -/
theorem parseHost_eq_ok {inst : Text} {port : ℕ} :
    parseHost host domain = .ok ⟨inst, port⟩ ↔ ∃ label k,
      normalHost host = 'p' :: label ++ '-' :: inst ++ copies (k + 1) ('.' :: lower domain) ∧
      parseDec 65536 label = some port ∧ port ≠ 0 ∧ inst ≠ [] ∧ '.' ∉ inst := by
  constructor
  · intro h
    unfold parseHost at h
    simp only at h
    split_ifs at h with hsuffix hdot
    have hne : '.' :: lower domain ≠ [] := by simp
    obtain ⟨k, hhost, hnot⟩ := trimEndMatches_spec hne (normalHost host)
    generalize trimEndMatches ('.' :: lower domain) (normalHost host) = name at hhost hnot hdot h
    cases hsplit : splitOnce '-' name with
    | none => rw [hsplit] at h; cases h
    | some parts =>
      obtain ⟨label, inst'⟩ := parts
      obtain ⟨rfl, hlabel⟩ := splitOnce_eq_some.1 hsplit
      simp only [hsplit] at h
      cases hstrip : stripChar 'p' label with
      | none => rw [hstrip] at h; cases h
      | some digits =>
        obtain rfl := stripChar_eq_some.1 hstrip
        simp only [hstrip] at h
        cases hport : parseDec 65536 digits with
        | none => rw [hport] at h; cases h
        | some port' =>
          simp only [hport] at h
          split_ifs at h with hbad
          rw [not_or] at hbad
          cases h
          -- the domain is there once at least
          obtain ⟨k, rfl⟩ : ∃ j, k = j + 1 := by
            cases k with
            | zero =>
              rw [hhost, copies, replicate_zero, flatten_nil, append_nil] at hsuffix
              exact absurd hsuffix hnot
            | succ k => exact ⟨k, rfl⟩
          refine ⟨digits, k, hhost, hport, hbad.1, hbad.2, ?_⟩
          intro hinst
          exact hdot (mem_append_right _ (mem_cons_of_mem _ hinst))
  · rintro ⟨label, k, hhost, hport, hpos, hne, hdot⟩
    have hlabel : '-' ∉ 'p' :: label := by
      rw [mem_cons, not_or]
      exact ⟨by decide, parseDec_not_mem hport (by decide) (by decide)⟩
    have hname : '.' ∉ 'p' :: label ++ '-' :: inst := by
      rw [mem_append, not_or, mem_cons, not_or, mem_cons, not_or]
      exact ⟨⟨by decide, parseDec_not_mem hport (by decide) (by decide)⟩, by decide, hdot⟩
    have hsuffix : '.' :: lower domain <:+ normalHost host := by
      rw [hhost, copies_succ]
      exact (suffix_append _ _).trans (suffix_append _ _)
    have htrim : trimEndMatches ('.' :: lower domain) (normalHost host) = 'p' :: label ++ '-' :: inst := by
      rw [hhost, trim_domain hname]
    have hsplit : splitOnce '-' ('p' :: label ++ '-' :: inst) = some ('p' :: label, inst) :=
      Lines.splitOnce_append hlabel
    have hstrip : stripChar 'p' ('p' :: label) = some label := stripChar_eq_some.2 rfl
    unfold parseHost
    simp only [hsuffix, not_true_eq_false, if_false, htrim, hname, hsplit, hstrip, hport, hpos, hne,
      or_self]

/-! ## What is to be taken -/

/-- The text of a port: digits of a number below 65536. -/
def IsPort (t : Text) : Prop := ∃ n, IsDecimal t n ∧ n < 65536

/-- A character of the name of an instance, other than a dot. -/
def nameChar (c : Char) : Bool := c.isAlphanum || c == '-' || c == '_'

/-- `host` after its port, if any, and trailing dots are removed, in lower case. -/
inductive Normal (host : Text) : Text → Prop
  | withPort {before port : Text} (h : host = before ++ ':' :: port) (hport : IsPort port) :
      Normal host (lower (trimDots before))
  | bare (h : ∀ before port, host = before ++ ':' :: port → ¬ IsPort port) :
      Normal host (lower (trimDots host))

/-- The hosts that lead to a port of an instance. -/
def Grammar (host domain : Text) (port : ℕ) (inst : Text) : Prop :=
  ∃ digits, Normal host ('p' :: digits ++ '-' :: inst ++ '.' :: lower domain) ∧
    IsDecimal digits port ∧ 1 ≤ port ∧ port ≤ 65535 ∧ inst ≠ [] ∧ ∀ c ∈ inst, nameChar c = true

/-- A plus sign before the port that is removed. -/
def SignedPort (host : Text) : Prop := ∃ before port, host = before ++ ':' :: '+' :: port ∧ IsPort port

/-- What is no small letter was not changed to lower case. -/
theorem of_toLower_eq {x : Char} (h : c.toLower = x) (hx : x.toNat < 97) : c = x := by
  by_cases hu : c.val ≥ 'A'.val ∧ c.val ≤ 'Z'.val
  · have hlower : c.toLower.val = c.val + ('a'.val - 'A'.val) := congrArg Char.val (dif_pos hu)
    have hle : c.val.toNat ≤ 90 := hu.2
    have hge : 65 ≤ c.val.toNat := hu.1
    have hnat := congrArg UInt32.toNat hlower
    rw [h, UInt32.toNat_add] at hnat
    change x.toNat = (c.val.toNat + 32) % 2 ^ 32 at hnat
    omega
  · have hlower : c.toLower = c := dif_neg hu
    rw [← hlower, h]

theorem mem_of_mem_lower {x : Char} (h : x ∈ lower t) (hx : x.toNat < 97) : x ∈ t := by
  obtain ⟨c, hc, hlower⟩ := mem_map.1 h
  rw [← of_toLower_eq hlower hx]
  exact hc

theorem IsPort.no_colon (h : IsPort t) : ':' ∉ t := by
  obtain ⟨n, hdec, -⟩ := h
  exact mem_digits_ne hdec (by decide)

theorem parseDec_of_isPort (h : IsPort t) : (parseDec 65536 t).isSome = true := by
  obtain ⟨n, hdec, hn⟩ := h
  rw [parseDec_digits hdec hn]
  rfl

/-- Without a sign, the port that is removed is the one that is to be. -/
theorem normal_iff {x : Text} (h : ¬ SignedPort host) : Normal host x ↔ x = normalHost host := by
  have hcut : ∀ before port, host = before ++ ':' :: port → IsPort port →
      stripOptionalPort host = before := by
    intro before port hhost hport
    have hsplit := rsplitOnce_eq_some.2 ⟨hhost, hport.no_colon⟩
    rw [stripOptionalPort, hsplit]
    exact if_pos (parseDec_of_isPort hport)
  have hkeep : (∀ before port, host = before ++ ':' :: port → ¬ IsPort port) →
      stripOptionalPort host = host := by
    intro hnone
    rw [stripOptionalPort]
    cases hsplit : rsplitOnce ':' host with
    | none => rfl
    | some parts =>
      obtain ⟨before, port⟩ := parts
      obtain ⟨hhost, -⟩ := rsplitOnce_eq_some.1 hsplit
      refine if_neg ?_
      intro hsome
      obtain ⟨n, hn⟩ := Option.isSome_iff_exists.1 hsome
      obtain ⟨digits, rfl | rfl, hdec, hlt⟩ := parseDec_eq_some.1 hn
      · exact hnone before port hhost ⟨n, hdec, hlt⟩
      · exact h ⟨before, digits, hhost, n, hdec, hlt⟩
  constructor
  · intro hnormal
    cases hnormal with
    | withPort hhost hport => rw [normalHost, hcut _ _ hhost hport]
    | bare hnone => rw [normalHost, hkeep hnone]
  · rintro rfl
    by_cases hport : ∃ before port, host = before ++ ':' :: port ∧ IsPort port
    · obtain ⟨before, port, hhost, hport⟩ := hport
      rw [normalHost, hcut _ _ hhost hport]
      exact .withPort hhost hport
    · have hnone : ∀ before port, host = before ++ ':' :: port → ¬ IsPort port :=
        fun before port hhost hp => hport ⟨before, port, hhost, hp⟩
      rw [normalHost, hkeep hnone]
      exact .bare hnone

/-- A domain of letters, digits and hyphens. -/
structure IsDomain (domain : Text) : Prop where
  nonempty : domain ≠ []
  chars : ∀ c ∈ domain, c.isAlphanum = true ∨ c = '-'

/-- With a sign, no host is to be taken. -/
theorem not_normal_of_signed {y : Text} (hd : IsDomain domain) (h : SignedPort host) :
    ¬ Normal host (y ++ '.' :: lower domain) := by
  obtain ⟨before, port, rfl, n, hdec, hn⟩ := h
  have hplus : '+' ∉ '.' :: lower domain := by
    rw [mem_cons, not_or]
    refine ⟨by decide, ?_⟩
    intro hmem
    rcases hd.chars '+' (mem_of_mem_lower hmem (by decide)) with h | h <;> revert h <;> decide
  generalize hx : y ++ '.' :: lower domain = x
  intro hnormal
  cases hnormal with
  | @withPort before' port' hhost hport =>
    -- the last colon is the one before the sign
    have hsame : rsplitOnce ':' (before ++ ':' :: '+' :: port) = some (before', port') :=
      rsplitOnce_eq_some.2 ⟨hhost, hport.no_colon⟩
    have hlast : rsplitOnce ':' (before ++ ':' :: '+' :: port) = some (before, '+' :: port) := by
      refine rsplitOnce_eq_some.2 ⟨rfl, ?_⟩
      rw [mem_cons, not_or]
      exact ⟨by decide, mem_digits_ne hdec (by decide)⟩
    cases hlast.symm.trans hsame
    obtain ⟨n', hdec', -⟩ := hport
    exact absurd (hdec'.digits '+' mem_cons_self) (by decide)
  | bare hnone =>
    have hdigit : ∀ hl : before ++ ':' :: '+' :: port ≠ [],
        ¬ ((before ++ ':' :: '+' :: port).getLast hl == '.') = true := by
      intro hl hdot
      have hlast : (before ++ ':' :: '+' :: port).getLast hl = port.getLast hdec.nonempty := by
        have hne : ':' :: '+' :: port ≠ [] := by simp
        rw [getLast_append_of_ne_nil hl hne, getLast_cons (by simp),
          getLast_cons hdec.nonempty]
      rw [hlast, beq_iff_eq] at hdot
      have := hdec.digits _ (getLast_mem hdec.nonempty)
      rw [hdot] at this
      exact absurd this (by decide)
    have htrim : trimDots (before ++ ':' :: '+' :: port) = before ++ ':' :: '+' :: port :=
      rdropWhile_eq_self_iff.2 hdigit
    have hlower : lower (before ++ ':' :: '+' :: port) = lower before ++ ':' :: '+' :: lower port := by
      simp [lower]
    rw [htrim, hlower] at hx
    -- the domain with its dot is longer than the digits, which have none
    have hdomain : '.' :: lower domain <:+ lower before ++ ':' :: '+' :: lower port :=
      hx ▸ suffix_append _ _
    have hport : '+' :: lower port <:+ lower before ++ ':' :: '+' :: lower port :=
      ⟨lower before ++ [':'], by simp⟩
    rcases suffix_or_suffix_of_suffix hdomain hport with hsub | hsub
    · have hmem : '.' ∈ '+' :: lower port := hsub.subset mem_cons_self
      rcases mem_cons.1 hmem with h | h
      · exact absurd h (by decide)
      · exact mem_digits_ne hdec (by decide) (mem_of_mem_lower h (by decide))
    · exact hplus (hsub.subset mem_cons_self)

/-- A host is taken for what it is to be taken for. -/
def ParsesGrammar (host domain : Text) : Prop :=
  ∀ port inst, parseHost host domain = .ok ⟨inst, port⟩ ↔ Grammar host domain port inst

/-- A host that has the parts of one for a port of an instance has no sign before a port, the
    domain once, and an instance of a valid name. -/
def Strict (host domain : Text) : Prop :=
  ∀ label inst k port,
    normalHost host = 'p' :: label ++ '-' :: inst ++ copies (k + 1) ('.' :: lower domain) →
    parseDec 65536 label = some port → port ≠ 0 → inst ≠ [] → '.' ∉ inst →
    ¬ SignedPort host ∧ label.head? ≠ some '+' ∧ k = 0 ∧ ∀ c ∈ inst, nameChar c = true

theorem copies_one (u : Text) : copies 1 u = u := by
  simp [copies]

/-- What is to be taken is taken. -/
theorem parseHost_of_grammar {inst : Text} {port : ℕ} (hd : IsDomain domain)
    (h : Grammar host domain port inst) :
    ¬ SignedPort host ∧ parseHost host domain = .ok ⟨inst, port⟩ := by
  obtain ⟨digits, hnormal, hdec, hone, hmax, hne, hchars⟩ := h
  have hsigned : ¬ SignedPort host := fun hs => not_normal_of_signed hd hs hnormal
  refine ⟨hsigned, parseHost_eq_ok.2 ⟨digits, 0, ?_, ?_, by omega, hne, ?_⟩⟩
  · rw [Nat.zero_add, copies_one, ← (normal_iff hsigned).1 hnormal]
  · exact parseDec_digits hdec (by omega)
  · intro hdot
    exact absurd (hchars '.' hdot) (by decide)

theorem parseHost_grammar_iff (host domain : Text) (hd : IsDomain domain) :
    ParsesGrammar host domain ↔ Strict host domain := by
  constructor
  · intro h label inst k port hhost hport hpos hne hdot
    have hgrammar := (h port inst).1 (parseHost_eq_ok.2 ⟨label, k, hhost, hport, hpos, hne, hdot⟩)
    have hsigned := (parseHost_of_grammar hd hgrammar).1
    obtain ⟨digits, hnormal, hdec, -, -, -, hchars⟩ := hgrammar
    -- both ways to cut the host are one
    have heq : label ++ '-' :: (inst ++ copies (k + 1) ('.' :: lower domain)) =
        digits ++ '-' :: (inst ++ '.' :: lower domain) := by
      have := hhost.symm.trans ((normal_iff hsigned).1 hnormal).symm
      simpa using this
    have hminus : '-' ∉ label := parseDec_not_mem hport (by decide) (by decide)
    have hlabel : splitOnce '-' (label ++ '-' :: (inst ++ copies (k + 1) ('.' :: lower domain))) =
        some (label, inst ++ copies (k + 1) ('.' :: lower domain)) := Lines.splitOnce_append hminus
    rw [heq, Lines.splitOnce_append (mem_digits_ne hdec (by decide))] at hlabel
    obtain ⟨rfl, htail⟩ := Prod.mk.inj (Option.some.inj hlabel)
    refine ⟨hsigned, ?_, ?_, hchars⟩
    · intro hhead
      exact absurd (hdec.digits '+' (mem_of_mem_head? hhead)) (by decide)
    · have hlen := congrArg List.length (append_cancel_left htail)
      rw [length_copies, length_cons] at hlen
      have hk : (k + 1) * ((lower domain).length + 1) = 1 * ((lower domain).length + 1) := by omega
      have := Nat.eq_of_mul_eq_mul_right (Nat.succ_pos _) hk
      omega
  · intro h port inst
    constructor
    · intro hok
      obtain ⟨label, k, hhost, hport, hpos, hne, hdot⟩ := parseHost_eq_ok.1 hok
      obtain ⟨hsigned, hplus, rfl, hchars⟩ := h label inst k port hhost hport hpos hne hdot
      obtain ⟨digits, rfl | rfl, hdec, hlt⟩ := parseDec_eq_some.1 hport
      · refine ⟨label, ?_, hdec, by omega, by omega, hne, hchars⟩
        rw [normal_iff hsigned, hhost, Nat.zero_add, copies_one]
      · exact absurd rfl hplus
    · intro hgrammar
      exact (parseHost_of_grammar hd hgrammar).2

theorem isDomain_lnx : IsDomain "lnx".toList :=
  ⟨by decide, all_iff_forall_prop.1 (by decide)⟩

theorem parseHost_grammar_dev : ParsesGrammar "p80-dev.lnx".toList "lnx".toList := by
  refine (parseHost_grammar_iff _ _ isDomain_lnx).2 ?_
  intro label inst k port hhost hport hpos hne hdot
  -- the label goes up to the hyphen, and the instance up to the dot
  have hminus : '-' ∉ 'p' :: label := by
    rw [mem_cons, not_or]
    exact ⟨by decide, parseDec_not_mem hport (by decide) (by decide)⟩
  have hlabel : splitOnce '-' (normalHost "p80-dev.lnx".toList) =
      some ('p' :: label, inst ++ copies (k + 1) ('.' :: lower "lnx".toList)) := by
    rw [hhost, append_assoc]
    exact Lines.splitOnce_append hminus
  have hknown : splitOnce '-' (normalHost "p80-dev.lnx".toList) =
      some (['p', '8', '0'], ['d', 'e', 'v', '.', 'l', 'n', 'x']) := by decide
  obtain ⟨hl, htail⟩ := Prod.mk.inj (Option.some.inj (hknown.symm.trans hlabel))
  cases hl
  have hcopies : copies (k + 1) ('.' :: lower "lnx".toList) =
      '.' :: (lower "lnx".toList ++ copies k ('.' :: lower "lnx".toList)) := by
    rw [copies, replicate_succ, flatten_cons, cons_append, copies]
  have hinst : splitOnce '.' ['d', 'e', 'v', '.', 'l', 'n', 'x'] =
      some (inst, lower "lnx".toList ++ copies k ('.' :: lower "lnx".toList)) := by
    rw [htail]
    exact Lines.splitOnce_append hdot
  have hdev : splitOnce '.' ['d', 'e', 'v', '.', 'l', 'n', 'x'] =
      some (['d', 'e', 'v'], ['l', 'n', 'x']) := by decide
  obtain ⟨rfl, hrest⟩ := Prod.mk.inj (Option.some.inj (hdev.symm.trans hinst))
  refine ⟨?_, by decide, ?_, all_iff_forall_prop.1 (by decide)⟩
  · rintro ⟨before, port, hcolon, -⟩
    have : ':' ∈ "p80-dev.lnx".toList := by
      rw [hcolon]
      simp
    exact absurd this (by decide)
  · have hlen := congrArg List.length hrest
    rw [length_append, length_copies] at hlen
    change 3 = 3 + k * 4 at hlen
    omega

/-- A slash in the instance, a sign before the port and a repeated domain are taken. -/
theorem lenient_hosts :
    parseHost "p80-a/b.lnx".toList "lnx".toList = .ok ⟨"a/b".toList, 80⟩ ∧
    parseHost "p+80-dev.lnx".toList "lnx".toList = .ok ⟨"dev".toList, 80⟩ ∧
    parseHost "p80-dev.lnx.lnx".toList "lnx".toList = .ok ⟨"dev".toList, 80⟩ ∧
    ¬ Grammar "p80-a/b.lnx".toList "lnx".toList 80 "a/b".toList := by
  refine ⟨by decide, by decide, by decide, ?_⟩
  rintro ⟨digits, -, -, -, -, -, hchars⟩
  exact absurd (hchars '/' (by decide)) (by decide)

end Lnx.Ingress
