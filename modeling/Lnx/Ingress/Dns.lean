import Lnx.Ingress.Host
import Lnx.Lib.Region
import Lnx.Lib.Utf8

/-!
# Answers of the name server

`dns_response` of `src/src/ingress.rs` (lines 2005–2057) answers queries for the names of the
ingress domain: a port of an instance is at the proxy, and an instance at its own address.

The packet is read by position, as the source does: `packet.get` may find nothing, while
`packet[i]` outside the packet is a `panic`, which the model keeps as an outcome of its own.

* `readName_eq_some`: a name is read where one is written, and no further.
* `dnsResponse_of_query`, `query_or_silent`: the answer to every packet.
* `dns_sound_iff`: it is the right one, unless a name that has an address is queried for
  another type or class than its `A` record: that is answered as if there were no such name.
-/

namespace Lnx.Ingress

open UInt8 List Utf8

/-- `std::net::Ipv4Addr` -/
structure Ipv4Addr where
  octets : List UInt8
  length_octets : octets.length = 4

/-- `Ipv4Addr::LOCALHOST` -/
def localhost : Ipv4Addr := ⟨[127, 0, 0, 1], rfl⟩

/-- The only way in which the function can fail. -/
inductive Fault
  | panic
  deriving DecidableEq

/-- `packet[i]` -/
def index (packet : Bytes) (i : ℕ) : Except Fault UInt8 :=
  match packet[i]? with
  | some b => .ok b
  | none => .error .panic

/-- `packet.get(start..stop)` -/
def getRange (packet : Bytes) (start stop : ℕ) : Option Bytes :=
  if start ≤ stop ∧ stop ≤ packet.length then some (slice packet start (stop - start)) else none

/-- The loop over the labels, from a position on; the position after them. -/
def readName (packet : Bytes) (pos : ℕ) : Option (List Text × ℕ) :=
  match h : packet[pos]? with
  | none => none
  | some len =>
    if len = 0 then some ([], pos + 1)
    else
      (getRange packet (pos + 1) (pos + 1 + len.toNat)).bind fun label =>
        (readName packet (pos + 1 + len.toNat)).map fun r => (lossy label :: r.1, r.2)
termination_by packet.length - pos
decreasing_by
  have := (List.getElem?_eq_some_iff.1 h).1
  omega

/-- `u16::from_be_bytes` -/
def fromBe16 (a b : UInt8) : ℕ := 256 * a.toNat + b.toNat

/-- `u16::to_be_bytes` -/
def be16 (n : ℕ) : Bytes := [UInt8.ofNat (n / 256), UInt8.ofNat n]

/-- `u32::to_be_bytes` -/
def be32 (n : ℕ) : Bytes :=
  [UInt8.ofNat (n / 2 ^ 24), UInt8.ofNat (n / 2 ^ 16), UInt8.ofNat (n / 2 ^ 8), UInt8.ofNat n]

/-- The address that a name has. -/
def addressOf (name domain : Text) (instanceIps : Text → Option Ipv4Addr) : Option Ipv4Addr :=
  match parseHost name domain with
  | .ok _ => some localhost
  | .error _ => (instanceFromHost name domain).bind instanceIps

/-- `dns_response` (lines 2005–2057). -/
def dnsResponse (packet : Bytes) (domain : Text) (instanceIps : Text → Option Ipv4Addr) :
    Except Fault (Option Bytes) :=
  if packet.length < 12 then .ok none
  else
    match readName packet 12 with
    | none => .ok none
    | some (labels, pos) =>
      let qEnd := pos + 4
      match getRange packet 12 qEnd with
      | none => .ok none
      | some question => do
        let qtype := fromBe16 (← index packet pos) (← index packet (pos + 1))
        let qclass := fromBe16 (← index packet (pos + 2)) (← index packet (pos + 3))
        let name := ['.'].intercalate labels
        let answer := (addressOf name domain instanceIps).filter fun _ => qtype = 1 ∧ qclass = 1
        let records := match answer with
          | none => []
          | some answer =>
            [0xc0, 0x0c] ++ be16 1 ++ be16 1 ++ be32 1 ++ be16 4 ++ answer.octets
        return some ([← index packet 0, ← index packet 1] ++
          (if answer.isSome then [0x84, 0x00] else [0x84, 0x03]) ++
          be16 1 ++ be16 (if answer.isSome then 1 else 0) ++ be16 0 ++ be16 0 ++ question ++ records)

/-! ## Names in a packet -/

/-- A label that a name can have. -/
def IsLabel (l : Bytes) : Prop := l ≠ [] ∧ l.length < 256

instance (l : Bytes) : Decidable (IsLabel l) := inferInstanceAs (Decidable (_ ∧ _))

/-- A name as it is written: each label after its length, and a zero at the end. -/
def wireName (labels : List Bytes) : Bytes := labels.flatMap (fun l => UInt8.ofNat l.length :: l) ++ [0]

theorem wireName_cons (l : Bytes) (labels : List Bytes) :
    wireName (l :: labels) = UInt8.ofNat l.length :: l ++ wireName labels := by
  rw [wireName, flatMap_cons, append_assoc, wireName]

theorem getRange_append (before l after : Bytes) :
    getRange (before ++ l ++ after) before.length (before.length + l.length) = some l := by
  rw [getRange, if_pos (by simp only [length_append]; omega), slice, append_assoc,
    drop_left, Nat.add_sub_cancel_left, take_left]

theorem getRange_eq_some {packet r : Bytes} {start stop : ℕ} (h : getRange packet start stop = some r) :
    ∃ before after, packet = before ++ r ++ after ∧ before.length = start ∧ stop = start + r.length := by
  rw [getRange] at h
  split_ifs at h with hle
  cases h
  refine ⟨packet.take start, packet.drop stop, ?_, ?_, ?_⟩
  · rw [slice, append_assoc]
    conv_lhs => rw [← take_append_drop start packet]
    congr 1
    conv_lhs => rw [← take_append_drop (stop - start) (packet.drop start)]
    rw [drop_drop, Nat.add_sub_cancel' hle.1]
  · rw [length_take]
    omega
  · rw [length_slice (by omega)]
    omega

theorem toNat_ofNat_length {l : Bytes} (h : IsLabel l) :
    (UInt8.ofNat l.length).toNat = l.length ∧ UInt8.ofNat l.length ≠ 0 := by
  have hnat : (ofNat l.length).toNat = l.length := by
    exact Nat.mod_eq_of_lt h.2
  refine ⟨hnat, ?_⟩
  intro hzero
  rw [hzero] at hnat
  exact h.1 (length_eq_zero_iff.1 hnat.symm)

/-- A name is read where it is written. -/
theorem readName_append {labels : List Bytes} (h : ∀ l ∈ labels, IsLabel l) (before after : Bytes) :
    readName (before ++ wireName labels ++ after) before.length =
      some (labels.map lossy, (before ++ wireName labels).length) := by
  induction labels generalizing before with
  | nil =>
    have hzero : (before ++ wireName [] ++ after)[before.length]? = some 0 := by simp [wireName]
    unfold readName
    split
    · next hnone => rw [hnone] at hzero; cases hzero
    · next len hlen =>
      cases hlen.symm.trans hzero
      simp [wireName]
  | cons l labels ih =>
    obtain ⟨hlen, hne⟩ := toNat_ofNat_length (h l mem_cons_self)
    have hpacket : before ++ wireName (l :: labels) ++ after =
        (before ++ [ofNat l.length]) ++ l ++ (wireName labels ++ after) := by
      rw [wireName_cons]
      simp
    have hfirst : (before ++ wireName (l :: labels) ++ after)[before.length]? =
        some (ofNat l.length) := by simp [wireName_cons]
    have hrest := ih (fun x hx => h x (mem_cons_of_mem l hx)) (before ++ [ofNat l.length] ++ l)
    unfold readName
    split
    · next hnone => rw [hnone] at hfirst; cases hfirst
    · next len hlen' =>
      cases hlen'.symm.trans hfirst
      rw [if_neg hne, hlen]
      have hbefore : before.length + 1 = (before ++ [ofNat l.length]).length := by simp
      have hget := getRange_append (before ++ [ofNat l.length]) l (wireName labels ++ after)
      have hpos : (before ++ [ofNat l.length] ++ l).length =
          (before ++ [ofNat l.length]).length + l.length := length_append
      rw [hpacket, hbefore, hget, Option.bind_some, ← hpos, ← append_assoc, hrest]
      simp [wireName_cons]

/-- Nothing else is read as a name. -/
theorem readName_eq_some {packet : Bytes} {pos stop : ℕ} {texts : List Text}
    (h : readName packet pos = some (texts, stop)) :
    ∃ labels before after, (∀ l ∈ labels, IsLabel l) ∧ packet = before ++ wireName labels ++ after ∧
      before.length = pos := by
  induction hn : packet.length - pos using Nat.strong_induction_on generalizing pos texts stop with
  | h n ih =>
    unfold readName at h
    split at h
    · cases h
    · next len hlen =>
      obtain ⟨hlt, hget⟩ := List.getElem?_eq_some_iff.1 hlen
      split_ifs at h with hzero
      · refine ⟨[], packet.take pos, packet.drop (pos + 1), by simp, ?_, ?_⟩
        · have hdrop := drop_eq_getElem_cons hlt
          rw [hget, hzero] at hdrop
          conv_lhs => rw [← take_append_drop pos packet, hdrop]
          simp [wireName]
        · rw [length_take]
          omega
      · obtain ⟨label, hlabel, hmap⟩ := Option.bind_eq_some_iff.1 h
        obtain ⟨r, hr, -⟩ := Option.map_eq_some_iff.1 hmap
        obtain ⟨labels, before', after', hvalid, hpacket, hbefore⟩ := ih _ (by omega) hr rfl
        obtain ⟨before, after, hpacket', hbefore', hstop⟩ := getRange_eq_some hlabel
        have hlength : label.length = len.toNat := by omega
        have hbyte : ofNat label.length = len := by rw [hlength, UInt8.ofNat_toNat]
        -- what is before the further labels ends in this one
        have hsplit : before' = before ++ label := by
          have hboth : before' ++ (wireName labels ++ after') = (before ++ label) ++ after := by
            rw [← append_assoc, ← hpacket, hpacket']
          refine (append_inj hboth ?_).1
          rw [length_append, hbefore, hbefore', hlength]
        have hhead : before = packet.take pos ++ [len] := by
          rw [← hget, take_append_getElem, hpacket', append_assoc,
            take_left' hbefore']
        refine ⟨label :: labels, packet.take pos, after', ?_, ?_, ?_⟩
        · intro l hl
          rcases mem_cons.1 hl with rfl | hl
          · refine ⟨?_, by rw [hlength]; exact len.toNat_lt⟩
            rintro rfl
            exact hzero (UInt8.toNat_inj.1 hlength.symm)
          · exact hvalid l hl
        · conv_lhs => rw [hpacket, hsplit, hhead]
          rw [wireName_cons, hbyte]
          simp
        · rw [length_take]
          omega

/-! ## Queries and answers -/

/-- A packet with a first question. -/
structure Query where
  header : Bytes
  length_header : header.length = 12
  labels : List Bytes
  isLabel : ∀ l ∈ labels, IsLabel l
  /-- the two bytes of the type, and those of the class -/
  t₁ : UInt8
  t₂ : UInt8
  c₁ : UInt8
  c₂ : UInt8
  rest : Bytes

open Query

namespace Query

variable (q : Query)

def question : Bytes := wireName q.labels ++ [q.t₁, q.t₂, q.c₁, q.c₂]

def packet : Bytes := q.header ++ q.question ++ q.rest

def name : Text := ['.'].intercalate (q.labels.map lossy)

def qtype : ℕ := fromBe16 q.t₁ q.t₂

def qclass : ℕ := fromBe16 q.c₁ q.c₂

end Query

/-- A resource record. -/
structure Record where
  name : Bytes
  rtype : ℕ
  rclass : ℕ
  ttl : ℕ
  data : Bytes

def Record.bytes (r : Record) : Bytes :=
  r.name ++ be16 r.rtype ++ be16 r.rclass ++ be32 r.ttl ++ be16 r.data.length ++ r.data

/-- The `A` record of the queried name, to which it points. -/
def aRecord (a : Ipv4Addr) : Record := ⟨[0xc0, 0x0c], 1, 1, 1, a.octets⟩

/-- An answer to a query with given flags and records. -/
def response (q : Query) (f₁ f₂ : UInt8) (records : List Record) : Bytes :=
  q.header.take 2 ++ f₁ :: f₂ :: (be16 1 ++ be16 records.length ++ be16 0 ++ be16 0 ++ q.question ++
    records.flatMap Record.bytes)

theorem index_of_append {packet : Bytes} {i : ℕ} (before : Bytes) {b : UInt8} (after : Bytes)
    (h : packet = before ++ b :: after) (hi : before.length = i) : index packet i = .ok b := by
  rw [index, h, ← hi, List.getElem?_append_right (Nat.le_refl _), Nat.sub_self]
  rfl

/-- What the function answers to a query: the `A` record if it is asked for, and that there is
    no such name otherwise. -/
theorem dnsResponse_of_query (q : Query) (domain : Text) (ips : Text → Option Ipv4Addr) :
    dnsResponse q.packet domain ips = .ok (some (
      if q.qtype = 1 ∧ q.qclass = 1 then
        match addressOf q.name domain ips with
        | some a => response q 0x84 0x00 [aRecord a]
        | none => response q 0x84 0x03 []
      else response q 0x84 0x03 [])) := by
  obtain ⟨i₁, i₂, tail, hheader⟩ : ∃ a b l, q.header = a :: b :: l := by
    have := q.length_header
    rcases hq : q.header with _ | ⟨a, _ | ⟨b, l⟩⟩
    · rw [hq] at this; cases this
    · rw [hq] at this; cases this
    · exact ⟨a, b, l, rfl⟩
  have hlength : ¬ q.packet.length < 12 := by
    rw [packet, append_assoc, length_append, q.length_header]
    omega
  have hbefore : q.packet = (q.header ++ wireName q.labels) ++
      q.t₁ :: q.t₂ :: q.c₁ :: q.c₂ :: q.rest := by
    simp [packet, question]
  generalize hpos : (q.header ++ wireName q.labels).length = pos
  have hname : readName q.packet 12 = some (q.labels.map lossy, pos) := by
    rw [hbefore, ← q.length_header, readName_append q.isLabel, hpos]
  have hrange : getRange q.packet 12 (pos + 4) = some q.question := by
    have h := getRange_append q.header q.question q.rest
    rw [q.length_header] at h
    rw [packet, ← h]
    congr 1
    rw [← hpos, question, length_append, length_append, q.length_header]
    simp only [length_cons, length_nil]
    omega
  have h₀ : index q.packet pos = .ok q.t₁ := index_of_append _ _ hbefore hpos
  have h₁ : index q.packet (pos + 1) = .ok q.t₂ :=
    index_of_append (q.header ++ wireName q.labels ++ [q.t₁]) (q.c₁ :: q.c₂ :: q.rest)
      (by rw [hbefore]; simp) (by rw [length_append, hpos]; rfl)
  have h₂ : index q.packet (pos + 2) = .ok q.c₁ :=
    index_of_append (q.header ++ wireName q.labels ++ [q.t₁, q.t₂]) (q.c₂ :: q.rest)
      (by rw [hbefore]; simp) (by rw [length_append, hpos]; rfl)
  have h₃ : index q.packet (pos + 3) = .ok q.c₂ :=
    index_of_append (q.header ++ wireName q.labels ++ [q.t₁, q.t₂, q.c₁]) q.rest
      (by rw [hbefore]; simp) (by rw [length_append, hpos]; rfl)
  have hi₁ : index q.packet 0 = .ok i₁ := by
    rw [packet, hheader]
    rfl
  have hi₂ : index q.packet 1 = .ok i₂ := by
    rw [packet, hheader]
    rfl
  have htake : q.header.take 2 = [i₁, i₂] := by rw [hheader]; rfl
  unfold dnsResponse
  simp only [hlength, if_false, hname, hrange, h₀, h₁, h₂, h₃, hi₁, hi₂]
  change Except.ok (some _) = _
  rw [← name, ← qtype, ← qclass]
  congr 2
  by_cases hA : q.qtype = 1 ∧ q.qclass = 1
  · cases haddr : addressOf q.name domain ips with
    | none => simp [hA, response, htake]
    | some a =>
      simp [hA, response, htake, aRecord, Record.bytes, a.length_octets]
      rfl
  · simp [hA, response, htake]

/-- A packet has a first question or is not answered. -/
theorem query_or_silent (packet : Bytes) (domain : Text) (ips : Text → Option Ipv4Addr) :
    (∃ q : Query, packet = q.packet) ∨ dnsResponse packet domain ips = .ok none := by
  unfold dnsResponse
  by_cases hlength : packet.length < 12
  · exact .inr (if_pos hlength)
  rw [if_neg hlength]
  cases hname : readName packet 12 with
  | none => exact .inr rfl
  | some found =>
    obtain ⟨texts, pos⟩ := found
    simp only
    cases hrange : getRange packet 12 (pos + 4) with
    | none => exact .inr rfl
    | some question =>
      refine .inl ?_
      obtain ⟨labels, before, after, hlabels, rfl, hbefore⟩ := readName_eq_some hname
      rw [← hbefore, readName_append hlabels] at hname
      obtain ⟨-, hpos⟩ := Prod.mk.inj (Option.some.inj hname)
      rw [getRange] at hrange
      split_ifs at hrange with hle
      -- four bytes follow the name
      obtain ⟨t₁, t₂, c₁, c₂, rest, rfl⟩ : ∃ a b c d l, after = a :: b :: c :: d :: l := by
        rw [length_append, hpos] at hle
        have hfour : 4 ≤ after.length := by omega
        rcases after with _ | ⟨a, _ | ⟨b, _ | ⟨c, _ | ⟨d, l⟩⟩⟩⟩
        · exact absurd hfour (by simp)
        · exact absurd hfour (by simp)
        · exact absurd hfour (by simp)
        · exact absurd hfour (by simp)
        · exact ⟨a, b, c, d, l, rfl⟩
      refine ⟨⟨before, hbefore, labels, hlabels, t₁, t₂, c₁, c₂, rest⟩, ?_⟩
      simp [Query.packet, Query.question]

/-- What an answer to a query is to be, for a name with an address or none. -/
def Answers (r : Bytes) (q : Query) (address : Option Ipv4Addr) : Prop :=
  ∃ f₁ f₂ records, r = response q f₁ f₂ records ∧
    (q.qtype = 1 → q.qclass = 1 → records = (address.map aRecord).toList) ∧
    (f₂.toNat % 16 = 3 ↔ address = none)

/-- A packet is read inside its bounds, and answered as it is to be if it is. -/
structure DnsSound (packet : Bytes) (domain : Text) (ips : Text → Option Ipv4Addr) : Prop where
  inside : ∃ reply, dnsResponse packet domain ips = .ok reply
  asked : ∀ r, dnsResponse packet domain ips = .ok (some r) → ∃ q : Query, packet = q.packet
  right : ∀ r, dnsResponse packet domain ips = .ok (some r) → ∀ q : Query, packet = q.packet →
    Answers r q (addressOf q.name domain ips)

theorem dns_sound_iff (packet : Bytes) (domain : Text) (ips : Text → Option Ipv4Addr) :
    DnsSound packet domain ips ↔ ∀ q : Query, packet = q.packet →
      (addressOf q.name domain ips).isSome → q.qtype = 1 ∧ q.qclass = 1 := by
  constructor
  · rintro hsound q rfl hsome
    by_contra hA
    have hreply := dnsResponse_of_query q domain ips
    rw [if_neg hA] at hreply
    obtain ⟨f₁, f₂, records, hr, -, hcode⟩ := hsound.right _ hreply q rfl
    have hflags := append_cancel_left hr
    have hf₂ : (3 : UInt8) = f₂ := (List.cons.inj (List.cons.inj hflags).2).1
    rw [hcode.1 (by rw [← hf₂]; rfl)] at hsome
    cases hsome
  · intro h
    refine ⟨?_, ?_, ?_⟩
    · rcases query_or_silent packet domain ips with ⟨q, rfl⟩ | hnone
      · exact ⟨_, dnsResponse_of_query q domain ips⟩
      · exact ⟨none, hnone⟩
    · intro r hr
      rcases query_or_silent packet domain ips with hq | hnone
      · exact hq
      · rw [hnone] at hr
        cases hr
    rintro r hr q rfl
    rw [dnsResponse_of_query] at hr
    cases haddr : addressOf q.name domain ips with
    | some a =>
      have hA := h q rfl (by rw [haddr]; rfl)
      rw [if_pos hA, haddr] at hr
      cases hr
      exact ⟨0x84, 0x00, [aRecord a], rfl, fun _ _ => rfl, by simp⟩
    | none =>
      have hr' : r = response q 0x84 0x03 [] := by
        rw [haddr] at hr
        split_ifs at hr <;> cases hr <;> rfl
      exact ⟨0x84, 0x03, [], hr', fun _ _ => rfl, by simp⟩

/-- The query for the `AAAA` record of `p80-dev.lnx`. -/
def aaaaQuery : Query where
  header := [0, 7, 1, 0, 0, 1, 0, 0, 0, 0, 0, 0]
  length_header := rfl
  labels := [[112, 56, 48, 45, 100, 101, 118], [108, 110, 120]]
  isLabel := by decide
  t₁ := 0
  t₂ := 28
  c₁ := 0
  c₂ := 1
  rest := []

/-- It is answered that there is no such name, which has an address. -/
theorem aaaa_query_nxdomain :
    addressOf aaaaQuery.name "lnx".toList (fun _ => none) = some localhost ∧
      dnsResponse aaaaQuery.packet "lnx".toList (fun _ => none) =
        .ok (some (response aaaaQuery 0x84 0x03 [])) := by
  have hname : aaaaQuery.name = "p80-dev.lnx".toList := by
    rw [name, aaaaQuery, map_cons, map_cons, map_nil,
      lossy_of_ascii (all_iff_forall_prop.1 (by decide)),
      lossy_of_ascii (all_iff_forall_prop.1 (by decide))]
    decide
  have hhost : parseHost "p80-dev.lnx".toList "lnx".toList = .ok ⟨"dev".toList, 80⟩ := by decide
  refine ⟨?_, ?_⟩
  · rw [hname, addressOf, hhost]
  · rw [dnsResponse_of_query, if_neg (by decide)]

end Lnx.Ingress
