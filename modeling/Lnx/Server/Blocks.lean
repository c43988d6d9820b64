import Lnx.Lib.Prog
import Lnx.Lib.Region
import Lnx.Store.Types
import Mathlib.Algebra.Ring.Nat

/-!
# Content-addressed blocks

The block store of `src/src/server.rs` (lines 2343–2461). A block of at most 64 KiB is
kept in a file named by its sha256 in hex; blocks arrive in streams of frames, each a
hash, a length and the bytes, and are kept only if they hash to the name.

sha256 is any function to 32 bytes. What the file system takes for the same name is a
`Volume`: on some, names that differ in case only are one.

* `unhex_hexFromBytes`: a hash written in hex reads back.
* `sound_serve`: after any streams, honest or not, every block hashes to its name.
* `storeCasBlockStream_frames`: frames written one after another are all stored.
-/

namespace Lnx.Server

open List

/-- `CAS_BLOCK_SIZE`. -/
def CAS_BLOCK_SIZE : ℕ := 64 * 1024

/-- Errors of the functions modelled here, with what their messages name. -/
inductive CasError
  | invalidSha256 (value : String)
  | blockTooLarge (len : ℕ)
  | hashMismatch (expected actual : String)
  | blockNotStored (sha256 : String)
  | readHash
  | readLength
  | invalidStreamLength (len : ℕ)
  | readPayload
  | invalidInstanceName (name : String)
  | unsafePath (path : String)
  | duplicateFile (path : String)
  | emptyPath
  | invalidBlockLength (len : ℕ) (path : String)
  | outOfBounds (path : String)
  | overlapping (path : String)
  | missingBlock (sha256 path : String)
  | shortBlock (path : String)
  | notWritten (path : String)
  | refused
  deriving DecidableEq

/-! ## Hex -/

/-- The digit of a number below 16, as `{:02x}` writes it. -/
def hexChar (n : ℕ) : Char := Char.ofNat (if n < 10 then 48 + n else 87 + n)

/-- The value of a digit; upper case counts as well. -/
def hexVal (c : Char) : Option ℕ :=
  if '0' ≤ c ∧ c ≤ '9' then some (c.toNat - 48)
  else if 'a' ≤ c ∧ c ≤ 'f' then some (c.toNat - 87)
  else if 'A' ≤ c ∧ c ≤ 'F' then some (c.toNat - 55)
  else none

/-- The two digits of a byte. -/
def hexPair (b : UInt8) : List Char := [hexChar (b.toNat / 16), hexChar (b.toNat % 16)]

/-- `hex_from_bytes` (lines 2434–2440). -/
def hexFromBytes (bytes : Bytes) : String := String.ofList (bytes.flatMap hexPair)

/-- `validate_sha256_hex` (lines 2456–2461). -/
def validSha256Hex (value : String) : Bool :=
  value.toList.length = 64 ∧ value.toList.all fun c => (hexVal c).isSome

/-- The bytes that pairs of digits stand for. -/
def unhexChars : List Char → Option Bytes
  | [] => some []
  | [_] => none
  | a :: b :: cs => do
    let hi ← hexVal a
    let lo ← hexVal b
    let rest ← unhexChars cs
    some (UInt8.ofNat (16 * hi + lo) :: rest)

def unhex (value : String) : Option Bytes := unhexChars value.toList

theorem hexVal_hexChar : ∀ n < 16, hexVal (hexChar n) = some n := by
  decide

theorem unhexChars_hexPair (b : UInt8) (cs : List Char) :
    unhexChars (hexPair b ++ cs) = (unhexChars cs).map (b :: ·) := by
  have hb := b.toNat_lt
  have hbyte : UInt8.ofNat (16 * (b.toNat / 16) + b.toNat % 16) = b := by
    rw [Nat.div_add_mod]
    exact UInt8.ofNat_toNat
  simp only [hexPair, cons_append, nil_append, unhexChars, hexVal_hexChar _ (by omega : b.toNat / 16 < 16),
    hexVal_hexChar _ (Nat.mod_lt _ (by omega)), Option.bind_eq_bind, Option.bind_some, hbyte]
  cases unhexChars cs <;> rfl

/-- A hash written in hex reads back. -/
theorem unhex_hexFromBytes (bytes : Bytes) : unhex (hexFromBytes bytes) = some bytes := by
  rw [unhex, hexFromBytes, String.toList_ofList]
  induction bytes with
  | nil => rfl
  | cons b bytes ih => rw [flatMap_cons, unhexChars_hexPair, ih, Option.map_some]

theorem length_flatMap_hexPair (bytes : Bytes) : (bytes.flatMap hexPair).length = 2 * bytes.length := by
  induction bytes with
  | nil => rfl
  | cons b bytes ih =>
    rw [flatMap_cons, length_append, ih, length_cons]
    simp only [hexPair, length_cons, length_nil]
    omega

theorem valid_hexFromBytes {bytes : Bytes} (h : bytes.length = 32) : validSha256Hex (hexFromBytes bytes) = true := by
  have hdigits : ∀ c ∈ bytes.flatMap hexPair, (hexVal c).isSome := by
    intro c hc
    obtain ⟨b, -, hc⟩ := mem_flatMap.1 hc
    have hb := b.toNat_lt
    rcases mem_pair.1 hc with rfl | rfl
    · rw [hexVal_hexChar _ (by omega : b.toNat / 16 < 16)]
      rfl
    · rw [hexVal_hexChar _ (Nat.mod_lt _ (by omega))]
      rfl
  simp only [validSha256Hex, hexFromBytes, String.toList_ofList, length_flatMap_hexPair, h, decide_eq_true_eq,
    all_eq_true]
  exact ⟨trivial, hdigits⟩

/-! ## Blocks on disk -/

/-- sha256, of which only the length of the digest is used. -/
structure Sha256 where
  digest : Bytes → Bytes
  length_digest : ∀ bytes, (digest bytes).length = 32

/-- `sha256_hex`. -/
def Sha256.hex (H : Sha256) (bytes : Bytes) : String := hexFromBytes (H.digest bytes)

/-- `vec![0u8; CAS_BLOCK_SIZE]`. -/
def zeroBlock : Bytes := List.replicate CAS_BLOCK_SIZE 0

/-- `zero_block_hash`. -/
def Sha256.zeroBlockHash (H : Sha256) : String := H.hex zeroBlock

theorem Sha256.valid_hex (H : Sha256) (bytes : Bytes) : validSha256Hex (H.hex bytes) = true :=
  valid_hexFromBytes (H.length_digest bytes)

theorem Sha256.unhex_hex (H : Sha256) (bytes : Bytes) : unhex (H.hex bytes) = some (H.digest bytes) :=
  unhex_hexFromBytes _

/-- How a file system compares names: two are one entry if they fold to the same. Names
    in hex that do so write the same bytes. -/
structure Volume where
  fold : Name → Name
  hex : ∀ {s t : Name}, validSha256Hex s = true → validSha256Hex t = true → fold s = fold t → unhex s = unhex t

/-- A file system on which names are equal only if they are. -/
def exactVolume : Volume where
  fold n := n
  hex _ _ h := by rw [h]

/-- A server: its hash and its file system, and where writing a block or a file fails. -/
structure Host where
  sha : Sha256
  volume : Volume
  storeFails : String → Bool
  writeFails : String → Bool

/-- The files under `cas/sha256`. -/
abbrev Cas := List (Name × Bytes)

namespace Host

variable (E : Host)

/-- What stands at `cas_block_path`. -/
def blockAt (sha256 : String) (cas : Cas) : Option Bytes :=
  (cas.find? fun e => E.volume.fold e.1 = E.volume.fold sha256).map Prod.snd

/-- `store_cas_block` (lines 2348–2383). The temporary file is linked in place in one
    step, and is not seen under any other name that is looked up. -/
def storeCasBlock (sha256 : String) (raw : Bytes) (cas : Cas) : Except CasError Cas :=
  if ¬ validSha256Hex sha256 then .error (.invalidSha256 sha256)
  else if CAS_BLOCK_SIZE < raw.length then .error (.blockTooLarge raw.length)
  else if E.sha.hex raw ≠ sha256 then .error (.hashMismatch sha256 (E.sha.hex raw))
  else if sha256 = E.sha.zeroBlockHash then .ok cas
  else if (E.blockAt sha256 cas).isSome then .ok cas
  else if E.storeFails sha256 then .error (.blockNotStored sha256)
  else .ok (cas ++ [(sha256, raw)])

end Host

/-! ## Streams of frames -/

/-- `read_exact` of `n` bytes. -/
def readExact (n : ℕ) (input : Bytes) : Option (Bytes × Bytes) :=
  if n ≤ input.length then some (input.take n, input.drop n) else none

/-- `u32::to_le_bytes`. -/
def le32 (n : ℕ) : Bytes :=
  [UInt8.ofNat n, UInt8.ofNat (n / 2 ^ 8), UInt8.ofNat (n / 2 ^ 16), UInt8.ofNat (n / 2 ^ 24)]

/-- `u32::from_le_bytes`. -/
def ofLe32 : Bytes → ℕ
  | [] => 0
  | b :: bs => b.toNat + 2 ^ 8 * ofLe32 bs

/-- What the next frame of a stream is. -/
inductive Frame
  | done
  | bad (error : CasError)
  | block (hash raw rest : Bytes)

/-- The reads of `store_cas_block_stream` for one frame. The input ends, or with `broken`
    it ends in an error. -/
def readFrame (broken : Bool) (input : Bytes) : Frame :=
  match readExact 32 input with
  | none => if broken then .bad .readHash else .done
  | some (hash, input) =>
    match readExact 4 input with
    | none => .bad .readLength
    | some (len, input) =>
      if ofLe32 len = 0 ∨ CAS_BLOCK_SIZE < ofLe32 len then .bad (.invalidStreamLength (ofLe32 len))
      else match readExact (ofLe32 len) input with
        | none => .bad .readPayload
        | some (raw, rest) => .block hash raw rest

variable {n : ℕ} {input raw : Bytes} {broken : Bool}

theorem readExact_eq_some {taken rest : Bytes} (h : readExact n input = some (taken, rest)) :
    taken.length = n ∧ input = taken ++ rest := by
  unfold readExact at h
  split at h
  · next hn =>
    cases h
    exact ⟨length_take_of_le hn, (take_append_drop n input).symm⟩
  · cases h

theorem readExact_append {taken : Bytes} (rest : Bytes) (h : taken.length = n) :
    readExact n (taken ++ rest) = some (taken, rest) := by
  subst h
  simp [readExact]

theorem readFrame_eq_block {hash rest : Bytes} (h : readFrame broken input = .block hash raw rest) :
    hash.length = 32 ∧ rest.length < input.length := by
  unfold readFrame at h
  split at h
  · split at h <;> cases h
  · next hash' input₁ h₁ =>
    split at h
    · cases h
    · next len input₂ h₂ =>
      split at h
      · cases h
      · split at h
        · cases h
        · next raw' rest' h₃ =>
          cases h
          obtain ⟨hlen, rfl⟩ := readExact_eq_some h₁
          obtain ⟨-, rfl⟩ := readExact_eq_some h₂
          obtain ⟨-, rfl⟩ := readExact_eq_some h₃
          refine ⟨hlen, ?_⟩
          simp only [length_append]
          omega

/-- `store_cas_block_stream` (lines 2385–2407): the result, and the blocks afterwards. -/
def Host.storeCasBlockStream (E : Host) (broken : Bool) (input : Bytes) (count : ℕ) (cas : Cas) :
    Except CasError ℕ × Cas :=
  match _h : readFrame broken input with
  | .done => (.ok count, cas)
  | .bad error => (.error error, cas)
  | .block hash raw rest =>
    match E.storeCasBlock (hexFromBytes hash) raw cas with
    | .error error => (.error error, cas)
    | .ok cas => E.storeCasBlockStream broken rest (count + 1) cas
termination_by input.length
decreasing_by exact (readFrame_eq_block _h).2

/-- What adds to the blocks: a stream that a client sends, and a block of an instance
    that the server indexes (`index_layout_into_cas`). -/
inductive Event
  | stream (input : Bytes) (broken : Bool)
  | index (raw : Bytes)

def Host.handle (E : Host) (cas : Cas) : Event → Cas
  | .stream input broken => (E.storeCasBlockStream broken input 0 cas).2
  | .index raw =>
    match E.storeCasBlock (E.sha.hex raw) raw cas with
    | .ok cas => cas
    | .error _ => cas

/-- The blocks of a server after some events. -/
def Host.serve (E : Host) (events : List Event) : Cas := events.foldl E.handle []

/-- Every block is named by its hash. -/
def Host.Sound (E : Host) (cas : Cas) : Prop := ∀ e ∈ cas, e.1 = E.sha.hex e.2

section sound

variable {E : Host} {cas cas' : Cas} {sha256 : String}

theorem storeCasBlock_cases (h : E.storeCasBlock sha256 raw cas = .ok cas') :
    E.sha.hex raw = sha256 ∧ (cas' = cas ∨ cas' = cas ++ [(sha256, raw)]) := by
  unfold Host.storeCasBlock at h
  split at h
  · cases h
  split at h
  · cases h
  split at h
  · cases h
  next hhash =>
  refine ⟨not_not.1 hhash, ?_⟩
  split at h
  · cases h
    exact .inl rfl
  split at h
  · cases h
    exact .inl rfl
  split at h
  · cases h
  · cases h
    exact .inr rfl

theorem Host.Sound.store (hs : E.Sound cas) (h : E.storeCasBlock sha256 raw cas = .ok cas') :
    E.Sound cas' := by
  obtain ⟨hhash, rfl | rfl⟩ := storeCasBlock_cases h
  · exact hs
  · intro e he
    rcases mem_append.1 he with he | he
    · exact hs e he
    · cases mem_singleton.1 he
      exact hhash.symm

theorem Host.Sound.stream {count : ℕ} (hs : E.Sound cas) :
    E.Sound (E.storeCasBlockStream broken input count cas).2 := by
  fun_induction E.storeCasBlockStream broken input count cas with
  | case1 => exact hs
  | case2 => exact hs
  | case3 => exact hs
  | case4 input count cas hash raw rest _ cas' hstore ih => exact ih (hs.store hstore)

theorem Host.Sound.handle (hs : E.Sound cas) (event : Event) : E.Sound (E.handle cas event) := by
  cases event with
  | stream input broken => exact hs.stream
  | index raw =>
    simp only [Host.handle]
    split
    · next h => exact hs.store h
    · exact hs

/-- After any events, every block is named by its hash. -/
theorem sound_serve (E : Host) (events : List Event) : E.Sound (E.serve events) := by
  unfold Host.serve
  have hnil : E.Sound [] := by simp [Host.Sound]
  generalize ([] : Cas) = cas at hnil
  induction events generalizing cas with
  | nil => exact hnil
  | cons event events ih => exact ih _ (hnil.handle event)

/-- The block found under a hash has that hash. -/
theorem Host.Sound.unhex (hs : E.Sound cas) (hv : validSha256Hex sha256 = true)
    (h : E.blockAt sha256 cas = some raw) : Server.unhex sha256 = some (E.sha.digest raw) := by
  obtain ⟨e, he, rfl⟩ := Option.map_eq_some_iff.1 h
  have hfold : E.volume.fold e.1 = E.volume.fold sha256 := by simpa using List.find?_some he
  rw [← E.sha.unhex_hex, ← hs e (mem_of_find?_eq_some he)]
  refine E.volume.hex hv ?_ hfold.symm
  rw [hs e (mem_of_find?_eq_some he)]
  exact E.sha.valid_hex _

end sound

/-! ## Frames read -/

/-- The bytes of a frame, as `write_cas_block_frame` writes it. -/
def frame (hash raw : Bytes) : Bytes := hash ++ le32 raw.length ++ raw

theorem ofLe32_le32 (h : n < 2 ^ 32) : ofLe32 (le32 n) = n := by
  simp only [le32, ofLe32, UInt8.toNat_ofNat']
  omega

theorem readFrame_frame {hash : Bytes} (rest : Bytes) (hhash : hash.length = 32) (hpos : raw ≠ [])
    (hsize : raw.length ≤ CAS_BLOCK_SIZE) :
    readFrame broken (frame hash raw ++ rest) = .block hash raw rest := by
  have hlen : ofLe32 (le32 raw.length) = raw.length :=
    ofLe32_le32 (Nat.lt_of_le_of_lt hsize (by decide))
  have hne : raw.length ≠ 0 := mt length_eq_zero_iff.1 hpos
  have hsplit : frame hash raw ++ rest = hash ++ (le32 raw.length ++ (raw ++ rest)) := by
    simp only [frame, append_assoc]
  have hfour : readExact 4 (le32 raw.length ++ (raw ++ rest)) = some (le32 raw.length, raw ++ rest) :=
    readExact_append _ rfl
  rw [hsplit, readFrame, readExact_append _ hhash]
  simp only [hfour, hlen]
  rw [if_neg (by omega), readExact_append _ rfl]

/-- What storing a block under its hash leaves, if no call fails. -/
def Host.put (E : Host) (cas : Cas) (raw : Bytes) : Cas :=
  if E.sha.hex raw = E.sha.zeroBlockHash ∨ (E.blockAt (E.sha.hex raw) cas).isSome then cas
  else cas ++ [(E.sha.hex raw, raw)]

section frames

variable {E : Host} (hstore : ∀ sha256, E.storeFails sha256 = false)

include hstore

theorem storeCasBlock_hex (hsize : raw.length ≤ CAS_BLOCK_SIZE) (cas : Cas) :
    E.storeCasBlock (E.sha.hex raw) raw cas = .ok (E.put cas raw) := by
  simp only [Host.storeCasBlock, Host.put, E.sha.valid_hex, not_true_eq_false, ite_false, Nat.not_lt.2 hsize, ne_eq,
    hstore, Bool.false_eq_true]
  split
  · next h => rw [if_pos (.inl h)]
  · next h =>
    split
    · next hs => rw [if_pos (.inr hs)]
    · next hs => rw [if_neg (not_or.2 ⟨h, hs⟩)]

/-- Frames written one after another are all stored. -/
theorem storeCasBlockStream_frames {raws : List Bytes}
    (hraws : ∀ raw ∈ raws, raw ≠ [] ∧ raw.length ≤ CAS_BLOCK_SIZE) (count : ℕ) (cas : Cas) :
    E.storeCasBlockStream false (raws.flatMap fun raw => frame (E.sha.digest raw) raw) count cas =
      (.ok (count + raws.length), raws.foldl E.put cas) := by
  induction raws generalizing count cas with
  | nil =>
    rw [Host.storeCasBlockStream]
    rfl
  | cons raw raws ih =>
    obtain ⟨⟨hpos, hsize⟩, hrest⟩ := forall_mem_cons.1 hraws
    have hframe := @readFrame_frame _ false _ (raws.flatMap fun raw => frame (E.sha.digest raw) raw)
      (E.sha.length_digest raw) hpos hsize
    have hstored : E.storeCasBlock (hexFromBytes (E.sha.digest raw)) raw cas = .ok (E.put cas raw) :=
      storeCasBlock_hex hstore hsize cas
    rw [flatMap_cons, Host.storeCasBlockStream]
    split
    · next h =>
      rw [hframe] at h
      cases h
    · next h =>
      rw [hframe] at h
      cases h
    · next h =>
      rw [hframe] at h
      cases h
      rw [hstored]
      simp only [ih hrest, length_cons, foldl_cons]
      congr 2
      omega

end frames

end Lnx.Server
