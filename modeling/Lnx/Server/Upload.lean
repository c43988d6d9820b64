import Lnx.Server.Import
import Lnx.Lib.PathText
import Lnx.Lib.Strings

/-!
# Upload sessions

A push starts with an upload session (`src/src/server.rs`, lines 741–805, 1227–1246, 2338–2341
and 2463–2486): the server makes an id from the name of the target instance, and every later
request of the push names the session by it. The id is also the name of the session's
directory.

* `session_usable_iff`: the id can be used in those requests only for a target without a dot
  that has at most 111 characters; an instance may have any other valid name.
-/

namespace Lnx.Server

open List

inductive UploadError
  | clockBeforeEpoch
  | invalidSession (value : String)
  deriving DecidableEq

/-- A character of a session id. -/
@[simp] def sessionChar (c : Char) : Bool := c.isAlphanum || c = '-' || c = '_'

/-- `validate_session_id` (lines 2463–2473). -/
def validateSessionId (value : String) : Except UploadError Unit :=
  if value = "" ∨ 128 < value.utf8ByteSize ∨ value.toList.any (fun c => !sessionChar c) = true then
    .error (.invalidSession value)
  else .ok ()

/-- `new_upload_session_id` (lines 2475–2486), with the clock in nanoseconds. -/
def newUploadSessionId (H : Sha256) (target : String) (now : ℤ) (pid : ℕ) :
    Except UploadError String :=
  if now < 0 then .error .clockBeforeEpoch
  else
    let seed := target ++ ":" ++ toString now ++ ":" ++ toString pid
    let digest := String.ofList ((H.hex seed.toUTF8.toList).toList.take 16)
    .ok (target ++ "-" ++ digest)

/-- `cas_session_dir` (lines 2338–2341), below the uploads directory. -/
def casSessionDir (uploads : List String) (session : String) : Except UploadError (List String) := do
  validateSessionId session
  return join uploads session

/-- The later requests of an upload. -/
inductive UploadRequest
  | blocks
  | commit
  | cancel

/-- The directory that a request works in, if it uses one; all begin with the same check. -/
def UploadRequest.sessionDir (uploads : List String) (session : String) :
    UploadRequest → Except UploadError (Option (List String))
  | blocks => do
    validateSessionId session
    return none
  | commit | cancel => do
    validateSessionId session
    return some (← casSessionDir uploads session)

/-! ## Ids that are accepted -/

theorem validateSessionId_eq_ok {value : String} : validateSessionId value = .ok () ↔
    value ≠ "" ∧ value.utf8ByteSize ≤ 128 ∧ ∀ c ∈ value.toList, sessionChar c = true := by
  rw [validateSessionId]
  split_ifs with h
  · simp only [false_iff]
    rintro ⟨hne, hlen, hchars⟩
    rcases h with h | h | h
    · exact hne h
    · omega
    · obtain ⟨c, hc, hbad⟩ := any_eq_true.1 h
      rw [hchars c hc] at hbad
      cases hbad
  · simp only [true_iff]
    refine ⟨fun he => h (.inl he), by omega, ?_⟩
    intro c hc
    by_contra hbad
    exact h (.inr (.inr (any_eq_true.2 ⟨c, hc, by simpa using hbad⟩)))

theorem plain_of_sessionChar {value : String} (hne : value ≠ "")
    (h : ∀ c ∈ value.toList, sessionChar c = true) : Plain value := by
  have hnot : ∀ c, sessionChar c = false → c ∉ value.toList := by
    intro c hc hmem
    rw [h c hmem] at hc
    cases hc
  refine ⟨hnot '/' (by decide), hne, ?_, ?_⟩
  · rintro rfl
    exact hnot '.' (by decide) (by decide)
  · rintro rfl
    exact hnot '.' (by decide) (by decide)

/-- A session id can be used: it is accepted everywhere and names an entry of `uploads`. -/
structure SessionUsable (uploads : List String) (id : String) : Prop where
  valid : validateSessionId id = .ok ()
  component : casSessionDir uploads id = .ok (uploads ++ [id])
  requests : ∀ r : UploadRequest, ∃ dir, r.sessionDir uploads id = .ok dir

theorem sessionUsable_of_valid {id : String} (h : validateSessionId id = .ok ())
    (uploads : List String) : SessionUsable uploads id := by
  obtain ⟨hne, -, hchars⟩ := validateSessionId_eq_ok.1 h
  have hdir : casSessionDir uploads id = .ok (uploads ++ [id]) := by
    rw [casSessionDir, h, join_of_plain (plain_of_sessionChar hne hchars)]
    rfl
  refine ⟨h, hdir, ?_⟩
  intro r
  cases r with
  | blocks => exact ⟨none, by rw [UploadRequest.sessionDir, h]; rfl⟩
  | commit | cancel => exact ⟨_, by rw [UploadRequest.sessionDir, h, hdir]; rfl⟩

/-! ## Ids that are made -/

theorem utf8ByteSize_of_ascii {s : String} (h : ∀ c ∈ s.toList, c.utf8Size = 1) :
    s.utf8ByteSize = s.toList.length := by
  rw [← String.ofList_toList (s := s), String.utf8ByteSize_ofList, String.toList_ofList]
  generalize s.toList = cs at h
  induction cs with
  | nil => rfl
  | cons c cs ih =>
    rw [String.utf8Len_cons, ih fun x hx => h x (mem_cons_of_mem c hx), h c mem_cons_self, length_cons]

variable {c : Char}

theorem isAlphanum_utf8Size (h : c.isAlphanum = true) : c.utf8Size = 1 := by
  rw [Char.utf8Size_eq_one_iff, UInt32.le_iff_toNat_le]
  exact Nat.le_trans (Strings.isAlphanum_toNat h).2 (by decide)

/-- The characters of an instance's name, with the dot apart. -/
theorem validInstanceName_chars {name : String} (h : validInstanceName name = true)
    (hc : c ∈ name.toList) : sessionChar c = true ∨ c = '.' := by
  simp only [validInstanceName, decide_eq_true_eq, all_eq_true] at h
  rcases h.2.2.2 c hc with h | h | h | h
  · exact .inl (by simp [h])
  · exact .inl (by simp [h])
  · exact .inl (by simp [h])
  · exact .inr h

theorem sessionChar_utf8Size (h : sessionChar c = true) : c.utf8Size = 1 := by
  simp only [sessionChar, Bool.or_eq_true, decide_eq_true_eq] at h
  rcases h with (h | h) | h
  · exact isAlphanum_utf8Size h
  · rw [h]; rfl
  · rw [h]; rfl

theorem hexChar_sessionChar : ∀ n < 16, sessionChar (hexChar n) = true := by
  decide

/-- The digest's part of an id: 16 characters that any id may have. -/
theorem digest_part (H : Sha256) (seed : Bytes) :
    ((H.hex seed).toList.take 16).length = 16 ∧
      ∀ c ∈ (H.hex seed).toList.take 16, sessionChar c = true := by
  rw [Sha256.hex, hexFromBytes, String.toList_ofList]
  refine ⟨?_, ?_⟩
  · rw [length_take, length_flatMap_hexPair, H.length_digest]
    rfl
  · intro c hc
    obtain ⟨b, -, hb⟩ := mem_flatMap.1 (mem_of_mem_take hc)
    have hlt := b.toNat_lt
    rcases mem_pair.1 hb with rfl | rfl
    · exact hexChar_sessionChar _ (by omega)
    · exact hexChar_sessionChar _ (Nat.mod_lt _ (by omega))

/-- The session id that an upload starts with can be used exactly for short names without
    a dot. -/
theorem session_usable_iff (H : Sha256) (target : String) (now : ℤ) (pid : ℕ) (uploads : List String)
    (hname : validInstanceName target = true) (hclock : 0 ≤ now) :
    (∃ id, newUploadSessionId H target now pid = .ok id ∧ SessionUsable uploads id) ↔
      '.' ∉ target.toList ∧ target.toList.length ≤ 111 := by
  obtain ⟨hlen, hdigits⟩ := digest_part H (target ++ ":" ++ toString now ++ ":" ++ toString pid).toUTF8.toList
  generalize hdigest : (H.hex (target ++ ":" ++ toString now ++ ":" ++ toString pid).toUTF8.toList).toList.take 16
    = digest at hlen hdigits
  have hnew : newUploadSessionId H target now pid = .ok (target ++ "-" ++ String.ofList digest) := by
    rw [newUploadSessionId, if_neg (by omega), ← hdigest]
  have hchars : (target ++ "-" ++ String.ofList digest).toList = target.toList ++ '-' :: digest := by simp
  have hsize : (target ++ "-" ++ String.ofList digest).utf8ByteSize = target.toList.length + 17 := by
    rw [utf8ByteSize_of_ascii, hchars, length_append, length_cons, hlen]
    intro c hc
    rw [hchars, mem_append, mem_cons] at hc
    rcases hc with hc | rfl | hc
    · rcases validInstanceName_chars hname hc with hc | rfl
      · exact sessionChar_utf8Size hc
      · rfl
    · rfl
    · exact sessionChar_utf8Size (hdigits c hc)
  constructor
  · rintro ⟨id, hid, huse⟩
    cases hnew.symm.trans hid
    obtain ⟨-, hle, hall⟩ := validateSessionId_eq_ok.1 huse.valid
    refine ⟨?_, by omega⟩
    intro hdot
    exact absurd (hall '.' (by rw [hchars]; exact mem_append_left _ hdot)) (by decide)
  · rintro ⟨hdot, hle⟩
    refine ⟨_, hnew, sessionUsable_of_valid (validateSessionId_eq_ok.2 ⟨?_, by omega, ?_⟩) uploads⟩
    · intro hempty
      rw [hempty] at hsize
      simp at hsize
    · intro c hc
      rw [hchars, mem_append, mem_cons] at hc
      rcases hc with hc | rfl | hc
      · rcases validInstanceName_chars hname hc with h | rfl
        · exact h
        · exact absurd hc hdot
      · rfl
      · exact hdigits c hc

theorem session_usable_dev : ∃ id, newUploadSessionId shortSha "dev" 1 7 = .ok id ∧
    SessionUsable ["uploads"] id :=
  (session_usable_iff shortSha "dev" 1 7 ["uploads"] (by decide) (by decide)).2 (by decide)

/-- An instance may have a dot in its name, but no push can go to it. -/
theorem dotted_instance_not_pushable :
    validInstanceName "my.vm" = true ∧ ∃ id, newUploadSessionId shortSha "my.vm" 1 7 = .ok id ∧
      validateSessionId id ≠ .ok () := by
  refine ⟨by decide, _, rfl, ?_⟩
  intro h
  obtain ⟨-, -, hchars⟩ := validateSessionId_eq_ok.1 h
  exact absurd (hchars '.' (by simp)) (by decide)

end Lnx.Server
