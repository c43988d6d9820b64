import Lnx.Lib.PathText
import Lnx.Lib.Tree
import Lnx.Server.Blocks
import Mathlib.Data.Set.Function

/-!
# Imports from content-addressed blocks

`commit_cas_upload_blocking` (`src/src/server.rs` lines 1292–1323) rebuilds an instance
from a manifest: `validate_cas_manifest`, `verify_cas_manifest_blocks_exist` and
`reconstruct_cas_manifest` (lines 1373–1459). The scratch directory it writes to is new,
and holds nothing but the files it wrote; a path text leads to its pieces other than `.`
(`places`), as the file system compares them.

* `import_integrity_iff`: what an import that returns wrote is what the manifest says
  exactly if no two of its paths lead to one place and every block is named with the
  length it has.
* `import_may_cut_and_merge`: neither is checked.
-/

namespace Lnx.Server

open Option Sha256 List

structure CasManifestBlock where
  offset : ℕ
  len : ℕ
  sha256 : String
  deriving DecidableEq

structure CasManifestFile where
  path : String
  len : ℕ
  mode : ℕ
  blocks : List CasManifestBlock
  deriving DecidableEq

/-- What the modelled functions read of `CasUploadManifest`. -/
structure CasUploadManifest where
  version : ℕ
  sourceInstance : String
  replace : Bool
  files : List CasManifestFile
  deriving DecidableEq

/-- `validate_instance_name` (`paths.rs` lines 15–28). -/
def validInstanceName (name : String) : Bool :=
  name ≠ "" ∧ name ≠ "." ∧ name ≠ ".." ∧
    name.toList.all fun c => c.isAlphanum ∨ c = '-' ∨ c = '_' ∨ c = '.'

/-- `safe_bundle_relative_path` (lines 1190–1200). -/
def safeBundleRelativePath (path : String) : Except CasError Unit :=
  if path.toList.head? = some '/' ∨ ".." ∈ pieces path then .error (.unsafePath path) else .ok ()

/-- The checks of `validate_cas_manifest` on the blocks of one file. -/
def validateBlocks (path : String) (fileLen : ℕ) : ℕ → List CasManifestBlock → Except CasError Unit
  | _, [] => .ok ()
  | previousEnd, b :: bs =>
    if ¬ validSha256Hex b.sha256 then .error (.invalidSha256 b.sha256)
    else if b.len = 0 ∨ CAS_BLOCK_SIZE < b.len then .error (.invalidBlockLength b.len path)
    else if fileLen < b.offset ∨ fileLen - b.offset < b.len then .error (.outOfBounds path)
    else if b.offset < previousEnd then .error (.overlapping path)
    else validateBlocks path fileLen (b.offset + b.len) bs

/-- Its loop over the files; `seen` are the paths so far. -/
def validateFiles : List String → List CasManifestFile → Except CasError Unit
  | _, [] => .ok ()
  | seen, f :: fs => do
    safeBundleRelativePath f.path
    if f.path ∈ seen then .error (.duplicateFile f.path)
    else if f.path = "" then .error .emptyPath
    else do
      validateBlocks f.path f.len 0 f.blocks
      validateFiles (f.path :: seen) fs

/-- `validate_cas_manifest` (lines 1373–1400). -/
def validateCasManifest (m : CasUploadManifest) : Except CasError Unit :=
  if validInstanceName m.sourceInstance then validateFiles [] m.files
  else .error (.invalidInstanceName m.sourceInstance)

/-- The files written so far: where they stand, their bytes and permission bits. -/
abbrev Scratch := List (List Name × Bytes × ℕ)

/-- A file stands where another needs a directory, or the other way round. -/
def obstructed (scratch : Scratch) (key : List Name) : Bool :=
  scratch.any fun e => e.1 ≠ key ∧ (e.1 <+: key ∨ key <+: e.1)

namespace Host

variable (E : Host)

/-- The place that a path text leads to. -/
def keyOf (path : String) : List Name := (places path).map E.volume.fold

/-- What `verify_cas_manifest_blocks_exist` asks of one block. -/
def verifyBlock (cas : Cas) (path : String) (b : CasManifestBlock) : Except CasError Unit :=
  if b.sha256 = E.sha.zeroBlockHash ∨ (E.blockAt b.sha256 cas).isSome then .ok ()
  else .error (.missingBlock b.sha256 path)

def verifyBlocks (cas : Cas) (path : String) : List CasManifestBlock → Except CasError Unit
  | [] => .ok ()
  | b :: bs => do
    E.verifyBlock cas path b
    verifyBlocks cas path bs

/-- `verify_cas_manifest_blocks_exist` (lines 1402–1415). -/
def verifyCasManifestBlocksExist (cas : Cas) : List CasManifestFile → Except CasError Unit
  | [] => .ok ()
  | f :: fs => do
    E.verifyBlocks cas f.path f.blocks
    verifyCasManifestBlocksExist cas fs

/-- The loop of `reconstruct_cas_file` over the blocks. -/
def reconstructBlocks (cas : Cas) (path : String) : List CasManifestBlock → Bytes → Except CasError Bytes
  | [], out => .ok out
  | b :: bs, out =>
    if b.sha256 = E.sha.zeroBlockHash then reconstructBlocks cas path bs out
    else if ¬ validSha256Hex b.sha256 then .error (.invalidSha256 b.sha256)
    else match E.blockAt b.sha256 cas with
      | none => .error (.missingBlock b.sha256 path)
      | some raw =>
        -- `copy_exact_bytes`: of a longer block, the first `b.len` bytes
        if raw.length < b.len then .error (.shortBlock path)
        else reconstructBlocks cas path bs (writeAt out b.offset (raw.take b.len))

/-- `reconstruct_cas_file` (lines 1426–1459): the bytes of the file. -/
def reconstructCasFile (cas : Cas) (f : CasManifestFile) : Except CasError Bytes :=
  E.reconstructBlocks cas f.path f.blocks (List.replicate f.len 0)

/-- `reconstruct_cas_manifest` (lines 1417–1424). -/
def reconstructCasManifest (cas : Cas) : List CasManifestFile → Scratch → Except CasError Scratch
  | [], scratch => .ok scratch
  | f :: fs, scratch => do
    safeBundleRelativePath f.path
    if endsAtDir f.path ∨ obstructed scratch (E.keyOf f.path) ∨ E.writeFails f.path then .error (.notWritten f.path)
    else do
      let out ← E.reconstructCasFile cas f
      reconstructCasManifest cas fs (Assoc.set (E.keyOf f.path) (out, f.mode &&& 0o7777) scratch)

/-- `commit_cas_upload_blocking` (lines 1292–1306) up to the files it wrote. `accepts` is
    what else it may refuse: the target, and a snapshot that cannot run here. -/
def commitCasUpload (accepts : CasUploadManifest → Bool) (cas : Cas) (m : CasUploadManifest) :
    Except CasError Scratch := do
  validateCasManifest m
  if accepts m then do
    E.verifyCasManifestBlocksExist cas m.files
    E.reconstructCasManifest cas m.files []
  else .error .refused

/-- No two of the byte strings compared have one hash: the beginnings of blocks. -/
def CollisionFree (cas : Cas) : Prop :=
  Set.InjOn E.sha.digest { x | x <+: zeroBlock ∨ ∃ e ∈ cas, x <+: e.2 }

end Host

open Host

/-- A file as the manifest describes it. -/
structure Rebuilt (H : Sha256) (f : CasManifestFile) (bytes : Bytes) : Prop where
  length : bytes.length = f.len
  blocks : ∀ b ∈ f.blocks, unhex b.sha256 = some (H.digest (slice bytes b.offset b.len))
  zero : ∀ i < f.len, (∀ b ∈ f.blocks, ¬ (b.offset ≤ i ∧ i < b.offset + b.len)) → bytes[i]? = some 0

/-- No two paths of the manifest lead to one place. -/
def Apart (E : Host) (m : CasUploadManifest) : Prop :=
  m.files.Pairwise fun f g => E.keyOf f.path ≠ E.keyOf g.path

/-- All files are as the manifest describes them, and each was written to a place of its
    own. -/
structure Integrity (E : Host) (m : CasUploadManifest) (scratch : Scratch) : Prop where
  files : ∀ f ∈ m.files, ∃ bytes mode, Assoc.get (E.keyOf f.path) scratch = some (bytes, mode) ∧
    Rebuilt E.sha f bytes
  apart : Apart E m

/-- No two paths of the manifest lead to one place, and every block is named with the
    length it has. -/
structure Exact (E : Host) (cas : Cas) (m : CasUploadManifest) : Prop where
  apart : Apart E m
  whole : ∀ f ∈ m.files, ∀ b ∈ f.blocks,
    if b.sha256 = E.sha.zeroBlockHash then b.len = CAS_BLOCK_SIZE
    else ∀ raw, E.blockAt b.sha256 cas = some raw → raw.length = b.len

/-! ## Blocks of one file -/

/-- Blocks that follow each other inside a file. -/
def Ordered (fileLen : ℕ) : ℕ → List CasManifestBlock → Prop
  | _, [] => True
  | previousEnd, b :: bs =>
    validSha256Hex b.sha256 = true ∧ b.len ≤ CAS_BLOCK_SIZE ∧ previousEnd ≤ b.offset ∧ b.offset + b.len ≤ fileLen ∧
      Ordered fileLen (b.offset + b.len) bs

/-- What `reconstruct_cas_file` leaves in the place of a block. -/
def Filled (E : Host) (cas : Cas) (b : CasManifestBlock) (d : Bytes) : Prop :=
  if b.sha256 = E.sha.zeroBlockHash then d = List.replicate b.len 0
  else ∃ raw, E.blockAt b.sha256 cas = some raw ∧ b.len ≤ raw.length ∧ d = raw.take b.len

section blocks

variable {E : Host} {cas : Cas} {path : String} {len prev : ℕ}
variable {bs : List CasManifestBlock} {b : CasManifestBlock}

theorem ordered_of_validate (h : validateBlocks path len prev bs = .ok ()) :
    Ordered len prev bs := by
  induction bs generalizing prev with
  | nil => trivial
  | cons b bs ih =>
    simp only [validateBlocks] at h
    split at h
    · cases h
    next hvalid =>
    split at h
    · cases h
    next hlen =>
    split at h
    · cases h
    next hbounds =>
    split at h
    · cases h
    next hprev =>
    exact ⟨not_not.1 hvalid, by omega, by omega, by omega, ih h⟩

theorem Ordered.mem (h : Ordered len prev bs) (hb : b ∈ bs) :
    validSha256Hex b.sha256 = true ∧ b.len ≤ CAS_BLOCK_SIZE ∧ prev ≤ b.offset ∧ b.offset + b.len ≤ len := by
  induction bs generalizing prev with
  | nil => cases hb
  | cons c bs ih =>
    obtain ⟨hvalid, hsize, hprev, hend, hrest⟩ := h
    rcases mem_cons.1 hb with rfl | hb
    · exact ⟨hvalid, hsize, hprev, hend⟩
    · obtain ⟨hv, hs, hp, he⟩ := ih hrest hb
      exact ⟨hv, hs, by omega, he⟩

/-- A buffer after its blocks have been written: below `prev` nothing changed, each block
    stands in its place, and elsewhere there are zeros. -/
structure Written (E : Host) (cas : Cas) (prev : ℕ) (bs : List CasManifestBlock) (out out' : Bytes) : Prop where
  length : out'.length = out.length
  below : ∀ i < prev, out'[i]? = out[i]?
  blocks : ∀ b ∈ bs, Filled E cas b (slice out' b.offset b.len)
  zero : ∀ i, prev ≤ i → i < out.length → (∀ b ∈ bs, ¬ (b.offset ≤ i ∧ i < b.offset + b.len)) → out'[i]? = some 0

/-- One block and the rest: `mid` is the buffer with the block written. -/
theorem Written.cons {out mid out' : Bytes} {d : Bytes} (hprev : prev ≤ b.offset)
    (hend : b.offset + b.len ≤ out.length) (hd : d.length = b.len)
    (hzero : ∀ i, prev ≤ i → i < out.length → out[i]? = some 0) (hmid : mid.length = out.length)
    (hget : ∀ i, mid[i]? = if b.offset ≤ i ∧ i < b.offset + b.len then d[i - b.offset]? else out[i]?)
    (hfilled : Filled E cas b d) (hw : Written E cas (b.offset + b.len) bs mid out') :
    Written E cas prev (b :: bs) out out' where
  length := hw.length.trans hmid
  below i hi := by rw [hw.below i (by omega), hget, if_neg (by omega)]
  blocks := by
    refine forall_mem_cons.2 ⟨?_, hw.blocks⟩
    have hslice : slice out' b.offset b.len = d := by
      refine slice_eq (by rw [hw.length, hmid]; exact hend) hd fun i hi => ?_
      rw [hw.below _ (by omega), hget, if_pos (by omega), Nat.add_sub_cancel_left]
    rw [hslice]
    exact hfilled
  zero i hi hlen hnone := by
    obtain ⟨hb, hrest⟩ := forall_mem_cons.1 hnone
    by_cases hbelow : i < b.offset + b.len
    · rw [hw.below i hbelow, hget, if_neg hb, hzero i hi hlen]
    · exact hw.zero i (by omega) (by omega) hrest

theorem reconstructBlocks_written {out out' : Bytes} (hbs : Ordered out.length prev bs)
    (hzero : ∀ i, prev ≤ i → i < out.length → out[i]? = some 0)
    (h : E.reconstructBlocks cas path bs out = .ok out') : Written E cas prev bs out out' := by
  induction bs generalizing prev out with
  | nil =>
    cases h
    exact ⟨rfl, fun _ _ => rfl, by simp, fun i hi hlen _ => hzero i hi hlen⟩
  | cons b bs ih =>
    obtain ⟨-, -, hprev, hend, hrest⟩ := hbs
    simp only [reconstructBlocks] at h
    split at h
    · next hhash =>
      -- the buffer already holds zeros where the block is to be
      refine .cons (d := List.replicate b.len 0) hprev hend length_replicate hzero rfl (fun i => ?_)
        (by rw [Filled, if_pos hhash]) (ih hrest (fun i hi => hzero i (by omega)) h)
      split
      · next hi => rw [hzero i (by omega) (by omega), List.getElem?_replicate, if_pos (by omega)]
      · rfl
    next hhash =>
    split at h
    · cases h
    split at h
    · cases h
    next raw hraw =>
    split at h
    · cases h
    next hshort =>
    have hd : (raw.take b.len).length = b.len := length_take_of_le (by omega)
    have hfits : b.offset + (raw.take b.len).length ≤ out.length := by rw [hd]; exact hend
    have hmid := length_writeAt hfits
    have hget := getElem?_writeAt hfits
    rw [hd] at hget
    refine .cons (d := raw.take b.len) hprev hend hd hzero hmid hget
      (by rw [Filled, if_neg hhash]; exact ⟨raw, hraw, by omega, rfl⟩) (ih ?_ (fun i hi hlen => ?_) h)
    · rw [hmid]
      exact hrest
    · rw [hget, if_neg (by omega)]
      exact hzero i (by omega) (by omega)

/-- The piece left in the place of a block hashes to the block's name exactly if it is
    all of the block. -/
theorem Filled.hash_iff (hs : E.Sound cas) (hfree : E.CollisionFree cas) {d : Bytes}
    (hv : validSha256Hex b.sha256 = true) (hsize : b.len ≤ CAS_BLOCK_SIZE) (hd : Filled E cas b d) :
    unhex b.sha256 = some (E.sha.digest d) ↔
      if b.sha256 = E.sha.zeroBlockHash then b.len = CAS_BLOCK_SIZE
      else ∀ raw, E.blockAt b.sha256 cas = some raw → raw.length = b.len := by
  unfold Filled at hd
  split
  · next hhash =>
    rw [if_pos hhash] at hd
    subst hd
    have hpre : List.replicate b.len 0 <+: zeroBlock :=
      prefix_replicate_iff.2 ⟨by simpa using hsize, by simp⟩
    rw [hhash, zeroBlockHash, E.sha.unhex_hex, some.injEq]
    constructor
    · intro heq
      have hall : zeroBlock = List.replicate b.len 0 := hfree (.inl (prefix_refl _)) (.inl hpre) heq
      simpa [zeroBlock] using (congrArg List.length hall).symm
    · intro hlen
      rw [hlen, zeroBlock]
  · next hhash =>
    rw [if_neg hhash] at hd
    obtain ⟨raw, hraw, hle, rfl⟩ := hd
    rw [hs.unhex hv hraw, some.injEq]
    obtain ⟨e, he, rfl⟩ := map_eq_some_iff.1 hraw
    have hmem := mem_of_find?_eq_some he
    constructor
    · intro heq raw' hraw'
      cases hraw.symm.trans hraw'
      have hall : e.2 = e.2.take b.len :=
        hfree (.inr ⟨e, hmem, prefix_refl _⟩) (.inr ⟨e, hmem, take_prefix _ _⟩) heq
      have hlen := congrArg List.length hall
      rw [length_take] at hlen
      omega
    · intro hlen
      rw [← hlen _ hraw, take_length]

/-- A rebuilt file is as the manifest describes it exactly if its blocks are whole. -/
theorem rebuilt_iff (hs : E.Sound cas) (hfree : E.CollisionFree cas) {f : CasManifestFile} {bytes : Bytes}
    (hbs : Ordered f.len 0 f.blocks) (h : E.reconstructCasFile cas f = .ok bytes) :
    Rebuilt E.sha f bytes ↔ ∀ b ∈ f.blocks, if b.sha256 = E.sha.zeroBlockHash then b.len = CAS_BLOCK_SIZE
      else ∀ raw, E.blockAt b.sha256 cas = some raw → raw.length = b.len := by
  have hw : Written E cas 0 f.blocks (List.replicate f.len 0) bytes := by
    refine reconstructBlocks_written (by simpa using hbs) (fun i _ hi => ?_) h
    rw [length_replicate] at hi
    rw [List.getElem?_replicate, if_pos hi]
  have hblock : ∀ b ∈ f.blocks, (unhex b.sha256 = some (E.sha.digest (slice bytes b.offset b.len)) ↔
      if b.sha256 = E.sha.zeroBlockHash then b.len = CAS_BLOCK_SIZE
      else ∀ raw, E.blockAt b.sha256 cas = some raw → raw.length = b.len) := fun b hb =>
    (hw.blocks b hb).hash_iff hs hfree (hbs.mem hb).1 (hbs.mem hb).2.1
  constructor
  · exact fun hr b hb => (hblock b hb).1 (hr.blocks b hb)
  · refine fun hwhole => ⟨by simpa using hw.length, fun b hb => (hblock b hb).2 (hwhole b hb), fun i hi hnone => ?_⟩
    exact hw.zero i (Nat.zero_le i) (by simpa using hi) hnone

end blocks

/-! ## Manifests -/

section manifests

variable {E : Host} {cas : Cas} {fs : List CasManifestFile}

theorem ordered_of_validateFiles {seen : List String} (h : validateFiles seen fs = .ok ()) :
    ∀ f ∈ fs, Ordered f.len 0 f.blocks := by
  induction fs generalizing seen with
  | nil => simp
  | cons f fs ih =>
    obtain ⟨_, -, h⟩ := bind_eq_ok.1 h
    split at h
    · cases h
    split at h
    · cases h
    obtain ⟨_, hblocks, h⟩ := bind_eq_ok.1 h
    exact forall_mem_cons.2 ⟨ordered_of_validate hblocks, ih h⟩

/-- Files written to places of their own are there afterwards. -/
theorem reconstructCasManifest_get {scratch scratch' : Scratch}
    (h : E.reconstructCasManifest cas fs scratch = .ok scratch') :
    (∀ k, (∀ f ∈ fs, E.keyOf f.path ≠ k) → Assoc.get k scratch' = Assoc.get k scratch) ∧
      (fs.Pairwise (fun f g => E.keyOf f.path ≠ E.keyOf g.path) → ∀ f ∈ fs, ∃ bytes,
        E.reconstructCasFile cas f = .ok bytes ∧
          Assoc.get (E.keyOf f.path) scratch' = some (bytes, f.mode &&& 0o7777)) := by
  induction fs generalizing scratch with
  | nil =>
    cases h
    exact ⟨fun _ _ => rfl, by simp⟩
  | cons f fs ih =>
    obtain ⟨_, -, h⟩ := bind_eq_ok.1 h
    split at h
    · cases h
    obtain ⟨bytes, hbytes, h⟩ := bind_eq_ok.1 h
    obtain ⟨hother, hmem⟩ := ih h
    refine ⟨fun k hk => ?_, fun hapart => ?_⟩
    · obtain ⟨hf, hfs⟩ := forall_mem_cons.1 hk
      rw [hother k hfs, Assoc.get_set_ne hf]
    · obtain ⟨hf, hfs⟩ := pairwise_cons.1 hapart
      refine forall_mem_cons.2 ⟨⟨bytes, hbytes, ?_⟩, hmem hfs⟩
      rw [hother _ fun g hg => Ne.symm (hf g hg), Assoc.get_set_self]

end manifests

/-- Imports keep what the manifest promises, under conditions that are not checked. After
    any streams and indexed blocks, honest or not, an import that returns has written
    files with the manifest's lengths, blocks and zeros, each to a place of its own,
    exactly if no two paths lead to one place and each block has the length that the
    manifest gives it. -/
theorem import_integrity_iff (E : Host) (events : List Event) (accepts : CasUploadManifest → Bool)
    (m : CasUploadManifest) (scratch : Scratch) (hfree : E.CollisionFree (E.serve events))
    (hok : E.commitCasUpload accepts (E.serve events) m = .ok scratch) :
    Integrity E m scratch ↔ Exact E (E.serve events) m := by
  have hs := sound_serve E events
  obtain ⟨_, hvalid, hok⟩ := bind_eq_ok.1 hok
  split at hok
  swap
  · cases hok
  obtain ⟨_, -, hok⟩ := bind_eq_ok.1 hok
  have hordered : ∀ f ∈ m.files, Ordered f.len 0 f.blocks := by
    unfold validateCasManifest at hvalid
    split at hvalid
    · exact ordered_of_validateFiles hvalid
    · cases hvalid
  have hget := (reconstructCasManifest_get hok).2
  constructor
  · refine fun hi => ⟨hi.apart, fun f hf => ?_⟩
    obtain ⟨bytes, hbytes, hat⟩ := hget hi.apart f hf
    obtain ⟨bytes', _, hat', hr⟩ := hi.files f hf
    cases hat.symm.trans hat'
    exact (rebuilt_iff hs hfree (hordered f hf) hbytes).1 hr
  · refine fun he => ⟨fun f hf => ?_, he.apart⟩
    obtain ⟨bytes, hbytes, hat⟩ := hget he.apart f hf
    exact ⟨bytes, _, hat, (rebuilt_iff hs hfree (hordered f hf) hbytes).2 (he.whole f hf)⟩

/-! ## A small server -/

/-- The length of a byte string and its first bytes. -/
def shortDigest (b : Bytes) : Bytes := le32 b.length ++ (b ++ List.replicate 28 0).take 28

theorem length_shortDigest (b : Bytes) : (shortDigest b).length = 32 := by
  rw [shortDigest, length_append, length_take, length_append,
    length_replicate]
  simp only [le32, length_cons, length_nil]
  omega

/-- A hash that tells short byte strings, and byte strings of different lengths, apart. -/
def shortSha : Sha256 := ⟨shortDigest, length_shortDigest⟩

def shortHost : Host := ⟨shortSha, exactVolume, fun _ => false, fun _ => false⟩

variable {x : Bytes}

theorem shortSha_length {y : Bytes} (hx : x.length < 2 ^ 32) (hy : y.length < 2 ^ 32)
    (h : shortSha.digest x = shortSha.digest y) : x.length = y.length := by
  have hlen : le32 x.length = le32 y.length := (append_inj h rfl).1
  rw [← ofLe32_le32 hx, hlen, ofLe32_le32 hy]

theorem shortSha_short {y : Bytes} (hx : x.length ≤ 28) (hy : y.length = x.length)
    (h : shortSha.digest x = shortSha.digest y) : x = y := by
  have htake := congrArg (List.take x.length) (append_inj h rfl).2
  rw [take_take, take_take, Nat.min_eq_left hx] at htake
  rwa [take_left, ← hy, take_left] at htake

theorem shortSha_ne_zeroBlockHash (hx : x.length < CAS_BLOCK_SIZE) :
    shortSha.hex x ≠ shortSha.zeroBlockHash := by
  intro h
  have hdigest : shortSha.digest x = shortSha.digest zeroBlock := by
    have := congrArg unhex h
    rw [zeroBlockHash, unhex_hex, unhex_hex] at this
    exact some.inj this
  have hzero : zeroBlock.length = CAS_BLOCK_SIZE := length_replicate
  have hsize : CAS_BLOCK_SIZE < 2 ^ 32 := by decide
  have := shortSha_length (by omega) (by omega) hdigest
  omega

theorem shortHost_collisionFree {cas : Cas} (hcas : ∀ e ∈ cas, e.2.length ≤ 28) : shortHost.CollisionFree cas := by
  have hsize : CAS_BLOCK_SIZE < 2 ^ 32 := by decide
  have hzero : zeroBlock.length = CAS_BLOCK_SIZE := length_replicate
  have hlen : ∀ {x : Bytes}, (x <+: zeroBlock ∨ ∃ e ∈ cas, x <+: e.2) →
      x.length < 2 ^ 32 ∧ (x.length ≤ 28 ∨ x <+: zeroBlock) := by
    rintro x (h | ⟨e, he, h⟩)
    · have := h.length_le
      exact ⟨by omega, .inr h⟩
    · have := h.length_le
      have := hcas e he
      exact ⟨by omega, .inl (by omega)⟩
  intro x hx y hy h
  obtain ⟨hx₁, hx₂⟩ := hlen hx
  obtain ⟨hy₁, hy₂⟩ := hlen hy
  have heq := shortSha_length hx₁ hy₁ h
  by_cases hshort : x.length ≤ 28
  · exact shortSha_short hshort heq.symm h
  · -- both are beginnings of the zero block
    have hxz := hx₂.resolve_left hshort
    have hyz := hy₂.resolve_left (by omega)
    rw [prefix_iff_eq_take.1 hxz, prefix_iff_eq_take.1 hyz, heq]

/-- Two bytes arrive in a stream. -/
def twoBytes : List Event := [.stream (frame (shortSha.digest [1, 2]) [1, 2]) false]

theorem serve_twoBytes : shortHost.serve twoBytes = [(shortSha.hex [1, 2], [1, 2])] := by
  have hstream := @storeCasBlockStream_frames shortHost (fun _ => rfl) [[1, 2]] (by simp [CAS_BLOCK_SIZE]) 0 []
  rw [flatMap_singleton] at hstream
  have hne : shortHost.sha.hex [1, 2] ≠ shortHost.sha.zeroBlockHash := shortSha_ne_zeroBlockHash (by decide)
  show (shortHost.storeCasBlockStream false _ 0 []).2 = _
  rw [show frame (shortSha.digest [1, 2]) [1, 2] = frame (shortHost.sha.digest [1, 2]) [1, 2] from rfl, hstream]
  simp [put, hne, blockAt]
  rfl

/-- A file of `n` bytes that names `n` bytes of the block. -/
@[simp] def beginning (n : ℕ) : CasUploadManifest :=
  ⟨2, "i", false, [⟨"f", n, 0o644, [⟨0, n, shortSha.hex [1, 2]⟩]⟩]⟩

theorem commit_beginning {n : ℕ} (hn : n = 1 ∨ n = 2) :
    shortHost.commitCasUpload (fun _ => true) (shortHost.serve twoBytes) (beginning n) =
      .ok [(["f"], [1, 2].take n, 0o644)] := by
  have hne : shortSha.hex [1, 2] ≠ shortHost.sha.zeroBlockHash := shortSha_ne_zeroBlockHash (by decide)
  have hblock : shortHost.blockAt (shortSha.hex [1, 2]) [(shortSha.hex [1, 2], [1, 2])] = some [1, 2] := by
    simp [blockAt]
  have hname : validInstanceName "i" = true := by decide
  have hsafe : safeBundleRelativePath "f" = .ok () := by decide
  have hend : endsAtDir "f" = false := by decide
  have hkey : shortHost.keyOf "f" = ["f"] := by decide
  have hwrite : shortHost.writeFails "f" = false := rfl
  rw [serve_twoBytes]
  rcases hn with rfl | rfl <;>
  simp [commitCasUpload, validateCasManifest, hname, validateFiles, hsafe, validateBlocks, shortSha.valid_hex,
    CAS_BLOCK_SIZE, verifyCasManifestBlocksExist, verifyBlocks, verifyBlock, hblock, reconstructCasManifest, hend,
    obstructed, hwrite, reconstructCasFile, reconstructBlocks, hne, hkey, writeAt, bind, Except.bind]

theorem twoBytes_collisionFree : shortHost.CollisionFree (shortHost.serve twoBytes) := by
  rw [serve_twoBytes]
  exact shortHost_collisionFree (by simp)

theorem import_integrity_whole :
    shortHost.CollisionFree (shortHost.serve twoBytes) ∧
      Integrity shortHost (beginning 2) [(["f"], [1, 2], 0o644)] := by
  refine ⟨twoBytes_collisionFree, (import_integrity_iff shortHost twoBytes (fun _ => true) (beginning 2) _
    twoBytes_collisionFree (commit_beginning (.inr rfl))).2 ⟨by simp [Apart], ?_⟩⟩
  have hne : shortSha.hex [1, 2] ≠ shortHost.sha.zeroBlockHash := shortSha_ne_zeroBlockHash (by decide)
  rw [serve_twoBytes]
  simp [hne, blockAt]

/-- Two texts of one path. -/
def twice : CasUploadManifest :=
  ⟨2, "i", false, [⟨"a", 0, 0o644, []⟩, ⟨"./a", 1, 0o644, []⟩]⟩

/-- A manifest that names the first byte of a block of two by the hash of both is
    imported, and the byte does not have that hash. A manifest that spells one path in
    two ways is imported, and one file is left of two. -/
theorem import_may_cut_and_merge :
    (shortHost.CollisionFree (shortHost.serve twoBytes) ∧
      shortHost.commitCasUpload (fun _ => true) (shortHost.serve twoBytes) (beginning 1) = .ok [(["f"], [1], 0o644)] ∧
      ¬ Integrity shortHost (beginning 1) [(["f"], [1], 0o644)]) ∧
    shortHost.commitCasUpload (fun _ => true) [] twice = .ok [(["a"], [0], 0o644)] ∧
      ¬ Integrity shortHost twice [(["a"], [0], 0o644)] := by
  refine ⟨⟨twoBytes_collisionFree, commit_beginning (.inl rfl), fun h => ?_⟩, ?_, fun h => ?_⟩
  · obtain ⟨bytes, mode, hat, hr⟩ := h.files _ (mem_singleton.2 rfl)
    have hkey : shortHost.keyOf "f" = ["f"] := by decide
    cases hat
    have hhash := hr.blocks _ (mem_singleton.2 rfl)
    exact absurd hhash (by decide)
  · decide
  · exact absurd h.apart (by unfold Apart; decide)

end Lnx.Server
