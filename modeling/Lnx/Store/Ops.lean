import Lnx.Store.World

/-!
# The store's functions

`src/src/store.rs`, `src/src/sparse_copy.rs`, `src/src/fsutil.rs` and the store
side of `src/src/runner/session.rs` as programs over the operations of
`Lnx.Store.World`. Every system call that changes the directory is one
operation, in the order the source makes them. What one function reads of the
store at one time it reads in one operation: the instance lock keeps others from
writing there meanwhile.
-/

namespace Lnx

/-! ## Reading and failing -/

/-- An operation that cannot fail. -/
def perform {β : Type} (o : FsOp β) : Io β := ExceptT.mk (.op o fun r => .ret (.ok r))

/-- A fallible operation under `with_context(|| format!("{doing} {path}"))?`. -/
def attempt {β : Type} (doing : String) (path : Path) (o : FsOp (Except IoError β)) : Io β :=
  ExceptT.mk (.op o fun r => .ret (r.mapError (StoreError.io doing path)))

/-- A computed result. -/
def ofExcept {α : Type} (r : Except StoreError α) : Io α := ExceptT.mk (.ret r)

/-- `read_json` (lines 177–186) of what reading `path` found. -/
def readJson {α : Type} (c : Codec α) (path : Path) : Except IoError Dir → Except StoreError (Option α)
  | .error .notFound => .ok none
  | .error e => .error (.io "read" path e)
  | .ok (.node _) => .error (.io "read" path .isADirectory)
  | .ok (.leaf (.symlink _)) => .error (.unsupported path)
  | .ok (.leaf (.file b)) =>
    match c.fromSlice b with
    | some a => .ok (some a)
    | none => .error (.parse path)

variable {found : Except IoError Dir}

theorem readJson_eq_some {α : Type} {c : Codec α} {path : Path} {a : α} :
    readJson c path found = .ok (some a) ↔
      ∃ b, found = .ok (.leaf (.file b)) ∧ c.fromSlice b = some a := by
  constructor
  · intro h
    unfold readJson at h
    split at h <;> first | cases h | skip
    next b =>
      refine ⟨b, rfl, ?_⟩
      split at h
      · next a' ha => cases h; exact ha
      · cases h
  · rintro ⟨b, rfl, hb⟩
    simp [readJson, hb]

/-! ## Files and directory trees -/

/-- Make one directory, unless it is there. -/
def ensureDir (p : Path) : Io Unit := do
  match ← perform (.edit (.mkdir p)) with
  | .ok () => pure ()
  | .error .alreadyExists =>
    match ← perform (.look p) with
    | .ok (.node _) => pure ()
    | _ => throw (.io "create" p .alreadyExists)
  | .error e => throw (.io "create" p e)

/-- Make the directories `names`, each in the one before. -/
def makeDirs (parent : Path) : List Name → Io Unit
  | [] => pure ()
  | n :: names => do
    ensureDir (parent ++ [n])
    makeDirs (parent ++ [n]) names

/-- `fs::create_dir_all`. -/
def createDirAll (p : Path) : Io Unit := makeDirs [] p

/-- `let _ = fs::remove_file(path)`. -/
def removeFileIfAny (p : Path) : Io Unit := do
  let _ ← perform (.edit (.unlink p))
  pure ()

/-- The macOS half of `clone_or_copy_file` once the source has been read: remove
    the target and `clonefile` over it. -/
def installFile (dst : Path) (bytes : Bytes) : Io Unit := do
  removeFileIfAny dst
  attempt "clonefile" dst (.edit (.place dst (.file bytes)))

/-- `clone_or_copy_file` (`sparse_copy.rs` lines 48–75). Times, permissions and
    sparseness are left out. -/
def cloneOrCopyFile (src dst : Path) : Io Unit := do
  createDirAll dst.dropLast
  match ← attempt "stat" src (.look src) with
  | .leaf (.file bytes) => installFile dst bytes
  | _ => throw (.unsupported src)

mutual

/-- `clone_or_copy_tree` (`sparse_copy.rs` lines 21–41) of a tree already read. -/
def copyTree (dst : Path) : Dir → Io Unit
  | .node es => do
    createDirAll dst
    copyEntries dst es
  | .leaf (.symlink target) => do
    createDirAll dst.dropLast
    attempt "symlink" dst (.edit (.place dst (.symlink target)))
  | .leaf (.file bytes) => do
    createDirAll dst.dropLast
    installFile dst bytes

/-- Its loop over the entries of a directory. -/
def copyEntries (dst : Path) : List (Name × Dir) → Io Unit
  | [] => pure ()
  | (n, t) :: es => do
    copyTree (dst ++ [n]) t
    copyEntries dst es

end

/-- `clone_or_copy_tree`. -/
def cloneOrCopyTree (src dst : Path) : Io Unit := do
  let t ← attempt "stat" src (.look src)
  copyTree dst t

/-- `if shares.exists() { clone_or_copy_tree(shares, dst)? }`. -/
def copyShares (src dst : Path) : Io Unit := do
  match ← perform (.look src) with
  | .ok _ => cloneOrCopyTree src dst
  | .error _ => pure ()

mutual

/-- `sync_tree` (lines 1064–1078) of the tree found at `p`. -/
def syncDirTree (p : Path) : Dir → Io Unit
  | .node es => do
    syncEntries p es
    attempt "sync" p (.edit (.syncDir p))
  | .leaf (.file _) => attempt "sync" p (.edit (.syncFile p))
  | .leaf (.symlink _) => pure ()

/-- Its loop over the entries of a directory. -/
def syncEntries (p : Path) : List (Name × Dir) → Io Unit
  | [] => pure ()
  | (n, t) :: es => do
    syncDirTree (p ++ [n]) t
    syncEntries p es

end

/-- `sync_tree`. -/
def syncTree (p : Path) : Io Unit := do
  match ← attempt "read" p (.look p) with
  | .node es => syncDirTree p (.node es)
  | .leaf _ => throw (.io "read" p .notADirectory)

/-- `fs::remove_dir_all`, with any part of the work done before the rest. -/
def removeDirAll (p : Path) : Io Unit := do
  attempt "remove" p (.edit (.shrink p))
  attempt "remove" p (.edit (.removeDir p))

/-- `remove_path_if_exists` (`fsutil.rs` lines 10–19). -/
def removePathIfExists (p : Path) : Io Unit := do
  match ← perform (.look p) with
  | .ok (.node _) => removeDirAll p
  | .ok (.leaf _) => attempt "remove" p (.edit (.unlink p))
  | .error .notFound => pure ()
  | .error e => throw (.io "stat" p e)

/-- `fs::write`. -/
def writeFile (p : Path) (bytes : Bytes) : Io Unit := do
  attempt "write" p (.edit (.create p))
  attempt "write" p (.edit (.write p bytes))

/-- The first steps of `commit_file`: write a new file and sync it. -/
def writeTemp (temp : Path) (contents : Bytes) : Io Unit := do
  attempt "create" temp (.edit (.createNew temp))
  attempt "write" temp (.edit (.write temp contents))
  attempt "sync" temp (.edit (.syncFile temp))

/-- The steps of `commit_file` that may fail. -/
def commitFileSteps (parent : Path) (name : Name) (temp : Path) (contents : Bytes) : Io Unit := do
  writeTemp temp contents
  attempt "rename" temp (.edit (.rename temp (parent ++ [name])))
  attempt "sync" parent (.edit (.syncDir parent))

/-- `commit_file` (lines 147–169): atomically replace `parent/name`. -/
def commitFile (parent : Path) (name : Name) (contents : Bytes) : Io Unit := do
  let id ← perform .newTempId
  let temp := parent ++ [name ++ ".tmp-" ++ id]
  tryCatch (commitFileSteps parent name temp contents) fun e => do
    removeFileIfAny temp
    throw e

/-- `commit_json` (lines 171–175). -/
def commitJson {α : Type} (c : Codec α) (parent : Path) (name : Name) (value : α) : Io Unit :=
  commitFile parent name (c.toVecPretty value ++ [10])

/-! ## Paths -/

/-- `Store::generation_dir`. -/
def generationDir (id : GenerationId) : Path := [GENERATIONS_DIR, id.asStr]

/-- The staging directory of a generation being written. -/
@[simp] def stagingDir (id : GenerationId) : Path := [GENERATIONS_DIR, STAGING_PREFIX ++ id.asStr]

/-- Where a generation is moved before it is deleted. -/
def trashDir (id : GenerationId) : Path := [GENERATIONS_DIR, TRASH_PREFIX ++ id.asStr]

/-- `Store::run_dir`. -/
@[simp] def runDir (run : RunId) : Path := [RUNS_DIR, run.asStr]

/-- A generation that is complete and readable. -/
structure Generation where
  dir : Path
  manifest : Manifest
  deriving DecidableEq

namespace Store

variable (S : Store)

/-! ## Reading the store (lines 425–517, 556–588, 936–960, 1054–1061) -/

/-- The record found in `state.json`. -/
def readRecord (found : Except IoError Dir) : Except StoreError (Option Record) :=
  match readJson S.recordJson [STATE_FILE] found with
  | .error e => .error e
  | .ok none => .ok none
  | .ok (some record) =>
    if record.version = RECORD_VERSION then .ok (some record)
    else .error (.unsupportedVersion record.version)

/-- `Store::record`. -/
def record : Io (Option Record) := do
  let found ← perform (.look [STATE_FILE])
  ofExcept (S.readRecord found)

variable {S} in
theorem readRecord_eq_some {record : Record} :
    S.readRecord found = .ok (some record) ↔
      ∃ b, found = .ok (.leaf (.file b)) ∧ S.recordJson.fromSlice b = some record ∧
        record.version = RECORD_VERSION := by
  constructor
  · intro h
    unfold readRecord at h
    split at h
    · cases h
    · cases h
    · next r hr =>
      split_ifs at h with hv
      cases h
      obtain ⟨b, hb, hd⟩ := readJson_eq_some.1 hr
      exact ⟨b, hb, hd, hv⟩
  · rintro ⟨b, rfl, hb, hv⟩
    simp [readRecord, readJson, hb, hv]

/-- `Store::require_record`. -/
def requireRecord : Io Record := do
  match ← S.record with
  | some record => pure record
  | none => throw .noRecord

/-- The loop of `Store::generation` over `manifest.files`, in the directory `d`. -/
def checkFiles (id : GenerationId) (d : Dir) : List (Name × ℕ) → Except StoreError Unit
  | [] => .ok ()
  | (name, size) :: files =>
    match resolve d [name] with
    | .error e => .error (.missingFile id name e)
    | .ok (.leaf (.file b)) =>
      if b.length = size then checkFiles id d files
      else .error (.wrongSize id name (some b.length) size)
    | .ok _ => .error (.wrongSize id name none size)

theorem checkFiles_eq_ok (id : GenerationId) {d : Dir} {files : List (Name × ℕ)} :
    checkFiles id d files = .ok () ↔
      ∀ e ∈ files, ∃ b, d.get [e.1] = some (.leaf (.file b)) ∧ b.length = e.2 := by
  induction files with
  | nil => simp [checkFiles]
  | cons e files ih =>
    rw [List.forall_mem_cons, ← ih]
    simp only [checkFiles]
    constructor
    · intro h
      split at h
      · cases h
      · next b hb =>
        split_ifs at h with hl
        exact ⟨⟨b, resolve_eq_ok.1 hb, hl⟩, h⟩
      · cases h
    · rintro ⟨⟨b, hb, hl⟩, h⟩
      simp [resolve_eq_ok.2 hb, hl, h]

/-- `Store::generation` of what stands in the generation's directory. -/
def checkGeneration (id : GenerationId) (found : Except IoError Dir) :
    Except StoreError Generation :=
  match readJson S.manifestJson (generationDir id ++ [MANIFEST])
      (found.bind fun d => resolve d [MANIFEST]), found with
  | .error e, _ => .error e
  | .ok none, _ => .error (.noManifest id)
  | .ok (some _), .error _ => .error (.noManifest id)
  | .ok (some manifest), .ok d =>
    if manifest.id = id then
      match checkFiles id d manifest.files with
      | .error e => .error e
      | .ok () =>
        if manifest.containsKey ROOTFS then .ok ⟨generationDir id, manifest⟩
        else .error (.noRootfs id)
    else .error (.wrongManifest id manifest.id)

variable {id : GenerationId} {G : Generation}

variable {S} in
/-- A generation is complete when its manifest parses, is its own, and lists only
    files that are there with their sizes, the disk among them. -/
theorem checkGeneration_eq_ok :
    S.checkGeneration id found = .ok G ↔
      ∃ d b m, found = .ok d ∧ d.get [MANIFEST] = some (.leaf (.file b)) ∧
        S.manifestJson.fromSlice b = some m ∧ m.id = id ∧
        (∀ e ∈ m.files, ∃ b, d.get [e.1] = some (.leaf (.file b)) ∧ b.length = e.2) ∧
        m.containsKey ROOTFS = true ∧ G = ⟨generationDir id, m⟩ := by
  simp only [← checkFiles_eq_ok id]
  constructor
  · intro h
    unfold checkGeneration at h
    split at h
    · cases h
    · cases h
    · cases h
    · next m d hm =>
      obtain ⟨b, hb, hd⟩ := readJson_eq_some.1 hm
      by_cases hid : m.id = id
      · simp only [hid, ite_true] at h
        split at h
        · cases h
        · next hf =>
          by_cases hr : m.containsKey ROOTFS = true
          · simp only [hr, ite_true] at h
            cases h
            exact ⟨d, b, m, rfl, resolve_eq_ok.1 hb, hd, hid, hf, hr, rfl⟩
          · simp only [hr] at h
            cases h
      · simp only [hid, ite_false] at h
        cases h
  · rintro ⟨d, b, m, rfl, hb, hd, hid, hf, hr, rfl⟩
    unfold checkGeneration
    simp only [Except.bind, resolve_eq_ok.2 hb, readJson, hd, hid, ite_true, hf, hr]

variable {S} in
theorem checkGeneration_id (h : S.checkGeneration id found = .ok G) : G.manifest.id = id := by
  obtain ⟨-, -, m, -, -, -, hid, -, -, rfl⟩ := checkGeneration_eq_ok.1 h
  exact hid

variable {S} in
/-- Whether a generation is complete depends on its manifest and the files that
    lists. -/
theorem checkGeneration_congr {g : GenerationId} {u v : Dir}
    (hG : S.checkGeneration g (.ok u) = .ok G)
    (h : ∀ name ∈ MANIFEST :: G.manifest.files.map Prod.fst, v.peek [name] = u.peek [name]) :
    S.checkGeneration g (.ok v) = .ok G := by
  obtain ⟨d, b, m, hd, hm, hparse, hid, hfiles, hroot, rfl⟩ := checkGeneration_eq_ok.1 hG
  cases hd
  have hleaf : ∀ name ∈ MANIFEST :: m.files.map Prod.fst, ∀ a, u.get [name] = some (.leaf a) →
      v.get [name] = some (.leaf a) := fun name hn a hp =>
    Tree.peek_eq_leaf.1 ((h name hn).trans (Tree.peek_eq_leaf.2 hp))
  refine checkGeneration_eq_ok.2 ⟨v, b, m, rfl, hleaf _ List.mem_cons_self _ hm, hparse, hid,
    fun e he => ?_, hroot, rfl⟩
  obtain ⟨bytes, hb, hl⟩ := hfiles e he
  exact ⟨bytes, hleaf _ (List.mem_cons_of_mem _ (List.mem_map_of_mem he)) _ hb, hl⟩

/-- `Store::generation`. -/
def generation (id : GenerationId) : Io Generation := do
  let found ← perform (.look (generationDir id))
  ofExcept (S.checkGeneration id found)

/-- `Store::generation_ids` of what stands at `generations/`. -/
def idsIn : Except IoError Dir → Except StoreError (List GenerationId)
  | .error .notFound => .ok []
  | .error e => .error (.io "read" [GENERATIONS_DIR] e)
  | .ok (.leaf _) => .error (.io "read" [GENERATIONS_DIR] .notADirectory)
  | .ok (.node es) =>
    .ok (((Assoc.names es).filterMap GenerationId.tryFrom).insertionSort fun a b =>
      a.asStr ≤ b.asStr)

/-- Whether a generation found in its directory is the final snapshot of `run`. -/
def isFinalOf (run : RunId) (id : GenerationId) (found : Except IoError Dir) : Bool :=
  match S.checkGeneration id found with
  | .ok generation => generation.manifest.origin = .snapshot run
  | .error _ => false

/-- `Store::final_generation_of` of what stands at `generations/`: the last id, in
    order, of a complete generation with origin `Snapshot { run }`. -/
def finalIn (run : RunId) (found : Except IoError Dir) : Except StoreError (Option GenerationId) :=
  match idsIn found with
  | .error e => .error e
  | .ok ids =>
    .ok (ids.filter fun id =>
      S.isFinalOf run id (found.bind fun d => resolve d [id.asStr])).getLast?

/-- `Store::final_generation_of`. -/
def finalGenerationOf (run : RunId) : Io (Option GenerationId) := do
  let found ← perform (.look [GENERATIONS_DIR])
  ofExcept (S.finalIn run found)

/-- `Path::extension` of a file name. -/
def extension (name : Name) : Option String :=
  match name.toList.reverse.span (· ≠ '.') with
  | (_, []) => none
  | (_, [_]) => none
  | (ext, _ :: _ :: _) => some (String.ofList ext.reverse)

/-- The loop of `Store::checkpoints` over the directory's entries; `isDir` tells
    which generations have a directory. -/
def readRefs (isDir : GenerationId → Bool) : List (Name × Dir) → Except StoreError (List CheckpointRef)
  | [] => .ok []
  | (name, t) :: es =>
    if extension name = some "ref" then
      match readJson S.refJson [CHECKPOINTS_DIR, name] (.ok t) with
      | .error e => .error e
      | .ok none => readRefs isDir es
      | .ok (some checkpoint) =>
        match readRefs isDir es with
        | .error e => .error e
        | .ok rest =>
          if isDir checkpoint.generation then .ok (checkpoint :: rest) else .ok rest
    else readRefs isDir es

/-- `Path::is_dir` of a generation's directory, in what stands at `generations/`. -/
def hasDir (gens : Except IoError Dir) (id : GenerationId) : Bool :=
  match gens.bind fun d => resolve d [id.asStr] with
  | .ok (.node _) => true
  | _ => false

/-- `Store::checkpoints` of what stands at `checkpoints/` and `generations/`. -/
def refsIn (found gens : Except IoError Dir) : Except StoreError (List CheckpointRef) :=
  match found with
  | .error .notFound => .ok []
  | .error e => .error (.io "read" [CHECKPOINTS_DIR] e)
  | .ok (.leaf _) => .error (.io "read" [CHECKPOINTS_DIR] .notADirectory)
  | .ok (.node es) =>
    match S.readRefs (hasDir gens) es with
    | .error e => .error e
    | .ok refs => .ok (refs.insertionSort fun a b =>
        a.createdUnix < b.createdUnix ∨ a.createdUnix = b.createdUnix ∧ a.id ≤ b.id)

/-- `Store::checkpoints`. -/
def checkpoints : Io (List CheckpointRef) := do
  let found ← perform (.look [CHECKPOINTS_DIR])
  let gens ← perform (.look [GENERATIONS_DIR])
  ofExcept (S.refsIn found gens)

/-- `Store::crashed_run`. -/
def crashedRun : Io (Option RunId) := do
  match ← S.record with
  | some ⟨_, _, .dirty run _⟩ => pure (some run)
  | _ => pure none

/-- `Store::crashed`: the error for a run that crashed after serving commands. -/
def crashed : Io (Option StoreError) := do
  let run ← S.crashedRun
  pure (run.map fun run => .crashedWithUnsavedState S.instanceName run)

/-! ## Committing and publishing (lines 452–466, 744–807) -/

/-- `Store::commit_record`. -/
def commitRecord (latest : Option GenerationId) (phase : Phase) : Io Unit :=
  commitJson S.recordJson [] STATE_FILE ⟨RECORD_VERSION, latest, phase⟩

/-- `Store::stage`. -/
def stage : Io GenerationId := do
  let id ← perform .newGenerationId
  createDirAll (stagingDir id)
  pure id

/-- The sizes `Store::publish` records: every regular file of the staging
    directory except the manifest and the pin. -/
def fileSizes : List (Name × Dir) → List (Name × ℕ)
  | [] => []
  | (name, .leaf (.file b)) :: es =>
    if name ≠ MANIFEST ∧ name ≠ PIN then btreeInsert name b.length (fileSizes es) else fileSizes es
  | _ :: es => fileSizes es

/-- `Store::publish`. -/
def publish (id : GenerationId) (parent : Option GenerationId) (origin : Origin) :
    Io GenerationId := do
  match ← attempt "read" (stagingDir id) (.look (stagingDir id)) with
  | .leaf _ => throw (.io "read" (stagingDir id) .notADirectory)
  | .node es =>
    let files := fileSizes es
    if ROOTFS ∉ files.map Prod.fst then throw (.stagedNoRootfs id)
    else do
      let nanos ← perform .now
      let manifest : Manifest := ⟨MANIFEST_VERSION, id, parent, origin, nanos, files⟩
      writeFile (stagingDir id ++ [MANIFEST]) (S.manifestJson.toVecPretty manifest ++ [10])
      attempt "create pin in" (stagingDir id) (.edit (.create (stagingDir id ++ [PIN])))
      syncTree (stagingDir id)
      attempt "publish" (stagingDir id) (.edit (.rename (stagingDir id) (generationDir id)))
      attempt "sync" [GENERATIONS_DIR] (.edit (.syncDir [GENERATIONS_DIR]))
      pure id

/-! ## Garbage collection (lines 993–1052) -/

/-- The loop over `runs/`. -/
def collectRuns (live : Option RunId) : List Name → Io (List Name)
  | [] => pure []
  | name :: names =>
    if live.map RunId.asStr = some name then collectRuns live names
    else do
      removePathIfExists [RUNS_DIR, name]
      let rest ← collectRuns live names
      pure (name :: rest)

/-- `File::open` of a generation's pin: `NotFound` is no pin. -/
def openPin (name : Name) : Io Bool := do
  match ← perform (.look [GENERATIONS_DIR, name, PIN]) with
  | .ok _ => pure true
  | .error .notFound => pure false
  | .error e => throw (.io "open generation pin" [GENERATIONS_DIR, name, PIN] e)

/-- The non-blocking `flock`, if there is a pin: whether nobody holds it. -/
def lockPin (pinned : Bool) (name : Name) : Io Bool :=
  if pinned then perform (.tryLock name) else pure true

/-- What the loop over `generations/` does with one generation nobody
    references: whether it was removed. -/
def collectGeneration (id : GenerationId) : Io Bool := do
  let pinned ← openPin id.asStr
  let free ← lockPin pinned id.asStr
  if free then do
    attempt "move to trash" (generationDir id) (.edit (.rename (generationDir id) (trashDir id)))
    removePathIfExists (trashDir id)
    pure true
  else pure false

/-- The loop over `generations/`. -/
def collectGenerations (referenced : List GenerationId) :
    List Name → Io (List GenerationId × List Name)
  | [] => pure ([], [])
  | name :: names =>
    if startsWith name STAGING_PREFIX ∨ startsWith name TRASH_PREFIX then do
      removePathIfExists [GENERATIONS_DIR, name]
      let (generations, staging) ← collectGenerations referenced names
      pure (generations, name :: staging)
    else
      match GenerationId.tryFrom name with
      | none => collectGenerations referenced names
      | some id =>
        if id ∈ referenced then collectGenerations referenced names
        else do
          let removed ← collectGeneration id
          let (generations, staging) ← collectGenerations referenced names
          pure (if removed then id :: generations else generations, staging)

/-- The names `read_dir` lists, if it succeeds. -/
def listing : Except IoError Dir → List Name
  | .ok (.node es) => Assoc.names es
  | _ => []

/-- `Store::collect_garbage`. -/
def collectGarbage : Io Collected := do
  let record ← S.requireRecord
  let refs ← S.checkpoints
  let referenced := record.latest.toList ++ refs.map CheckpointRef.generation
  let runs ← perform (.look [RUNS_DIR])
  let runs ← collectRuns record.phase.run (listing runs)
  let gens ← perform (.look [GENERATIONS_DIR])
  let (generations, staging) ← collectGenerations referenced (listing gens)
  pure ⟨generations, runs, staging⟩

/-! ## The operations -/

/-- `Store::commit_latest` (lines 803–807). -/
def commitLatest (id : GenerationId) : Io Unit := do
  let _ ← S.generation id
  S.commitRecord (some id) .stopped
  let _ ← S.collectGarbage
  pure ()

/-- `Store::initialize` (lines 519–528). -/
def initializeStore (staging : GenerationId) : Io GenerationId := do
  match ← perform (.look [STATE_FILE]) with
  | .ok _ => throw .stateExists
  | .error _ =>
    let id ← S.publish staging none .image
    S.commitRecord (some id) .stopped
    pure id

/-- The decision of `Store::recover` for a run that is not stopped. -/
def recoverRun (record : Record) (run : RunId) : Io Recovery := do
  match ← S.finalGenerationOf run with
  | some id => do
    S.commitRecord (some id) .stopped
    pure (.rolledForward id)
  | none =>
    match record.phase with
    | .running _ _ => do
      S.commitRecord record.latest .stopped
      pure (.discardedIdleRun run)
    | _ => throw (.crashedWithUnsavedState S.instanceName run)

/-- The `match &record.phase` of `Store::recover`. -/
def recoverPhase (record : Record) : Io Recovery :=
  match record.phase.run with
  | none => pure .clean
  | some run => S.recoverRun record run

/-- `Store::recover` (lines 531–554). -/
def recover : Io Recovery := do
  let record ← S.requireRecord
  let recovery ← S.recoverPhase record
  let _ ← S.collectGarbage
  pure recovery

/-- `for name in manifest.files.keys() { clone_or_copy_file(src/name, dst/name)? }`. -/
def copyFiles (src dst : Path) : List (Name × ℕ) → Io Unit
  | [] => pure ()
  | (name, _) :: files => do
    cloneOrCopyFile (src ++ [name]) (dst ++ [name])
    copyFiles src dst files

/-- The generation a run starts from, if any. -/
def runBase (start : Option GenerationId) : Io (Option Generation) :=
  match start with
  | none => pure none
  | some id => do
    let base ← S.generation id
    pure (some base)

/-- Private clones of the base's files in the run directory. -/
def fillRun (dir : Path) : Option Generation → Io Unit
  | none => pure ()
  | some base => do
    copyFiles base.dir dir base.manifest.files
    copyShares (base.dir ++ [HOST_SHARE_STATE]) (dir ++ [HOST_SHARE_STATE])

/-- `Store::begin_run` (lines 593–629); `owner` is the calling process. -/
def beginRun (owner : ProcessIdentity) (start : Option GenerationId) : Io RunId := do
  let record ← S.requireRecord
  if record.phase ≠ .stopped then throw (.notStopped "recover it before starting a run")
  else do
    let base ← S.runBase (start.or record.latest)
    let id ← perform .newRunId
    createDirAll (runDir id)
    fillRun (runDir id) base
    syncTree (runDir id)
    attempt "sync" [RUNS_DIR] (.edit (.syncDir [RUNS_DIR]))
    S.commitRecord record.latest (.running id owner)
    pure id

/-- `Store::advance_latest` (lines 636–653). -/
def advanceLatest (run : RunId) (id : GenerationId) : Io Unit := do
  let _ ← S.generation id
  let record ← S.requireRecord
  if record.phase.run = some run then S.commitRecord (some id) record.phase
  else throw (.cannotAdvance run record.phase)

/-- What `Store::import_dir` does with one entry of the source directory. -/
def importEntry (staging : Path) (name : Name) : Dir → Io Unit
  | .leaf (.file bytes) =>
    if name ≠ MANIFEST ∧ name ≠ PIN then do
      createDirAll staging
      installFile (staging ++ [name]) bytes
    else pure ()
  | .node sub =>
    if name = HOST_SHARE_STATE then copyTree (staging ++ [name]) (.node sub) else pure ()
  | .leaf (.symlink _) => pure ()

/-- The loop of `Store::import_dir` over the source directory's entries. -/
def importEntries (staging : Path) : List (Name × Dir) → Io Unit
  | [] => pure ()
  | (name, t) :: es => do
    importEntry staging name t
    importEntries staging es

/-- `Store::import_dir` (lines 657–677) of a directory outside the instance. -/
def importDir (source : List (Name × Dir)) (parent : Option GenerationId) (origin : Origin) :
    Io GenerationId := do
  let staging ← stage
  importEntries (stagingDir staging) source
  S.publish staging parent origin

/-- `Store::mark_dirty` (lines 712–729). -/
def markDirty (run : RunId) : Io Unit := do
  let record ← S.requireRecord
  match record.phase with
  | .running current owner =>
    if current = run then S.commitRecord record.latest (.dirty run owner)
    else throw (.cannotMarkDirty run record.phase)
  | .dirty current _ =>
    if current = run then pure () else throw (.cannotMarkDirty run record.phase)
  | .stopped => throw (.cannotMarkDirty run record.phase)

/-- `Store::abandon_run` (lines 733–741). -/
def abandonRun (run : RunId) : Io Unit := do
  let record ← S.requireRecord
  match record.phase with
  | .running current _ =>
    if current = run then do
      S.commitRecord record.latest .stopped
      let _ ← S.collectGarbage
      pure ()
    else throw (.cannotAbandon run record.phase)
  | _ => throw (.cannotAbandon run record.phase)

/-- The copy of a run's work directory that `salvage` and `capture_vm_state`
    make: its disk and, if there is any, its host-share state. -/
def copyWork (run : RunId) (dst : Path) : Io Unit := do
  cloneOrCopyFile (runDir run ++ [ROOTFS]) (dst ++ [ROOTFS])
  copyShares (runDir run ++ [HOST_SHARE_STATE]) (dst ++ [HOST_SHARE_STATE])

/-- `Store::salvage` (lines 811–833). -/
def salvage : Io GenerationId := do
  let record ← S.requireRecord
  match record.phase with
  | .dirty run _ => do
    let staging ← stage
    copyWork run (stagingDir staging)
    let id ← S.publish staging record.latest (.salvage run)
    S.commitLatest id
    pure id
  | _ => throw (.noCrashedRun "salvage")

/-- `Store::discard_run` (lines 836–845). -/
def discardRun : Io RunId := do
  let record ← S.requireRecord
  match record.phase with
  | .dirty run _ => do
    S.commitRecord record.latest .stopped
    let _ ← S.collectGarbage
    pure run
  | _ => throw (.noCrashedRun "discard")

/-- What the caller's `edit` does to the staging directory: any sequence of
    changes, and then an error or not. -/
def runEdit (staging : Path) (edits : List { t : Dir // t.Distinct }) (fails : Bool) : Io Unit := do
  Prog.forEach (fun t => attempt "edit" staging (.edit (.fill staging t))) edits
  if fails then throw .edit else pure ()

/-- `Store::derive` (lines 849–877). -/
def derive (edits : List { t : Dir // t.Distinct }) (fails : Bool) : Io GenerationId := do
  let record ← S.requireRecord
  if record.phase ≠ .stopped then throw (.notStopped "edit its saved state")
  else match record.latest with
    | none => throw .noSavedState
    | some id => do
      let latest ← S.generation id
      let staging ← stage
      copyFiles latest.dir (stagingDir staging) latest.manifest.files
      copyShares (latest.dir ++ [HOST_SHARE_STATE]) (stagingDir staging ++ [HOST_SHARE_STATE])
      runEdit (stagingDir staging) edits fails
      let id ← S.publish staging (some latest.manifest.id) .edited
      S.commitLatest id
      pure id

/-- `Store::drop_memory` (lines 893–923). -/
def dropMemory : Io (Option GenerationId) := do
  let record ← S.requireRecord
  if record.phase ≠ .stopped then throw (.notStopped "drop its memory snapshot")
  else match record.latest with
    | none => pure none
    | some id => do
      let latest ← S.generation id
      if latest.manifest.hasMemory then do
        let staging ← stage
        cloneOrCopyFile (latest.dir ++ [ROOTFS]) (stagingDir staging ++ [ROOTFS])
        copyShares (latest.dir ++ [HOST_SHARE_STATE]) (stagingDir staging ++ [HOST_SHARE_STATE])
        let id ← S.publish staging (some latest.manifest.id) .dropMemory
        S.commitLatest id
        pure (some id)
      else pure none

/-- `Store::checkpoint_ref_path` (lines 925–928): the name under `checkpoints/`. -/
def checkpointRefName (id : String) : Io Name :=
  if validComponent id then pure (id ++ ".ref") else throw (.invalidId "checkpoint" id)

/-- `Store::add_checkpoint` (lines 931–940). -/
def addCheckpoint (checkpoint : CheckpointRef) : Io Unit := do
  let _ ← S.generation checkpoint.generation
  createDirAll [CHECKPOINTS_DIR]
  let name ← checkpointRefName checkpoint.id
  commitJson S.refJson [CHECKPOINTS_DIR] name checkpoint

/-- `Store::remove_checkpoint` (lines 964–969). -/
def removeCheckpoint (id : String) : Io Unit := do
  let name ← checkpointRefName id
  attempt "remove" [CHECKPOINTS_DIR, name] (.edit (.unlink [CHECKPOINTS_DIR, name]))
  attempt "sync" [CHECKPOINTS_DIR] (.edit (.syncDir [CHECKPOINTS_DIR]))
  let _ ← S.collectGarbage
  pure ()

end Store

end Lnx
