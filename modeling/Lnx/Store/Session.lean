import Lnx.Store.Ops

/-!
# Captures and the end of a run

The store side of one VM owner run, from `src/src/runner/session.rs`,
`src/src/runner/capture.rs` (`CaptureContext::capture`) and `src/src/runner.rs`
(`capture_vm_state`), and the file system side of libkrun's `capture_paused` and
`publish_snapshot_dir` (`vmm/src/macos/snapshot/orchestrator.rs`), between whose
first and last step the VM is paused.
-/

namespace Lnx

/-- `LAST_RUN_NOTICE`. -/
def LAST_RUN_NOTICE : Name := "last-run.notice"

/-- The compatibility stamps `copy_snapshot_stamp` writes. -/
def STAMPS : List Name :=
  ["initramfs.stamp", "launch.json", "deterministic.stamp", "deterministic-clock.state"]

/-- The directory libkrun writes a capture to before it replaces the staging
    directory with it: `format!(".{name}.tmp.{pid}")`. -/
def captureDir (id : GenerationId) (pid : String) : Path :=
  [GENERATIONS_DIR, "." ++ (STAGING_PREFIX ++ id.asStr) ++ ".tmp." ++ pid]

/-- What one capture writes besides the run's disk and host-share state. -/
structure CaptureFiles where
  pid : String
  pages : Bytes
  vmstate : Bytes
  stamps : List (Name × Bytes)

/-- `if dir.exists() { fs::remove_dir_all(dir)? }`. -/
def removeDirIfAny (dir : Path) : Io Unit := do
  match ← perform (.look dir) with
  | .ok _ => removeDirAll dir
  | .error _ => pure ()

/-- `publish_snapshot_dir`: replace `dir` by `stage`. -/
def publishSnapshotDir (stage dir : Path) : Io Unit := do
  removeDirIfAny dir
  attempt "rename" stage (.edit (.rename stage dir))

/-- The file system steps of `capture_paused`, with `capture_vm_state`'s copy of
    the run's disk and host-share state as its hook. -/
def capturePaused (run : RunId) (id : GenerationId) (files : CaptureFiles) : Io Unit := do
  let temp := captureDir id files.pid
  createDirAll temp
  installFile (temp ++ [PAGES]) files.pages
  installFile (temp ++ [VMSTATE]) files.vmstate
  Store.copyWork run temp
  publishSnapshotDir temp (stagingDir id)

/-- `snapshot_while_paused`: the VM runs again afterwards, captured or not. -/
def captureVmState (run : RunId) (id : GenerationId) (files : CaptureFiles) : Io Unit := do
  perform (.pause run id)
  tryCatch (do capturePaused run id files; perform .resume) fun e => do
    tryCatch (removeDirAll (captureDir id files.pid)) fun _ => pure ()
    perform .resume
    throw e

/-- One stamp of a capture. -/
def writeStamp (staging : Path) (name : Name) (bytes : Bytes) : Io Unit :=
  if name ∈ STAMPS then writeFile (staging ++ [name]) bytes else pure ()

/-- `copy_snapshot_stamp`. -/
def writeStamps (staging : Path) : List (Name × Bytes) → Io Unit
  | [] => pure ()
  | (name, bytes) :: stamps => do
    writeStamp staging name bytes
    writeStamps staging stamps

namespace Store

variable (S : Store)

/-- The memory image of the last capture, as the seed of the next. -/
def seed (staging : Path) : Option GenerationId → Io Unit
  | none => pure ()
  | some base => do
    let base ← S.generation base
    if base.manifest.hasMemory then do
      cloneOrCopyFile (base.dir ++ [VMSTATE]) (staging ++ [VMSTATE])
      cloneOrCopyFile (base.dir ++ [PAGES]) (staging ++ [PAGES])
    else pure ()

/-- `RunSession::stage`: seeded with the memory image of the last capture. -/
def sessionStage (lastCapture : Option GenerationId) : Io GenerationId := do
  let staging ← stage
  S.seed (stagingDir staging) lastCapture
  pure staging

/-- `CaptureContext::capture`; `sound` is `ensure_ext4_has_no_errors`. -/
def capture (run : RunId) (base lastCapture : Option GenerationId) (origin : Origin)
    (sound : Bytes → Bool) (files : CaptureFiles) : Io GenerationId := do
  let staging ← S.sessionStage lastCapture
  captureVmState run staging files
  match ← attempt "check" (stagingDir staging) (.look (stagingDir staging ++ [ROOTFS])) with
  | .leaf (.file bytes) =>
    if sound bytes then do
      writeStamps (stagingDir staging) files.stamps
      S.publish staging base origin
    else throw (.unsupported (stagingDir staging ++ [ROOTFS]))
  | _ => throw (.unsupported (stagingDir staging ++ [ROOTFS]))

/-- `RunSession::abandon`, with the session's two flags. -/
def abandon (run : RunId) (dirty quiesced : Bool) (notice : Bytes) : Io Unit := do
  if dirty && quiesced then do
    let _ ← S.salvage
    writeFile [LAST_RUN_NOTICE] notice
  else if dirty then pure ()
  else S.abandonRun run

end Store

end Lnx
