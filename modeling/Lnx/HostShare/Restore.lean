import Mathlib.Tactic.Common
import Lnx.Lib.Multikey

/-!
# Host shares after a restore

The virtio-fs device of a host share is saved with the VM: its inodes with the paths it
remembers for them, its open handles and its DAX mappings. Between snapshot and restore the
host may have changed the shared tree. `PassthroughFs::restore_state`
(`libkrun/src/devices/src/virtio/fs/macos/passthrough.rs` lines 2232–2357) has a mode for
that, `host_share`, in which it looks every inode up at its remembered path, drops the DAX
mappings of changed inodes and the handles that cannot be opened. It takes
`cfg.write_allowlist.is_some()` as the sign for a host share. `FsWorker::new`
(`worker.rs` lines 190–214) takes the allowlist out of the configuration for the policy
layer it puts on top, so the file system below is never in that mode.

* `restoreState`, `replayDaxMappings`: the two functions, in both modes.
* `FsWorker.restoreState_ok_iff`: the stack never restores as a host share.
* `visibleObject`: what the guest sees at a path, to compare the restored inodes with.
* `restored_share_iff`: a restored share is as it should be if and only if the host left
  every inode at its path, every handle openable and every mapped file unchanged.
-/

namespace Lnx.HostShare

open List

/-! ## The saved state -/

abbrev Inode := UInt64
abbrev Handle := UInt64

/-- The host's identity of a file. -/
structure InodeAltKey where
  ino : UInt64
  dev : Int32
  deriving DecidableEq

/-- What is remembered of a host file, to see whether it changed. -/
structure HostObject where
  ino : UInt64
  dev : Int32
  size : Int64
  mtime : Int64
  mtimeNsec : Int64
  ctime : Int64
  ctimeNsec : Int64
  mode : UInt32
  deriving DecidableEq

structure InodeDataSnapshot where
  inode : Inode
  key : InodeAltKey
  refcount : UInt64
  hostObject : Option HostObject

structure CachedDirEntry where
  ino : UInt64
  name : List UInt8
  type : UInt8

structure DirStream where
  entries : List CachedDirEntry
  ready : Bool

structure HandleDataSnapshot where
  handle : Handle
  inode : Inode
  flags : UInt32
  dirstream : DirStream

structure DaxMappingSnapshot where
  guestAddr : UInt64
  inode : Inode
  foffset : UInt64
  len : UInt64
  writable : Bool

/-- A saved device. Its inodes came out of a map with two keys, its handles out of a map. -/
structure PassthroughFsSnapshot where
  inodes : List InodeDataSnapshot
  inodePaths : List (Inode × String)
  daxMappings : List DaxMappingSnapshot
  nextInode : UInt64
  handles : List HandleDataSnapshot
  nextHandle : UInt64
  writeback : Bool
  announceSubmounts : Bool
  inodes_distinct : inodes.Pairwise fun i j => i.inode ≠ j.inode
  keys_distinct : inodes.Pairwise fun i j => i.key ≠ j.key

/-- `path_by_inode` -/
def PassthroughFsSnapshot.path (snap : PassthroughFsSnapshot) (inode : Inode) : Option String :=
  (snap.inodePaths.reverse.find? fun p => p.1 == inode).map Prod.snd

/-! ## The host -/

abbrev Errno := Int32

/-- The shared tree as the host has it now, with the overlay directories above it. -/
structure Host where
  whiteoutCovers : String → Except Errno Bool
  /-- the place of a path in the upper directory, if there is one -/
  upperPath : String → Option String
  hasPath : String → Except Errno Bool
  lowerPath : String → Except Errno String
  lstat : String → Except Errno HostObject
  /-- `path_metadata` finds a directory -/
  isDir : String → Except Errno Bool
  /-- `open` of `/.vol/DEV/INO` -/
  openVol : InodeAltKey → UInt32 → Except Errno ℕ
  /-- `mmap` and the hypervisor's answer, for an open file -/
  mapWindow : DaxMappingSnapshot → ℕ → Except Errno Unit
  /-- the text of an error of the host -/
  errorText : Errno → String

def enoent : Errno := 2
def ebadf : Errno := 9

def currentHostObject (host : Host) (relPath : String) :
    Except Errno (InodeAltKey × HostObject) := do
  if ← host.whiteoutCovers relPath then throw enoent
  let path ← match host.upperPath relPath with
    | some upper => do
      if ← host.hasPath upper then pure upper else host.lowerPath relPath
    | none => host.lowerPath relPath
  let st ← host.lstat path
  return (⟨st.ino, st.dev⟩, st)

/-- The object that a lookup of a path shows, by `overlay_path`: where both layers have a
    directory it is the lower one, unlike in `currentHostObject`. -/
def visibleObject (host : Host) (relPath : String) : Except Errno (InodeAltKey × HostObject) := do
  if ← host.whiteoutCovers relPath then throw enoent
  let path ← match host.upperPath relPath with
    | some upper => do
      if ← host.hasPath upper then
        if ← host.isDir upper then
          let lower ← host.lowerPath relPath
          if ← host.isDir lower then pure lower else pure upper
        else pure upper
      else host.lowerPath relPath
    | none => host.lowerPath relPath
  let st ← host.lstat path
  return (⟨st.ino, st.dev⟩, st)

/-! ## The file system -/

structure InodeData where
  inode : Inode
  key : InodeAltKey
  refcount : UInt64
  deriving DecidableEq

structure HandleData where
  handle : Handle
  inode : Inode
  file : ℕ
  dirstream : DirStream

/-- What of `PassthroughFs` is restored. -/
structure PassthroughFs where
  writeAllowlist : Option (List String)
  inodes : Multikey Inode InodeAltKey InodeData
  inodePaths : List (Inode × String)
  pendingDaxMappings : List DaxMappingSnapshot
  handles : List HandleData
  nextInode : UInt64
  nextHandle : UInt64
  writeback : Bool
  announceSubmounts : Bool

def oWronly : UInt32 := 1
def oRdwr : UInt32 := 2
def oAccmode : UInt32 := 3
def oAppend : UInt32 := 8
def oExlock : UInt32 := 0x20
def oNofollow : UInt32 := 0x100
def oCloexec : UInt32 := 0x1000000

/-- The flags `open_inode` opens a file with. -/
def openFlags (writeback : Bool) (flags : UInt32) : UInt32 :=
  let flags :=
    if writeback && flags &&& oAccmode == oWronly then (flags &&& ~~~oAccmode) ||| oRdwr else flags
  let flags := if writeback && flags &&& oAppend != 0 then flags &&& ~~~oAppend else flags
  (flags ||| oCloexec) &&& ~~~oNofollow &&& ~~~oExlock

/-- `open_inode`; a restored inode has no descriptor of an unlinked file. -/
def openInode (host : Host) (writeback : Bool) (inodes : Multikey Inode InodeAltKey InodeData)
    (inode : Inode) (flags : UInt32) : Except Errno ℕ :=
  match inodes.get inode with
  | none => .error ebadf
  | some data => host.openVol data.key (openFlags writeback flags)

/-- The key a saved inode is restored with, and whether its file changed. -/
def restoreInode (hostShare : Bool) (host : Host) (snap : PassthroughFsSnapshot)
    (i : InodeDataSnapshot) : InodeAltKey × Bool :=
  if hostShare then
    match (snap.path i.inode).map (currentHostObject host) with
    | some (.ok (key, object)) => (key, i.hostObject != some object)
    | _ => (i.key, true)
  else (i.key, false)

/-- The restored table of inodes. -/
def restoreInodes (hostShare : Bool) (host : Host) (snap : PassthroughFsSnapshot) :
    Multikey Inode InodeAltKey InodeData :=
  Multikey.empty.insertAll (snap.inodes.map fun i =>
    let key := (restoreInode hostShare host snap i).1
    (i.inode, key, ⟨i.inode, key, i.refcount⟩))

def changedInodes (hostShare : Bool) (host : Host) (snap : PassthroughFsSnapshot) : List Inode :=
  (snap.inodes.filter fun i => (restoreInode hostShare host snap i).2).map
    InodeDataSnapshot.inode

/-- The flags a saved handle is opened with again. -/
def HandleDataSnapshot.restoredFlags (h : HandleDataSnapshot) : UInt32 := h.flags &&& ~~~oExlock

/-- The error of a restore, with the errno its kind comes from. -/
structure RestoreError where
  errno : Errno
  text : String

def openRestoredError (host : Host) (inodes : Multikey Inode InodeAltKey InodeData)
    (h : HandleDataSnapshot) (e : Errno) : RestoreError where
  errno := e
  text :=
    let backing := match inodes.get h.inode with
      | some data => "/.vol/" ++ toString data.key.dev.toInt ++ "/" ++ toString data.key.ino
      | none => "<missing inode>"
    "open restored handle " ++ toString h.handle ++ " inode " ++ toString h.inode ++
      " backing " ++ backing ++
      " flags 0x" ++ String.ofList (Nat.toDigits 16 h.restoredFlags.toNat) ++
      ": " ++ host.errorText e

/-- The loop over the saved handles. -/
@[simp] def restoreHandles (hostShare writeback : Bool) (host : Host)
    (inodes : Multikey Inode InodeAltKey InodeData) (changed : List Inode) :
    List HandleDataSnapshot → Except RestoreError (List HandleData)
  | [] => .ok []
  | h :: hs =>
    match openInode host writeback inodes h.inode h.restoredFlags with
    | .ok file =>
      let dirstream := if hostShare then ⟨[], false⟩ else h.dirstream
      (restoreHandles hostShare writeback host inodes changed hs).map
        (⟨h.handle, h.inode, file, dirstream⟩ :: ·)
    | .error e =>
      if hostShare && changed.contains h.inode then
        restoreHandles hostShare writeback host inodes changed hs
      else .error (openRestoredError host inodes h e)

/-- The tables a restore leaves, with the handles it has opened. -/
def PassthroughFs.restored (fs : PassthroughFs) (host : Host) (snap : PassthroughFsSnapshot)
    (handles : List HandleData) : PassthroughFs :=
  let hostShare := fs.writeAllowlist.isSome
  let changed := changedInodes hostShare host snap
  { fs with
    inodes := restoreInodes hostShare host snap
    inodePaths := snap.inodePaths
    pendingDaxMappings :=
      if hostShare then snap.daxMappings.filter fun m => !changed.contains m.inode
      else snap.daxMappings
    handles := handles
    nextInode := snap.nextInode
    nextHandle := snap.nextHandle
    writeback := snap.writeback
    announceSubmounts := snap.announceSubmounts }

/-- `PassthroughFs::restore_state` -/
def PassthroughFs.restoreState (fs : PassthroughFs) (host : Host)
    (snap : PassthroughFsSnapshot) : Except RestoreError PassthroughFs :=
  let hostShare := fs.writeAllowlist.isSome
  (restoreHandles hostShare fs.writeback host (restoreInodes hostShare host snap)
    (changedInodes hostShare host snap) snap.handles).map (fs.restored host snap)

/-- `install_dax_mapping` -/
def installDaxMapping (host : Host) (fs : PassthroughFs) (m : DaxMappingSnapshot) :
    Except Errno Unit := do
  let file ← openInode host fs.writeback fs.inodes m.inode (if m.writable then oRdwr else 0)
  host.mapWindow m file

/-- The mappings that are made, up to the first that fails, and its error. -/
def installAll (host : Host) (fs : PassthroughFs) :
    List DaxMappingSnapshot → List DaxMappingSnapshot × Except Errno Unit
  | [] => ([], .ok ())
  | m :: ms =>
    match installDaxMapping host fs m with
    | .ok _ => (installAll host fs ms).map (m :: ·) id
    | .error e => ([], .error e)

/-- `replay_dax_mappings`; on an error the worker makes `EINVAL` the exit code of the VM
    (`worker.rs` lines 281–287). -/
def replayDaxMappings (host : Host) (fs : PassthroughFs) :
    List DaxMappingSnapshot × Except Errno Unit :=
  installAll host fs fs.pendingDaxMappings

/-! ## The stack of a writable share -/

/-- The policy layer over the file system. -/
structure WritableAllowlistFs where
  inner : PassthroughFs
  allowlist : List String
  inodePaths : List (Inode × String)

/-- `PassthroughFs::new`, with the write allowlist of its configuration. -/
def PassthroughFs.new (writeAllowlist : Option (List String)) : PassthroughFs where
  writeAllowlist := writeAllowlist
  inodes := .empty
  inodePaths := []
  pendingDaxMappings := []
  handles := []
  nextInode := 2
  nextHandle := 1
  writeback := false
  announceSubmounts := false

/-- The stack `FsWorker::new` builds for a writable share: the allowlist is taken out of the
    configuration that the file system gets. -/
def FsWorker.new (writeAllowlist : Option (List String)) : WritableAllowlistFs where
  inner := .new none
  allowlist := writeAllowlist.getD ["."]
  inodePaths := []

/-- `WritableAllowlistFs::restore_state` -/
def WritableAllowlistFs.restoreState (fs : WritableAllowlistFs) (host : Host)
    (snap : PassthroughFsSnapshot) : Except RestoreError WritableAllowlistFs :=
  (fs.inner.restoreState host snap).map fun inner =>
    { fs with inner := inner, inodePaths := snap.inodePaths }

/-! ## What is to hold -/

section property

variable (host : Host) (snap : PassthroughFsSnapshot)

/-- The object now visible at the path of a saved inode is the one that was saved. -/
def Unchanged (inode : Inode) : Prop :=
  ∃ i ∈ snap.inodes, i.inode = inode ∧ ∃ p, snap.path inode = some p ∧
    ∃ key object, visibleObject host p = .ok (key, object) ∧ i.hostObject = some object

/-- A saved handle can be opened by the restored inodes; a new file system caches no writes. -/
def opens (inodes : Multikey Inode InodeAltKey InodeData) (h : HandleDataSnapshot) : Bool :=
  (openInode host false inodes h.inode h.restoredFlags).isOk

/-- A restored file system as it should be. -/
structure RestoredWell (fs : PassthroughFs) : Prop where
  inodes : ∀ i ∈ snap.inodes, ∀ p, snap.path i.inode = some p → ∀ key object,
    visibleObject host p = .ok (key, object) →
      (fs.inodes.get i.inode).map InodeData.key = some key
  mappings : ∀ m ∈ (replayDaxMappings host fs).1, Unchanged host snap m.inode
  replayed : (replayDaxMappings host fs).2 = .ok ()
  handles : fs.handles.map (fun d => (d.handle, d.inode)) =
    (snap.handles.filter (opens host fs.inodes)).map fun h => (h.handle, h.inode)

/-- A saved inode opened at its saved place. -/
def openSaved (writeback : Bool) (inode : Inode) (flags : UInt32) : Except Errno ℕ :=
  match snap.inodes.find? fun i => i.inode == inode with
  | none => .error ebadf
  | some i => host.openVol i.key (openFlags writeback flags)

/-- A saved mapping can be made again from the saved place of its inode. -/
def mapsSaved (m : DaxMappingSnapshot) : Bool :=
  (openSaved host snap snap.writeback m.inode (if m.writable then oRdwr else 0)
    >>= host.mapWindow m).isOk

/-- The host has left alone what the saved device uses: whatever is visible at a remembered
    path is the file that was there, every handle opens at its old place, and the file of
    every mapping is unchanged and can be mapped there. -/
structure LeftAlone : Prop where
  inodes : ∀ i ∈ snap.inodes, ∀ p, snap.path i.inode = some p → ∀ key object,
    visibleObject host p = .ok (key, object) → key = i.key
  handles : ∀ h ∈ snap.handles, (openSaved host snap false h.inode h.restoredFlags).isOk = true
  mappings : ∀ m ∈ snap.daxMappings, mapsSaved host snap m = true ∧ Unchanged host snap m.inode

end property

/-! ## The loop over the handles -/

section handles

variable {host : Host} {hostShare : Bool} {inodes : Multikey Inode InodeAltKey InodeData}
  {changed : List Inode}
variable {hs : List HandleDataSnapshot}

/-- The restored handles are those that could be opened. -/
theorem restoreHandles_ok {ds : List HandleData}
    (h : restoreHandles hostShare false host inodes changed hs = .ok ds) :
    ds.map (fun d => (d.handle, d.inode)) =
      (hs.filter (opens host inodes)).map fun h => (h.handle, h.inode) := by
  induction hs generalizing ds with
  | nil =>
    cases h
    rfl
  | cons x hs ih =>
    simp only [restoreHandles] at h
    cases hopen : openInode host false inodes x.inode x.restoredFlags with
    | ok file =>
      have hopens : opens host inodes x = true := by simp only [opens, hopen]; rfl
      simp only [hopen] at h
      cases hrest : restoreHandles hostShare false host inodes changed hs with
      | error e => rw [hrest] at h; cases h
      | ok ds' =>
        rw [hrest] at h
        cases h
        simp only [map_cons, filter_cons, hopens, if_true, ih hrest]
    | error e =>
      have hopens : opens host inodes x = false := by simp only [opens, hopen]; rfl
      simp only [hopen] at h
      split at h
      · rw [ih h, filter_cons_of_neg (by simp [hopens])]
      · cases h

/-- Outside the mode for host shares one handle that cannot be opened fails the restore. -/
theorem restoreHandles_isOk_iff :
    (∃ ds, restoreHandles false false host inodes changed hs = .ok ds) ↔
      ∀ h ∈ hs, opens host inodes h = true := by
  induction hs with
  | nil => simp
  | cons x hs ih =>
    rw [forall_mem_cons, ← ih]
    cases hopen : openInode host false inodes x.inode x.restoredFlags with
    | ok file =>
      have hopens : opens host inodes x = true := by simp only [opens, hopen]; rfl
      cases hrest : restoreHandles false false host inodes changed hs <;>
        simp [hopen, hrest, hopens, Except.map]
    | error e =>
      have hopens : opens host inodes x = false := by simp only [opens, hopen]; rfl
      simp [hopen, hopens]

end handles

/-! ## The loop over the mappings -/

theorem installAll_ok_iff {host : Host} {fs : PassthroughFs} {ms : List DaxMappingSnapshot} :
    (installAll host fs ms).2 = .ok () ↔ ∀ m ∈ ms, (installDaxMapping host fs m).isOk = true := by
  induction ms with
  | nil => simp [installAll]
  | cons m ms ih =>
    rw [forall_mem_cons, ← ih, installAll]
    cases installDaxMapping host fs m with
    | ok _ => simp [Except.isOk, Except.toBool]
    | error e => simp [Except.isOk, Except.toBool]

/-- A replay without an error has made every mapping. -/
theorem installAll_of_ok {host : Host} {fs : PassthroughFs} {ms : List DaxMappingSnapshot}
    (h : (installAll host fs ms).2 = .ok ()) : (installAll host fs ms).1 = ms := by
  induction ms with
  | nil => rfl
  | cons m ms ih =>
    rw [installAll] at h ⊢
    cases hm : installDaxMapping host fs m with
    | ok _ =>
      rw [hm] at h
      exact congrArg (m :: ·) (ih h)
    | error e =>
      rw [hm] at h
      cases h

/-! ## The stack of a writable share -/

section stack

variable {i : InodeDataSnapshot} {host : Host} {snap : PassthroughFsSnapshot}

/-- Without the mode for host shares every inode keeps its saved key. -/
theorem get_restoreInodes_of_mem (hi : i ∈ snap.inodes) :
    (restoreInodes false host snap).get i.inode = some ⟨i.inode, i.key, i.refcount⟩ := by
  have hmem := mem_map_of_mem (f := fun i : InodeDataSnapshot =>
    ((i.inode, i.key, ⟨i.inode, i.key, i.refcount⟩) : Inode × InodeAltKey × InodeData)) hi
  exact Multikey.get_insertAll (pairwise_map.2 snap.inodes_distinct)
    (pairwise_map.2 snap.keys_distinct) (fun _ _ h => by cases h) hmem

theorem get_restoreInodes (host : Host) (snap : PassthroughFsSnapshot) (inode : Inode) :
    (restoreInodes false host snap).get inode =
      (snap.inodes.find? fun i => i.inode == inode).map fun i => ⟨i.inode, i.key, i.refcount⟩ := by
  cases hfind : snap.inodes.find? fun i => i.inode == inode with
  | none =>
    rw [List.find?_eq_none] at hfind
    refine Multikey.get_insertAll_of_not_mem ?_ (fun _ _ h => by cases h)
    intro e he
    obtain ⟨i, hi, rfl⟩ := mem_map.1 he
    simpa using hfind i hi
  | some i =>
    obtain rfl : i.inode = inode := by simpa using List.find?_some hfind
    exact get_restoreInodes_of_mem (mem_of_find?_eq_some hfind)

theorem openInode_restoreInodes (writeback : Bool) (inode : Inode) (flags : UInt32) :
    openInode host writeback (restoreInodes false host snap) inode flags =
      openSaved host snap writeback inode flags := by
  unfold openInode openSaved
  rw [get_restoreInodes]
  cases snap.inodes.find? fun i => i.inode == inode <;> rfl

theorem opens_restoreInodes (h : HandleDataSnapshot) :
    opens host (restoreInodes false host snap) h =
      (openSaved host snap false h.inode h.restoredFlags).isOk := by
  rw [opens, openInode_restoreInodes]

/-- What `FsWorker::new` builds restores if every handle opens. -/
theorem FsWorker.restoreState_ok_iff {allow : Option (List String)} {fs : WritableAllowlistFs} :
    (FsWorker.new allow).restoreState host snap = .ok fs ↔
      ∃ handles, restoreHandles false false host (restoreInodes false host snap)
          (changedInodes false host snap) snap.handles = .ok handles ∧
        fs = ⟨(PassthroughFs.new none).restored host snap handles, allow.getD ["."],
          snap.inodePaths⟩ := by
  change ((restoreHandles false false host (restoreInodes false host snap)
    (changedInodes false host snap) snap.handles).map _).map _ = _ ↔ _
  cases restoreHandles false false host (restoreInodes false host snap)
      (changedInodes false host snap) snap.handles with
  | error e => simp [Except.map]
  | ok handles =>
    constructor
    · intro h
      exact ⟨handles, rfl, (Except.ok.inj h).symm⟩
    · rintro ⟨_, hok, rfl⟩
      cases hok
      rfl

theorem key_restored (hi : i ∈ snap.inodes) (handles : List HandleData) :
    (((PassthroughFs.new none).restored host snap handles).inodes.get i.inode).map
      InodeData.key = some i.key :=
  congrArg (Option.map InodeData.key) (get_restoreInodes_of_mem hi)

/-- The stack keeps every mapping for the replay, to be made at its saved place. -/
theorem replay_restored_ok_iff (handles : List HandleData) :
    (replayDaxMappings host ((PassthroughFs.new none).restored host snap handles)).2 = .ok () ↔
      ∀ m ∈ snap.daxMappings, mapsSaved host snap m = true := by
  have hinstall (m : DaxMappingSnapshot) : (installDaxMapping host
      ((PassthroughFs.new none).restored host snap handles) m).isOk = mapsSaved host snap m :=
    congrArg (fun r => (r >>= host.mapWindow m).isOk) (openInode_restoreInodes _ _ _)
  simp only [← hinstall]
  exact installAll_ok_iff

/-- A writable share is restored as it should be exactly if the host left its files alone. -/
theorem restored_share_iff (allow : Option (List String)) (host : Host)
    (snap : PassthroughFsSnapshot) :
    (∃ fs, (FsWorker.new allow).restoreState host snap = .ok fs ∧
      RestoredWell host snap fs.inner) ↔ LeftAlone host snap := by
  constructor
  · rintro ⟨fs, hfs, hwell⟩
    obtain ⟨handles, hhandles, rfl⟩ := FsWorker.restoreState_ok_iff.1 hfs
    refine ⟨?_, ?_, ?_⟩
    · intro i hi p hp key object hcurrent
      have hkey := hwell.inodes i hi p hp key object hcurrent
      exact Option.some.inj (hkey.symm.trans (key_restored hi handles))
    · intro h hh
      rw [← opens_restoreInodes]
      exact restoreHandles_isOk_iff.1 ⟨handles, hhandles⟩ h hh
    · intro m hm
      have hmade := installAll_of_ok hwell.replayed
      exact ⟨(replay_restored_ok_iff handles).1 hwell.replayed m hm,
        hwell.mappings m (hmade.symm ▸ hm)⟩
  · intro halone
    obtain ⟨handles, hhandles⟩ : ∃ handles, restoreHandles false false host
        (restoreInodes false host snap) (changedInodes false host snap) snap.handles =
          .ok handles := by
      refine restoreHandles_isOk_iff.2 ?_
      intro h hh
      rw [opens_restoreInodes]
      exact halone.handles h hh
    have hreplayed := (replay_restored_ok_iff handles).2 fun m hm => (halone.mappings m hm).1
    refine ⟨_, FsWorker.restoreState_ok_iff.2 ⟨handles, hhandles, rfl⟩, ?_, ?_, hreplayed,
      restoreHandles_ok hhandles⟩
    · intro i hi p hp key object hcurrent
      rw [halone.inodes i hi p hp key object hcurrent]
      exact key_restored hi handles
    · intro m hm
      rw [replayDaxMappings, installAll_of_ok hreplayed] at hm
      exact (halone.mappings m hm).2

/-- A device with one open file. -/
def openNotes : PassthroughFsSnapshot where
  inodes := [⟨2, ⟨10, 1⟩, 1, some ⟨10, 1, 6, 100, 0, 100, 0, 0o100644⟩⟩]
  inodePaths := [(2, "notes.txt")]
  daxMappings := []
  nextInode := 3
  handles := [⟨1, 2, oRdwr, ⟨[], false⟩⟩]
  nextHandle := 2
  writeback := false
  announceSubmounts := false
  inodes_distinct := pairwise_singleton _ _
  keys_distinct := pairwise_singleton _ _

/-- The host has saved the file anew: another file has its path, the old one is gone. -/
def savedAnew : Host where
  whiteoutCovers _ := .ok false
  upperPath _ := none
  hasPath _ := .ok false
  lowerPath relPath := .ok ("/Users/me/project/" ++ relPath)
  lstat path :=
    if path = "/Users/me/project/notes.txt" then .ok ⟨11, 1, 12, 200, 0, 200, 0, 0o100644⟩
    else .error enoent
  isDir _ := .ok false
  openVol key _ := if key = ⟨11, 1⟩ then .ok 7 else .error enoent
  mapWindow _ _ := .ok ()
  errorText _ := "No such file or directory (os error 2)"

/-- A file with an open handle that an editor replaced fails the restore of the share, though
    the new file can be opened. -/
theorem replaced_file_fails_restore :
    visibleObject savedAnew "notes.txt" =
        .ok (⟨11, 1⟩, ⟨11, 1, 12, 200, 0, 200, 0, 0o100644⟩) ∧
      (savedAnew.openVol ⟨11, 1⟩ (openFlags false oRdwr)).isOk = true ∧
      ∃ e, (FsWorker.new (some ["."])).restoreState savedAnew openNotes = .error e ∧
        e.errno = enoent :=
  ⟨rfl, rfl, _, rfl, rfl⟩

end stack

end Lnx.HostShare
