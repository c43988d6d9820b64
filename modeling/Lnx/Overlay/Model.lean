import Mathlib.Data.Nat.Notation
import Lnx.Lib.Multikey
import Lnx.Lib.PathTree
import Lnx.Lib.Trial

/-!
# The copy-on-write overlay of a host share

`PassthroughFs` of `libkrun/src/devices/src/virtio/fs/macos/passthrough.rs`, with an
`unshare_dir`: what git ignores is changed in a private `upper` tree beside the shared
`lower` one, and removed names are kept in a third tree of `whiteouts`. The guest's requests
name files by inodes, which the server keeps with the host's identity of the file and the
path it was looked up at.

* `Disk`: the three trees as the host has them, with the identities of their files.
* `State`: the server, with its inodes, remembered paths and open files.
* `lookup`, `create`, `mkdir`, `openFile`, `write`, `read`, `truncate`, `unlink`, `opendir`,
  `readdir`: its answers to requests, function by function as the source has them.
* `Request`, `serve`: a request on a path, for which the guest looks up one name after
  another from the root.

The file system has no allowlist of its own: the policy layer above it has. Permissions,
times and extended attributes are left out, and so are the errors of a host that runs out
of space.
-/

namespace Lnx.Overlay

abbrev Name := String

/-- A path below the root of the share, by components. -/
abbrev Path := List Name

/-- The host's identity of a file, its `(ino, dev)`. -/
abbrev Key := ℕ

abbrev Inode := ℕ
abbrev Handle := ℕ

inductive Errno
  | enoent | ebadf | eexist | enotdir | eisdir | einval | eperm | eloop | enotempty
  deriving DecidableEq

inductive Kind
  | dir | file | link
  deriving DecidableEq

/-- A file of the host. -/
structure Obj where
  key : Key
  kind : Kind
  deriving DecidableEq

def Obj.isDir (o : Obj) : Bool := o.kind == .dir

inductive Layer
  | lower | upper | whiteouts
  deriving DecidableEq

/-- `PassthroughFs::WHITEOUT_MARKER` -/
def marker : Name := ".lnx-whiteout"

/-! ## The host -/

/-- The share and its overlay directory on the host's disk. -/
structure Disk where
  tree : Layer → Path → Option Obj
  /-- where `/.vol/DEV/INO` leads -/
  vol : Key → Option (Layer × Path)
  data : Key → List UInt8
  nextKey : Key
  /-- what the host finds on the rest of a path that goes through a symbolic link -/
  beyond : Layer → Path → Path → Except Errno Obj

namespace Disk

/-- `lstat` -/
def stat (d : Disk) (l : Layer) (p : Path) : Except Errno Obj :=
  match PathTree.walk Obj.isDir (d.tree l) [] p with
  | .found o => .ok o
  | .missing => .error .enoent
  | .stopped o base rest => if o.kind = .link then d.beyond l base rest else .error .enotdir

/-- `has_path` -/
def hasPath (d : Disk) (l : Layer) (p : Path) : Except Errno Bool :=
  match d.stat l p with
  | .ok _ => .ok true
  | .error .enoent => .ok false
  | .error e => .error e

/-- `path_metadata` -/
def pathMetadata (d : Disk) (l : Layer) (p : Path) : Except Errno (Option Obj) :=
  match d.stat l p with
  | .ok o => .ok (some o)
  | .error .enoent => .ok none
  | .error e => .error e

def setTree (d : Disk) (l : Layer) (p : Path) (o : Option Obj) : Layer → Path → Option Obj :=
  Function.update d.tree l (Function.update (d.tree l) p o)

/-- A new file. -/
def add (d : Disk) (l : Layer) (p : Path) (kind : Kind) (content : List UInt8) : Disk :=
  { d with
    tree := d.setTree l p (some ⟨d.nextKey, kind⟩)
    vol := Function.update d.vol d.nextKey (some (l, p))
    data := Function.update d.data d.nextKey content
    nextKey := d.nextKey + 1 }

/-- A file without its name; what has it open keeps its contents. -/
def remove (d : Disk) (l : Layer) (p : Path) (o : Obj) : Disk :=
  { d with
    tree := d.setTree l p none
    vol := Function.update d.vol o.key none }

def setData (d : Disk) (k : Key) (content : List UInt8) : Disk :=
  { d with data := Function.update d.data k content }

/-- A new file in the directory that its path names. -/
def createAt (d : Disk) (l : Layer) (p : Path) (kind : Kind) (content : List UInt8) :
    Except Errno Disk :=
  match d.stat l p.dropLast with
  | .error e => .error e
  | .ok dir =>
    if dir.kind = .dir then
      -- a link on the way leads out of the tree
      if d.tree l p.dropLast = some dir then
        if (d.tree l p).isSome then .error .eexist else .ok (d.add l p kind content)
      else .ok d
    else .error .enotdir

/-- `fs::remove_file` -/
def removeFile (d : Disk) (l : Layer) (p : Path) : Except Errno Disk :=
  match d.stat l p with
  | .error e => .error e
  | .ok o => if o.kind = .dir then .error .eperm else .ok (d.remove l p o)

/-- `fs::create_dir_all` of `base ++ rest`, below a directory `base`. -/
def createDirAll (d : Disk) (l : Layer) (base : Path) : Path → Except Errno Disk
  | [] => .ok d
  | n :: rest =>
    match d.pathMetadata l (base ++ [n]) with
    | .error e => .error e
    | .ok (some o) =>
      if o.kind = .dir then d.createDirAll l (base ++ [n]) rest else .error .eexist
    | .ok none =>
      match d.createAt l (base ++ [n]) .dir [] with
      | .error e => .error e
      | .ok d => d.createDirAll l (base ++ [n]) rest

/-- `fs::write` of a file whose contents nobody reads. -/
def writeFile (d : Disk) (l : Layer) (p : Path) : Except Errno Disk :=
  match d.pathMetadata l p with
  | .error e => .error e
  | .ok (some o) => if o.kind = .dir then .error .eisdir else .ok d
  | .ok none => d.createAt l p .file []

/-! ### Whiteouts -/

def directWhiteoutExists (d : Disk) (p : Path) : Except Errno Bool :=
  match d.pathMetadata .whiteouts p with
  | .error e => .error e
  | .ok (some o) => if o.kind = .dir then d.hasPath .whiteouts (p ++ [marker]) else .ok true
  | .ok none => .ok false

/-- `Path::ancestors`, without the empty path. -/
def ancestors (p : Path) : List Path := p.inits.reverse.filter fun q => !q.isEmpty

def anyWhiteout (d : Disk) : List Path → Except Errno Bool
  | [] => .ok false
  | q :: qs =>
    match d.directWhiteoutExists q with
    | .error e => .error e
    | .ok true => .ok true
    | .ok false => d.anyWhiteout qs

def whiteoutCovers (d : Disk) (p : Path) : Except Errno Bool := d.anyWhiteout (ancestors p)

def clearDirectWhiteout (d : Disk) (p : Path) : Except Errno Disk :=
  match d.pathMetadata .whiteouts p with
  | .error e => .error e
  | .ok o =>
    let target := if o.any Obj.isDir then p ++ [marker] else p
    match d.removeFile .whiteouts target with
    | .ok d => .ok d
    | .error .enoent => .ok d
    | .error e => .error e

def createDirectWhiteout (d : Disk) (p : Path) : Except Errno Disk :=
  match d.pathMetadata .whiteouts p with
  | .error e => .error e
  | .ok o =>
    if o.any Obj.isDir then d.writeFile .whiteouts (p ++ [marker])
    else
      match d.createDirAll .whiteouts [] p.dropLast with
      | .error e => .error e
      | .ok d => d.writeFile .whiteouts p

/-! ### The overlay -/

/-- `overlay_path`: the layer a path is looked up in, or none for a whiteout. -/
def overlayPath (d : Disk) (p : Path) : Except Errno (Option Layer) :=
  match d.whiteoutCovers p with
  | .error e => .error e
  | .ok true => .ok none
  | .ok false =>
    match d.pathMetadata .upper p with
    | .error e => .error e
    | .ok none => .ok (some .lower)
    | .ok (some upper) =>
      if upper.kind = .dir then
        -- the lower tree is only asked about directories of the upper one
        match d.pathMetadata .lower p with
        | .error e => .error e
        | .ok lower => if lower.any Obj.isDir then .ok (some .lower) else .ok (some .upper)
      else .ok (some .upper)

end Disk

/-! ## The server -/

structure InodeData where
  inode : Inode
  key : Key
  /-- a descriptor kept for a removed file, by the kind of the file -/
  unlinkedFd : Option Kind

/-- What a descriptor is open for: a directory, or a file to read, or to read and write. -/
inductive Mode
  | dir
  | read
  | readWrite
  deriving DecidableEq

structure HandleData where
  inode : Inode
  /-- the file that is open -/
  key : Key
  mode : Mode

structure State where
  disk : Disk
  /-- `git check-ignore` -/
  ignored : Path → Bool
  inodes : Multikey Inode Key InodeData
  inodePaths : Inode → Option Path
  nextInode : Inode
  handles : Handle → Option HandleData
  nextHandle : Handle

abbrev Serve := Trial Errno State

open Trial

/-- What a lookup returns. -/
structure Entry where
  inode : Inode
  kind : Kind
  size : ℕ

/-- A step of the host's. -/
def onDisk (f : Disk → Except Errno Disk) : Serve Unit := fun s =>
  match f s.disk with
  | .ok d => (.ok (), { s with disk := d })
  | .error e => (.error e, s)

/-- `check_write_inode`, without an allowlist. -/
def inodePath (inode : Inode) : Serve Path := ask fun s =>
  match s.inodePaths inode with
  | some p => .ok p
  | none => .error .ebadf

/-- `rel_child_path` -/
def relChildPath (parent : Inode) (name : Name) : Serve Path := do
  let p ← inodePath parent
  if name.toList.contains '/' || name = "." || name = ".." then fail .einval
  return p ++ [name]

def rememberInodePath (inode : Inode) (p : Path) : Serve Unit :=
  edit fun s => { s with inodePaths := Function.update s.inodePaths inode (some p) }

/-- The inode of a file, or a new one. -/
def inodeOf (key : Key) : Serve Inode := fun s =>
  match s.inodes.getAlt key with
  | some data => (.ok data.inode, s)
  | none => (.ok s.nextInode, { s with
      inodes := s.inodes.insert s.nextInode key ⟨s.nextInode, key, none⟩
      nextInode := s.nextInode + 1 })

def getInode (inode : Inode) : Serve InodeData := ask fun s =>
  match s.inodes.get inode with
  | some data => .ok data
  | none => .error .ebadf

def lookup (parent : Inode) (name : Name) : Serve Entry := do
  let p ← relChildPath parent name
  let _ ← getInode parent
  match ← ask fun s => s.disk.overlayPath p with
  | none => fail .enoent
  | some layer =>
    let st ← ask fun s => s.disk.stat layer p
    let inode ← inodeOf st.key
    rememberInodePath inode p
    let size ← ask fun s => .ok (if st.kind = .file then (s.disk.data st.key).length else 0)
    return ⟨inode, st.kind, size⟩

def shouldUnsharePath (p : Path) : Serve Bool :=
  if p = [] then pure false
  else do
    if ← ask fun s => s.disk.hasPath .upper p then return true
    if ← ask fun s => s.disk.whiteoutCovers p then return true
    ask fun s => .ok (s.ignored p)

/-- The directories of `prepare_upper_parent`, below `base`. -/
def upperDirs (base : Path) : Path → Serve Unit
  | [] => pure ()
  | n :: rest => do
    if ← ask fun s => s.disk.hasPath .upper (base ++ [n]) then
      upperDirs (base ++ [n]) rest
    else
      onDisk fun d => d.createAt .upper (base ++ [n]) .dir []
      -- for the metadata to copy
      let _ ← ask fun s => s.disk.hasPath .lower (base ++ [n])
      upperDirs (base ++ [n]) rest

def prepareUpperParent (p : Path) : Serve Unit := upperDirs [] p.dropLast

def prepareUpperCreate (p : Path) : Serve Unit := do
  prepareUpperParent p
  onDisk fun d => d.clearDirectWhiteout p

def copyUpPath (p : Path) : Serve Unit := do
  if ← ask fun s => s.disk.hasPath .upper p then return
  if ← ask fun s => s.disk.whiteoutCovers p then
    if !(← ask fun s => s.disk.directWhiteoutExists p) then fail .enoent
  let st ← ask fun s => s.disk.stat .lower p
  prepareUpperParent p
  onDisk fun d => d.createAt .upper p st.kind (if st.kind = .dir then [] else d.data st.key)
  onDisk fun d => d.clearDirectWhiteout p

def refreshInodeBacking (inode : Inode) (p : Path) : Serve Unit := do
  let st ← ask fun s => s.disk.stat .upper p
  edit fun s => { s with inodes := s.inodes.insert inode st.key ⟨inode, st.key, none⟩ }

def ensureUnsharedInode (inode : Inode) : Serve Bool := do
  let p ← inodePath inode
  if ← shouldUnsharePath p then
    copyUpPath p
    refreshInodeBacking inode p
    return true
  else return false

/-- `name_to_path`: a name in the directory that the parent is. -/
def nameToPath (parent : Inode) (name : Name) : Serve (Layer × Path) := do
  let data ← getInode parent
  ask fun s => match s.disk.vol data.key with
    | some (l, p) => .ok (l, p ++ [name])
    | none => .error .enoent

def childWritePath (parent : Inode) (name : Name) (p : Path) : Serve (Layer × Path) := do
  if ← shouldUnsharePath p then
    prepareUpperCreate p
    return (.upper, p)
  else nameToPath parent name

/-- `open_inode`: the file a descriptor is opened for. -/
def openInode (inode : Inode) : Serve Obj := do
  let data ← getInode inode
  match data.unlinkedFd with
  | some kind => return ⟨data.key, kind⟩
  | none =>
    ask fun s => match s.disk.vol data.key with
      | some (l, p) => s.disk.stat l p
      | none => .error .enoent

/-- A new handle. -/
def newHandle (data : HandleData) : Serve Handle := fun s =>
  (.ok s.nextHandle, { s with
    handles := Function.update s.handles s.nextHandle (some data)
    nextHandle := s.nextHandle + 1 })

/-- `open`, for reading and writing. -/
def openFile (inode : Inode) (trunc : Bool) : Serve Handle := do
  let _ ← inodePath inode
  let _ ← ensureUnsharedInode inode
  let o ← openInode inode
  match o.kind with
  | .dir => fail .eisdir
  | .link => fail .eloop
  | .file =>
    if trunc then edit fun s => { s with disk := s.disk.setData o.key [] }
    newHandle ⟨inode, o.key, .readWrite⟩

/-- `opendir`: `parse_open_flags` drops `O_DIRECTORY`, so that a file is opened as well. -/
def opendir (inode : Inode) : Serve Handle := do
  let o ← openInode inode
  match o.kind with
  | .dir => newHandle ⟨inode, o.key, .dir⟩
  | .file => newHandle ⟨inode, o.key, .read⟩
  | .link => fail .eloop

/-- `open` with `O_CREAT`. -/
def openCreate (l : Layer) (p : Path) : Serve Key := do
  match ← ask fun s => s.disk.pathMetadata l p with
  | some o =>
    match o.kind with
    | .file => return o.key
    | .dir => fail .eisdir
    | .link => fail .eloop
  | none =>
    let key ← ask fun s => .ok s.disk.nextKey
    onDisk fun d => d.createAt l p .file []
    return key

def create (parent : Inode) (name : Name) : Serve (Entry × Handle) := do
  let p ← relChildPath parent name
  let place ← childWritePath parent name p
  let key ← openCreate place.1 place.2
  let entry ← lookup parent name
  rememberInodePath entry.inode p
  let handle ← newHandle ⟨entry.inode, key, .readWrite⟩
  return (entry, handle)

def mkdir (parent : Inode) (name : Name) : Serve Entry := do
  let p ← relChildPath parent name
  let place ← childWritePath parent name p
  onDisk fun d => d.createAt place.1 place.2 .dir []
  let entry ← lookup parent name
  rememberInodePath entry.inode p
  return entry

/-- The upper file of `overlay_unlink` is removed; whether there was one. -/
def removeUpper (p : Path) : Serve Bool := do
  match ← ask fun s => s.disk.pathMetadata .upper p with
  | some o =>
    if o.kind = .dir then fail .eisdir
    else
      onDisk fun d => d.removeFile .upper p
      return true
  | none => return false

/-- The lower file of `overlay_unlink` gets a whiteout. -/
def hideLower (p : Path) (upperRemoved : Bool) : Serve Unit := do
  match ← ask fun s => s.disk.pathMetadata .lower p with
  | some o =>
    if !upperRemoved && o.isDir then fail .eisdir
    else onDisk fun d => d.createDirectWhiteout p
  | none =>
    if !upperRemoved then fail .enoent
    else onDisk fun d => d.clearDirectWhiteout p

/-- `overlay_unlink` of a file. -/
def overlayUnlink (p : Path) : Serve Unit := do
  if ← ask fun s => s.disk.whiteoutCovers p then
    if !(← ask fun s => s.disk.directWhiteoutExists p) then fail .enoent
  let upperRemoved ← removeUpper p
  hideLower p upperRemoved
  edit fun s => { s with
    inodePaths := fun i => if s.inodePaths i = some p then none else s.inodePaths i }

/-- `do_unlink`, in the directory that the parent is. -/
def doUnlink (parent : Inode) (name : Name) : Serve Unit := do
  let place ← nameToPath parent name
  let o ← ask fun s => s.disk.stat place.1 place.2
  onDisk fun d => d.removeFile place.1 place.2
  -- a descriptor of the removed file stays with its inode
  edit fun s => match s.inodes.getAlt o.key with
    | some data => { s with
        inodes := s.inodes.insert data.inode o.key { data with unlinkedFd := some o.kind } }
    | none => s

def unlink (parent : Inode) (name : Name) : Serve Unit := do
  let p ← relChildPath parent name
  if ← shouldUnsharePath p then overlayUnlink p else doUnlink parent name

def getHandle (handle : Handle) : Serve HandleData := ask fun s =>
  match s.handles handle with
  | some data => .ok data
  | none => .error .ebadf

/-- Contents with `bytes` written at an offset. -/
def writeAt (content : List UInt8) (offset : ℕ) (bytes : List UInt8) : List UInt8 :=
  (content ++ List.replicate (offset - content.length) 0).take offset ++ bytes ++
    content.drop (offset + bytes.length)

/-- Contents cut off, or filled with zeros, at a size. -/
def resize (content : List UInt8) (size : ℕ) : List UInt8 :=
  content.take size ++ List.replicate (size - content.length) 0

/-- `write`, for the inode that the handle is of. -/
def write (handle : Handle) (offset : ℕ) (bytes : List UInt8) : Serve ℕ := do
  let data ← getHandle handle
  let _ ← inodePath data.inode
  if data.mode ≠ .readWrite then fail .ebadf
  edit fun s => { s with
    disk := s.disk.setData data.key (writeAt (s.disk.data data.key) offset bytes) }
  return bytes.length

def read (handle : Handle) (offset size : ℕ) : Serve (List UInt8) := do
  let data ← getHandle handle
  if data.mode = .dir then fail .eisdir
  ask fun s => .ok (((s.disk.data data.key).drop offset).take size)

/-- `setattr` of a size, without a handle. -/
def truncate (inode : Inode) (size : ℕ) : Serve Unit := do
  let _ ← inodePath inode
  let _ ← ensureUnsharedInode inode
  let o ← openInode inode
  match o.kind with
  | .dir => fail .eisdir
  | .link => fail .eloop
  | .file =>
    edit fun s => { s with disk := s.disk.setData o.key (resize (s.disk.data o.key) size) }

/-! ### Listings -/

/-- The names in a directory of the host. -/
def dirEntries (d : Disk) (l : Layer) (p : Path) : Name → Option Kind :=
  fun n => (d.tree l (p ++ [n])).map Obj.kind

/-- `collect_upper_dir_entries`, over the names read from the descriptor. -/
def collectUpper (d : Disk) (p : Path) (entries : Name → Option Kind) :
    Except Errno (Name → Option Kind) :=
  match d.pathMetadata .upper p with
  | .error e => .error e
  | .ok none => .ok entries
  | .ok (some o) =>
    if o.kind = .dir then .ok fun n => (dirEntries d .upper p n).or (entries n)
    else .error .enotdir

/-- `apply_whiteouts`: the names that have a whiteout are hidden. -/
def applyWhiteouts (d : Disk) (p : Path) (entries : Name → Option Kind) :
    Except Errno (Name → Option Kind) :=
  match d.pathMetadata .whiteouts p with
  | .error e => .error e
  | .ok none => .ok entries
  | .ok (some o) =>
    if o.kind = .dir then
      .ok fun n =>
        match d.tree .whiteouts (p ++ [n]) with
        | none => entries n
        | some w =>
          let hidden := if w.kind = .dir then (d.tree .whiteouts (p ++ [n] ++ [marker])).isSome
            else true
          if n ≠ marker ∧ hidden then none else entries n
    else .error .enotdir

/-- `readdir`, of the whole directory, by `fill_overlay_readdir`. -/
def readdir (handle : Handle) : Serve (Name → Option Kind) := do
  let data ← getHandle handle
  if data.mode ≠ .dir then fail .enotdir
  let p ← inodePath data.inode
  let entries ← ask fun s => match s.disk.vol data.key with
    | some (l, q) => .ok (dirEntries s.disk l q)
    | none => .ok fun _ => none
  let entries ← ask fun s => collectUpper s.disk p entries
  ask fun s => applyWhiteouts s.disk p entries

/-! ## Requests on paths -/

/-- What a guest asks for; `dir` is the path of the directory that has `name`. -/
inductive Request
  | lookup (dir : Path) (name : Name)
  | create (dir : Path) (name : Name)
  | mkdir (dir : Path) (name : Name)
  | openWrite (dir : Path) (name : Name) (trunc : Bool)
  | write (handle : Handle) (offset : ℕ) (bytes : List UInt8)
  | read (handle : Handle) (offset size : ℕ)
  | truncate (dir : Path) (name : Name) (size : ℕ)
  | unlink (dir : Path) (name : Name)
  | opendir (dir : Path) (name : Name)
  | readdir (handle : Handle)

inductive Answer
  | entry (kind : Kind) (size : ℕ)
  | created (kind : Kind) (size : ℕ) (handle : Handle)
  | opened (handle : Handle)
  | written (count : ℕ)
  | content (bytes : List UInt8)
  | listing (entries : Name → Option Kind)
  | done

/-- `fuse::ROOT_ID` -/
def rootId : Inode := 1

/-- The guest goes down a path of directories. -/
def walkDir (inode : Inode) : Path → Serve Inode
  | [] => pure inode
  | n :: rest => do
    let entry ← lookup inode n
    if entry.kind = .dir then walkDir entry.inode rest else fail .enotdir

def serve : Request → Serve Answer
  | .lookup dir name => do
    let parent ← walkDir rootId dir
    let entry ← lookup parent name
    return .entry entry.kind entry.size
  | .create dir name => do
    let parent ← walkDir rootId dir
    let (entry, handle) ← create parent name
    return .created entry.kind entry.size handle
  | .mkdir dir name => do
    let parent ← walkDir rootId dir
    let entry ← mkdir parent name
    return .entry entry.kind entry.size
  | .openWrite dir name trunc => do
    let parent ← walkDir rootId dir
    let entry ← lookup parent name
    return .opened (← openFile entry.inode trunc)
  | .write handle offset bytes => return .written (← write handle offset bytes)
  | .read handle offset size => return .content (← read handle offset size)
  | .truncate dir name size => do
    let parent ← walkDir rootId dir
    let entry ← lookup parent name
    truncate entry.inode size
    return .done
  | .unlink dir name => do
    let parent ← walkDir rootId dir
    unlink parent name
    return .done
  | .opendir dir name => do
    let parent ← walkDir rootId dir
    let entry ← lookup parent name
    return .opened (← opendir entry.inode)
  | .readdir handle => return .listing (← readdir handle)

/-! ## The start -/

/-- A share on the host: a tree without hard links. -/
structure Lower where
  tree : Path → Option Obj
  data : Key → List UInt8
  /-- every identity in the tree is below this one -/
  keys : Key
  rootKey : Key
  wellFormed : PathTree.WellFormed Obj.isDir tree
  root : tree [] = some ⟨rootKey, .dir⟩
  key_lt : ∀ p o, tree p = some o → o.key < keys
  /-- where an identity is -/
  place : Key → Option Path
  place_iff : ∀ k p, place k = some p ↔ ∃ kind, tree p = some ⟨k, kind⟩
  beyond : Layer → Path → Path → Except Errno Obj

/-- The disk with empty `upper` and `whiteouts` directories. -/
def Lower.disk (L : Lower) : Disk where
  tree
    | .lower => L.tree
    | .upper => fun p => if p = [] then some ⟨L.keys, .dir⟩ else none
    | .whiteouts => fun p => if p = [] then some ⟨L.keys + 1, .dir⟩ else none
  vol := fun k =>
    if k = L.keys then some (.upper, [])
    else if k = L.keys + 1 then some (.whiteouts, [])
    else (L.place k).map fun p => (.lower, p)
  data := L.data
  nextKey := L.keys + 2
  beyond := L.beyond

/-- `PassthroughFs::init`: the root has its inode. -/
def start (L : Lower) (ignored : Path → Bool) : State where
  disk := L.disk
  ignored := ignored
  inodes := Multikey.empty.insert rootId L.rootKey ⟨rootId, L.rootKey, none⟩
  inodePaths := fun i => if i = rootId then some [] else none
  nextInode := rootId + 1
  handles := fun _ => none
  nextHandle := 1

end Lnx.Overlay
