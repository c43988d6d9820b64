import Lnx.Overlay.Model

/-!
# A plain file system

What the overlay is to look like: one tree in memory, whose files have contents of their own
and stay readable through open handles after their name is gone.

* `Plain`: the file system; `Plain.copyOf`, the copy of a share that it starts as.
* `Plain.serve`: its answers to the same requests.
-/

namespace Lnx.Overlay

/-- A node of the tree. -/
inductive Node
  | dir
  | link
  | file (id : ℕ)
  deriving DecidableEq

def Node.kind : Node → Kind
  | dir => .dir
  | link => .link
  | file _ => .file

/-- What a handle is open on. -/
inductive PlainHandle
  | dir (p : Path)
  | file (id : ℕ)

structure Plain where
  tree : Path → Option Node
  content : ℕ → List UInt8
  nextFile : ℕ
  handles : Handle → Option PlainHandle
  nextHandle : Handle

namespace Plain

/-- The copy of a share. -/
def copyOf (L : Lower) : Plain where
  tree p := (L.tree p).map fun o => match o.kind with
    | .dir => .dir
    | .link => .link
    | .file => .file o.key
  content := L.data
  nextFile := L.keys
  handles _ := none
  nextHandle := 1

def setNode (t : Plain) (p : Path) (n : Option Node) : Plain :=
  { t with tree := Function.update t.tree p n }

def setContent (t : Plain) (id : ℕ) (bytes : List UInt8) : Plain :=
  { t with content := Function.update t.content id bytes }

def newHandle (t : Plain) (h : PlainHandle) : Plain :=
  { t with
    handles := Function.update t.handles t.nextHandle (some h)
    nextHandle := t.nextHandle + 1 }

def size (t : Plain) : Node → ℕ
  | .file id => (t.content id).length
  | _ => 0

/-- The node of a name in a directory. -/
def find (t : Plain) (dir : Path) (name : Name) : Option Node :=
  if t.tree dir = some .dir then t.tree (dir ++ [name]) else none

/-- A new empty file, and a handle for it. -/
def create (t : Plain) (dir : Path) (name : Name) : Plain :=
  { t with
    tree := Function.update t.tree (dir ++ [name]) (some (.file t.nextFile))
    content := Function.update t.content t.nextFile []
    nextFile := t.nextFile + 1 }

def serve (t : Plain) : Request → Option Answer × Plain
  | .lookup dir name =>
    match t.find dir name with
    | some n => (some (.entry n.kind (t.size n)), t)
    | none => (none, t)
  | .create dir name =>
    if t.tree dir = some .dir ∧ t.tree (dir ++ [name]) = none then
      (some (.created .file 0 t.nextHandle), (t.create dir name).newHandle (.file t.nextFile))
    else (none, t)
  | .mkdir dir name =>
    if t.tree dir = some .dir ∧ t.tree (dir ++ [name]) = none then
      (some (.entry .dir 0), t.setNode (dir ++ [name]) (some .dir))
    else (none, t)
  | .openWrite dir name trunc =>
    match t.find dir name with
    | some (.file id) =>
      (some (.opened t.nextHandle),
        (if trunc then t.setContent id [] else t).newHandle (.file id))
    | _ => (none, t)
  | .write handle offset bytes =>
    match t.handles handle with
    | some (.file id) =>
      (some (.written bytes.length), t.setContent id (writeAt (t.content id) offset bytes))
    | _ => (none, t)
  | .read handle offset size =>
    match t.handles handle with
    | some (.file id) => (some (.content (((t.content id).drop offset).take size)), t)
    | _ => (none, t)
  | .truncate dir name size =>
    match t.find dir name with
    | some (.file id) => (some .done, t.setContent id (resize (t.content id) size))
    | _ => (none, t)
  | .unlink dir name =>
    match t.find dir name with
    | some .dir => (none, t)
    | some _ => (some .done, t.setNode (dir ++ [name]) none)
    | none => (none, t)
  | .opendir dir name =>
    match t.find dir name with
    | some .dir => (some (.opened t.nextHandle), t.newHandle (.dir (dir ++ [name])))
    | _ => (none, t)
  | .readdir handle =>
    match t.handles handle with
    | some (.dir p) => (some (.listing fun n => (t.tree (p ++ [n])).map Node.kind), t)
    | _ => (none, t)

end Plain

end Lnx.Overlay
