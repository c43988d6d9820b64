import Lnx.Lib.Tree
import Mathlib.Data.List.Sort

/-!
# Data of the generation store

The types of `src/src/store.rs`: ids, the committed record, manifests,
checkpoint references, the names of the layout, and the store's errors.

An instance directory is laid out as
```
state.json                            the committed record
generations/<gen>/manifest.json       with rootfs.ext4, .pin, …
generations/.staging-<gen>/           a generation being written
generations/.trash-<gen>/             a generation being deleted
runs/<run>/                           the work directory of one VM run
checkpoints/<id>.ref                  a named reference to a generation
```
-/

namespace Lnx

open List

/-- A path component. Components that are not UTF-8 are left out. -/
abbrev Name := String

/-- A path, relative to the instance directory. -/
abbrev Path := List Name

abbrev Bytes := List UInt8

/-- What a directory entry other than a directory is. Times and permissions are
    left out. -/
inductive Leaf
  | file (bytes : Bytes)
  | symlink (target : String)
  deriving DecidableEq, Repr

/-- A directory tree: a leaf, or a directory with its entries in the order
    `read_dir` lists them. -/
abbrev Dir := Tree Name Leaf

/-! ## Names of the layout (lines 29–51) -/

def STATE_FILE : Name := "state.json"
def GENERATIONS_DIR : Name := "generations"
def RUNS_DIR : Name := "runs"
def CHECKPOINTS_DIR : Name := "checkpoints"
def MANIFEST : Name := "manifest.json"
def ROOTFS : Name := "rootfs.ext4"
def HOST_SHARE_STATE : Name := "host-share-state"
def VMSTATE : Name := "vmstate.bin"
def PAGES : Name := "pages.img"
def PIN : Name := ".pin"
def STAGING_PREFIX : String := ".staging-"
def TRASH_PREFIX : String := ".trash-"
def RECORD_VERSION : ℕ := 1
def MANIFEST_VERSION : ℕ := 1

/-- `str::starts_with`. -/
def startsWith (s pre : String) : Bool := pre.toList.isPrefixOf s.toList

/-! ## Ids (lines 56–119) -/

/-- The bytes an id may hold: `byte.is_ascii_alphanumeric() || matches!(byte, b'-' | b'_' | b'.')`. -/
def componentChar (c : Char) : Bool := c.isAlphanum || c == '-' || c == '_' || c == '.'

/-- The test of `validate_component` (lines 69–79). -/
def validComponent (value : String) : Bool :=
  !value.toList.isEmpty && !startsWith value "." && value.toList.all componentChar

/-- The name of a published generation. -/
structure GenerationId where
  asStr : String
  valid : validComponent asStr = true
  deriving DecidableEq

/-- The name of a VM run. -/
structure RunId where
  asStr : String
  valid : validComponent asStr = true
  deriving DecidableEq

/-- `GenerationId::try_from`. -/
def GenerationId.tryFrom (value : String) : Option GenerationId :=
  if h : validComponent value = true then some ⟨value, h⟩ else none

theorem GenerationId.tryFrom_asStr (g : GenerationId) : tryFrom g.asStr = some g := by
  simp [tryFrom, g.valid]

theorem GenerationId.tryFrom_eq_some {s : String} {g : GenerationId} :
    tryFrom s = some g ↔ s = g.asStr := by
  constructor
  · intro h
    unfold tryFrom at h
    split at h
    · cases h
      rfl
    · cases h
  · rintro rfl
    exact g.tryFrom_asStr

theorem validComponent_ne_dot {s : String} (h : validComponent s = true) :
    startsWith s "." = false := by
  simp only [validComponent, Bool.and_eq_true, Bool.not_eq_true'] at h
  exact h.1.2

/-! ## The committed record (lines 188–221) -/

/-- `ProcessIdentity` (`runner/locks.rs`). -/
structure ProcessIdentity where
  pid : ℤ
  started : ℕ
  deriving DecidableEq

/-- What the instance is doing, as last committed by the lock holder. -/
inductive Phase
  | stopped
  | running (run : RunId) (owner : ProcessIdentity)
  | dirty (run : RunId) (owner : ProcessIdentity)
  deriving DecidableEq

/-- `Phase::run`. -/
def Phase.run : Phase → Option RunId
  | stopped => none
  | running run _ | dirty run _ => some run

/-- The one committed record of an instance. -/
structure Record where
  version : ℕ
  latest : Option GenerationId
  phase : Phase
  deriving DecidableEq

/-! ## Generations (lines 223–298) -/

/-- Why a generation exists. -/
inductive Origin
  | image
  | snapshot (run : RunId)
  | snapshotExit (run : RunId)
  | checkpoint (run : RunId)
  | salvage (run : RunId)
  | dropMemory
  | edited
  | migrated
  | import
  deriving DecidableEq

/-- `manifest.json`. `files` is a `BTreeMap`: its entries in key order. -/
structure Manifest where
  version : ℕ
  id : GenerationId
  parent : Option GenerationId
  origin : Origin
  createdUnixNanos : ℕ
  files : List (Name × ℕ)
  deriving DecidableEq

/-- `self.files.contains_key(name)`. -/
def Manifest.containsKey (m : Manifest) (name : Name) : Bool := (m.files.map Prod.fst).contains name

/-- `Manifest::has_memory`. -/
def Manifest.hasMemory (m : Manifest) : Bool := m.containsKey VMSTATE && m.containsKey PAGES

/-- `BTreeMap::insert`. -/
def btreeInsert (k : Name) (v : ℕ) : List (Name × ℕ) → List (Name × ℕ)
  | [] => [(k, v)]
  | (k', v') :: l =>
    if k = k' then (k, v) :: l
    else if k < k' then (k, v) :: (k', v') :: l
    else (k', v') :: btreeInsert k v l

theorem mem_btreeInsert {k : Name} {v : ℕ} {e : Name × ℕ} {l : List (Name × ℕ)}
    (h : e ∈ btreeInsert k v l) : e = (k, v) ∨ e ∈ l := by
  induction l with
  | nil => exact .inl (by simpa [btreeInsert] using h)
  | cons x l ih =>
    simp only [btreeInsert] at h
    split_ifs at h with h₁ h₂
    · exact (mem_cons.1 h).imp id (mem_cons_of_mem _)
    · exact mem_cons.1 h
    · rcases mem_cons.1 h with h | h
      · exact .inr (h ▸ mem_cons_self)
      · exact (ih h).imp id (mem_cons_of_mem _)

/-- A named reference to a generation. -/
structure CheckpointRef where
  id : String
  name : Option String
  generation : GenerationId
  createdUnix : ℕ
  deriving DecidableEq

/-- What recovery did before the instance could be used. -/
inductive Recovery
  | clean
  | rolledForward (id : GenerationId)
  | discardedIdleRun (run : RunId)
  deriving DecidableEq

/-- What garbage collection removed. -/
structure Collected where
  generations : List GenerationId
  runs : List Name
  staging : List Name
  deriving DecidableEq

/-! ## JSON files -/

/-- Writing and reading one type as JSON. Committed files are
    `serde_json::to_vec_pretty` followed by a newline, and `from_slice` reads
    such a file back to the value written. -/
structure Codec (α : Type) where
  toVecPretty : α → Bytes
  fromSlice : Bytes → Option α
  fromSlice_toVecPretty : ∀ a, fromSlice (toVecPretty a ++ [10]) = some a

/-- A store: the name of its instance directory and the JSON forms of the three
    types it writes. -/
structure Store where
  instanceName : String
  recordJson : Codec Record
  manifestJson : Codec Manifest
  refJson : Codec CheckpointRef

/-! ## Errors -/

/-- The kinds of `std::io::Error` the store can meet. -/
inductive IoError
  | notFound
  | alreadyExists
  | notADirectory
  | isADirectory
  | directoryNotEmpty
  | other
  deriving DecidableEq, Repr

/-- The errors of `store.rs`, with the data their messages show. -/
inductive StoreError
  | io (doing : String) (path : Path) (error : IoError)
  | parse (path : Path)
  | invalidId (kind value : String)
  | unsupportedVersion (version : ℕ)
  | noRecord
  | noManifest (id : GenerationId)
  | wrongManifest (id other : GenerationId)
  | missingFile (id : GenerationId) (name : Name) (error : IoError)
  | wrongSize (id : GenerationId) (name : Name) (actual : Option ℕ) (size : ℕ)
  | noRootfs (id : GenerationId)
  | stateExists
  | crashedWithUnsavedState (instance_ : String) (run : RunId)
  | notStopped (what : String)
  | cannotAdvance (run : RunId) (phase : Phase)
  | cannotMarkDirty (run : RunId) (phase : Phase)
  | cannotAbandon (run : RunId) (phase : Phase)
  | noCrashedRun (what : String)
  | noSavedState
  | stagedNoRootfs (id : GenerationId)
  | edit
  | unsupported (path : Path)
  deriving DecidableEq

end Lnx
