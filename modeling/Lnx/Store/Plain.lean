import Lnx.Lib.Wire
import Lnx.Store.Types

/-!
# A store whose files can be computed

What is proved of the store holds for any JSON form that reads back what it
writes (`Codec`). `plainStore` is one store that can be run: its files are plain
`Wire` forms of the record, the manifest and the checkpoint reference.
-/

namespace Lnx

namespace Wire

def string : Wire String :=
  nat.list.embed (fun s => s.toList.map Char.toNat)
    (fun l => some (String.ofList (l.map Char.ofNat))) fun s => by
      simp [Function.comp_def]

def generationId : Wire GenerationId :=
  string.embed GenerationId.asStr GenerationId.tryFrom GenerationId.tryFrom_asStr

def runId : Wire RunId :=
  string.embed RunId.asStr (fun s => if h : validComponent s = true then some ⟨s, h⟩ else none)
    fun r => by simp [r.valid]

def int : Wire ℤ :=
  (nat.pair nat).embed (fun z => (z.toNat, (-z).toNat)) (fun p => some ((p.1 : ℤ) - p.2)) fun z => by
    simp only [Option.some.injEq]
    omega

def owner : Wire ProcessIdentity :=
  (int.pair nat).embed (fun o => (o.pid, o.started)) (fun p => some ⟨p.1, p.2⟩) fun _ => rfl

/-- A phase, as its kind and, unless it is `Stopped`, its run and owner. -/
def phase : Wire Phase :=
  (nat.pair (runId.pair owner).option).embed
    (fun
      | .stopped => (0, none)
      | .running run owner => (1, some (run, owner))
      | .dirty run owner => (2, some (run, owner)))
    (fun
      | (0, none) => some .stopped
      | (1, some (run, owner)) => some (.running run owner)
      | (2, some (run, owner)) => some (.dirty run owner)
      | _ => none)
    fun p => by cases p <;> rfl

def record : Wire Record :=
  (nat.pair (generationId.option.pair phase)).embed (fun r => (r.version, r.latest, r.phase))
    (fun p => some ⟨p.1, p.2.1, p.2.2⟩) fun _ => rfl

/-- An origin, as its kind and its run, if it has one. -/
def origin : Wire Origin :=
  (nat.pair runId.option).embed
    (fun
      | .image => (0, none)
      | .snapshot run => (1, some run)
      | .snapshotExit run => (2, some run)
      | .checkpoint run => (3, some run)
      | .salvage run => (4, some run)
      | .dropMemory => (5, none)
      | .edited => (6, none)
      | .migrated => (7, none)
      | .import => (8, none))
    (fun
      | (0, none) => some .image
      | (1, some run) => some (.snapshot run)
      | (2, some run) => some (.snapshotExit run)
      | (3, some run) => some (.checkpoint run)
      | (4, some run) => some (.salvage run)
      | (5, none) => some .dropMemory
      | (6, none) => some .edited
      | (7, none) => some .migrated
      | (8, none) => some .import
      | _ => none)
    fun o => by cases o <;> rfl

def manifest : Wire Manifest :=
  (nat.pair (generationId.pair (generationId.option.pair (origin.pair
    (nat.pair (string.pair nat).list))))).embed
    (fun m => (m.version, m.id, m.parent, m.origin, m.createdUnixNanos, m.files))
    (fun p => some ⟨p.1, p.2.1, p.2.2.1, p.2.2.2.1, p.2.2.2.2.1, p.2.2.2.2.2⟩) fun _ => rfl

def checkpointRef : Wire CheckpointRef :=
  (string.pair (string.option.pair (generationId.pair nat))).embed
    (fun c => (c.id, c.name, c.generation, c.createdUnix))
    (fun p => some ⟨p.1, p.2.1, p.2.2.1, p.2.2.2⟩) fun _ => rfl

/-- A byte form as the form of a file. -/
def codec {α : Type} (u : Wire α) : Codec α where
  toVecPretty := u.put
  fromSlice bs := (u.get bs).map Prod.fst
  fromSlice_toVecPretty a := by simp [u.get_put]

end Wire

/-- A store with plain files. -/
def plainStore : Store where
  instanceName := "plain"
  recordJson := Wire.record.codec
  manifestJson := Wire.manifest.codec
  refJson := Wire.checkpointRef.codec

end Lnx
