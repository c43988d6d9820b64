import Lnx.Store.Specs

/-!
# Permission bits

The trees of the store's model leave permissions out. An `Inode` carries them, and a
`Host` is what the operating system contributes to a copy: the umask, and which calls
fail. Over these trees stand the copying functions of `src/src/sparse_copy.rs`:

* `cloneOrCopyFile` clones a file and then sets the source's permissions on the clone
  (`preserve_file_metadata`);
* `cloneOrCopyTree` makes links anew, and makes directories with `fs::create_dir_all`,
  whose mode is `0o777` less the umask.

A copy that returns is the source with the mode of every directory replaced
(`cloneOrCopyTree_eq`). It equals the source exactly if every directory had that mode
(`withDirMode_eq_self_iff`). Without permissions it is the source, as the store's model
has it (`copyTree_erase_does`).
-/

namespace Lnx

/-- The permission bits of a mode: those of `0o7777`. -/
abbrev Perm := BitVec 12

/-- What stands at a path. A link has no permissions of its own. -/
inductive Inode
  | file (bytes : Bytes) (mode : Perm)
  | symlink (target : String)
  | dir (mode : Perm) (entries : List (Name × Inode))

/-- What the operating system contributes to a copy. -/
structure Host where
  umask : Perm
  /-- the error of a call made for what stands at a path, if one fails -/
  refuses : Path → Option IoError
  /-- what `Path::exists` answers where something stands: it follows links, and takes
      any error for absence -/
  sees : Inode → Bool

variable {es : List (Name × Inode)} {t u : Inode} {p : Path}

namespace Inode

/-- Induction that gives the statement for every entry of a directory. -/
theorem induct {P : Inode → Prop} (file : ∀ b m, P (.file b m)) (symlink : ∀ t, P (.symlink t))
    (dir : ∀ m es, (∀ e ∈ es, P e.2) → P (.dir m es)) : ∀ t, P t
  | .file b m => file b m
  | .symlink t => symlink t
  | .dir m es => dir m es fun e _he => induct file symlink dir e.2
termination_by t => sizeOf t
decreasing_by
  have h := List.sizeOf_lt_of_mem _he
  cases e
  simp only [Inode.dir.sizeOf_spec, Prod.mk.sizeOf_spec] at *
  omega

/-- `fs::set_permissions`. -/
def setPermissions (mode : Perm) : Inode → Inode
  | file bytes _ => .file bytes mode
  | symlink target => .symlink target
  | dir _ entries => .dir mode entries

mutual

/-- The tree with `mode` on every directory. -/
def withDirMode (mode : Perm) : Inode → Inode
  | file bytes m => .file bytes m
  | symlink target => .symlink target
  | dir _ entries => .dir mode (withDirModes mode entries)

def withDirModes (mode : Perm) : List (Name × Inode) → List (Name × Inode)
  | [] => []
  | (n, t) :: es => (n, withDirMode mode t) :: withDirModes mode es

end

/-- Every directory of the tree has `mode`. -/
inductive Dirs (mode : Perm) : Inode → Prop
  | file (bytes : Bytes) (m : Perm) : Dirs mode (.file bytes m)
  | symlink (target : String) : Dirs mode (.symlink target)
  | dir {entries : List (Name × Inode)} : (∀ e ∈ entries, Dirs mode e.2) → Dirs mode (.dir mode entries)

mutual

/-- The tree without permissions. -/
def erase : Inode → Dir
  | file bytes _ => .leaf (.file bytes)
  | symlink target => .leaf (.symlink target)
  | dir _ entries => .node (eraseEntries entries)

def eraseEntries : List (Name × Inode) → List (Name × Dir)
  | [] => []
  | (n, t) :: es => (n, erase t) :: eraseEntries es

end

variable {mode : Perm}

theorem withDirModes_eq_self_iff :
    withDirModes mode es = es ↔ ∀ e ∈ es, e.2.withDirMode mode = e.2 := by
  induction es with
  | nil => simp [withDirModes]
  | cons e es ih =>
    rw [withDirModes, List.cons.injEq, Prod.ext_iff, ih, List.forall_mem_cons]
    simp

/-- A tree is as it was under one mode for all directories only if each had it. -/
theorem withDirMode_eq_self_iff : t.withDirMode mode = t ↔ t.Dirs mode := by
  induction t using induct with
  | file b m => exact ⟨fun _ => .file b m, fun _ => rfl⟩
  | symlink target => exact ⟨fun _ => .symlink target, fun _ => rfl⟩
  | dir m es ih =>
    have hentries : withDirModes mode es = es ↔ ∀ e ∈ es, e.2.Dirs mode := by
      rw [withDirModes_eq_self_iff]
      exact forall₂_congr ih
    rw [withDirMode, dir.injEq, hentries]
    constructor
    · rintro ⟨rfl, h⟩
      exact .dir h
    · intro h
      cases h with
      | dir h => exact ⟨rfl, h⟩

theorem eraseEntries_withDirModes (h : ∀ e ∈ es, (e.2.withDirMode mode).erase = e.2.erase) :
    eraseEntries (withDirModes mode es) = eraseEntries es := by
  induction es with
  | nil => rfl
  | cons e es ih =>
    rw [withDirModes, eraseEntries, eraseEntries, h e (by simp), ih fun x hx => h x (List.mem_cons_of_mem _ hx)]

theorem erase_withDirMode (mode : Perm) (t : Inode) : (t.withDirMode mode).erase = t.erase := by
  induction t using induct with
  | file b m | symlink target => rfl
  | dir m es ih => rw [withDirMode, erase, erase, eraseEntries_withDirModes ih]

end Inode

namespace Host

variable (h : Host)

/-- The mode `mkdir` gives a directory. -/
def dirMode : Perm := 0o777#12 &&& ~~~h.umask

/-- The mode `open` gives a file it creates. -/
def fileMode : Perm := 0o666#12 &&& ~~~h.umask

/-- The calls made for what stands at a path. -/
def calls (doing : String) (p : Path) : Except StoreError Unit :=
  match h.refuses p with
  | some e => .error (.io doing p e)
  | none => .ok ()

/-- `clone_or_copy_file` (`sparse_copy.rs` lines 48–133). The source is a regular file
    where the store calls it. -/
def cloneOrCopyFile (p : Path) : Inode → Except StoreError Inode
  | .file bytes mode => do
    h.calls "clone" p
    -- until `preserve_file_metadata` the clone has the mode it was created with
    pure ((Inode.file bytes h.fileMode).setPermissions mode)
  | _ => .error (.unsupported p)

mutual

/-- `clone_or_copy_tree` (`sparse_copy.rs` lines 21–41) to where nothing stands. -/
def cloneOrCopyTree (p : Path) : Inode → Except StoreError Inode
  | .dir _ es => do
    h.calls "create" p
    let copied ← cloneEntries p es
    pure (.dir h.dirMode copied)
  | .symlink target => do
    h.calls "symlink" p
    pure (.symlink target)
  | .file bytes mode => h.cloneOrCopyFile p (.file bytes mode)

/-- Its loop over the entries of a directory. -/
def cloneEntries (p : Path) : List (Name × Inode) → Except StoreError (List (Name × Inode))
  | [] => pure []
  | (n, t) :: es => do
    let copy ← cloneOrCopyTree (p ++ [n]) t
    let copies ← cloneEntries p es
    pure ((n, copy) :: copies)

end

variable {h}

theorem cloneOrCopyFile_eq (hu : h.cloneOrCopyFile p t = .ok u) :
    u = t ∧ ∃ bytes mode, t = .file bytes mode := by
  cases t with
  | file bytes mode =>
    obtain ⟨_, -, hu⟩ := bind_eq_ok.1 hu
    cases hu
    exact ⟨rfl, bytes, mode, rfl⟩
  | symlink target | dir m es => cases hu

theorem cloneEntries_eq {us : List (Name × Inode)}
    (ih : ∀ e ∈ es, ∀ p u, h.cloneOrCopyTree p e.2 = .ok u → u = e.2.withDirMode h.dirMode)
    (hu : h.cloneEntries p es = .ok us) : us = Inode.withDirModes h.dirMode es := by
  induction es generalizing us with
  | nil =>
    cases hu
    rfl
  | cons e es ihes =>
    obtain ⟨copy, hcopy, hu⟩ := bind_eq_ok.1 hu
    obtain ⟨copies, hcopies, hu⟩ := bind_eq_ok.1 hu
    cases hu
    rw [Inode.withDirModes, ih e (by simp) _ _ hcopy,
      ihes (fun x hx => ih x (List.mem_cons_of_mem _ hx)) hcopies]

/-- A copy that returns differs from the source in the modes of directories only. -/
theorem cloneOrCopyTree_eq (hu : h.cloneOrCopyTree p t = .ok u) : u = t.withDirMode h.dirMode := by
  induction t using Inode.induct generalizing p u with
  | file b m =>
    rw [cloneOrCopyTree] at hu
    exact (cloneOrCopyFile_eq hu).1
  | symlink target =>
    obtain ⟨_, -, hu⟩ := bind_eq_ok.1 hu
    cases hu
    rfl
  | dir m es ih =>
    obtain ⟨_, -, hu⟩ := bind_eq_ok.1 hu
    obtain ⟨copied, hcopied, hu⟩ := bind_eq_ok.1 hu
    cases hu
    rw [Inode.withDirMode, cloneEntries_eq (fun e he p u => ih e he) hcopied]

end Host

/-- The store's own copy of the tree without permissions stands for this one. -/
theorem copyTree_erase_does {E : Setting} {free : Path → Prop} {K : World → World → Prop}
    {w₀ w : World} (hK : Closed E free K) (hf : E.fail w₀) {h : Host} {dir : Path} {n : Name}
    (hu : h.cloneOrCopyTree p t = .ok u) (hd : free dir) (hne : dir ≠ []) (h₀ : K w₀ w) :
    Does E (fun _ w' => K w₀ w' ∧ Copied dir n u.erase w w') (copyTree (dir ++ [n]) t.erase) w := by
  rw [Host.cloneOrCopyTree_eq hu, Inode.erase_withDirMode]
  exact copyTree_does hK hf hd hne h₀

end Lnx
