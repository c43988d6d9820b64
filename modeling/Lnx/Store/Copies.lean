import Lnx.Store.Modes
import Lnx.Store.Restore

/-!
# What the store copies

`begin_run`, `drop_memory`, `derive`, `salvage`, `import_dir` and `export`
(`src/src/store.rs`) each fill a new directory with files of a saved directory and with
its host-share state. `Host.beginRun` … `Host.export` are what they copy, with permission
bits; the records they commit, and what is left when they fail, are in the store's model.

* `copies_preserve_iff`: a copy that is made has the source's files, and it has the
  source's host-share state exactly if every directory there has the mode `mkdir` gives.
  A `drop_memory`, `derive` or `salvage` that fails leaves the record as it was, or
  naming the complete new generation.
* `copy_may_change_modes`: a private directory of the host-share state comes out
  readable by all.
-/

namespace Lnx

open List Assoc

variable {dst dst' src staged : List (Name × Inode)}

/-- A generation that `Store::generation` finds complete: its directory, and the names
    its manifest lists. The sizes it compares are left out. -/
structure Saved where
  entries : List (Name × Inode)
  files : List Name
  listed : ∀ name ∈ files, ∃ bytes mode, get name entries = some (.file bytes mode)
  rootfs : ROOTFS ∈ files

/-- What `Store::publish` puts in the manifest besides the files. -/
structure Stamp where
  id : GenerationId
  parent : Option GenerationId
  origin : Origin
  nanos : ℕ

namespace Host

variable (S : Store) (h : Host)

/-- `for name in names { clone_or_copy_file(src/name, dst/name)? }`. -/
def copyFiles (src : List (Name × Inode)) :
    List Name → List (Name × Inode) → Except StoreError (List (Name × Inode))
  | [], dst => pure dst
  | name :: names, dst =>
    match get name src with
    | none => .error (.io "stat" [name] .notFound)
    | some t => do
      let copy ← h.cloneOrCopyFile [name] t
      copyFiles src names (set name copy dst)

/-- `if shares.exists() { clone_or_copy_tree(shares, dst)? }`. -/
def copyShares (src dst : List (Name × Inode)) : Except StoreError (List (Name × Inode)) :=
  match get HOST_SHARE_STATE src with
  | none => pure dst
  | some t =>
    if h.sees t then do
      let copy ← h.cloneOrCopyTree [HOST_SHARE_STATE] t
      pure (set HOST_SHARE_STATE copy dst)
    else pure dst

/-- Some files of `src`, and its host-share state, in a new directory. -/
def copyState (names : List Name) (src : List (Name × Inode)) : Except StoreError (List (Name × Inode)) := do
  let files ← h.copyFiles src names []
  h.copyShares src files

/-- `Store::publish` (lines 755–803) of a staging directory: the generation's directory. -/
def publish (m : Stamp) (staged : List (Name × Inode)) : Except StoreError (List (Name × Inode)) :=
  let files := Store.fileSizes (Inode.eraseEntries staged)
  if ROOTFS ∉ files.map Prod.fst then .error (.stagedNoRootfs m.id)
  else
    let manifest : Manifest := ⟨MANIFEST_VERSION, m.id, m.parent, m.origin, m.nanos, files⟩
    let bytes := S.manifestJson.toVecPretty manifest ++ [10]
    .ok (set PIN (.file [] h.fileMode) (set MANIFEST (.file bytes h.fileMode) staged))

/-- `Store::begin_run` (lines 593–629) from a generation: the run's directory. -/
def beginRun (G : Saved) : Except StoreError (List (Name × Inode)) := h.copyState G.files G.entries

/-- `Store::export` (lines 680–708): the generation's directory in the new instance. -/
def «export» (G : Saved) : Except StoreError (List (Name × Inode)) :=
  h.copyState (G.files ++ [MANIFEST, PIN]) G.entries

/-- The staging directory that `Store::derive` gives to `edit` (lines 849–872). -/
def deriveStaging (G : Saved) : Except StoreError (List (Name × Inode)) := h.copyState G.files G.entries

/-- `Store::derive` (lines 849–877): the new generation's directory. -/
def derive (m : Stamp) (edit : List (Name × Inode) → Except StoreError (List (Name × Inode))) (G : Saved) :
    Except StoreError (List (Name × Inode)) := do
  let staged ← h.deriveStaging G
  let edited ← edit staged
  h.publish S m edited

/-- `Store::drop_memory` (lines 893–923): the new generation's directory, if there was
    any memory to drop. -/
def dropMemory (m : Stamp) (G : Saved) : Except StoreError (Option (List (Name × Inode))) :=
  if VMSTATE ∈ G.files ∧ PAGES ∈ G.files then do
    let staged ← h.copyState [ROOTFS] G.entries
    let published ← h.publish S m staged
    pure (some published)
  else pure none

/-- `Store::salvage` (lines 811–833) of a run's directory: the new generation's. -/
def salvage (m : Stamp) (work : List (Name × Inode)) : Except StoreError (List (Name × Inode)) := do
  let staged ← h.copyState [ROOTFS] work
  h.publish S m staged

/-- What `Store::import_dir` does with one entry of the source directory. -/
def importEntry (name : Name) (t : Inode) (dst : List (Name × Inode)) :
    Except StoreError (List (Name × Inode)) :=
  match t with
  | .file bytes mode =>
    if name ≠ MANIFEST ∧ name ≠ PIN then do
      let copy ← h.cloneOrCopyFile [name] (.file bytes mode)
      pure (set name copy dst)
    else pure dst
  | .dir mode entries =>
    if name = HOST_SHARE_STATE then do
      let copy ← h.cloneOrCopyTree [name] (.dir mode entries)
      pure (set name copy dst)
    else pure dst
  | .symlink _ => pure dst

/-- Its loop over the entries of the source directory. -/
def importEntries : List (Name × Inode) → List (Name × Inode) → Except StoreError (List (Name × Inode))
  | [], dst => pure dst
  | (name, t) :: es, dst => do
    let dst ← h.importEntry name t dst
    importEntries es dst

/-- `Store::import_dir` (lines 657–677): the new generation's directory. -/
def importDir (m : Stamp) (source : List (Name × Inode)) : Except StoreError (List (Name × Inode)) := do
  let staged ← h.importEntries source []
  h.publish S m staged

/-- What the theorem asks of the host-share state of `src`, when the files `names` are
    copied as well: `Path::exists` finds it, and its directories have the mode of new
    ones. -/
def Carries (names : List Name) (src : List (Name × Inode)) : Prop :=
  ∀ t, get HOST_SHARE_STATE src = some t →
    HOST_SHARE_STATE ∈ names ∨ h.sees t = true ∧ t.Dirs h.dirMode

/-- The same for `import_dir`, which takes a directory or a file. -/
def Imports (src : List (Name × Inode)) : Prop :=
  ∀ t, get HOST_SHARE_STATE src = some t → (∀ target, t ≠ .symlink target) ∧ t.Dirs h.dirMode

end Host

open Host

/-- `dst` has the files `names` and the host-share state of `src`, permissions included. -/
structure SameSaved (names : List Name) (src dst : List (Name × Inode)) : Prop where
  files : ∀ name ∈ names, get name dst = get name src
  shares : get HOST_SHARE_STATE dst = get HOST_SHARE_STATE src

/-- The names of the regular files that `import_dir` takes. -/
def Imported (src : List (Name × Inode)) : List Name :=
  (names src).filter fun name =>
    match get name src with
    | some (.file _ _) => name ≠ MANIFEST ∧ name ≠ PIN
    | _ => false

/-! ## Copies -/

variable {n : Name}

section copies

variable {S : Store} {h : Host} {m : Stamp}

theorem copyFiles_get {names : List Name} (hc : h.copyFiles src names dst = .ok dst') :
    (∀ n ∈ names, get n dst' = get n src) ∧ ∀ n ∉ names, get n dst' = get n dst := by
  induction names generalizing dst with
  | nil =>
    cases hc
    exact ⟨by simp, fun _ _ => rfl⟩
  | cons name names ih =>
    simp only [Host.copyFiles] at hc
    split at hc
    · cases hc
    · next t ht =>
      obtain ⟨copy, hcopy, hrest⟩ := bind_eq_ok.1 hc
      obtain ⟨hin, hout⟩ := ih hrest
      refine ⟨fun n hn => ?_, fun n hn => ?_⟩
      · by_cases hmem : n ∈ names
        · exact hin n hmem
        · obtain rfl : n = name := (mem_cons.1 hn).resolve_right hmem
          rw [hout n hmem, get_set_self, ht, (cloneOrCopyFile_eq hcopy).1]
      · obtain ⟨hne, hmem⟩ := not_or.1 (mt mem_cons.2 hn)
        rw [hout n hmem, get_set_ne (Ne.symm hne)]

/-- The state copied: files as they were, and the host-share state with its directories'
    modes replaced. -/
theorem copyState_get {names : List Name} (hc : h.copyState names src = .ok dst) :
    (∀ n ∈ names, n ≠ HOST_SHARE_STATE → get n dst = get n src) ∧
      (get HOST_SHARE_STATE src = none → HOST_SHARE_STATE ∉ names → get HOST_SHARE_STATE dst = none) ∧
      ∀ t, get HOST_SHARE_STATE src = some t →
        get HOST_SHARE_STATE dst = if h.sees t then some (t.withDirMode h.dirMode)
          else if HOST_SHARE_STATE ∈ names then some t else none := by
  obtain ⟨files, hfiles, hc⟩ := bind_eq_ok.1 hc
  obtain ⟨hin, hout⟩ := copyFiles_get hfiles
  have hshare : get HOST_SHARE_STATE files =
      if HOST_SHARE_STATE ∈ names then get HOST_SHARE_STATE src else none := by
    split
    · next hmem => exact hin _ hmem
    · next hmem => exact hout _ hmem
  unfold Host.copyShares at hc
  split at hc
  · next hnone =>
    cases hc
    refine ⟨fun n hn _ => hin n hn, fun _ hmem => ?_, fun t ht => ?_⟩
    · rw [hshare, if_neg hmem]
    · rw [hnone] at ht
      cases ht
  · next t ht =>
    split at hc
    · next hsees =>
      obtain ⟨copy, hcopy, hc⟩ := bind_eq_ok.1 hc
      cases hc
      refine ⟨fun n hn hne => ?_, fun hnone => ?_, fun t' ht' => ?_⟩
      · rw [get_set_ne (Ne.symm hne), hin n hn]
      · rw [ht] at hnone
        cases hnone
      · cases ht.symm.trans ht'
        rw [get_set_self, if_pos hsees, cloneOrCopyTree_eq hcopy]
    · next hsees =>
      cases hc
      refine ⟨fun n hn _ => hin n hn, fun hnone => ?_, fun t' ht' => ?_⟩
      · rw [ht] at hnone
        cases hnone
      · cases ht.symm.trans ht'
        rw [if_neg hsees, hshare, ht]

/-- A directory with the state copied has the source's host-share state exactly if the
    source carries it. -/
theorem sameSaved_iff {names : List Name}
    (hfile : HOST_SHARE_STATE ∈ names → ∃ b m, get HOST_SHARE_STATE src = some (.file b m))
    (hc : h.copyState names src = .ok staged)
    (hdst : ∀ n, n ∈ names ∨ n = HOST_SHARE_STATE → get n dst = get n staged) :
    SameSaved names src dst ↔ h.Carries names src := by
  obtain ⟨hfiles, hnone, hsome⟩ := copyState_get hc
  have hshares : get HOST_SHARE_STATE dst = get HOST_SHARE_STATE staged := hdst _ (.inr rfl)
  have hsame : get HOST_SHARE_STATE staged = get HOST_SHARE_STATE src ↔ h.Carries names src := by
    unfold Host.Carries
    cases ht : get HOST_SHARE_STATE src with
    | none =>
      have hmem : HOST_SHARE_STATE ∉ names := by
        intro hmem
        obtain ⟨b, m, hb⟩ := hfile hmem
        rw [ht] at hb
        cases hb
      simp [hnone ht hmem]
    | some t =>
      rw [hsome t ht]
      by_cases hmem : HOST_SHARE_STATE ∈ names
      · obtain ⟨b, m, hb⟩ := hfile hmem
        cases ht.symm.trans hb
        simp [hmem, Inode.withDirMode]
      · by_cases hsees : h.sees t = true
        · simp [hmem, hsees, Inode.withDirMode_eq_self_iff]
        · simp [hmem, hsees]
  refine ⟨fun hs => hsame.1 (hshares.symm.trans hs.shares), fun hcar => ⟨fun n hn => ?_, ?_⟩⟩
  · rw [hdst n (.inl hn)]
    by_cases hne : n = HOST_SHARE_STATE
    · rw [hne, hsame.2 hcar]
    · exact hfiles n hn hne
  · rw [hshares, hsame.2 hcar]

theorem publish_get (hp : h.publish S m staged = .ok dst) (hm : n ≠ MANIFEST) (hpin : n ≠ PIN) :
    get n dst = get n staged := by
  simp only [Host.publish] at hp
  split at hp
  · cases hp
  · cases hp
    rw [get_set_ne (Ne.symm hpin), get_set_ne (Ne.symm hm)]

/-- What a copy of a disk and its host-share state is published as. -/
theorem sameSaved_publish_iff (hc : h.copyState [ROOTFS] src = .ok staged)
    (hp : h.publish S m staged = .ok dst) :
    SameSaved [ROOTFS] src dst ↔ h.Carries [ROOTFS] src := by
  refine sameSaved_iff (fun hmem => ?_) hc fun n hn => ?_
  · exact absurd (mem_singleton.1 hmem) (by decide)
  · refine publish_get hp ?_ ?_
    · rintro rfl
      simp [MANIFEST, ROOTFS, HOST_SHARE_STATE] at hn
    · rintro rfl
      simp [PIN, ROOTFS, HOST_SHARE_STATE] at hn

/-- What one entry of the source becomes in an import. -/
def Host.importOf (h : Host) (name : Name) : Inode → Option Inode
  | .file bytes mode => if name ≠ MANIFEST ∧ name ≠ PIN then some (.file bytes mode) else none
  | .dir mode entries =>
    if name = HOST_SHARE_STATE then some ((Inode.dir mode entries).withDirMode h.dirMode) else none
  | .symlink _ => none

theorem importEntry_eq {name : Name} {t : Inode} (hi : h.importEntry name t dst = .ok dst') :
    dst' = match h.importOf name t with
      | some u => set name u dst
      | none => dst := by
  cases t with
  | file bytes mode =>
    simp only [Host.importEntry] at hi
    simp only [importOf]
    split at hi
    · next hn =>
      obtain ⟨copy, hcopy, hi⟩ := bind_eq_ok.1 hi
      cases hi
      rw [if_pos hn, (cloneOrCopyFile_eq hcopy).1]
    · next hn =>
      cases hi
      rw [if_neg hn]
  | dir mode entries =>
    simp only [Host.importEntry] at hi
    simp only [importOf]
    split at hi
    · next hn =>
      obtain ⟨copy, hcopy, hi⟩ := bind_eq_ok.1 hi
      cases hi
      rw [if_pos hn, cloneOrCopyTree_eq hcopy]
    · next hn =>
      cases hi
      rw [if_neg hn]
  | symlink target =>
    cases hi
    rfl

theorem importEntries_get {es : List (Name × Inode)} (hnd : (names es).Nodup)
    (hi : h.importEntries es dst = .ok dst') (n : Name) :
    get n dst' = ((get n es).bind (h.importOf n)).or (get n dst) := by
  induction es generalizing dst with
  | nil =>
    cases hi
    rfl
  | cons e es ih =>
    obtain ⟨name, t⟩ := e
    obtain ⟨hnot, hnd⟩ := nodup_cons.1 hnd
    obtain ⟨mid, hmid, hi⟩ := bind_eq_ok.1 hi
    rw [ih hnd hi, importEntry_eq hmid]
    by_cases hn : name = n
    · subst hn
      have hrest : Assoc.get name es = none := Assoc.get_eq_none_iff.2 hnot
      cases hof : h.importOf name t <;> simp [hrest, hof]
    · cases hof : h.importOf name t <;> simp [hn, Assoc.get_set_ne]

/-- `import_dir`. -/
theorem importDir_sameSaved_iff {source : List (Name × Inode)} (hnd : (names source).Nodup)
    (hi : h.importDir S m source = .ok dst) :
    SameSaved (Imported source) source dst ↔ h.Imports source := by
  obtain ⟨staged, hstaged, hp⟩ := bind_eq_ok.1 hi
  have hget : ∀ n, get n staged = (get n source).bind (h.importOf n) := fun n => by
    simpa using importEntries_get hnd hstaged n
  have hshares : get HOST_SHARE_STATE dst =
      (get HOST_SHARE_STATE source).bind (h.importOf HOST_SHARE_STATE) :=
    (publish_get hp (by decide) (by decide)).trans (hget _)
  have hsame : get HOST_SHARE_STATE dst = get HOST_SHARE_STATE source ↔ h.Imports source := by
    rw [hshares]
    unfold Host.Imports
    cases ht : get HOST_SHARE_STATE source with
    | none => simp
    | some t =>
      cases t with
      | file bytes mode => simp [importOf, MANIFEST, PIN, HOST_SHARE_STATE, Inode.Dirs.file]
      | symlink target => simp [importOf]
      | dir mode entries => simp [importOf, Inode.withDirMode_eq_self_iff]
  refine ⟨fun hs => hsame.1 hs.shares, fun him => ⟨fun n hn => ?_, hsame.2 him⟩⟩
  obtain ⟨-, hn⟩ := mem_filter.1 hn
  split at hn
  · next b mode hb =>
    obtain ⟨hm, hpin⟩ := of_decide_eq_true hn
    rw [publish_get hp hm hpin, hget, hb]
    simp [importOf, hm, hpin]
  · cases hn

end copies

/-! ## Operations that fail -/

/-- The record is still `record`, or it names a complete generation that `w₀` did not
    have, and the instance is stopped. -/
def Decided (S : Store) (record : Record) (w₀ w : World) : Prop :=
  S.recordOf w = some record ∨
    ∃ id, w₀.peek (generationDir id) = none ∧
      S.recordOf w = some ⟨RECORD_VERSION, some id, .stopped⟩ ∧ S.Complete id w

/-- What is kept while `id` is made the latest generation. -/
structure Deciding (S : Store) (record : Record) (id : GenerationId) (w : World) : Prop where
  complete : S.Complete id w
  latest : S.recordOf w = some record ∨ S.recordOf w = some ⟨RECORD_VERSION, some id, .stopped⟩

section failures

variable {S : Store} {record : Record} {id : GenerationId} {w₀ w : World} {keep : List GenerationId}

theorem reads_recordOf (r : Record) : OnlyReads keep (fun w => S.recordOf w = some r) :=
  fun _ _ hr hpeek _ => Store.recordOf_of_peek (hpeek _ .record) hr

theorem reads_deciding : OnlyReads [id] (Deciding S record id) := fun _ _ h hpeek hd => {
  complete := reads_complete (by simp) h.complete hpeek hd
  latest := h.latest.imp (reads_recordOf record · hpeek hd) (reads_recordOf _ · hpeek hd) }

theorem Deciding.decided (hnew : w₀.peek (generationDir id) = none) (h : Deciding S record id w) :
    Decided S record w₀ w :=
  h.latest.imp (fun h => h) fun hr => ⟨id, hnew, hr, h.complete⟩

theorem aside_staging (g : GenerationId) : Aside [] (stagingDir g) := by
  intro x hx
  cases hx with
  | record => exact (inert_staging g).state
  | ref hext => exact Tree.apart_of_ne (by decide) _ _
  | generation hg => cases hg

theorem aside_generation (g : GenerationId) : Aside [] (generationDir g) := by
  intro x hx
  cases hx with
  | record => exact (state_apart_generationDir g).symm
  | ref hext => exact Tree.apart_of_ne (by decide) _ _
  | generation hg => cases hg

/-- Nothing is different to look at. -/
structure Alike (w w' : World) : Prop where
  peek : ∀ p, w'.peek p = w.peek p
  distinct : w.top.Distinct ∧ w.runs.Distinct → w'.top.Distinct ∧ w'.runs.Distinct

/-- A function that changes nothing keeps everything. -/
theorem closed_alike {J : World → Prop} (hJ : OnlyReads keep J) :
    Closed (keeping J) (fun _ => False) Alike where
  refl _ := ⟨fun _ => rfl, fun h => h⟩
  trans h₁ h₂ := ⟨fun p => (h₂.peek p).trans (h₁.peek p), fun h => h₂.distinct (h₁.distinct h)⟩
  guest h := by
    refine ⟨fun p => h.pins.peek p, ?_⟩
    obtain ⟨_, -, rfl⟩ := h.pins
    exact fun h => h
  edit h he := ⟨fun x => h.peek_eq fun p hp => (he p hp).elim, h.distinct⟩
  mkdir _ hp := hp.elim
  append hp := hp.elim
  step h hw := hJ hw (fun x _ => h.peek x) h.distinct
  fail _ h := h

variable {edits : List { t : Dir // t.Distinct }} {parent : Option GenerationId}

section before

variable (hw : S.recordOf w = some record)

include hw

/-- Up to the commit, the record is what every step keeps. -/
theorem does_before {α : Type} {p : Io α} {post : α → World → Prop}
    (h : Does (keeping fun w => S.recordOf w = some record) post p w) :
    Does (keeping (Decided S record w₀)) post p w := by
  have hreads : OnlyReads [] fun w => S.recordOf w = some record := reads_recordOf record
  exact does_stronger hreads (fun _ => .inl) h hw

section

variable (hg : ∀ g, w.peek (generationDir g) = w₀.peek (generationDir g))

include hg

theorem requireRecord_before :
    Does (keeping (Decided S record w₀)) (fun r w' => S.recordOf w' = some record ∧ r = record ∧
      ∀ g, w'.peek (generationDir g) = w₀.peek (generationDir g)) S.requireRecord w := by
  have hK := @closed_alike [] _ (reads_recordOf (S := S) record)
  refine does_before hw (does_post (requireRecord_does hK trivial (hK.refl w)) fun r w' h => ?_)
  have hw' : S.recordOf w' = some record := Store.recordOf_of_peek (h.1.peek _) hw
  exact ⟨hw', Option.some.inj (h.2.symm.trans hw'), fun g => (h.1.peek _).trans (hg g)⟩

theorem generation_before {g : GenerationId} :
    Does (keeping (Decided S record w₀)) (fun _ w' => S.recordOf w' = some record ∧
      ∀ g, w'.peek (generationDir g) = w₀.peek (generationDir g)) (S.generation g) w := by
  have hK := @closed_alike [] _ (reads_recordOf (S := S) record)
  refine does_before hw (does_post (generation_does hK trivial (hK.refl w)) fun r w' h => ?_)
  exact ⟨Store.recordOf_of_peek (h.1.peek _) hw, fun g => (h.1.peek _).trans (hg g)⟩

/-- `stage` finds an id that no generation had. -/
theorem stage_before :
    Does (keeping (Decided S record w₀)) (fun id w' => S.recordOf w' = some record ∧
      w₀.peek (generationDir id) = none) Store.stage w := by
  have hJ : OnlyReads [] (fun w => S.recordOf w = some record) := reads_recordOf record
  have hK := closed_keeping hJ
  refine does_before hw (does_bind (Q := fun id w' => S.recordOf w' = some record ∧
    w₀.peek (generationDir id) = none) ?_ fun id w₁ h₁ => ?_)
  · rintro w₁ hguest id w₂ ⟨-, hu, rfl⟩
    refine ⟨fun h => h, hJ.pins hguest.pins hw, ?_⟩
    have habsent : w₂.get (generationDir id) = none := by simpa [generationDir] using hu.1 ""
    rw [← hg, ← hguest.pins.peek]
    exact World.peek_eq_none.2 habsent
  · refine does_bind (createDirAll_does hK trivial (aside_staging id) fun h => h) fun _ w₂ h₂ => ?_
    exact does_pure ⟨h₂.1 h₁.1, h₁.2⟩

end

theorem copyFiles_before {src : Path} {files : List (Name × ℕ)} :
    Does (keeping (Decided S record w₀)) (fun _ w' => S.recordOf w' = some record)
      (Store.copyFiles src (stagingDir id) files) w :=
  does_before hw (does_post (copyFiles_does (closed_keeping (reads_recordOf record)) trivial
    (aside_staging id) (inert_staging id).ne_nil fun h => h) fun _ _ h => h hw)

theorem cloneOrCopyFile_before {src : Path} :
    Does (keeping (Decided S record w₀)) (fun _ w' => S.recordOf w' = some record)
      (cloneOrCopyFile src (stagingDir id ++ [n])) w :=
  does_before hw (does_post (cloneOrCopyFile_does (closed_keeping (reads_recordOf record)) trivial
    (aside_staging id) (inert_staging id).ne_nil fun h => h) fun _ _ h => h.1 hw)

theorem copyShares_before {src : Path} :
    Does (keeping (Decided S record w₀)) (fun _ w' => S.recordOf w' = some record)
      (copyShares src (stagingDir id ++ [n])) w :=
  does_before hw (does_post (copyShares_does (closed_keeping (reads_recordOf record)) trivial
    (aside_staging id) (inert_staging id).ne_nil fun h => h) fun _ _ h => h.1 hw)

theorem runEdit_before {fails : Bool} :
    Does (keeping (Decided S record w₀)) (fun _ w' => S.recordOf w' = some record)
      (Store.runEdit (stagingDir id) edits fails) w := by
  have hJ : OnlyReads [] (fun w => S.recordOf w = some record) := reads_recordOf record
  have hK := closed_keeping hJ
  refine does_before hw (does_bind (Prog.ensures_forEach (I := fun _ w' => S.recordOf w' = some record)
    (fun t _ w₁ h₁ => ?_) edits hw) fun _ w₁ h₁ => ?_)
  · exact does_post (does_free_edit hK trivial (by simpa using aside_staging id) fun h => h)
      fun _ _ h => h.1 h₁
  · split_ifs
    · exact does_throw trivial
    · exact does_pure h₁

theorem publish_before {origin : Origin} :
    Does (keeping (Decided S record w₀)) (fun id' w' => id' = id ∧ S.recordOf w' = some record)
      (S.publish id parent origin) w := by
  have hJ : OnlyReads [] (fun w => S.recordOf w = some record) := reads_recordOf record
  have hK := closed_keeping hJ
  have hst := aside_staging id
  refine does_before hw (does_bind (look_does hK trivial fun h => h) fun t w₁ h₁ => ?_)
  split
  · exact does_throw trivial
  dsimp only
  split
  · exact does_throw trivial
  refine does_bind (Q := fun _ w' => S.recordOf w' = some record) ?_ fun nanos w₂ hw₂ => ?_
  · rintro w₂ hguest _ _ rfl
    exact ⟨fun h => h, hJ.pins hguest.pins (h₁.1 hw)⟩
  refine does_bind (writeFile_does hK trivial (hK.append hst _) fun h => h) fun _ w₃ h₃ => ?_
  refine does_bind (create_does hK trivial (hK.append hst _) h₃.1) fun _ w₄ h₄ => ?_
  refine does_bind (syncTree_does hK trivial h₄.1) fun _ w₅ h₅ => ?_
  refine does_bind (does_free_edit hK trivial (Edit.forall_rename hst (aside_generation id)) h₅.1)
    fun _ w₆ h₆ => ?_
  refine does_bind (sync_does hK trivial rfl h₆.1) fun _ w₇ h₇ => ?_
  exact does_pure ⟨rfl, h₇.1 hw₂⟩

end before

section

variable (hw : S.recordOf w = some record)

include hw

theorem commitLatest_decides (hnew : w₀.peek (generationDir id) = none) :
    Does (keeping (Decided S record w₀)) (fun _ _ => True) (S.commitLatest id) w := by
  have hJ : OnlyReads [id] (Deciding S record id) := reads_deciding
  have hrecord : OnlyReads [] (fun w => S.recordOf w = some record) := reads_recordOf record
  have hK := closed_keeping hrecord
  refine does_bind (does_before hw (generation_does hK trivial fun h => h)) fun G w₁ h₁ => ?_
  obtain ⟨hk₁, -, -, t, ht, hG⟩ := h₁
  have hw₁ : Deciding S record id w₁ := ⟨⟨G, by rw [World.look_eq_ok.2 ht]; exact hG⟩, .inl (hk₁ hw)⟩
  have hstopped : ∀ {w : World}, w.peek [STATE_FILE] = some (some (.file (S.recordJson.toVecPretty
      ⟨RECORD_VERSION, some id, .stopped⟩ ++ [10]))) →
      S.recordOf w = some ⟨RECORD_VERSION, some id, .stopped⟩ := fun h =>
    Store.recordOf_of_get (World.peek_eq_leaf.1 h) (readRecord_commit S _ _)
  refine does_bind (does_stronger hJ (fun _ => Deciding.decided hnew)
    (commitFile_keeps hJ (fun temp htemp => ⟨?_, ?_⟩) ?_ hw₁) hw₁) fun _ w₂ h₂ => ?_
  · exact aside_stateTemp temp
  · exact (inert_temp temp).runs
  · intro w w' h hpeek hput _
    refine ⟨h.complete.of_peek fun q => hpeek _ (.generation (by simp) q) fun hp => ?_, .inr (hstopped hput)⟩
    exact absurd (cons_prefix_cons.1 hp).1 (by decide)
  · have hlatest : S.StoppedAt id w₂ := ⟨_, hstopped h₂.2, rfl, rfl⟩
    refine does_bind (does_stronger hJ (fun _ => Deciding.decided hnew) (collectGarbage_keeps hJ
      (fun ref live hr => forall_mem_singleton.2 (hlatest.mem_roots hr)) h₂.1) h₂.1) fun _ _ _ => ?_
    exact does_pure trivial

theorem publishLatest_decides {α : Type} {f : GenerationId → α} {origin : Origin}
    (hnew : w₀.peek (generationDir id) = none) :
    Does (keeping (Decided S record w₀)) (fun _ _ => True)
      (do let id ← S.publish id parent origin; S.commitLatest id; pure (f id)) w := by
  refine does_bind (publish_before hw) fun id' w₁ h₁ => ?_
  obtain ⟨rfl, hw₁⟩ := h₁
  exact does_bind (commitLatest_decides hw₁ hnew) fun _ _ _ => does_pure trivial

theorem derive_decides {fails : Bool} :
    Does (keeping (Decided S record w)) (fun _ _ => True) (S.derive edits fails) w := by
  refine does_bind (requireRecord_before hw fun _ => rfl) fun record' w₁ h₁ => ?_
  split_ifs
  · exact does_throw trivial
  split
  · exact does_throw trivial
  refine does_bind (generation_before h₁.1 h₁.2.2) fun G w₂ h₂ => ?_
  refine does_bind (stage_before h₂.1 h₂.2) fun staging w₃ h₃ => ?_
  refine does_bind (copyFiles_before h₃.1) fun _ w₄ hw₄ => ?_
  refine does_bind (copyShares_before hw₄) fun _ w₅ hw₅ => ?_
  refine does_bind (runEdit_before hw₅) fun _ w₆ hw₆ => ?_
  exact publishLatest_decides (f := fun id => id) hw₆ h₃.2

theorem dropMemory_decides :
    Does (keeping (Decided S record w)) (fun _ _ => True) S.dropMemory w := by
  refine does_bind (requireRecord_before hw fun _ => rfl) fun record' w₁ h₁ => ?_
  split_ifs
  · exact does_throw trivial
  split
  · exact does_pure trivial
  refine does_bind (generation_before h₁.1 h₁.2.2) fun G w₂ h₂ => ?_
  split_ifs
  · refine does_bind (stage_before h₂.1 h₂.2) fun staging w₃ h₃ => ?_
    refine does_bind (cloneOrCopyFile_before h₃.1) fun _ w₄ hw₄ => ?_
    refine does_bind (copyShares_before hw₄) fun _ w₅ hw₅ => ?_
    exact publishLatest_decides (f := some) hw₅ h₃.2
  · exact does_pure trivial

theorem salvage_decides : Does (keeping (Decided S record w)) (fun _ _ => True) S.salvage w := by
  refine does_bind (requireRecord_before hw fun _ => rfl) fun record' w₁ h₁ => ?_
  split
  swap
  · exact does_throw trivial
  refine does_bind (stage_before h₁.1 h₁.2.2) fun staging w₂ h₂ => ?_
  refine does_bind (does_bind (cloneOrCopyFile_before h₂.1) fun _ w₃ hw₃ => copyShares_before hw₃) fun _ w₄ hw₄ => ?_
  exact publishLatest_decides (f := fun id => id) hw₄ h₂.2

end

end failures

/-- A run of `drop_memory`, `derive` or `salvage` that returns an error. -/
inductive Fails (S : Store) (w w' : World) : Prop
  | dropMemory {e : StoreError} : Prog.Runs (FsSem true) S.dropMemory w (.error e) w' → Fails S w w'
  | derive {edits : List { t : Dir // t.Distinct }} {fails : Bool} {e : StoreError} :
      Prog.Runs (FsSem true) (S.derive edits fails) w (.error e) w' → Fails S w w'
  | salvage {e : StoreError} : Prog.Runs (FsSem true) S.salvage w (.error e) w' → Fails S w w'

theorem Fails.decided {S : Store} {record : Record} {w w' : World} (hr : S.recordOf w = some record)
    (h : Fails S w w') : Decided S record w w' := by
  have hrun : ∀ {α : Type} {p : Io α} {r : Except StoreError α},
      Does (keeping (Decided S record w)) (fun _ _ => True) p w → Prog.Runs (FsSem true) p w r w' →
      Decided S record w w' := fun hp hrun =>
    Prog.meets_runs_guar hp hrun (guest_refl true) (fun _ h => h) (fun _ _ _ h₁ h₂ h => h₂ (h₁ h)) (.inl hr)
  cases h with
  | dropMemory h => exact hrun (dropMemory_decides hr) h
  | derive h => exact hrun (derive_decides hr) h
  | salvage h => exact hrun (salvage_decides hr) h

/-- What a copy of saved state keeps. Each of the six operations, when it makes a copy,
    gives it the files it is to have and, exactly if the condition holds, the whole
    host-share state: its root is found, and every directory in it has the mode that
    `mkdir` gives a new one. What `derive` hands to `edit` is such a copy, and the new
    generation is what `edit` makes of it. A `drop_memory`, `derive` or `salvage` that
    fails leaves the record as it was, or naming a complete new generation with the
    instance stopped. -/
theorem copies_preserve_iff (S : Store) (h : Host) (m : Stamp) :
    (∀ G dst, h.beginRun G = .ok dst →
      (SameSaved G.files G.entries dst ↔ h.Carries G.files G.entries)) ∧
    (∀ G dst, h.dropMemory S m G = .ok (some dst) →
      (SameSaved [ROOTFS] G.entries dst ↔ h.Carries [ROOTFS] G.entries)) ∧
    (∀ G staged, h.deriveStaging G = .ok staged →
      (SameSaved G.files G.entries staged ↔ h.Carries G.files G.entries) ∧
        ∀ edit, h.derive S m edit G = (do let edited ← edit staged; h.publish S m edited)) ∧
    (∀ work dst, h.salvage S m work = .ok dst →
      (SameSaved [ROOTFS] work dst ↔ h.Carries [ROOTFS] work)) ∧
    (∀ source dst, (names source).Nodup → h.importDir S m source = .ok dst →
      (SameSaved (Imported source) source dst ↔ h.Imports source)) ∧
    (∀ G dst, h.export G = .ok dst →
      (SameSaved (G.files ++ [MANIFEST, PIN]) G.entries dst ↔ h.Carries G.files G.entries)) ∧
    ∀ record w w', S.recordOf w = some record → Fails S w w' → Decided S record w w' := by
  have hstate : ∀ (G : Saved) dst, h.copyState G.files G.entries = .ok dst →
      (SameSaved G.files G.entries dst ↔ h.Carries G.files G.entries) := fun G dst hc =>
    sameSaved_iff (G.listed HOST_SHARE_STATE) hc fun _ _ => rfl
  refine ⟨hstate, fun G dst hc => ?_, fun G staged hc => ⟨hstate G staged hc, fun edit => ?_⟩,
    fun work dst hc => ?_, fun source dst hnd hc => importDir_sameSaved_iff hnd hc, fun G dst hc => ?_,
    fun record w w' hr hf => hf.decided hr⟩
  · unfold Host.dropMemory at hc
    split at hc
    · obtain ⟨staged, hstaged, hc⟩ := bind_eq_ok.1 hc
      obtain ⟨published, hpublished, hc⟩ := bind_eq_ok.1 hc
      cases hc
      exact sameSaved_publish_iff hstaged hpublished
    · cases hc
  · rw [Host.derive, hc]
    rfl
  · obtain ⟨staged, hstaged, hc⟩ := bind_eq_ok.1 hc
    exact sameSaved_publish_iff hstaged hc
  · have hmem : HOST_SHARE_STATE ∈ G.files ++ [MANIFEST, PIN] ↔ HOST_SHARE_STATE ∈ G.files := by
      simp [MANIFEST, PIN, HOST_SHARE_STATE]
    refine (sameSaved_iff (fun hm => G.listed _ (hmem.1 hm)) hc fun _ _ => rfl).trans ?_
    simp only [Host.Carries, hmem]

/-- A system with the usual umask, on which nothing fails. -/
def usualHost : Host := ⟨0o022#12, fun _ => none, fun _ => true⟩

/-- A generation of one byte whose host-share state is an empty directory. -/
def sharing (mode : Perm) : Saved where
  entries := [(ROOTFS, .file [0] 0o644#12), (HOST_SHARE_STATE, .dir mode [])]
  files := [ROOTFS]
  listed := by
    intro name hname
    obtain rfl := mem_singleton.1 hname
    exact ⟨[0], 0o644#12, rfl⟩
  rootfs := by simp

theorem copies_preserve_default :
    SameSaved [ROOTFS] (sharing 0o755#12).entries (sharing 0o755#12).entries :=
  ((copies_preserve_iff plainStore usualHost ⟨generationIdOf 0, none, .image, 0⟩).1 (sharing 0o755#12) _ rfl).2
    fun t ht => by
      cases ht
      exact .inr ⟨rfl, .dir (by simp)⟩

/-- A directory that only its owner may read is copied as one that all may read: the run
    that `begin_run` prepares has another host-share state than its generation. -/
theorem copy_may_change_modes :
    ∃ dst, usualHost.beginRun (sharing 0o700#12) = .ok dst ∧
      get HOST_SHARE_STATE dst = some (.dir 0o755#12 []) ∧
      ¬ SameSaved [ROOTFS] (sharing 0o700#12).entries dst := by
  refine ⟨_, rfl, rfl, fun hs => ?_⟩
  have hmode := hs.shares
  simp [sharing, ROOTFS, HOST_SHARE_STATE, usualHost, dirMode] at hmode

end Lnx
