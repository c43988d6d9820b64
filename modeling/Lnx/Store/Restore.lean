import Lnx.Store.Collection
import Lnx.Store.System

/-!
# Restoring a checkpoint

Model of `restore` (`checkpoints.rs`, lines 149–184): recover, keep the latest
generation under a reference named `before-restore`, make the checkpoint's generation
the latest, and remove the older references of that name. Every call of it may fail, a
process may die after any of its steps, and pins are taken and dropped all the time.

* `Undoable`: what holds after each step. The record names the generation that was
  the latest or the one restored, and in the second case a reference names the first;
  the first has not changed.
* `restore_can_be_undone`: it holds in every run of restores and recoveries, and a
  restore that replaced something leaves exactly one reference named `before-restore`,
  to what it replaced.
-/

namespace Lnx

open List World Store Prog

variable {id : String} {before : CheckpointRef} {w w' : World} {g : GenerationId}

/-- The name of the checkpoint `restore` keeps the replaced state under. -/
def BEFORE_RESTORE : String := "before-restore"

namespace Store

variable (S : Store)

/-- The body of the loop at the end of `restore`. -/
def removeIfOlder (before older : CheckpointRef) : Io Unit :=
  if older.name = some BEFORE_RESTORE ∧ older.id ≠ before.id then S.removeCheckpoint older.id
  else pure ()

/-- The loop at the end of `restore`. -/
def removeOlder (before : CheckpointRef) : List CheckpointRef → Io Unit
  | [] => pure ()
  | older :: rest => do
    S.removeIfOlder before older
    removeOlder before rest

/-- `restore` of `checkpoint`, under the instance lock. `id` and `createdUnix` are what
    `new_id` and `now_unix` return. -/
def restore (checkpoint : CheckpointRef) (id : String) (createdUnix : ℕ) : Io (Option CheckpointRef) := do
  let _ ← S.recover
  let record ← S.record
  match record.bind Record.latest with
  | none => throw .noSavedState
  | some previous =>
    if previous = checkpoint.generation then pure none
    else do
      let before : CheckpointRef := ⟨id, some BEFORE_RESTORE, previous, createdUnix⟩
      S.addCheckpoint before
      S.commitLatest checkpoint.generation
      let all ← S.checkpoints
      S.removeOlder before all
      pure (some before)

/-- The instance is stopped and `g` is its latest generation. -/
def StoppedAt (g : GenerationId) (w : World) : Prop :=
  ∃ record, S.recordOf w = some record ∧ record.phase = .stopped ∧ record.latest = some g

/-- `checkpoints/<id>.ref` holds `ref`. -/
def HoldsRef (ref : CheckpointRef) (w : World) : Prop :=
  validComponent ref.id = true ∧ ∃ b, w.peek [CHECKPOINTS_DIR, ref.id ++ ".ref"] = some (some (.file b)) ∧
    S.refJson.fromSlice b = some ref

/-- `Store::generation` finds `g` complete. -/
def Complete (g : GenerationId) (w : World) : Prop :=
  ∃ G, S.checkGeneration g (w.look (generationDir g)) = .ok G

/-- References are kept under their own ids. -/
def Named (w : World) : Prop :=
  ∀ n b ref, extension n = some "ref" → w.peek [CHECKPOINTS_DIR, n] = some (some (.file b)) →
    S.refJson.fromSlice b = some ref → n = ref.id ++ ".ref"

/-- A stopped instance with the complete generation `g` as its latest. -/
structure Sound (g : GenerationId) (w : World) : Prop where
  stopped : S.StoppedAt g w
  complete : S.Complete g w
  named : S.Named w
  distinct : w.top.Distinct ∧ w.runs.Distinct

end Store

/-! ## File names -/

theorem span_append_dot {l r : List Char} (h : '.' ∉ l) :
    (l ++ '.' :: r).span (· ≠ '.') = (l, '.' :: r) := by
  rw [span_eq_takeWhile_dropWhile, takeWhile_append_of_pos, dropWhile_append_of_pos]
  · simp
  all_goals exact fun c hc => by simpa using fun he : c = '.' => h (he ▸ hc)

theorem extension_ref (h : validComponent id = true) : extension (id ++ ".ref") = some "ref" := by
  have hne : id.toList ≠ [] := by
    intro he
    simp [validComponent, he] at h
  have hrev : (id ++ ".ref").toList.reverse = ['f', 'e', 'r'] ++ '.' :: id.toList.reverse := by
    simp
  unfold extension
  rw [hrev, span_append_dot (by decide)]
  cases hid : id.toList.reverse with
  | nil => exact absurd (reverse_eq_nil_iff.1 hid) hne
  | cons c l => rfl

variable {name : Name} {r : Except IoError Unit}

/-- No temporary file is taken for a reference. -/
theorem extension_temp (h : '.' ∉ id.toList) : extension (name ++ ".tmp-" ++ id) ≠ some "ref" := by
  have hrev : (name ++ ".tmp-" ++ id).toList.reverse =
      (id.toList.reverse ++ ['-', 'p', 'm', 't']) ++ '.' :: name.toList.reverse := by
    simp
  unfold extension
  rw [hrev, span_append_dot (by simpa using h)]
  cases name.toList.reverse with
  | nil => exact nofun
  | cons c l =>
    intro he
    have hlist := congrArg String.toList (Option.some.inj he)
    simp at hlist

/-! ## What `checkpoints` lists -/

theorem World.get_checkpoint (w : World) (n : Name) :
    w.get [CHECKPOINTS_DIR, n] = (w.get [CHECKPOINTS_DIR]).bind fun d => d.get [n] :=
  get_append (p := [CHECKPOINTS_DIR]) (by simp) [n]

theorem not_below_of_ne {n m : Name} (h : m ≠ n) : ¬ [CHECKPOINTS_DIR, n] <+: [CHECKPOINTS_DIR, m] :=
  fun hpre => h (cons_prefix_cons.1 (cons_prefix_cons.1 hpre).2).1.symm

section

variable {S : Store} {refs : List CheckpointRef}

theorem Store.mem_readRefs {isDir : GenerationId → Bool} {es : List (Name × Dir)}
    (h : S.readRefs isDir es = .ok refs) {ref : CheckpointRef} :
    ref ∈ refs ↔ ∃ n b, (n, Tree.leaf (.file b)) ∈ es ∧ extension n = some "ref" ∧
      S.refJson.fromSlice b = some ref ∧ isDir ref.generation = true := by
  induction es generalizing refs with
  | nil =>
    cases h
    simp
  | cons e es ih =>
    obtain ⟨name, t⟩ := e
    have hcons : (∃ n b, (n, Tree.leaf (.file b)) ∈ (name, t) :: es ∧ extension n = some "ref" ∧
        S.refJson.fromSlice b = some ref ∧ isDir ref.generation = true) ↔
        (extension name = some "ref" ∧ readJson S.refJson [CHECKPOINTS_DIR, name] (.ok t) = .ok (some ref) ∧
          isDir ref.generation = true) ∨
        ∃ n b, (n, Tree.leaf (.file b)) ∈ es ∧ extension n = some "ref" ∧
          S.refJson.fromSlice b = some ref ∧ isDir ref.generation = true := by
      simp only [readJson_eq_some, mem_cons]
      constructor
      · rintro ⟨n, b, he | hin, hext, hb, hdir⟩
        · cases he
          exact .inl ⟨hext, ⟨b, rfl, hb⟩, hdir⟩
        · exact .inr ⟨n, b, hin, hext, hb, hdir⟩
      · rintro (⟨hext, ⟨b, hb, hp⟩, hdir⟩ | ⟨n, b, hin, hrest⟩)
        · cases hb
          exact ⟨name, b, .inl rfl, hext, hp, hdir⟩
        · exact ⟨n, b, .inr hin, hrest⟩
    rw [hcons]
    simp only [readRefs] at h
    split_ifs at h with hext
    · split at h
      · cases h
      · next hnone => simp [ih h, hnone]
      · next c hc =>
        split at h
        · cases h
        · next rest hrest =>
          rw [← ih hrest, hc]
          split_ifs at h with hdir
          · cases h
            simp only [mem_cons, hext, true_and, Except.ok.injEq, Option.some.injEq]
            refine or_congr_left ⟨?_, fun h => h.1.symm⟩
            rintro rfl
            exact ⟨rfl, hdir⟩
          · cases h
            simp only [hext, true_and, Except.ok.injEq, Option.some.injEq]
            refine ⟨.inr, fun h => h.resolve_left ?_⟩
            rintro ⟨rfl, h⟩
            exact hdir h
    · rw [ih h]
      simp [hext]

theorem Store.mem_refsIn (hd : w.top.Distinct ∧ w.runs.Distinct)
    (h : S.refsIn (w.look [CHECKPOINTS_DIR]) (w.look [GENERATIONS_DIR]) = .ok refs)
    {ref : CheckpointRef} :
    ref ∈ refs ↔ ∃ n b, extension n = some "ref" ∧ w.peek [CHECKPOINTS_DIR, n] = some (some (.file b)) ∧
      S.refJson.fromSlice b = some ref ∧ w.peek (generationDir ref.generation) = some none := by
  unfold refsIn at h
  split at h
  · next hl =>
    cases h
    simp only [not_mem_nil, false_iff]
    rintro ⟨n, b, -, hpeek, -⟩
    rw [peek_eq_leaf, get_checkpoint, get_of_look_error hl] at hpeek
    cases hpeek
  · cases h
  · cases h
  · next es hl =>
    split at h
    · cases h
    · next rs hrs =>
      cases h
      have hget := look_eq_ok.1 hl
      have hes : (Assoc.names es).Nodup := by
        cases get_distinct hd hget with
        | node hnodup _ => exact hnodup
      simp only [mem_insertionSort, mem_readRefs hrs, hasDir_iff]
      refine exists_congr fun n => exists_congr fun b => ?_
      have hmem : (n, Tree.leaf (.file b)) ∈ es ↔ w.peek [CHECKPOINTS_DIR, n] = some (some (.file b)) := by
        rw [peek_eq_leaf, get_checkpoint, hget, Option.bind_some, Tree.get_node_cons]
        constructor
        · intro hin
          simp [Assoc.get_of_mem hes hin]
        · intro hin
          obtain ⟨c, hc, hin⟩ := Option.bind_eq_some_iff.1 hin
          cases hin
          exact Assoc.mem_of_get hc
      tauto

end

/-! ## States a call keeps -/

/-- The paths `restore` depends on: the record, the references, and all of the
    generations that are to be kept. -/
inductive Watched (keep : List GenerationId) : Path → Prop
  | record : Watched keep [STATE_FILE]
  | ref {n : Name} : extension n = some "ref" → Watched keep [CHECKPOINTS_DIR, n]
  | generation {g : GenerationId} (hg : g ∈ keep) (q : Path) : Watched keep (generationDir g ++ q)

/-- `J` is about the watched paths only. -/
def OnlyReads (keep : List GenerationId) (J : World → Prop) : Prop :=
  ∀ ⦃w w'⦄, J w → (∀ x, Watched keep x → w'.peek x = w.peek x) →
    (w.top.Distinct ∧ w.runs.Distinct → w'.top.Distinct ∧ w'.runs.Distinct) → J w'

/-- Paths apart from all that is watched. -/
def Aside (keep : List GenerationId) (p : Path) : Prop := ∀ x, Watched keep x → Tree.Apart p x

/-- Calls may fail at any time, and each step keeps `J`. -/
def keeping (J : World → Prop) : Setting where
  faults := true
  still := true
  step w w' := J w → J w'
  fail _ := True
  refl _ h := h

theorem Guest.pins (h : Guest true w w') : Pins false w w' := by
  obtain ⟨rs, held, rfl | ⟨hf, -⟩, rfl⟩ := h
  · exact ⟨held, nofun, rfl⟩
  · cases hf

section

variable {keep : List GenerationId} {J : World → Prop} (hJ : OnlyReads keep J)

include hJ

theorem OnlyReads.pins (h : Pins false w w') (hw : J w) : J w' := by
  refine hJ hw (fun x _ => h.peek x) fun hd => ?_
  obtain ⟨_, -, rfl⟩ := h
  exact hd

theorem OnlyReads.edit {e : Edit} (h : EditSem true e w r w') (he : ∀ p ∈ e.footprint, Aside keep p)
    (hw : J w) : J w' :=
  hJ hw (fun x hx => h.peek_eq fun p hp => (he p hp x hx).1) h.distinct

theorem OnlyReads.mkdir {p : Path} (h : EditSem true (.mkdir p) w r w')
    (hp : ∀ x, Watched keep x → ¬ x <+: p) (hw : J w) : J w' :=
  hJ hw (fun x hx => by rw [peek, peek, h.get_of_mkdir (hp x hx)]) h.distinct

theorem closed_keeping : Closed (keeping J) (Aside keep) (fun w w' => J w → J w') where
  refl _ h := h
  trans h₁ h₂ h := h₂ (h₁ h)
  guest h := hJ.pins h.pins
  edit h he := hJ.edit h he
  mkdir h hp hq _ := hJ.mkdir h fun x hx hxq => (hp x hx).2 (hxq.trans hq)
  append hp q x hx := (hp x hx).append_left q
  step h := h
  fail _ h := h

/-- With `J` kept, `commit_file` keeps it if putting the file in place does. -/
theorem commitFile_keeps {parent : Path} {contents : Bytes}
    (htemp : ∀ id : String, '.' ∉ id.toList → Aside keep (parent ++ [name ++ ".tmp-" ++ id]) ∧
      (parent ++ [name ++ ".tmp-" ++ id]).head? ≠ some RUNS_DIR)
    (hput : ∀ w w', J w → (∀ x, Watched keep x → ¬ parent ++ [name] <+: x → w'.peek x = w.peek x) →
      w'.peek (parent ++ [name]) = some (some (.file contents)) →
      (w.top.Distinct ∧ w.runs.Distinct → w'.top.Distinct ∧ w'.runs.Distinct) → J w')
    (hw : J w) :
    Does (keeping J) (fun _ w' => J w' ∧ w'.peek (parent ++ [name]) = some (some (.file contents)))
      (commitFile parent name contents) w := by
  have hK := closed_keeping hJ
  refine does_bind (Q := fun id w' => '.' ∉ id.toList ∧ J w') ?_ fun id w₁ h₁ => ?_
  · rintro w₁ hg r w₂ ⟨hdot, rfl⟩
    exact ⟨fun h => h, hdot, hJ.pins hg.pins hw⟩
  obtain ⟨ht, htop⟩ := htemp id h₁.1
  refine does_tryCatch ?_ fun e w' _ => cleanup_does hK ht trivial
  refine does_bind (writeTemp_does hK trivial ht (fun h => h)) fun _ w₂ h₂ => ?_
  refine does_bind (Q := fun _ w' => J w' ∧ w'.peek (parent ++ [name]) = some (some (.file contents)))
    (does_attempt_edit fun w₃ r w₄ hg he => ?_) fun _ w₃ h₃ => ?_
  · have hw₃ : J w₃ := hJ.pins hg.pins (h₂.1 h₁.2)
    have hcontents : w₃.peek _ = some (some (.file contents)) := (hg.peek htop).trans (h₂.2.1 htop)
    have hdst : r = .ok () → w₄.peek (parent ++ [name]) = some (some (.file contents)) := by
      rintro rfl
      cases he with
      | done h =>
        obtain ⟨t, x, hsrc, hx, rfl, -⟩ := Edit.rename_eq_ok h
        rw [peek_eq_leaf.1 hcontents] at hsrc
        cases hsrc
        rw [peek_withDisk, peek_eq_leaf]
        show x.get (parent ++ [name]) = _
        exact get_put_self hx
    have hw₄ : J w₄ := by
      cases r with
      | error x =>
        cases he with
        | refused h | fault h => exact hw₃
      | ok u =>
        exact hput w₃ w₄ hw₃ (fun x hx hnot => he.peek_eq (Edit.forall_rename (ht x hx).1 hnot)) (hdst rfl)
          he.distinct
    exact ⟨fun _ => hw₄, fun hr => ⟨hw₄, hdst hr⟩, fun _ _ => trivial⟩
  · refine does_attempt_edit fun w₄ r w₅ hg he => ?_
    have hw₄ : J w₄ := hJ.pins hg.pins h₃.1
    have hw₅ : J w₅ := hJ.edit he (by simp) hw₄
    refine ⟨fun _ => hw₅, fun _ => ⟨hw₅, ?_⟩, fun _ _ => trivial⟩
    rw [he.peek_eq (by simp), hg.pins.peek]
    exact h₃.2

end

/-! ## What is kept -/

section

variable (S : Store) (prev target : GenerationId) (w₀ : World)

/-- The generation that was the latest is as it was, and the references are in order. -/
structure Preserves (w : World) : Prop where
  kept : ∀ q, w.peek (generationDir prev ++ q) = w₀.peek (generationDir prev ++ q)
  named : S.Named w
  distinct : w.top.Distinct ∧ w.runs.Distinct

/-- `prev` is still the latest generation. -/
structure Unchanged (w : World) : Prop extends Preserves S prev w₀ w where
  latest : S.StoppedAt prev w

/-- And `before` is in place. -/
structure Noted (before : CheckpointRef) (w : World) : Prop extends Unchanged S prev w₀ w where
  holds : S.HoldsRef before w

/-- `before` is in place, and `target` can be made the latest. -/
structure Referenced (before : CheckpointRef) (w : World) : Prop extends Preserves S prev w₀ w where
  holds : S.HoldsRef before w
  complete : S.Complete target w
  latest : S.StoppedAt prev w ∨ S.StoppedAt target w

/-- `target` is the latest generation, and `before` is in place. -/
structure Restored (before : CheckpointRef) (w : World) : Prop extends Preserves S prev w₀ w where
  holds : S.HoldsRef before w
  complete : S.Complete target w
  latest : S.StoppedAt target w

/-- What the store is left with after each step of a `restore` of `target`: `prev` has
    not changed, and it is still the latest generation or, with `target` the latest and
    complete, a reference names it. -/
def Undoable (w : World) : Prop :=
  Unchanged S prev w₀ w ∨ ∃ ref, ref.generation = prev ∧ Restored S prev target w₀ ref w

end

section

variable {S : Store} {prev target : GenerationId} {w₀ : World} {keep : List GenerationId}

theorem Store.recordOf_of_peek {record : Record}
    (h : w'.peek [STATE_FILE] = w.peek [STATE_FILE]) (hr : S.recordOf w = some record) :
    S.recordOf w' = some record := by
  obtain ⟨b, hb⟩ := stateFile_of_recordOf hr
  refine recordOf_congr ?_ hr
  rw [peek_eq_leaf.2 hb] at h
  rw [hb, peek_eq_leaf.1 h]

theorem Store.StoppedAt.of_peek (hs : S.StoppedAt g w) (h : w'.peek [STATE_FILE] = w.peek [STATE_FILE]) :
    S.StoppedAt g w' :=
  hs.imp fun _ => .imp_left (recordOf_of_peek h)

theorem Store.HoldsRef.of_peek {ref : CheckpointRef} (hr : S.HoldsRef ref w)
    (h : extension (ref.id ++ ".ref") = some "ref" →
      w'.peek [CHECKPOINTS_DIR, ref.id ++ ".ref"] = w.peek [CHECKPOINTS_DIR, ref.id ++ ".ref"]) :
    S.HoldsRef ref w' := by
  obtain ⟨hvalid, b, hb, hp⟩ := hr
  exact ⟨hvalid, b, (h (extension_ref hvalid)).trans hb, hp⟩

theorem Store.Complete.dir (h : S.Complete g w) : w.peek (generationDir g) = some none := by
  obtain ⟨G, hG⟩ := h
  obtain ⟨d, b, m, hd, hm, -⟩ := checkGeneration_eq_ok.1 hG
  cases d with
  | leaf a => cases hm
  | node es => exact peek_eq_node.2 ⟨es, look_eq_ok.1 hd⟩

theorem Store.Complete.of_peek (h : S.Complete g w)
    (hpeek : ∀ q, w'.peek (generationDir g ++ q) = w.peek (generationDir g ++ q)) : S.Complete g w' := by
  have hdir' := hpeek []
  rw [append_nil, h.dir] at hdir'
  obtain ⟨es, hget⟩ := peek_eq_node.1 h.dir
  obtain ⟨es', hget'⟩ := peek_eq_node.1 hdir'
  obtain ⟨G, hG⟩ := h
  rw [look_eq_ok.2 hget] at hG
  refine ⟨G, ?_⟩
  rw [look_eq_ok.2 hget']
  refine checkGeneration_congr hG fun name _ => ?_
  rw [← peek_append (generationDir_ne_nil g) hget', ← peek_append (generationDir_ne_nil g) hget]
  exact hpeek [name]

theorem reads_stoppedAt (g : GenerationId) : OnlyReads keep (S.StoppedAt g) :=
  fun _ _ h hpeek _ => h.of_peek (hpeek _ .record)

theorem reads_holdsRef (ref : CheckpointRef) : OnlyReads keep (S.HoldsRef ref) :=
  fun _ _ h hpeek _ => h.of_peek fun hext => hpeek _ (.ref hext)

theorem reads_complete (hg : g ∈ keep) : OnlyReads keep (S.Complete g) :=
  fun _ _ h hpeek _ => h.of_peek fun q => hpeek _ (.generation hg q)

theorem reads_preserves (hg : prev ∈ keep) : OnlyReads keep (Preserves S prev w₀) := fun _ _ h hpeek hd => {
  kept := fun q => (hpeek _ (.generation hg q)).trans (h.kept q)
  named := fun n b ref hext hb hp => h.named n b ref hext ((hpeek _ (.ref hext)).symm.trans hb) hp
  distinct := hd h.distinct }

theorem reads_unchanged (hg : prev ∈ keep) : OnlyReads keep (Unchanged S prev w₀) := fun _ _ h hpeek hd => {
  toPreserves := reads_preserves hg h.toPreserves hpeek hd
  latest := reads_stoppedAt prev h.latest hpeek hd }

theorem reads_noted (hg : prev ∈ keep) : OnlyReads keep (Noted S prev w₀ before) :=
  fun _ _ h hpeek hd => ⟨reads_unchanged hg h.toUnchanged hpeek hd, reads_holdsRef before h.holds hpeek hd⟩

theorem reads_referenced : OnlyReads [prev, target] (Referenced S prev target w₀ before) := fun _ _ h hpeek hd => {
  toPreserves := reads_preserves (by simp) h.toPreserves hpeek hd
  holds := reads_holdsRef before h.holds hpeek hd
  complete := reads_complete (by simp) h.complete hpeek hd
  latest := h.latest.imp (reads_stoppedAt prev · hpeek hd) (reads_stoppedAt target · hpeek hd) }

theorem reads_restored : OnlyReads [prev, target] (Restored S prev target w₀ before) := fun _ _ h hpeek hd => {
  toPreserves := reads_preserves (by simp) h.toPreserves hpeek hd
  holds := reads_holdsRef before h.holds hpeek hd
  complete := reads_complete (by simp) h.complete hpeek hd
  latest := reads_stoppedAt target h.latest hpeek hd }

theorem reads_undoable : OnlyReads [prev, target] (Undoable S prev target w₀) := fun _ _ h hpeek hd =>
  h.imp (reads_unchanged (by simp) · hpeek hd) fun ⟨ref, hg, h⟩ => ⟨ref, hg, reads_restored h hpeek hd⟩

theorem Referenced.undoable (hb : before.generation = prev)
    (h : Referenced S prev target w₀ before w) : Undoable S prev target w₀ w :=
  h.latest.imp (fun hp => ⟨h.toPreserves, hp⟩) fun ht => ⟨before, hb, h.toPreserves, h.holds, h.complete, ht⟩

theorem Preserves.dir (h : Preserves S prev w₀ w) (hdir : w₀.peek (generationDir prev) = some none) :
    w.peek (generationDir prev) = some none := by
  have hkept := h.kept []
  exact hkept.trans hdir

variable {ref : List GenerationId} {live : Option RunId} {J : World → Prop}
  {all : List CheckpointRef}

/-- A collection counts the latest generation among what is referenced. -/
theorem Store.StoppedAt.mem_roots (h : S.StoppedAt g w) (hr : S.roots w = some (ref, live)) :
    g ∈ ref := by
  obtain ⟨record, refs, hrec, -, rfl, -⟩ := roots_eq_some.1 hr
  obtain ⟨record', hrec', -, hlatest⟩ := h
  cases hrec.symm.trans hrec'
  simp [hlatest]

/-- With `target` the latest, it counts `prev` for the reference. -/
theorem Restored.mem_roots (h : Restored S prev target w₀ before w) (hb : before.generation = prev)
    (hdir : w₀.peek (generationDir prev) = some none) (hr : S.roots w = some (ref, live)) :
    ∀ g ∈ [prev, target], g ∈ ref := by
  refine forall_mem_cons.2 ⟨?_, forall_mem_singleton.2 (h.latest.mem_roots hr)⟩
  obtain ⟨record, refs, -, hrefs, rfl, -⟩ := roots_eq_some.1 hr
  obtain ⟨hvalid, b, hbytes, hp⟩ := h.holds
  have hmem := (mem_refsIn h.distinct hrefs).2
    ⟨_, b, extension_ref hvalid, hbytes, hp, by rw [hb]; exact h.toPreserves.dir hdir⟩
  simp only [mem_append, mem_map]
  exact .inr ⟨before, hmem, hb⟩

theorem Cleans.peek_ref (h : Cleans false ref live w w') (n : Name) :
    w'.peek [CHECKPOINTS_DIR, n] = w.peek [CHECKPOINTS_DIR, n] := by
  rw [peek, peek, get_checkpoint, get_checkpoint, h.checkpoints]

/-- A collection that counts what is to be kept as referenced leaves what is watched. -/
theorem Cleans.peek_watched (h : Cleans false ref live w w') (hmem : ∀ g ∈ keep, g ∈ ref) {x : Path}
    (hx : Watched keep x) :
    w'.peek x = w.peek x := by
  cases hx with
  | record => exact h.frame _ fun h => h
  | ref hext => exact h.peek_ref _
  | generation hg q => exact h.referenced (hmem _ hg) q

/-- No generation and no reference is new. -/
structure Fewer (w w' : World) : Prop where
  dirs : ∀ g, w'.peek (generationDir g) = some none → w.peek (generationDir g) = some none
  refs : ∀ n, w'.peek [CHECKPOINTS_DIR, n] = w.peek [CHECKPOINTS_DIR, n] ∨ w'.peek [CHECKPOINTS_DIR, n] = none

theorem Fewer.trans {a b c : World} (h₁ : Fewer a b) (h₂ : Fewer b c) : Fewer a c where
  dirs g hg := h₁.dirs g (h₂.dirs g hg)
  refs n := by
    rcases h₂.refs n with h | h
    · rw [h]
      exact h₁.refs n
    · exact .inr h

theorem Fewer.of_pins (h : Pins false w w') : Fewer w w' where
  dirs _ hg := (h.peek _).symm.trans hg
  refs _ := .inl (h.peek _)

theorem collectGarbage_keeps (hJ : OnlyReads keep J)
    (hroots : ∀ ref live, S.roots w = some (ref, live) → ∀ g ∈ keep, g ∈ ref) (hw : J w) :
    Does (keeping J) (fun _ w' => J w' ∧ Fewer w w' ∧ (S.roots w').isSome) S.collectGarbage w := by
  cases hr : S.roots w with
  | none =>
    refine meets_mono (fun _ _ h => Guest.pins h) ?_ ?_ (collectGarbage_refuses hr)
    · rintro w₁ _ rfl h
      exact h
    · intro r w' h
      cases r with
      | error e => trivial
      | ok c => exact absurd rfl (h.2 c)
  | some roots =>
    obtain ⟨ref, live⟩ := roots
    have hmem := hroots ref live hr
    have hkeep : ∀ {w w'}, Cleans false ref live w w' → J w → J w' := fun h hw =>
      hJ hw (fun x hx => h.peek_watched hmem hx) h.distinct
    refine meets_mono (fun _ _ h => Guest.pins h) (fun _ _ => hkeep) ?_ (collectGarbage_tidies hr)
    intro r w' h
    cases r with
    | error e => trivial
    | ok c =>
      refine ⟨hkeep h.1 hw, ⟨fun g hg => ?_, fun n => ?_⟩, by rw [h.1.roots hr]; rfl⟩
      · exact (h.1.dir_in_place (by rw [hg]; simp)).symm.trans hg
      · exact .inl (h.1.peek_ref n)

/-! ## The steps of `restore` -/

theorem Store.StoppedAt.eq (h : S.StoppedAt g w) {record : Record}
    (hr : S.recordOf w = some record) : record.phase = .stopped ∧ record.latest = some g := by
  obtain ⟨record', hr', hrest⟩ := h
  cases hr.symm.trans hr'
  exact hrest

theorem Store.StoppedAt.unique {g' : GenerationId} (h : S.StoppedAt g w) (h' : S.StoppedAt g' w) : g = g' := by
  obtain ⟨record, hr, -, hl⟩ := h
  exact Option.some.inj (hl.symm.trans (h'.eq hr).2)

/-- A step that keeps the stronger `J'` from where it holds keeps `J`. -/
theorem does_stronger {J' : World → Prop} (hJ' : OnlyReads keep J') (himp : ∀ w, J' w → J w)
    {α : Type} {p : Io α} {post : α → World → Prop} (h : Does (keeping J') post p w) (hw : J' w) :
    Does (keeping J) post p w := by
  refine meets_mono (fun _ _ h => h) ?_ ?_
    (meets_inv h (fun _ _ hw hg => hJ'.pins (Guest.pins hg) hw) (fun _ _ hw hs => hs hw) hw)
  · exact fun w₁ w₂ h _ => himp w₂ (h.2 h.1)
  · rintro r w' ⟨h, -⟩
    cases r with
    | error e => trivial
    | ok a => exact h

/-- `recover` of a stopped instance is a collection. -/
theorem recover_keeps (hJ : OnlyReads keep J) (hstopped : ∀ w, J w → S.StoppedAt g w)
    (hroots : ∀ w ref live, J w → S.roots w = some (ref, live) → ∀ g ∈ keep, g ∈ ref) (hw : J w) :
    Does (keeping J) (fun _ w' => J w') S.recover w := by
  refine does_bind (requireRecord_does (closed_keeping hJ) trivial fun h => h) fun record w₁ h₁ => ?_
  have hw₁ := h₁.1 hw
  refine does_bind (Q := fun _ w' => w' = w₁) ?_ fun x w₂ h₂ => ?_
  · rw [recoverPhase, ((hstopped w₁ hw₁).eq h₁.2).1]
    exact does_pure rfl
  · cases h₂
    refine does_bind (collectGarbage_keeps hJ (hroots w₁ · · hw₁) hw₁) fun c w₃ h₃ => ?_
    exact does_pure h₃.1

theorem recover_undoable (hdir : w₀.peek (generationDir prev) = some none)
    (hw : Undoable S prev target w₀ w) :
    Does (keeping (Undoable S prev target w₀)) (fun _ w' => Undoable S prev target w₀ w' ∧
      (S.StoppedAt target w' → S.StoppedAt target w)) S.recover w := by
  rcases hw with hw | ⟨ref, hg, hw⟩
  · have hJ : OnlyReads [prev] (Unchanged S prev w₀) := reads_unchanged (by simp)
    refine does_post (does_stronger hJ (fun _ => .inl) (recover_keeps hJ (fun _ h => h.latest)
      (fun w ref live h hr => ?_) hw) hw) fun _ w' hw' => ⟨.inl hw', fun ht => ?_⟩
    · exact forall_mem_singleton.2 (h.latest.mem_roots hr)
    · obtain rfl := ht.unique hw'.latest
      exact hw.latest
  · refine does_post (does_stronger reads_restored (fun _ h => .inr ⟨ref, hg, h⟩)
      (recover_keeps reads_restored (fun _ h => h.latest)
        (fun w _ _ h hr => h.mem_roots hg hdir hr) hw) hw) fun _ _ h => ⟨.inr ⟨ref, hg, h⟩, fun _ => hw.latest⟩

theorem aside_of_temp (h : '.' ∉ id.toList) :
    Aside keep [CHECKPOINTS_DIR, name ++ ".tmp-" ++ id] := by
  intro x hx
  cases hx with
  | record | generation hg q => exact Tree.apart_of_ne (by decide) _ _
  | @ref n hext =>
    refine Tree.apart_cons_self.2 (Tree.apart_of_ne ?_ _ _)
    rintro rfl
    exact extension_temp h hext

theorem addCheckpoint_keeps (hw : Unchanged S prev w₀ w) :
    Does (keeping (Unchanged S prev w₀)) (fun _ w' => Unchanged S prev w₀ w' ∧ S.HoldsRef before w')
      (S.addCheckpoint before) w := by
  have hJ : OnlyReads [prev] (Unchanged S prev w₀) := reads_unchanged (by simp)
  have hK := closed_keeping hJ
  refine does_bind (generation_does hK trivial fun h => h) fun G w₁ h₁ => ?_
  have hw₁ := h₁.1 hw
  refine does_bind (Q := fun _ w' => Unchanged S prev w₀ w') ?_ fun _ w₂ hw₂ => ?_
  · -- a temporary file below `checkpoints/` is aside, so that making the directory is
    have haside : Aside [prev] [CHECKPOINTS_DIR, "" ++ ".tmp-" ++ ""] := aside_of_temp (by simp)
    refine does_bind (ensureDir_does hK trivial haside
      (prefix_append [CHECKPOINTS_DIR] _) (by simp) fun h => h) fun _ w₂ h₂ => ?_
    exact does_pure (h₂.1 hw₁)
  refine does_bind (Q := fun name w' => Unchanged S prev w₀ w' ∧ validComponent before.id = true ∧
    name = before.id ++ ".ref") ?_ fun name w₃ h₃ => ?_
  · unfold checkpointRefName
    split
    · next hvalid => exact does_pure ⟨hw₂, hvalid, rfl⟩
    · exact does_throw trivial
  obtain ⟨hw₃, hvalid, rfl⟩ := h₃
  refine does_post (commitFile_keeps hJ (fun id hid => ⟨aside_of_temp hid, ?_⟩) ?_ hw₃) fun _ w' h => ?_
  · show some CHECKPOINTS_DIR ≠ some RUNS_DIR
    decide
  · intro w w' hw hpeek hnew hd
    refine ⟨⟨fun q => ?_, fun n b ref hext hb hp => ?_, hd hw.distinct⟩, ?_⟩
    · rw [hpeek _ (.generation (by simp) q) (Tree.apart_of_ne (by decide) _ _).1, hw.kept q]
    · by_cases hn : n = before.id ++ ".ref"
      · subst hn
        cases hnew.symm.trans hb
        cases hp.symm.trans (S.refJson.fromSlice_toVecPretty before)
        rfl
      · rw [hpeek _ (.ref hext) (not_below_of_ne hn)] at hb
        exact hw.named n b ref hext hb hp
    · exact hw.latest.of_peek (hpeek _ .record (Tree.apart_of_ne (by decide) _ _).1)
  · exact ⟨h.1, hvalid, _, h.2, S.refJson.fromSlice_toVecPretty before⟩

theorem aside_stateTemp (id : String) : Aside keep ([] ++ [STATE_FILE ++ ".tmp-" ++ id]) := by
  intro x hx
  have ht := inert_temp id
  cases hx with
  | record => exact ht.state
  | ref hext =>
    refine Tree.apart_of_ne (fun h => ?_) _ _
    have hlen := congrArg String.length h
    simp only [String.length_append] at hlen
    have hstate : STATE_FILE.length = 10 := rfl
    have htmp : ".tmp-".length = 5 := rfl
    have hchk : CHECKPOINTS_DIR.length = 11 := rfl
    omega
  | generation hg q => exact (ht.gens _).append_right q

theorem commitRecord_keeps (hw : Referenced S prev target w₀ before w) :
    Does (keeping (Referenced S prev target w₀ before)) (fun _ w' => Restored S prev target w₀ before w')
      (S.commitRecord (some target) .stopped) w := by
  have hJ : OnlyReads [prev, target] (Referenced S prev target w₀ before) := reads_referenced
  have hstopped : ∀ {w : World}, w.peek [STATE_FILE] = some (some (.file (S.recordJson.toVecPretty
      ⟨RECORD_VERSION, some target, .stopped⟩ ++ [10]))) → S.StoppedAt target w := fun h =>
    ⟨_, recordOf_of_get (peek_eq_leaf.1 h) (readRecord_commit S _ _), rfl, rfl⟩
  refine does_post (commitFile_keeps hJ (fun id hid => ⟨?_, ?_⟩) ?_ hw) fun _ w' h =>
    ⟨h.1.toPreserves, h.1.holds, h.1.complete, hstopped h.2⟩
  · exact aside_stateTemp id
  · exact (inert_temp id).runs
  · intro w w' hw hpeek hnew hd
    have hsame : ∀ x, Watched [prev, target] x → ¬ [STATE_FILE] <+: x → w'.peek x = w.peek x := hpeek
    have hgens : ∀ g ∈ [prev, target], ∀ q, w'.peek (generationDir g ++ q) = w.peek (generationDir g ++ q) :=
      fun g hg q => hsame _ (.generation hg q) (Tree.apart_of_ne (by decide) _ _).1
    refine ⟨⟨fun q => ?_, fun n b ref hext hb hp => ?_, hd hw.distinct⟩, ?_, ?_, .inr (hstopped hnew)⟩
    · rw [hgens prev (by simp), hw.kept q]
    · rw [hsame _ (.ref hext) (Tree.apart_of_ne (by decide) _ _).1] at hb
      exact hw.named n b ref hext hb hp
    · exact hw.holds.of_peek fun hext => hsame _ (.ref hext) (Tree.apart_of_ne (by decide) _ _).1
    · exact hw.complete.of_peek (hgens target (by simp))

theorem unlink_cases {p : Path} (hp : p ≠ [] ∧ p ≠ [RUNS_DIR]) (h : EditSem true (.unlink p) w r w') :
    w' = w ∧ r ≠ .ok () ∨ w'.peek p = none := by
  cases h with
  | refused h | fault h => exact .inl ⟨rfl, nofun⟩
  | done h =>
    refine .inr ?_
    simp only [Edit.apply] at h
    split at h
    · cases h
      have hdel := get_del_append (w := w) hp []
      rw [append_nil] at hdel
      exact peek_eq_none.2 hdel
    · cases h
    · cases h

theorem Restored.unlink {n : Name} (hn : n ≠ before.id ++ ".ref")
    (h : EditSem true (.unlink [CHECKPOINTS_DIR, n]) w r w')
    (hw : Restored S prev target w₀ before w) : Restored S prev target w₀ before w' := by
  have hsame : ∀ x, ¬ [CHECKPOINTS_DIR, n] <+: x → w'.peek x = w.peek x := fun x hx =>
    h.peek_eq (by simpa using hx)
  have hhead : ∀ {m : Name} {q : Path}, CHECKPOINTS_DIR ≠ m → w'.peek (m :: q) = w.peek (m :: q) := fun hm =>
    hsame _ (Tree.apart_of_ne hm _ _).1
  refine ⟨⟨fun q => ?_, fun m b ref hext hb hp => ?_, h.distinct hw.distinct⟩, ?_, ?_, ?_⟩
  · exact (hhead (by decide)).trans (hw.kept q)
  · by_cases hm : m = n
    · subst hm
      rcases unlink_cases ⟨by simp, by simp⟩ h with ⟨rfl, -⟩ | hnone
      · exact hw.named m b ref hext hb hp
      · rw [hnone] at hb
        cases hb
    · rw [hsame _ (not_below_of_ne hm)] at hb
      exact hw.named m b ref hext hb hp
  · exact hw.holds.of_peek fun _ => hsame _ (not_below_of_ne hn.symm)
  · exact hw.complete.of_peek fun q => hhead (by decide)
  · exact hw.latest.of_peek (hhead (by decide))

theorem checkpoints_keeps (hw : Restored S prev target w₀ before w) :
    Does (keeping (Restored S prev target w₀ before))
      (fun all w' => Restored S prev target w₀ before w' ∧ Pins false w w' ∧
        S.refsIn (w'.look [CHECKPOINTS_DIR]) (w'.look [GENERATIONS_DIR]) = .ok all) S.checkpoints w := by
  have hmeets : Prog.Answers (FsSem true) (Pins false) (keeping (Restored S prev target w₀ before)).step
      _ S.checkpoints w := checkpoints_meets fun _ h => h
  refine meets_mono (fun _ _ h => Guest.pins h) (fun _ _ h => h) ?_ hmeets
  rintro r w' ⟨hpins, hr⟩
  cases r with
  | error e => trivial
  | ok all =>
    refine ⟨reads_restored.pins hpins hw, hpins, ?_⟩
    rw [hpins.look, hpins.look]
    exact hr.symm

/-- Exactly one reference named `before-restore` exists, and it is `before`. -/
def Store.OnlyBefore (S : Store) (before : CheckpointRef) (w : World) : Prop :=
  ∃ refs, S.refsIn (w.look [CHECKPOINTS_DIR]) (w.look [GENERATIONS_DIR]) = .ok refs ∧
    ∀ ref, ref ∈ refs ∧ ref.name = some BEFORE_RESTORE ↔ ref = before

/-- What a `restore` that returns has achieved. -/
def RestorePost (S : Store) (prev : GenerationId) (checkpoint : CheckpointRef) (w' : World) :
    Option CheckpointRef → Prop
  | none => S.StoppedAt checkpoint.generation w'
  | some before => S.StoppedAt checkpoint.generation w' ∧ before.generation = prev ∧ S.OnlyBefore before w'

variable (hdir : w₀.peek (generationDir prev) = some none) (hb : before.generation = prev)

include hdir hb

theorem commitLatest_undoable (hw : Noted S prev w₀ before w) :
    Does (keeping (Undoable S prev target w₀))
      (fun _ w' => Restored S prev target w₀ before w' ∧ (S.roots w').isSome) (S.commitLatest target) w := by
  have hJ : OnlyReads [prev] (Noted S prev w₀ before) := reads_noted (by simp)
  refine does_bind (does_stronger hJ (fun _ h => .inl h.toUnchanged)
    (generation_does (closed_keeping hJ) trivial fun h => h) hw) fun G w₁ h₁ => ?_
  obtain ⟨hnoted, -, -, t, ht, hG⟩ := h₁
  have hw₁ : Referenced S prev target w₀ before w₁ :=
    ⟨(hnoted hw).toPreserves, (hnoted hw).holds, ⟨G, by rw [look_eq_ok.2 ht]; exact hG⟩,
      .inl (hnoted hw).latest⟩
  refine does_bind (does_stronger reads_referenced (fun _ => Referenced.undoable hb)
    (commitRecord_keeps hw₁) hw₁) fun _ w₂ hw₂ => ?_
  refine does_bind (does_stronger reads_restored (fun _ h => .inr ⟨before, hb, h⟩)
    (collectGarbage_keeps reads_restored (fun _ _ => hw₂.mem_roots hb hdir) hw₂) hw₂) fun _ w₃ h₃ => ?_
  exact does_pure ⟨h₃.1, h₃.2.2⟩

theorem removeCheckpoint_keeps (hid : id ≠ before.id) (hw : Restored S prev target w₀ before w) :
    Does (keeping (Restored S prev target w₀ before))
      (fun _ w' => Restored S prev target w₀ before w' ∧ Fewer w w' ∧ (S.roots w').isSome ∧
        w'.peek [CHECKPOINTS_DIR, id ++ ".ref"] = none) (S.removeCheckpoint id) w := by
  have hJ : OnlyReads [prev, target] (Restored S prev target w₀ before) := reads_restored
  have hname : id ++ ".ref" ≠ before.id ++ ".ref" := fun h => hid (String.append_left_inj _ |>.1 h)
  refine does_bind (Q := fun name w' => name = id ++ ".ref" ∧ w' = w) ?_ fun name w₁ h₁ => ?_
  · unfold checkpointRefName
    split
    · exact does_pure ⟨rfl, rfl⟩
    · exact does_throw trivial
  obtain ⟨rfl, rfl⟩ := h₁
  refine does_bind (Q := fun _ w' => Restored S prev target w₀ before w' ∧ Fewer w₁ w' ∧
    w'.peek [CHECKPOINTS_DIR, id ++ ".ref"] = none) (does_attempt_edit fun w₂ r w₃ hg he => ?_) fun _ w₂ h₂ => ?_
  · have hw₂ : Restored S prev target w₀ before w₂ := hJ.pins hg.pins hw
    have hw₃ := hw₂.unlink hname he
    refine ⟨fun _ => hw₃, fun hr => ?_, fun _ _ => trivial⟩
    have hnone := (unlink_cases ⟨by simp, by simp⟩ he).resolve_left fun h => h.2 hr
    refine ⟨hw₃, (Fewer.of_pins hg.pins).trans ⟨fun g hgone => ?_, fun n => ?_⟩, hnone⟩
    · rw [← hgone]
      exact (he.peek_eq (forall_mem_singleton.2 (Tree.apart_of_ne (by decide) _ _).1)).symm
    · by_cases hn : n = id ++ ".ref"
      · exact .inr (hn ▸ hnone)
      · exact .inl (he.peek_eq (forall_mem_singleton.2 (not_below_of_ne hn)))
  obtain ⟨hw₂, hfewer₂, hnone₂⟩ := h₂
  refine does_bind (Q := fun _ w' => Restored S prev target w₀ before w' ∧ Fewer w₁ w' ∧
    w'.peek [CHECKPOINTS_DIR, id ++ ".ref"] = none) (does_attempt_edit fun w₃ r w₄ hg he => ?_) fun _ w₃ h₃ => ?_
  · have hw₄ := hJ.edit he (by simp) (hJ.pins hg.pins hw₂)
    have hpeek : ∀ x, w₄.peek x = w₂.peek x := fun x => by
      rw [he.peek_eq (by simp), hg.pins.peek]
    refine ⟨fun _ => hw₄, fun _ => ⟨hw₄, hfewer₂.trans ⟨fun g h => ?_, fun n => .inl (hpeek _)⟩, ?_⟩,
      fun _ _ => trivial⟩
    · rw [← hpeek, h]
    · rw [hpeek, hnone₂]
  obtain ⟨hw₃, hfewer₃, hnone₃⟩ := h₃
  refine does_bind (collectGarbage_keeps hJ (fun _ _ => hw₃.mem_roots hb hdir) hw₃) fun _ w₄ h₄ => ?_
  refine does_pure ⟨h₄.1, hfewer₃.trans h₄.2.1, h₄.2.2, ?_⟩
  rcases h₄.2.1.refs (id ++ ".ref") with h | h
  · rw [h, hnone₃]
  · exact h

/-- The loop removes what it is to remove. -/
theorem removeOlder_keeps (hw : Restored S prev target w₀ before w) (hr : (S.roots w).isSome) :
    Does (keeping (Restored S prev target w₀ before))
      (fun _ w' => Restored S prev target w₀ before w' ∧ Fewer w w' ∧ (S.roots w').isSome ∧
        ∀ older ∈ all, older.name = some BEFORE_RESTORE → older.id ≠ before.id →
          w'.peek [CHECKPOINTS_DIR, older.id ++ ".ref"] = none) (S.removeOlder before all) w := by
  induction all generalizing w with
  | nil => exact does_pure ⟨hw, ⟨fun _ h => h, fun _ => .inl rfl⟩, hr, by simp⟩
  | cons older all ih =>
    refine does_bind (Q := fun _ w' => Restored S prev target w₀ before w' ∧ Fewer w w' ∧ (S.roots w').isSome ∧
      (older.name = some BEFORE_RESTORE → older.id ≠ before.id →
        w'.peek [CHECKPOINTS_DIR, older.id ++ ".ref"] = none)) ?_ fun _ w₁ h₁ => ?_
    · unfold removeIfOlder
      split
      · next h =>
        exact does_post (removeCheckpoint_keeps hdir hb h.2 hw) fun _ w' h => ⟨h.1, h.2.1, h.2.2.1, fun _ _ => h.2.2.2⟩
      · next h => exact does_pure ⟨hw, ⟨fun _ h => h, fun _ => .inl rfl⟩, hr, fun h₁ h₂ => absurd ⟨h₁, h₂⟩ h⟩
    · obtain ⟨hw₁, hfewer₁, hr₁, hgone₁⟩ := h₁
      refine does_post (ih hw₁ hr₁) fun _ w₂ h₂ => ?_
      obtain ⟨hw₂, hfewer₂, hr₂, hgone₂⟩ := h₂
      refine ⟨hw₂, hfewer₁.trans hfewer₂, hr₂, forall_mem_cons.2 ⟨fun hname hid => ?_, hgone₂⟩⟩
      rcases hfewer₂.refs (older.id ++ ".ref") with h | h
      · rw [h, hgone₁ hname hid]
      · exact h

theorem Restored.onlyBefore (hname : before.name = some BEFORE_RESTORE)
    (hw : Restored S prev target w₀ before w) (hw' : Restored S prev target w₀ before w')
    (hall : S.refsIn (w.look [CHECKPOINTS_DIR]) (w.look [GENERATIONS_DIR]) = .ok all)
    (hfewer : Fewer w w') (hroots : (S.roots w').isSome)
    (hgone : ∀ older ∈ all, older.name = some BEFORE_RESTORE → older.id ≠ before.id →
      w'.peek [CHECKPOINTS_DIR, older.id ++ ".ref"] = none) : S.OnlyBefore before w' := by
  obtain ⟨⟨ref, live⟩, hr⟩ := Option.isSome_iff_exists.1 hroots
  obtain ⟨-, refs, -, hrefs, -, -⟩ := roots_eq_some.1 hr
  obtain ⟨hvalid, bytes, hbytes, hparse⟩ := hw'.holds
  refine ⟨refs, hrefs, fun ref => ⟨?_, ?_⟩⟩
  · rintro ⟨hmem, hn⟩
    obtain ⟨n, b, hext, hpeek, hp, hin⟩ := (mem_refsIn hw'.distinct hrefs).1 hmem
    obtain rfl := hw'.named n b ref hext hpeek hp
    have hid : ref.id = before.id := by
      by_contra hid
      have hold : w.peek [CHECKPOINTS_DIR, ref.id ++ ".ref"] = some (some (.file b)) := by
        rcases hfewer.refs (ref.id ++ ".ref") with h | h
        · rw [← h, hpeek]
        · rw [h] at hpeek
          cases hpeek
      have hlisted := (mem_refsIn hw.distinct hall).2 ⟨_, b, hext, hold, hp, hfewer.dirs _ hin⟩
      rw [hgone ref hlisted hn hid] at hpeek
      cases hpeek
    rw [hid] at hpeek
    cases hpeek.symm.trans hbytes
    exact Option.some.inj (hp.symm.trans hparse)
  · rintro rfl
    refine ⟨(mem_refsIn hw'.distinct hrefs).2 ⟨_, bytes, extension_ref hvalid, hbytes, hparse, ?_⟩, hname⟩
    rw [hb]
    exact hw'.toPreserves.dir hdir

omit hb in
/-- `restore` takes undoable steps, and does nothing only where there is nothing to do. -/
theorem restore_keeps {checkpoint : CheckpointRef} {createdUnix : ℕ}
    (hw : Undoable S prev checkpoint.generation w₀ w) :
    Does (keeping (Undoable S prev checkpoint.generation w₀))
      (fun r w' => RestorePost S prev checkpoint w' r ∧ (r = none → S.StoppedAt checkpoint.generation w))
      (S.restore checkpoint id createdUnix) w := by
  have hJ : OnlyReads [prev, checkpoint.generation] (Undoable S prev checkpoint.generation w₀) := reads_undoable
  refine does_bind (recover_undoable hdir hw) fun _ w₁ h₁ => ?_
  obtain ⟨hw₁, hback⟩ := h₁
  refine does_bind (Q := fun r w' => Undoable S prev checkpoint.generation w₀ w' ∧ Pins false w₁ w' ∧
    ∀ record, r = some record → S.recordOf w' = some record) ?_ fun found w₂ h₂ => ?_
  · refine does_bind (Q := fun r w' => Pins false w₁ w' ∧ r = w'.look [STATE_FILE])
      (does_look fun w₂ hg => ⟨hg.pins, rfl⟩) fun r w₂ h₂ => ?_
    refine does_ofExcept trivial fun record hrec => ⟨hJ.pins h₂.1 hw₁, h₂.1, ?_⟩
    rintro record rfl
    rw [recordOf, ← h₂.2, hrec]
  obtain ⟨hw₂, hpins, hrec⟩ := h₂
  cases hlatest : found.bind Record.latest with
  | none => exact does_throw trivial
  | some previous =>
    obtain ⟨record, rfl, hprevious⟩ := Option.bind_eq_some_iff.1 hlatest
    have hprev : ∀ {g}, S.StoppedAt g w₂ → previous = g := fun h =>
      Option.some.inj (hprevious.symm.trans (h.eq (hrec record rfl)).2)
    show Does _ _ (if previous = checkpoint.generation then _ else _) _
    split
    · next heq =>
      have hstopped : S.StoppedAt checkpoint.generation w₂ := by
        rcases hw₂ with hw₂ | ⟨_, -, hw₂⟩
        · rw [← heq, hprev hw₂.latest]
          exact hw₂.latest
        · exact hw₂.latest
      exact does_pure ⟨hstopped, fun _ => hback (hstopped.of_peek (hpins.peek _).symm)⟩
    next hne =>
    have hw₂' : Unchanged S prev w₀ w₂ := by
      rcases hw₂ with h | ⟨_, -, h⟩
      · exact h
      · exact absurd (hprev h.latest) hne
    obtain rfl := hprev hw₂'.latest
    have hb : (CheckpointRef.mk id (some BEFORE_RESTORE) previous createdUnix).generation = previous := rfl
    have hread : OnlyReads [previous] (Unchanged S previous w₀) := reads_unchanged (by simp)
    refine does_bind (does_stronger hread (fun _ => .inl) (addCheckpoint_keeps hw₂') hw₂') fun _ w₃ h₃ => ?_
    refine does_bind (commitLatest_undoable hdir hb ⟨h₃.1, h₃.2⟩) fun _ w₄ h₄ => ?_
    obtain ⟨hw₄, hroots₄⟩ := h₄
    refine does_stronger reads_restored (fun _ h => .inr ⟨_, hb, h⟩) ?_ hw₄
    refine does_bind (checkpoints_keeps hw₄) fun all w₅ h₅ => ?_
    obtain ⟨hw₅, hpins, hall⟩ := h₅
    refine does_bind (removeOlder_keeps hdir hb hw₅ (by rwa [roots_pins hpins])) fun _ w₆ h₆ => ?_
    obtain ⟨hw₆, hfewer, hroots₆, hgone⟩ := h₆
    exact does_pure ⟨⟨hw₆.latest, rfl, hw₅.onlyBefore hdir hb rfl hw₆ hall hfewer hroots₆ hgone⟩, by simp⟩

end

/-! ## Restores and recoveries -/

/-- The calls of a process that restores a checkpoint, and of those that come after it. -/
inductive RestoreCall
  | restore (checkpoint : CheckpointRef) (id : String) (createdUnix : ℕ)
  | recover

/-- The error of a call that failed, or else the checkpoint `restore` made. -/
abbrev RestoreResult := Except StoreError (Option CheckpointRef)

def RestoreCall.prog (S : Store) : RestoreCall → Prog FsOp RestoreResult
  | restore checkpoint id createdUnix => S.restore checkpoint id createdUnix
  | recover => (do let _ ← S.recover; pure none : Io (Option CheckpointRef))

/-- What `restore` is called with satisfies `which`. -/
def RestoreCall.Restores (which : CheckpointRef → Prop) : RestoreCall → Prop
  | restore checkpoint _ _ => which checkpoint
  | recover => True

/-- Restores of checkpoints and recoveries of the instance `w₀`, one after another: any
    call may fail, each may be killed after any step, and pins are taken and dropped all
    the time. -/
def restorer (S : Store) (which : CheckpointRef → Prop) (w₀ : World) :
    Calls FsOp World RestoreCall RestoreResult where
  init w := w = w₀
  enabled _ c := c.Restores which
  prog := RestoreCall.prog S
  sem := FsSem true
  env _ := Guest true
  crash w w' := w' = w

def RestoreCall.post (S : Store) (prev : GenerationId) :
    RestoreCall → RestoreResult → World → Prop
  | restore checkpoint _ _, .ok r, w => RestorePost S prev checkpoint w r
  | _, _, _ => True

section

variable {S : Store} {prev : GenerationId} {checkpoint : CheckpointRef} {w₀ : World}

theorem RestorePost.pins (h : Pins false w w') {r : Option CheckpointRef}
    (hr : RestorePost S prev checkpoint w r) : RestorePost S prev checkpoint w' r := by
  have hread : OnlyReads [] (S.StoppedAt checkpoint.generation) := reads_stoppedAt _
  cases r with
  | none => exact hread.pins h hr
  | some before =>
    obtain ⟨hs, hg, refs, hrefs, honly⟩ := hr
    refine ⟨hread.pins h hs, hg, refs, ?_, honly⟩
    rw [h.look, h.look]
    exact hrefs

theorem restoreCall_meets (hdir : w₀.peek (generationDir prev) = some none) {c : RestoreCall}
    (hc : c.Restores (· = checkpoint)) (hw : Undoable S prev checkpoint.generation w₀ w) :
    (c.prog S).Meets (FsSem true) (Guest true) (keeping (Undoable S prev checkpoint.generation w₀)).step
      (c.post S prev) w := by
  cases c with
  | restore _ id createdUnix =>
    obtain rfl : _ = checkpoint := hc
    refine meets_post (restore_keeps hdir hw) fun r w' h => ?_
    cases r with
    | error e => trivial
    | ok r => exact h.1
  | recover =>
    have hrecover : Does (keeping (Undoable S prev checkpoint.generation w₀)) (fun _ _ => True)
        (do let _ ← S.recover; pure none : Io (Option CheckpointRef)) w :=
      does_bind (recover_undoable hdir hw) fun _ _ _ => does_pure trivial
    exact meets_post hrecover fun _ _ _ => trivial

theorem restorer_keeps (hdir : w₀.peek (generationDir prev) = some none)
    (hw₀ : Undoable S prev checkpoint.generation w₀ w₀) :
    (restorer S (· = checkpoint) w₀).Keeps (Undoable S prev checkpoint.generation w₀) (fun _ => True)
      (fun _ => (keeping (Undoable S prev checkpoint.generation w₀)).step) (RestoreCall.post S prev) where
  init w h := by
    cases h
    exact ⟨hw₀, trivial⟩
  call w c hi _ hc := restoreCall_meets hdir hc hi
  guar _ _ _ hi hg := hg hi
  env _ _ _ hi he := reads_undoable.pins (Guest.pins he) hi
  envPost c r w w' he hp := by
    cases c with
    | recover => trivial
    | restore checkpoint id createdUnix =>
      cases r with
      | error e => trivial
      | ok r => exact RestorePost.pins (Guest.pins he) hp
  envRest _ _ _ _ := trivial
  envTrans _ _ _ _ := guest_trans
  envRefl _ w := guest_refl true w
  ret _ _ _ _ := trivial
  crash w w' hi hc := by
    cases hc
    exact ⟨hi, trivial⟩

variable {target : GenerationId}

theorem Undoable.complete (h : Undoable S prev target w₀ w) (h₀ : S.Complete prev w₀) :
    S.Complete prev w := by
  rcases h with h | ⟨_, -, h⟩
  · exact h₀.of_peek h.kept
  · exact h₀.of_peek h.kept

theorem Undoable.sound (h : Undoable S prev target w₀ w) (h₀ : S.Complete prev w₀) :
    ∃ g, S.Sound g w := by
  rcases h with h | ⟨_, -, h⟩
  · exact ⟨prev, h.latest, h₀.of_peek h.kept, h.named, h.distinct⟩
  · exact ⟨target, h.latest, h.complete, h.named, h.distinct⟩

theorem Store.Sound.undoable (h : S.Sound prev w) (target : GenerationId) : Undoable S prev target w w :=
  .inl ⟨⟨fun _ => rfl, h.named, h.distinct⟩, h.stopped⟩

theorem reads_sound : OnlyReads [g] (S.Sound g) := fun _ _ h hpeek hd => {
  stopped := reads_stoppedAt g h.stopped hpeek hd
  complete := reads_complete (by simp) h.complete hpeek hd
  named := fun n b ref hext hb hp => h.named n b ref hext ((hpeek _ (.ref hext)).symm.trans hb) hp
  distinct := hd h.distinct }

/-- Restores of any checkpoints leave a stopped instance with a complete generation. -/
theorem restores_keep_sound (h₀ : ∃ g, S.Sound g w₀) :
    (restorer S (fun _ => True) w₀).Keeps (fun w => ∃ g, S.Sound g w) (fun _ => True)
      (fun _ => (keeping fun w => ∃ g, S.Sound g w).step) (fun _ _ _ => True) where
  init w h := by
    cases h
    exact ⟨h₀, trivial⟩
  call w c hi _ _ := by
    obtain ⟨g, hg⟩ := hi
    -- each call keeps what is undoable from where it starts
    have hcall : ∀ checkpoint : CheckpointRef, c.Restores (· = checkpoint) →
        (c.prog S).Meets (FsSem true) (Guest true) (keeping fun w => ∃ g, S.Sound g w).step (fun _ _ => True) w :=
      fun checkpoint hc => meets_mono (fun _ _ h => h)
        (fun _ w' h _ => (show Undoable S g checkpoint.generation w w' from h.2 h.1).sound hg.complete)
        (fun _ _ _ => trivial)
        (meets_inv (restoreCall_meets hg.complete.dir hc (hg.undoable _))
          (fun _ _ hw hr => reads_undoable.pins (Guest.pins hr) hw) (fun _ _ hw hs => hs hw) (hg.undoable _))
    cases c with
    | restore checkpoint id createdUnix => exact hcall checkpoint rfl
    | recover => exact hcall ⟨"", none, g, 0⟩ trivial
  guar _ _ _ hi hg := hg hi
  env _ _ _ hi he := hi.imp fun _ h => reads_sound.pins (Guest.pins he) h
  envPost _ _ _ _ _ _ := trivial
  envRest _ _ _ _ := trivial
  envTrans _ _ _ _ := guest_trans
  envRefl _ w := guest_refl true w
  ret _ _ _ _ := trivial
  crash w w' hi hc := by
    cases hc
    exact ⟨hi, trivial⟩

end

/-- A restore can be undone. After any sequence of restores and recoveries that fail and
    are killed anywhere, the instance `w` is stopped with a complete latest generation
    `prev`, and for a restore of any checkpoint that begins there, whatever fails, is
    killed and is recovered or tried again:

    * after every step the latest generation is `prev` or the checkpoint's, and `prev` is
      as it was, complete, and the latest or referenced;
    * a `restore` that returns `Ok` has made the checkpoint's generation the latest, and
      if it replaced another then exactly one reference named `before-restore` exists,
      the one it returns, and it names `prev`;
    * it replaces nothing only if `prev` is the checkpoint's generation. -/
theorem restore_can_be_undone (S : Store) {g₀ : GenerationId} {w₀ w : World} (h₀ : S.Sound g₀ w₀)
    (hw : (restorer S (fun _ => True) w₀).Reachable ⟨w, none⟩) :
    ∃ prev, S.Sound prev w ∧ ∀ checkpoint : CheckpointRef,
      (∀ x, (restorer S (· = checkpoint) w).Reachable x →
        Undoable S prev checkpoint.generation w x.state ∧ S.Complete prev x.state) ∧
      (∀ w' id createdUnix r,
        (restorer S (· = checkpoint) w).Reachable ⟨w', some (.restore checkpoint id createdUnix, .ret (.ok r))⟩ →
          RestorePost S prev checkpoint w' r) ∧
      ∀ w' id createdUnix, Prog.Runs (α := RestoreResult) (FsSem true) (S.restore checkpoint id createdUnix) w
        (.ok none) w' → prev = checkpoint.generation := by
  obtain ⟨prev, hprev⟩ := (Calls.reachable_inv (restores_keep_sound ⟨g₀, h₀⟩) hw).1
  refine ⟨prev, hprev, fun checkpoint => ?_⟩
  have hkeeps := restorer_keeps hprev.complete.dir (hprev.undoable checkpoint.generation)
  refine ⟨fun x hx => ?_, fun w' id t r hx => Calls.reachable_post hkeeps hx, fun w' id t hrun => ?_⟩
  · have hundo := (Calls.reachable_inv hkeeps hx).1
    exact ⟨hundo, hundo.complete hprev.complete⟩
  · have hpost := meets_runs (guest_refl true)
      (restore_keeps hprev.complete.dir (hprev.undoable checkpoint.generation)) hrun
    exact hprev.stopped.unique (hpost.2 rfl)

/-- An instance set up from a disk of one byte. -/
def savedWorld : World :=
  execCalls plainStore [.stage, .fill (generationIdOf 0) oneByteDisk, .initializeStore (generationIdOf 0)] emptyWorld

theorem reachable_savedWorld : (storeCalls plainStore True).Reachable ⟨savedWorld, none⟩ :=
  reachable_execCalls rfl rfl (by simp [storeCalls, Call.Disciplined]) (.init ⟨emptyWorld_empty, rfl, rfl, rfl⟩)

/-- A checkpoint of its generation. -/
def sameCheckpoint : CheckpointRef := ⟨"c", none, generationIdOf 0, 0⟩

def checkpointedWorld : World := execCalls plainStore [.addCheckpoint sameCheckpoint] savedWorld

theorem reachable_checkpointedWorld : (storeCalls plainStore True).Reachable ⟨checkpointedWorld, none⟩ :=
  reachable_execCalls rfl rfl (by simp [storeCalls, Call.Disciplined]) reachable_savedWorld

/-- A second generation is made from it. -/
def derivedWorld : World := execCalls plainStore [.derive [] false] checkpointedWorld

theorem reachable_derivedWorld : (storeCalls plainStore True).Reachable ⟨derivedWorld, none⟩ :=
  reachable_execCalls rfl rfl (by simp [storeCalls, Call.Disciplined]) reachable_checkpointedWorld

theorem derivedWorld_sound : plainStore.Sound (generationIdOf 1) derivedWorld where
  stopped := by
    have h : plainStore.recordOf derivedWorld = some ⟨RECORD_VERSION, some (generationIdOf 1), .stopped⟩ := by
      decide +kernel
    exact ⟨_, h, rfl, rfl⟩
  complete := by
    have h : (plainStore.checkGeneration (generationIdOf 1)
        (derivedWorld.look (generationDir (generationIdOf 1)))).toOption.isSome = true := by
      decide +kernel
    cases hG : plainStore.checkGeneration (generationIdOf 1) (derivedWorld.look (generationDir (generationIdOf 1))) with
    | error e => rw [hG] at h; cases h
    | ok G => exact ⟨G, hG⟩
  named := by
    have hnames : listing (derivedWorld.look [CHECKPOINTS_DIR]) = ["c.ref"] := by decide +kernel
    have hfile : derivedWorld.peek [CHECKPOINTS_DIR, "c.ref"] =
        some (some (.file (plainStore.refJson.toVecPretty sameCheckpoint ++ [10]))) := by decide +kernel
    intro n b ref _ hb href
    have hn : n ∈ listing (derivedWorld.look [CHECKPOINTS_DIR]) :=
      (mem_listing_iff (by simp)).2 (by simp [hb])
    rw [hnames] at hn
    cases mem_singleton.1 hn
    cases hfile.symm.trans hb
    cases (plainStore.refJson.fromSlice_toVecPretty _).symm.trans href
    rfl
  distinct := (Calls.reachable_inv (storeCalls_keeps plainStore True) reachable_derivedWorld).1.wf.distinct

/-- The checkpoint's generation is not the latest. -/
theorem restore_can_be_undone_derived :
    ∃ prev ≠ sameCheckpoint.generation, plainStore.Sound prev derivedWorld ∧
      ∀ x, (restorer plainStore (· = sameCheckpoint) derivedWorld).Reachable x →
        Undoable plainStore prev sameCheckpoint.generation derivedWorld x.state ∧
          plainStore.Complete prev x.state := by
  obtain ⟨prev, hprev, h⟩ := restore_can_be_undone plainStore derivedWorld_sound (.init rfl)
  obtain rfl := hprev.stopped.unique derivedWorld_sound.stopped
  exact ⟨_, by decide, hprev, (h sameCheckpoint).1⟩

/-- Restoring the latest generation returns `Ok`, and there is no reference named
    `before-restore`. -/
theorem restore_may_keep_nothing :
    ∃ w w' refs, (storeCalls plainStore True).Reachable ⟨w, none⟩ ∧ Store.HoldsRef plainStore sameCheckpoint w ∧
      Prog.Runs (α := RestoreResult) (FsSem true) (plainStore.restore sameCheckpoint "b" 1) w (.ok none) w' ∧
      plainStore.refsIn (w'.look [CHECKPOINTS_DIR]) (w'.look [GENERATIONS_DIR]) = .ok refs ∧
      ∀ ref ∈ refs, ref.name ≠ some BEFORE_RESTORE := by
  have hx := reachable_checkpointedWorld
  have hholds : checkpointedWorld.peek [CHECKPOINTS_DIR, sameCheckpoint.id ++ ".ref"] =
      some (some (.file (plainStore.refJson.toVecPretty sameCheckpoint ++ [10]))) := by
    decide +kernel
  have hrestored : ((plainStore.restore sameCheckpoint "b" 1).execFs checkpointedWorld).1 =
      (.ok none : RestoreResult) := by
    decide +kernel
  have hrefs : plainStore.refsIn
      (((plainStore.restore sameCheckpoint "b" 1).execFs checkpointedWorld).2.look [CHECKPOINTS_DIR])
      (((plainStore.restore sameCheckpoint "b" 1).execFs checkpointedWorld).2.look [GENERATIONS_DIR]) =
      .ok [sameCheckpoint] := by
    decide +kernel
  generalize checkpointedWorld = w at hx hholds hrestored hrefs
  have hrun := runs_exec true (plainStore.restore sameCheckpoint "b" 1) w
  generalize (plainStore.restore sameCheckpoint "b" 1).execFs w = out at hrestored hrefs hrun
  obtain ⟨r, w'⟩ := out
  cases hrestored
  refine ⟨w, w', _, hx, ⟨by decide, _, hholds, plainStore.refJson.fromSlice_toVecPretty _⟩, hrun, hrefs, ?_⟩
  exact forall_mem_singleton.2 (by simp [sameCheckpoint])

end Lnx
