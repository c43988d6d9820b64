import Lnx.Store.Collect

/-!
# What the store's operations commit

Every operation of the store takes only `StoreStep`s. A record that ends a dirty
run (`Commits`) either discards it, which only `discard_run` does, or stops the
instance at a generation that is the run's final snapshot or, where nothing
writes the run directory meanwhile, equals it.

Results: `recover_does`, `beginRun_does`, `markDirty_does`, `advanceLatest_does`,
`commitLatest_does`, `importDir_does`, `abandonRun_does`, `discardRun_does`,
`derive_does`, `dropMemory_does`, `addCheckpoint_does`, `removeCheckpoint_does`,
`initializeStore_does`.
-/

namespace Lnx

open Store

variable {id : GenerationId} {run : RunId} {w₀ : World}

/-! ## The records a dirty run allows -/

/-- The committed phase is `Dirty { run, owner }`. -/
def Store.DirtyIn (S : Store) (w : World) (run : RunId) (owner : ProcessIdentity) : Prop :=
  ∃ record, S.recordOf w = some record ∧ record.phase = .dirty run owner

/-- The record stops the instance at a generation that holds what `run` wrote: the
    run's final snapshot or, where the run directory is `still`, an equal of it. -/
structure Saves (S : Store) (still : Bool) (w : World) (run : RunId) (record : Record) : Prop where
  stopped : record.phase = .stopped
  latest : ∃ g t, record.latest = some g ∧ w.get (generationDir g) = some t ∧
    ((∃ G, S.checkGeneration g (.ok t) = .ok G ∧ G.manifest.origin = .snapshot run) ∨
      (still = true ∧ SameState (w.runs.get [run.asStr]) t))

/-- Which records may be committed in `w`: a dirty run stays so, unless its state
    is saved or `discards` gives it up. -/
def Commits (S : Store) (still discards : Bool) (w : World) (record : Record) : Prop :=
  ∀ run owner, S.DirtyIn w run owner →
    record.phase = .dirty run owner ∨ discards = true ∨ Saves S still w run record

section

variable {S : Store} {still discards : Bool} {w : World} {record : Record}

/-- At rest, a generation in place is there for good. -/
theorem Rules.Resting.inPlace {rules : Rules} {g : GenerationId} {t : Dir} (hf : rules.Resting w)
    (ht : w.get (generationDir g) = some t) :
    (∃ u, w.get (generationDir g) = some u) ∧
      (rules.settled → w.disk.old (generationDir g) = []) :=
  ⟨⟨t, ht⟩, fun hS => (hf hS).gens g t ht⟩

theorem Inv.latest {rules : Rules} (hi : Inv S rules.toMode w) (hf : rules.Resting w)
    (hr : S.recordOf w = some record) :
    ∀ g, record.latest = some g → (∃ u, w.get (generationDir g) = some u) ∧
      (rules.settled → w.disk.old (generationDir g) = []) := by
  intro g hg
  obtain ⟨t, ht, hread⟩ := readRecord_of_recordOf hr
  obtain ⟨record', hread', hl⟩ := hi.record t ht
  rw [hread] at hread'
  cases hread'
  obtain ⟨u, hu⟩ := hl g hg
  exact hf.inPlace hu

/-- Where no run is dirty, every record is allowed. -/
theorem commits_of_not_dirty (hr : S.recordOf w = some record)
    (hp : ∀ run owner, record.phase ≠ .dirty run owner) (record' : Record) :
    Commits S still discards w record' := by
  rintro run owner ⟨record₁, hr₁, hp₁⟩
  rw [hr] at hr₁
  cases hr₁
  exact absurd hp₁ (hp run owner)

/-- A record that keeps the phase is allowed. -/
theorem commits_of_phase (hr : S.recordOf w = some record) {record' : Record}
    (hp : record'.phase = record.phase) : Commits S still discards w record' := by
  rintro run owner ⟨record₁, hr₁, hp₁⟩
  rw [hr] at hr₁
  cases hr₁
  exact .inl (hp.trans hp₁)

/-- `final_generation_of` finds a complete final snapshot of the run. -/
theorem finalIn_eq_some (h : S.finalIn run (w.look [GENERATIONS_DIR]) = .ok (some id)) :
    ∃ t G, w.get (generationDir id) = some t ∧ S.checkGeneration id (.ok t) = .ok G ∧
      G.manifest.origin = .snapshot run := by
  unfold finalIn at h
  split at h
  · cases h
  · next ids hids =>
    obtain ⟨-, hfinal⟩ := List.mem_filter.1 (List.mem_of_getLast? (Except.ok.inj h))
    unfold isFinalOf at hfinal
    split at hfinal
    · next G hG =>
      obtain ⟨d, -, -, hd, -⟩ := checkGeneration_eq_ok.1 hG
      cases hl : w.look [GENERATIONS_DIR] with
      | error e => rw [hl] at hd; cases hd
      | ok t =>
        rw [hl] at hd hG
        refine ⟨d, G, ?_, hd ▸ hG, by simpa using hfinal⟩
        have hget := World.get_append (w := w) (p := [GENERATIONS_DIR]) (by simp) [id.asStr]
        rw [World.look_eq_ok.1 hl] at hget
        exact hget.trans (resolve_eq_ok.1 hd)
    · cases hfinal

end

section operations

variable {S : Store} {faults still : Bool} {rules : Rules} {w : World}

/-- A program that reads the record first. -/
theorem with_record_does {α : Type} {f : Record → Io α} {Q : α → World → Prop} (hf : rules.Resting w)
    (h : ∀ record w₁, Kept still w w₁ → S.recordOf w₁ = some record → rules.Resting w₁ →
      Does (rules.setting S faults still) Q (f record) w₁) :
    Does (rules.setting S faults still) Q (S.requireRecord >>= f) w := by
  have hK := closed_kept rules S faults still
  refine does_bind (requireRecord_does hK hf (hK.refl w)) fun record w₁ h₁ => ?_
  exact h record w₁ h₁.1 h₁.2 (hf.quiet h₁.1.toQuiet)

/-! ## Checkpoint references -/

theorem checkpointRefName_does {id : String} (hf : rules.Resting w₀) (h₀ : Quiet w₀ w) :
    Does (rules.setting S faults still) (fun _ w' => Quiet w₀ w') (checkpointRefName id) w := by
  unfold checkpointRefName
  split_ifs
  · exact does_pure h₀
  · exact does_throw (hf.quiet h₀)

/-- `add_checkpoint`. -/
theorem addCheckpoint_does {checkpoint : CheckpointRef} (hf : rules.Resting w) :
    rules.Rests S faults still (S.addCheckpoint checkpoint) w := by
  have hK := closed_quiet rules S faults still
  have hfree : ∀ p, Free (CHECKPOINTS_DIR :: p) := fun p => .inl (inert_checkpoints p)
  refine does_bind (generation_does hK hf (hK.refl w)) fun G w₁ h₁ => ?_
  refine does_bind (createDirAll_does hK hf (hfree []) h₁.1) fun _ w₂ h₂ => ?_
  refine does_bind (checkpointRefName_does hf h₂.1) fun name w₃ h₃ => ?_
  exact does_post (commitFile_does hK hf (fun n => hfree [n]) h₃) fun _ _ h => hf.quiet h

/-- `remove_checkpoint`. -/
theorem removeCheckpoint_does {id : String} (hf : rules.Resting w) :
    rules.Rests S faults still (S.removeCheckpoint id) w := by
  have hK := closed_quiet rules S faults still
  refine does_bind (checkpointRefName_does hf (Quiet.refl w)) fun name w₁ h₁ => ?_
  have hfree : Free [CHECKPOINTS_DIR, name] := .inl (inert_checkpoints [name])
  refine does_bind (does_free_edit hK hf (by simpa using hfree) h₁) fun _ w₂ h₂ => ?_
  refine does_bind (sync_does hK hf rfl h₂.1) fun _ w₃ h₃ => ?_
  exact does_bind (collectGarbage_does (hf.quiet h₃.1)) fun _ _ h => does_pure h

/-! ## Filling directories -/

theorem newRunId_does (h₀ : Quiet w₀ w) :
    Does (rules.setting S faults still) (fun _ w' => Quiet w₀ w') (perform .newRunId) w := by
  rintro w₁ hg r w₂ ⟨-, rfl⟩
  exact ⟨.quiet (Quiet.refl _), h₀.trans (Kept.of_guest hg).toQuiet⟩

section

variable (hf : rules.Resting w₀)

include hf

theorem runBase_does {start : Option GenerationId} (h₀ : Quiet w₀ w) :
    Does (rules.setting S faults still) (fun _ w' => Quiet w₀ w') (S.runBase start) w := by
  cases start with
  | none => exact does_pure h₀
  | some id =>
    refine does_bind (generation_does (closed_quiet rules S faults still) hf h₀) fun G w₁ h₁ => ?_
    exact does_pure h₁.1

theorem fillRun_does {base : Option Generation} (h₀ : Quiet w₀ w) :
    Does (rules.setting S faults still) (fun _ w' => Quiet w₀ w')
      (fillRun (runDir run) base) w := by
  have hK := closed_quiet rules S faults still
  have hfree : Free (runDir run) := .inr rfl
  have hne : runDir run ≠ [] := by simp
  cases base with
  | none => exact does_pure h₀
  | some base =>
    refine does_bind (copyFiles_does hK hf hfree hne h₀) fun _ w₁ h₁ => ?_
    exact does_post (copyShares_does hK hf hfree hne h₁) fun _ _ h => h.1

theorem importEntry_does {name : Name} {t : Dir} (h₀ : Kept still w₀ w) :
    Does (rules.setting S faults still) (fun _ w' => Kept still w₀ w')
      (importEntry (stagingDir id) name t) w := by
  have hK := closed_kept rules S faults still
  have hin := inert_staging id
  cases t with
  | node sub =>
    simp only [importEntry]
    split_ifs
    · exact does_post (copyTree_does hK hf hin hin.ne_nil h₀) fun _ _ h => h.1
    · exact does_pure h₀
  | leaf a =>
    cases a with
    | symlink target => exact does_pure h₀
    | file bytes =>
      simp only [importEntry]
      split_ifs
      · refine does_bind (createDirAll_does hK hf hin h₀) fun _ w₁ h₁ => ?_
        exact does_post (installFile_does hK hf (hin.append _) h₁.1) fun _ _ h => h.1
      · exact does_pure h₀

variable {source : List (Name × Dir)}

theorem importEntries_does (h₀ : Kept still w₀ w) :
    Does (rules.setting S faults still) (fun _ w' => Kept still w₀ w')
      (importEntries (stagingDir id) source) w := by
  induction source generalizing w with
  | nil => exact does_pure h₀
  | cons e source ih => exact does_bind (importEntry_does hf h₀) fun _ w₁ h₁ => ih h₁

/-- `derive`'s caller edits the staging directory and nothing else. -/
theorem runEdit_does {edits : List { t : Dir // t.Distinct }} {fails : Bool} (h₀ : Kept still w₀ w) :
    Does (rules.setting S faults still) (fun _ w' => Kept still w₀ w')
      (runEdit (stagingDir id) edits fails) w := by
  have hK := closed_kept rules S faults still
  refine does_bind (Prog.ensures_forEach (I := fun _ w' => Kept still w₀ w')
    (fun t _ w₁ h₁ => ?_) edits h₀) fun _ w₁ h₁ => ?_
  · exact does_post (does_free_edit hK hf (by simpa using inert_staging id) h₁)
      fun _ _ h => h.1
  · split_ifs
    · exact does_throw (hf.quiet h₁.toQuiet)
    · exact does_pure h₁

end

/-! ## Commits -/

variable (hfaults : rules.settled → faults = false)

include hfaults

/-- `commit_record`, among quiet steps. -/
theorem commit_does {latest : Option GenerationId} {phase : Phase}
    (hf : rules.Resting w₀) (h₀ : Quiet w₀ w)
    (hallowed : ∀ w₁, Quiet w₀ w₁ → rules.commits w₁ ⟨RECORD_VERSION, latest, phase⟩)
    (hlatest : ∀ g, latest = some g → (∃ u, w₀.get (generationDir g) = some u) ∧
      (rules.settled → w₀.disk.old (generationDir g) = [])) : Does (rules.setting S faults still)
      (fun _ w' => S.recordOf w' = some ⟨RECORD_VERSION, latest, phase⟩ ∧ rules.Resting w')
      (S.commitRecord latest phase) w :=
  does_post (commitRecord_does (closed_quiet rules S faults still) hf hfaults (fun _ h => .inl h)
    (fun h => h) h₀ hallowed hlatest) fun _ _ h => ⟨h.1, h.2.1⟩

omit hfaults in
/-- An operation followed by `collect_garbage`. -/
theorem then_collect_does {α β : Type} {p : Io α} {f : α → β} {Q : α → World → Prop}
    (h : Does (rules.setting S faults still) Q p w) (hQ : ∀ a w', Q a w' → rules.Resting w') :
    rules.Rests S faults still (do let a ← p; let _ ← S.collectGarbage; pure (f a)) w :=
  does_bind h fun a w₁ h₁ =>
    does_bind (collectGarbage_does (hQ a w₁ h₁)) fun _ _ h₂ => does_pure h₂

/-- `commit_latest`. -/
theorem commitLatest_does {free : Path → Prop} {K : World → World → Prop}
    (hK : Closed (rules.setting S faults still) free K) (hfree : ∀ p, Inert p → free p)
    (hquiet : ∀ {w w'}, K w w' → Quiet w w') (hf : rules.Resting w)
    (hallowed : ∀ w₁, K w w₁ → rules.commits w₁ ⟨RECORD_VERSION, some id, .stopped⟩) :
    rules.Rests S faults still (S.commitLatest id) w := by
  refine does_bind (generation_does hK hf (hK.refl w)) fun G w₁ h₁ => ?_
  obtain ⟨hk₁, -, -, t, ht, -⟩ := h₁
  have hf₁ : rules.Resting w₁ := hf.quiet (hquiet hk₁)
  refine does_bind (commitRecord_does hK hf₁ hfaults hfree hquiet (hK.refl w₁)
    (fun w₂ h₂ => hallowed w₂ (hK.trans hk₁ h₂)) ?_)
    fun _ w₂ h₂ => does_bind (collectGarbage_does h₂.2.1) fun _ _ h => does_pure h
  rintro g ⟨⟩
  exact hf₁.inPlace ht

/-- `import_dir`. -/
theorem importDir_does {parent : Option GenerationId} {origin : Origin} (hf : rules.Resting w)
    (hi : Inv S rules.toMode w) (ho : rules.tracked → ∀ run, origin ≠ .snapshot run) :
    rules.Rests S faults still (S.importDir source parent origin) w := by
  refine does_bind (stage_does hf (Kept.refl still w)) fun id w₁ h₁ => ?_
  refine does_bind (importEntries_does hf h₁.1) fun _ w₂ h₂ => ?_
  exact does_post (publish_does (hf.quiet h₂.toQuiet) hfaults (h₂.wf hi.wf)
    fun hT run h => absurd h (ho hT run)) fun _ _ h => h.2.2

/-! ## The phase machine -/

variable (hrules : ∀ w record, Commits S still false w record → rules.commits w record)

include hrules

section

variable (hf : rules.Resting w) (hi : Inv S rules.toMode w)

include hf hi

/-- `finalGenerationOf`, and the commit that rolls forward to what it found. -/
theorem recoverRun_does {record : Record} (hr : S.recordOf w = some record)
    (hrun : record.phase.run = some run) :
    rules.Rests S faults still (S.recoverRun record run) w := by
  have hK := closed_quiet rules S faults still
  refine does_bind (Q := fun found w₁ => Quiet w w₁ ∧ ∀ id, found = some id → ∃ t G,
      w₁.get (generationDir id) = some t ∧ S.checkGeneration id (.ok t) = .ok G ∧
        G.manifest.origin = .snapshot run) ?_ fun found w₁ h₁ => ?_
  · refine does_bind (Q := fun r w₁ => Quiet w w₁ ∧ r = w₁.look [GENERATIONS_DIR])
      (does_look fun w₁ hg => ⟨hK.guest hg, rfl⟩) fun r w₁ h₁ => ?_
    refine does_ofExcept (hf.quiet h₁.1) fun found hfound => ⟨h₁.1, ?_⟩
    rintro id rfl
    exact finalIn_eq_some (h₁.2 ▸ hfound)
  obtain ⟨hq₁, hfinal⟩ := h₁
  have hr₁ := recordOf_quiet hq₁ hr
  have hf₁ := hf.quiet hq₁
  cases found with
  | some id =>
    obtain ⟨t, G, ht, hG, ho⟩ := hfinal id rfl
    refine does_bind (commit_does hfaults hf₁ (Quiet.refl w₁) (fun w₂ h₂ => hrules _ _ ?_) ?_)
      fun _ _ h => does_pure h.2
    · rintro run' owner ⟨record', hr', hp'⟩
      rw [recordOf_quiet h₂ hr₁] at hr'
      cases hr'
      rw [hp'] at hrun
      cases hrun
      exact .inr (.inr ⟨rfl, id, t, rfl, (h₂.gens id).trans ht, .inl ⟨G, hG, ho⟩⟩)
    · rintro g ⟨⟩
      exact hf₁.inPlace ht
  | none =>
    dsimp only
    split
    · next hp =>
      refine does_bind (commit_does hfaults hf₁ (Quiet.refl w₁) (fun w₂ h₂ => hrules _ _ ?_)
        ((hi.quiet hq₁).latest hf₁ hr₁)) fun _ _ h => does_pure h.2
      exact commits_of_not_dirty (recordOf_quiet h₂ hr₁) (by simp [hp]) _
    · exact does_throw hf₁

/-- `recover`. -/
theorem recover_does : rules.Rests S faults still S.recover w := by
  refine with_record_does hf fun record w₁ hk₁ hr₁ hf₁ => ?_
  refine then_collect_does (f := id) (Q := fun _ w' => rules.Resting w') ?_ fun _ _ h => h
  unfold recoverPhase
  split
  · exact does_pure hf₁
  · next run hrun => exact recoverRun_does hfaults hrules hf₁ (hi.quiet hk₁.toQuiet) hr₁ hrun

/-- `mark_dirty`: when it returns, the run is dirty. -/
theorem markDirty_does :
    Does (rules.setting S faults still)
      (fun _ w' => (∃ owner, S.DirtyIn w' run owner) ∧ rules.Resting w') (S.markDirty run) w := by
  refine with_record_does hf fun record w₁ hk₁ hr₁ hf₁ => ?_
  have hi₁ := hi.quiet hk₁.toQuiet
  split
  · next current owner hp =>
    split_ifs with hrun
    · refine does_post (commit_does hfaults hf₁ (Quiet.refl w₁) (fun w₂ h₂ => hrules _ _ ?_)
        (hi₁.latest hf₁ hr₁)) fun _ w₂ h₂ => ⟨⟨owner, _, h₂.1, rfl⟩, h₂.2⟩
      exact commits_of_not_dirty (recordOf_quiet h₂ hr₁) (by simp [hp]) _
    · exact does_throw hf₁
  · next current owner hp =>
    split_ifs with hrun
    · exact does_pure ⟨⟨owner, record, hr₁, hrun ▸ hp⟩, hf₁⟩
    · exact does_throw hf₁
  · exact does_throw hf₁

end

/-- `advance_latest`: a dirty run stays dirty. -/
theorem advanceLatest_does (hf : rules.Resting w) :
    rules.Rests S faults still (S.advanceLatest run id) w := by
  have hK := closed_quiet rules S faults still
  refine does_bind (generation_does hK hf (hK.refl w)) fun G w₁ h₁ => ?_
  obtain ⟨hq₁, -, -, t, ht, -⟩ := h₁
  have hf₁ := hf.quiet hq₁
  refine with_record_does hf₁ fun record w₂ hk₂ hr₂ hf₂ => ?_
  split_ifs with hrun
  · refine does_post (commit_does hfaults hf₂ (Quiet.refl w₂) (fun w₃ h₃ => hrules _ _ ?_) ?_)
      fun _ _ h => h.2
    · exact commits_of_phase (recordOf_quiet h₃ hr₂) rfl
    · rintro g ⟨⟩
      exact hf₂.inPlace ((hk₂.gens id).trans ht)
  · exact does_throw hf₂

/-- `abandon_run`: only an idle run is dropped. -/
theorem abandonRun_does (hf : rules.Resting w) (hi : Inv S rules.toMode w) :
    rules.Rests S faults still (S.abandonRun run) w := by
  refine with_record_does hf fun record w₁ hk₁ hr₁ hf₁ => ?_
  have hi₁ := hi.quiet hk₁.toQuiet
  split
  · next current owner hp =>
    split_ifs with hrun
    · refine then_collect_does (f := id) (commit_does hfaults hf₁ (Quiet.refl w₁)
        (fun w₂ h₂ => hrules _ _ ?_) (hi₁.latest hf₁ hr₁)) fun _ _ h => h.2
      exact commits_of_not_dirty (recordOf_quiet h₂ hr₁) (by simp [hp]) _
    · exact does_throw hf₁
  · exact does_throw hf₁

omit hrules in
/-- `discard_run`, the only operation that gives a dirty run up. -/
theorem discardRun_does
    (hrules : ∀ w record, Commits S still true w record → rules.commits w record)
    (hf : rules.Resting w) (hi : Inv S rules.toMode w) :
    rules.Rests S faults still S.discardRun w := by
  refine with_record_does hf fun record w₁ hk₁ hr₁ hf₁ => ?_
  have hi₁ := hi.quiet hk₁.toQuiet
  split
  · next run owner hp =>
    exact then_collect_does (f := fun _ => run) (commit_does hfaults hf₁ (Quiet.refl w₁)
      (fun w₂ _ => hrules _ _ fun _ _ _ => .inr (.inl rfl)) (hi₁.latest hf₁ hr₁))
      fun _ _ h => h.2
  · exact does_throw hf₁

section

variable (hf : rules.Resting w)

include hf

/-- `begin_run`: the run directory is filled and synced before the record names
    it. -/
theorem beginRun_does {owner : ProcessIdentity} {start : Option GenerationId}
    (hi : Inv S rules.toMode w) :
    rules.Rests S faults still (S.beginRun owner start) w := by
  have hK := closed_quiet rules S faults still
  refine with_record_does hf fun record w₁ hk₁ hr₁ hf₁ => ?_
  have hi₁ := hi.quiet hk₁.toQuiet
  split_ifs with hp
  · exact does_throw hf₁
  refine does_bind (runBase_does hf₁ (Quiet.refl w₁)) fun base w₂ h₂ => ?_
  refine does_bind (newRunId_does h₂) fun id w₃ h₃ => ?_
  refine does_bind (createDirAll_does hK hf₁ (.inr rfl) h₃) fun _ w₄ h₄ => ?_
  refine does_bind (fillRun_does hf₁ h₄.1) fun _ w₅ h₅ => ?_
  refine does_bind (syncTree_does hK hf₁ h₅) fun _ w₆ h₆ => ?_
  refine does_bind (sync_does hK hf₁ rfl h₆.1) fun _ w₇ h₇ => ?_
  refine does_bind (commit_does hfaults hf₁ h₇.1 (fun w₈ h₈ => hrules _ _ ?_)
    (hi₁.latest hf₁ hr₁)) fun _ _ h => does_pure h.2
  exact commits_of_not_dirty (recordOf_quiet h₈ hr₁) (by simp [not_not.1 hp]) _

/-! ## New generations -/

/-- Publishing a new generation that is no final snapshot and stopping at it,
    where no run is dirty. -/
theorem publishLatest_does {α : Type} {f : GenerationId → α} {record : Record}
    {parent : Option GenerationId} {origin : Origin} (hr : S.recordOf w = some record)
    (hp : record.phase = .stopped) (hwf : w.Wf) (ho : ∀ run, origin ≠ .snapshot run) :
    rules.Rests S faults still (do let id ← S.publish id parent origin; S.commitLatest id; pure (f id)) w := by
  refine does_bind (publish_does hf hfaults hwf fun _ run h => absurd h (ho run)) fun id' w₁ h₁ => ?_
  have hr₁ := recordOf_congr h₁.2.1.same.state hr
  refine does_bind (commitLatest_does hfaults (closed_quiet rules S faults still)
    (fun _ h => .inl h) (fun h => h) h₁.2.2 fun w₂ h₂ => hrules _ _ ?_) fun _ _ h => does_pure h
  exact commits_of_not_dirty (recordOf_quiet h₂ hr₁) (by simp [hp]) _

/-- `derive`. -/
theorem derive_does {edits : List { t : Dir // t.Distinct }} {fails : Bool}
    (hi : Inv S rules.toMode w) :
    rules.Rests S faults still (S.derive edits fails) w := by
  have hK := closed_kept rules S faults still
  refine with_record_does hf fun record w₁ hk₁ hr₁ hf₁ => ?_
  split_ifs with hp
  · exact does_throw hf₁
  split
  · exact does_throw hf₁
  refine does_bind (generation_does hK hf₁ (hK.refl w₁)) fun G w₂ h₂ => ?_
  refine does_bind (stage_does hf₁ h₂.1) fun staging w₃ h₃ => ?_
  have hin := inert_staging staging
  refine does_bind (copyFiles_does hK hf₁ hin hin.ne_nil h₃.1) fun _ w₄ h₄ => ?_
  refine does_bind (copyShares_does hK hf₁ hin hin.ne_nil h₄) fun _ w₅ h₅ => ?_
  refine does_bind (runEdit_does hf₁ h₅.1) fun _ w₆ h₆ => ?_
  exact publishLatest_does (f := id) hfaults hrules (hf₁.quiet h₆.toQuiet)
    (recordOf_quiet h₆.toQuiet hr₁) (not_not.1 hp) (h₆.wf (hk₁.wf hi.wf)) (by simp)

/-- `drop_memory`. -/
theorem dropMemory_does (hi : Inv S rules.toMode w) :
    rules.Rests S faults still S.dropMemory w := by
  have hK := closed_kept rules S faults still
  refine with_record_does hf fun record w₁ hk₁ hr₁ hf₁ => ?_
  split_ifs with hp
  · exact does_throw hf₁
  split
  · exact does_pure hf₁
  refine does_bind (generation_does hK hf₁ (hK.refl w₁)) fun G w₂ h₂ => ?_
  split_ifs
  · refine does_bind (stage_does hf₁ h₂.1) fun staging w₃ h₃ => ?_
    have hin := inert_staging staging
    refine does_bind (cloneOrCopyFile_does hK hf₁ hin hin.ne_nil h₃.1) fun _ w₄ h₄ => ?_
    refine does_bind (copyShares_does hK hf₁ hin hin.ne_nil h₄.1) fun _ w₅ h₅ => ?_
    exact publishLatest_does (f := some) hfaults hrules (hf₁.quiet h₅.1.toQuiet)
      (recordOf_quiet h₅.1.toQuiet hr₁) (not_not.1 hp) (h₅.1.wf (hk₁.wf hi.wf)) (by simp)
  · exact does_pure (hf₁.quiet h₂.1.toQuiet)

/-- `initialize`: the first generation and the first record. -/
theorem initializeStore_does {staging : GenerationId} (hwf : w.Wf) :
    rules.Rests S faults still (S.initializeStore staging) w := by
  refine does_bind (Q := fun r w₁ => Kept still w w₁ ∧ r = w₁.look [STATE_FILE])
    (does_look fun w₁ hg => ⟨Kept.of_guest hg, rfl⟩) fun r w₁ h₁ => ?_
  obtain ⟨hk₁, hlook⟩ := h₁
  have hf₁ := hf.quiet hk₁.toQuiet
  split
  · exact does_throw hf₁
  next e =>
  refine does_bind (publish_does hf₁ hfaults (hk₁.wf hwf) (by simp)) fun id w₂ h₂ => ?_
  obtain ⟨rfl, h₂, hf₂⟩ := h₂
  obtain ⟨t, G, hin, -⟩ := h₂.tree
  refine does_bind (commit_does hfaults hf₂ (Quiet.refl w₂) (fun w₃ h₃ => hrules _ _ ?_) ?_)
    fun _ _ h => does_pure h.2
  · -- there was no record, so no run is dirty
    rintro run owner ⟨record, hr, -⟩
    obtain ⟨u, hu, -⟩ := readRecord_of_recordOf hr
    rw [h₃.state, h₂.same.state, World.get_of_look_error hlook.symm] at hu
    cases hu
  · rintro g ⟨⟩
    exact hf₂.inPlace hin.get

end

end operations

end Lnx
