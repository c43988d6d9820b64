import Lnx.Store.Collection
import Lnx.Store.System

/-!
# Who reports a crashed run

Two functions decide whether an instance's last run crashed with unsaved state:
`Store::crashed`, which `refuse_crashed_run` and `lnx recover` ask, looks at the
phase only; `Store::recover` also looks for the run's final snapshot. They agree
exactly where no dirty run has one.

Results: `blames_iff`, `crash_reports_agree_iff`.
-/

namespace Lnx

open Store Prog

namespace Store

variable (S : Store)

/-- `refuse_crashed_run_unguarded` (`runner.rs` lines 336–343). -/
def refuseCrashedRun : Io Unit := do
  match ← S.crashed with
  | some crashed => throw crashed
  | none => pure ()

/-- The action of `recover_instance` (`cli.rs` lines 2417–2437), run under the
    instance lock: the message it prints, if there is a crashed run. -/
def recoverInstance (keep discard : Bool) : Io (Option String) := do
  match ← S.crashedRun with
  | none => pure none
  | some run =>
    if keep then do
      let _ ← S.salvage
      pure (some ("kept the disk of the crashed VM (run " ++ run.asStr ++
        "); its memory is lost and the next run boots"))
    else if discard then do
      let _ ← S.discardRun
      pure (some ("discarded the crashed VM (run " ++ run.asStr ++
        "); the next run resumes the last saved state"))
    else do
      match ← S.crashed with
      | some crashed => throw crashed
      | none => throw (.noCrashedRun "crashed run disappeared under the instance lock")

/-- `crashed` may report `run`. -/
def Reports (faults : Bool) (w : World) (run : RunId) : Prop :=
  ∃ w', Prog.Runs (FsSem faults) S.crashed w
    (.ok (some (.crashedWithUnsavedState S.instanceName run))) w'

/-- `recover` may refuse because of `run`. -/
def Blames (faults : Bool) (w : World) (run : RunId) : Prop :=
  ∃ w', Prog.Runs (FsSem faults) S.recover w
    (.error (.crashedWithUnsavedState S.instanceName run)) w'

/-- Crash reports agree with recovery, and so a final snapshot that was published
    is not given up: nobody is asked to choose, the next run rolls forward to it, and no
    choice replaces it. -/
structure CrashReportsAgree (faults : Bool) (w : World) : Prop where
  reports : ∀ run, S.Reports faults w run ↔ S.Blames faults w run
  unasked : ∀ run owner id, S.DirtyIn w run owner →
    S.finalIn run (w.look [GENERATIONS_DIR]) = .ok (some id) →
    ∀ r w', Prog.Runs (FsSem faults) S.refuseCrashedRun w r w' → r = .ok ()
  rolls : ∀ run owner id, S.DirtyIn w run owner →
    S.finalIn run (w.look [GENERATIONS_DIR]) = .ok (some id) →
    ∀ recovery w', Prog.Runs (FsSem faults) (S.refuseCrashedRun >>= fun _ => S.recover) w (.ok recovery) w' →
      recovery = .rolledForward id
  kept : ∀ run owner id, S.DirtyIn w run owner →
    S.finalIn run (w.look [GENERATIONS_DIR]) = .ok (some id) →
    ∀ keep discard message w', Prog.Runs (FsSem faults) (S.recoverInstance keep discard) w
      (.ok (some message)) w' → ∃ record, S.recordOf w' = some record ∧ record.latest = some id

end Store

/-! ## Errors that blame no run -/

/-- The result is not the error that blames a crashed run. -/
def Blameless {α : Type} (r : Except StoreError α) : Prop :=
  ∀ name run, r ≠ .error (.crashedWithUnsavedState name run)

variable {α : Type} {e : StoreError}

theorem Blameless.error {β : Type} (h : Blameless (.error e : Except StoreError α)) :
    Blameless (.error e : Except StoreError β) :=
  fun name run he => h name run (congrArg _ (Except.error.inj he))

/-- No run of `p` ends with that error. -/
def NeverBlames {α : Type} (p : Io α) : Prop :=
  ∀ faults w, Prog.Answers (FsSem faults) (fun _ _ => True) (fun _ _ => True)
    (fun r _ => Blameless r) p w

section

variable {α β : Type}

theorem neverBlames_pure (a : α) : NeverBlames (pure a : Io α) := fun _ _ _ _ => nofun

theorem neverBlames_throw (he : ∀ name run, e ≠ .crashedWithUnsavedState name run) :
    NeverBlames (throw e : Io α) := fun _ _ name run h => he name run (Except.error.inj h)

theorem neverBlames_bind {p : Io α} {f : α → Io β} (hp : NeverBlames p)
    (hf : ∀ a, NeverBlames (f a)) : NeverBlames (p >>= f) := fun faults w =>
  answers_bind (hp faults w) (fun a w' _ => hf a faults w')
    fun _ _ h => h.error

theorem neverBlames_perform (o : FsOp α) : NeverBlames (perform o) :=
  fun _ _ _ _ _ _ _ => ⟨trivial, nofun⟩

theorem neverBlames_attempt (doing : String) (path : Path) (o : FsOp (Except IoError α)) :
    NeverBlames (attempt doing path o) := by
  intro faults w w₁ _ r w₂ _
  refine ⟨trivial, ?_⟩
  cases r with
  | ok a | error e => exact nofun

theorem neverBlames_ofExcept {r : Except StoreError α} (h : Blameless r) : NeverBlames (ofExcept r) :=
  fun _ _ => h

theorem neverBlames_tryCatch {p : Io α} {handler : StoreError → Io α} (hp : NeverBlames p)
    (hh : ∀ e, (∀ name run, e ≠ .crashedWithUnsavedState name run) → NeverBlames (handler e)) :
    NeverBlames (tryCatch p handler) := by
  intro faults w
  refine meets_bind (meets_post (hp faults w) fun r w' hr => ?_)
  cases r with
  | ok a => exact nofun
  | error e => exact hh e (fun name run he => hr name run (congrArg _ he)) faults w'

end

theorem neverBlames_commitRecord (S : Store) (latest : Option GenerationId) (phase : Phase) :
    NeverBlames (S.commitRecord latest phase) := by
  refine neverBlames_bind (neverBlames_perform _) fun id => ?_
  refine neverBlames_tryCatch ?_ fun e he => ?_
  · refine neverBlames_bind ?_ fun _ => neverBlames_bind (neverBlames_attempt _ _ _) fun _ =>
      neverBlames_attempt _ _ _
    exact neverBlames_bind (neverBlames_attempt _ _ _) fun _ =>
      neverBlames_bind (neverBlames_attempt _ _ _) fun _ => neverBlames_attempt _ _ _
  · refine neverBlames_bind ?_ fun _ => neverBlames_throw he
    exact neverBlames_bind (neverBlames_perform _) fun _ => neverBlames_pure _

theorem blameless_readJson (c : Codec α) (path : Path) (found : Except IoError Dir) :
    Blameless (readJson c path found) := by
  unfold readJson
  split
  · exact nofun
  · exact nofun
  · exact nofun
  · exact nofun
  · split <;> exact nofun

theorem neverBlames_requireRecord (S : Store) : NeverBlames S.requireRecord := by
  refine neverBlames_bind (neverBlames_bind (neverBlames_perform _) fun found => ?_) fun record => ?_
  · refine neverBlames_ofExcept ?_
    have hread := blameless_readJson S.recordJson [STATE_FILE] found
    unfold readRecord
    split
    · next e he =>
      rw [he] at hread
      exact hread.error
    · exact nofun
    · split_ifs <;> exact nofun
  · split
    · exact neverBlames_pure _
    · exact neverBlames_throw nofun

theorem blameless_readRefs (S : Store) (isDir : GenerationId → Bool) (es : List (Name × Dir)) :
    Blameless (S.readRefs isDir es) := by
  induction es with
  | nil => simp [Blameless, readRefs]
  | cons e es ih =>
    obtain ⟨name, t⟩ := e
    simp only [readRefs]
    split_ifs
    · have hread := blameless_readJson S.refJson [CHECKPOINTS_DIR, name] (.ok t)
      split
      · next x hx =>
        rw [hx] at hread
        exact hread.error
      · exact ih
      · split
        · next x hx =>
          rw [hx] at ih
          exact ih.error
        · split_ifs <;> simp [Blameless]
    · exact ih

theorem neverBlames_checkpoints (S : Store) : NeverBlames S.checkpoints := by
  refine neverBlames_bind (neverBlames_perform _) fun found =>
    neverBlames_bind (neverBlames_perform _) fun gens => neverBlames_ofExcept ?_
  unfold refsIn
  split
  · exact nofun
  · exact nofun
  · exact nofun
  · next es =>
    have hrefs := blameless_readRefs S (hasDir gens) es
    split
    · next x hx =>
      rw [hx] at hrefs
      exact hrefs.error
    · exact nofun

theorem neverBlames_removePathIfExists (p : Path) : NeverBlames (removePathIfExists p) := by
  refine neverBlames_bind (neverBlames_perform _) fun found => ?_
  split
  · exact neverBlames_bind (neverBlames_attempt _ _ _) fun _ => neverBlames_attempt _ _ _
  · exact neverBlames_attempt _ _ _
  · exact neverBlames_pure _
  · exact neverBlames_throw nofun

theorem neverBlames_collectRuns (live : Option RunId) (names : List Name) :
    NeverBlames (collectRuns live names) := by
  induction names with
  | nil => exact neverBlames_pure _
  | cons name names ih =>
    simp only [collectRuns]
    split_ifs
    · exact ih
    · exact neverBlames_bind (neverBlames_removePathIfExists _) fun _ =>
        neverBlames_bind ih fun _ => neverBlames_pure _

theorem neverBlames_collectGeneration (id : GenerationId) :
    NeverBlames (collectGeneration id) := by
  refine neverBlames_bind (neverBlames_bind (neverBlames_perform _) fun found => ?_) fun pinned =>
    neverBlames_bind ?_ fun free => ?_
  · split
    · exact neverBlames_pure _
    · exact neverBlames_pure _
    · exact neverBlames_throw nofun
  · unfold lockPin
    split_ifs
    · exact neverBlames_perform _
    · exact neverBlames_pure _
  · split_ifs
    · exact neverBlames_bind (neverBlames_attempt _ _ _) fun _ =>
        neverBlames_bind (neverBlames_removePathIfExists _) fun _ => neverBlames_pure _
    · exact neverBlames_pure _

theorem neverBlames_collectGenerations (ref : List GenerationId) (names : List Name) :
    NeverBlames (collectGenerations ref names) := by
  induction names with
  | nil => exact neverBlames_pure _
  | cons name names ih =>
    simp only [collectGenerations]
    split_ifs
    · exact neverBlames_bind (neverBlames_removePathIfExists _) fun _ =>
        neverBlames_bind ih fun _ => neverBlames_pure _
    · split
      · exact ih
      · split_ifs
        · exact ih
        · exact neverBlames_bind (neverBlames_collectGeneration _) fun _ =>
            neverBlames_bind ih fun _ => neverBlames_pure _

theorem neverBlames_collectGarbage (S : Store) : NeverBlames S.collectGarbage :=
  neverBlames_bind (neverBlames_requireRecord S) fun _ =>
    neverBlames_bind (neverBlames_checkpoints S) fun _ =>
    neverBlames_bind (neverBlames_perform _) fun _ =>
    neverBlames_bind (neverBlames_collectRuns _ _) fun _ =>
    neverBlames_bind (neverBlames_perform _) fun _ =>
    neverBlames_bind (neverBlames_collectGenerations _ _) fun _ => neverBlames_pure _

/-! ## What the two functions answer -/

section

variable {S : Store} {faults : Bool} {w : World}

theorem NeverBlames.answers {p : Io α} (h : NeverBlames p) {rely : World → World → Prop}
    {post : Except StoreError α → World → Prop} (hpost : ∀ r w', Blameless r → post r w') :
    Prog.Answers (FsSem faults) rely (fun _ _ => True) post p w :=
  meets_mono (fun _ _ _ => trivial) (fun _ _ h => h) (fun r w' hr => hpost r w' hr) (h faults w)

/-- `crashed_run` finds the run of a dirty phase. -/
theorem crashedRun_meets : Prog.Answers (FsSem faults) (Pins true) (fun _ _ => True)
    (fun r _ => ∀ run, r = .ok (some run) ↔ ∃ owner, S.DirtyIn w run owner) S.crashedRun w := by
  refine answers_bind (record_meets fun _ => trivial) (fun found w₁ h₁ => ?_) fun e w' h => ?_
  · have hrec : S.recordOf w = found := by rw [recordOf, ← h₁.2]
    split
    · next version latest run owner =>
      intro run'
      constructor
      · intro h
        cases h
        exact ⟨owner, _, hrec, rfl⟩
      · rintro ⟨owner', record, hr, hp⟩
        cases hrec.symm.trans hr
        cases hp
        rfl
    · next hne =>
      intro run'
      constructor
      · simp
      · rintro ⟨owner', record, hr, hp⟩
        rw [hrec] at hr
        obtain ⟨version, latest, phase⟩ := record
        cases hp
        exact absurd hr (hne version latest run' owner')
  · intro run'
    constructor
    · simp
    · rintro ⟨owner', record, hr, -⟩
      rw [recordOf, ← h.2] at hr
      cases hr

variable {run : RunId}

theorem reports_iff : S.Reports faults w run ↔ ∃ owner, S.DirtyIn w run owner := by
  have hmeets : Prog.Answers (FsSem faults) (Pins true) (fun _ _ => True)
      (fun r _ => ∀ run, r = .ok (some (.crashedWithUnsavedState S.instanceName run)) ↔
        ∃ owner, S.DirtyIn w run owner) S.crashed w := by
    refine answers_bind crashedRun_meets (fun found w₁ h₁ run => ?_) fun e w' h run => ?_
    · rw [← h₁ run]
      cases found with
      | none =>
        exact ⟨nofun, nofun⟩
      | some run' =>
        constructor
        · intro h
          cases h
          rfl
        · intro h
          cases h
          rfl
    · rw [← h run]
      exact ⟨nofun, nofun⟩
  constructor
  · rintro ⟨w', h⟩
    exact (meets_runs (pins_refl true) hmeets h run).1 rfl
  · intro h
    have hrun := runs_exec faults S.crashed w
    have hr := (meets_runs (pins_refl true) hmeets hrun run).2 h
    exact ⟨_, hr ▸ hrun⟩

theorem blameless_finalIn (run : RunId) (found : Except IoError Dir) :
    Blameless (S.finalIn run found) := by
  unfold finalIn idsIn
  split
  · next e he =>
    intro name run' h
    cases h
    split at he <;> cases he
  · exact nofun

theorem finalGenerationOf_meets :
    Prog.Answers (FsSem faults) (Pins true) (fun _ _ => True) (fun r _ =>
      r = S.finalIn run (w.look [GENERATIONS_DIR])) (S.finalGenerationOf run) w := by
  rintro w₁ hg found w₂ ⟨rfl, rfl⟩
  refine ⟨trivial, ?_⟩
  rw [hg.look]
  rfl

theorem neverBlames_rollForward (id : GenerationId) : NeverBlames (do
    S.commitRecord (some id) .stopped
    pure (Recovery.rolledForward id)) :=
  neverBlames_bind (neverBlames_commitRecord S _ _) fun _ => neverBlames_pure _

theorem neverBlames_recoverRun_running {record : Record} {owner : ProcessIdentity}
    (hp : record.phase = .running run owner) : NeverBlames (S.recoverRun record run) := by
  refine neverBlames_bind (neverBlames_bind (neverBlames_perform _) fun found =>
    neverBlames_ofExcept (blameless_finalIn run found)) fun final => ?_
  split
  · exact neverBlames_rollForward _
  · rw [hp]
    exact neverBlames_bind (neverBlames_commitRecord S _ _) fun _ => neverBlames_pure _

/-- The run of a dirty phase has no final snapshot. -/
def Store.Lost (S : Store) (w : World) (run : RunId) : Prop :=
  (∃ owner, S.DirtyIn w run owner) ∧ S.finalIn run (w.look [GENERATIONS_DIR]) = .ok none

/-- `recover` blames the run of a dirty phase if it finds no final snapshot. -/
theorem recover_meets : Prog.Answers (FsSem faults) (Pins true) (fun _ _ => True)
    (fun r _ => ∀ run, r = .error (.crashedWithUnsavedState S.instanceName run) ↔ S.Lost w run)
    S.recover w := by
  -- where nobody is to blame, it is enough that the program never blames
  have hnobody : ∀ {α : Type} {r : Except StoreError α}, (∀ run, ¬ S.Lost w run) → Blameless r → ∀ run,
      (r = .error (.crashedWithUnsavedState S.instanceName run) ↔ S.Lost w run) :=
    fun hno hr run => ⟨fun h => absurd h (hr _ run), fun h => absurd h (hno run)⟩
  have hrest : ∀ recovery : Recovery, NeverBlames (do let _ ← S.collectGarbage; pure recovery) :=
    fun _ => neverBlames_bind (neverBlames_collectGarbage S) fun _ => neverBlames_pure _
  refine answers_bind (meets_and (requireRecord_meets fun _ => trivial)
    ((neverBlames_requireRecord S).answers fun r w' h => h)) (fun record w₁ h₁ => ?_) fun e w' h => ?_
  swap
  · refine hnobody (fun run hrun => ?_) h.2.error
    obtain ⟨⟨_, _, hr, -⟩, -⟩ := hrun
    rw [h.1.2.2 e rfl] at hr
    cases hr
  obtain ⟨⟨hg, hrec, -⟩, -⟩ := h₁
  replace hrec := hrec record rfl
  have hphase : ∀ {run owner}, S.DirtyIn w run owner → record.phase = .dirty run owner := by
    rintro run owner ⟨record', hr, hp⟩
    cases hrec.symm.trans hr
    exact hp
  unfold recoverPhase
  cases hp : record.phase with
  | stopped =>
    refine (neverBlames_bind (neverBlames_pure _) hrest).answers fun r w' hr =>
      hnobody (fun run hrun => ?_) hr
    obtain ⟨⟨owner, hd⟩, -⟩ := hrun
    cases hp.symm.trans (hphase hd)
  | running run owner =>
    refine (neverBlames_bind (neverBlames_recoverRun_running hp) hrest).answers
      fun r w' hr => hnobody (fun run' hrun => ?_) hr
    obtain ⟨⟨owner', hd⟩, -⟩ := hrun
    cases hp.symm.trans (hphase hd)
  | dirty run owner =>
    have hdirty : S.DirtyIn w run owner := ⟨record, hrec, hp⟩
    have honly : ∀ {run' owner'}, S.DirtyIn w run' owner' → run' = run := by
      intro run' owner' hd
      cases hp.symm.trans (hphase hd)
      rfl
    refine answers_bind (Q := fun r _ => ∀ run', (r = .error (.crashedWithUnsavedState
      S.instanceName run') ↔ S.Lost w run'))
      (answers_bind finalGenerationOf_meets (fun final w₂ h₂ => ?_) fun e w₂ h₂ => ?_)
      (fun recovery w₂ h₂ => ?_) fun e w₂ h₂ run' => ?_
    · rw [hg.look] at h₂
      split
      · refine (neverBlames_rollForward _).answers fun r w' hr =>
          hnobody (fun run' hrun => ?_) hr
        obtain ⟨⟨owner', hd⟩, hf⟩ := hrun
        rw [honly hd, ← h₂] at hf
        cases hf
      · rw [hp]
        intro run'
        constructor
        · intro h
          cases h
          exact ⟨⟨owner, hdirty⟩, h₂.symm⟩
        · rintro ⟨⟨owner', hd⟩, -⟩
          rw [honly hd]
    · rw [hg.look] at h₂
      have hfinal : Blameless (S.finalIn run (w.look [GENERATIONS_DIR])) := blameless_finalIn run _
      rw [← h₂] at hfinal
      refine hnobody (fun run' hrun => ?_) hfinal.error
      obtain ⟨⟨owner', hd⟩, hf⟩ := hrun
      rw [honly hd, ← h₂] at hf
      cases hf
    · refine (hrest recovery).answers fun r w' hr => hnobody (fun run' hrun => ?_) hr
      cases (h₂ run').2 hrun
    · rw [← h₂ run']

/-- `recover` refuses exactly because of a dirty run without a final snapshot. -/
theorem blames_iff : S.Blames faults w run ↔ S.Lost w run := by
  constructor
  · rintro ⟨w', h⟩
    exact (meets_runs (pins_refl true) recover_meets h run).1 rfl
  · intro h
    have hrun := runs_exec faults S.recover w
    have hr := (meets_runs (pins_refl true) recover_meets hrun run).2 h
    exact ⟨_, hr ▸ hrun⟩

end

/-- Crash reports agree with recovery exactly in the stores in which no dirty run has
    published a complete final snapshot, and `generations/` can be listed. -/
theorem crash_reports_agree_iff (S : Store) (faults : Bool) (w : World) :
    S.CrashReportsAgree faults w ↔
      ∀ run owner, S.DirtyIn w run owner → S.finalIn run (w.look [GENERATIONS_DIR]) = .ok none := by
  constructor
  · intro h run owner hd
    have hblames := (h.reports run).1 (reports_iff.2 ⟨owner, hd⟩)
    exact (blames_iff.1 hblames).2
  · intro h
    refine ⟨fun run => ?_, ?_, ?_, ?_⟩
    · rw [reports_iff, blames_iff]
      exact ⟨fun ⟨owner, hd⟩ => ⟨⟨owner, hd⟩, h run owner hd⟩, fun hd => hd.1⟩
    -- no dirty run has a final snapshot
    all_goals
      intro run owner id hd hf
      rw [h run owner hd] at hf
      cases hf

/-- The first run of an instance has taken its final snapshot, and its owner has died
    before `commit_latest`. -/
def unlinkedWorld : World :=
  execCalls plainStore (firstRun ++ [.capture ⟨"r", validComponent_r⟩ (some (generationIdOf 0)) none .snapshot
    (fun _ => true) ⟨"7", [1], [2], []⟩]) emptyWorld

/-- There the run is reported as crashed although `recover` would roll forward to its
    final snapshot, and `lnx recover --discard` returns to the state before it. -/
theorem crash_reports_may_disagree :
    ∃ w, (storeCalls plainStore True).Reachable ⟨w, none⟩ ∧
      plainStore.Reports false w ⟨"r", by decide⟩ ∧ ¬ plainStore.Blames false w ⟨"r", by decide⟩ ∧
      (∃ w', Prog.Runs (FsSem false) plainStore.recover w
        (.ok (.rolledForward (generationIdOf 1))) w') ∧
      ∃ message w' record, Prog.Runs (FsSem false) (plainStore.recoverInstance false true) w
          (.ok (some message)) w' ∧
        plainStore.recordOf w' = some record ∧ record.latest = some (generationIdOf 0) := by
  have hreach : (storeCalls plainStore True).Reachable ⟨unlinkedWorld, none⟩ := by
    refine reachable_execCalls rfl rfl (fun c hc w h => ?_) (.init ⟨emptyWorld_empty, rfl, rfl, rfl⟩)
    rcases List.mem_append.1 hc with hc | hc
    · exact firstRun_disciplined plainStore c hc w h
    · rw [List.mem_singleton.1 hc]
      trivial
  have hrecord : plainStore.recordOf unlinkedWorld =
      some ⟨1, some (generationIdOf 0), .dirty ⟨"r", by decide⟩ ⟨1, 1⟩⟩ := by decide +kernel
  have hfinal : plainStore.finalIn ⟨"r", by decide⟩ (unlinkedWorld.look [GENERATIONS_DIR]) =
      .ok (some (generationIdOf 1)) := by decide +kernel
  have hrecover : (plainStore.recover.execFs unlinkedWorld).1 =
      .ok (.rolledForward (generationIdOf 1)) := by decide +kernel
  have hdiscard : ((plainStore.recoverInstance false true).execFs unlinkedWorld).1 =
      .ok (some "discarded the crashed VM (run r); the next run resumes the last saved state") := by
    decide +kernel
  have hlatest : plainStore.recordOf ((plainStore.recoverInstance false true).execFs unlinkedWorld).2 =
      some ⟨1, some (generationIdOf 0), .stopped⟩ := by decide +kernel
  have hruns := runs_exec false plainStore.recover unlinkedWorld
  have hruns' := runs_exec false (plainStore.recoverInstance false true) unlinkedWorld
  rw [hrecover] at hruns
  rw [hdiscard] at hruns'
  generalize unlinkedWorld = w at *
  refine ⟨w, hreach, reports_iff.2 ⟨_, _, hrecord, rfl⟩, fun h => ?_, ⟨_, hruns⟩,
    _, _, _, hruns', hlatest, rfl⟩
  cases hfinal.symm.trans (blames_iff.1 h).2

end Lnx
