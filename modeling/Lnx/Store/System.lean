import Lnx.Store.Capture
import Lnx.Store.Exec
import Lnx.Store.Plain

/-!
# The store under crashes, faults and a writing guest

The lock holder runs one operation of the store after another. Between any two
of its file system calls the guest writes its run directory, other processes take
and drop pins, and the process may die; a later one starts again with any call.

* `storeCalls`: the system, with the operations as `Call`s.
* `storeCalls_keeps`: every call takes only `StoreStep`s, so `Inv` holds in every
  reachable configuration.
* `latest_intact`: the record always parses, and the generation it names is
  complete and as `publish` put it in place.
* `no_acknowledged_write_lost`: a dirty run stays dirty until it is discarded or
  its state is saved, and until then `recover` refuses and changes nothing.
-/

namespace Lnx

open Calls Prog World List Store

/-- What a capture of a run is for. -/
inductive CaptureKind
  | checkpoint
  | snapshotExit
  | snapshot
  deriving DecidableEq

/-- The origin of the generation a capture publishes. -/
def CaptureKind.origin (run : RunId) : CaptureKind → Origin
  | checkpoint => .checkpoint run
  | snapshotExit => .snapshotExit run
  | snapshot => .snapshot run

/-- The calls a process can make while it holds the instance lock. `fill` is a
    caller writing a staging directory between `stage` and `publish`. -/
inductive Call
  | initializeStore (staging : GenerationId)
  | recover
  | beginRun (owner : ProcessIdentity) (start : Option GenerationId)
  | markDirty (run : RunId)
  | advanceLatest (run : RunId) (id : GenerationId)
  | importDir (source : List (Name × Dir)) (parent : Option GenerationId) (origin : Origin)
  | stage
  | fill (staging : GenerationId) (t : { t : Dir // t.Distinct })
  | publish (staging : GenerationId) (parent : Option GenerationId) (origin : Origin)
  | commitLatest (id : GenerationId)
  | salvage
  | discardRun
  | abandonRun (run : RunId)
  | derive (edits : List { t : Dir // t.Distinct }) (fails : Bool)
  | dropMemory
  | addCheckpoint (checkpoint : CheckpointRef)
  | removeCheckpoint (id : String)
  | collectGarbage
  | capture (run : RunId) (base lastCapture : Option GenerationId) (kind : CaptureKind)
      (sound : Bytes → Bool) (files : CaptureFiles)
  | abandon (run : RunId) (dirty quiesced : Bool) (notice : Bytes)

/-- The error a function returns, if it returns one. -/
def outcome {α : Type} (p : Io α) : Prog FsOp (Option StoreError) :=
  Prog.bind p fun r =>
    match r with
    | .ok _ => .ret none
    | .error e => .ret (some e)

/-- The program of a call. -/
def Call.prog (S : Store) : Call → Prog FsOp (Option StoreError)
  | initializeStore staging => outcome (S.initializeStore staging)
  | recover => outcome S.recover
  | beginRun owner start => outcome (S.beginRun owner start)
  | markDirty run => outcome (S.markDirty run)
  | advanceLatest run id => outcome (S.advanceLatest run id)
  | importDir source parent origin => outcome (S.importDir source parent origin)
  | stage => outcome Store.stage
  | fill staging t => outcome (attempt "write" (stagingDir staging) (.edit (.fill (stagingDir staging) t)))
  | publish staging parent origin => outcome (S.publish staging parent origin)
  | commitLatest id => outcome (S.commitLatest id)
  | salvage => outcome S.salvage
  | discardRun => outcome S.discardRun
  | abandonRun run => outcome (S.abandonRun run)
  | derive edits fails => outcome (S.derive edits fails)
  | dropMemory => outcome S.dropMemory
  | addCheckpoint checkpoint => outcome (S.addCheckpoint checkpoint)
  | removeCheckpoint id => outcome (S.removeCheckpoint id)
  | collectGarbage => outcome S.collectGarbage
  | capture run base lastCapture kind sound files =>
    outcome (S.capture run base lastCapture (kind.origin run) sound files)
  | abandon run dirty quiesced notice => outcome (S.abandon run dirty quiesced notice)

/-- During these calls nothing writes the run directory: the VM is gone, or its
    guest has flushed and stopped. -/
def Call.still : Call → Bool
  | salvage => true
  | abandon _ dirty quiesced _ => dirty && quiesced
  | _ => false

/-- The call that gives a dirty run up. -/
def Call.discards : Call → Bool
  | discardRun => true
  | _ => false

/-- How a VM owner calls the store: only captures publish generations with origin
    `Snapshot`, and while a run is dirty, `commit_latest` is for its final
    snapshot. -/
def Call.Disciplined (S : Store) (w : World) : Call → Prop
  | importDir _ _ origin | publish _ _ origin => ∀ run, origin ≠ .snapshot run
  | commitLatest id => ∀ run owner, S.DirtyIn w run owner →
      ∃ t G, w.get (generationDir id) = some t ∧ S.checkGeneration id (.ok t) = .ok G ∧
        G.manifest.origin = .snapshot run
  | _ => True

/-- The lock holders of one instance, from an empty instance directory on. With
    `disciplined`, they call the store as a VM owner does; without it, with any
    arguments in any order. -/
def storeCalls (S : Store) (disciplined : Prop) : Calls FsOp World Call (Option StoreError) where
  init w := w.Empty ∧ w.paused = false ∧ w.moved = [] ∧ w.captured = []
  enabled w c := disciplined → c.Disciplined S w
  prog := Call.prog S
  sem := FsSem true
  env c := Guest (c.any Call.still)
  crash w w' := w' = { w with paused := false }

/-- What the steps of a call are held to. -/
def Call.rules (S : Store) (disciplined : Prop) (c : Call) : Rules where
  commits w record := disciplined → Commits S c.still c.discards w record
  tracked := disciplined
  settled := False
  renamed := True

/-- What a call has achieved when it returns. -/
def Call.post (S : Store) : Call → Option StoreError → World → Prop
  | markDirty run, none, w => ∃ owner, S.DirtyIn w run owner
  | _, _, _ => True

variable {faults : Bool} {w : World} {c : Call} {t : Dir}

theorem outcome_meets {S : Store} {still : Bool} {rules : Rules} {α : Type} {p : Io α}
    {post : α → World → Prop} {post' : Option StoreError → World → Prop}
    (h : Does (rules.setting S faults still) post p w) (hok : ∀ a w', post a w' → post' none w')
    (herr : ∀ e w', rules.Resting w' → post' (some e) w') :
    (outcome p).Meets (FsSem faults) (Guest still) (StoreStep S rules) post' w := by
  refine meets_bind (meets_post h fun r w' hr => ?_)
  cases r with
  | ok a => exact hok a w' hr
  | error e => exact herr e w' hr

section

variable {S : Store} {disciplined : Prop} {w : World}

/-- Every call, started in a sound instance directory, takes only steps it is
    allowed. -/
theorem call_meets (rules : Rules) (hfaults : rules.settled → faults = false)
    (hrules : ∀ w record, Commits S c.still c.discards w record → rules.commits w record)
    (hcommit : ∀ id, c = .commitLatest id → ∀ w₁, Quiet w w₁ →
      rules.commits w₁ ⟨RECORD_VERSION, some id, .stopped⟩)
    (hf : rules.Resting w) (hi : Inv S rules.toMode w) (he : rules.tracked → c.Disciplined S w) :
    (c.prog S).Meets (FsSem faults) (Guest c.still) (StoreStep S rules)
      (fun r w' => c.post S r w' ∧ rules.Resting w') w := by
  -- most calls promise nothing more when they return
  have hstep : ∀ {α : Type} {p : Io α} {post : α → World → Prop},
      (∀ r w', c.post S r w') → (∀ a w', post a w' → rules.Resting w') →
      Does (rules.setting S faults c.still) post p w →
      (outcome p).Meets (FsSem faults) (Guest c.still) (StoreStep S rules)
        (fun r w' => c.post S r w' ∧ rules.Resting w') w := fun hpost hrest h =>
    outcome_meets h (fun a w' ha => ⟨hpost none w', hrest a w' ha⟩) fun e w' hw =>
      ⟨hpost (some e) w', hw⟩
  have hrest : ∀ {α : Type} (a : α) w', rules.Resting w' → rules.Resting w' := fun _ _ h => h
  have htriv : ∀ (r : Option StoreError) (w' : World), True := fun _ _ => trivial
  cases c with
  | initializeStore staging =>
    exact hstep htriv hrest (initializeStore_does hfaults hrules hf hi.wf)
  | recover => exact hstep htriv hrest (recover_does hfaults hrules hf hi)
  | beginRun owner start => exact hstep htriv hrest (beginRun_does hfaults hrules hf hi)
  | markDirty run =>
    exact outcome_meets (markDirty_does hfaults hrules hf hi) (fun _ _ h => h) fun _ _ h => ⟨trivial, h⟩
  | advanceLatest run id => exact hstep htriv hrest (advanceLatest_does hfaults hrules hf)
  | importDir source parent origin => exact hstep htriv hrest (importDir_does hfaults hf hi he)
  | stage =>
    exact hstep htriv (fun _ _ h => hf.quiet h.1.toQuiet) (stage_does hf (Kept.refl _ w))
  | fill staging t =>
    have hfree : ∀ p ∈ (Edit.fill (stagingDir staging) t).footprint, Inert p := by
      simpa using inert_staging staging
    exact hstep htriv (fun _ _ h => hf.quiet h.1.toQuiet)
      (does_free_edit (closed_kept rules S faults _) hf hfree (Kept.refl _ w))
  | publish staging parent origin =>
    exact hstep htriv (fun _ _ h => h.2.2)
      (publish_does hf hfaults hi.wf fun hT run h => absurd h (he hT run))
  | commitLatest id =>
    exact hstep htriv hrest (commitLatest_does hfaults (closed_quiet rules S faults _)
      (fun _ h => .inl h) (fun h => h) hf (hcommit id rfl))
  | salvage => exact hstep htriv hrest (salvage_does hfaults rfl hrules hf hi)
  | discardRun => exact hstep htriv hrest (discardRun_does hfaults hrules hf hi)
  | abandonRun run => exact hstep htriv hrest (abandonRun_does hfaults hrules hf hi)
  | derive edits fails => exact hstep htriv hrest (derive_does hfaults hrules hf hi)
  | dropMemory => exact hstep htriv hrest (dropMemory_does hfaults hrules hf hi)
  | addCheckpoint checkpoint => exact hstep htriv hrest (addCheckpoint_does hf)
  | removeCheckpoint id => exact hstep htriv hrest (removeCheckpoint_does hf)
  | collectGarbage => exact hstep htriv hrest (collectGarbage_does hf)
  | capture run base lastCapture kind sound files =>
    refine hstep htriv hrest (capture_does hfaults hf hi fun run' h => ?_)
    cases kind <;> cases h
    rfl
  | abandon run dirty quiesced notice =>
    exact hstep htriv hrest (abandon_does hfaults id hrules hf hi)

theorem Call.post_congr {r : Option StoreError} {w' : World} (h : Quiet w w') (hp : c.post S r w) :
    c.post S r w' := by
  cases c <;> cases r <;> first | exact hp | skip
  obtain ⟨owner, record, hr, hphase⟩ := hp
  exact ⟨owner, record, recordOf_quiet h hr, hphase⟩

/-- Where the instance directory is empty, it is sound. -/
theorem Inv.of_empty {mode : Mode} (h : w.Empty) : Inv S mode w := by
  have hstate : w.get [STATE_FILE] = none := h.get (by decide) []
  refine ⟨fun t ht => ?_, fun {g t} ht => ?_, fun _ o ho => ?_, h.wf⟩
  · rw [hstate] at ht
    cases ht
  · rw [generationDir, h.get (by decide)] at ht
    cases ht
  · rw [candidates, h.disk, mem_singleton] at ho
    rw [ho, binding, hstate]
    trivial

/-- The death of the process only ends a pause. -/
theorem Quiet.of_crash {w' : World} (h : (storeCalls S disciplined).crash w w') : Quiet w w' := by
  obtain rfl := h
  exact ⟨rfl, fun _ => rfl, fun _ => rfl, fun _ hc => hc, .refl _ _, fun _ _ => .refl _ _,
    fun hw => ⟨hw.top, hw.runs, hw.gens, hw.made⟩⟩

/-- Every call keeps the instance directory sound. -/
theorem storeCalls_keeps (S : Store) (disciplined : Prop) :
    (storeCalls S disciplined).Keeps (Inv S ⟨disciplined, False, True⟩) (fun _ => True)
      (fun c => StoreStep S (c.rules S disciplined)) (Call.post S) where
  init _ h := ⟨Inv.of_empty h.1, trivial⟩
  call w c hi _ he := by
    refine meets_post (call_meets (c.rules S disciplined) (fun h => h.elim)
      (fun _ _ h _ => h) ?_ (fun h => h.elim) hi he) fun _ _ h => h.1
    rintro id rfl w₁ h₁ hT run owner ⟨record, hr, hp⟩
    obtain ⟨t, G, ht, hG, ho⟩ := he hT run owner
      ⟨record, recordOf_congr h₁.state.symm hr, hp⟩
    exact .inr (.inr ⟨rfl, id, t, rfl, (h₁.gens id).trans ht, .inl ⟨G, hG, ho⟩⟩)
  guar _ _ _ hi h := h.inv hi
  env _ _ _ hi h := hi.quiet (Kept.of_guest h).toQuiet
  envPost _ _ _ _ h hp := Call.post_congr (Kept.of_guest h).toQuiet hp
  envRest _ _ _ _ := trivial
  envTrans _ _ _ _ h₁ h₂ := guest_trans h₁ h₂
  envRefl _ w := guest_refl _ w
  ret _ _ _ _ := trivial
  crash _ _ hi h := ⟨hi.quiet (Quiet.of_crash h), trivial⟩

end

/-- `Store::generation` succeeds where the generation's directory is complete. -/
theorem generation_runs {S : Store} {g : GenerationId} {G : Generation}
    (ht : w.get (generationDir g) = some t) (hG : S.checkGeneration g (.ok t) = .ok G) :
    Prog.Runs (α := Except StoreError Generation) (FsSem faults) (S.generation g) w (.ok G) w := by
  refine .op (r := w.look (generationDir g)) ⟨rfl, rfl⟩ ?_
  rw [look_eq_ok.2 ht]
  show Prog.Runs (FsSem faults) (.ret (S.checkGeneration g (.ok t))) w (.ok G) w
  rw [hG]
  exact .ret _ w

/-! ## Runs to the end -/

/-- The instance directory after the given calls, each run to its end. -/
def execCalls (S : Store) : List Call → World → World
  | [], w => w
  | c :: calls, w => execCalls S calls ((c.prog S).execFs w).2

section

variable {S : Store} {C : Calls FsOp World Call (Option StoreError)} {faults : Bool}
  (hprog : C.prog = Call.prog S) (hsem : C.sem = FsSem faults)

include hprog hsem

theorem reachable_call (hx : C.Reachable ⟨w, none⟩) (hc : C.enabled w c) :
    C.Reachable ⟨((c.prog S).execFs w).2, some (c, .ret ((c.prog S).execFs w).1)⟩ := by
  have hstart := hx.next (.start hc)
  rw [hprog] at hstart
  refine reachable_runs hstart ?_
  rw [hsem]
  exact runs_exec faults (c.prog S) w

theorem reachable_execCalls {calls : List Call} (hc : ∀ c ∈ calls, ∀ w, C.enabled w c)
    (hx : C.Reachable ⟨w, none⟩) : C.Reachable ⟨execCalls S calls w, none⟩ := by
  induction calls generalizing w with
  | nil => exact hx
  | cons c calls ih =>
    refine ih (fun c' h => hc c' (mem_cons_of_mem _ h)) ?_
    exact (reachable_call hprog hsem hx (hc c mem_cons_self w)).next .finish

end

/-- An instance directory before `initialize`. -/
def emptyWorld : World :=
  ⟨.node [], .node [], fun _ => false, false, ⟨fun _ => true, fun _ => []⟩, [], [], []⟩

/-- A staged disk of one byte. -/
def oneByteDisk : { t : Dir // t.Distinct } :=
  ⟨.node [(ROOTFS, .leaf (.file [7]))], .node (by decide) (by
    intro e he
    obtain rfl := mem_singleton.1 he
    exact .leaf _)⟩

theorem validComponent_r : validComponent "r" = true := by
  decide

/-- An instance is set up from a disk and its first run serves a command. -/
def firstRun : List Call :=
  [.stage, .fill (generationIdOf 0) oneByteDisk, .initializeStore (generationIdOf 0),
    .beginRun ⟨1, 1⟩ none, .markDirty ⟨"r", validComponent_r⟩]

theorem emptyWorld_empty : emptyWorld.Empty := ⟨rfl, rfl, fun _ => rfl⟩

theorem firstRun_disciplined (S : Store) {disciplined : Prop} :
    ∀ c ∈ firstRun, ∀ w, disciplined → c.Disciplined S w := by
  simp [firstRun, Call.Disciplined]

theorem reachable_firstRun (S : Store) (disciplined : Prop) :
    (storeCalls S disciplined).Reachable ⟨execCalls S firstRun emptyWorld, none⟩ :=
  reachable_execCalls rfl rfl (firstRun_disciplined S) (.init ⟨emptyWorld_empty, rfl, rfl, rfl⟩)

/-- Whatever operations ran and wherever they were cut short: if `state.json` is
    there, it parses, and the generation it names is complete and, to the last byte
    of every file, the directory that `publish` renamed into place. -/
theorem latest_intact (S : Store) {x : Config FsOp World Call (Option StoreError)}
    (hx : (storeCalls S False).Reachable x) {t : Dir} (ht : x.state.get [STATE_FILE] = some t) :
    ∃ record, S.readRecord (.ok t) = .ok (some record) ∧
      ∀ g, record.latest = some g → ∃ u G,
        Prog.Runs (α := Except StoreError Generation) (FsSem true) (S.generation g) x.state (.ok G)
          x.state ∧
        x.state.get (generationDir g) = some u ∧
        Assoc.get (generationDir g) x.state.moved = some u := by
  obtain ⟨hi, -⟩ := reachable_inv (storeCalls_keeps S False) hx
  obtain ⟨record, hr, hl⟩ := hi.record t ht
  refine ⟨record, hr, fun g hg => ?_⟩
  obtain ⟨u, hu⟩ := hl g hg
  obtain ⟨G, hG⟩ := (hi.inPlace hu).complete
  exact ⟨u, G, generation_runs hu hG, hu, (hi.inPlace hu).moved trivial⟩

theorem latest_intact_firstRun :
    ∃ t, (execCalls plainStore firstRun emptyWorld).get [STATE_FILE] = some t ∧
      ∃ record, plainStore.readRecord (.ok t) = .ok (some record) ∧
        ∀ g, record.latest = some g → ∃ u G,
          Prog.Runs (α := Except StoreError Generation) (FsSem true) (plainStore.generation g)
            (execCalls plainStore firstRun emptyWorld) (.ok G)
            (execCalls plainStore firstRun emptyWorld) ∧
          (execCalls plainStore firstRun emptyWorld).get (generationDir g) = some u ∧
          Assoc.get (generationDir g) (execCalls plainStore firstRun emptyWorld).moved = some u := by
  have hsome : ((execCalls plainStore firstRun emptyWorld).get [STATE_FILE]).isSome = true := by
    decide +kernel
  have hx := reachable_firstRun plainStore False
  generalize execCalls plainStore firstRun emptyWorld = w at hx hsome ⊢
  obtain ⟨t, ht⟩ := Option.isSome_iff_exists.1 hsome
  exact ⟨t, ht, latest_intact plainStore hx ht⟩

/-! ## Dirty runs -/

/-- The step from `x` to `y` stops the instance with what `run` wrote saved: the new
    latest generation is the run's final snapshot and equals the run directory at
    its capture, or `salvage` made it equal to the run directory as it is. -/
def SavedBy (S : Store) (run : RunId) (x y : Config FsOp World Call (Option StoreError)) : Prop :=
  ∃ record g t, S.recordOf y.state = some record ∧ record.phase = .stopped ∧
    record.latest = some g ∧ y.state.get (generationDir g) = some t ∧
    ((∃ G c, S.checkGeneration g (.ok t) = .ok G ∧ G.manifest.origin = .snapshot run ∧
        c ∈ y.state.captured ∧ c.run = run ∧ c.generation = g ∧ SameState c.work t) ∨
      (∃ c p, x.running = some (c, p) ∧ c.still = true ∧
        SameState (x.state.runs.get [run.asStr]) t))

section

variable {S : Store} {rules : Rules} {w w' : World} {run : RunId} {owner : ProcessIdentity}

theorem Store.DirtyIn.congr (h : S.DirtyIn w run owner)
    (hs : w'.get [STATE_FILE] = w.get [STATE_FILE]) : S.DirtyIn w' run owner := by
  obtain ⟨record, hr, hp⟩ := h
  exact ⟨record, recordOf_congr hs hr, hp⟩

/-- Only a commit ends a dirty run. -/
theorem StoreStep.dirty (h : StoreStep S rules w w') (hd : S.DirtyIn w run owner) :
    S.DirtyIn w' run owner ∨ ∃ record, rules.commits w record ∧ S.recordOf w' = some record ∧
      (∀ g, w'.get (generationDir g) = w.get (generationDir g)) ∧ w'.captured = w.captured := by
  cases h with
  | quiet h => exact .inl (hd.congr h.state)
  | publish g t hsame hnew hin | collect g hsame hnone hlatest hsettled =>
    exact .inl (hd.congr hsame.state)
  | commit record hallowed hgens hmoved hcaptured hdata hold hdisk hwf hruns hstate hlatest =>
    obtain ⟨b, ht, hr⟩ := hstate
    exact .inr ⟨record, hallowed, recordOf_of_get ht hr, hgens, hcaptured⟩

/-- A dirty run stays dirty until it is discarded or its state is saved. -/
theorem dirty_until_saved {x y : Config FsOp World Call (Option StoreError)}
    (hx : (storeCalls S True).Reachable x) (hn : (storeCalls S True).Next x y)
    (hd : S.DirtyIn x.state run owner) :
    S.DirtyIn y.state run owner ∨ (∃ p, x.running = some (.discardRun, p)) ∨ SavedBy S run x y := by
  have hk := storeCalls_keeps S True
  obtain ⟨hi, -⟩ := reachable_inv hk hx
  cases hn with
  | start he | finish => exact .inl hd
  | env he => exact .inl (hd.congr (Kept.of_guest he).state)
  | crash hc => exact .inl (hd.congr (Quiet.of_crash hc).state)
  | @step β o k w w' c r ho =>
    rcases (reachable_step hk hx ho).dirty hd with hd' | ⟨record, hc, hr, hgens, hcap⟩
    · exact .inl hd'
    rcases hc trivial run owner hd with hp | hp | hs
    · exact .inl ⟨record, hr, hp⟩
    · refine .inr (.inl ⟨.op o k, ?_⟩)
      cases c <;> cases hp
      rfl
    · obtain ⟨g, t, hl, ht, hsaved⟩ := hs.latest
      refine .inr (.inr ⟨record, g, t, hr, hs.stopped, hl, (hgens g).trans ht, ?_⟩)
      rcases hsaved with ⟨G, hG, ho⟩ | ⟨hstill, hsame⟩
      · obtain ⟨cap, hmem, hrun, hgen, hsame⟩ := (hi.inPlace ht).snapshot trivial G run hG ho
        exact .inl ⟨G, cap, hG, ho, hcap ▸ hmem, hrun, hgen, hsame⟩
      · exact .inr ⟨c, _, rfl, hstill, hsame⟩

/-- In a sound instance directory with a record, `generation_ids` succeeds. -/
theorem idsIn_of_wf (hwf : w.Wf) (ht : w.get [STATE_FILE] = some t) :
    ∃ ids, idsIn (w.look [GENERATIONS_DIR]) = .ok ids := by
  have htop : ∃ es, w.top = .node es := by
    cases hw : w.top with
    | node es => exact ⟨es, rfl⟩
    | leaf a =>
      have hs : ¬ STATE_FILE = RUNS_DIR := by decide
      simp [World.get, hs, hw] at ht
  obtain ⟨es, hes⟩ := htop
  have hg : ¬ GENERATIONS_DIR = RUNS_DIR := by decide
  cases hl : w.look [GENERATIONS_DIR] with
  | ok d =>
    cases d with
    | node ds => exact ⟨_, rfl⟩
    | leaf a => exact absurd (peek_eq_leaf.2 (look_eq_ok.1 hl)) (hwf.gens a)
  | error e =>
    simp only [look, hg, ite_false, hes, resolve] at hl
    split at hl
    · cases hl
      exact ⟨_, rfl⟩
    · cases hl

theorem finalIn_eq_none (hwf : w.Wf) (ht : w.get [STATE_FILE] = some t)
    (hnone : ∀ g u G, w.get (generationDir g) = some u → S.checkGeneration g (.ok u) = .ok G →
      G.manifest.origin ≠ .snapshot run) :
    S.finalIn run (w.look [GENERATIONS_DIR]) = .ok none := by
  obtain ⟨ids, hids⟩ := idsIn_of_wf hwf ht
  cases hf : S.finalIn run (w.look [GENERATIONS_DIR]) with
  | error e =>
    rw [finalIn, hids] at hf
    cases hf
  | ok found =>
    cases found with
    | none => rfl
    | some id =>
      obtain ⟨u, G, hu, hG, ho⟩ := finalIn_eq_some hf
      exact absurd ho (hnone id u G hu hG)

/-- Where `final_generation_of` finds none, there is no complete final snapshot. -/
theorem not_final_of_finalIn (h : S.finalIn run (w.look [GENERATIONS_DIR]) = .ok none)
    (g : GenerationId) (u : Dir) (G : Generation) (hu : w.get (generationDir g) = some u)
    (hG : S.checkGeneration g (.ok u) = .ok G) : G.manifest.origin ≠ .snapshot run := by
  intro ho
  have hmem := mem_listing hu
  cases hl : w.look [GENERATIONS_DIR] with
  | error e =>
    rw [hl] at hmem
    cases hmem
  | ok d =>
    cases d with
    | leaf a =>
      rw [hl] at hmem
      cases hmem
    | node es =>
      rw [hl] at h hmem
      have hget : (Tree.node es).get [g.asStr] = some u := by
        have happ := get_append (w := w) (p := [GENERATIONS_DIR]) (by simp) [g.asStr]
        rw [look_eq_ok.1 hl] at happ
        exact happ.symm.trans hu
      have hnil := List.getLast?_eq_none_iff.1 (Except.ok.inj h)
      refine filter_eq_nil_iff.1 hnil g ?_ ?_
      · rw [mem_insertionSort]
        exact mem_filterMap.2 ⟨g.asStr, hmem, g.tryFrom_asStr⟩
      · show S.isFinalOf run g (resolve (.node es) [g.asStr]) = true
        rw [resolve_eq_ok.2 hget]
        simp [isFinalOf, hG, ho]

/-- Where a run is dirty and has no final snapshot, `recover` refuses, and no step
    of it changes anything. -/
theorem recover_refuses (faults still : Bool) (hwf : w.Wf) (hd : S.DirtyIn w run owner)
    (hnone : ∀ g u G, w.get (generationDir g) = some u → S.checkGeneration g (.ok u) = .ok G →
      G.manifest.origin ≠ .snapshot run) :
    Prog.Answers (FsSem faults) (Guest still) (fun w w' => w' = w)
      (fun r _ => r = .error (.crashedWithUnsavedState S.instanceName run)) S.recover w := by
  obtain ⟨record, hr, hp⟩ := hd
  refine Prog.answers_bind (Q := fun r w₁ => r = .ok record ∧ Guest still w w₁) ?_ ?_ (by simp)
  · rintro w₁ hg r w₂ ⟨rfl, rfl⟩
    refine ⟨rfl, ?_⟩
    obtain ⟨t, ht, hread⟩ := readRecord_of_recordOf
      (recordOf_quiet (Kept.of_guest hg).toQuiet hr)
    rw [World.look_eq_ok.2 ht]
    show Prog.Meets _ _ _ _ (Prog.bind (Prog.ret (S.readRecord (.ok t))) _) _
    rw [hread]
    exact ⟨rfl, hg⟩
  · rintro a w₁ ⟨⟨⟩, hg⟩
    have hq := (Kept.of_guest hg).toQuiet
    obtain ⟨t, ht, -⟩ := readRecord_of_recordOf (recordOf_quiet hq hr)
    refine Prog.answers_bind (Q := fun r _ =>
      r = .error (.crashedWithUnsavedState S.instanceName run)) ?_ (by simp) (fun _ _ h => by
        rw [Except.error.inj h])
    simp only [recoverPhase, hp, Phase.run, recoverRun]
    rintro w₂ hg' r w₃ ⟨rfl, rfl⟩
    refine ⟨rfl, ?_⟩
    have hq' := hq.trans (Kept.of_guest hg').toQuiet
    show Prog.Meets _ _ _ _ (Prog.bind (Prog.ret (S.finalIn run (w₃.look [GENERATIONS_DIR]))) _) _
    rw [finalIn_eq_none (hq'.wf hwf) ((Kept.of_guest hg').state.trans ht) fun g u G hu =>
      hnone g u G ((hq'.gens g).symm.trans hu)]
    rfl

end

/-- No acknowledged write is lost silently. When `mark_dirty` has returned, the run
    is dirty. A step that ends a dirty run discards it, or saves what it wrote. And
    where a run is dirty and has no complete final snapshot, `recover` returns
    `CrashedWithUnsavedState`, and no step of it changes anything. -/
theorem no_acknowledged_write_lost (S : Store) :
    (∀ w run, (storeCalls S True).Reachable ⟨w, some (.markDirty run, .ret none)⟩ →
      ∃ owner, S.DirtyIn w run owner) ∧
    (∀ x y run owner, (storeCalls S True).Reachable x → (storeCalls S True).Next x y →
      S.DirtyIn x.state run owner →
      S.DirtyIn y.state run owner ∨ (∃ p, x.running = some (.discardRun, p)) ∨ SavedBy S run x y) ∧
    (∀ w run owner, (storeCalls S True).Reachable ⟨w, none⟩ → S.DirtyIn w run owner →
      (∀ g u G, w.get (generationDir g) = some u → S.checkGeneration g (.ok u) = .ok G →
        G.manifest.origin ≠ .snapshot run) →
      Prog.Runs (α := Except StoreError Recovery) (FsSem true) S.recover w
        (.error (.crashedWithUnsavedState S.instanceName run)) w ∧
      Prog.Answers (FsSem true) (Guest false) (fun w w' => w' = w)
        (fun r _ => r = .error (.crashedWithUnsavedState S.instanceName run)) S.recover w) := by
  refine ⟨fun w run hx => ?_, fun x y run owner hx hn hd => dirty_until_saved hx hn hd,
    fun w run owner hx hd hnone => ?_⟩
  · exact reachable_post (storeCalls_keeps S True) hx
  · have hwf := (reachable_inv (storeCalls_keeps S True) hx).1.wf
    have hrefuses := recover_refuses true false hwf hd hnone
    have hruns := runs_exec (α := Except StoreError Recovery) true S.recover w
    have hresult := meets_runs (guest_refl false) hrefuses hruns
    have hsame := meets_runs_guar hrefuses hruns (guest_refl false) (fun _ => rfl)
      fun _ _ _ h₁ h₂ => h₂.trans h₁
    rw [hresult, hsame] at hruns
    exact ⟨hruns, hrefuses⟩

theorem no_acknowledged_write_lost_firstRun :
    (∃ owner, plainStore.DirtyIn (execCalls plainStore firstRun emptyWorld) ⟨"r", by decide⟩ owner) ∧
    Prog.Runs (α := Except StoreError Recovery) (FsSem true) plainStore.recover
      (execCalls plainStore firstRun emptyWorld)
      (.error (.crashedWithUnsavedState plainStore.instanceName ⟨"r", by decide⟩))
      (execCalls plainStore firstRun emptyWorld) := by
  have hrecord : plainStore.recordOf (execCalls plainStore firstRun emptyWorld) =
      some ⟨1, some (generationIdOf 0), .dirty ⟨"r", by decide⟩ ⟨1, 1⟩⟩ := by decide +kernel
  have hfinal : plainStore.finalIn ⟨"r", by decide⟩
      ((execCalls plainStore firstRun emptyWorld).look [GENERATIONS_DIR]) = .ok none := by
    decide +kernel
  have hx := reachable_firstRun plainStore True
  generalize execCalls plainStore firstRun emptyWorld = w at hx hrecord hfinal ⊢
  obtain ⟨-, -, hrefuses⟩ := no_acknowledged_write_lost plainStore
  have hd : plainStore.DirtyIn w ⟨"r", by decide⟩ ⟨1, 1⟩ := ⟨_, hrecord, rfl⟩
  exact ⟨⟨_, hd⟩, (hrefuses w _ _ hx hd (not_final_of_finalIn hfinal)).1⟩

end Lnx
