import Lnx.Store.Operations

/-!
# Salvage and captures keep what the run wrote

Both copy the run's disk and host-share state into a new generation while nothing
writes the run directory: `salvage` because the VM is gone or quiet, a capture
because the VM is paused from before the first copy until the staging directory
is complete.

Results: `copyWork_does`, `salvage_does`, `capture_does`, `abandon_does`.
-/

namespace Lnx

open List World

variable {w' w₀ : World} {run : RunId} {id : GenerationId}

/-- The work directory of a run, seen through the instance directory. -/
theorem World.peek_runDir (w : World) (run : RunId) (q : Path) :
    ((w.runs.get [run.asStr]).bind fun d => d.peek q) = w.peek (runDir run ++ q) := by
  have hget : w.get (runDir run ++ q) = (w.runs.get [run.asStr]).bind fun d => d.get q := by
    rw [← Tree.get_append]
    simp [get]
  rw [peek, hget]
  cases w.runs.get [run.asStr] <;> rfl

variable {w : World} {p : Path} {n : Name}

/-- What stands below a run directory depends on the run directories alone. -/
theorem World.get_runDir_congr (h : w'.runs = w.runs) (run : RunId) (q : Path) :
    w'.get (runDir run ++ q) = w.get (runDir run ++ q) := by
  simp [get, h]

theorem Undisturbed.peek_append (h : Undisturbed w w') (hp : Inert p) (q : Path) :
    w'.peek (p ++ q) = w.peek (p ++ q) := h _ (hp.append q).runs

theorem Elsewhere.peek_sibling {m : Name} (h : Elsewhere (p ++ [n]) w w') (hp : Inert p)
    (hne : n ≠ m) (q : Path) :
    w'.peek (p ++ m :: q) = w.peek (p ++ m :: q) := by
  refine h _ (fun hpre => hne ?_) (hp.append _).runs
  simpa using hpre

theorem Elsewhere.peek_parent (h : Elsewhere (p ++ [n]) w w') (hp : Inert p) :
    w'.peek p = w.peek p :=
  h _ (not_prefix_of_concat p n) hp.runs

section

variable {S : Store} {faults still : Bool} {rules : Rules} {w : World}

/-- The copy of a work directory nobody writes: afterwards the new directory holds
    the run's disk and host-share state. -/
theorem copyWork_does {dir : Path} (hf : rules.Resting w₀) (hin : Inert dir)
    (hdir : w.peek dir = some none) (hnew : w.peek (dir ++ [HOST_SHARE_STATE]) = none)
    (hwf : w₀.Wf) (hfrozen : still = true ∨ w₀.paused = true) (h₀ : Kept still w₀ w) :
    Does (rules.setting S faults still)
      (fun _ w' => Kept still w₀ w' ∧ ∀ name ∈ [ROOTFS, HOST_SHARE_STATE], ∀ q,
        w₀.peek (runDir run ++ name :: q) = w'.peek (dir ++ name :: q))
      (Store.copyWork run dir) w := by
  have hK := closed_kept rules S faults still
  have hruns : ∀ {w₁}, Kept still w₀ w₁ → ∀ q, w₁.get (runDir run ++ q) = w₀.get (runDir run ++ q) :=
    fun h q => get_runDir_congr (h.runs hfrozen) run q
  have hrd : ∀ q, runDir run ++ q ≠ [] := fun q => by simp
  refine does_bind (cloneOrCopyFile_does hK hf hin hin.ne_nil h₀) fun _ w₁ h₁ => ?_
  obtain ⟨hk₁, ⟨x, b, hkx, hsrc, hdst⟩, he₁⟩ := h₁
  have he₁ := he₁ hin.runs hdir
  -- the disk: a leaf on both sides
  have hdisk : ∀ q, w₀.peek (runDir run ++ ROOTFS :: q) = w₁.peek (dir ++ ROOTFS :: q) := by
    intro q
    rw [hruns hkx] at hsrc
    have hl := peek_append (hrd _) hsrc q
    have hr := holds_leaf (by simp) hdst q
    rw [append_assoc] at hl hr
    exact hl.trans hr.symm
  refine does_post (copyShares_does hK hf hin hin.ne_nil hk₁) fun _ w₂ h₂ => ⟨h₂.1, ?_⟩
  have hnew₁ : w₁.peek (dir ++ [HOST_SHARE_STATE]) = none := by
    rw [he₁.peek_sibling hin (by decide), hnew]
  have hboth : (∀ q, w₂.peek (dir ++ ROOTFS :: q) = w₁.peek (dir ++ ROOTFS :: q)) ∧
      ∀ q, w₀.peek (runDir run ++ HOST_SHARE_STATE :: q) = w₂.peek (dir ++ HOST_SHARE_STATE :: q) := by
    rcases h₂.2 with ⟨y, hky, hnone, hu⟩ | ⟨y, t, hky, hsome, hu, hcopied⟩
    · refine ⟨fun q => hu.peek_append hin _, fun q => ?_⟩
      rw [hu.peek_append hin]
      rw [hruns hky] at hnone
      have hl := peek_below_none (q := q) (hrd _) (peek_eq_none.2 hnone)
      have hr := peek_below_none (q := q) (by simp) hnew₁
      rw [append_assoc] at hl hr
      exact hl.trans hr.symm
    · obtain ⟨he, hholds⟩ := hcopied hin.runs (get_distinct (hky.wf hwf).distinct hsome)
        (by rw [hu _ hin.runs, he₁.peek_parent hin, hdir])
        (fun m q => by
          rw [peek_below_none (by simp)]
          rw [hu.peek_append hin, hnew₁])
      refine ⟨fun q => ?_, fun q => ?_⟩
      · rw [he.peek_sibling hin (by decide), hu.peek_append hin]
      · rw [hruns hky] at hsome
        have hl := peek_append (hrd _) hsome q
        have hr := hholds q
        rw [append_assoc] at hl hr
        exact hl.trans hr.symm
  intro name hname q
  rcases mem_cons.1 hname with rfl | hname
  · rw [hboth.1, hdisk]
  · rw [mem_singleton.1 hname]
    exact hboth.2 q

/-- `salvage`: the new latest generation equals the run directory. -/
theorem salvage_does (hfaults : rules.settled → faults = false) (hstill : still = true)
    (hrules : ∀ w record, Commits S still false w record → rules.commits w record)
    (hf : rules.Resting w) (hi : Inv S rules.toMode w) :
    rules.Rests S faults still S.salvage w := by
  have hK := closed_kept rules S faults still
  refine with_record_does hf fun record w₁ hk₁ hr₁ hf₁ => ?_
  have hwf₁ := hk₁.wf hi.wf
  split
  swap
  · exact does_throw hf₁
  next run owner hp =>
  refine does_bind (stage_does hf₁ (Kept.refl still w₁)) fun staging w₂ h₂ => ?_
  obtain ⟨hk₂, hdir, hnew, -⟩ := h₂
  refine does_bind (copyWork_does hf₁ (inert_staging staging) hdir (hnew _ (by simp)) hwf₁
    (.inl hstill) hk₂) fun _ w₃ h₃ => ?_
  obtain ⟨hk₃, hcopy⟩ := h₃
  refine does_bind (publish_does (hf₁.quiet hk₃.toQuiet) hfaults (hk₃.wf hwf₁) (by simp))
    fun id w₄ h₄ => ?_
  obtain ⟨rfl, hpub, hf₄⟩ := h₄
  obtain ⟨t, G, hin, -, -, hpeek⟩ := hpub.tree
  refine does_bind (commitLatest_does hfaults hK (fun _ h => h) (fun h => h.toQuiet) hf₄
    fun w₅ h₅ => hrules _ _ ?_) fun _ _ h => does_pure h
  rintro run' owner' ⟨record', hr', hp'⟩
  rw [Store.recordOf_congr (h₅.state.trans (hpub.same.state.trans hk₃.state)) hr₁] at hr'
  cases hr'
  rw [hp] at hp'
  cases hp'
  refine .inr (.inr ⟨rfl, id, t, rfl, (h₅.gens id).trans hin.get, .inr ⟨hstill, ?_⟩⟩)
  have hruns : w₅.runs = w₁.runs := calc
    w₅.runs = w₄.runs := h₅.runs (.inl hstill)
    _ = w₃.runs := hpub.runs (.inl hstill)
    _ = w₁.runs := hk₃.runs (.inl hstill)
  intro name hname q
  have hne := work_ne_manifest hname
  rw [hruns, peek_runDir, hcopy name hname q, hpeek name q hne.1 hne.2]

/-- `RunSession::abandon`. -/
theorem abandon_does {dirty quiesced : Bool} {notice : Bytes}
    (hfaults : rules.settled → faults = false) (hstill : (dirty && quiesced) = true → still = true)
    (hrules : ∀ w record, Commits S still false w record → rules.commits w record)
    (hf : rules.Resting w) (hi : Inv S rules.toMode w) :
    rules.Rests S faults still (S.abandon run dirty quiesced notice) w := by
  have hK := closed_quiet rules S faults still
  unfold Store.abandon
  split_ifs with hquiet
  · refine does_bind (salvage_does hfaults (hstill hquiet) hrules hf hi) fun _ w₁ h₁ => ?_
    exact does_post (writeFile_does hK h₁ (.inl inert_notice) (hK.refl w₁)) fun _ _ h => h₁.quiet h.1
  · exact does_pure hf
  · exact abandonRun_does hfaults hrules hf hi

/-! ## Captures -/

theorem captureDir_not_below_staging (id : GenerationId) (pid : String) (p q : Path) :
    ¬ stagingDir id ++ p <+: captureDir id pid ++ q := by
  intro h
  have hpre : stagingDir id <+: captureDir id pid ++ q := (prefix_append _ p).trans h
  have heq := prefix_of_prefix_length_le hpre (prefix_append _ q) (le_refl 2)
  exact captureDir_ne_staging id pid (heq.eq_of_length rfl).symm

/-- Writing the staging directory leaves captures being written alone. -/
theorem Elsewhere.peek_capture (h : Elsewhere (stagingDir id ++ p) w w') (pid : String) (q : Path) :
    w'.peek (captureDir id pid ++ q) = w.peek (captureDir id pid ++ q) :=
  h _ (captureDir_not_below_staging id pid p q) ((inert_capture id pid).append q).runs

/-- A staging directory for a capture that has not begun. -/
structure Fresh (id : GenerationId) (w : World) : Prop where
  dir : w.peek (stagingDir id) = some none
  capture : ∀ pid q, w.peek (captureDir id pid ++ q) = none

theorem Fresh.elsewhere (h : Fresh id w) (he : Elsewhere (stagingDir id ++ [n]) w w') :
    Fresh id w' where
  dir := (he.peek_parent (inert_staging id)).trans h.dir
  capture pid q := (he.peek_capture pid q).trans (h.capture pid q)

theorem Fresh.undisturbed (h : Fresh id w) (hu : Undisturbed w w') : Fresh id w' where
  dir := (hu _ (inert_staging id).runs).trans h.dir
  capture pid q := (hu.peek_append (inert_capture id pid) q).trans (h.capture pid q)

theorem seedFile_does {src : Path} (hf : rules.Resting w₀) (h₀ : Kept still w₀ w)
    (hfresh : Fresh id w) :
    Does (rules.setting S faults still) (fun _ w' => Kept still w₀ w' ∧ Fresh id w')
      (cloneOrCopyFile src (stagingDir id ++ [n])) w := by
  have hin := inert_staging id
  exact does_post (cloneOrCopyFile_does (closed_kept rules S faults still) hf hin hin.ne_nil h₀)
    fun _ w' h => ⟨h.1, hfresh.elsewhere (h.2.2 hin.runs hfresh.dir)⟩

/-- `RunSession::stage`. -/
theorem sessionStage_does {lastCapture : Option GenerationId} (hf : rules.Resting w) :
    Does (rules.setting S faults still) (fun id w' => Kept still w w' ∧ Fresh id w')
      (S.sessionStage lastCapture) w := by
  have hK := closed_kept rules S faults still
  refine does_bind (stage_does hf (Kept.refl still w)) fun id w₁ h₁ => ?_
  obtain ⟨hk₁, hdir, -, hcap⟩ := h₁
  refine does_bind (Q := fun _ w' => Kept still w w' ∧ Fresh id w') ?_ fun _ _ h => does_pure h
  cases lastCapture with
  | none => exact does_pure ⟨hk₁, hdir, hcap⟩
  | some base =>
    refine does_bind (Q := fun _ w₂ => Kept still w w₂ ∧ Fresh id w₂) ?_ fun G w₂ h₂ => ?_
    · refine does_bind (Q := fun _ w₂ => Kept still w w₂ ∧ Fresh id w₂)
        (does_look fun w₂ hg => ⟨hk₁.trans (hK.guest hg),
          Fresh.undisturbed ⟨hdir, hcap⟩ (Undisturbed.of_guest hg)⟩) fun r w₂ h₂ => ?_
      exact does_ofExcept (hf.quiet h₂.1.toQuiet) fun _ _ => h₂
    · split_ifs
      · refine does_bind (seedFile_does hf h₂.1 h₂.2) fun _ w₃ h₃ => ?_
        exact seedFile_does hf h₃.1 h₃.2
      · exact does_pure h₂

/-- `publish_snapshot_dir`: the staging directory becomes what was captured. -/
theorem publishSnapshotDir_does {pid : String} (hf : rules.Resting w₀) (h₀ : Kept still w₀ w) :
    Does (rules.setting S faults still) (fun _ w' => Kept still w₀ w' ∧
        ∀ q, w'.peek (stagingDir id ++ q) = w.peek (captureDir id pid ++ q))
      (publishSnapshotDir (captureDir id pid) (stagingDir id)) w := by
  have hK := closed_kept rules S faults still
  refine does_bind (Q := fun _ w₁ => Kept still w₀ w₁ ∧ Elsewhere (stagingDir id) w w₁) ?_
    fun _ w₁ h₁ => ?_
  · refine does_bind (Q := fun _ w₁ => Kept still w₀ w₁ ∧ Elsewhere (stagingDir id) w w₁)
      (does_look fun w₁ hg => ⟨h₀.trans (hK.guest hg), Elsewhere.of_guest hg _⟩) fun r w₁ h₁ => ?_
    split
    · exact does_post (removeDirAll_does hK hf (inert_staging id) h₁.1) fun _ _ h =>
        ⟨h.1, h₁.2.trans h.2⟩
    · exact does_pure h₁
  · obtain ⟨hk₁, he₁⟩ := h₁
    refine does_post (does_free_edit hK hf (Edit.forall_rename (inert_capture id pid) (inert_staging id)) hk₁)
      fun _ w₂ h₂ => ?_
    obtain ⟨hk₂, x, hg, he⟩ := h₂
    refine ⟨hk₂, fun q => ?_⟩
    cases he with
    | done h =>
      obtain ⟨t, y, ht, hy, rfl, -⟩ := Edit.rename_eq_ok h
      have hget := get_put_self hy
      have hnew := peek_append (inert_staging id).ne_nil hget q
      have hold := peek_append (inert_capture id pid).ne_nil ht q
      have hcap := ((Elsewhere.of_guest hg (stagingDir id ++ [])).peek_capture pid q)
      have hcap' := Elsewhere.peek_capture (p := []) (by simpa using he₁) pid q
      exact hnew.trans (hold.symm.trans (hcap.trans hcap'))

variable {files : CaptureFiles}

/-- `capture_paused`: afterwards the staging directory holds the run's disk and
    host-share state as they were at the pause. -/
theorem capturePaused_does (hf : rules.Resting w) (hwf : w.Wf) (hpaused : w.paused = true)
    (hnone : ∀ q, w.peek (captureDir id files.pid ++ q) = none) :
    Does (rules.setting S faults still) (fun _ w' => Kept still w w' ∧
        ∀ name ∈ [ROOTFS, HOST_SHARE_STATE], ∀ q,
          w.peek (runDir run ++ name :: q) = w'.peek (stagingDir id ++ name :: q))
      (capturePaused run id files) w := by
  have hK := closed_kept rules S faults still
  have hin := inert_capture id files.pid
  refine does_bind (createDirAll_does hK hf hin (hK.refl w)) fun _ w₁ h₁ => ?_
  obtain ⟨hk₁, hdir₁, hb₁⟩ := h₁
  refine does_bind (installFile_does hK hf (hin.append _) hk₁) fun _ w₂ h₂ => ?_
  obtain ⟨hk₂, he₂, -⟩ := h₂
  refine does_bind (installFile_does hK hf (hin.append _) hk₂) fun _ w₃ h₃ => ?_
  obtain ⟨hk₃, he₃, -⟩ := h₃
  have hdir₃ : w₃.peek (captureDir id files.pid) = some none := by
    rw [he₃.peek_parent hin, he₂.peek_parent hin, hdir₁ hin.ne_nil hin.runs]
  have hnew₃ : w₃.peek (captureDir id files.pid ++ [HOST_SHARE_STATE]) = none := by
    rw [he₃.peek_sibling hin (by decide), he₂.peek_sibling hin (by decide),
      hb₁ _ (not_prefix_of_concat _ _) (hin.append _).runs, hnone]
  refine does_bind (copyWork_does hf hin hdir₃ hnew₃ hwf (.inr hpaused) hk₃) fun _ w₄ h₄ => ?_
  obtain ⟨hk₄, hcopy⟩ := h₄
  refine does_post (publishSnapshotDir_does hf hk₄) fun _ w₅ h₅ => ⟨h₅.1, fun name hname q => ?_⟩
  rw [h₅.2, hcopy name hname q]

theorem resume_does {post : Unit → World → Prop}
    (h : ∀ w', Quiet w w' → Undisturbed w w' → post () w') :
    Does (rules.setting S faults still) post (perform .resume) w := by
  rintro w₁ hg r w₂ rfl
  have hq : Quiet w₁ { w₁ with paused := false } :=
    ⟨rfl, fun _ => rfl, fun _ => rfl, fun _ hc => hc, .refl _ _, fun _ _ => .refl _ _,
      fun hw => ⟨hw.top, hw.runs, hw.gens, hw.made⟩⟩
  refine ⟨.quiet hq, h _ ((Kept.of_guest hg).toQuiet.trans hq) ?_⟩
  exact (Undisturbed.of_guest hg).trans fun _ _ => rfl

/-- A capture of `run` for `id` is on record, and the staging directory holds what
    it paused on. -/
def CapturedIn (run : RunId) (id : GenerationId) (w : World) : Prop :=
  ∃ c ∈ w.captured, c.run = run ∧ c.generation = id ∧ ∀ name ∈ [ROOTFS, HOST_SHARE_STATE], ∀ q,
    (c.work.bind fun d => d.peek (name :: q)) = w.peek (stagingDir id ++ name :: q)

theorem CapturedIn.mono (h : CapturedIn run id w) (hq : Quiet w w')
    (hs : ∀ name ∈ [ROOTFS, HOST_SHARE_STATE], ∀ q,
      w'.peek (stagingDir id ++ name :: q) = w.peek (stagingDir id ++ name :: q)) :
    CapturedIn run id w' := by
  obtain ⟨c, hc, hrun, hgen, hwork⟩ := h
  refine ⟨c, hq.captured c hc, hrun, hgen, fun name hn q => ?_⟩
  rw [hwork name hn q, hs name hn q]

/-- `snapshot_while_paused`. -/
theorem captureVmState_does (hf : rules.Resting w) (hwf : w.Wf) (hfresh : Fresh id w) :
    Does (rules.setting S faults still) (fun _ w' => Quiet w w' ∧ CapturedIn run id w')
      (captureVmState run id files) w := by
  have hK := closed_kept rules S faults still
  refine does_bind (Q := fun _ w₁ => Quiet w w₁ ∧ w₁.paused = true ∧ Undisturbed w w₁ ∧
      ⟨run, id, w₁.runs.get [run.asStr]⟩ ∈ w₁.captured) ?_ fun _ w₁ h₁ => ?_
  · rintro x hg r w₁ rfl
    have hq : Quiet x { x with
        paused := true, captured := ⟨run, id, x.runs.get [run.asStr]⟩ :: x.captured } :=
      ⟨rfl, fun _ => rfl, fun _ => rfl, fun _ hc => mem_cons_of_mem _ hc, .refl _ _,
        fun _ _ => .refl _ _, fun hw => ⟨hw.top, hw.runs, hw.gens, hw.made⟩⟩
    refine ⟨.quiet hq, (hK.guest hg).toQuiet.trans hq, rfl, ?_, mem_cons_self⟩
    exact (Undisturbed.of_guest hg).trans fun _ _ => rfl
  obtain ⟨hq₁, hpaused, hu₁, hmem⟩ := h₁
  refine does_tryCatch ?_ fun e w' hw => ?_
  · refine does_bind (capturePaused_does (hf.quiet hq₁) (hq₁.wf hwf) hpaused fun q =>
      (hfresh.undisturbed hu₁).capture _ q) fun _ w₂ h₂ => ?_
    refine resume_does fun w₃ hq₃ hu₃ => ⟨hq₁.trans (h₂.1.toQuiet.trans hq₃), ?_⟩
    refine ⟨_, hq₃.captured _ (h₂.1.captured _ hmem), rfl, rfl, fun name hname q => ?_⟩
    rw [hu₃.peek_append (inert_staging id), ← h₂.2 name hname q, ← peek_runDir]
  · -- on an error the capture is cleaned up and the VM goes on
    refine does_bind (Q := fun _ w₂ => rules.Resting w₂)
      (does_tryCatch ?_ fun _ _ h => does_pure h) fun _ w₂ h₂ => ?_
    · exact does_post (removeDirAll_does hK hw (inert_capture id files.pid) (hK.refl w'))
        fun _ _ h => Rules.Resting.quiet hw h.1.toQuiet
    · exact does_bind (Q := fun _ w₃ => rules.Resting w₃) (resume_does fun _ hq _ => h₂.quiet hq)
        fun _ _ h => does_throw h

/-- `copy_snapshot_stamp` leaves the disk and the host-share state alone. -/
theorem writeStamps_does {stamps : List (Name × Bytes)} (hf : rules.Resting w₀) (h₀ : Quiet w₀ w) :
    Does (rules.setting S faults still) (fun _ w' => Quiet w₀ w' ∧ ∀ name ∈ [ROOTFS, HOST_SHARE_STATE], ∀ q,
        w'.peek (stagingDir id ++ name :: q) = w.peek (stagingDir id ++ name :: q))
      (writeStamps (stagingDir id) stamps) w := by
  have hK := closed_quiet rules S faults still
  have hin := inert_staging id
  induction stamps generalizing w with
  | nil => exact does_pure ⟨h₀, fun _ _ _ => rfl⟩
  | cons e stamps ih =>
    refine does_bind (Q := fun _ w₁ => Quiet w₀ w₁ ∧ ∀ name ∈ [ROOTFS, HOST_SHARE_STATE], ∀ q,
        w₁.peek (stagingDir id ++ name :: q) = w.peek (stagingDir id ++ name :: q)) ?_
      fun _ w₁ h₁ => ?_
    · unfold writeStamp
      split_ifs with hs
      · refine does_post (writeFile_does hK hf (.inl (hin.append _)) h₀) fun _ w₁ h₁ =>
          ⟨h₁.1, fun name hname q => h₁.2.1.peek_sibling hin ?_ q⟩
        intro heq
        have hdisjoint : ∀ name ∈ [ROOTFS, HOST_SHARE_STATE], name ∉ STAMPS := by decide
        exact hdisjoint name hname (heq ▸ hs)
      · exact does_pure ⟨h₀, fun _ _ _ => rfl⟩
    · refine does_post (ih h₁.1) fun _ w₂ h₂ => ⟨h₂.1, fun name hname q => ?_⟩
      rw [h₂.2 name hname q, h₁.2 name hname q]

/-- `CaptureContext::capture`: a published final snapshot holds what its capture
    paused on. -/
theorem capture_does {base lastCapture : Option GenerationId} {origin : Origin}
    {sound : Bytes → Bool} (hfaults : rules.settled → faults = false) (hf : rules.Resting w)
    (hi : Inv S rules.toMode w) (ho : ∀ run', origin = .snapshot run' → run' = run) :
    rules.Rests S faults still (S.capture run base lastCapture origin sound files) w := by
  have hK := closed_quiet rules S faults still
  refine does_bind (sessionStage_does hf) fun id w₁ h₁ => ?_
  have hin := inert_staging id
  refine does_bind (captureVmState_does (hf.quiet h₁.1.toQuiet) (h₁.1.wf hi.wf) h₁.2)
    fun _ w₂ h₂ => ?_
  have hq₂ : Quiet w w₂ := h₁.1.toQuiet.trans h₂.1
  refine does_bind (Q := fun _ w₃ => Quiet w w₃ ∧ CapturedIn run id w₃)
    (does_post (look_does hK hf hq₂) fun t w₃ h₃ => ⟨h₃.1, h₂.2.mono (hK.guest h₃.2.1)
      fun name _ q => h₃.2.1.peek (hin.append _).runs⟩) fun t w₃ h₃ => ?_
  have hf₃ := hf.quiet h₃.1
  split
  · split_ifs
    · refine does_bind (writeStamps_does hf₃ (Quiet.refl w₃)) fun _ w₄ h₄ => ?_
      have hcap := h₃.2.mono h₄.1 h₄.2
      refine does_post (publish_does (hf₃.quiet h₄.1) hfaults (h₄.1.wf (h₃.1.wf hi.wf))
        fun _ run' hrun => ?_) fun _ _ h => h.2.2
      rw [ho run' hrun]
      exact hcap
    · exact does_throw hf₃
  · exact does_throw hf₃

end

end Lnx
