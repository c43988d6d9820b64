import Lnx.Store.Specs

/-!
# Publishing a generation and committing a record

The two steps that make a new state of the instance: `publish` renames a staged
directory into place, where it is complete from its first instant on, and
`commit_record` renames a fully written record over the old one.

Results: `stage_does`, `publish_does`, `commitRecord_does`.
-/

namespace Lnx

open List World Edit

variable {id : GenerationId} {w w' : World}

/-! ## Names -/

theorem startsWith_staging (x : String) : startsWith (STAGING_PREFIX ++ x) "." = true := by
  simp [startsWith, STAGING_PREFIX]

theorem startsWith_trash (x : String) : startsWith (TRASH_PREFIX ++ x) "." = true := by
  simp [startsWith, TRASH_PREFIX]

theorem inert_staging (id : GenerationId) : Inert (stagingDir id) :=
  inert_dot (startsWith_staging _) []

theorem inert_trash (id : GenerationId) : Inert (trashDir id) :=
  inert_dot (startsWith_trash _) []

theorem inert_capture (id : GenerationId) (pid : String) : Inert (captureDir id pid) :=
  inert_dot (by simp [startsWith]) []

theorem inert_checkpoints (p : Path) : Inert (CHECKPOINTS_DIR :: p) :=
  inert_top (by decide) (by decide) (by decide) p

theorem inert_notice : Inert [LAST_RUN_NOTICE] :=
  inert_top (by decide) (by decide) (by decide) []

theorem inert_temp (id : String) : Inert [STATE_FILE ++ ".tmp-" ++ id] := by
  refine inert_top (fun h => ?_) (fun h => ?_) (fun h => ?_) []
  · have := congrArg (fun s => s.toList.length) h
    simp [STATE_FILE] at this
  · have := congrArg (fun s => s.toList.head?) h
    simp [STATE_FILE, GENERATIONS_DIR] at this
  · have := congrArg (fun s => s.toList.head?) h
    simp [STATE_FILE, RUNS_DIR] at this

variable {g g' : GenerationId} {temp : Path} {r : Except IoError Unit}

theorem GenerationId.ext_asStr (h : g.asStr = g'.asStr) : g = g' := by
  cases g
  cases g'
  cases h
  rfl

theorem generationDir_apart (h : g ≠ g') : Tree.Apart (generationDir g) (generationDir g') :=
  Tree.apart_cons_self.2 (Tree.apart_of_ne (fun he => h (GenerationId.ext_asStr he)) _ _)

theorem generationDir_ne_nil (g : GenerationId) : generationDir g ≠ [] := by simp [generationDir]

theorem state_apart_generationDir (g : GenerationId) :
    Tree.Apart [STATE_FILE] (generationDir g) := Tree.apart_of_ne (by decide) _ _

/-- The manifest and the pin are not part of a run's work. -/
theorem work_ne_manifest {name : Name} (h : name ∈ [ROOTFS, HOST_SHARE_STATE]) :
    name ≠ MANIFEST ∧ name ≠ PIN := by
  rcases mem_cons.1 h with rfl | h
  · decide
  · rw [mem_singleton.1 h]
    decide

/-! ## What reading finds -/

theorem readRecord_commit (S : Store) (latest : Option GenerationId) (phase : Phase) :
    S.readRecord (.ok (.leaf (.file (S.recordJson.toVecPretty ⟨RECORD_VERSION, latest, phase⟩
      ++ [10])))) = .ok (some ⟨RECORD_VERSION, latest, phase⟩) := by
  simp [Store.readRecord, readJson, S.recordJson.fromSlice_toVecPretty]

section reading

variable {S : Store} {E : Setting} {free : Path → Prop} {K : World → World → Prop}
  (hK : Closed E free K) {w₀ w : World} (hf : E.fail w₀)

include hK hf

theorem requireRecord_does (h₀ : K w₀ w) :
    Does E (fun record w' => K w₀ w' ∧ S.recordOf w' = some record) S.requireRecord w := by
  refine does_bind (Q := fun r w' => K w₀ w' ∧ ∀ record, r = some record →
    S.recordOf w' = some record) (does_bind (Q := fun r w' => K w₀ w' ∧ r = w'.look [STATE_FILE])
      (does_look fun w₁ hg => ⟨hK.trans h₀ (hK.guest hg), rfl⟩) fun r w₁ h₁ => ?_) fun r w₁ h₁ => ?_
  · refine does_ofExcept (hK.fail h₁.1 hf) fun record hrec => ⟨h₁.1, ?_⟩
    rintro record rfl
    rw [Store.recordOf, ← h₁.2, hrec]
  · split
    · next record => exact does_pure ⟨h₁.1, h₁.2 record rfl⟩
    · exact does_throw (hK.fail h₁.1 hf)

theorem generation_does (h₀ : K w₀ w) :
    Does E (fun G w' => K w₀ w' ∧ G.dir = generationDir id ∧ G.manifest.id = id ∧
        ∃ t, w'.get (generationDir id) = some t ∧ S.checkGeneration id (.ok t) = .ok G)
      (S.generation id) w := by
  refine does_bind (Q := fun r w' => K w₀ w' ∧ r = w'.look (generationDir id))
    (does_look fun w₁ hg => ⟨hK.trans h₀ (hK.guest hg), rfl⟩) fun r w₁ h₁ => ?_
  refine does_ofExcept (hK.fail h₁.1 hf) fun G hG => ⟨h₁.1, ?_⟩
  obtain ⟨d, b, m, hd, -, -, hid, -, -, rfl⟩ := Store.checkGeneration_eq_ok.1 hG
  refine ⟨rfl, hid, d, ?_, hd ▸ hG⟩
  exact look_eq_ok.1 (h₁.2 ▸ hd)

/-- The steps of `commit_file` up to the rename: the new contents stand in the
    temporary file, and are synced. -/
theorem writeTemp_does {contents : Bytes} (ht : free temp) (h₀ : K w₀ w) :
    Does E (fun _ w' => K w₀ w' ∧ (temp.head? ≠ some RUNS_DIR →
        w'.peek temp = some (some (.file contents))) ∧ w'.disk.data temp = true)
      (writeTemp temp contents) w := by
  refine does_bind (does_free_edit hK hf (by simpa using ht) h₀) fun _ w₁ h₁ => ?_
  refine does_bind (Q := fun _ w' => K w₀ w' ∧ w'.peek temp = some (some (.file contents)))
    (does_post (does_free_edit hK hf (by simpa using ht) h₁.1) fun _ w₂ h₂ => ?_)
    fun _ w₂ h₂ => ?_
  · obtain ⟨hk, w₃, hg, he⟩ := h₂
    refine ⟨hk, ?_⟩
    cases he with
    | done h =>
      simp only [apply] at h
      split at h
      · simp [peek, get_put_self (overwrite_eq_ok h)]
      · cases h
      · cases h
  · refine does_post (sync_does hK hf rfl h₂.1) fun _ w₃ h₃ => ⟨h₃.1, fun hr => ?_, ?_⟩
    · rw [h₃.2.1.same _ hr, h₂.2]
    · obtain ⟨-, -, w₄, -, hd⟩ := h₃
      simp [hd]

omit hf in
theorem newTempId_does (h₀ : K w₀ w) :
    Does E (fun _ w' => K w₀ w') (perform .newTempId) w := by
  rintro w₁ hg r w₂ ⟨-, rfl⟩
  exact ⟨E.refl _, hK.trans h₀ (hK.guest hg)⟩

omit hf in
/-- `let _ = fs::remove_file(&temp)` and the error again. -/
theorem cleanup_does {α : Type} {e : StoreError} {post : α → World → Prop} (ht : free temp)
    (hw : E.fail w) : Does E post (do removeFileIfAny temp; throw e) w :=
  does_bind (removeFileIfAny_does hK ht (hK.refl w)) fun _ _ h => does_throw (hK.fail h.1 hw)

/-- `commit_file` of a file that is neither the record nor in a generation. -/
theorem commitFile_does {parent : Path} {name : Name} {contents : Bytes}
    (hp : ∀ n, free (parent ++ [n])) (h₀ : K w₀ w) :
    Does E (fun _ w' => K w₀ w') (commitFile parent name contents) w := by
  refine does_bind (newTempId_does hK h₀) fun id w₁ h₁ => ?_
  refine does_tryCatch ?_ fun e w' hw => cleanup_does hK (hp _) hw
  refine does_bind (writeTemp_does hK hf (hp _) h₁) fun _ w₂ h₂ => ?_
  refine does_bind (does_free_edit hK hf (forall_rename (hp _) (hp _)) h₂.1) fun _ w₃ h₃ => ?_
  exact does_post (sync_does hK hf rfl h₃.1) fun _ w₄ h₄ => h₄.1

end reading

/-! ## Committing -/

/-- Without faults, syncing a directory succeeds. -/
theorem syncDir_ok {p : Path} (h : EditSem false (.syncDir p) w r w') (hp : w.peek p = some none) :
    r = .ok () := by
  cases h with
  | done h => rfl
  | fault h => cases h
  | refused h =>
    obtain ⟨t, ht, hl⟩ := Option.map_eq_some_iff.1 hp
    cases t with
    | leaf a => cases hl
    | node es => simp [apply, look_eq_ok.2 ht] at h

/-- The root of a directory that is not empty is a directory. -/
theorem World.peek_root {n : Name} {p : Path} {t : Dir} (hn : n ≠ RUNS_DIR)
    (h : w.get (n :: p) = some t) : w.peek [] = some none := by
  simp only [get, hn, ite_false] at h
  cases hw : w.top with
  | leaf a => simp [hw] at h
  | node es => simp [peek, get, hw]

section commit

variable {S : Store} {faults still : Bool} {rules : Rules} {latest : Option GenerationId}

/-- The rename of `commit_record`. -/
theorem commitRename_step (rules : Rules) {phase : Phase} (ht : Inert temp)
    (hallowed : rules.commits w ⟨RECORD_VERSION, latest, phase⟩)
    (hlatest : ∀ g, latest = some g → (∃ u, w.get (generationDir g) = some u) ∧
      (rules.settled → w.disk.old (generationDir g) = []))
    (htemp : w.peek temp = some (some (.file (S.recordJson.toVecPretty
      ⟨RECORD_VERSION, latest, phase⟩ ++ [10]))))
    (hdata : w.disk.data temp = true) (h : EditSem faults (.rename temp [STATE_FILE]) w r w') :
    StoreStep S rules w w' ∧ ((∃ x, r = .error x) → w' = w) ∧ (r = .ok () →
      S.recordOf w' = some ⟨RECORD_VERSION, latest, phase⟩ ∧
        (∀ g, w'.get (generationDir g) = w.get (generationDir g)) ∧
        ∀ g q, Disk.Keeps w.disk w'.disk (generationDir g ++ q)) := by
  cases h with
  | refused h | fault h => exact ⟨.quiet (Quiet.refl _), fun _ => rfl, by simp⟩
  | @done _ w w' h =>
    have hsem : EditSem faults (.rename temp [STATE_FILE]) w (.ok ()) _ := .done h
    obtain ⟨t, x, ht', hx, rfl, -⟩ := rename_eq_ok h
    rw [peek_eq_leaf.1 htemp] at ht'
    cases ht'
    have hgens : ∀ g, ∀ p ∈ (rename temp [STATE_FILE]).footprint, Tree.Apart p (generationDir g) :=
      fun g => forall_rename (ht.gens g) (state_apart_generationDir g)
    have hruns := hsem.runs_eq (forall_rename ht.runs (by decide))
    have hwf := hsem.wf (forall_rename (Free.not_prefix_gens (.inl ht)) (by decide))
    have hdisk : ∀ g q, Disk.Keeps _ _ (generationDir g ++ q) := fun g q =>
      hsem.keeps fun p hp => ((hgens g p hp).append_right q).1
    have hget := get_put_self hx
    have hstate := readRecord_commit S latest phase
    refine ⟨.commit ⟨RECORD_VERSION, latest, phase⟩ hallowed (fun g => hsem.get_apart (hgens g))
      (fun g => hsem.moved_get (hgens g)) hsem.rest.2.2.1 ?_ ?_ hdisk hwf hruns
      ⟨_, (get_withDisk _ _ _).trans hget, hstate⟩ hlatest, by simp, fun _ => ⟨?_, ?_, hdisk⟩⟩
    · simp [hdata]
    · simp [candidates]
    · exact Store.recordOf_of_get ((get_withDisk _ _ _).trans hget) hstate
    · exact fun g => hsem.get_apart (hgens g)

/-- `commit_record`: the only step that is not quiet puts a record in place that
    was allowed where it was put. -/
theorem commitRecord_does {free : Path → Prop} {K : World → World → Prop}
    (hK : Closed (rules.setting S faults still) free K) {w₀ : World} (hf : rules.Resting w₀)
    (hfaults : rules.settled → faults = false) {phase : Phase} (hfree : ∀ p, Inert p → free p)
    (hquiet : ∀ {w w'}, K w w' → Quiet w w') (h₀ : K w₀ w)
    (hallowed : ∀ w₁, K w₀ w₁ → rules.commits w₁ ⟨RECORD_VERSION, latest, phase⟩)
    (hlatest : ∀ g, latest = some g → (∃ u, w₀.get (generationDir g) = some u) ∧
      (rules.settled → w₀.disk.old (generationDir g) = [])) : Does (rules.setting S faults still)
      (fun _ w' => S.recordOf w' = some ⟨RECORD_VERSION, latest, phase⟩ ∧ rules.Resting w' ∧
        ∀ g, w'.get (generationDir g) = w₀.get (generationDir g))
      (S.commitRecord latest phase) w := by
  refine does_bind (newTempId_does hK h₀) fun id w₁ h₁ => ?_
  have ht : Inert ([] ++ [STATE_FILE ++ ".tmp-" ++ id]) := inert_temp id
  refine does_tryCatch ?_ fun e w' hw => cleanup_does hK (hfree _ ht) hw
  refine does_bind (writeTemp_does hK hf (hfree _ ht) h₁) fun _ w₂ h₂ => ?_
  obtain ⟨hk₂, htemp, hdata⟩ := h₂
  refine does_bind (Q := fun _ w' => S.recordOf w' = some ⟨RECORD_VERSION, latest, phase⟩ ∧
    (∀ g, w'.get (generationDir g) = w₀.get (generationDir g)) ∧
    ∀ g q, Disk.Keeps w₀.disk w'.disk (generationDir g ++ q))
    (does_attempt_edit fun w₃ r w₄ hg he => ?_) fun _ w₃ h₃ => ?_
  · have hk₃ : K w₀ w₃ := hK.trans hk₂ (hK.guest hg)
    have hq₃ := hquiet hk₃
    have hdata₃ : w₃.disk.data ([] ++ [STATE_FILE ++ ".tmp-" ++ id]) = true :=
      ((Firmer.of_guest hg).disk _).data hdata
    obtain ⟨hstep, herr, hpost⟩ := commitRename_step (S := S) rules ht (hallowed w₃ hk₃)
      (fun g hgl => by
        have hkeeps : Disk.Keeps w₀.disk w₃.disk (generationDir g) := by
          simpa using hq₃.diskGens g []
        rw [hq₃.gens g]
        exact ⟨(hlatest g hgl).1, fun hS => hkeeps.synced ((hlatest g hgl).2 hS)⟩)
      (by rw [hg.peek ht.runs]; exact htemp ht.runs) hdata₃ he
    refine ⟨hstep, fun hr => ?_, fun x hx => ?_⟩
    · obtain ⟨hrec, hgens, hdisk⟩ := hpost hr
      exact ⟨hrec, fun g => (hgens g).trans (hq₃.gens g),
        fun g q => (hq₃.diskGens g q).trans (hdisk g q)⟩
    · rw [herr ⟨x, hx⟩]
      exact hK.fail hk₃ hf
  · -- the directory is there, so that syncing it cannot be refused
    obtain ⟨hrec, hgens, hdisk⟩ := h₃
    refine does_attempt_edit fun w₄ r w₅ hg he => ?_
    have hk : K w₃ w₅ := hK.trans (hK.guest hg) (hK.edit he (by simp))
    have hq := hquiet hk
    refine ⟨hK.step (hK.edit he (by simp)), fun hr => ?_, fun x hx hS => ?_⟩
    · refine ⟨Store.recordOf_congr hq.state hrec, fun hS => ⟨fun g t ht => ?_, ?_⟩,
        fun g => (hq.gens g).trans (hgens g)⟩
      · rw [hq.gens g, hgens g] at ht
        have hkeeps : Disk.Keeps w₀.disk w₅.disk (generationDir g) := by
          simpa using (hdisk g []).trans (hq.diskGens g [])
        exact hkeeps.synced ((hf hS).gens g t ht)
      · subst hr
        cases he with
        | done h => simp
    · exfalso
      obtain ⟨t, ht, -⟩ := Store.readRecord_of_recordOf
        (Store.recordOf_congr (Kept.of_guest hg).state hrec)
      have hroot := peek_root (by decide) ht
      have hok := syncDir_ok (hfaults hS ▸ he) hroot
      rw [hok] at hx
      cases hx

end commit

/-! ## Staging -/

section stage

variable {S : Store} {faults still : Bool} {rules : Rules}

theorem World.Unused.staging (h : w.Unused id) : w.peek (stagingDir id) = none := peek_eq_none.2 (h.1 STAGING_PREFIX)

theorem World.Unused.capture (h : w.Unused id) (pid : String) : w.peek (captureDir id pid) = none := by
  have hname : captureDir id pid =
      [GENERATIONS_DIR, "." ++ STAGING_PREFIX ++ id.asStr ++ ".tmp." ++ pid] := by
    simp [captureDir, String.append_assoc]
  rw [hname]
  exact peek_eq_none.2 (h.2 _ pid)

theorem captureDir_ne_staging (id : GenerationId) (pid : String) :
    captureDir id pid ≠ stagingDir id := by
  intro h
  have := congrArg (fun s => s.toList) (List.cons.inj (List.cons.inj h).2).1
  simp [STAGING_PREFIX] at this

/-- `stage`: a new, empty directory, and no capture has been written for it. -/
theorem stage_does {w₀ : World} (hf : rules.Resting w₀) (h₀ : Kept still w₀ w) :
    Does (rules.setting S faults still)
      (fun id w' => Kept still w₀ w' ∧ w'.peek (stagingDir id) = some none ∧
        (∀ q, q ≠ [] → w'.peek (stagingDir id ++ q) = none) ∧
        ∀ pid q, w'.peek (captureDir id pid ++ q) = none)
      Store.stage w := by
  have hK := closed_kept rules S faults still
  refine does_bind (Q := fun id w' => Kept still w₀ w' ∧ w'.Unused id) ?_ fun id w₁ h₁ => ?_
  · rintro w₁ hg id w₂ ⟨-, hu, rfl⟩
    exact ⟨.quiet (Quiet.refl _), hK.trans h₀ (hK.guest hg), hu⟩
  obtain ⟨hk₁, hu⟩ := h₁
  refine does_bind (createDirAll_does hK hf (inert_staging id) hk₁) fun _ w₂ h₂ => ?_
  obtain ⟨hk₂, hdir, hb⟩ := h₂
  have hne : stagingDir id ≠ [] := by simp
  refine does_pure ⟨hk₂, hdir hne (inert_staging id).runs, fun q hq => ?_, fun pid q => ?_⟩
  · rw [hb _ (fun hp => ?_) ((inert_staging id).append q).runs]
    · exact peek_below_none hne hu.staging
    · have := hp.length_le
      have := length_pos_of_ne_nil hq
      simp only [length_append] at *
      omega
  · rw [hb _ (fun hp => ?_) ((inert_capture id pid).append q).runs]
    · exact peek_below_none (by simp [captureDir]) (hu.capture pid)
    · -- both directories have two components, and they differ in the second
      have hpre : captureDir id pid <+: stagingDir id := (prefix_append _ q).trans hp
      exact captureDir_ne_staging id pid (List.IsPrefix.eq_of_length hpre rfl)

/-! ## Publishing -/

theorem mem_fileSizes {es : List (Name × Dir)} {e : Name × ℕ} (h : e ∈ Store.fileSizes es) :
    ∃ b, (e.1, .leaf (.file b)) ∈ es ∧ b.length = e.2 ∧ e.1 ≠ MANIFEST ∧ e.1 ≠ PIN := by
  induction es with
  | nil => simp [Store.fileSizes] at h
  | cons x es ih =>
    have hrest : e ∈ Store.fileSizes es → ∃ b, (e.1, .leaf (.file b)) ∈ x :: es ∧
        b.length = e.2 ∧ e.1 ≠ MANIFEST ∧ e.1 ≠ PIN := by
      intro h
      obtain ⟨b, hb, hrest⟩ := ih h
      exact ⟨b, mem_cons_of_mem _ hb, hrest⟩
    obtain ⟨name, t⟩ := x
    cases t with
    | node sub => exact hrest h
    | leaf a =>
      cases a with
      | symlink target => exact hrest h
      | file b =>
        simp only [Store.fileSizes] at h
        split_ifs at h with hn
        · rcases mem_btreeInsert h with rfl | h
          · exact ⟨b, by simp, rfl, hn⟩
          · exact hrest h
        · exact hrest h

/-- What a renamed directory had on stable storage it has there in its new place. -/
theorem synced_of_move {src dst : Path} {o : Old} (h : Synced w src)
    (hpeek : ∀ q, w'.peek (dst ++ q) = w.peek (src ++ q))
    (hdisk : w'.disk = w.disk.move src dst o) : Synced w' dst where
  entries q n hq := by
    have hs := h.entries q n (hpeek q ▸ hq)
    rw [append_assoc] at hs ⊢
    simp [hdisk, hs]
  data q b hq := by
    have hs := h.data q b (hpeek q ▸ hq)
    simp [hdisk, hs]

/-- A rename to or from the place of a generation leaves the others. -/
theorem EditSem.sameBut {src dst : Path} (h : EditSem faults (.rename src dst) w r w')
    (hsrc : ¬ src <+: [GENERATIONS_DIR] ∧ (src = generationDir id ∨ Inert src))
    (hdst : ¬ dst <+: [GENERATIONS_DIR] ∧ (dst = generationDir id ∨ Inert dst)) :
    SameBut id w w' := by
  have hp : ∀ p ∈ [src, dst], ¬ p <+: [GENERATIONS_DIR] ∧ (p = generationDir id ∨ Inert p) := by
    simp [hsrc, hdst]
  have hstate : ∀ p ∈ [src, dst], Tree.Apart p [STATE_FILE] := by
    intro p hmem
    rcases (hp p hmem).2 with rfl | hin
    · exact (state_apart_generationDir id).symm
    · exact hin.state
  have hother : ∀ g, g ≠ id → ∀ p ∈ [src, dst], Tree.Apart p (generationDir g) := by
    intro g hg p hmem
    rcases (hp p hmem).2 with rfl | hin
    · exact generationDir_apart hg.symm
    · exact hin.gens g
  exact {
    state := h.get_apart hstate
    gens := fun g hg => h.get_apart (hother g hg)
    moved := fun g hg => h.moved_get (hother g hg)
    captured := fun c hc => by rw [h.rest.2.2.1]; exact hc
    diskState := h.keeps fun p hmem => (hstate p hmem).1
    diskGens := fun g hg q => h.keeps fun p hmem => ((hother g hg p hmem).append_right q).1
    wf := h.wf fun p hmem => (hp p hmem).1 }

/-- The rename of `publish`, once the manifest describes what is staged and all of
    it is synced. -/
theorem publishRename_step (rules : Rules) {m : Manifest}
    (hman : w.peek (stagingDir id ++ [MANIFEST]) =
      some (some (.file (S.manifestJson.toVecPretty m ++ [10]))))
    (hid : m.id = id)
    (hfiles : ∀ e ∈ m.files, ∃ b, w.peek (stagingDir id ++ [e.1]) = some (some (.file b)) ∧
      b.length = e.2)
    (hroot : m.containsKey ROOTFS = true) (hsynced : Synced w (stagingDir id))
    (hsnap : rules.tracked → ∀ run, m.origin = .snapshot run → ∃ c ∈ w.captured, c.run = run ∧
      c.generation = id ∧ ∀ name ∈ [ROOTFS, HOST_SHARE_STATE], ∀ q,
        (c.work.bind fun d => d.peek (name :: q)) = w.peek (stagingDir id ++ name :: q))
    (h : EditSem faults (.rename (stagingDir id) (generationDir id)) w r w') :
    StoreStep S rules w w' ∧ ((∃ x, r = .error x) → w' = w) ∧
      (r = .ok () → SameBut id w w' ∧ w'.paused = w.paused ∧
      w'.runs = w.runs ∧ ∃ t, InPlace S rules.toMode id t w' ∧
        (∀ q, t.peek q = w.peek (stagingDir id ++ q)) ∧
        S.checkGeneration id (.ok t) = .ok ⟨generationDir id, m⟩) := by
  cases h with
  | refused h | fault h => exact ⟨.quiet (Quiet.refl _), fun _ => rfl, by simp⟩
  | @done _ w w' h =>
    have hsem : EditSem faults (.rename (stagingDir id) (generationDir id)) w (.ok ()) _ := .done h
    obtain ⟨t, x, ht, hx, rfl, hrepl⟩ := rename_eq_ok h
    have hpeek : ∀ q, t.peek q = w.peek (stagingDir id ++ q) := fun q =>
      (peek_append (by simp) ht q).symm
    have hsame := hsem.sameBut ⟨by simp, .inr (inert_staging id)⟩
      ⟨by simp [generationDir], .inl rfl⟩
    have hcheck : S.checkGeneration id (.ok t) = .ok ⟨generationDir id, m⟩ := by
      refine Store.checkGeneration_eq_ok.2 ⟨t, _, m, rfl, Tree.peek_eq_leaf.1
        ((hpeek _).trans hman), S.manifestJson.fromSlice_toVecPretty m, hid, fun e he => ?_, hroot,
        rfl⟩
      obtain ⟨b, hb, hl⟩ := hfiles e he
      exact ⟨b, Tree.peek_eq_leaf.1 ((hpeek _).trans hb), hl⟩
    have hnew : ∀ u, w.get (generationDir id) = some u → u = .node [] := by
      intro u hu
      refine (hrepl u hu).resolve_right ?_
      rintro ⟨a, rfl⟩
      have := (hpeek [MANIFEST]).trans hman
      simp [Tree.peek] at this
    have hget : (withDisk { x with moved := (generationDir id, t) :: w.moved }
        ((rename (stagingDir id) (generationDir id)).persist w)).get (generationDir id) =
        some t := by
      have hxg := get_put_self hx
      exact hxg
    have hin : InPlace S rules.toMode id t _ :=
      { get := hget
        moved := fun _ => by simp
        complete := ⟨_, hcheck⟩
        synced := synced_of_move hsynced (fun q => by
          rw [peek_append (generationDir_ne_nil id) hget, hpeek]) rfl
        snapshot := fun hT G run hG ho => by
          rw [hcheck] at hG
          cases hG
          obtain ⟨c, hc, hrun, hgen, hwork⟩ := hsnap hT run ho
          refine ⟨c, by rw [hsem.rest.2.2.1]; exact hc, hrun, hgen, fun name hn q => ?_⟩
          rw [hwork name hn q, hpeek] }
    refine ⟨.publish id t hsame hnew hin, by simp, fun _ =>
      ⟨hsame, hsem.rest.2.1, ?_, t, hin, hpeek, hcheck⟩⟩
    exact hsem.runs_eq (forall_rename (inert_staging id).runs (generationDir_head id))

/-- Publishing `id` in `w` left it in place in `w'`: complete, with the given
    origin, and, the manifest and the pin apart, as it was staged. -/
structure Published (S : Store) (rules : Rules) (still : Bool) (id : GenerationId) (origin : Origin)
    (w w' : World) : Prop where
  same : SameBut id w w'
  paused : w'.paused = w.paused
  runs : still = true ∨ w.paused = true → w'.runs = w.runs
  tree : ∃ t G, InPlace S rules.toMode id t w' ∧ S.checkGeneration id (.ok t) = .ok G ∧
    G.manifest.origin = origin ∧ ∀ name q, name ≠ MANIFEST → name ≠ PIN →
      t.peek (name :: q) = w.peek (stagingDir id ++ name :: q)

theorem Published.kept {origin : Origin} {w₁ w₂ : World}
    (h : Published S rules still id origin w w₁) (hk : Kept still w₁ w₂) :
    Published S rules still id origin w w₂ where
  same := h.same.trans (hk.toQuiet.sameBut id)
  paused := hk.paused.trans h.paused
  runs hs := (hk.runs (by rwa [h.paused])).trans (h.runs hs)
  tree := by
    obtain ⟨t, G, hin, hcheck, ho, hpeek⟩ := h.tree
    exact ⟨t, G, hin.mono (hk.gens id) (hk.moved id) hk.captured (hk.diskGens id), hcheck, ho, hpeek⟩

/-- Once the new entry is synced too, all is at rest. -/
theorem SameBut.rest (h : SameBut id w w') (hr : Rest w)
    (hid : ∀ t, w'.get (generationDir id) = some t → w'.disk.old (generationDir id) = []) : Rest w' where
  gens g t ht := by
    by_cases hg : g = id
    · subst hg
      exact hid t ht
    · have hkeeps : Disk.Keeps w.disk w'.disk (generationDir g) := by simpa using h.diskGens g hg []
      rw [h.gens g hg] at ht
      exact hkeeps.synced (hr.gens g t ht)
  state := h.diskState.synced hr.state

theorem not_prefix_staging_concat {n m : Name} (h : n ≠ m) (q : Path) :
    ¬ stagingDir id ++ [n] <+: stagingDir id ++ m :: q := by
  simpa using h

/-- `publish`: every step up to the rename is quiet, the rename puts a complete
    generation in place. -/
theorem publish_does {parent : Option GenerationId} {origin : Origin}
    (hf : rules.Resting w) (hfaults : rules.settled → faults = false) (hwf : w.Wf)
    (hsnap : rules.tracked → ∀ run, origin = .snapshot run → ∃ c ∈ w.captured, c.run = run ∧
      c.generation = id ∧ ∀ name ∈ [ROOTFS, HOST_SHARE_STATE], ∀ q,
        (c.work.bind fun d => d.peek (name :: q)) = w.peek (stagingDir id ++ name :: q)) :
    Does (rules.setting S faults still)
      (fun id' w' => id' = id ∧ Published S rules still id origin w w' ∧ rules.Resting w')
      (S.publish id parent origin) w := by
  have hK := closed_kept rules S faults still
  have hin : Inert (stagingDir id) := inert_staging id
  have hhead : ∀ q, (stagingDir id ++ q).head? ≠ some RUNS_DIR := fun q => (hin.append q).runs
  refine does_bind (Q := fun t w₁ => Kept still w w₁ ∧ Undisturbed w w₁ ∧
      w₁.get (stagingDir id) = some t)
    (does_post (look_does hK hf (hK.refl w)) fun t w₁ h₁ =>
      ⟨h₁.1, Undisturbed.of_guest h₁.2.1, h₁.2.2⟩) fun t w₁ h₁ => ?_
  obtain ⟨hk₁, hu₁, hget⟩ := h₁
  cases t with
  | leaf a => exact does_throw (hK.fail hk₁ hf)
  | node es =>
  by_cases hroot : ROOTFS ∈ (Store.fileSizes es).map Prod.fst
  swap
  · simp only [hroot, not_false_eq_true, ite_true]
    exact does_throw (hK.fail hk₁ hf)
  simp only [hroot, not_true_eq_false, ite_false]
  -- the files the manifest lists are what the staging directory holds
  have hfiles : ∀ e ∈ Store.fileSizes es, ∃ b, w.peek (stagingDir id ++ [e.1]) =
      some (some (.file b)) ∧ b.length = e.2 ∧ e.1 ≠ MANIFEST ∧ e.1 ≠ PIN := by
    intro e he
    obtain ⟨b, hb, hl, hne⟩ := mem_fileSizes he
    refine ⟨b, ?_, hl, hne⟩
    have hdist := get_distinct (hk₁.wf hwf).distinct hget
    cases hdist with
    | node hnd hes =>
    rw [← hu₁ _ (hhead _), peek_append (by simp) hget, Tree.peek_node_cons,
      Assoc.get_of_mem hnd hb]
    rfl
  refine does_bind (Q := fun _ w₂ => Kept still w w₂ ∧ Undisturbed w w₂) ?_ fun nanos w₂ h₂ => ?_
  · rintro w₂ hg nanos w₃ rfl
    exact ⟨.quiet (Quiet.refl _), hk₁.trans (hK.guest hg), hu₁.trans (Undisturbed.of_guest hg)⟩
  obtain ⟨hk₂, hu₂⟩ := h₂
  refine does_bind (writeFile_does hK hf (hin.append _) hk₂) fun _ w₃ h₃ => ?_
  obtain ⟨hk₃, he₃, hman₃⟩ := h₃
  refine does_bind (create_does hK hf (hin.append _) hk₃) fun _ w₄ h₄ => ?_
  obtain ⟨hk₄, he₄⟩ := h₄
  refine does_bind (syncTree_does hK hf hk₄) fun _ w₅ h₅ => ?_
  obtain ⟨hk₅, hu₅, hsynced⟩ := h₅
  have hsynced := hsynced hin.ne_nil hin.runs
  have hman₅ : w₅.peek (stagingDir id ++ [MANIFEST]) = w₃.peek (stagingDir id ++ [MANIFEST]) := by
    rw [hu₅ _ (hhead _), he₄ _ (not_prefix_staging_concat (by decide) []) (hhead _)]
  have hrest₅ : ∀ name q, name ≠ MANIFEST → name ≠ PIN →
      w₅.peek (stagingDir id ++ name :: q) = w.peek (stagingDir id ++ name :: q) := by
    intro name q hm hp
    rw [hu₅ _ (hhead _), he₄ _ (not_prefix_staging_concat hp.symm q) (hhead _),
      he₃ _ (not_prefix_staging_concat hm.symm q) (hhead _), hu₂ _ (hhead _)]
  refine does_bind (Q := fun _ w₆ => Published S rules still id origin w w₆)
    (does_attempt_edit fun w₆ r w₇ hg h => ?_) fun _ w₆ h₆ => ?_
  · have hk₆ : Kept still w w₆ := hk₅.trans (hK.guest hg)
    have hman₆ := ((hg.peek (hhead [MANIFEST])).trans hman₅).trans hman₃
    obtain ⟨hstep, herr, hpost⟩ := publishRename_step rules hman₆ rfl
      (fun e he => by
        obtain ⟨b, hb, hl, hm, hp⟩ := hfiles e he
        exact ⟨b, by rw [hg.peek (hhead _), hrest₅ _ _ hm hp, hb], hl⟩)
      (by simpa [Manifest.containsKey] using hroot)
      (hsynced.mono (fun q => hg.peek (hhead q)) fun q => (Firmer.of_guest hg).disk _)
      (fun hT run ho => by
        obtain ⟨c, hc, hrun, hgen, hwork⟩ := hsnap hT run ho
        refine ⟨c, hk₆.captured c hc, hrun, hgen, fun name hn q => ?_⟩
        have hne := work_ne_manifest hn
        rw [hwork name hn q, hg.peek (hhead _), hrest₅ _ _ hne.1 hne.2]) h
    refine ⟨hstep, fun hr => ?_, fun x hx => ?_⟩
    · obtain ⟨hsame, hpaused, hruns, t, hinp, hpeek, hcheck⟩ := hpost hr
      exact
        { same := (hk₆.toQuiet.sameBut id).trans hsame
          paused := hpaused.trans hk₆.paused
          runs := fun hs => hruns.trans (hk₆.runs hs)
          tree := ⟨t, _, hinp, hcheck, rfl, fun name q hm hp => by
            rw [hpeek, hg.peek (hhead _), hrest₅ _ _ hm hp]⟩ }
    · rw [herr ⟨x, hx⟩]
      exact hK.fail hk₆ hf
  · -- `generations/` is there, so that syncing it cannot be refused
    obtain ⟨t, -, hinp, -⟩ := h₆.tree
    refine does_bind (Q := fun _ w₇ => Published S rules still id origin w w₇ ∧ rules.Resting w₇)
      (does_attempt_edit fun w₇ r w₈ hg he => ?_) fun _ w₇ h₇ => does_pure ⟨rfl, h₇⟩
    have hk : Kept still w₇ w₈ := hK.edit he (by simp)
    have hpub := (h₆.kept (hK.guest hg)).kept hk
    refine ⟨hK.step hk, fun hr => ⟨hpub, fun hS => hpub.same.rest (hf hS) fun _ _ => ?_⟩,
      fun x hx hS => ?_⟩
    · subst hr
      cases he with
      | done h => simp [generationDir]
    · exfalso
      have hget₇ : w₇.get (generationDir id) = some t :=
        (hg.get (generationDir_head id)).trans hinp.get
      have hdir : w₇.peek [GENERATIONS_DIR] = some none :=
        peek_ancestor (p := generationDir id) (by rw [peek, hget₇]; rfl)
          (prefix_append [GENERATIONS_DIR] [id.asStr]) (by simp [generationDir])
          (generationDir_head id)
      have hok := syncDir_ok (hfaults hS ▸ he) hdir
      rw [hok] at hx
      cases hx

end stage

end Lnx
