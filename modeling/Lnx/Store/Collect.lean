import Lnx.Store.Publish

/-!
# What garbage collection may remove

`collect_garbage` never touches the record or the generation it names: every
step is quiet, or moves away a generation the record does not name.

Results: `removePathIfExists_does`, `collectGarbage_does`.
-/

namespace Lnx

open Edit Elsewhere

variable {w w' : World}

section

variable {E : Setting} {free : Path → Prop} {K : World → World → Prop} (hK : Closed E free K)
  {w₀ : World} (hf : E.fail w₀)

include hK hf

/-- `remove_dir_all` of a free path. -/
theorem removeDirAll_does {p : Path} (hp : free p) (h₀ : K w₀ w) :
    Does E (fun _ w' => K w₀ w' ∧ Elsewhere p w w') (removeDirAll p) w := by
  refine does_bind (does_free_edit hK hf (by simpa using hp) h₀) fun _ w₁ h₁ => ?_
  obtain ⟨hk₁, x, hg, he⟩ := h₁
  refine does_post (does_free_edit hK hf (by simpa using hp) hk₁) fun _ w₂ h₂ => ?_
  obtain ⟨hk₂, y, hg', he'⟩ := h₂
  exact ⟨hk₂, ((of_guest hg p).trans (of_edit he (by simp))).trans
    ((of_guest hg' p).trans (of_edit he' (by simp)))⟩

/-- `remove_path_if_exists` of a free path. -/
theorem removePathIfExists_does {p : Path} (hp : free p) (h₀ : K w₀ w) :
    Does E (fun _ w' => K w₀ w') (removePathIfExists p) w := by
  refine does_bind (Q := fun _ w' => K w₀ w')
    (does_look fun w₁ hg => hK.trans h₀ (hK.guest hg)) fun r w₁ h₁ => ?_
  split
  · exact does_post (removeDirAll_does hK hf hp h₁) fun _ _ h => h.1
  · exact does_post (does_free_edit hK hf (by simpa using hp) h₁) fun _ _ h => h.1
  · exact does_pure h₁
  · exact does_throw (hK.fail h₁ hf)

end

section

variable {S : Store} {faults still : Bool} {rules : Rules} {record : Record}

theorem Store.recordOf_quiet (h : Quiet w w') (hr : S.recordOf w = some record) :
    S.recordOf w' = some record := Store.recordOf_congr h.state hr

/-- A run of `p` by the lock holder ends at rest. -/
abbrev Rules.Rests {α : Type} (rules : Rules) (S : Store) (faults still : Bool) (p : Io α) (w : World) : Prop :=
  Does (rules.setting S faults still) (fun _ w' => rules.Resting w') p w

/-- What the collector relies on between two removals: the record it read, and that
    all is at rest. -/
structure Collecting (S : Store) (rules : Rules) (record : Record) (w : World) : Prop where
  record : S.recordOf w = some record
  rest : rules.Resting w

theorem Collecting.quiet (h : Collecting S rules record w) (hq : Quiet w w') :
    Collecting S rules record w' := ⟨Store.recordOf_quiet hq h.record, h.rest.quiet hq⟩

theorem Collecting.guest (h : Collecting S rules record w) (hg : Guest still w w') :
    Collecting S rules record w' := h.quiet (Kept.of_guest hg).toQuiet

theorem collectRuns_does {live : Option RunId} {names : List Name} {w₀ : World}
    (hf : rules.Resting w₀) (h₀ : Quiet w₀ w) :
    Does (rules.setting S faults still) (fun _ w' => Quiet w₀ w') (Store.collectRuns live names) w := by
  induction names generalizing w with
  | nil => exact does_pure h₀
  | cons name names ih =>
    simp only [Store.collectRuns]
    split_ifs
    · exact ih h₀
    · refine does_bind (removePathIfExists_does (closed_quiet rules S faults still) hf (.inr rfl) h₀)
        fun _ w₁ h₁ => ?_
      exact does_bind (ih h₁) fun _ w₂ h₂ => does_pure h₂

variable {id : GenerationId} {name : Name}

section

variable (hc : Collecting S rules record w)

include hc

/-- The rename that takes a generation out of place. -/
theorem collectRename_step {r : Except IoError Unit} (hid : record.latest ≠ some id)
    (h : EditSem faults (.rename (generationDir id) (trashDir id)) w r w') :
    StoreStep S rules w w' ∧ Collecting S rules record w' := by
  cases h with
  | refused h | fault h => exact ⟨.quiet (Quiet.refl _), hc⟩
  | done h =>
    have hsem : EditSem faults (.rename (generationDir id) (trashDir id)) w (.ok ()) _ := .done h
    obtain ⟨t, x, ht, hx, rfl, -⟩ := rename_eq_ok h
    have hsame := hsem.sameBut ⟨by simp [generationDir], .inl rfl⟩
      ⟨by simp [trashDir], .inr (inert_trash id)⟩
    have hnone : x.get (generationDir id) = none := by
      rw [World.get_put_apart hx ((inert_trash id).gens id)]
      exact World.get_del_self ⟨by simp [generationDir], by simp [generationDir]⟩
    refine ⟨.collect id hsame ((World.get_withDisk _ _ _).trans hnone) (fun record' hr' => ?_)
      fun hS => (hc.rest hS).state, Store.recordOf_congr hsame.state hc.record,
      fun hS => hsame.rest (hc.rest hS) fun u hu => ?_⟩
    · rw [hc.record] at hr'
      cases hr'
      exact hid
    · rw [World.get_withDisk] at hu
      exact absurd (hnone.symm.trans hu) (by simp)

theorem openPin_does :
    Does (rules.setting S faults still) (fun _ w' => Collecting S rules record w')
      (Store.openPin name) w := by
  refine does_bind (Q := fun _ w' => Collecting S rules record w')
    (does_look fun w₁ hg => hc.guest hg) fun r w₁ h₁ => ?_
  split
  · exact does_pure h₁
  · exact does_pure h₁
  · exact does_throw h₁.rest

theorem tryLock_does :
    Does (rules.setting S faults still) (fun _ w' => Collecting S rules record w')
      (perform (.tryLock name)) w := by
  rintro w₁ hg locked w₂ ⟨-, rfl⟩
  have hq : Quiet w₁ { w₁ with examined := (name, w₁.held name) :: w₁.examined } :=
    ⟨rfl, fun _ => rfl, fun _ => rfl, fun _ hc => hc, .refl _ _, fun _ _ => .refl _ _,
      fun hw => ⟨hw.top, hw.runs, hw.gens, hw.made⟩⟩
  exact ⟨.quiet hq, (hc.guest hg).quiet hq⟩

theorem lockPin_does {pinned : Bool} :
    Does (rules.setting S faults still) (fun _ w' => Collecting S rules record w')
      (Store.lockPin pinned name) w := by
  unfold Store.lockPin
  split_ifs
  · exact tryLock_does hc
  · exact does_pure hc

theorem collectGeneration_does (hid : record.latest ≠ some id) :
    Does (rules.setting S faults still) (fun _ w' => Collecting S rules record w')
      (Store.collectGeneration id) w := by
  refine does_bind (openPin_does hc) fun pinned w₁ h₁ => ?_
  refine does_bind (lockPin_does h₁) fun free w₂ h₂ => ?_
  split_ifs
  · refine does_bind (Q := fun _ w' => Collecting S rules record w')
      (does_attempt_edit fun w₃ r w₄ hg h => ?_) fun _ w₃ h₃ => ?_
    · obtain ⟨hstep, hc'⟩ := collectRename_step (h₂.guest hg) hid h
      exact ⟨hstep, fun _ => hc', fun _ _ => hc'.rest⟩
    · refine does_bind (removePathIfExists_does (closed_quiet rules S faults still) h₃.rest
        (.inl (inert_trash id)) (Quiet.refl w₃)) fun _ w₄ h₄ => ?_
      exact does_pure (h₃.quiet h₄)
  · exact does_pure h₂

end

/-- Entries the collector removes without a lock are inert. -/
theorem inert_of_collected
    (h : startsWith name STAGING_PREFIX = true ∨ startsWith name TRASH_PREFIX = true) :
    Inert [GENERATIONS_DIR, name] := by
  refine inert_dot ?_ []
  have hdot : ∀ {pre : String}, startsWith pre "." = true → startsWith name pre = true →
      startsWith name "." = true := by
    intro pre h₁ h₂
    simp only [startsWith, List.isPrefixOf_iff_prefix] at *
    exact h₁.trans h₂
  rcases h with h | h
  · exact hdot (by decide) h
  · exact hdot (by decide) h

theorem collectGenerations_does {referenced : List GenerationId} {names : List Name}
    (hc : Collecting S rules record w) (href : ∀ id, record.latest = some id → id ∈ referenced) :
    Does (rules.setting S faults still) (fun _ w' => Collecting S rules record w')
      (Store.collectGenerations referenced names) w := by
  induction names generalizing w with
  | nil => exact does_pure hc
  | cons name names ih =>
    simp only [Store.collectGenerations]
    split_ifs with hname
    · refine does_bind (removePathIfExists_does (closed_quiet rules S faults still) hc.rest
        (.inl (inert_of_collected hname)) (Quiet.refl w)) fun _ w₁ h₁ => ?_
      exact does_bind (ih (hc.quiet h₁)) fun _ w₂ h₂ => does_pure h₂
    · split
      · exact ih hc
      · next id hid =>
        split_ifs with hmem
        · exact ih hc
        · refine does_bind (collectGeneration_does hc fun h => hmem (href id h)) fun _ w₁ h₁ => ?_
          exact does_bind (ih h₁) fun _ w₂ h₂ => does_pure h₂

theorem checkpoints_does {w₀ : World} (hf : rules.Resting w₀) (h₀ : Quiet w₀ w) :
    Does (rules.setting S faults still) (fun _ w' => Quiet w₀ w') S.checkpoints w := by
  have hK := closed_quiet rules S faults still
  refine does_bind (Q := fun _ w' => Quiet w₀ w')
    (does_look fun w₁ hg => hK.trans h₀ (hK.guest hg)) fun _ w₁ h₁ => ?_
  refine does_bind (Q := fun _ w' => Quiet w₀ w')
    (does_look fun w₂ hg => hK.trans h₁ (hK.guest hg)) fun _ w₂ h₂ => ?_
  exact does_ofExcept (hf.quiet h₂) fun _ _ => h₂

/-- `collect_garbage` takes only steps the invariant survives. -/
theorem collectGarbage_does (hf : rules.Resting w) :
    rules.Rests S faults still S.collectGarbage w := by
  have hK := closed_quiet rules S faults still
  refine does_bind (requireRecord_does hK hf (hK.refl w)) fun record w₁ h₁ => ?_
  have hc₁ : Collecting S rules record w₁ := ⟨h₁.2, hf.quiet h₁.1⟩
  refine does_bind (checkpoints_does hc₁.rest (Quiet.refl w₁)) fun refs w₂ h₂ => ?_
  refine does_bind (Q := fun _ w' => Collecting S rules record w')
    (does_look fun w₃ hg => (hc₁.quiet h₂).guest hg) fun runs w₃ h₃ => ?_
  refine does_bind (collectRuns_does h₃.rest (Quiet.refl w₃)) fun _ w₄ h₄ => ?_
  refine does_bind (Q := fun _ w' => Collecting S rules record w')
    (does_look fun w₅ hg => (h₃.quiet h₄).guest hg) fun gens w₅ h₅ => ?_
  refine does_bind (collectGenerations_does h₅ fun id hid => ?_) fun _ _ h => does_pure h.rest
  simp [hid]

end

end Lnx
