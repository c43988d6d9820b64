import Lnx.Store.Garbage

/-!
# The loops of a collection

What the functions `collect_garbage` is made of do when they succeed, and when
they do: the loop over `runs/`, one generation, the loop over `generations/`.
With steady pins and no faults the last one gets to its end exactly where it is
`Ready`.

Results: `removePathIfExists_tidies`, `collectRuns_tidies`,
`collectGenerations_tidies`.
-/

namespace Lnx

open GenerationId Prog Lnx.Tree List

variable {p : Path} {a b c w w' : World} {r : Except IoError Unit} {name : Name} {names : List Name}
  {id : GenerationId}

/-! ## Removing one thing -/

/-- `p`, run in `w`, takes only steps of a collection and ends with `post`. -/
abbrev Tidies (faults steady : Bool) (ref : List GenerationId) (live : Option RunId) {α : Type}
    (post : Except StoreError α → World → Prop) (p : Io α) (w : World) : Prop :=
  Prog.Answers (FsSem faults) (Pins steady) (Cleans steady ref live) post p w

section

variable {faults steady : Bool} {ref : List GenerationId} {live : Option RunId} {α : Type}

theorem tidies_look {post : Except StoreError (Except IoError Dir) → World → Prop}
    (h : ∀ w₁, Pins steady w w₁ → post (.ok (w₁.look p)) w₁) :
    Tidies faults steady ref live post (perform (.look p)) w := by
  rintro w₁ h₁ r w₂ ⟨rfl, rfl⟩
  exact ⟨.refl _, h _ h₁⟩

variable {e : Edit} {β : Type}

theorem tidies_attempt {doing : String} {path : Path} {post : Except StoreError Unit → World → Prop}
    (h : ∀ w₁ r w₂, Pins steady w w₁ → EditSem faults e w₁ r w₂ →
      Cleans steady ref live w₁ w₂ ∧ (r = .ok () → post (.ok ()) w₂) ∧
        ∀ x, r = .error x → post (.error (.io doing path x)) w₂) :
    Tidies faults steady ref live post (attempt doing path (.edit e)) w := by
  intro w₁ h₁ r w₂ h₂
  obtain ⟨hs, hok, herr⟩ := h w₁ r w₂ h₁ h₂
  refine ⟨hs, ?_⟩
  cases r with
  | error x => exact herr x rfl
  | ok u => exact hok rfl

/-- What removing the thing at `p` has changed. -/
structure Removal (steady : Bool) (ref : List GenerationId) (live : Option RunId) (p : Path)
    (w w' : World) : Prop where
  cleans : Cleans steady ref live w w'
  aside : ∀ q, ¬ p <+: q → w'.peek q = w.peek q
  apart : ∀ q, Tree.Apart p q → w'.get q = w.get q
  examined : w'.examined = w.examined

theorem Removal.of_pins (h : Pins steady w w') : Removal steady ref live p w w' :=
  ⟨.of_pins h, fun q _ => h.peek q, fun q _ => h.get q, h.examined⟩

theorem Removal.of_edit (hp : Spot live p) (he : Removes p e) (h : EditSem faults e w r w') :
    Removal steady ref live p w w' := by
  have hpp : ∀ p' ∈ e.footprint, p' = p := he.footprint ▸ by simp
  exact ⟨.of_remove hp he h, fun q hq => h.peek_eq fun p' hp' => hpp p' hp' ▸ hq,
    fun q hq => h.get_apart fun p' hp' => hpp p' hp' ▸ hq, h.rest.2.2.2⟩

theorem Removal.trans (h₁ : Removal steady ref live p a b)
    (h₂ : Removal steady ref live p b c) : Removal steady ref live p a c where
  cleans := h₁.cleans.trans h₂.cleans
  aside q hq := (h₂.aside q hq).trans (h₁.aside q hq)
  apart q hq := (h₂.apart q hq).trans (h₁.apart q hq)
  examined := h₂.examined.trans h₁.examined

theorem EditSem.shrink_ok (h : EditSem false (.shrink p) w r w') (hl : w.peek p = some none) :
    r = .ok () ∧ w'.peek p = some none := by
  obtain ⟨es, hes⟩ := World.peek_eq_node.1 hl
  have hlook := World.look_eq_ok.2 hes
  cases h with
  | refused h => simp [Edit.apply, hlook] at h
  | fault h => cases h
  | done h =>
    simp only [Edit.apply, hlook] at h
    cases h
    exact ⟨rfl, hl⟩
  | @shrunk p' t t' w w' hl' hprunes hput =>
    refine ⟨rfl, ?_⟩
    rw [World.peek_withDisk, World.peek, World.get_put_self hput]
    rw [hlook] at hl'
    cases hl'
    have hnode := hprunes.2 [] (label t') (by simp [peek])
    simpa [peek, eq_comm] using hnode

theorem EditSem.removeDir_ok
    (h : EditSem false (.removeDir p) w r w') (hl : w.peek p = some none) : r = .ok () := by
  obtain ⟨es, hes⟩ := World.peek_eq_node.1 hl
  cases h with
  | refused h => simp [Edit.apply, World.look_eq_ok.2 hes] at h
  | fault h => cases h
  | done h => rfl

/-- A successful `rmdir` or `unlink` leaves nothing. -/
theorem EditSem.removed (he : e = .removeDir p ∨ e = .unlink p) (hp : p ≠ [] ∧ p ≠ [RUNS_DIR])
    (h : EditSem faults e w r w') (hr : r = .ok ()) : w'.peek p = none := by
  cases h with
  | refused h | fault h | partialWrite hf h => cases hr
  | shrunk => rcases he with he | he <;> cases he
  | done h =>
    rw [World.peek_withDisk, World.peek_eq_none]
    rcases he with rfl | rfl
    all_goals
      simp only [Edit.apply] at h
      split at h <;> cases h
      exact World.get_del_self hp

theorem Spot.ne (hp : Spot live p) : p ≠ [] ∧ p ≠ [RUNS_DIR] := by
  rcases hp with ⟨n, rfl, -⟩ | ⟨m, rfl, -⟩ <;> simp

theorem removeDirAll_tidies (hp : Spot live p) :
    Tidies faults steady ref live (fun r w' => Removal steady ref live p w w' ∧
      (r = .ok () → w'.peek p = none) ∧ (faults = false → w.peek p = some none → r = .ok ()))
      (removeDirAll p) w := by
  refine answers_bind (Q := fun r w' => Removal steady ref live p w w' ∧
    (faults = false → w.peek p = some none → r = .ok () ∧ w'.peek p = some none))
    (tidies_attempt fun w₁ r w₂ hg h => ?_) (fun _ w₂ h₂ => ?_) fun e w' h' => ?_
  · have hrem : Removal steady ref live p w w₂ :=
      (Removal.of_pins hg).trans (.of_edit hp (.inl rfl) h)
    have hok : faults = false → w.peek p = some none → r = .ok () ∧ w₂.peek p = some none := by
      rintro rfl hl
      exact h.shrink_ok ((hg.peek p).trans hl)
    refine ⟨.of_remove hp (.inl rfl) h, fun hr => ⟨hrem, fun hf hl => ⟨rfl, (hok hf hl).2⟩⟩,
      fun x hx => ⟨hrem, fun hf hl => ?_⟩⟩
    rw [hx] at hok
    cases (hok hf hl).1
  · refine tidies_attempt fun w₃ r w₄ hg h => ?_
    have hrem : Removal steady ref live p w w₄ :=
      (h₂.1.trans (.of_pins hg)).trans (.of_edit hp (.inr (.inl rfl)) h)
    refine ⟨.of_remove hp (.inr (.inl rfl)) h,
      fun hr => ⟨hrem, fun _ => h.removed (.inl rfl) hp.ne hr, fun _ _ => rfl⟩,
      fun x hx => ⟨hrem, nofun, ?_⟩⟩
    rintro rfl hl
    have hok := h.removeDir_ok ((hg.peek p).trans (h₂.2 rfl hl).2)
    rw [hx] at hok
    cases hok
  · refine ⟨h'.1, nofun, fun hf hl => ?_⟩
    cases (h'.2 hf hl).1

theorem World.eq_notFound_of_parent {d : Path} {n : Name} {e : IoError} (hdir : d ≠ [])
    (hd : w.peek d = some none) (h : w.look (d ++ [n]) = .error e) : e = .notFound := by
  rcases World.look_of_parent (n := n) (fun h => absurd h hdir) hd with ⟨t, ht⟩ | ht
  · cases ht.symm.trans h
  · exact (Except.error.inj (ht.symm.trans h)).symm

/-- `remove_path_if_exists` removes all of it, if it succeeds, and nothing else. -/
theorem removePathIfExists_tidies {d : Path} {n : Name} (hp : Spot live (d ++ [n])) (hdir : d ≠ []) :
    Tidies faults steady ref live (fun r w' => Removal steady ref live (d ++ [n]) w w' ∧
      (r = .ok () → w'.peek (d ++ [n]) = none) ∧
      (faults = false → w.peek d = some none → r = .ok ()))
      (removePathIfExists (d ++ [n])) w := by
  refine answers_bind (Q := fun r w' => ∃ found, r = .ok found ∧ Pins steady w w' ∧
    found = w'.look (d ++ [n])) (tidies_look fun w₁ hg => ⟨_, rfl, hg, rfl⟩) (fun found w₁ h₁ => ?_)
    fun e w' h => by obtain ⟨_, h, -⟩ := h; cases h
  obtain ⟨_, ⟨⟩, hg, hfound⟩ := h₁
  have hrem : Removal steady ref live (d ++ [n]) w w₁ := .of_pins hg
  split
  · next es =>
    refine meets_post (removeDirAll_tidies hp) fun r w' h => ?_
    refine ⟨hrem.trans h.1, h.2.1, fun hf _ => h.2.2 hf ?_⟩
    simp [World.peek, World.look_eq_ok.1 hfound.symm]
  · next a =>
    refine tidies_attempt fun w₂ r w₃ hg' h => ?_
    have hrem₃ := (hrem.trans (.of_pins hg')).trans (.of_edit hp (.inr (.inr rfl)) h)
    refine ⟨.of_remove hp (.inr (.inr rfl)) h,
      fun hr => ⟨hrem₃, fun _ => h.removed (.inr rfl) hp.ne hr, fun _ _ => rfl⟩,
      fun x hx => ⟨hrem₃, (by simp), ?_⟩⟩
    rintro rfl -
    have hlook : w₂.look (d ++ [n]) = .ok (.leaf a) := (hg'.look _).trans hfound.symm
    cases h with
    | refused h => simp [Edit.apply, hlook] at h
    | fault h => cases h
    | done h => cases hx
  · refine ⟨hrem, fun _ => ?_, fun _ _ => rfl⟩
    exact World.peek_eq_none.2 (World.get_of_look_error hfound.symm)
  · next e hne =>
    exact ⟨hrem, (by simp), fun _ hd =>
      absurd (World.eq_notFound_of_parent hdir ((hg.peek _).trans hd) hfound.symm) hne⟩

/-! ## The loop over `runs/` -/

/-- A part of a collection that touches run directories only. -/
structure InRuns (steady : Bool) (ref : List GenerationId) (live : Option RunId) (w w' : World) :
    Prop where
  cleans : Cleans steady ref live w w'
  aside : ∀ q, q.head? ≠ some RUNS_DIR → w'.peek q = w.peek q
  dir : w'.peek [RUNS_DIR] = w.peek [RUNS_DIR]
  listed : w'.listed = w.listed
  examined : w'.examined = w.examined

theorem InRuns.refl (w : World) : InRuns steady ref live w w :=
  ⟨.refl w, fun _ _ => rfl, rfl, rfl, rfl⟩

theorem InRuns.trans (h₁ : InRuns steady ref live a b)
    (h₂ : InRuns steady ref live b c) : InRuns steady ref live a c where
  cleans := h₁.cleans.trans h₂.cleans
  aside q hq := (h₂.aside q hq).trans (h₁.aside q hq)
  dir := h₂.dir.trans h₁.dir
  listed := h₂.listed.trans h₁.listed
  examined := h₂.examined.trans h₁.examined

theorem Removal.inRuns {n : Name} (h : Removal steady ref live [RUNS_DIR, n] w w') :
    InRuns steady ref live w w' where
  cleans := h.cleans
  aside q hq := h.aside q fun ⟨s, hs⟩ => hq (by rw [← hs]; rfl)
  dir := h.aside _ (by simp)
  listed := listing_look (h.apart _ (apart_of_ne (by decide) _ _))
  examined := h.examined

/-- The loop over `runs/` removes the runs that are not live, and nothing else. -/
theorem collectRuns_tidies : Tidies faults steady ref live (fun r w' => InRuns steady ref live w w' ∧
      (∀ ns, r = .ok ns → ∀ n, live.map RunId.asStr ≠ some n →
        n ∈ names ∨ w.peek [RUNS_DIR, n] = none → w'.peek [RUNS_DIR, n] = none) ∧
      (faults = false → (names ≠ [] → w.peek [RUNS_DIR] = some none) → ∃ ns, r = .ok ns))
      (Store.collectRuns live names) w := by
  induction names generalizing w with
  | nil =>
    refine ⟨.refl w, ?_, fun _ _ => ⟨_, rfl⟩⟩
    rintro ns - n - (hn | hn)
    · cases hn
    · exact hn
  | cons name names ih =>
    simp only [Store.collectRuns]
    split_ifs with hlive
    · refine meets_post ih fun r w' h => ⟨h.1, fun ns hr n hn hmem => ?_, fun hf hd => ?_⟩
      · refine h.2.1 ns hr n hn (hmem.imp_left fun hmem => ?_)
        rcases mem_cons.1 hmem with rfl | hmem
        · exact absurd hlive hn
        · exact hmem
      · exact h.2.2 hf fun _ => hd (by simp)
    · have hspot : Spot live ([RUNS_DIR] ++ [name]) := .inl ⟨name, rfl, hlive⟩
      refine answers_bind (removePathIfExists_tidies hspot (by simp)) (fun _ w₁ h₁ => ?_)
        fun e w' h => ⟨h.1.inRuns, (by simp), fun hf hd => ?_⟩
      · have hruns := h₁.1.inRuns
        refine answers_bind ih (fun ns w₂ h₂ => ?_) fun e w' h => ?_
        · refine ⟨hruns.trans h₂.1, fun ns' _ n hn hmem => ?_, fun _ _ => ⟨_, rfl⟩⟩
          refine h₂.2.1 ns rfl n hn ?_
          by_cases hname : n = name
          · exact .inr (hname ▸ h₁.2.1 rfl)
          · rcases hmem with hmem | hnone
            · exact .inl ((mem_cons.1 hmem).resolve_left hname)
            · refine .inr ((h₁.1.aside _ ?_).trans hnone)
              simpa [eq_comm] using hname
        · refine ⟨hruns.trans h.1, (by simp), fun hf hd => ?_⟩
          obtain ⟨ns, hns⟩ := h.2.2 hf fun _ => hruns.dir.trans (hd (by simp))
          cases hns
      · cases h.2.2 hf (hd (by simp))

/-! ## One generation -/

/-- Somebody holds the pin of a generation. -/
def Locked (id : GenerationId) (w : World) : Prop :=
  w.peek (generationDir id ++ [PIN]) ≠ none ∧ w.held id.asStr = true

/-- A generation can be renamed to its trash directory. -/
def Clear (id : GenerationId) (w : World) : Prop :=
  w.peek (trashDir id) = none ∨
    w.peek (trashDir id) = some none ∧ ∀ n, w.peek (trashDir id ++ [n]) = none

/-- The collector gets past a generation. -/
def Collectible (id : GenerationId) (w : World) : Prop :=
  w.peek (generationDir id) = some none ∧ (Locked id w ∨ Clear id w)

/-- A part of a collection that deals with one generation. -/
structure InGeneration (steady : Bool) (ref : List GenerationId) (live : Option RunId)
    (id : GenerationId) (w w' : World) : Prop where
  cleans : Cleans steady ref live w w'
  aside : ∀ q, ¬ generationDir id <+: q → ¬ trashDir id <+: q → w'.peek q = w.peek q
  examined : ∀ n, n ≠ id.asStr → Assoc.get n w'.examined = Assoc.get n w.examined

theorem InGeneration.of_pins (h : Pins steady w w') : InGeneration steady ref live id w w' :=
  ⟨.of_pins h, fun q _ _ => h.peek q, fun _ _ => by rw [h.examined]⟩

theorem InGeneration.trans
    (h₁ : InGeneration steady ref live id a b) (h₂ : InGeneration steady ref live id b c) :
    InGeneration steady ref live id a c where
  cleans := h₁.cleans.trans h₂.cleans
  aside q hg ht := (h₂.aside q hg ht).trans (h₁.aside q hg ht)
  examined n hn := (h₂.examined n hn).trans (h₁.examined n hn)

theorem Removal.inGeneration
    (h : Removal steady ref live (trashDir id) w w') : InGeneration steady ref live id w w' :=
  ⟨h.cleans, fun q _ ht => h.aside q ht, fun _ _ => by rw [h.examined]⟩

theorem spot_trash (id : GenerationId) : Spot live (trashDir id) :=
  .inr ⟨_, rfl, leftover_trash id⟩

/-- What opening the pin of a generation tells. -/
theorem openPin_tidies : Tidies faults steady ref live (fun r w' => Pins steady w w' ∧
      (∀ b, r = .ok b → (b = true ↔ w.peek (generationDir id ++ [PIN]) ≠ none) ∧
        ∀ a, w.peek (generationDir id) ≠ some (some a)) ∧
      (w.peek (generationDir id) = some none → ∃ b, r = .ok b)) (Store.openPin id.asStr) w := by
  refine answers_bind (Q := fun r w' => ∃ found, r = .ok found ∧ Pins steady w w' ∧
    found = w.look (generationDir id ++ [PIN])) (tidies_look fun w₁ hg => ⟨_, rfl, hg, hg.look _⟩)
    (fun found w₁ h₁ => ?_) fun e w' h => by obtain ⟨_, h, -⟩ := h; cases h
  obtain ⟨_, ⟨⟩, hg, hfound⟩ := h₁
  have hleaf : found ≠ .error .notADirectory → ∀ a, w.peek (generationDir id) ≠ some (some a) := by
    intro hne a ha
    refine hne (hfound.trans ?_)
    have hget : w.top.get (generationDir id) = some (.leaf a) := World.peek_eq_leaf.1 ha
    exact resolve_below_leaf hget
  split
  · next t =>
    refine ⟨hg, fun b hb => ⟨?_, hleaf (by simp)⟩, fun _ => ⟨_, rfl⟩⟩
    cases hb
    simp [World.peek, World.look_eq_ok.1 hfound.symm]
  · refine ⟨hg, fun b hb => ⟨?_, hleaf (by simp)⟩, fun _ => ⟨_, rfl⟩⟩
    cases hb
    simp [World.peek, World.get_of_look_error hfound.symm]
  · next e hne =>
    exact ⟨hg, (by simp), fun hd =>
      absurd (World.eq_notFound_of_parent (generationDir_ne_nil id) hd hfound.symm) hne⟩

/-- Whether the pin was locked, if there is one, is in the history. -/
theorem lockPin_tidies {pinned : Bool}
    (hpinned : pinned = true ↔ w.peek (generationDir id ++ [PIN]) ≠ none) :
    Tidies faults steady ref live (fun r w' => InGeneration steady ref live id w w' ∧
      (∀ q, w'.peek q = w.peek q) ∧ ∃ free, r = .ok free ∧
        (free = true → w.peek (generationDir id ++ [PIN]) = none ∨
          Assoc.get id.asStr w'.examined = some false) ∧
        (free = false → w.peek (generationDir id ++ [PIN]) ≠ none ∧
          Assoc.get id.asStr w'.examined = some true) ∧
        (steady = true → (free = false ↔ Locked id w))) (Store.lockPin pinned id.asStr) w := by
  unfold Store.lockPin
  split_ifs with hp
  · rintro w₁ hg free w₂ ⟨rfl, rfl⟩
    have hpin := hpinned.1 hp
    have hpin₁ : w₁.peek (generationDir id ++ [PIN]) ≠ none := by rwa [hg.peek]
    have hlock : Cleans steady ref live w₁
        { w₁ with examined := (id.asStr, w₁.held id.asStr) :: w₁.examined } := .of_tryLock hpin₁
    have hpeek : ∀ q, ({ w₁ with examined := (id.asStr, w₁.held id.asStr) :: w₁.examined } :
        World).peek q = w₁.peek q := fun q => by cases q <;> rfl
    refine ⟨hlock, ⟨(Cleans.of_pins hg).trans hlock, fun q _ _ => (hpeek q).trans (hg.peek q),
      fun n hn => ?_⟩, fun q => (hpeek q).trans (hg.peek q), _, rfl, fun hf => .inr ?_,
      fun hf => ⟨hpin, ?_⟩, fun hs => ?_⟩
    · simp [hn.symm, hg.examined]
    · simpa using hf
    · simpa using hf
    · rw [hg.held hs]
      simp [Locked, hpin]
  · have hnone : w.peek (generationDir id ++ [PIN]) = none := by
      by_contra h
      exact hp (hpinned.2 h)
    refine ⟨.of_pins (pins_refl steady w), fun _ => rfl, true, rfl, fun _ => .inl hnone, (by simp),
      fun _ => ?_⟩
    simp [Locked, hnone]

theorem World.get_of_clear (hdir : w.peek [GENERATIONS_DIR] = some none)
    (h : Clear id w) : w.look (trashDir id) = .error .notFound ∨ w.look (trashDir id) = .ok (.node []) := by
  have hlook := World.look_of_parent (n := TRASH_PREFIX ++ id.asStr) (by simp) hdir
  rcases h with h | ⟨h, hempty⟩
  · rcases hlook with ⟨t, ht⟩ | hlook
    · have hget := World.look_eq_ok.1 ht
      rw [World.peek_eq_none] at h
      exact absurd (h.symm.trans hget) (by simp)
    · exact .inl hlook
  · obtain ⟨es, ht⟩ := World.peek_eq_node.1 h
    cases es with
    | nil => exact .inr (World.look_eq_ok.2 ht)
    | cons e es =>
      have hnone := hempty e.1
      rw [World.peek_append (by simp [trashDir]) ht] at hnone
      simp [Tree.peek, Tree.get_node_cons] at hnone

theorem World.peek_gens (h : w.peek (generationDir id) = some none) : w.peek [GENERATIONS_DIR] = some none := by
  refine World.peek_parent (p := [GENERATIONS_DIR]) (n := id.asStr) (by simp) ?_
  rw [show [GENERATIONS_DIR] ++ [id.asStr] = generationDir id from rfl, h]
  simp

/-- Without faults, a generation that can be renamed is. -/
theorem EditSem.collect_ok (h : EditSem false (.rename (generationDir id) (trashDir id)) w r w')
    (hdir : w.peek (generationDir id) = some none) (hc : Clear id w) : r = .ok () := by
  obtain ⟨es, ht⟩ := World.peek_eq_node.1 hdir
  have hgens : w.peek [GENERATIONS_DIR] = some none := World.peek_gens hdir
  have hmove : ∃ x, w.move (generationDir id) (trashDir id) (.node es) = .ok x := by
    have hparent : (w.del (generationDir id)).peek [GENERATIONS_DIR] = some none :=
      (World.peek_del (by simp [generationDir])).trans hgens
    obtain ⟨x, hx⟩ := World.put_of_parent (n := TRASH_PREFIX ++ id.asStr) (by simp) hparent (.node es)
    have hput : (w.del (generationDir id)).put (trashDir id) (.node es) = some x := hx
    exact ⟨_, by rw [World.move, hput]⟩
  obtain ⟨x, hx⟩ := hmove
  cases h with
  | done h => rfl
  | fault h => cases h
  | refused h =>
    simp only [Edit.apply, World.look_eq_ok.2 ht] at h
    rcases World.get_of_clear hgens hc with hlook | hlook
    · rw [hlook] at h
      cases hx.symm.trans h
    · rw [hlook] at h
      cases hx.symm.trans h

theorem EditSem.clear_of_collect
    (h : EditSem faults (.rename (generationDir id) (trashDir id)) w (.ok ()) w')
    (hleaf : ∀ a, w.peek (generationDir id) ≠ some (some a)) :
    w.peek (generationDir id) = some none ∧ Clear id w ∧ w'.peek (generationDir id) = none ∧
      w'.peek [GENERATIONS_DIR] = some none := by
  have hgens' : w'.peek [GENERATIONS_DIR] = w.peek [GENERATIONS_DIR] :=
    h.peek_eq (by simp [generationDir, trashDir])
  cases h with
  | done h =>
    obtain ⟨t, x, ht, hx, rfl, hdst⟩ := Edit.rename_eq_ok h
    cases t with
    | leaf a => exact absurd (by simp [World.peek, ht]) (hleaf a)
    | node es =>
      have hdir : w.peek (generationDir id) = some none := by simp [World.peek, ht]
      refine ⟨hdir, ?_, ?_, hgens'.trans (World.peek_gens hdir)⟩
      · cases hg : w.get (trashDir id) with
        | none => exact .inl (World.peek_eq_none.2 hg)
        | some u =>
          rcases hdst u hg with rfl | ⟨a, ha⟩
          · refine .inr ⟨by simp [World.peek, hg], fun n => ?_⟩
            rw [World.peek_append (by simp [trashDir]) hg]
            rfl
          · cases ha
      · rw [World.peek_withDisk]
        have hnone : x.get (generationDir id) = none := by
          rw [World.get_put_apart hx ((inert_trash id).gens id)]
          exact World.get_del_self ⟨by simp [generationDir], by simp [generationDir]⟩
        exact World.peek_eq_none.2 hnone

theorem Clear.congr (h : ∀ q, w'.peek q = w.peek q) : Clear id w' ↔ Clear id w := by
  simp only [Clear, h]

/-- What the loop does with one generation nobody references. -/
theorem collectGeneration_tidies (hid : id ∉ ref) :
    Tidies faults steady ref live (fun r w' => InGeneration steady ref live id w w' ∧
      (r = .ok true → w'.peek (generationDir id) = none ∧ w'.peek (trashDir id) = none) ∧
      (r = .ok false → (∀ q, w'.peek q = w.peek q) ∧ w.peek (generationDir id ++ [PIN]) ≠ none ∧
        Assoc.get id.asStr w'.examined = some true) ∧
      (steady = true → (∀ b, r = .ok b → Collectible id w) ∧
        (faults = false → Collectible id w → ∃ b, r = .ok b)))
      (Store.collectGeneration id) w := by
  refine answers_bind openPin_tidies (fun pinned w₁ h₁ => ?_) fun e w' h =>
    ⟨.of_pins h.1, (by simp), (by simp), fun _ => ⟨(by simp), fun _ hc => ?_⟩⟩
  swap
  · obtain ⟨b, hb⟩ := h.2.2 hc.1
    cases hb
  obtain ⟨hg₁, hopen, -⟩ := h₁
  obtain ⟨hpinned, hleaf⟩ := hopen pinned rfl
  refine answers_bind (lockPin_tidies (by rw [hpinned, hg₁.peek])) (fun free w₂ h₂ => ?_)
    fun e w' h => by obtain ⟨-, -, _, h, -⟩ := h; cases h
  obtain ⟨hin₂, hsame₂, _, ⟨⟩, hfree, hbusy, hlocked⟩ := h₂
  have hin : InGeneration steady ref live id w w₂ := (InGeneration.of_pins hg₁).trans hin₂
  have hsame : ∀ q, w₂.peek q = w.peek q := fun q => (hsame₂ q).trans (hg₁.peek q)
  have hlocked' : steady = true → (free = false ↔ Locked id w) := by
    intro hs
    rw [hlocked hs, Locked, Locked, hg₁.peek, hg₁.held hs]
  split_ifs with hf
  · -- nobody holds it: rename and remove
    refine answers_bind (Q := fun r w' => InGeneration steady ref live id w w' ∧
      (r = .ok () → Collectible id w ∧ w'.peek (generationDir id) = none ∧
        w'.peek [GENERATIONS_DIR] = some none) ∧
      (steady = true → faults = false → Collectible id w → r = .ok ()))
      (tidies_attempt fun w₃ r w₄ hg h => ?_) (fun _ w₄ h₄ => ?_) fun e w' h => ?_
    · have hsame₃ : ∀ q, w₃.peek q = w.peek q := fun q => (hg.peek q).trans (hsame q)
      have hlast : w₃.peek (generationDir id ++ [PIN]) = none ∨
          Assoc.get id.asStr w₃.examined = some false := by
        rw [hsame₃, hg.examined, ← hg₁.peek]
        exact hfree hf
      have hcleans : Cleans steady ref live w₃ w₄ := .of_rename hid hlast h
      have hin₄ : InGeneration steady ref live id w w₄ :=
        (hin.trans (.of_pins hg)).trans ⟨hcleans, fun q hq ht => h.peek_eq (Edit.forall_rename hq ht),
          fun n _ => by rw [h.rest.2.2.2]⟩
      refine ⟨hcleans, fun hr => ⟨hin₄, fun _ => ?_, fun _ _ _ => rfl⟩,
        fun x hx => ⟨hin₄, (by simp), fun hs hfaults hc => ?_⟩⟩
      · subst hr
        obtain ⟨hdir, hclear, hgone, hgens⟩ := h.clear_of_collect fun a => by
          rw [hsame₃]
          exact hleaf a
        refine ⟨⟨?_, .inr ((Clear.congr hsame₃).1 hclear)⟩, hgone, hgens⟩
        rwa [hsame₃] at hdir
      · subst hfaults
        have hclear : Clear id w := hc.2.resolve_left fun hl => by
          have hbusy := (hlocked' hs).2 hl
          rw [hf] at hbusy
          cases hbusy
        have hok := h.collect_ok (by rw [hsame₃]; exact hc.1) ((Clear.congr hsame₃).2 hclear)
        rw [hx] at hok
        cases hok
    · obtain ⟨hcol, hgone, hgens⟩ := h₄.2.1 rfl
      refine answers_bind (removePathIfExists_tidies (d := [GENERATIONS_DIR])
        (spot_trash id) (by simp)) (fun _ w₅ h₅ => ?_) fun e w' h => ?_
      · refine ⟨h₄.1.trans h₅.1.inGeneration, fun _ => ⟨?_, h₅.2.1 rfl⟩, (by simp), fun _ =>
          ⟨fun _ _ => hcol, fun _ _ => ⟨_, rfl⟩⟩⟩
        exact (h₅.1.aside _ ((inert_trash id).gens id).1).trans hgone
      · refine ⟨h₄.1.trans h.1.inGeneration, (by simp), (by simp), fun _ => ⟨(by simp), fun hfaults _ => ?_⟩⟩
        cases h.2.2 hfaults hgens
    · refine ⟨h.1, (by simp), (by simp), fun hs => ⟨(by simp), fun hfaults hc => ?_⟩⟩
      cases h.2.2 hs hfaults hc
  · have hf : free = false := by simpa using hf
    obtain ⟨hpin, hlast⟩ := hbusy hf
    rw [hg₁.peek] at hpin
    refine ⟨hin, (by simp), fun _ => ⟨hsame, hpin, hlast⟩, fun hs => ⟨fun _ _ => ?_, fun _ _ => ⟨_, rfl⟩⟩⟩
    exact ⟨World.peek_parent (generationDir_ne_nil id) hpin, .inl ((hlocked' hs).1 hf)⟩

/-! ## The loop over `generations/` -/

/-- A generation nobody references is gone, or its pin was found locked. -/
def Settled (id : GenerationId) (w : World) : Prop :=
  w.peek (generationDir id) = none ∨
    w.peek (generationDir id ++ [PIN]) ≠ none ∧ Assoc.get id.asStr w.examined = some true

/-- The loop over the names still to come gets to its end: every generation among
    them is locked, can be renamed, or has its trash directory removed before. -/
def Ready (ref : List GenerationId) (names : List Name) (w : World) : Prop :=
  ∀ id : GenerationId, id ∉ ref → id.asStr ∈ names → w.peek (generationDir id) = some none ∧
    (Locked id w ∨ Clear id w ∨ [TRASH_PREFIX ++ id.asStr, id.asStr] <+ names)

/-- What getting past one name has changed. -/
structure Passed (steady : Bool) (ref : List GenerationId) (live : Option RunId) (name : Name)
    (w w' : World) : Prop where
  cleans : Cleans steady ref live w w'
  left : ∀ m, Leftover m → m = name ∨ w.peek [GENERATIONS_DIR, m] = none →
    w'.peek [GENERATIONS_DIR, m] = none
  settled : ∀ id : GenerationId, id ∉ ref → id.asStr = name ∨ Settled id w → Settled id w'
  gens : ∀ id : GenerationId, id.asStr ≠ name → ∀ q,
    w'.peek (generationDir id ++ q) = w.peek (generationDir id ++ q)
  trash : ∀ id : GenerationId, id.asStr ≠ name → TRASH_PREFIX ++ id.asStr ≠ name → ∀ q,
    w'.peek (trashDir id ++ q) = w.peek (trashDir id ++ q)

theorem trash_ne_id (id id' : GenerationId) : TRASH_PREFIX ++ id.asStr ≠ id'.asStr := fun h =>
  not_leftover_id id' (h ▸ leftover_trash id)

/-- The loop skips the name. -/
theorem Passed.skip (hl : ¬ Leftover name)
    (href : ∀ id : GenerationId, id.asStr = name → id ∈ ref) : Passed steady ref live name w w where
  cleans := .refl w
  left _ hm h := h.resolve_left fun he => hl (he ▸ hm)
  settled id hid h := h.resolve_left fun he => hid (href id he)
  gens _ _ _ := rfl
  trash _ _ _ _ := rfl

theorem Passed.of_removal (hl : Leftover name) (h : Removal steady ref live [GENERATIONS_DIR, name] w w')
    (hgone : w'.peek [GENERATIONS_DIR, name] = none) : Passed steady ref live name w w' := by
  have haside : ∀ {m : Name}, m ≠ name → ∀ q,
      w'.peek ([GENERATIONS_DIR, m] ++ q) = w.peek ([GENERATIONS_DIR, m] ++ q) := by
    intro m hm q
    exact h.aside _ (by simpa using hm.symm)
  have hne : ∀ id : GenerationId, id.asStr ≠ name := fun id he => not_leftover_id id (he ▸ hl)
  refine ⟨h.cleans, fun m _ hm => ?_, fun id _ hs => ?_, fun id hid q => haside hid q,
    fun id _ ht q => haside ht q⟩
  · by_cases he : m = name
    · rw [he]
      exact hgone
    · have hm' := hm.resolve_left he
      rw [← hm']
      simpa using haside he []
  · have hs' := hs.resolve_left (hne id)
    have hdir : w'.peek (generationDir id) = w.peek (generationDir id) := haside (hne id) []
    rw [Settled, hdir, h.examined, generationDir, haside (hne id)]
    exact hs'

theorem Passed.of_collected (h : InGeneration steady ref live id w w') (hsettled : Settled id w')
    (htrash : w.peek (trashDir id) = none → w'.peek (trashDir id) = none) :
    Passed steady ref live id.asStr w w' := by
  have hgens : ∀ id' : GenerationId, id'.asStr ≠ id.asStr → ∀ q,
      w'.peek (generationDir id' ++ q) = w.peek (generationDir id' ++ q) := by
    intro id' hne q
    refine h.aside _ (fun hp => hne ?_) (((inert_trash id).gens id').append_right q).1
    simpa [generationDir, eq_comm] using hp
  refine ⟨h.cleans, fun m hm hn => ?_, fun id' _ hs => ?_, hgens, fun id' hne _ q => ?_⟩
  · have hnone := hn.resolve_left fun he => not_leftover_id id (he ▸ hm)
    by_cases he : m = TRASH_PREFIX ++ id.asStr
    · subst he
      exact htrash hnone
    · refine (h.aside _ (fun hp => ?_) fun hp => ?_).trans hnone
      · have hid : id.asStr = m := by simpa [generationDir] using hp
        exact not_leftover_id id (hid ▸ hm)
      · exact he (by simpa [trashDir, eq_comm] using hp)
  · by_cases he : id'.asStr = id.asStr
    · rw [ext_asStr he]
      exact hsettled
    · have hs' := hs.resolve_left he
      have hdir := hgens id' he []
      rw [append_nil] at hdir
      rw [Settled, hdir, hgens id' he, h.examined _ he]
      exact hs'
  · refine h.aside _ (fun hp => ?_) fun hp => hne ?_
    · exact trash_ne_id id' id (by simpa [generationDir, trashDir, eq_comm] using hp)
    · rw [eq_of_trash_below hp]

/-- The name is no hindrance: if it is a generation nobody references, the
    collector gets past it. -/
def Able (ref : List GenerationId) (name : Name) (w : World) : Prop :=
  ∀ id : GenerationId, id ∉ ref → id.asStr = name → Collectible id w

section

variable (h : Passed steady ref live name w w') (hn : id.asStr ≠ name)

include h hn

theorem Passed.dir : w'.peek (generationDir id) = w.peek (generationDir id) := by
  simpa using h.gens id hn []

theorem Passed.locked (hs : steady = true) : Locked id w' ↔ Locked id w := by
  rw [Locked, Locked, h.gens id hn, h.cleans.held hs]

theorem Passed.clear (ht : TRASH_PREFIX ++ id.asStr ≠ name) : Clear id w' ↔ Clear id w := by
  have htop := h.trash id hn ht []
  rw [append_nil] at htop
  simp only [Clear, htop, h.trash id hn ht]

end

/-- A loop that got past a name and was ready for the rest was ready. -/
theorem Ready.cons (hs : steady = true)
    (h : Passed steady ref live name w w') (hable : Able ref name w) (hr : Ready ref names w') :
    Ready ref (name :: names) w := by
  intro id hid hmem
  by_cases hn : id.asStr = name
  · obtain ⟨hdir, hc⟩ := hable id hid hn
    exact ⟨hdir, hc.imp_right .inl⟩
  · have hrest := (mem_cons.1 hmem).resolve_left hn
    obtain ⟨hdir, hc⟩ := hr id hid hrest
    refine ⟨(h.dir hn).symm.trans hdir, ?_⟩
    by_cases ht : TRASH_PREFIX ++ id.asStr = name
    · exact .inr (.inr (ht ▸ (singleton_sublist.2 hrest).cons_cons _))
    · exact hc.imp (h.locked hn hs).1 (.imp (h.clear hn ht).1 (.cons _))

/-- A loop that is ready gets past its first name. -/
theorem Ready.able (hnd : (name :: names).Nodup) (hr : Ready ref (name :: names) w) : Able ref name w := by
  rintro id hid rfl
  obtain ⟨hdir, hc⟩ := hr id hid (by simp)
  refine ⟨hdir, ?_⟩
  rcases hc with hc | hc | hc
  · exact .inl hc
  · exact .inr hc
  · -- the trash directory would have to be listed first
    rcases sublist_cons_iff.1 hc with hc | ⟨l, hl, -⟩
    · exact absurd (hc.subset (by simp)) (nodup_cons.1 hnd).1
    · exact absurd (List.cons.inj hl).1 (trash_ne_id id id)

/-- Past its first name, it is ready for the rest. -/
theorem Ready.rest (hs : steady = true)
    (hnd : (name :: names).Nodup) (h : Passed steady ref live name w w')
    (hr : Ready ref (name :: names) w) : Ready ref names w' := by
  intro id hid hmem
  have hn : id.asStr ≠ name := fun he => (nodup_cons.1 hnd).1 (he ▸ hmem)
  obtain ⟨hdir, hc⟩ := hr id hid (mem_cons_of_mem _ hmem)
  refine ⟨(h.dir hn).trans hdir, ?_⟩
  by_cases ht : TRASH_PREFIX ++ id.asStr = name
  · have hgone := h.left _ (leftover_trash id) (.inl ht)
    exact .inr (.inl (.inl hgone))
  · refine hc.imp (h.locked hn hs).2 (.imp (h.clear hn ht).2 fun hc => ?_)
    rcases sublist_cons_iff.1 hc with hc | ⟨l, hl, -⟩
    · exact hc
    · exact absurd (List.cons.inj hl).1 ht

/-- How the loop over `generations/` ends. -/
structure Swept (faults steady : Bool) (ref : List GenerationId) (live : Option RunId)
    (names : List Name) (w : World) {β : Type} (r : Except StoreError β) (w' : World) : Prop where
  cleans : Cleans steady ref live w w'
  left : ∀ x, r = .ok x → ∀ m, Leftover m → m ∈ names ∨ w.peek [GENERATIONS_DIR, m] = none →
    w'.peek [GENERATIONS_DIR, m] = none
  settled : ∀ x, r = .ok x → ∀ id : GenerationId, id ∉ ref → id.asStr ∈ names ∨ Settled id w →
    Settled id w'
  ready : steady = true → ∀ x, r = .ok x → Ready ref names w
  completes : steady = true → faults = false → names.Nodup → Ready ref names w →
    (names ≠ [] → w.peek [GENERATIONS_DIR] = some none) → ∃ x, r = .ok x

theorem Swept.cons {w₁ : World} {r : Except StoreError β} (hp : Passed steady ref live name w w₁)
    (hable : steady = true → Able ref name w) (h : Swept faults steady ref live names w₁ r w') :
    Swept faults steady ref live (name :: names) w r w' where
  cleans := hp.cleans.trans h.cleans
  left x hx m hm hmem := by
    refine h.left x hx m hm ?_
    rw [mem_cons, or_assoc, or_left_comm] at hmem
    exact hmem.imp_right (hp.left m hm)
  settled x hx id hid hmem := by
    refine h.settled x hx id hid ?_
    rw [mem_cons, or_assoc, or_left_comm] at hmem
    exact hmem.imp_right (hp.settled id hid)
  ready hs x hx := .cons hs hp (hable hs) (h.ready hs x hx)
  completes hs hf hnd hr hd := by
    refine h.completes hs hf (nodup_cons.1 hnd).2 (hr.rest hs hnd hp) fun _ => ?_
    have hdir := hp.cleans.frame [GENERATIONS_DIR] fun h => h
    exact hdir.trans (hd (by simp))

theorem Swept.stopped {e : StoreError} (hc : Cleans steady ref live w w')
    (h : steady = true → faults = false → Able ref name w → w.peek [GENERATIONS_DIR] ≠ some none) :
    Swept faults steady ref live (name :: names) w (.error e : Except StoreError β) w' where
  cleans := hc
  left := nofun
  settled := nofun
  ready := nofun
  completes hs hf hnd hr hd := absurd (hd (by simp)) (h hs hf (hr.able hnd))

theorem Swept.of_eq {γ : Type} {x : β} (y : γ)
    (h : Swept faults steady ref live names w (.ok x : Except StoreError β) w') :
    Swept faults steady ref live names w (.ok y : Except StoreError γ) w' where
  cleans := h.cleans
  left _ _ := h.left x rfl
  settled _ _ := h.settled x rfl
  ready hs _ _ := h.ready hs x rfl
  completes _ _ _ _ _ := ⟨y, rfl⟩

theorem Swept.of_error {γ : Type} {e : StoreError}
    (h : Swept faults steady ref live names w (.error e : Except StoreError β) w') :
    Swept faults steady ref live names w (.error e : Except StoreError γ) w' where
  cleans := h.cleans
  left := nofun
  settled := nofun
  ready := nofun
  completes hs hf hnd hr hd := by
    obtain ⟨x, hx⟩ := h.completes hs hf hnd hr hd
    cases hx

/-- The loop over `generations/` removes the left-overs and every unreferenced
    generation that is not locked. -/
theorem collectGenerations_tidies (names : List Name) :
    Tidies faults steady ref live (Swept faults steady ref live names w)
      (Store.collectGenerations ref names) w := by
  induction names generalizing w with
  | nil =>
    refine ⟨.refl w, ?_, ?_, fun _ _ _ => ?_, fun _ _ _ _ _ => ⟨_, rfl⟩⟩
    · intro _ _ m _ h
      simpa using h
    · intro _ _ id _ h
      simpa using h
    · intro id _ hmem
      cases hmem
  | cons name names ih =>
    simp only [Store.collectGenerations]
    split_ifs with hname
    · have hable : Able ref name w := fun id _ he => absurd hname (he ▸ not_leftover_id id)
      refine answers_bind (removePathIfExists_tidies (d := [GENERATIONS_DIR])
        (.inr ⟨name, rfl, hname⟩) (by simp)) (fun _ w₁ h₁ => ?_) fun e w' h => ?_
      · have hp : Passed steady ref live name w w₁ := .of_removal hname h₁.1 (h₁.2.1 rfl)
        exact answers_bind ih (fun x w₂ h₂ => .of_eq _ (.cons hp (fun _ => hable) h₂))
          fun e w' h => .of_error (.cons hp (fun _ => hable) h)
      · refine .stopped h.1.cleans fun _ hf _ hd => ?_
        cases h.2.2 hf hd
    · split
      · next hnone =>
        have href : ∀ id : GenerationId, id.asStr = name → id ∈ ref := fun id he =>
          absurd he (tryFrom_eq_none hnone id)
        exact meets_post ih fun r w' h =>
          .cons (.skip hname href) (fun _ id hid he => absurd (href id he) hid) h
      · next id hsome =>
        obtain rfl := tryFrom_eq_some.1 hsome
        split_ifs with hmem
        · have href : ∀ id' : GenerationId, id'.asStr = id.asStr → id' ∈ ref := fun id' he =>
            ext_asStr he ▸ hmem
          exact meets_post ih fun r w' h =>
            .cons (.skip hname href) (fun _ id' hid he => absurd (href id' he) hid) h
        · refine answers_bind (collectGeneration_tidies hmem) (fun removed w₁ h₁ => ?_)
            fun e w' h => ?_
          · have hable : steady = true → Able ref id.asStr w := fun hs id' _ he =>
              ext_asStr he ▸ (h₁.2.2.2 hs).1 removed rfl
            have hp : Passed steady ref live id.asStr w w₁ := by
              cases removed with
              | true =>
                obtain ⟨hgone, htrash⟩ := h₁.2.1 rfl
                exact .of_collected h₁.1 (.inl hgone) fun _ => htrash
              | false =>
                obtain ⟨hsame, hpin, hlast⟩ := h₁.2.2.1 rfl
                refine .of_collected h₁.1 (.inr ⟨?_, hlast⟩) fun h => (hsame _).trans h
                rwa [hsame]
            exact answers_bind ih (fun x w₂ h₂ => .of_eq _ (.cons hp hable h₂))
              fun e w' h => .of_error (.cons hp hable h)
          · refine .stopped h.1.cleans fun hs hf hable _ => ?_
            obtain ⟨b, hb⟩ := (h.2.2.2 hs).2 hf (hable id hmem rfl)
            cases hb

end

end Lnx
