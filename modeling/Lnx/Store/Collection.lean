import Lnx.Store.Plain
import Lnx.Store.Sweep

/-!
# Collections one after another

`collector` runs `collect_garbage` on one store again and again; any call may
fail, any collection may die after any operation, and pins come and go.

Results: `collectGarbage_tidies`, `collect_garbage_exact`.
-/

namespace Lnx

open Calls Prog List World

variable {w w' w₀ : World} {id : GenerationId}

/-! ## What is referenced -/

/-- The generations that are referenced and the run that is live, if the record and
    the checkpoint references can be read. -/
def Store.roots (S : Store) (w : World) : Option (List GenerationId × Option RunId) :=
  match S.recordOf w, S.refsIn (w.look [CHECKPOINTS_DIR]) (w.look [GENERATIONS_DIR]) with
  | some record, .ok refs =>
    some (record.latest.toList ++ refs.map CheckpointRef.generation, record.phase.run)
  | _, _ => none

/-- `Garbage` of a store, by its own record and references. -/
def Store.Garbage (S : Store) (w : World) (locked : Name → Prop) (p : Path) : Prop :=
  ∃ ref live, S.roots w = some (ref, live) ∧ Lnx.Garbage ref live locked p

variable {p : Path} {faults steady : Bool}

section

variable {S : Store} {steady faults : Bool} {ref : List GenerationId} {live : Option RunId}

theorem Store.roots_eq_some : S.roots w = some (ref, live) ↔ ∃ record refs, S.recordOf w = some record ∧
      S.refsIn (w.look [CHECKPOINTS_DIR]) (w.look [GENERATIONS_DIR]) = .ok refs ∧
      ref = record.latest.toList ++ refs.map CheckpointRef.generation ∧ live = record.phase.run := by
  unfold Store.roots
  constructor
  · intro h
    split at h
    · next record refs hrec hrefs =>
      cases h
      exact ⟨record, refs, hrec, hrefs, rfl, rfl⟩
    · cases h
  · rintro ⟨record, refs, hrec, hrefs, rfl, rfl⟩
    rw [hrec, hrefs]

theorem Store.hasDir_iff :
    Store.hasDir (w.look [GENERATIONS_DIR]) id = true ↔ w.peek (generationDir id) = some none := by
  have hget : w.get (generationDir id) = (w.get [GENERATIONS_DIR]).bind fun d => d.get [id.asStr] :=
    get_append (p := [GENERATIONS_DIR]) (by simp) [id.asStr]
  cases hl : w.look [GENERATIONS_DIR] with
  | error e =>
    rw [peek, hget, get_of_look_error hl]
    simp [Store.hasDir, Except.bind]
  | ok d =>
    rw [peek, hget, look_eq_ok.1 hl, Option.bind_some]
    simp only [Store.hasDir, Except.bind]
    cases hr : resolve d [id.asStr] with
    | ok t =>
      rw [resolve_eq_ok.1 hr]
      cases t <;> simp
    | error e =>
      have hnone : d.get [id.asStr] = none := by
        cases hg : d.get [id.asStr] with
        | none => rfl
        | some t => rw [resolve_eq_ok.2 hg] at hr; cases hr
      rw [hnone]
      simp

variable {isDir : GenerationId → Bool} {es : List (Name × Dir)} {refs : List CheckpointRef}
  {guar : World → World → Prop} {locked : Name → Prop}

/-- Which other generations have a directory does not matter. -/
theorem Store.readRefs_congr {isDir' : GenerationId → Bool} (h : S.readRefs isDir es = .ok refs)
    (hkeep : ∀ c ∈ refs, isDir' c.generation = true) (hno : ∀ g, isDir' g = true → isDir g = true) :
    S.readRefs isDir' es = .ok refs := by
  induction es generalizing refs with
  | nil => exact h
  | cons e es ih =>
    simp only [Store.readRefs] at h ⊢
    split_ifs at h ⊢ with hext
    · split at h
      · cases h
      · exact ih h hkeep
      · next c hc =>
        split at h
        · cases h
        · next rest hrest =>
          split_ifs at h with hdir
          · cases h
            have hrest' := ih hrest fun c hc => hkeep c (mem_cons_of_mem _ hc)
            rw [hrest']
            simp [hkeep c (by simp)]
          · cases h
            have hdir' : ¬ isDir' c.generation = true := fun h => hdir (hno _ h)
            rw [ih hrest hkeep]
            simp [hdir']
    · exact ih h hkeep

theorem Store.isDir_of_readRefs (h : S.readRefs isDir es = .ok refs) :
    ∀ c ∈ refs, isDir c.generation = true := by
  induction es generalizing refs with
  | nil =>
    cases h
    simp
  | cons e es ih =>
    simp only [Store.readRefs] at h
    split_ifs at h with hext
    · split at h
      · cases h
      · exact ih h
      · next c hc =>
        split at h
        · cases h
        · next rest hrest =>
          split_ifs at h with hdir
          · cases h
            exact forall_mem_cons.2 ⟨hdir, ih hrest⟩
          · cases h
            exact ih hrest
    · exact ih h

theorem Store.stateFile_of_recordOf {record : Record} (h : S.recordOf w = some record) :
    ∃ b, w.get [STATE_FILE] = some (.leaf (.file b)) := by
  obtain ⟨t, ht, hread⟩ := Store.readRecord_of_recordOf h
  obtain ⟨b, hb, -⟩ := Store.readRecord_eq_some.1 hread
  cases hb
  exact ⟨b, ht⟩

/-- With a record there, what stands at a name at the top decides what reading it
    finds. -/
theorem World.look_top_congr {n : Name} (hn : n ≠ RUNS_DIR)
    (hw : w.peek [] = some none) (hw' : w'.peek [] = some none) (h : w'.get [n] = w.get [n]) :
    w'.look [n] = w.look [n] := by
  have hmiss : ∀ {v : World}, v.peek [] = some none → v.get [n] = none →
      v.look [n] = .error .notFound := by
    intro v hv hnone
    cases ht : v.top with
    | leaf a => simp [peek, World.get, ht] at hv
    | node l =>
      simp only [World.get, hn, ite_false, ht, Tree.get_node_cons] at hnone
      simp only [look, hn, ite_false, ht, resolve]
      cases ha : Assoc.get n l with
      | none => rfl
      | some c => simp [ha] at hnone
  cases hg : w.get [n] with
  | some t => rw [look_eq_ok.2 hg, look_eq_ok.2 (h.trans hg)]
  | none => rw [hmiss hw hg, hmiss hw' (h.trans hg)]

/-- A collection changes neither the record nor what it and the checkpoint
    references name. -/
theorem Cleans.roots (h : Cleans steady ref live w w')
    (hr : S.roots w = some (ref, live)) : S.roots w' = some (ref, live) := by
  obtain ⟨record, refs, hrec, hrefs, rfl, hlive⟩ := Store.roots_eq_some.1 hr
  obtain ⟨b, hleaf⟩ := Store.stateFile_of_recordOf hrec
  refine Store.roots_eq_some.2 ⟨record, refs, Store.recordOf_congr ?_ hrec, ?_, rfl, hlive⟩
  · have hpeek := h.frame [STATE_FILE] fun h => h
    rw [peek_eq_leaf.2 hleaf] at hpeek
    rw [hleaf, peek_eq_leaf.1 hpeek]
  · have htop : w.peek [] = some none := by
      have hleaf' : w.top.get [STATE_FILE] = some (.leaf (.file b)) := hleaf
      cases hw : w.top with
      | leaf a => rw [hw] at hleaf'; cases hleaf'
      | node es => simp [World.peek, World.get, hw]
    have htop' : w'.peek [] = some none := (h.frame [] fun h => h).trans htop
    rw [look_top_congr (by decide) htop htop' h.checkpoints]
    unfold Store.refsIn at hrefs ⊢
    split at hrefs
    · exact hrefs
    · cases hrefs
    · cases hrefs
    · split at hrefs
      · cases hrefs
      · next rs hrs =>
        cases hrefs
        rw [Store.readRefs_congr hrs (fun c hc => ?_) fun g hg => ?_]
        · have hdir := Store.isDir_of_readRefs hrs c hc
          rw [Store.hasDir_iff] at hdir ⊢
          have hmem : c.generation ∈ record.latest.toList ++
              (rs.insertionSort fun a b => a.createdUnix < b.createdUnix ∨
                a.createdUnix = b.createdUnix ∧ a.id ≤ b.id).map CheckpointRef.generation := by
            simp only [mem_append, mem_map, mem_insertionSort]
            exact .inr ⟨c, hc, rfl⟩
          have hsame := h.referenced hmem []
          exact hsame.trans hdir
        · rw [Store.hasDir_iff] at hg ⊢
          have hin := h.dir_in_place (g := g) (by rw [hg]; simp)
          exact hin.symm.trans hg

/-! ## A whole collection -/

/-- Nothing is left to collect: what is neither referenced nor live is gone, but for
    generations whose pin was found locked. -/
structure Tidy (ref : List GenerationId) (live : Option RunId) (w : World) : Prop where
  runs : ∀ n, live.map RunId.asStr ≠ some n → w.peek [RUNS_DIR, n] = none
  left : ∀ m, Leftover m → w.peek [GENERATIONS_DIR, m] = none
  settled : ∀ id, id ∉ ref → Settled id w

theorem Tidy.pins (h : Tidy ref live w) (hp : Pins steady w w') : Tidy ref live w' where
  runs n hn := (hp.peek _).trans (h.runs n hn)
  left m hm := (hp.peek _).trans (h.left m hm)
  settled id hid := by
    have hs := h.settled id hid
    rwa [Settled, hp.peek, hp.peek, hp.examined]

theorem Ready.congr {names : List Name}
    (hpeek : ∀ q, q.head? ≠ some RUNS_DIR → w'.peek q = w.peek q) (hheld : w'.held = w.held) :
    Ready ref names w' ↔ Ready ref names w := by
  have hr : some GENERATIONS_DIR ≠ some RUNS_DIR := by decide
  have hg : ∀ (id : GenerationId) q, w'.peek (generationDir id ++ q) = w.peek (generationDir id ++ q) :=
    fun id q => hpeek _ hr
  have hg₀ : ∀ id : GenerationId, w'.peek (generationDir id) = w.peek (generationDir id) :=
    fun id => hpeek _ hr
  have ht : ∀ (id : GenerationId) q, w'.peek (trashDir id ++ q) = w.peek (trashDir id ++ q) :=
    fun id q => hpeek _ hr
  have ht₀ : ∀ id : GenerationId, w'.peek (trashDir id) = w.peek (trashDir id) :=
    fun id => hpeek _ hr
  simp only [Ready, Locked, Clear, hg, hg₀, ht, ht₀, hheld]

/-- Later collections are ready where the first one was. -/
theorem Ready.cleans (hs : steady = true) (h : Cleans steady ref live w w')
    (hr : Ready ref w.listed w) : Ready ref w'.listed w' := by
  intro id hid hmem
  have hin : w'.peek (generationDir id) ≠ none := mem_listed.1 hmem
  have hsame := h.dir_in_place hin
  obtain ⟨hdir, hc⟩ := hr id hid (mem_listed.2 (hsame ▸ hin))
  have hwhole : ∀ q, w'.peek (generationDir id ++ q) = w.peek (generationDir id ++ q) := by
    rcases h.gens id hid with hw | ⟨hgone, -⟩
    · exact hw
    · exact absurd (by simpa using hgone []) hin
  have hshrinks : ∀ q l, w'.peek (trashDir id ++ q) = some l → w.peek (trashDir id ++ q) = some l := by
    intro q l hl
    refine h.shrinks _ l (fun id' _ hp => ?_) hl
    rw [eq_of_trash_below hp]
    exact hin
  have hnone : ∀ q, w.peek (trashDir id ++ q) = none → w'.peek (trashDir id ++ q) = none := by
    intro q hq
    cases hw : w'.peek (trashDir id ++ q) with
    | none => rfl
    | some l => exact absurd ((hshrinks q l hw).symm.trans hq) (by simp)
  refine ⟨hsame.trans hdir, ?_⟩
  by_cases ht : w'.peek (trashDir id) = none
  · exact .inr (.inl (.inl ht))
  rcases hc with hc | hc | hc
  · refine .inl ⟨?_, ?_⟩
    · rw [hwhole]
      exact hc.1
    · rw [h.held hs]
      exact hc.2
  · refine .inr (.inl ?_)
    rcases hc with hc | ⟨hc, hempty⟩
    · exact absurd (by simpa using hnone [] (by simpa using hc)) ht
    · obtain ⟨l, hl⟩ := Option.ne_none_iff_exists'.1 ht
      have hl' := hshrinks [] l (by simpa using hl)
      rw [append_nil, hc] at hl'
      cases hl'
      exact .inr ⟨hl, fun n => hnone [n] (hempty n)⟩
  · exact .inr (.inr (h.order id hid hin ht hc))

theorem World.nodup_listed (h : w.top.Distinct) : w.listed.Nodup := by
  unfold listed Store.listing
  split
  · next es hl =>
    have hget : w.top.get [GENERATIONS_DIR] = some (.node es) := look_eq_ok.1 hl
    cases h.get hget with
    | node hn _ => exact hn
  · exact nodup_nil

/-- Reading the record, with nothing but pins changing meanwhile. -/
theorem record_meets (hguar : ∀ w, guar w w) :
    Prog.Answers (FsSem faults) (Pins steady) guar (fun r w' => Pins steady w w' ∧
      r = S.readRecord (w.look [STATE_FILE])) S.record w := by
  rintro w₁ hg found w₂ ⟨rfl, rfl⟩
  refine ⟨hguar _, hg, ?_⟩
  rw [hg.look]

theorem requireRecord_meets (hguar : ∀ w, guar w w) :
    Prog.Answers (FsSem faults) (Pins steady) guar (fun r w' => Pins steady w w' ∧
      (∀ record, r = .ok record → S.recordOf w = some record) ∧
      (∀ e, r = .error e → S.recordOf w = none)) S.requireRecord w := by
  refine answers_bind (record_meets hguar) (fun found w₁ h₁ => ?_) fun e w' h => ?_
  · obtain ⟨hg, hfound⟩ := h₁
    split
    · next record =>
      refine ⟨hg, fun record' h => ?_, (by simp)⟩
      cases h
      rw [Store.recordOf, ← hfound]
    · refine ⟨hg, (by simp), fun _ _ => ?_⟩
      rw [Store.recordOf, ← hfound]
  · refine ⟨h.1, (by simp), fun _ _ => ?_⟩
    rw [Store.recordOf, ← h.2]

theorem checkpoints_meets (hguar : ∀ w, guar w w) :
    Prog.Answers (FsSem faults) (Pins steady) guar (fun r w' => Pins steady w w' ∧
      r = S.refsIn (w.look [CHECKPOINTS_DIR]) (w.look [GENERATIONS_DIR])) S.checkpoints w := by
  rintro w₁ hg found w₂ ⟨rfl, rfl⟩
  refine ⟨hguar _, ?_⟩
  rintro w₃ hg' gens w₄ ⟨rfl, rfl⟩
  refine ⟨hguar _, pins_trans hg hg', ?_⟩
  rw [hg.look, hg'.look, hg.look]

/-- A collection of a store whose roots cannot be read fails and does nothing. -/
theorem collectGarbage_refuses (hr : S.roots w = none) : Prog.Answers (FsSem faults) (Pins steady) Eq
      (fun r w' => Pins steady w w' ∧ ∀ c, r ≠ .ok c) S.collectGarbage w := by
  refine answers_bind (requireRecord_meets fun _ => rfl) (fun record w₁ h₁ => ?_)
    fun e w' h => ⟨h.1, nofun⟩
  obtain ⟨hg₁, hrec, -⟩ := h₁
  refine answers_bind (checkpoints_meets fun _ => rfl) (fun refs w₂ h₂ => ?_)
    fun e w' h => ⟨pins_trans hg₁ h.1, nofun⟩
  have hrefs : S.refsIn (w.look [CHECKPOINTS_DIR]) (w.look [GENERATIONS_DIR]) = .ok refs := by
    rw [← hg₁.look, ← hg₁.look]
    exact h₂.2.symm
  rw [Store.roots, hrec record rfl, hrefs] at hr
  cases hr

/-- What `collect_garbage` does to a store whose roots can be read. -/
theorem collectGarbage_tidies (hr : S.roots w = some (ref, live)) :
    Tidies faults steady ref live (fun r w' => Cleans steady ref live w w' ∧
      (∀ c, r = .ok c → Tidy ref live w') ∧
      (steady = true → (∀ c, r = .ok c → Ready ref w.listed w) ∧
        (faults = false → w.top.Distinct → Ready ref w.listed w → ∃ c, r = .ok c)))
      S.collectGarbage w := by
  obtain ⟨record, refs, hrec, hrefs, rfl, rfl⟩ := Store.roots_eq_some.1 hr
  refine answers_bind (requireRecord_meets Cleans.refl) (fun record' w₁ h₁ => ?_)
    fun e w' h => ?_
  swap
  · rw [h.2.2 e rfl] at hrec
    cases hrec
  obtain ⟨hg₁, hrec', -⟩ := h₁
  obtain rfl : record' = record := Option.some.inj ((hrec' record' rfl).symm.trans hrec)
  refine answers_bind (checkpoints_meets Cleans.refl) (fun refs' w₂ h₂ => ?_) fun e w' h => ?_
  swap
  · have herr := h.2
    rw [hg₁.look, hg₁.look, hrefs] at herr
    cases herr
  obtain ⟨hg₂, hrefs'⟩ := h₂
  obtain rfl : refs' = refs := by
    rw [hg₁.look, hg₁.look, hrefs] at hrefs'
    exact Except.ok.inj hrefs'
  generalize href : record'.latest.toList ++ refs'.map CheckpointRef.generation = ref
  generalize hlive : record'.phase.run = live
  -- the loop over `runs/`
  refine answers_bind (Q := fun r w' => Pins steady w w' ∧ r = .ok (w'.look [RUNS_DIR]))
    (tidies_look fun w₃ hg₃ => ⟨pins_trans (pins_trans hg₁ hg₂) hg₃, rfl⟩) (fun runs w₃ h₃ => ?_)
    fun e w' h => by cases h.2
  obtain ⟨hg, ⟨⟩⟩ := h₃
  have hdir : Store.listing (w₃.look [RUNS_DIR]) ≠ [] → w₃.peek [RUNS_DIR] = some none := by
    intro hne
    obtain ⟨n, hn⟩ := exists_mem_of_ne_nil _ hne
    exact peek_parent (by simp) ((mem_listing_iff (by simp)).1 hn)
  refine answers_bind collectRuns_tidies (fun ns w₄ h₄ => ?_) fun e w' h => ?_
  swap
  · refine ⟨(Cleans.of_pins hg).trans h.1.cleans, nofun, fun _ => ⟨nofun, fun hf _ _ => ?_⟩⟩
    obtain ⟨ns, hns⟩ := h.2.2 hf hdir
    cases hns
  obtain ⟨hin, hgone, -⟩ := h₄
  have hruns : ∀ n, live.map RunId.asStr ≠ some n → w₄.peek [RUNS_DIR, n] = none := by
    intro n hn
    refine hgone ns rfl n hn ?_
    by_cases hmem : n ∈ Store.listing (w₃.look [RUNS_DIR])
    · exact .inl hmem
    · refine .inr ?_
      by_contra h
      exact hmem ((mem_listing_iff (p := [RUNS_DIR]) (by simp)).2 h)
  -- the loop over `generations/`
  refine answers_bind (Q := fun r w' => Pins steady w₄ w' ∧ r = .ok (w'.look [GENERATIONS_DIR]))
    (tidies_look fun w₅ hg₅ => ⟨hg₅, rfl⟩) (fun gens w₅ h₅ => ?_) fun e w' h => by cases h.2
  obtain ⟨hg₅, ⟨⟩⟩ := h₅
  have hcleans : Cleans steady ref live w w₅ :=
    ((Cleans.of_pins hg).trans hin.cleans).trans (.of_pins hg₅)
  have hlisted : w₅.listed = w.listed := by
    have h₃ : w₃.listed = w.listed := listing_look (hg.get _)
    have h₅ : w₅.listed = w₄.listed := listing_look (hg₅.get _)
    rw [h₅, hin.listed, h₃]
  have hready : steady = true → (Ready ref w₅.listed w₅ ↔ Ready ref w.listed w) := by
    intro hs
    rw [hlisted]
    refine Ready.congr (fun q hq => ?_) (hcleans.held hs)
    rw [hg₅.peek, hin.aside q hq, hg.peek]
  have hgens : w₅.listed ≠ [] → w₅.peek [GENERATIONS_DIR] = some none := by
    intro hne
    obtain ⟨n, hn⟩ := exists_mem_of_ne_nil _ hne
    exact peek_parent (p := [GENERATIONS_DIR]) (by simp) (mem_listed.1 hn)
  refine answers_bind (collectGenerations_tidies w₅.listed) (fun x w₆ h₆ => ?_)
    fun e w' h => ?_
  · refine ⟨hcleans.trans h₆.cleans, fun _ _ => ⟨fun n hn => ?_, fun m hm => ?_, fun id hid => ?_⟩,
      fun hs => ⟨fun _ _ => (hready hs).1 (h₆.ready hs x rfl), fun _ _ _ => ⟨_, rfl⟩⟩⟩
    · by_contra h
      obtain ⟨l, hl⟩ := Option.ne_none_iff_exists'.1 h
      have hl' := h₆.cleans.shrinks _ l (fun id _ hp => ?_) hl
      · rw [hg₅.peek, hruns n hn] at hl'
        cases hl'
      · simp [trashDir, GENERATIONS_DIR, RUNS_DIR] at hp
    · refine h₆.left x rfl m hm ?_
      rw [mem_listed]
      exact (Classical.em _).symm
    · refine h₆.settled x rfl id hid ?_
      by_cases hmem : id.asStr ∈ w₅.listed
      · exact .inl hmem
      · refine .inr (.inl ?_)
        by_contra h
        exact hmem (mem_listed.2 h)
  · refine ⟨hcleans.trans h.cleans, nofun, fun hs => ⟨nofun, fun hf hd hr => ?_⟩⟩
    have hnd : w₅.listed.Nodup := by
      rw [hlisted]
      exact nodup_listed hd
    obtain ⟨x, hx⟩ := h.completes hs hf hnd ((hready hs).2 hr) hgens
    cases hx

/-! ## Collections one after another -/

/-- Collections of the store `w₀`: any call may fail, a collection may be cut short
    after any operation and followed by others, and unless pins are steady they
    are taken and dropped all the time. -/
def collector (S : Store) (steady : Bool) (w₀ : World) :
    Calls FsOp World Unit (Except StoreError Collected) where
  init w := w = w₀
  enabled _ _ := True
  prog _ := S.collectGarbage
  sem := FsSem true
  env _ := Pins steady
  crash w w' := w' = w

theorem collector_keeps (hr : S.roots w₀ = some (ref, live)) :
    (collector S steady w₀).Keeps (Cleans steady ref live w₀) (fun _ => True)
      (fun _ => Cleans steady ref live) (fun _ r w => ∀ c, r = .ok c → Tidy ref live w) where
  init w h := by
    cases h
    exact ⟨.refl w₀, trivial⟩
  call w _ hi _ _ := meets_post (collectGarbage_tidies (hi.roots hr)) fun _ _ h => h.2.1
  guar _ _ _ hi hg := hi.trans hg
  env _ _ _ hi he := hi.trans (.of_pins he)
  envPost _ _ _ _ he hp c hc := (hp c hc).pins he
  envRest _ _ _ _ := trivial
  envTrans _ _ _ _ := pins_trans
  envRefl _ w := pins_refl steady w
  ret _ _ _ _ := trivial
  crash w w' hi hc := by
    cases hc
    exact ⟨hi, trivial⟩

theorem Store.roots_pins (h : Pins steady w w') : S.roots w' = S.roots w := by
  simp only [Store.roots, Store.recordOf, h.look]

theorem collector_keeps_refused (hr : S.roots w₀ = none) :
    (collector S steady w₀).Keeps (Pins steady w₀) (fun _ => True) (fun _ => Eq)
      (fun _ r _ => ∀ c, r ≠ .ok c) where
  init w h := by
    cases h
    exact ⟨pins_refl steady w₀, trivial⟩
  call w _ hi _ _ := meets_post
    (collectGarbage_refuses ((Store.roots_pins hi).trans hr)) fun _ _ h => h.2
  guar _ _ _ hi hg := hg ▸ hi
  env _ _ _ hi he := pins_trans hi he
  envPost _ _ _ _ _ hp := hp
  envRest _ _ _ _ := trivial
  envTrans _ _ _ _ := pins_trans
  envRefl _ w := pins_refl steady w
  ret _ _ _ _ := trivial
  crash w w' hi hc := by
    cases hc
    exact ⟨hi, trivial⟩

/-- A path is below a run, a left-over or a generation nobody references. -/
theorem garbage_cases (h : Garbage ref live locked p) :
    (∃ n q, p = [RUNS_DIR, n] ++ q ∧ live.map RunId.asStr ≠ some n) ∨
    (∃ m q, p = [GENERATIONS_DIR, m] ++ q ∧ Leftover m) ∨
    ∃ id q, p = generationDir id ++ q ∧ id ∉ ref ∧ ¬ locked id.asStr := by
  match p, h with
  | n :: m :: q, .inl ⟨hn, hm⟩ => exact .inl ⟨m, q, by rw [hn]; rfl, hm⟩
  | n :: m :: q, .inr ⟨hn, .inl hm⟩ => exact .inr (.inl ⟨m, q, by rw [hn]; rfl, hm⟩)
  | n :: m :: q, .inr ⟨hn, .inr ⟨id, hid, he, hl⟩⟩ =>
    exact .inr (.inr ⟨id, q, by rw [hn, ← he]; rfl, hid, he ▸ hl⟩)

theorem garbage_generation (hid : id ∉ ref) (hl : ¬ locked id.asStr) (q : Path) :
    Garbage ref live locked (generationDir id ++ q) :=
  .inr ⟨rfl, .inr ⟨id, hid, rfl, hl⟩⟩

/-- Only garbage has changed, and no generation last found locked. -/
theorem Cleans.changed (h : Cleans steady ref live w₀ w) (hp : w.peek p ≠ w₀.peek p) :
    Garbage ref live (fun n =>
      w₀.peek [GENERATIONS_DIR, n, PIN] ≠ none ∧ Assoc.get n w.examined ≠ some false) p := by
  have hg : Garbage ref live (fun _ => False) p := by
    by_contra hg
    exact hp (h.frame p hg)
  rcases garbage_cases hg with ⟨n, q, rfl, hn⟩ | ⟨m, q, rfl, hm⟩ | ⟨id, q, rfl, hid, -⟩
  · exact .inl ⟨rfl, hn⟩
  · exact .inr ⟨rfl, .inl hm⟩
  · refine garbage_generation hid (fun hl => ?_) q
    rcases h.gens id hid with hsame | ⟨-, hlast⟩
    · exact hp (hsame q)
    · exact hlast.elim hl.1 hl.2

/-- A generation last found locked is still there. -/
theorem Cleans.kept (h : Cleans steady ref live w₀ w) (hex : w₀.examined = [])
    (hid : id ∉ ref) (hlast : Assoc.get id.asStr w.examined = some true)
    (q : Path) : w.peek (generationDir id ++ q) = w₀.peek (generationDir id ++ q) := by
  rcases h.gens id hid with hsame | ⟨-, hpin | hfree⟩
  · exact hsame q
  · rcases h.examined id with he | hp
    · rw [he, hex] at hlast
      cases hlast
    · exact absurd hpin hp
  · rw [hfree] at hlast
    cases hlast

/-- After a collection that returned `Ok`, exactly the garbage is gone. -/
theorem Tidy.exact (ht : Tidy ref live w) (h : Cleans steady ref live w₀ w)
    (hex : w₀.examined = []) (p : Path) :
    (Garbage ref live (fun n => Assoc.get n w.examined = some true) p → w.peek p = none) ∧
      (¬ Garbage ref live (fun n => Assoc.get n w.examined = some true) p →
        w.peek p = w₀.peek p) := by
  constructor
  · intro hg
    rcases garbage_cases hg with ⟨n, q, rfl, hn⟩ | ⟨m, q, rfl, hm⟩ | ⟨id, q, rfl, hid, hl⟩
    · exact peek_below_none (by simp) (ht.runs n hn)
    · exact peek_below_none (by simp) (ht.left m hm)
    · refine peek_below_none (generationDir_ne_nil id) ?_
      exact (ht.settled id hid).resolve_right fun h => hl h.2
  · intro hg
    by_contra hp
    rcases garbage_cases (h.changed hp) with ⟨n, q, rfl, hn⟩ | ⟨m, q, rfl, hm⟩ | ⟨id, q, rfl, hid, -⟩
    · exact hg (.inl ⟨rfl, hn⟩)
    · exact hg (.inr ⟨rfl, .inl hm⟩)
    · by_cases hlast : Assoc.get id.asStr w.examined = some true
      · exact hp (h.kept hex hid hlast q)
      · exact hg (garbage_generation hid hlast q)

/-- With steady pins, what is found locked is what was locked from the start. -/
theorem Tidy.locked_iff (ht : Tidy ref live w) (h : Cleans true ref live w₀ w)
    (hex : w₀.examined = []) (hid : id ∉ ref) : w.peek (generationDir id) ≠ none ↔ Locked id w₀ := by
  have hfound : ∀ b, Assoc.get id.asStr w.examined = some b → b = w₀.held id.asStr := by
    intro b hb
    rcases h.found rfl _ (Assoc.mem_of_get hb) with he | he
    · rw [hex] at he
      cases he
    · exact he
  constructor
  · intro hin
    obtain ⟨hpin, hlast⟩ := (ht.settled id hid).resolve_left hin
    exact ⟨h.was_in_place hpin, (hfound true hlast).symm⟩
  · rintro ⟨hpin, hheld⟩ hgone
    rcases h.gens id hid with hsame | ⟨-, hno | hfree⟩
    · exact hpin ((hsame _).symm.trans (peek_below_none (generationDir_ne_nil id) hgone))
    · exact hpin hno
    · rw [← hfound false hfree] at hheld
      cases hheld

/-- With steady pins, all collections that return `Ok` leave the same. -/
theorem Tidy.unique {w₁ w₂ : World} (ht₁ : Tidy ref live w₁) (h₁ : Cleans true ref live w₀ w₁)
    (ht₂ : Tidy ref live w₂) (h₂ : Cleans true ref live w₀ w₂) (hex : w₀.examined = []) (p : Path) :
    w₂.peek p = w₁.peek p := by
  by_cases hg : Garbage ref live (fun _ => False) p
  · rcases garbage_cases hg with ⟨n, q, rfl, hn⟩ | ⟨m, q, rfl, hm⟩ | ⟨id, q, rfl, hid, -⟩
    · rw [peek_below_none (by simp) (ht₁.runs n hn), peek_below_none (by simp) (ht₂.runs n hn)]
    · rw [peek_below_none (by simp) (ht₁.left m hm), peek_below_none (by simp) (ht₂.left m hm)]
    · by_cases hl : Locked id w₀
      · have hkept : ∀ {w}, Tidy ref live w → Cleans true ref live w₀ w →
            w.peek (generationDir id ++ q) = w₀.peek (generationDir id ++ q) := fun {w} ht h =>
          h.kept hex hid ((ht.settled id hid).resolve_left ((ht.locked_iff h hex hid).2 hl)).2 q
        rw [hkept ht₁ h₁, hkept ht₂ h₂]
      · have hgone : ∀ {w}, Tidy ref live w → Cleans true ref live w₀ w →
            w.peek (generationDir id ++ q) = none := by
          intro w ht h
          refine peek_below_none (generationDir_ne_nil id) ?_
          by_contra hin
          exact hl ((ht.locked_iff h hex hid).1 hin)
        rw [hgone ht₁ h₁, hgone ht₂ h₂]
  · rw [h₁.frame p hg, h₂.frame p hg]

end

open World

/-- Garbage collection is exact and can be interrupted. Whatever the store holds when
    the first collection starts, and whatever fails or dies on the way:

    * only garbage changes, and of the generations only those without a pin or with
      a pin last found unlocked;
    * when a collection returns `Ok`, the garbage is gone, everything else is as it
      was, and the generations spared are those whose pin was last found locked;
    * where a collection that nothing interrupts returns `Ok`, so does one after any
      number of interrupted ones, and it leaves the same. -/
theorem collect_garbage_exact (S : Store) {w₀ : World} (hd : w₀.top.Distinct ∧ w₀.runs.Distinct)
    (hex : w₀.examined = []) :
    (∀ x, (collector S false w₀).Reachable x → ∀ p, x.state.peek p ≠ w₀.peek p →
      S.Garbage w₀ (fun n => w₀.peek [GENERATIONS_DIR, n, PIN] ≠ none ∧
        Assoc.get n x.state.examined ≠ some false) p) ∧
    (∀ w c, (collector S false w₀).Reachable ⟨w, some ((), .ret (.ok c))⟩ →
      (S.roots w₀).isSome ∧ ∀ p,
        (S.Garbage w₀ (fun n => Assoc.get n w.examined = some true) p → w.peek p = none) ∧
        (¬ S.Garbage w₀ (fun n => Assoc.get n w.examined = some true) p → w.peek p = w₀.peek p)) ∧
    ∀ c w₁, Prog.Runs (FsSem false) S.collectGarbage w₀ (.ok c) w₁ →
      ∀ w, (collector S true w₀).Reachable ⟨w, none⟩ →
        (∃ r w', Prog.Runs (FsSem false) S.collectGarbage w r w') ∧
        ∀ r w', Prog.Runs (FsSem false) S.collectGarbage w r w' →
          (∃ c', r = .ok c') ∧ ∀ p, w'.peek p = w₁.peek p := by
  cases hr : S.roots w₀ with
  | none =>
    refine ⟨fun x hx p hp => ?_, fun w c hx => ?_, fun c w₁ hrun => ?_⟩
    · have hpins := (reachable_inv (collector_keeps_refused hr) hx).1
      exact absurd (hpins.peek p) hp
    · exact absurd rfl (reachable_post (collector_keeps_refused hr) hx c)
    · have hpost := meets_runs (pins_refl true) (collectGarbage_refuses hr) hrun
      exact absurd rfl (hpost.2 c)
  | some roots =>
    obtain ⟨ref, live⟩ := roots
    have hgarbage : ∀ {locked : Name → Prop} {p : Path},
        S.Garbage w₀ locked p ↔ Garbage ref live locked p := by
      intro locked p
      constructor
      · rintro ⟨ref', live', hr', h⟩
        cases hr.symm.trans hr'
        exact h
      · exact fun h => ⟨ref, live, hr, h⟩
    refine ⟨fun x hx p hp => ?_, fun w c hx => ⟨rfl, fun p => ?_⟩, fun c w₁ hrun w hx => ?_⟩
    · have hcleans := (reachable_inv (collector_keeps hr) hx).1
      exact hgarbage.2 (hcleans.changed hp)
    · have hcleans := (reachable_inv (collector_keeps hr) hx).1
      have htidy := reachable_post (collector_keeps hr) hx c rfl
      rw [hgarbage]
      exact htidy.exact hcleans hex p
    · obtain ⟨hcleans₁, htidy₁, hready⟩ :=
        meets_runs (pins_refl true) (collectGarbage_tidies hr) hrun
      have hcleans := (reachable_inv (collector_keeps hr) hx).1
      refine ⟨⟨_, _, runs_exec false _ w⟩, fun r w' hrun' => ?_⟩
      obtain ⟨hcleans', htidy', hdone⟩ :=
        meets_runs (pins_refl true) (collectGarbage_tidies (hcleans.roots hr)) hrun'
      obtain ⟨c', rfl⟩ := (hdone rfl).2 rfl (hcleans.distinct hd).1
        (((hready rfl).1 c rfl).cleans rfl hcleans)
      exact ⟨⟨c', rfl⟩, (htidy₁ c rfl).unique hcleans₁ (htidy' c' rfl) (hcleans.trans hcleans') hex⟩

/-- A stopped instance with no generation of its own, and these entries in
    `generations/` and `runs/`. -/
def strayWorld (gens runs : List (Name × Dir)) : World :=
  ⟨.node [(STATE_FILE, .leaf (.file (plainStore.recordJson.toVecPretty
      ⟨RECORD_VERSION, none, .stopped⟩ ++ [10]))), (GENERATIONS_DIR, .node gens)],
    .node runs, fun _ => false, false, ⟨fun _ => true, fun _ => []⟩, [], [], []⟩

/-- A generation, a staging directory and a run nobody needs. -/
def litteredWorld : World :=
  strayWorld [("g1", .node [(PIN, .leaf (.file []))]), (".staging-g2", .node [])] [("r1", .node [])]

theorem litteredWorld_distinct : litteredWorld.top.Distinct ∧ litteredWorld.runs.Distinct := by
  constructor
  · refine .node (by decide) (forall_mem_cons.2 ⟨.leaf _, forall_mem_singleton.2 ?_⟩)
    refine .node (by decide) (forall_mem_cons.2 ⟨?_, forall_mem_singleton.2 ?_⟩)
    · exact .node (by decide) (forall_mem_singleton.2 (.leaf _))
    · exact .node (by decide) (by simp)
  · exact .node (by decide) (forall_mem_singleton.2 (.node (by decide) (by simp)))

theorem collect_garbage_exact_littered :
    ∃ c w₁, Prog.Runs (FsSem false) plainStore.collectGarbage litteredWorld (.ok c) w₁ ∧
      (∀ n ∈ ["g1", ".staging-g2"], w₁.peek [GENERATIONS_DIR, n] = none) ∧
      ∀ w, (collector plainStore true litteredWorld).Reachable ⟨w, none⟩ →
        ∀ r w', Prog.Runs (FsSem false) plainStore.collectGarbage w r w' →
          (∃ c', r = .ok c') ∧ ∀ p, w'.peek p = w₁.peek p := by
  have hrun := runs_exec false plainStore.collectGarbage litteredWorld
  have hok : (plainStore.collectGarbage.execFs litteredWorld).1.toOption.isSome = true := by
    decide +kernel
  have hgone : ∀ n ∈ ["g1", ".staging-g2"],
      (plainStore.collectGarbage.execFs litteredWorld).2.peek [GENERATIONS_DIR, n] = none := by
    decide +kernel
  generalize plainStore.collectGarbage.execFs litteredWorld = x at hrun hok hgone
  obtain ⟨r, w₁⟩ := x
  cases r with
  | error e => cases hok
  | ok c =>
    refine ⟨c, w₁, hrun, hgone, fun w hw => ?_⟩
    exact ((collect_garbage_exact plainStore litteredWorld_distinct rfl).2.2 c w₁ hrun w hw).2

/-- A generation nobody needs, listed before a trash directory of the same name
    that is not empty. -/
def stuckWorld : World :=
  strayWorld [("g1", .node []), (".trash-g1", .node [("pages.img", .leaf (.file []))])] []

theorem stuck_rename {r : Except IoError Unit} (hid : id.asStr = "g1") (ht : w.top = stuckWorld.top)
    (h : EditSem faults (.rename (generationDir id) (trashDir id)) w r w') :
    w' = w ∧ r ≠ .ok () := by
  have hsrc : w.look (generationDir id) = .ok (.node []) := by
    rw [generationDir, hid]
    simp only [look, GENERATIONS_DIR, RUNS_DIR, ht]
    rfl
  have hdst : w.look (trashDir id) = .ok (.node [("pages.img", .leaf (.file []))]) := by
    rw [trashDir, hid]
    simp only [look, GENERATIONS_DIR, RUNS_DIR, ht]
    rfl
  cases h with
  | refused h | fault h => exact ⟨rfl, (by simp)⟩
  | done h => simp [Edit.apply, hsrc, hdst] at h

theorem look_meets :
    Prog.Answers (FsSem faults) (Pins steady) Eq (fun r w' => Pins steady w w' ∧ r = .ok (w.look p))
      (perform (.look p)) w := by
  rintro w₁ hg found w₂ ⟨rfl, rfl⟩
  refine ⟨rfl, hg, ?_⟩
  rw [hg.look]

/-- The loop stops at the generation. -/
theorem collectGeneration_stuck (hid : id.asStr = "g1") (ht : w.top = stuckWorld.top) :
    Prog.Answers (FsSem faults) (Pins steady) Eq (fun r _ => ∀ b, r ≠ .ok b)
      (Store.collectGeneration id) w := by
  have hpin : w.look [GENERATIONS_DIR, id.asStr, PIN] = .error .notFound := by
    rw [hid]
    simp only [look, GENERATIONS_DIR, RUNS_DIR, ht]
    rfl
  refine answers_bind (Q := fun r w' => Pins steady w w' ∧ r = .ok false)
    (answers_bind look_meets (fun found w₁ h₁ => ?_) fun e w' h => by cases h.2)
    (fun pinned w₁ h₁ => ?_) fun e w' h => by simp
  · obtain ⟨hg, hfound⟩ := h₁
    cases hfound.trans (congrArg _ hpin)
    exact ⟨hg, rfl⟩
  · obtain ⟨hg, ⟨⟩⟩ := h₁
    refine answers_bind (Q := fun r w' => r = .ok true ∧ w' = w₁) ⟨rfl, rfl⟩ (fun free w₂ h₂ => ?_)
      fun e w' h => by simp
    obtain ⟨⟨⟩, rfl⟩ := h₂
    refine answers_bind (Q := fun r _ => r ≠ .ok ()) ?_ (fun _ w' h => absurd rfl h)
      fun e w' h => by simp
    intro w₃ hg₃ r w₄ h
    have htop : w₃.top = stuckWorld.top := by
      obtain ⟨_, -, rfl⟩ := pins_trans hg hg₃
      exact ht
    obtain ⟨rfl, hne⟩ := stuck_rename hid htop h
    refine ⟨rfl, ?_⟩
    cases r with
    | ok u => exact absurd rfl hne
    | error x =>
      intro hx
      cases hx

/-- A collection of such a store stops at the generation, every time. -/
theorem collectGarbage_stuck (ht : w.top = stuckWorld.top) (hr : w.runs = stuckWorld.runs) :
    Prog.Answers (FsSem faults) (Pins steady) Eq (fun r _ => ∀ c, r ≠ .ok c)
      plainStore.collectGarbage w := by
  have hlook : ∀ p, w.look p = stuckWorld.look p := by
    intro p
    cases p <;> simp [look, ht, hr]
  refine answers_bind (requireRecord_meets fun _ => rfl) (fun record w₁ h₁ => ?_)
    fun e w' h => by simp
  obtain ⟨hg₁, hrec, -⟩ := h₁
  have hrecord : plainStore.recordOf w = some ⟨RECORD_VERSION, none, .stopped⟩ := by
    rw [Store.recordOf, hlook]
    decide +kernel
  obtain rfl := Option.some.inj ((hrec record rfl).symm.trans hrecord)
  refine answers_bind (checkpoints_meets fun _ => rfl) (fun refs w₂ h₂ => ?_) fun e w' h => by simp
  obtain ⟨hg₂, hrefs⟩ := h₂
  have hrefs' : refs = [] := by
    rw [hg₁.look, hg₁.look, hlook, hlook] at hrefs
    exact Except.ok.inj hrefs
  subst hrefs'
  refine answers_bind look_meets (fun runs w₃ h₃ => ?_) fun e w' h => by simp
  obtain ⟨hg₃, hruns⟩ := h₃
  rw [hg₂.look, hg₁.look, hlook] at hruns
  cases hruns
  refine answers_bind (Q := fun _ w' => w' = w₃) rfl (fun _ w₃ h₃ => ?_) fun e w' h => by simp
  subst h₃
  refine answers_bind look_meets (fun gens w₄ h₄ => ?_) fun e w' h => by simp
  obtain ⟨hg₄, hgens⟩ := h₄
  rw [hg₃.look, hg₂.look, hg₁.look, hlook] at hgens
  cases hgens
  have htop : w₄.top = stuckWorld.top := by
    obtain ⟨_, -, rfl⟩ := pins_trans (pins_trans hg₁ hg₂) (pins_trans hg₃ hg₄)
    exact ht
  refine answers_bind (Q := fun r _ => ∀ c, r ≠ .ok c) ?_ (fun x w' h => absurd rfl (h x))
    fun e w' h => by simp
  have hlisted : Store.listing (stuckWorld.look [GENERATIONS_DIR]) = ["g1", ".trash-g1"] := rfl
  refine answers_bind (collectGeneration_stuck rfl htop) (fun b w' h => absurd rfl (h b))
    fun e w' h => by simp

/-- Some stores are never collected, however often `collect_garbage` runs: it gives
    up at a generation whose trash directory is there already and not empty, before
    it gets to that directory. -/
theorem collect_garbage_may_never_complete :
    ∃ w₀ : World, (w₀.top.Distinct ∧ w₀.runs.Distinct) ∧ w₀.examined = [] ∧
      (plainStore.roots w₀).isSome ∧
      ∀ steady w c, ¬ (collector plainStore steady w₀).Reachable ⟨w, some ((), .ret (.ok c))⟩ := by
  refine ⟨stuckWorld, ⟨?_, .node (by decide) (by simp)⟩, rfl, by decide +kernel, fun steady w c hx => ?_⟩
  · refine .node (by decide) (forall_mem_cons.2 ⟨.leaf _, forall_mem_singleton.2 ?_⟩)
    refine .node (by decide) (forall_mem_cons.2 ⟨?_, forall_mem_singleton.2 ?_⟩)
    · exact .node (by decide) (by simp)
    · exact .node (by decide) (forall_mem_singleton.2 (.leaf _))
  · have hkeeps : (collector plainStore steady stuckWorld).Keeps
        (fun w => w.top = stuckWorld.top ∧ w.runs = stuckWorld.runs) (fun _ => True) (fun _ => Eq)
        (fun _ r _ => ∀ c, r ≠ .ok c) :=
      { init := fun w h => by cases h; exact ⟨⟨rfl, rfl⟩, trivial⟩
        call := fun w _ hi _ _ => collectGarbage_stuck hi.1 hi.2
        guar := fun _ _ _ hi hg => hg ▸ hi
        env := fun _ _ _ hi he => by obtain ⟨_, -, rfl⟩ := he; exact hi
        envPost := fun _ _ _ _ _ hp => hp
        envRest := fun _ _ _ _ => trivial
        envTrans := fun _ _ _ _ => pins_trans
        envRefl := fun _ w => pins_refl steady w
        ret := fun _ _ _ _ => trivial
        crash := fun _ _ hi hc => by cases hc; exact ⟨hi, trivial⟩ }
    exact reachable_post hkeeps hx c rfl

end Lnx
