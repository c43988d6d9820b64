import Lnx.Store.Session

/-!
# The store's invariant and the steps it survives

What the lock holder's steps may do to the part of an instance directory that
recovery depends on: the committed record and the generations in place.

* `Guest`: what happens around the lock holder. The guest writes run
  directories, other processes take and drop pins.
* `Quiet`: a change to neither the record nor a generation in place; `Kept`: nor,
  while the VM cannot write, to a run directory. `Closed` is what the two share.
* `StoreStep`: a quiet change, or one of the three that matter: a complete
  generation appears, one the record does not name disappears, or a record is
  committed.
* `Inv`: the record parses and names a generation in place; every generation in
  place is complete and is the tree a rename put there; and one with origin
  `Snapshot` holds what its capture paused on.
* `StoreStep.inv`: every such step keeps the invariant.
-/

namespace Lnx

open List World

variable {faults still : Bool} {a b c w w' : World} {p : Path} {S : Store} {g : GenerationId}

/-! ## The environment -/

/-- What others may do between two steps of the lock holder: take and drop pins
    and, unless the VM is paused or `still` keeps it from writing, change the run
    directories. -/
def Guest (still : Bool) (w w' : World) : Prop :=
  ∃ rs h, (rs = w.runs ∨ (still = false ∧ w.paused = false ∧ rs.Distinct)) ∧
    w' = { w with runs := rs, held := h }

theorem guest_refl (still : Bool) (w : World) : Guest still w w := ⟨w.runs, w.held, .inl rfl, rfl⟩

theorem guest_trans (h₁ : Guest still a b) (h₂ : Guest still b c) : Guest still a c := by
  obtain ⟨rs, h, hrs, rfl⟩ := h₁
  obtain ⟨rs', h', hrs', rfl⟩ := h₂
  refine ⟨rs', h', ?_, rfl⟩
  rcases hrs' with rfl | hrs'
  · exact hrs
  · exact .inr hrs'

theorem Guest.get (h : Guest still w w') (hp : p.head? ≠ some RUNS_DIR) : w'.get p = w.get p := by
  obtain ⟨rs, h, -, rfl⟩ := h
  cases p with
  | nil => rfl
  | cons n p =>
    have hn : n ≠ RUNS_DIR := by simpa using hp
    simp [World.get, hn]

theorem Guest.peek (h : Guest still w w') (hp : p.head? ≠ some RUNS_DIR) : w'.peek p = w.peek p := by
  rw [World.peek, World.peek, h.get hp]

theorem Guest.runs (h : Guest still w w') (hs : still = true ∨ w.paused = true) : w'.runs = w.runs := by
  obtain ⟨rs, h, hrs, rfl⟩ := h
  rcases hrs with rfl | ⟨hf, hp, -⟩
  · rfl
  · rw [hf, hp] at hs
    simp at hs

/-! ## Quiet changes -/

/-- A change to neither the record nor a generation in place. -/
structure Quiet (w w' : World) : Prop where
  state : w'.get [STATE_FILE] = w.get [STATE_FILE]
  gens : ∀ g, w'.get (generationDir g) = w.get (generationDir g)
  moved : ∀ g, Assoc.get (generationDir g) w'.moved = Assoc.get (generationDir g) w.moved
  captured : ∀ c ∈ w.captured, c ∈ w'.captured
  diskState : Disk.Keeps w.disk w'.disk [STATE_FILE]
  diskGens : ∀ g q, Disk.Keeps w.disk w'.disk (generationDir g ++ q)
  wf : w.Wf → w'.Wf

/-- A quiet change that leaves the run directories alone as far as the guest
    does. -/
structure Kept (still : Bool) (w w' : World) : Prop extends Quiet w w' where
  paused : w'.paused = w.paused
  runs : still = true ∨ w.paused = true → w'.runs = w.runs

theorem Quiet.refl (w : World) : Quiet w w :=
  ⟨rfl, fun _ => rfl, fun _ => rfl, fun _ h => h, .refl _ _, fun _ _ => .refl _ _, fun h => h⟩

theorem Quiet.trans (h₁ : Quiet a b) (h₂ : Quiet b c) : Quiet a c where
  state := h₂.state.trans h₁.state
  gens g := (h₂.gens g).trans (h₁.gens g)
  moved g := (h₂.moved g).trans (h₁.moved g)
  captured c hc := h₂.captured c (h₁.captured c hc)
  diskState := h₁.diskState.trans h₂.diskState
  diskGens g q := (h₁.diskGens g q).trans (h₂.diskGens g q)
  wf hw := h₂.wf (h₁.wf hw)

theorem Kept.refl (still : Bool) (w : World) : Kept still w w :=
  ⟨Quiet.refl w, rfl, fun _ => rfl⟩

theorem Kept.trans (h₁ : Kept still a b) (h₂ : Kept still b c) : Kept still a c where
  toQuiet := h₁.toQuiet.trans h₂.toQuiet
  paused := h₂.paused.trans h₁.paused
  runs hs := (h₂.runs (by rwa [h₁.paused])).trans (h₁.runs hs)

theorem generationDir_head (g : GenerationId) : (generationDir g).head? ≠ some RUNS_DIR := by
  show some GENERATIONS_DIR ≠ some RUNS_DIR
  decide

theorem Kept.of_guest (h : Guest still w w') : Kept still w w' where
  state := h.get (by decide)
  gens g := h.get (generationDir_head g)
  moved g := by obtain ⟨rs, h, -, rfl⟩ := h; rfl
  captured c hc := by obtain ⟨rs, h, -, rfl⟩ := h; exact hc
  diskState := by obtain ⟨rs, h, -, rfl⟩ := h; exact .refl _ _
  diskGens g q := by obtain ⟨rs, h, -, rfl⟩ := h; exact .refl _ _
  wf hw := by
    obtain ⟨rs, h, hrs, rfl⟩ := h
    rcases hrs with rfl | ⟨-, -, hrs⟩
    · exact ⟨hw.top, hw.runs, hw.gens, hw.made⟩
    · exact ⟨hw.top, hrs, hw.gens, hw.made⟩
  paused := by obtain ⟨rs, h, -, rfl⟩ := h; rfl
  runs hs := h.runs hs

/-- Paths apart from the record, from every generation in place and from the run
    directories. -/
structure Inert (p : Path) : Prop where
  state : Tree.Apart p [STATE_FILE]
  gens : ∀ g, Tree.Apart p (generationDir g)
  runs : p.head? ≠ some RUNS_DIR

/-- Paths at and below which changes are quiet. -/
def Free (p : Path) : Prop := Inert p ∨ p.head? = some RUNS_DIR

theorem apart_of_runs {n : Name} (h : p.head? = some RUNS_DIR) (hn : RUNS_DIR ≠ n) (q : Path) :
    Tree.Apart p (n :: q) := by
  obtain ⟨p, rfl⟩ := head?_eq_some_iff.1 h
  exact Tree.apart_of_ne hn _ _

theorem Free.state (h : Free p) : Tree.Apart p [STATE_FILE] :=
  h.elim Inert.state (apart_of_runs · (by decide) _)

theorem Free.gens (h : Free p) (g : GenerationId) : Tree.Apart p (generationDir g) :=
  h.elim (·.gens g) (apart_of_runs · (by decide) _)

/-- A path apart from every generation does not lead to `generations/`. -/
theorem Free.not_prefix_gens (h : Free p) : ¬ p <+: [GENERATIONS_DIR] := fun hp =>
  (h.gens ⟨"g", by decide⟩).1 (hp.trans (prefix_append [GENERATIONS_DIR] ["g"]))

theorem Free.ne_nil (h : Free p) : p ≠ [] := by
  rintro rfl
  exact Tree.not_apart_nil_left h.state

theorem Inert.ne_nil (h : Inert p) : p ≠ [] := Free.ne_nil (.inl h)

theorem Inert.append (h : Inert p) (q : Path) : Inert (p ++ q) where
  state := h.state.append_left q
  gens g := (h.gens g).append_left q
  runs := by rw [head?_append_of_ne_nil _ h.ne_nil]; exact h.runs

theorem Free.append (h : Free p) (q : Path) : Free (p ++ q) := by
  have hne := h.ne_nil
  rcases h with h | h
  · exact .inl (h.append q)
  · exact .inr (by rwa [head?_append_of_ne_nil _ hne])

variable {name : Name} {r : Except IoError Unit} {t : Dir} {o : Old} {record : Record}

/-- A name that starts with a dot is no generation's. -/
theorem ne_asStr_of_dot (h : startsWith name "." = true) (g : GenerationId) : name ≠ g.asStr := by
  rintro rfl
  rw [validComponent_ne_dot g.valid] at h
  cases h

/-- Entries of `generations/` that start with a dot are inert. -/
theorem inert_dot (h : startsWith name "." = true) (p : Path) :
    Inert (GENERATIONS_DIR :: name :: p) where
  state := Tree.apart_of_ne (by decide) _ _
  gens g := Tree.apart_cons_self.2 (Tree.apart_of_ne (ne_asStr_of_dot h g) _ _)
  runs := by
    simp only [List.head?_cons, ne_eq, Option.some.injEq]
    decide

/-- Top-level entries other than the record, the generations and the runs are
    inert. -/
theorem inert_top (h₁ : name ≠ STATE_FILE) (h₂ : name ≠ GENERATIONS_DIR) (h₃ : name ≠ RUNS_DIR)
    (p : Path) : Inert (name :: p) where
  state := Tree.apart_of_ne h₁ _ _
  gens _ := Tree.apart_of_ne h₂ _ _
  runs := by simpa using h₃

/-- A call that names only free paths. -/
theorem Quiet.of_edit {e : Edit} (h : EditSem faults e w r w') (he : ∀ p ∈ e.footprint, Free p) :
    Quiet w w' where
  state := h.get_apart fun p hp => (he p hp).state
  gens g := h.get_apart fun p hp => (he p hp).gens g
  moved g := h.moved_get fun p hp => (he p hp).gens g
  captured c hc := by rw [h.rest.2.2.1]; exact hc
  diskState := h.keeps fun p hp => (he p hp).state.1
  diskGens g q := h.keeps fun p hp => (((he p hp).gens g).append_right q).1
  wf := h.wf fun p hp => (he p hp).not_prefix_gens

/-- A call that names only inert paths. -/
theorem Kept.of_edit {e : Edit} (h : EditSem faults e w r w') (he : ∀ p ∈ e.footprint, Inert p) :
    Kept still w w' where
  toQuiet := Quiet.of_edit h fun p hp => .inl (he p hp)
  paused := h.rest.2.1
  runs _ := h.runs_eq fun p hp => (he p hp).runs

/-- Making a directory on the way to a free path. -/
theorem Quiet.of_mkdir {q : Path} (h : EditSem faults (.mkdir q) w r w') (hp : Free p)
    (hq : q <+: p) : Quiet w w' where
  state := h.get_of_mkdir fun hs => hp.state.2 (hs.trans hq)
  gens g := h.get_of_mkdir fun hs => (hp.gens g).2 (hs.trans hq)
  moved g := by rw [h.moved_eq (by simp)]
  captured c hc := by rw [h.rest.2.2.1]; exact hc
  diskState := h.keeps_of_mkdir fun he => hp.state.2 (he ▸ hq)
  diskGens g x := h.keeps_of_mkdir fun he =>
    (hp.gens g).2 ((prefix_append _ x).trans (he ▸ hq))
  wf := h.wf_of_mkdir

/-- Making a directory on the way to an inert path. -/
theorem Kept.of_mkdir {q : Path} (h : EditSem faults (.mkdir q) w r w') (hp : Inert p)
    (hq : q <+: p) (hne : q ≠ []) :
    Kept still w w' where
  toQuiet := Quiet.of_mkdir h (.inl hp) hq
  paused := h.rest.2.1
  runs _ := by
    refine h.runs_eq fun x hx => ?_
    obtain rfl : x = q := by simpa using hx
    obtain ⟨s, rfl⟩ := hq
    have hruns := hp.runs
    rwa [head?_append_of_ne_nil _ hne] at hruns

/-- How a function is run and what it is held to: whether modifying calls may fail
    at any time, whether the guest is kept from writing, what each step may do,
    and what is left when the function returns an error. -/
structure Setting where
  faults : Bool
  still : Bool
  step : World → World → Prop
  fail : World → Prop
  refl : ∀ w, step w w

/-- What a function's own calls, below paths that are `free`, and the environment
    keep: `Quiet` and `Kept` are two in use. -/
structure Closed (E : Setting) (free : Path → Prop) (K : World → World → Prop) : Prop where
  refl : ∀ w, K w w
  trans : ∀ {a b c}, K a b → K b c → K a c
  guest : ∀ {w w'}, Guest E.still w w' → K w w'
  edit : ∀ {e w r w'}, EditSem E.faults e w r w' → (∀ p ∈ e.footprint, free p) → K w w'
  mkdir : ∀ {p q w r w'}, EditSem E.faults (.mkdir q) w r w' → free p → q <+: p → q ≠ [] → K w w'
  append : ∀ {p}, free p → ∀ q, free (p ++ q)
  step : ∀ {w w'}, K w w' → E.step w w'
  fail : ∀ {w w'}, K w w' → E.fail w → E.fail w'

/-! ## The invariant -/

/-- The disk and the host-share state of a work directory are those of a
    generation's tree. -/
def SameState (work : Option Dir) (t : Dir) : Prop :=
  ∀ name ∈ [ROOTFS, HOST_SHARE_STATE], ∀ q,
    (work.bind fun d => d.peek (name :: q)) = t.peek (name :: q)

/-- Everything below `p` is on stable storage. -/
structure Synced (w : World) (p : Path) : Prop where
  entries : ∀ q n, w.peek (p ++ q) = some none → w.disk.old (p ++ q ++ [n]) = []
  data : ∀ q b, w.peek (p ++ q) = some (some (.file b)) → w.disk.data (p ++ q) = true

theorem Synced.mono (h : Synced w p) (hpeek : ∀ q, w'.peek (p ++ q) = w.peek (p ++ q))
    (hdisk : ∀ q, Disk.Keeps w.disk w'.disk (p ++ q)) : Synced w' p where
  entries q n hq := by
    rw [append_assoc]
    refine (hdisk (q ++ [n])).synced ?_
    rw [← append_assoc]
    exact h.entries q n (hpeek q ▸ hq)
  data q b hq := (hdisk q).data (h.data q b (hpeek q ▸ hq))

/-- What the invariant is to cover: with `tracked`, generations with origin
    `Snapshot` come from captures only; with `settled`, every change that returned
    was synced; with `renamed`, every generation in place was renamed there. -/
structure Mode where
  tracked : Prop
  settled : Prop
  renamed : Prop

/-- Something `state.json` was is a synced record, whose latest generation is in
    place for good. -/
def Sturdy (S : Store) (w : World) : Old → Prop
  | .absent => True
  | .file b synced => synced = true ∧ ∃ record,
      S.readRecord (.ok (.leaf (.file b))) = .ok (some record) ∧ ∀ g, record.latest = some g →
        (∃ t, w.get (generationDir g) = some t) ∧ w.disk.old (generationDir g) = []
  | .other => False

/-- What `state.json` is now, and what it was since it was last synced. -/
def World.candidates (w : World) : List Old := w.binding [STATE_FILE] :: w.disk.old [STATE_FILE]

/-- `g` is in place as the complete generation `t`, down to stable storage; a rename
    put it there; and if it is the final snapshot of a run, it holds what the
    capture paused on. -/
structure InPlace (S : Store) (mode : Mode) (g : GenerationId) (t : Dir) (w : World) : Prop where
  get : w.get (generationDir g) = some t
  moved : mode.renamed → Assoc.get (generationDir g) w.moved = some t
  complete : ∃ G, S.checkGeneration g (.ok t) = .ok G
  synced : Synced w (generationDir g)
  snapshot : mode.tracked → ∀ G run, S.checkGeneration g (.ok t) = .ok G →
    G.manifest.origin = .snapshot run → ∃ c ∈ w.captured, c.run = run ∧ c.generation = g ∧ SameState c.work t

/-- The part of the instance directory recovery depends on is sound. -/
structure Inv (S : Store) (mode : Mode) (w : World) : Prop where
  record : ∀ t, w.get [STATE_FILE] = some t → ∃ record, S.readRecord (.ok t) = .ok (some record) ∧
    ∀ g, record.latest = some g → ∃ u, w.get (generationDir g) = some u
  inPlace : ∀ {g t}, w.get (generationDir g) = some t → InPlace S mode g t w
  sturdy : mode.settled → ∀ o ∈ w.candidates, Sturdy S w o
  wf : w.Wf

variable {mode : Mode}

theorem InPlace.mono (h : InPlace S mode g t w)
    (hget : w'.get (generationDir g) = w.get (generationDir g))
    (hmoved : Assoc.get (generationDir g) w'.moved = Assoc.get (generationDir g) w.moved)
    (hcaptured : ∀ c ∈ w.captured, c ∈ w'.captured)
    (hdisk : ∀ q, Disk.Keeps w.disk w'.disk (generationDir g ++ q)) : InPlace S mode g t w' where
  get := hget.trans h.get
  moved hR := hmoved.trans (h.moved hR)
  complete := h.complete
  synced := h.synced.mono (fun q => by
    rw [peek, peek, get_append (by simp [generationDir]),
      get_append (by simp [generationDir]), hget]) hdisk
  snapshot hT G run hG ho := by
    obtain ⟨c, hc, hrest⟩ := h.snapshot hT G run hG ho
    exact ⟨c, hcaptured c hc, hrest⟩

theorem Sturdy.mono (h : Sturdy S w o) (hgens : ∀ b synced record g, o = .file b synced →
      S.readRecord (.ok (.leaf (.file b))) = .ok (some record) → record.latest = some g →
      w'.get (generationDir g) = w.get (generationDir g) ∧
        Disk.Keeps w.disk w'.disk (generationDir g)) : Sturdy S w' o := by
  cases o with
  | absent => trivial
  | other => exact h
  | file b synced =>
    obtain ⟨hs, record, hr, hl⟩ := h
    refine ⟨hs, record, hr, fun g hg => ?_⟩
    obtain ⟨hget, hkeeps⟩ := hgens b synced record g rfl hr hg
    exact ⟨by rw [hget]; exact (hl g hg).1, hkeeps.synced (hl g hg).2⟩

/-- What `state.json` may be only shrinks when it is left alone. -/
theorem candidates_of_keeps (hget : w'.get [STATE_FILE] = w.get [STATE_FILE])
    (hdisk : Disk.Keeps w.disk w'.disk [STATE_FILE]) (hs : ∀ o ∈ w.candidates, Sturdy S w o)
    (ho : o ∈ w'.candidates) : o ∈ w.candidates := by
  rcases mem_cons.1 ho with rfl | ho
  · refine mem_cons.2 (.inl ?_)
    have hcur := hs _ mem_cons_self
    unfold binding at hcur ⊢
    rw [hget]
    split at hcur
    · rfl
    · rw [hcur.1, hdisk.data hcur.1]
    · exact hcur.elim
  · exact mem_cons_of_mem _ (hdisk.mem ho)

theorem Inv.quiet (hi : Inv S mode w) (h : Quiet w w') : Inv S mode w' where
  record t ht := by
    rw [h.state] at ht
    obtain ⟨record, hr, hl⟩ := hi.record t ht
    refine ⟨record, hr, fun g hg => ?_⟩
    rw [h.gens g]
    exact hl g hg
  inPlace {g t} ht := by
    rw [h.gens g] at ht
    exact (hi.inPlace ht).mono (h.gens g) (h.moved g) h.captured (h.diskGens g)
  sturdy hS o ho := by
    have hs := hi.sturdy hS
    refine (hs o (candidates_of_keeps h.state h.diskState hs ho)).mono fun _ _ _ g _ _ _ => ?_
    exact ⟨h.gens g, by simpa using h.diskGens g []⟩
  wf := h.wf hi.wf

/-- The committed record, if there is one that parses. -/
def Store.recordOf (S : Store) (w : World) : Option Record :=
  match S.readRecord (w.look [STATE_FILE]) with
  | .ok record => record
  | .error _ => none

/-! ## Steps -/

/-- The record and every generation in place but `g` are as they were. -/
structure SameBut (g : GenerationId) (w w' : World) : Prop where
  state : w'.get [STATE_FILE] = w.get [STATE_FILE]
  gens : ∀ g', g' ≠ g → w'.get (generationDir g') = w.get (generationDir g')
  moved : ∀ g', g' ≠ g →
    Assoc.get (generationDir g') w'.moved = Assoc.get (generationDir g') w.moved
  captured : ∀ c ∈ w.captured, c ∈ w'.captured
  diskState : Disk.Keeps w.disk w'.disk [STATE_FILE]
  diskGens : ∀ g', g' ≠ g → ∀ q, Disk.Keeps w.disk w'.disk (generationDir g' ++ q)
  wf : w.Wf → w'.Wf

/-- What the steps of a call are held to: which records it may commit where, and
    what the invariant is to cover. -/
structure Rules extends Mode where
  commits : World → Record → Prop

/-- A step of the lock holder. -/
inductive StoreStep (S : Store) (rules : Rules) (w w' : World) : Prop
  | quiet (h : Quiet w w')
  | publish (g : GenerationId) (t : Dir) (hsame : SameBut g w w')
      (hnew : ∀ u, w.get (generationDir g) = some u → u = .node [])
      (hin : InPlace S rules.toMode g t w')
  | collect (g : GenerationId) (hsame : SameBut g w w') (hnone : w'.get (generationDir g) = none)
      (hlatest : ∀ record, S.recordOf w = some record → record.latest ≠ some g)
      (hsettled : rules.settled → w.disk.old [STATE_FILE] = [])
  | commit (record : Record) (hallowed : rules.commits w record)
      (hgens : ∀ g, w'.get (generationDir g) = w.get (generationDir g))
      (hmoved : ∀ g, Assoc.get (generationDir g) w'.moved = Assoc.get (generationDir g) w.moved)
      (hcaptured : w'.captured = w.captured)
      (hdata : w'.disk.data [STATE_FILE] = true)
      (hold : w'.disk.old [STATE_FILE] = w.candidates)
      (hdisk : ∀ g q, Disk.Keeps w.disk w'.disk (generationDir g ++ q))
      (hwf : w.Wf → w'.Wf) (hruns : w'.runs = w.runs)
      (hstate : ∃ b, w'.get [STATE_FILE] = some (.leaf (.file b)) ∧
        S.readRecord (.ok (.leaf (.file b))) = .ok (some record))
      (hlatest : ∀ g, record.latest = some g → (∃ u, w.get (generationDir g) = some u) ∧
        (rules.settled → w.disk.old (generationDir g) = []))

theorem Store.recordOf_of_get (h : w.get [STATE_FILE] = some t)
    (hr : S.readRecord (.ok t) = .ok (some record)) :
    S.recordOf w = some record := by
  rw [recordOf, look_eq_ok.2 h, hr]

/-- What the committed record is depends on `state.json` alone. -/
theorem Store.recordOf_congr (h : w'.get [STATE_FILE] = w.get [STATE_FILE])
    (hr : S.recordOf w = some record) :
    S.recordOf w' = some record := by
  unfold recordOf at hr ⊢
  cases hg : w.get [STATE_FILE] with
  | some t => rwa [look_eq_ok.2 (h.trans hg), ← look_eq_ok.2 hg]
  | none =>
    exfalso
    cases hl : w.look [STATE_FILE] with
    | ok t => rw [look_eq_ok.1 hl] at hg; cases hg
    | error e =>
      rw [hl] at hr
      cases e <;> simp [readRecord, readJson] at hr

theorem Store.readRecord_of_recordOf (h : S.recordOf w = some record) :
    ∃ t, w.get [STATE_FILE] = some t ∧ S.readRecord (.ok t) = .ok (some record) := by
  unfold Store.recordOf at h
  split at h
  · next r hr =>
    subst h
    obtain ⟨b, hb, -⟩ := Store.readRecord_eq_some.1 hr
    exact ⟨_, look_eq_ok.1 hb, hb ▸ hr⟩
  · cases h

theorem SameBut.trans (h₁ : SameBut g a b) (h₂ : SameBut g b c) : SameBut g a c where
  state := h₂.state.trans h₁.state
  gens g' hg := (h₂.gens g' hg).trans (h₁.gens g' hg)
  moved g' hg := (h₂.moved g' hg).trans (h₁.moved g' hg)
  captured c hc := h₂.captured c (h₁.captured c hc)
  diskState := h₁.diskState.trans h₂.diskState
  diskGens g' hg q := (h₁.diskGens g' hg q).trans (h₂.diskGens g' hg q)
  wf hw := h₂.wf (h₁.wf hw)

theorem Quiet.sameBut (h : Quiet w w') (g : GenerationId) : SameBut g w w' where
  state := h.state
  gens g' _ := h.gens g'
  moved g' _ := h.moved g'
  captured := h.captured
  diskState := h.diskState
  diskGens g' _ := h.diskGens g'
  wf := h.wf

theorem SameBut.inPlace {g' : GenerationId} (h : SameBut g w w') (hne : g' ≠ g)
    (hin : InPlace S mode g' t w) : InPlace S mode g' t w' :=
  hin.mono (h.gens g' hne) (h.moved g' hne) h.captured (h.diskGens g' hne)

/-- The records `state.json` may be keep naming generations in place, as long as
    none of them names the one that changed. -/
theorem SameBut.sturdy (h : SameBut g w w') (hs : ∀ o ∈ w.candidates, Sturdy S w o)
    (hne : ∀ b synced record, Old.file b synced ∈ w.candidates →
      S.readRecord (.ok (.leaf (.file b))) = .ok (some record) → record.latest ≠ some g)
    (ho : o ∈ w'.candidates) : Sturdy S w' o := by
  have hmem := candidates_of_keeps h.state h.diskState hs ho
  refine (hs o hmem).mono fun b synced record g' hob hr hl => ?_
  have hgg : g' ≠ g := fun he => hne b synced record (hob ▸ hmem) hr (he ▸ hl)
  exact ⟨h.gens g' hgg, by simpa using h.diskGens g' hgg []⟩

/-- A generation in place is no empty directory. -/
theorem InPlace.ne_empty (h : InPlace S mode g t w) : t ≠ .node [] := by
  rintro rfl
  obtain ⟨G, hG⟩ := h.complete
  obtain ⟨d, b, m, hd, hm, -⟩ := Store.checkGeneration_eq_ok.1 hG
  cases hd
  simp [Tree.get_node_cons] at hm

/-- Every step of the lock holder keeps the invariant. -/
theorem StoreStep.inv {rules : Rules} (hi : Inv S rules.toMode w)
    (h : StoreStep S rules w w') : Inv S rules.toMode w' := by
  cases h with
  | quiet h => exact hi.quiet h
  | publish g t hsame hnew hin =>
    have hempty : ∀ u, w.get (generationDir g) ≠ some u := fun u hu =>
      (hi.inPlace hu).ne_empty (hnew u hu)
    refine ⟨fun u hu => ?_, fun {g' t'} ht' => ?_, fun hS o ho => ?_, hsame.wf hi.wf⟩
    · rw [hsame.state] at hu
      obtain ⟨record, hr, hl⟩ := hi.record u hu
      refine ⟨record, hr, fun g' hg' => ?_⟩
      by_cases hgg : g' = g
      · exact ⟨t, hgg ▸ hin.get⟩
      · rw [hsame.gens g' hgg]
        exact hl g' hg'
    · by_cases hgg : g' = g
      · subst hgg
        have ht : t' = t := Option.some.inj (ht'.symm.trans hin.get)
        exact ht ▸ hin
      · rw [hsame.gens g' hgg] at ht'
        exact hsame.inPlace hgg (hi.inPlace ht')
    · refine hsame.sturdy (hi.sturdy hS) (fun b synced record hb hr hl => ?_) ho
      obtain ⟨-, record', hr', hl'⟩ := hi.sturdy hS _ hb
      rw [hr] at hr'
      cases hr'
      obtain ⟨u, hu⟩ := (hl' g hl).1
      exact hempty u hu
  | collect g hsame hnone hlatest hsettled =>
    refine ⟨fun u hu => ?_, fun {g' t'} ht' => ?_, fun hS o ho => ?_, hsame.wf hi.wf⟩
    · rw [hsame.state] at hu
      obtain ⟨record, hr, hl⟩ := hi.record u hu
      refine ⟨record, hr, fun g' hg' => ?_⟩
      have hgg : g' ≠ g := by
        rintro rfl
        exact hlatest record (Store.recordOf_of_get hu hr) hg'
      rw [hsame.gens g' hgg]
      exact hl g' hg'
    · have hgg : g' ≠ g := by
        rintro rfl
        rw [hnone] at ht'
        cases ht'
      rw [hsame.gens g' hgg] at ht'
      exact hsame.inPlace hgg (hi.inPlace ht')
    · -- only the record in place is left, and it does not name `g`
      refine hsame.sturdy (hi.sturdy hS) (fun b synced record hb hr => ?_) ho
      rw [candidates, hsettled hS, mem_singleton] at hb
      refine hlatest record (Store.recordOf_of_get (t := .leaf (.file b)) ?_ hr)
      unfold binding at hb
      split at hb <;> cases hb
      assumption
  | commit record hallowed hgens hmoved hcaptured hdata hold hdisk hwf hruns hstate hlatest =>
    obtain ⟨b, hb, hr⟩ := hstate
    refine ⟨fun u hu => ?_, fun {g t} ht => ?_, fun hS o ho => ?_, hwf hi.wf⟩
    · have htu : Tree.leaf (.file b) = u := Option.some.inj (hb.symm.trans hu)
      subst htu
      refine ⟨record, hr, fun g hg => ?_⟩
      rw [hgens g]
      exact (hlatest g hg).1
    · rw [hgens g] at ht
      exact (hi.inPlace ht).mono (hgens g) (hmoved g) (hcaptured ▸ fun _ h => h) (hdisk g)
    · have hkeeps : ∀ g, Disk.Keeps w.disk w'.disk (generationDir g) := fun g => by
        simpa using hdisk g []
      rcases mem_cons.1 ho with rfl | ho
      · have hbind : w'.binding [STATE_FILE] = .file b true := by
          simp [binding, hb, hdata]
        rw [hbind]
        refine ⟨rfl, record, hr, fun g hg => ⟨?_, (hkeeps g).synced ((hlatest g hg).2 hS)⟩⟩
        rw [hgens g]
        exact (hlatest g hg).1
      · rw [hold] at ho
        exact (hi.sturdy hS o ho).mono fun _ _ _ g _ _ _ => ⟨hgens g, hkeeps g⟩

/-! ## At rest -/

/-- Between calls: every generation in place has been synced to be there, and so
    has the record. -/
structure Rest (w : World) : Prop where
  gens : ∀ g t, w.get (generationDir g) = some t → w.disk.old (generationDir g) = []
  state : w.disk.old [STATE_FILE] = []

theorem Rest.quiet (hr : Rest w) (h : Quiet w w') : Rest w' where
  gens g t ht := by
    have hkeeps : Disk.Keeps w.disk w'.disk (generationDir g) := by simpa using h.diskGens g []
    rw [h.gens g] at ht
    exact hkeeps.synced (hr.gens g t ht)
  state := h.diskState.synced hr.state

/-- What every call of the lock holder leaves behind, failed or not. -/
def Rules.Resting (rules : Rules) (w : World) : Prop := rules.settled → Rest w

theorem Rules.Resting.quiet {rules : Rules} (h : rules.Resting w) (hq : Quiet w w') : rules.Resting w' := fun hS => (h hS).quiet hq

/-- How the lock holder runs the store's functions. -/
def Rules.setting (rules : Rules) (S : Store) (faults still : Bool) : Setting where
  faults := faults
  still := still
  step := StoreStep S rules
  fail := rules.Resting
  refl w := .quiet (Quiet.refl w)

theorem closed_quiet (rules : Rules) (S : Store) (faults still : Bool) :
    Closed (rules.setting S faults still) Free Quiet where
  refl := Quiet.refl
  trans := Quiet.trans
  guest h := (Kept.of_guest h).toQuiet
  edit := Quiet.of_edit
  mkdir h hp hq _ := Quiet.of_mkdir h hp hq
  append h := h.append
  step h := .quiet h
  fail h hr := hr.quiet h

theorem closed_kept (rules : Rules) (S : Store) (faults still : Bool) :
    Closed (rules.setting S faults still) Inert (Kept still) where
  refl := Kept.refl still
  trans := Kept.trans
  guest := Kept.of_guest
  edit := Kept.of_edit
  mkdir := Kept.of_mkdir
  append h := h.append
  step h := .quiet h.toQuiet
  fail h hr := hr.quiet h.toQuiet

end Lnx
