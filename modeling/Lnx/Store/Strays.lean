import Lnx.Store.Collection
import Lnx.Store.System

/-!
# What recovery leaves behind

`recover` ends with a collection, which knows the names the store gives to what it
stages: `.staging-<gen>`, `.trash-<gen>` and the directories of runs. Two components
write under names of their own. A capture writes to a sibling of the staging directory,
`generations/..staging-<gen>.tmp.<pid>` (`staging_dir`,
`vmm/src/macos/snapshot/orchestrator.rs`), and `commit_file` writes to
`<name>.tmp-<id>` in the instance directory or under `checkpoints/`. A process that dies
there leaves a stray entry.

* `commitFile_frames`: a `commit_file` that succeeds changes nothing but the file.
* `recover_leaves_clean_iff`: what is left after a `recover` is the store's own just when
  there was no stray entry before it.
-/

namespace Lnx

open scoped List

variable {w' : World} {p : Path} {ref : List GenerationId} {live : Option RunId}

/-- An entry that no part of the store looks at: in `generations/` neither a generation
    nor staging or trash, under `checkpoints/` no reference, or a temporary copy of
    `state.json`. -/
def Stray : Path → Prop
  | [n] => startsWith n (STATE_FILE ++ ".tmp-") = true
  | [d, n] =>
    d = GENERATIONS_DIR ∧ ¬ Leftover n ∧ GenerationId.tryFrom n = none ∨
      d = CHECKPOINTS_DIR ∧ Store.extension n ≠ some "ref"
  | _ => False

/-- Every entry is the latest generation, one that is referenced or pinned, a checkpoint
    reference or the live run, and there is no temporary copy of the record. -/
structure Store.Clean (S : Store) (ref : List GenerationId) (live : Option RunId) (w : World) : Prop where
  roots : S.roots w = some (ref, live)
  gens : ∀ n, w.peek [GENERATIONS_DIR, n] ≠ none → ∃ id : GenerationId, id.asStr = n ∧ (id ∈ ref ∨ Locked id w)
  runs : ∀ n, w.peek [RUNS_DIR, n] ≠ none → live.map RunId.asStr = some n
  refs : ∀ n, w.peek [CHECKPOINTS_DIR, n] ≠ none → Store.extension n = some "ref"
  temps : ∀ n, w.peek [n] ≠ none → startsWith n (STATE_FILE ++ ".tmp-") = false

/-! ## The log of lock attempts -/

/-- The same world with another log of lock attempts. -/
def World.relog (w : World) (log : List (Name × Bool)) : World := { w with examined := log }

section

variable (w : World) (log : List (Name × Bool))

theorem World.get_relog (p : Path) : (w.relog log).get p = w.get p := by
  cases p <;> rfl

theorem World.look_relog (p : Path) : (w.relog log).look p = w.look p := by
  cases p <;> rfl

theorem World.peek_relog (p : Path) : (w.relog log).peek p = w.peek p := by
  simp only [World.peek, World.get_relog]

theorem World.put_relog (p : Path) (t : Dir) :
    (w.relog log).put p t = (w.put p t).map (·.relog log) := by
  cases p with
  | nil => rfl
  | cons n p =>
    simp only [World.put, World.relog]
    split <;> simp only [Option.map_map] <;> rfl

theorem World.del_relog (p : Path) : (w.relog log).del p = (w.del p).relog log := by
  cases p with
  | nil => rfl
  | cons n p =>
    simp only [World.del, World.relog]
    split <;> rfl

theorem World.add_relog (p : Path) (t : Dir) :
    (w.relog log).add p t = (w.add p t).map (·.relog log) := by
  simp only [World.add, World.look_relog, World.put_relog]
  split
  · rfl
  · cases w.put p t <;> rfl
  · rfl

theorem World.overwrite_relog (p : Path) (t : Dir) :
    (w.relog log).overwrite p t = (w.overwrite p t).map (·.relog log) := by
  simp only [World.overwrite, World.put_relog]
  cases w.put p t <;> rfl

theorem World.move_relog (src dst : Path) (t : Dir) :
    (w.relog log).move src dst t = (w.move src dst t).map (·.relog log) := by
  simp only [World.move, World.del_relog, World.put_relog]
  cases (w.del src).put dst t <;> rfl

theorem Edit.apply_relog (e : Edit) : e.apply (w.relog log) = (e.apply w).map (·.relog log) := by
  cases e <;> simp only [Edit.apply, World.look_relog, World.add_relog, World.overwrite_relog,
    World.move_relog, World.del_relog]
  case rename src dst =>
    split
    · rfl
    · split <;> rfl
  all_goals split <;> rfl

end

variable {faults : Bool} {e : Edit} {w : World} {S : Store}

theorem EditSem.relog {r : Except IoError Unit} (h : EditSem faults e w r w')
    (log : List (Name × Bool)) :
    EditSem faults e (w.relog log) r (w'.relog log) := by
  cases h with
  | done h =>
    refine .done (?_ : _ = Except.ok (World.relog _ log))
    rw [Edit.apply_relog, h]
    rfl
  | refused h =>
    refine .refused ?_
    rw [Edit.apply_relog, h]
    rfl
  | fault h => exact .fault h
  | @partialWrite p b n _ w' hf h =>
    refine .partialWrite (n := n) hf (?_ : _ = Except.ok (w'.relog log))
    rw [Edit.apply_relog, h]
    rfl
  | shrunk hl hp hput =>
    refine .shrunk ((World.look_relog w log _).trans hl) hp (?_ : _ = some (World.relog _ log))
    rw [World.put_relog, hput]
    rfl

/-- What a program does does not depend on the log. -/
theorem runs_relog {α : Type} {p : Prog FsOp α} {a : α} (h : Prog.Runs (FsSem faults) p w a w')
    (log : List (Name × Bool)) :
    ∃ log', Prog.Runs (FsSem faults) p (w.relog log) a (w'.relog log') := by
  induction h generalizing log with
  | ret a w => exact ⟨log, .ret a _⟩
  | @op β o k w w₁ w' r a ho _ ih =>
    have hstep : ∃ log', FsSem faults β o (w.relog log) r (w₁.relog log') := by
      cases o with
      | look p =>
        obtain ⟨rfl, rfl⟩ := ho
        exact ⟨log, (World.look_relog _ _ _).symm, rfl⟩
      | edit e => exact ⟨log, EditSem.relog ho log⟩
      | tryLock n =>
        obtain ⟨rfl, rfl⟩ := ho
        exact ⟨_, rfl, rfl⟩
      | newGenerationId =>
        obtain ⟨hg, hu, rfl⟩ := ho
        exact ⟨log, hg, ⟨fun n => (World.get_relog _ _ _).trans (hu.1 n),
          fun n m => (World.get_relog _ _ _).trans (hu.2 n m)⟩, rfl⟩
      | newRunId =>
        obtain ⟨hr, rfl⟩ := ho
        exact ⟨log, hr, rfl⟩
      | newTempId =>
        obtain ⟨hd, rfl⟩ := ho
        exact ⟨log, hd, rfl⟩
      | now | pause | resume =>
        cases ho
        exact ⟨log, rfl⟩
    obtain ⟨log₁, hstep⟩ := hstep
    obtain ⟨log', hrest⟩ := ih log₁
    exact ⟨log', .op hstep hrest⟩

/-! ## Running alone -/

/-- `p`, run in `w` by itself, ends with `post`. -/
abbrev Alone (faults : Bool) {α : Type} (post : Except StoreError α → World → Prop) (p : Io α) (w : World) : Prop :=
  Prog.Answers (FsSem faults) (Pins true) (fun _ _ => True) post p w

section

variable {faults : Bool} {α : Type} {w : World}

theorem alone_trivial (p : Prog FsOp α) (w : World) :
    p.Meets (FsSem faults) (Pins true) (fun _ _ => True) (fun _ _ => True) w := by
  induction p generalizing w with
  | ret a => trivial
  | op o k ih => exact fun w₁ _ r w₂ _ => ⟨trivial, ih r w₂⟩

theorem alone_tryCatch {p : Io α} {handler : StoreError → Io α} {post : Except StoreError α → World → Prop}
    {Q : Except StoreError α → World → Prop} (h : Alone faults Q p w)
    (hok : ∀ a w', Q (.ok a) w' → post (.ok a) w') (herr : ∀ e w', Alone faults post (handler e) w') :
    Alone faults post (tryCatch p handler) w := by
  refine Prog.meets_bind (Prog.meets_post h fun r w' hr => ?_)
  cases r with
  | ok a => exact hok a w' hr
  | error e => exact herr e w'

/-- A call whose success has `Q`. -/
theorem alone_attempt {doing : String} {path : Path} {Q : World → Prop}
    (h : ∀ w', EditSem faults e w (.ok ()) w' → Q w') (hpins : ∀ w₁, Pins true w w₁ → w₁ = w) :
    Alone faults (fun r w' => r = .ok () → Q w') (attempt doing path (.edit e)) w := by
  intro w₁ hw₁ r w₂ h₂
  cases hpins w₁ hw₁
  refine ⟨trivial, ?_⟩
  cases r with
  | error x => exact nofun
  | ok u => exact fun _ => h w₂ h₂

end

theorem Pins.eq (h : Pins true w w') : w' = w := by
  obtain ⟨_, hh, rfl⟩ := h
  rw [hh rfl]

/-! ## Committing a file -/

/-- Nothing is different but at and below `p`. -/
structure Besides (p : Path) (w w' : World) : Prop where
  peek : ∀ q, ¬ p <+: q → w'.peek q = w.peek q
  held : w'.held = w.held
  examined : w'.examined = w.examined

theorem Besides.refl (p : Path) (w : World) : Besides p w w := ⟨fun _ _ => rfl, rfl, rfl⟩

theorem Besides.trans {a b c : World} (h₁ : Besides p a b) (h₂ : Besides p b c) : Besides p a c :=
  ⟨fun q hq => (h₂.peek q hq).trans (h₁.peek q hq), h₂.held.trans h₁.held, h₂.examined.trans h₁.examined⟩

theorem Besides.of_edit {r : Except IoError Unit} (h : EditSem faults e w r w')
    (he : ∀ q ∈ e.footprint, p <+: q) : Besides p w w' :=
  ⟨fun _ hq => h.peek_eq fun p' hp' hpq => hq ((he p' hp').trans hpq), h.rest.1, h.rest.2.2.2⟩

section

variable {faults : Bool} {w : World}

/-- The new contents stand in the temporary file, where nothing was before. -/
theorem writeTemp_alone {temp : Path} {contents : Bytes} :
    Alone faults (fun r w' => r = .ok () → Besides temp w w' ∧ w.peek temp = none) (writeTemp temp contents) w := by
  refine Prog.answers_bind (Q := fun r w' => r = .ok () → Besides temp w w' ∧ w.peek temp = none)
    (alone_attempt (fun w' h => ?_) fun _ => Pins.eq) (fun _ w₁ h₁ => ?_) fun e w' _ => nofun
  · refine ⟨.of_edit h (by simp), ?_⟩
    cases h with
    | done h => exact World.peek_eq_none.2 (World.get_of_look_error (World.add_eq_ok h).1)
  obtain ⟨hb₁, hnone⟩ := h₁ rfl
  refine Prog.answers_bind (Q := fun r w' => r = .ok () → Besides temp w w')
    (alone_attempt (fun w' h => hb₁.trans (.of_edit h (by simp))) fun _ => Pins.eq)
    (fun _ w₂ h₂ => ?_) fun e w' _ => nofun
  exact alone_attempt (fun w' h => ⟨(h₂ rfl).trans (.of_edit h (by simp)), hnone⟩) fun _ => Pins.eq

/-- A rename of what stands in a new file. -/
theorem Besides.rename {temp dst : Path} {w₀ : World} (h : EditSem faults (.rename temp dst) w (.ok ()) w')
    (hb : Besides temp w₀ w) (hnone : w₀.peek temp = none) (ha : Tree.Apart temp dst)
    (hne : temp ≠ [] ∧ temp ≠ [RUNS_DIR]) : Besides dst w₀ w' := by
  refine ⟨fun q hq => ?_, h.rest.1.trans hb.held, h.rest.2.2.2.trans hb.examined⟩
  by_cases htemp : temp <+: q
  · obtain ⟨s, rfl⟩ := htemp
    rw [World.peek_below_none hne.1 hnone]
    cases h with
    | done h =>
      obtain ⟨t, x, -, hx, rfl, -⟩ := Edit.rename_eq_ok h
      refine World.peek_eq_none.2 ?_
      show x.get (temp ++ s) = none
      rw [World.get_put_apart hx ⟨hq, fun hs => ?_⟩]
      · exact World.get_del_append hne s
      · -- `dst` is not below the temporary file
        exact ha.1 ((List.prefix_append temp s).trans hs)
  · rw [h.peek_eq (Edit.forall_rename htemp hq), hb.peek q htemp]

theorem commitFile_frames {parent : Path} {name : Name} {contents : Bytes}
    (hruns : ∀ id, parent ++ [name ++ ".tmp-" ++ id] ≠ [RUNS_DIR]) :
    Alone faults (fun r w' => r = .ok () → Besides (parent ++ [name]) w w') (commitFile parent name contents) w := by
  refine Prog.answers_bind (Q := fun r w' => (∃ id, r = .ok id) ∧ w' = w) ?_ (fun id w₁ h₁ => ?_) fun e w' h => ?_
  · rintro w₁ hp r w₂ ⟨-, rfl⟩
    exact ⟨trivial, ⟨r, rfl⟩, hp.eq⟩
  · cases h₁.2
    refine alone_tryCatch (Q := fun r w' => r = .ok () → Besides (parent ++ [name]) w w') ?_
      (fun a w' h => h) fun e w' => Prog.answers_bind (alone_trivial _ _) (fun _ _ _ => nofun) fun _ _ _ => nofun
    refine Prog.answers_bind writeTemp_alone (fun _ w₂ h₂ => ?_) fun e w' _ => nofun
    obtain ⟨hb, hnone⟩ := h₂ rfl
    have hname : name ++ ".tmp-" ++ id ≠ name := fun h => by
      have := congrArg String.length h
      simp only [String.length_append] at this
      have htmp : ".tmp-".length = 5 := rfl
      omega
    have ha : Tree.Apart (parent ++ [name ++ ".tmp-" ++ id]) (parent ++ [name]) := by
      constructor
      · intro h
        simp [List.prefix_append_right_inj, hname] at h
      · intro h
        simp [List.prefix_append_right_inj, hname.symm] at h
    refine Prog.answers_bind (Q := fun r w' => r = .ok () → Besides (parent ++ [name]) w w')
      (alone_attempt (fun w' h => Besides.rename h hb hnone ha ⟨by simp, hruns _⟩) fun _ => Pins.eq)
      (fun _ w₃ h₃ => ?_) fun e w' _ => nofun
    exact alone_attempt (fun w' h => (h₃ rfl).trans (.of_edit h (by simp))) fun _ => Pins.eq
  · obtain ⟨⟨_, h⟩, -⟩ := h
    cases h

end

/-! ## Recovery -/

section

variable {S : Store} {faults : Bool} {w : World}

theorem commitRecord_frames {latest : Option GenerationId} {phase : Phase} :
    Alone faults (fun r w' => r = .ok () → Besides [STATE_FILE] w w') (S.commitRecord latest phase) w :=
  commitFile_frames fun id h => by
    have hlen := congrArg String.length (List.cons.inj h).1
    simp only [String.length_append] at hlen
    have hstate : STATE_FILE.length = 10 := rfl
    have hruns : RUNS_DIR.length = 4 := rfl
    omega

theorem recoverPhase_frames {record : Record} :
    Alone faults (fun r w' => ∀ x, r = .ok x → Besides [STATE_FILE] w w') (S.recoverPhase record) w := by
  unfold Store.recoverPhase
  cases record.phase.run with
  | none => exact fun _ _ => .refl _ _
  | some run => ?_
  refine Prog.answers_bind (Q := fun _ w' => w' = w) ?_ (fun final w₁ h₁ => ?_) fun e w' _ => nofun
  · rintro w₁ hp found w₂ ⟨-, rfl⟩
    refine ⟨trivial, ?_⟩
    cases S.finalIn run found <;> exact hp.eq
  cases h₁
  split
  · exact Prog.answers_bind commitRecord_frames (fun _ w' h _ _ => h rfl) fun e w' _ => nofun
  split
  · exact Prog.answers_bind commitRecord_frames (fun _ w' h _ _ => h rfl) fun e w' _ => nofun
  · exact nofun

/-- What a `recover` that returns `Ok` has done: with nothing changed but `state.json`,
    a collection. -/
theorem recover_alone :
    Alone faults (fun r w' => ∀ x, r = .ok x → ∃ w₁ ref live, Besides [STATE_FILE] w w₁ ∧
      S.roots w₁ = some (ref, live) ∧ Cleans true ref live w₁ w' ∧ Tidy ref live w') S.recover w := by
  refine Prog.answers_bind (requireRecord_meets fun _ => trivial) (fun record w₁ h₁ => ?_) fun e w' _ => nofun
  cases h₁.1.eq
  refine Prog.answers_bind recoverPhase_frames (fun x w₁ h₁ => ?_) fun e w' _ => nofun
  cases hr : S.roots w₁ with
  | none =>
    refine Prog.answers_bind (Prog.meets_mono (fun _ _ h => h) (fun _ _ _ => trivial) (fun _ _ h => h)
      (collectGarbage_refuses hr)) (fun c w' h => absurd rfl (h.2 c)) fun e w' _ => nofun
  | some roots =>
    obtain ⟨ref, live⟩ := roots
    refine Prog.answers_bind (Prog.meets_mono (fun _ _ h => h) (fun _ _ _ => trivial) (fun _ _ h => h)
      (collectGarbage_tidies hr)) (fun c w' h _ _ => ?_) fun e w' _ => nofun
    exact ⟨w₁, ref, live, h₁ x rfl, hr, h.1, h.2.1 c rfl⟩

end

theorem not_stray_stateFile : ¬ Stray [STATE_FILE] := by
  simp only [Stray]
  decide

theorem not_below_stateFile (hp : Stray p) : ¬ [STATE_FILE] <+: p := by
  rintro ⟨q, rfl⟩
  match q, hp with
  | [], hp => exact not_stray_stateFile hp
  | [_], .inl ⟨h, _⟩ => exact absurd h (by decide)
  | [_], .inr ⟨h, _⟩ => exact absurd h (by decide)

/-- A collection does not touch what is stray. -/
theorem not_garbage_of_stray {locked : Name → Prop} (hp : Stray p) : ¬ Garbage ref live locked p := by
  intro hg
  rcases garbage_cases hg with ⟨n, q, rfl, -⟩ | ⟨m, q, rfl, hm⟩ | ⟨id, q, rfl, -, -⟩
  · cases q with
    | nil => simp [Stray, RUNS_DIR, GENERATIONS_DIR, CHECKPOINTS_DIR] at hp
    | cons _ _ => exact hp
  · cases q with
    | nil =>
      rcases hp with ⟨-, hp, -⟩ | ⟨hp, -⟩
      · exact hp hm
      · exact absurd hp (by decide)
    | cons _ _ => exact hp
  · cases q with
    | nil =>
      rcases hp with ⟨-, -, hp⟩ | ⟨hp, -⟩
      · rw [GenerationId.tryFrom_asStr] at hp
        cases hp
      · exact absurd hp (by decide)
    | cons _ _ => exact hp

/-- What is stray before a `recover` is there after it, and nothing stray is new. -/
theorem Cleans.peek_stray {w₁ : World} (h : Cleans true ref live w₁ w')
    (hb : Besides [STATE_FILE] w w₁) (hp : Stray p) :
    w'.peek p = w.peek p :=
  (h.frame p (not_garbage_of_stray hp)).trans (hb.peek p (not_below_stateFile hp))

theorem Store.Clean.not_stray (h : S.Clean ref live w) (hp : Stray p) : w.peek p = none := by
  by_contra hin
  match p, hp with
  | [n], hp =>
    rw [Stray, h.temps n hin] at hp
    cases hp
  | [d, n], .inl ⟨hd, _, hn⟩ =>
    cases hd
    obtain ⟨id, rfl, -⟩ := h.gens n hin
    rw [GenerationId.tryFrom_asStr] at hn
    cases hn
  | [d, n], .inr ⟨hd, hn⟩ =>
    cases hd
    exact hn (h.refs n hin)

/-- A collected store with nothing stray is clean. -/
theorem Tidy.clean {w₁ : World} (ht : Tidy ref live w) (h : Cleans true ref live w₁ w)
    (hr : S.roots w₁ = some (ref, live)) (hex : w₁.examined = [])
    (hstray : ∀ p, Stray p → w.peek p = none) : S.Clean ref live w where
  roots := h.roots hr
  gens n hin := by
    have hleft : ¬ Leftover n := fun hl => hin (ht.left n hl)
    cases hid : GenerationId.tryFrom n with
    | none => exact absurd (hstray [GENERATIONS_DIR, n] (.inl ⟨rfl, hleft, hid⟩)) hin
    | some id =>
      obtain rfl := GenerationId.tryFrom_eq_some.1 hid
      refine ⟨id, rfl, ?_⟩
      by_cases hmem : id ∈ ref
      · exact .inl hmem
      · -- the pin of a generation that is spared is still in place and still locked
        have hlocked := (ht.locked_iff h hex hmem).1 hin
        have hpin := ((ht.settled id hmem).resolve_left hin).1
        exact .inr ⟨hpin, by rw [h.held rfl]; exact hlocked.2⟩
  runs n hin := by
    by_contra hn
    exact hin (ht.runs n hn)
  refs n hin := by
    by_contra hn
    exact hin (hstray [CHECKPOINTS_DIR, n] (.inr ⟨rfl, hn⟩))
  temps n hin := by
    by_contra hn
    exact hin (hstray [n] (Bool.eq_true_of_not_eq_false hn))

theorem Store.Clean.of_relog {log : List (Name × Bool)} (h : S.Clean ref live (w.relog log)) :
    S.Clean ref live w where
  roots := by
    have hroots := h.roots
    exact hroots
  gens n hin := by
    obtain ⟨id, hid, hmem | ⟨hpin, hheld⟩⟩ := h.gens n hin
    · exact ⟨id, hid, .inl hmem⟩
    · rw [World.peek_relog] at hpin
      exact ⟨id, hid, .inr ⟨hpin, hheld⟩⟩
  runs n hin := h.runs n (by rwa [World.peek_relog])
  refs n hin := h.refs n (by rwa [World.peek_relog])
  temps n hin := h.temps n (by rwa [World.peek_relog])

/-- When `recover` returns `Ok` and nobody else uses the instance, every entry left is
    one the store knows just when nothing stray was there before. -/
theorem recover_leaves_clean_iff (S : Store) {w w' : World} {r : Recovery}
    (hrun : Prog.Runs (FsSem true) S.recover w (.ok r) w') :
    (∃ ref live, S.Clean ref live w') ↔ ∀ p, Stray p → w.peek p = none := by
  obtain ⟨log, hrun'⟩ := runs_relog hrun []
  obtain ⟨w₁, ref, live, hb, hr, hcleans, htidy⟩ :=
    Prog.meets_runs (pins_refl true) recover_alone hrun' r rfl
  have hpeek : ∀ p, Stray p → w'.peek p = w.peek p := fun p hp => by
    rw [← World.peek_relog w' log, hcleans.peek_stray hb hp, World.peek_relog]
  constructor
  · rintro ⟨ref', live', hclean⟩ p hp
    exact (hpeek p hp).symm.trans (hclean.not_stray hp)
  · intro hstray
    have hclean := htidy.clean hcleans hr hb.examined fun p hp => by
      rw [World.peek_relog, hpeek p hp, hstray p hp]
    exact ⟨ref, live, hclean.of_relog⟩

theorem litteredWorld_not_stray (hp : Stray p) : litteredWorld.peek p = none := by
  match p, hp with
  | [n], hp =>
    by_cases hs : n = STATE_FILE
    · exact absurd (hs ▸ hp) not_stray_stateFile
    by_cases hg : n = GENERATIONS_DIR
    · rw [hg] at hp
      exact absurd hp (by simp only [Stray]; decide)
    by_cases hr : n = RUNS_DIR
    · rw [hr] at hp
      exact absurd hp (by simp only [Stray]; decide)
    have hs' : STATE_FILE ≠ n := fun h => hs h.symm
    have hg' : GENERATIONS_DIR ≠ n := fun h => hg h.symm
    simp [litteredWorld, strayWorld, World.peek, World.get, hr, Tree.get_node_cons, hs', hg']
  | [d, n], .inl ⟨hd, hleft, hid⟩ =>
    cases hd
    have h1 : "g1" ≠ n := by
      rintro rfl
      cases hid
    have h2 : ".staging-g2" ≠ n := by
      rintro rfl
      exact hleft (by unfold Leftover; decide)
    have hg : STATE_FILE ≠ GENERATIONS_DIR := by
      decide
    have hr : GENERATIONS_DIR ≠ RUNS_DIR := by
      decide
    simp [litteredWorld, strayWorld, World.peek, World.get, hr, Tree.get_node_cons, hg, h1, h2]
  | [d, n], .inr ⟨hd, _⟩ =>
    cases hd
    rfl

theorem recover_leaves_clean_littered :
    ∃ r w', Prog.Runs (FsSem true) plainStore.recover litteredWorld (.ok r) w' ∧
      ∃ ref live, Store.Clean plainStore ref live w' := by
  have hrun := runs_exec true plainStore.recover litteredWorld
  have hok : (plainStore.recover.execFs litteredWorld).1.toOption.isSome = true := by
    decide +kernel
  generalize plainStore.recover.execFs litteredWorld = x at hrun hok
  obtain ⟨r, w'⟩ := x
  cases r with
  | error e => cases hok
  | ok r => exact ⟨r, w', hrun, (recover_leaves_clean_iff plainStore hrun).2 fun _ => litteredWorld_not_stray⟩

/-- An instance is set up and its first run begins. -/
def idleRun : List Call :=
  [.stage, .fill (generationIdOf 0) oneByteDisk, .initializeStore (generationIdOf 0), .beginRun ⟨1, 1⟩ none]

/-- A capture of the first run. -/
def smallCapture : Call :=
  .capture ⟨"r", validComponent_r⟩ (some (generationIdOf 0)) none .snapshot (fun _ => true) ⟨"7", [1], [2], []⟩

theorem reachable_killed {disciplined : Prop}
    {running : Option (Call × Prog FsOp (Option StoreError))}
    (h : (storeCalls S disciplined).Reachable ⟨w, running⟩) :
    (storeCalls S disciplined).Reachable ⟨{ w with paused := false }, none⟩ :=
  h.next (.crash rfl)

/-- The first run is killed after ten operations of the capture. -/
def killedCapture : World :=
  { ((smallCapture.prog plainStore).execFor FsOp.answer 10 (execCalls plainStore idleRun emptyWorld)).2
    with paused := false }

theorem reachable_killedCapture : (storeCalls plainStore True).Reachable ⟨killedCapture, none⟩ := by
  have hidle : (storeCalls plainStore True).Reachable ⟨execCalls plainStore idleRun emptyWorld, none⟩ :=
    reachable_execCalls rfl rfl (by simp [idleRun, storeCalls, Call.Disciplined])
      (.init ⟨emptyWorld_empty, rfl, rfl, rfl⟩)
  have hcapture : smallCapture.Disciplined plainStore (execCalls plainStore idleRun emptyWorld) := by
    generalize execCalls plainStore idleRun emptyWorld = w
    simp [smallCapture, Call.Disciplined]
  have hstart := hidle.next (.start (c := smallCapture) fun _ => hcapture)
  exact reachable_killed (Calls.reachable_partial hstart (Prog.execFor_partial (answer_sem true) 10 _ _))

/-- The directory the capture wrote to is there after the instance has recovered. -/
theorem capture_may_leave_stray :
    ∃ w r w', (storeCalls plainStore True).Reachable ⟨w, none⟩ ∧
      Prog.Runs (FsSem true) plainStore.recover w (.ok r) w' ∧
      ¬ ∃ ref live, Store.Clean plainStore ref live w' := by
  have hrun := runs_exec true plainStore.recover killedCapture
  have hok : (plainStore.recover.execFs killedCapture).1.toOption.isSome = true := by
    decide +kernel
  have hleft : (plainStore.recover.execFs killedCapture).2.peek [GENERATIONS_DIR, "..staging-gg.tmp.7"] ≠ none := by
    decide +kernel
  have hx := reachable_killedCapture
  generalize killedCapture = w at hrun hok hleft hx
  generalize plainStore.recover.execFs w = x at hrun hok hleft
  obtain ⟨r, w'⟩ := x
  cases r with
  | error e => cases hok
  | ok r =>
    refine ⟨w, r, w', hx, hrun, fun ⟨ref, live, hclean⟩ => ?_⟩
    obtain ⟨id, hid, -⟩ := hclean.gens _ hleft
    have hnone : GenerationId.tryFrom "..staging-gg.tmp.7" = none := by
      decide
    rw [← hid, GenerationId.tryFrom_asStr] at hnone
    cases hnone

end Lnx
