import Lnx.Lib.Machine
import Lnx.Store.ExportTotal
import Lnx.Store.System

/-!
# Pinning a generation against garbage collection

Any number of processes pin and export one generation while garbage collection
tries to remove it. A pinner opens `.pin`, locks it shared and only then reads
the generation; the collector locks it exclusively before it renames the
generation away. Each of these is one step, in any order.

`.pin` is one file for good: generation ids are not used twice, so once the
directory has been renamed away nothing stands in its place again.

* `RaceInv`: an exclusive lock excludes shared ones, so a generation someone has
  pinned is not renamed.
* `pinned_generation_stays`: the result, over every interleaving.
-/

namespace Lnx

open List

/-! ## The processes -/

/-- Where a pinning process is. -/
inductive Pinner : Type 1
  /-- not in `pin`, and holding no `Pin` -/
  | idle
  /-- `.pin` is open -/
  | opened
  /-- and locked shared -/
  | locked
  /-- `pin` has returned `Ok` -/
  | pinned (G : Generation)
  /-- `export` of the pin is in progress, into the new directory `w` -/
  | exporting (G : Generation) (p : Prog CopyOp (Except StoreError Unit)) (w : World)
  /-- it has returned -/
  | exported (G : Generation) (r : Except StoreError Unit) (w : World)
  /-- `pin` has returned an error -/
  | failed

/-- Where the collector is with the generation. -/
inductive Collector
  | idle
  /-- `.pin` is open -/
  | opened
  /-- there is no `.pin` -/
  | bare
  /-- `.pin` is locked exclusively -/
  | locked
  /-- and the generation is renamed to its trash directory -/
  | renamed
  /-- and `.pin` is unlocked -/
  | unlocked

/-- Whether a process holds a shared lock on `.pin`. -/
def Pinner.Shared : Pinner → Prop
  | idle | opened | failed => False
  | locked | pinned _ | exporting _ _ _ | exported _ _ _ => True

/-- Whether a process holds a `Pin` of the generation `G`. -/
def Pinner.Holds (G : Generation) : Pinner → Prop
  | pinned G' | exporting G' _ _ | exported G' _ _ => G' = G
  | idle | opened | locked | failed => False

def Collector.Exclusive : Collector → Prop
  | locked | renamed => True
  | idle | opened | bare | unlocked => False

/-- What stands at the generation's directory and at its trash directory, and
    where everyone is. -/
structure Race (P : Type) : Type 1 where
  dir : Option Dir
  trash : Option Dir
  pins : P → Pinner
  gc : Collector

namespace Race

variable {P : Type} [DecidableEq P]

/-- The state after process `i` has moved. -/
def move (s : Race P) (i : P) (a : Pinner) : Race P := { s with pins := Function.update s.pins i a }

/-- One step of a process or of the collector. -/
inductive Next (S : Store) (id : GenerationId) (faults : Bool) : Race P → Race P → Prop
  /-- `File::open(dir.join(PIN))` -/
  | openPin {s : Race P} {i : P} {t : Dir} : s.pins i = .idle → lookBelow s.dir [PIN] = .ok t →
      Next S id faults s (s.move i .opened)
  | openFails {s : Race P} {i : P} {e : IoError} : s.pins i = .idle →
      lookBelow s.dir [PIN] = .error e → Next S id faults s (s.move i .failed)
  /-- `flock(LOCK_SH)`, which waits for an exclusive lock to go -/
  | lock {s : Race P} {i : P} : s.pins i = .opened → ¬ s.gc.Exclusive →
      Next S id faults s (s.move i .locked)
  | lockFails {s : Race P} {i : P} : s.pins i = .opened → Next S id faults s (s.move i .failed)
  /-- `self.generation(id)` -/
  | read {s : Race P} {i : P} {G : Generation} : s.pins i = .locked →
      S.checkGeneration id (lookBelow s.dir []) = .ok G → Next S id faults s (s.move i (.pinned G))
  | readFails {s : Race P} {i : P} {e : StoreError} : s.pins i = .locked →
      S.checkGeneration id (lookBelow s.dir []) = .error e → Next S id faults s (s.move i .failed)
  /-- `Store::export` of the pin, into a new directory -/
  | export {s : Race P} {i : P} {G : Generation} {w : World} : s.pins i = .pinned G → w.Empty →
      Next S id faults s (s.move i (.exporting G (stepwise.export S G) w))
  | copy {s : Race P} {i : P} {G : Generation} {β : Type} {o : CopyOp β}
      {k : β → Prog CopyOp (Except StoreError Unit)} {r : β} {w w' : World} :
      s.pins i = .exporting G (.op o k) w → CopySem faults β o (s.dir, w) r (s.dir, w') →
      Next S id faults s (s.move i (.exporting G (k r) w'))
  | exportReturns {s : Race P} {i : P} {G : Generation} {r : Except StoreError Unit} {w : World} :
      s.pins i = .exporting G (.ret r) w → Next S id faults s (s.move i (.exported G r w))
  /-- the caller goes on to use the pin again -/
  | again {s : Race P} {i : P} {G : Generation} {r : Except StoreError Unit} {w : World} :
      s.pins i = .exported G r w → Next S id faults s (s.move i (.pinned G))
  /-- the pin is dropped, or the process dies -/
  | drop {s : Race P} {i : P} : Next S id faults s (s.move i .idle)
  /-- the collector's `File::open` -/
  | gcOpen {s : Race P} {t : Dir} : s.gc = .idle → lookBelow s.dir [PIN] = .ok t →
      Next S id faults s { s with gc := .opened }
  | gcNoPin {s : Race P} : s.gc = .idle → lookBelow s.dir [PIN] = .error .notFound →
      Next S id faults s { s with gc := .bare }
  /-- `flock(LOCK_EX | LOCK_NB)` -/
  | gcLock {s : Race P} : s.gc = .opened → (∀ i, ¬ (s.pins i).Shared) →
      Next S id faults s { s with gc := .locked }
  | gcBusy {s : Race P} {i : P} : s.gc = .opened → (s.pins i).Shared →
      Next S id faults s { s with gc := .idle }
  /-- `fs::rename` to the trash directory -/
  | gcRename {s : Race P} {t : Dir} : s.gc = .locked → s.dir = some t →
      Next S id faults s { s with dir := none, trash := some t, gc := .renamed }
  | gcRenameBare {s : Race P} {t : Dir} : s.gc = .bare → s.dir = some t →
      Next S id faults s { s with dir := none, trash := some t, gc := .unlocked }
  /-- `drop(pin)` -/
  | gcUnlock {s : Race P} : s.gc = .renamed → Next S id faults s { s with gc := .unlocked }
  /-- a part of `remove_path_if_exists(&trash)` -/
  | gcDelete {s : Race P} {t t' : Dir} : s.gc = .unlocked → s.trash = some t → Prunes t' t →
      Next S id faults s { s with trash := some t' }
  | gcDeleted {s : Race P} : s.gc = .unlocked → Next S id faults s { s with trash := none, gc := .idle }
  /-- a step of the collector fails, or its process dies; another may follow -/
  | gcStops {s : Race P} : Next S id faults s { s with gc := .idle }

end Race

/-- The race over the generation `id`, whose directory is `t` at the start. -/
def race (P : Type) [DecidableEq P] (S : Store) (id : GenerationId) (faults : Bool) (t : Dir) :
    Machine (Race P) where
  init s := s.dir = some t ∧ (∀ i, s.pins i = .idle) ∧ s.gc = .idle
  next := Race.Next S id faults

/-! ## What a pin protects -/

section

variable {P : Type} {S : Store} {id : GenerationId} {faults : Bool} {t : Dir}

/-- What an export of a pin may return, and with what in the new directory. -/
def Outcome (S : Store) (faults : Bool) (t : Dir) (G : Generation) (r : Except StoreError Unit)
    (w : World) : Prop :=
  (r = .ok () → Exported S faults t G w) ∧
    (faults = false → (∃ b, t.get [PIN] = some (.leaf (.file b))) → r = .ok ())

variable {G : Generation}

/-- `export` of a generation that stays `t`, from its start to its end. -/
theorem export_outcome {w : World} (hG : S.checkGeneration id (.ok t) = .ok G) (hd : t.Distinct)
    (h₀ : w.Empty) :
    Prog.Answers (CopySem faults) (fun s s' => s' = s) (fun _ _ => True)
      (fun r s => Outcome S faults t G r s.2) (stepwise.export S G) (some t, w) := by
  have hcopy : Prog.Answers (FsSem faults) (fun w w' => w' = w) (fun _ _ => True)
      (fun r w' => Outcome S faults t G r w') ((fixed t).export S G) w := by
    have hexp : Prog.Answers (FsSem faults) (fun w w' => w' = w) (fun _ _ => True)
        (fun r w' => r = .ok () → Exported S faults t G w') ((fixed t).export S G) w :=
      Prog.meets_mono (fun _ _ h => h) (fun _ _ _ => trivial) (fun _ _ h => h)
        (export_answers hG hd h₀)
    by_cases hpin : faults = false ∧ ∃ b, t.get [PIN] = some (.leaf (.file b))
    · obtain ⟨rfl, hb⟩ := hpin
      refine Prog.meets_post (Prog.meets_and hexp (export_works hG hb hd h₀)) ?_
      rintro r w' ⟨hok, _, rfl, -⟩
      exact ⟨hok, fun _ _ => rfl⟩
    · exact Prog.meets_post hexp fun r w' hok => ⟨hok, fun hf hb => absurd ⟨hf, hb⟩ hpin⟩
  exact Prog.meets_mono (fun _ _ h => h) (fun _ _ _ => trivial) (fun _ _ h => h.2)
    (export_actsAs S G (fun _ => trivial) hcopy)

/-- What holds of a process, with `dir` at the generation's directory. -/
def PinnerOk (S : Store) (id : GenerationId) (faults : Bool) (t : Dir) (dir : Option Dir) :
    Pinner → Prop
  | .idle | .failed => True
  | .opened | .locked => t.get [PIN] ≠ none
  | .pinned G => t.get [PIN] ≠ none ∧ dir = some t ∧ S.checkGeneration id (.ok t) = .ok G
  | .exporting G p w => (t.get [PIN] ≠ none ∧ dir = some t ∧ S.checkGeneration id (.ok t) = .ok G) ∧
      p.Meets (CopySem faults) (fun s s' => s' = s) (fun _ _ => True)
        (fun r s => Outcome S faults t G r s.2) (some t, w)
  | .exported G r w => (t.get [PIN] ≠ none ∧ dir = some t ∧ S.checkGeneration id (.ok t) = .ok G) ∧
      Outcome S faults t G r w

namespace PinnerOk

variable {dir : Option Dir} {a : Pinner}

section

variable (h : PinnerOk S id faults t dir a)

include h

/-- A process without the lock has not read the generation. -/
theorem without (ha : ¬ a.Shared) (dir' : Option Dir) : PinnerOk S id faults t dir' a := by
  cases a with
  | idle | failed => trivial
  | opened => exact h
  | locked | pinned | exporting | exported => exact absurd trivial ha

/-- Nobody has a lock on a pin that is not there. -/
theorem not_shared (hpin : t.get [PIN] = none) : ¬ a.Shared := by
  intro ha
  cases a with
  | idle | failed | opened => exact ha
  | locked => exact h hpin
  | pinned => exact h.1 hpin
  | exporting | exported => exact h.1.1 hpin

/-- Whoever holds a pin holds the generation in place. -/
theorem holds (ha : a.Holds G) : dir = some t ∧ S.checkGeneration id (.ok t) = .ok G := by
  cases a with
  | idle | failed | opened | locked => exact ha.elim
  | pinned G' =>
    cases (ha : G' = G)
    exact h.2
  | exporting G' | exported G' =>
    cases (ha : G' = G)
    exact h.1.2

end

end PinnerOk

/-- What holds in every state of the race. -/
structure RaceInv (S : Store) (id : GenerationId) (faults : Bool) (t : Dir) (s : Race P) : Prop where
  dir : s.dir = some t ∨ s.dir = none
  excl : s.gc.Exclusive → ∀ i, ¬ (s.pins i).Shared
  bare : s.gc = .bare → s.dir = some t → t.get [PIN] = none
  pins : ∀ i, PinnerOk S id faults t s.dir (s.pins i)

namespace RaceInv

variable {s s' : Race P} {i : P}

section

variable (h : RaceInv S id faults t s)

include h

theorem move [DecidableEq P] {a : Pinner} (ha : PinnerOk S id faults t s.dir a)
    (hx : s.gc.Exclusive → ¬ a.Shared) : RaceInv S id faults t (s.move i a) where
  dir := h.dir
  excl hg := forall_update (P := fun _ (a : Pinner) => ¬ a.Shared) (fun j _ => h.excl hg j) (hx hg)
  bare := h.bare
  pins := forall_update (P := fun _ a => PinnerOk S id faults t s.dir a) (fun j _ => h.pins j) ha

/-- A process that has the lock goes on. -/
theorem goOn [DecidableEq P] (hi : (s.pins i).Shared) {a : Pinner}
    (ha : PinnerOk S id faults t s.dir a) : RaceInv S id faults t (s.move i a) :=
  h.move ha fun hx => absurd hi (h.excl hx i)

variable {gc : Collector} {trash : Option Dir}

/-- The collector moves, and renames nothing. -/
theorem gcMove (hx : gc.Exclusive → ∀ i, ¬ (s.pins i).Shared)
    (hb : gc = .bare → s.dir = some t → t.get [PIN] = none) :
    RaceInv S id faults t { s with trash := trash, gc := gc } := ⟨h.dir, hx, hb, h.pins⟩

/-- The collector renames the generation, while nobody has a shared lock. -/
theorem gcMoveAway (hb : gc ≠ .bare) (hn : ∀ i, ¬ (s.pins i).Shared) :
    RaceInv S id faults t { s with dir := none, trash := trash, gc := gc } :=
  ⟨.inr rfl, fun _ => hn, fun h => absurd h hb, fun i => (h.pins i).without (hn i) none⟩

theorem pin_ne_none {u : Dir} (hu : lookBelow s.dir [PIN] = .ok u) : t.get [PIN] ≠ none := by
  rcases h.dir with hs | hs
  · rw [hs] at hu
    simp [resolve_eq_ok.1 hu]
  · rw [hs] at hu
    cases hu

end

theorem step [DecidableEq P] (hd : t.Distinct) (h : RaceInv S id faults t s) (hn : Race.Next S id faults s s') :
    RaceInv S id faults t s' := by
  have hat : ∀ {i a}, s.pins i = a → PinnerOk S id faults t s.dir a := fun hi => hi ▸ h.pins _
  cases hn with
  | openPin hi hl => exact h.move (h.pin_ne_none hl) fun _ => not_false
  | openFails hi hl | lockFails hi | drop => exact h.move trivial fun _ => not_false
  | lock hi hg =>
    have hok := hat hi
    exact h.move hok fun hx => absurd hx hg
  | read hi hG =>
    have hok := hat hi
    refine h.goOn (by rw [hi]; trivial) ⟨hok, ?_⟩
    rcases h.dir with hs | hs
    · rw [hs] at hG
      exact ⟨hs, hG⟩
    · rw [hs] at hG
      obtain ⟨_, _, _, hnone, -⟩ := Store.checkGeneration_eq_ok.1 hG
      cases hnone
  | readFails hi _ => exact h.goOn (by rw [hi]; trivial) trivial
  | «export» hi h₀ =>
    have hok := hat hi
    exact h.goOn (by rw [hi]; trivial) ⟨hok, export_outcome hok.2.2 hd h₀⟩
  | copy hi hsem =>
    have hok := hat hi
    rw [hok.1.2.1] at hsem
    exact h.goOn (by rw [hi]; trivial) ⟨hok.1, (hok.2 _ rfl _ _ hsem).2⟩
  | exportReturns hi =>
    have hok := hat hi
    exact h.goOn (by rw [hi]; trivial) hok
  | again hi =>
    have hok := hat hi
    exact h.goOn (by rw [hi]; trivial) hok.1
  | gcOpen _ _ | gcBusy _ _ | gcUnlock _ | gcDeleted _ | gcStops => exact h.gcMove nofun nofun
  | gcNoPin _ hl =>
    refine h.gcMove nofun fun _ hs => ?_
    rw [hs] at hl
    cases hp : t.get [PIN] with
    | none => rfl
    | some u =>
      rw [lookBelow, resolve_eq_ok.2 hp] at hl
      cases hl
  | gcLock _ hfree => exact h.gcMove (fun _ => hfree) nofun
  | gcRename hg _ => exact h.gcMoveAway nofun (h.excl (by rw [hg]; trivial))
  | gcRenameBare hg hs =>
    have hst : s.dir = some t := h.dir.resolve_right (by rw [hs]; simp)
    exact h.gcMoveAway nofun fun i => (h.pins i).not_shared (h.bare hg hst)
  | gcDelete hg _ _ => exact h.gcMove (by rw [hg]; exact nofun) (by rw [hg]; exact nofun)

end RaceInv

variable [DecidableEq P]

theorem race_inv (hd : t.Distinct) {s : Race P} (hs : (race P S id faults t).Reachable s) :
    RaceInv S id faults t s := by
  refine Machine.reachable_inv ?_ (fun s s' _ h hn => h.step hd hn) hs
  rintro s ⟨hdir, hidle, hgc⟩
  exact ⟨.inl hdir, by rw [hgc]; exact nofun, by rw [hgc]; exact nofun, fun i => by
    rw [hidle i]
    trivial⟩

/-- A generation renamed away does not come back. -/
theorem Race.Next.dir_none {s s' : Race P} (h : Race.Next S id faults s s') (hs : s.dir = none) :
    s'.dir = none := by
  cases h <;> first | exact hs | rfl

/-- Any number of processes pin and export a generation while it may be garbage
    collected, in any interleaving. As long as a `Pin` is held the generation is in
    place, as it was; an export that returns `Ok` has made a store whose latest
    generation has its files, byte for byte; without faults every export returns `Ok`.
    Once the generation has been renamed away, neither opening `.pin` nor the
    re-reading succeeds, and `pin` never returns `Ok`. -/
theorem pinned_generation_stays (hd : t.Distinct) {s : Race P}
    (hs : (race P S id faults t).Reachable s) :
    (∀ i G, (s.pins i).Holds G → s.dir = some t ∧ S.checkGeneration id (.ok t) = .ok G) ∧
    (∀ i G w, s.pins i = .exported G (.ok ()) w →
      S.recordOf w = some ⟨RECORD_VERSION, some id, .stopped⟩ ∧
      ∃ u, w.get (generationDir id) = some u ∧ S.checkGeneration id (.ok u) = .ok G ∧
        ∀ name q, u.peek (name :: q) =
          if name ∈ G.manifest.files.map Prod.fst ++ [MANIFEST, PIN, HOST_SHARE_STATE]
          then t.peek (name :: q) else none) ∧
    (faults = false → (∃ b, t.get [PIN] = some (.leaf (.file b))) →
      ∀ i G r w, s.pins i = .exported G r w → r = .ok ()) ∧
    (s.dir ≠ some t → ∀ s', (race P S id faults t).Later s s' →
      (∃ e, lookBelow s'.dir [PIN] = .error e) ∧
      (∃ e, S.checkGeneration id (lookBelow s'.dir []) = .error e) ∧
      ∀ i G, ¬ (s'.pins i).Holds G) := by
  have hinv := race_inv hd hs
  refine ⟨fun i G hi => (hinv.pins i).holds hi, fun i G w hi => ?_, fun hf hb i G r w hi => ?_,
    fun hne s' hl => ?_⟩
  · have hok := hinv.pins i
    rw [hi] at hok
    obtain ⟨⟨-, -, hG⟩, hout, -⟩ := hok
    have hexp := hout rfl
    obtain rfl := Store.checkGeneration_id hG
    refine ⟨hexp.record, ?_⟩
    obtain ⟨u, hu, -⟩ := Option.map_eq_some_iff.1 hexp.copy.dir
    refine ⟨u, hu, hexp.copy.complete hG hu, fun name q => ?_⟩
    rw [← World.peek_append (generationDir_ne_nil _) hu]
    split_ifs with hname
    · refine hexp.copy.entry name ?_ q
      simp only [mem_append, mem_cons] at hname ⊢
      tauto
    · refine hexp.copy.blank name (fun h => hname ?_) (fun h => hname ?_) q
      · simp only [mem_append, mem_cons] at h ⊢
        tauto
      · simp [h]
  · have hok := hinv.pins i
    rw [hi] at hok
    exact hok.2.2 hf hb
  · have hnone : s'.dir = none := Machine.later_inv (I := fun s => s.dir = none)
      (fun _ _ _ h hn => Race.Next.dir_none hn h) hs (hinv.dir.resolve_left hne) hl
    have hinv' := race_inv hd (hs.later hl)
    refine ⟨⟨_, by rw [hnone]; rfl⟩, ?_, fun i G hi => ?_⟩
    · cases hc : S.checkGeneration id (lookBelow s'.dir []) with
      | error e => exact ⟨e, rfl⟩
      | ok G =>
        rw [hnone] at hc
        obtain ⟨_, _, _, h, -⟩ := Store.checkGeneration_eq_ok.1 hc
        cases h
    · rw [((hinv'.pins i).holds hi).1] at hnone
      cases hnone

end

/-- A generation that holds a disk of one byte. -/
def oneByteManifest : Manifest := ⟨1, ⟨"g", by decide⟩, none, .image, 0, [(ROOTFS, 1)]⟩

def oneByteGeneration : Dir :=
  .node [(ROOTFS, .leaf (.file [7])),
    (MANIFEST, .leaf (.file (plainStore.manifestJson.toVecPretty oneByteManifest))),
    (PIN, .leaf (.file []))]

def onePinned : Generation := ⟨generationDir ⟨"g", by decide⟩, oneByteManifest⟩

/-- One process has pinned it. -/
def pinnedRace : Race Unit :=
  (((⟨some oneByteGeneration, none, fun _ => .idle, .idle⟩ : Race Unit).move () .opened).move ()
    .locked).move () (.pinned onePinned)

/-- A pin of a generation with a disk of one byte holds it in place while it is exported,
    after the collector has found `.pin` locked. -/
theorem pinned_generation_stays_oneByte :
    let s := pinnedRace.move () (.exporting onePinned (stepwise.export plainStore onePinned) emptyWorld)
    s.dir = some oneByteGeneration ∧
      plainStore.checkGeneration ⟨"g", by decide⟩ (.ok oneByteGeneration) = .ok onePinned := by
  have hcheck : plainStore.checkGeneration ⟨"g", by decide⟩ (.ok oneByteGeneration) = .ok onePinned := by
    decide +kernel
  have hdistinct : oneByteGeneration.Distinct := by
    refine .node (by decide) ?_
    simp only [mem_cons, not_mem_nil, or_false]
    rintro e (rfl | rfl | rfl) <;> exact .leaf _
  have hpin : lookBelow (some oneByteGeneration) [PIN] = .ok (.leaf (.file [])) := rfl
  have hreach : (race Unit plainStore ⟨"g", by decide⟩ false oneByteGeneration).Reachable
      pinnedRace := by
    refine .step (.step (.step (.init ⟨rfl, fun _ => rfl, rfl⟩) (.openPin rfl hpin)) (.lock rfl ?_))
      (.read rfl hcheck)
    exact not_false
  have hbusy := (hreach.step (.gcOpen rfl hpin)).step (.gcBusy (i := ()) rfl trivial)
  exact (pinned_generation_stays hdistinct (hbusy.step (.export rfl emptyWorld_empty))).1 () _ rfl

end Lnx
