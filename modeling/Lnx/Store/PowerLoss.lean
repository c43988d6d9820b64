import Lnx.Store.Export
import Lnx.Store.System

/-!
# Power loss

A file's bytes are on stable storage once the file is synced, the entries of a
directory once the directory is synced. Of what is not there yet, a power loss
leaves any part, in any combination (`Survives`).

* `consistent_iff`: what is left of `state.json` names only generations that are
  left whole, if and only if the entry `generations` itself is on stable storage
  or no record that may be left names a generation.
* `durableCalls_keeps`: the operations keep all this up over whole runs, where
  no file system call fails.
* `survivor_since`: a commit that returned is not lost.
-/

namespace Lnx

open Calls Option Lnx.Tree List World Assoc

/-! ## What a power loss leaves -/

/-- What may be found in place of an entry that was `o`. -/
def Old.Left : Old → Option Dir → Prop
  | .absent, r => r = none
  | .file b synced, r => ∃ b', (synced = true → b' = b) ∧ r = some (.leaf (.file b'))
  | .other, _ => True

mutual

/-- A power loss may leave `s` of what stands at `p`. -/
inductive Remains (d : Disk) : Path → Dir → Dir → Prop
  | file {p : Path} {b b' : Bytes} (h : d.data p = true → b' = b) :
      Remains d p (.leaf (.file b)) (.leaf (.file b'))
  | symlink {p : Path} {target : String} :
      Remains d p (.leaf (.symlink target)) (.leaf (.symlink target))
  | node {p : Path} {es es' : List (Name × Dir)}
      (h : ∀ n, EntryRemains d (p ++ [n]) (get n es) (get n es')) :
      Remains d p (.node es) (.node es')

/-- A power loss may leave `r` of the entry at `p`: what is left of what it is now,
    or of what it was at any time since its directory was synced. -/
inductive EntryRemains (d : Disk) : Path → Option Dir → Option Dir → Prop
  | absent {p : Path} : EntryRemains d p none none
  | present {p : Path} {t s : Dir} (h : Remains d p t s) : EntryRemains d p (some t) (some s)
  | old {p : Path} {cur r : Option Dir} {o : Old} (ho : o ∈ d.old p) (h : o.Left r) :
      EntryRemains d p cur r

end

/-- A power loss may leave `s` of the instance directory, run directories apart. -/
def Survives (w : World) (s : Dir) : Prop := Remains w.disk [] w.top s

/-- Nothing need be lost. -/
theorem remains_refl (d : Disk) (p : Path) (t : Dir) : Remains d p t t := by
  induction t using induct generalizing p with
  | leaf a =>
    cases a with
    | file b => exact .file fun _ => rfl
    | symlink target => exact .symlink
  | node es ih =>
    refine .node fun n => ?_
    cases hn : get n es with
    | none => exact .absent
    | some c => exact .present (ih _ (mem_of_get hn) _)

variable {p : Path} {r : Option Dir} {s : Dir}

theorem EntryRemains.of_synced {d : Disk} {t : Dir} (h : EntryRemains d p (some t) r)
    (ho : d.old p = []) : ∃ s, r = some s ∧ Remains d p t s := by
  cases h with
  | present h => exact ⟨_, rfl, h⟩
  | old hmem _ => rw [ho] at hmem; cases hmem

theorem EntryRemains.none_of_synced {d : Disk} (h : EntryRemains d p none r) (ho : d.old p = []) :
    r = none := by
  cases h with
  | absent => rfl
  | old hmem _ => rw [ho] at hmem; cases hmem

/-- A tree that is on stable storage is left as it is. -/
theorem Remains.peek_eq {w : World} {t : Dir} (h : Remains w.disk p t s) (hs : TreeSynced p t w)
    (q : Path) : s.peek q = t.peek q := by
  induction t using induct generalizing p s q with
  | leaf a =>
    cases h with
    | @file _ b b' h =>
      have hdata := hs.data [] b rfl
      rw [append_nil] at hdata
      rw [h hdata]
    | symlink => rfl
  | node es ih =>
    cases h with
    | @node _ _ es' h =>
    cases q with
    | nil => rfl
    | cons n q =>
      have hold : w.disk.old (p ++ [n]) = [] := by
        have := hs.entries [] n rfl
        rwa [append_nil] at this
      have hn := h n
      rw [peek_node_cons, peek_node_cons]
      cases hc : get n es with
      | none =>
        rw [hc] at hn
        rw [hn.none_of_synced hold]
      | some c =>
        rw [hc] at hn
        obtain ⟨c', hc', hr⟩ := hn.of_synced hold
        rw [hc']
        refine ih _ (mem_of_get hc) hr ⟨fun x m hx => ?_, fun x b hx => ?_⟩ q
        · have := hs.entries (n :: x) m (by rw [peek_node_cons, hc]; exact hx)
          simpa using this
        · have := hs.data (n :: x) b (by rw [peek_node_cons, hc]; exact hx)
          simpa using this

/-- What is left of a top-level entry. -/
theorem Survives.entry {w : World} (h : Survives w s) {n : Name} (hn : n ≠ RUNS_DIR) :
    EntryRemains w.disk [n] (w.get [n]) (s.get [n]) := by
  have hget : w.get [n] = w.top.get [n] := by simp [World.get, hn]
  rw [hget]
  unfold Survives at h
  generalize w.top = top at h ⊢
  cases h with
  | file _ | symlink => exact .absent
  | @node _ es es' h =>
    have hs := h n
    rw [get_node_cons, get_node_cons]
    cases hc : get n es <;> cases hc' : get n es' <;> rw [hc, hc'] at hs <;> exact hs

/-! ## The record -/

section

variable {S : Store} {w : World} {s : Dir}

/-- Of `state.json` a power loss leaves exactly one of its candidates. -/
theorem Survives.state (h : Survives w s) (hs : ∀ o ∈ w.candidates, Sturdy S w o) :
    (.absent ∈ w.candidates ∧ s.get [STATE_FILE] = none) ∨
      ∃ b, .file b true ∈ w.candidates ∧ s.get [STATE_FILE] = some (.leaf (.file b)) := by
  have hentry := h.entry (n := STATE_FILE) (by decide)
  have hcur := hs _ mem_cons_self
  have hmem : w.binding [STATE_FILE] ∈ w.candidates := mem_cons_self
  unfold binding at hcur hmem
  generalize w.get [STATE_FILE] = now at hentry hcur hmem
  generalize s.get [STATE_FILE] = r at hentry ⊢
  cases hentry with
  | absent => exact .inl ⟨hmem, rfl⟩
  | @present _ t s' hrem =>
    cases hrem with
    | @file _ b b' hb =>
      rw [hb hcur.1]
      rw [show w.disk.data [STATE_FILE] = true from hcur.1] at hmem
      exact .inr ⟨b, hmem, rfl⟩
    | symlink | node _ => exact hcur.elim
  | @old _ _ _ o ho hl =>
    have hmem' : o ∈ w.candidates := mem_cons_of_mem _ ho
    have hst := hs o hmem'
    cases o with
    | absent => exact .inl ⟨hmem', hl⟩
    | other => exact hst.elim
    | file b synced =>
      obtain ⟨b', hb, rfl⟩ := hl
      obtain rfl : synced = true := hst.1
      rw [hb rfl]
      exact .inr ⟨b, hmem', rfl⟩

/-- What is left of `state.json`, if anything, parses and names only generations
    that are left complete and with the bytes they were published with. -/
def Consistent (S : Store) (published : GenerationId → Option Dir) (w : World) : Prop :=
  ∀ s, Survives w s → ∀ t, s.get [STATE_FILE] = some t →
    ∃ record, S.readRecord (.ok t) = .ok (some record) ∧
      ∀ g, record.latest = some g → ∃ u v, published g = some u ∧
        s.get (generationDir g) = some v ∧ (∀ q, v.peek q = u.peek q) ∧
        ∃ G, S.checkGeneration g (.ok v) = .ok G

/-- The entry `generations` of the instance directory is on stable storage, or no
    record that may be left names a generation. -/
def Anchored (S : Store) (w : World) : Prop :=
  w.disk.old [GENERATIONS_DIR] = [] ∨
    ∀ b synced record, .file b synced ∈ w.candidates →
      S.readRecord (.ok (.leaf (.file b))) = .ok (some record) → record.latest = none

/-- A generation that is in place for good, under an entry that is, is left whole. -/
theorem Survives.generation (h : Survives w s) {g : GenerationId} {u : Dir}
    (hu : w.get (generationDir g) = some u) (htop : w.disk.old [GENERATIONS_DIR] = [])
    (hold : w.disk.old (generationDir g) = []) (hs : Synced w (generationDir g)) :
    ∃ v, s.get (generationDir g) = some v ∧ ∀ q, v.peek q = u.peek q := by
  have hentry := h.entry (n := GENERATIONS_DIR) (by decide)
  have happ : w.get (generationDir g) = (w.get [GENERATIONS_DIR]).bind fun d => d.get [g.asStr] :=
    get_append (p := [GENERATIONS_DIR]) (by simp) [g.asStr]
  have happ' : s.get (generationDir g) = (s.get [GENERATIONS_DIR]).bind fun d => d.get [g.asStr] :=
    get_append s [GENERATIONS_DIR] [g.asStr]
  rw [hu] at happ
  obtain ⟨d, hd, hdu⟩ := bind_eq_some_iff.1 happ.symm
  rw [hd] at hentry
  obtain ⟨d', hd', hrem⟩ := hentry.of_synced htop
  rw [happ', hd']
  cases hrem with
  | file _ | symlink => cases hdu
  | @node _ es es' hes =>
    have hg := hes g.asStr
    rw [get_node_cons] at hdu
    obtain ⟨c, hc, hcu⟩ := bind_eq_some_iff.1 hdu
    cases hcu
    rw [hc] at hg
    obtain ⟨v, hv, hrem⟩ := hg.of_synced hold
    refine ⟨v, ?_, fun q => hrem.peek_eq ⟨fun x n hx => ?_, fun x b hx => ?_⟩ q⟩
    · show (Tree.node es').get [g.asStr] = some v
      rw [get_node_cons, hv]
      rfl
    · exact hs.entries x n ((peek_append (generationDir_ne_nil g) hu x).trans hx)
    · exact hs.data x b ((peek_append (generationDir_ne_nil g) hu x).trans hx)

/-- Where the entry `generations` may be lost, a power loss may leave any candidate
    of `state.json` and no generation. -/
theorem survives_without_generations {es : List (Name × Dir)} (htop : w.top = .node es)
    (habsent : .absent ∈ w.disk.old [GENERATIONS_DIR]) {b : Bytes} {synced : Bool}
    (hb : .file b synced ∈ w.candidates) :
    Survives w (.node ((STATE_FILE, .leaf (.file b)) :: del GENERATIONS_DIR es)) := by
  unfold Survives
  rw [htop]
  refine .node fun n => ?_
  by_cases hn : n = STATE_FILE
  · subst hn
    have hget : get STATE_FILE ((STATE_FILE, Tree.leaf (.file b)) ::
        Assoc.del GENERATIONS_DIR es) = some (.leaf (.file b)) := by simp
    rcases mem_cons.1 hb with hcur | hold
    · have hes : get STATE_FILE es = some (.leaf (.file b)) := by
        have hbind : w.get [STATE_FILE] = some (.leaf (.file b)) := by
          unfold binding at hcur
          split at hcur <;> cases hcur
          assumption
        have hs : ¬ STATE_FILE = RUNS_DIR := by decide
        simp only [World.get, hs, ite_false, htop, Tree.get_node_cons] at hbind
        obtain ⟨c, hc, hcb⟩ := Option.bind_eq_some_iff.1 hbind
        cases hcb
        exact hc
      rw [hes]
      exact .present (remains_refl _ _ _)
    · exact .old hold ⟨b, fun _ => rfl, rfl⟩
  · have hget : get n ((STATE_FILE, Tree.leaf (.file b)) :: del GENERATIONS_DIR es) =
        Assoc.get n (Assoc.del GENERATIONS_DIR es) := by simp [Ne.symm hn]
    rw [hget]
    by_cases hg : n = GENERATIONS_DIR
    · subst hg
      rw [Assoc.get_del_self]
      exact .old habsent rfl
    · rw [get_del_ne (Ne.symm hg)]
      cases get n es with
      | none => exact .absent
      | some c => exact .present (remains_refl _ _ _)

/-- Exactly where the entry `generations` is anchored, a power loss leaves a sound
    instance directory. -/
theorem consistent_iff {published : GenerationId → Option Dir} (hwf : w.Wf)
    (hs : ∀ o ∈ w.candidates, Sturdy S w o)
    (hg : ∀ g t, w.get (generationDir g) = some t →
      (∃ G, S.checkGeneration g (.ok t) = .ok G) ∧ Synced w (generationDir g) ∧ published g = some t) :
    Consistent S published w ↔ Anchored S w := by
  constructor
  · intro hc
    by_contra hnot
    unfold Anchored at hnot
    push Not at hnot
    obtain ⟨hold, b, synced, record, hb, hr, hlatest⟩ := hnot
    obtain ⟨g, hl⟩ := ne_none_iff_exists'.1 hlatest
    have habsent : .absent ∈ w.disk.old [GENERATIONS_DIR] := hwf.made.resolve_left hold
    obtain ⟨-, record', hr', hl'⟩ := hs _ hb
    rw [hr] at hr'
    cases hr'
    obtain ⟨t, ht⟩ := (hl' g hl).1
    obtain ⟨es, hes⟩ : ∃ es, w.top = .node es := by
      have hne : ¬ GENERATIONS_DIR = RUNS_DIR := by decide
      simp only [generationDir, World.get, hne, ite_false] at ht
      cases htop : w.top with
      | node es => exact ⟨es, rfl⟩
      | leaf a => rw [htop] at ht; cases ht
    have hstate : (Tree.node ((STATE_FILE, leaf (Leaf.file b)) ::
        Assoc.del GENERATIONS_DIR es)).get [STATE_FILE] = some (.leaf (.file b)) := by
      rw [get_node_cons]
      simp
    obtain ⟨record', hr', hl'⟩ := hc _ (survives_without_generations hes habsent hb) _ hstate
    rw [hr] at hr'
    cases hr'
    obtain ⟨u, v, -, hv, -⟩ := hl' g hl
    have hne : ¬ STATE_FILE = GENERATIONS_DIR := by decide
    rw [generationDir, get_node_cons] at hv
    simp [hne, Assoc.get_del_self] at hv
  · intro ha s hsurv t ht
    rcases hsurv.state hs with ⟨-, hnone⟩ | ⟨b, hb, hstate⟩
    · rw [hnone] at ht
      cases ht
    · rw [hstate] at ht
      cases ht
      obtain ⟨-, record, hr, hl⟩ := hs _ hb
      refine ⟨record, hr, fun g hgl => ?_⟩
      rcases ha with htop | hnone
      · obtain ⟨⟨u, hu⟩, hold⟩ := hl g hgl
        obtain ⟨⟨G, hG⟩, hsynced, hpub⟩ := hg g u hu
        obtain ⟨v, hv, hpeek⟩ := hsurv.generation hu htop hold hsynced
        exact ⟨u, v, hpub, hv, hpeek, G, Store.checkGeneration_congr hG fun _ _ => hpeek _⟩
      · rw [hnone b true record hb hr] at hgl
        cases hgl

end

/-! ## Whole runs -/

/-- The lock holders of an instance directory that is sound and at rest to begin
    with; file system calls fail only for a reason of their own, and no process
    dies before the power does. -/
def durableCalls (S : Store) : Calls FsOp World Call (Option StoreError) where
  init w := Inv S ⟨False, True, True⟩ w ∧ Rest w
  enabled _ _ := True
  prog := Call.prog S
  sem := FsSem false
  env c := Guest (c.any Call.still)
  crash _ _ := False

/-- The steps of these runs: any record may be committed, but every generation a
    record names is there for good. -/
def durableRules : Rules := ⟨⟨False, True, True⟩, fun _ _ => True⟩

section

variable {S : Store} {w : World}

/-- An empty instance directory is one to begin with. -/
theorem durableCalls_init (h : w.Empty) : (durableCalls S).init w :=
  ⟨Inv.of_empty h, fun _ _ _ => h.disk _, h.disk _⟩

theorem durableCalls_keeps (S : Store) :
    (durableCalls S).Keeps (Inv S durableRules.toMode) Rest (fun _ => StoreStep S durableRules)
      (fun _ _ => Rest) where
  init _ h := h
  call _ _ hi hr _ := Prog.meets_post (call_meets durableRules (fun _ => rfl)
    (fun _ _ _ => trivial) (fun _ _ _ _ => trivial) (fun _ => hr) hi (fun h => h.elim))
    fun _ _ h => h.2 trivial
  guar _ _ _ hi h := h.inv hi
  env _ _ _ hi h := hi.quiet (Kept.of_guest h).toQuiet
  envPost _ _ _ _ h hr := hr.quiet (Kept.of_guest h).toQuiet
  envRest _ _ h hr := hr.quiet (Kept.of_guest h).toQuiet
  envTrans _ _ _ _ h₁ h₂ := guest_trans h₁ h₂
  envRefl _ w := guest_refl _ w
  ret _ _ _ h := h
  crash _ _ _ h := h.elim

theorem Inv.consistent_iff (hi : Inv S durableRules.toMode w) :
    Consistent S (fun g => get (generationDir g) w.moved) w ↔ Anchored S w :=
  Lnx.consistent_iff hi.wf (hi.sturdy trivial) fun _ _ ht =>
    ⟨(hi.inPlace ht).complete, (hi.inPlace ht).synced, (hi.inPlace ht).moved trivial⟩

/-- What `state.json` may be after a step is what it is then, or what it may have
    been before. -/
theorem StoreStep.candidates {rules : Rules} {w' : World} (h : StoreStep S rules w w')
    (hs : ∀ o ∈ w.candidates, Sturdy S w o) {o : Old} (ho : o ∈ w'.candidates) :
    o = w'.binding [STATE_FILE] ∨ o ∈ w.candidates := by
  cases h with
  | quiet h => exact .inr (candidates_of_keeps h.state h.diskState hs ho)
  | publish g t hsame hnew hin | collect g hsame hnone hlatest hsettled =>
    exact .inr (candidates_of_keeps hsame.state hsame.diskState hs ho)
  | commit record hallowed hgens hmoved hcaptured hdata hold hdisk hwf hruns hstate hlatest =>
    rw [World.candidates, hold] at ho
    exact mem_cons.1 ho

variable {x y : Config FsOp World Call (Option StoreError)}

/-- Every candidate of `state.json` was `state.json` at some time since the last
    rest. -/
theorem candidates_since (hx : (durableCalls S).Reachable x) (hidle : x.running = none)
    (hy : Relation.ReflTransGen (durableCalls S).Next x y) :
    (durableCalls S).Reachable y ∧ ∀ o ∈ y.state.candidates, ∃ z,
      Relation.ReflTransGen (durableCalls S).Next x z ∧
      Relation.ReflTransGen (durableCalls S).Next z y ∧ o = z.state.binding [STATE_FILE] := by
  have hk := durableCalls_keeps S
  induction hy with
  | refl =>
    refine ⟨hx, fun o ho => ⟨x, .refl, .refl, ?_⟩⟩
    have hrest := (reachable_inv hk hx).2.1 hidle
    rw [candidates, hrest.state] at ho
    exact mem_singleton.1 ho
  | @tail y y' hxy hn ih =>
    obtain ⟨hy, hsince⟩ := ih
    have hs := (reachable_inv hk hy).1.sturdy trivial
    refine ⟨hy.next hn, fun o ho => ?_⟩
    have hcases : o = y'.state.binding [STATE_FILE] ∨ o ∈ y.state.candidates := by
      cases hn with
      | start _ | finish => exact .inr ho
      | step hop => exact (reachable_step hk hy hop).candidates hs ho
      | env he =>
        have hq := (Kept.of_guest he).toQuiet
        exact .inr (candidates_of_keeps hq.state hq.diskState hs ho)
      | crash hc => exact hc.elim
    rcases hcases with rfl | ho
    · exact ⟨y', hxy.tail hn, .refl, rfl⟩
    · obtain ⟨z, hxz, hzy, hoz⟩ := hsince o ho
      exact ⟨z, hxz, hzy.tail hn, hoz⟩

theorem World.get_of_binding {b : Bytes} {synced : Bool} (h : .file b synced = w.binding p) :
    w.get p = some (.leaf (.file b)) := by
  unfold binding at h
  split at h <;> cases h
  assumption

theorem World.get_of_binding_absent (h : .absent = w.binding p) : w.get p = none := by
  unfold binding at h
  split at h
  · assumption
  · cases h
  · cases h

/-- A commit that returned is not lost: what a power loss leaves of `state.json` was
    `state.json` at some time since any earlier rest. -/
theorem survivor_since (hx : (durableCalls S).Reachable x) (hidle : x.running = none)
    (hy : Relation.ReflTransGen (durableCalls S).Next x y) (hs : Survives y.state s) :
    ∃ z, Relation.ReflTransGen (durableCalls S).Next x z ∧
      Relation.ReflTransGen (durableCalls S).Next z y ∧
      s.get [STATE_FILE] = z.state.get [STATE_FILE] := by
  obtain ⟨hreach, hsince⟩ := candidates_since hx hidle hy
  have hi := (reachable_inv (durableCalls_keeps S) hreach).1
  rcases hs.state (hi.sturdy trivial) with ⟨ho, hnone⟩ | ⟨b, ho, hstate⟩
  · obtain ⟨z, hxz, hzy, hoz⟩ := hsince _ ho
    exact ⟨z, hxz, hzy, by rw [hnone, get_of_binding_absent hoz]⟩
  · obtain ⟨z, hxz, hzy, hoz⟩ := hsince _ ho
    exact ⟨z, hxz, hzy, by rw [hstate, get_of_binding hoz]⟩

/-- At rest, `state.json` is on stable storage. -/
theorem survivor_at_rest (hi : Inv S durableRules.toMode w) (hr : Rest w) (hs : Survives w s) :
    s.get [STATE_FILE] = w.get [STATE_FILE] := by
  have hcand : w.candidates = [w.binding [STATE_FILE]] := by rw [candidates, hr.state]
  rcases hs.state (hi.sturdy trivial) with ⟨ho, hnone⟩ | ⟨b, ho, hstate⟩
  · rw [hcand, mem_singleton] at ho
    rw [hnone, get_of_binding_absent ho]
  · rw [hcand, mem_singleton] at ho
    rw [hstate, get_of_binding ho]

end

/-! ## Exports -/

section

variable {S : Store} {t : Dir} {G : Generation} {id : GenerationId} {w w' : World}

/-- Where no record is there or may be left, there is nothing to be inconsistent. -/
theorem Unborn.consistent_iff (h : Unborn w) (published : GenerationId → Option Dir) :
    Consistent S published w ↔ Anchored S w := by
  have hcand : w.candidates = [.absent] := by
    rw [candidates, h.old, binding, h.state]
  refine iff_of_true (fun s hs u hu => ?_) (.inr fun b synced record hb => ?_)
  · rcases hs.state (S := S) (fun o ho => by
      rw [hcand, mem_singleton] at ho
      rw [ho]
      trivial) with ⟨-, hnone⟩ | ⟨b, hb, -⟩
    · rw [hnone] at hu
      cases hu
    · rw [hcand] at hb
      simp at hb
  · rw [hcand] at hb
    simp at hb

theorem Inv.exported_consistent_iff (hi : Inv S (exportRules false).toMode w) :
    Consistent S (fun g => w.get (generationDir g)) w ↔ Anchored S w :=
  Lnx.consistent_iff hi.wf (hi.sturdy rfl) fun _ _ ht =>
    ⟨(hi.inPlace ht).complete, (hi.inPlace ht).synced, ht⟩

/-- An exported instance directory is one to begin with, its generation counting as
    published there. -/
theorem Exported.init (h : Exported S false t G w) {u : Dir}
    (hu : w.get (generationDir G.manifest.id) = some u) :
    (durableCalls S).init { w with moved := [(generationDir G.manifest.id, u)] } := by
  have hi := h.inv
  refine ⟨⟨hi.record, fun {g t} ht => ?_, fun _ => hi.sturdy rfl,
    ⟨hi.wf.top, hi.wf.runs, hi.wf.gens, hi.wf.made⟩⟩, (h.rest rfl).gens, (h.rest rfl).state⟩
  have hin := hi.inPlace ht
  refine ⟨hin.get, fun _ => ?_, hin.complete, ⟨hin.synced.entries, hin.synced.data⟩, fun h => h.elim⟩
  by_cases hg : g = G.manifest.id
  · subst hg
    rw [show some t = some u from ht.symm.trans hu]
    simp
  · exact absurd ((h.others g hg).symm.trans ht) (by simp)

/-- `export` of a pinned generation, cut short anywhere. -/
theorem export_partial {p' : Copy Unit} {source : Option Dir}
    (hG : S.checkGeneration id (.ok t) = .ok G) (hd : t.Distinct) (h₀ : w.Empty)
    (hrun : Prog.Partial (α := Except StoreError Unit) (CopySem false) (stepwise.export S G)
      (some t, w) p' (source, w')) :
    (Unborn w' ∨ Inv S (exportRules false).toMode w') ∧
      (p' = pure () → Exported S false t G w') := by
  have hmeets := export_actsAs S G (R := fun w w' => ExportStep S false id w w' ∨ w' = w)
    (fun _ => .inr rfl) (Prog.meets_mono (fun _ _ h => h) (fun _ _ h => .inl h) (fun _ _ h => h)
      (export_answers hG hd h₀))
  have hkeep : ∀ s s' : Option Dir × World, (Unborn s.2 ∨ Inv S (exportRules false).toMode s.2) →
      (s'.1 = s.1 ∧ (ExportStep S false id s.2 s'.2 ∨ s'.2 = s.2)) →
      (Unborn s'.2 ∨ Inv S (exportRules false).toMode s'.2) := by
    rintro s s' hs ⟨-, (⟨hu, hsame⟩ | ⟨hi, hstep⟩) | heq⟩
    · exact .inl (hu.sameBut hsame)
    · exact .inr (hstep.inv hi)
    · rw [heq]
      exact hs
  obtain ⟨hinv, hpost⟩ := Prog.meets_partial hmeets hrun (fun _ => rfl) hkeep
    (.inl ⟨h₀.get (by decide) _, h₀.disk _⟩)
  refine ⟨hinv, fun hp => ?_⟩
  rw [hp] at hpost
  exact hpost.2 rfl

end

/-! ## The result -/

/-- Power loss, over every run of the store's operations and at every step of an
    export. The directory that is left is sound if and only if the entry
    `generations` is on stable storage or no record that may be left names a
    generation. Commits that returned are never lost. -/
theorem power_loss_consistent_iff (S : Store) :
    (∀ x, (durableCalls S).Reachable x →
      (Consistent S (fun g => get (generationDir g) x.state.moved) x.state ↔
        Anchored S x.state)) ∧
    (∀ x, (durableCalls S).Reachable x → x.running = none →
      (∀ s, Survives x.state s → s.get [STATE_FILE] = x.state.get [STATE_FILE]) ∧
      ∀ y, Relation.ReflTransGen (durableCalls S).Next x y → ∀ s, Survives y.state s →
        ∃ z, Relation.ReflTransGen (durableCalls S).Next x z ∧
          Relation.ReflTransGen (durableCalls S).Next z y ∧
          s.get [STATE_FILE] = z.state.get [STATE_FILE]) ∧
    (∀ id t G w p source w', S.checkGeneration id (.ok t) = .ok G → t.Distinct → w.Empty →
      Prog.Partial (α := Except StoreError Unit) (CopySem false) (stepwise.export S G)
        (some t, w) p (source, w') →
      (Consistent S (fun g => w'.get (generationDir g)) w' ↔ Anchored S w') ∧
      (p = .ret (.ok ()) → ∃ u, w'.get (generationDir id) = some u ∧
        (∀ name, name ∈ HOST_SHARE_STATE :: MANIFEST :: G.manifest.files.map Prod.fst →
          ∀ q, u.peek (name :: q) = t.peek (name :: q)) ∧
        (durableCalls S).init { w' with moved := [(generationDir id, u)] })) := by
  refine ⟨fun x hx => ?_, fun x hx hidle => ⟨fun s hs => ?_, fun y hy s hs => ?_⟩,
    fun id t G w p source w' hG hd h₀ hrun => ?_⟩
  · exact (reachable_inv (durableCalls_keeps S) hx).1.consistent_iff
  · obtain ⟨hi, hrest, -⟩ := reachable_inv (durableCalls_keeps S) hx
    exact survivor_at_rest hi (hrest hidle) hs
  · exact survivor_since hx hidle hy hs
  · obtain ⟨hinv, hpost⟩ := export_partial hG hd h₀ hrun
    refine ⟨?_, fun hp => ?_⟩
    · rcases hinv with hu | hi
      · exact hu.consistent_iff _
      · exact hi.exported_consistent_iff
    · have hexp := hpost hp
      obtain rfl := Store.checkGeneration_id hG
      obtain ⟨u, hu, -⟩ := map_eq_some_iff.1 hexp.copy.dir
      refine ⟨u, hu, fun name hname q => ?_, hexp.init hu⟩
      rw [← peek_append (generationDir_ne_nil _) hu]
      refine hexp.copy.entry name ?_ q
      simp only [mem_cons] at hname
      simp only [mem_append, mem_cons]
      tauto

/-- After a first run every power loss leaves the latest generation whole. -/
theorem power_loss_consistent_firstRun :
    Consistent plainStore
      (fun g => get (generationDir g) (execCalls plainStore firstRun emptyWorld).moved)
      (execCalls plainStore firstRun emptyWorld) := by
  have hold : (execCalls plainStore firstRun emptyWorld).disk.old [GENERATIONS_DIR] = [] := by
    decide +kernel
  have hx : (durableCalls plainStore).Reachable ⟨execCalls plainStore firstRun emptyWorld, none⟩ :=
    reachable_execCalls rfl rfl (fun _ _ _ => trivial) (.init (durableCalls_init emptyWorld_empty))
  generalize execCalls plainStore firstRun emptyWorld = w at hx hold ⊢
  exact ((power_loss_consistent_iff plainStore).1 _ hx).2 (.inl hold)

/-- A new instance directory with a staged disk. -/
def stagedWorld : World :=
  execCalls plainStore [.stage, .fill (generationIdOf 0) oneByteDisk] emptyWorld

/-- Its `initialize`, up to the rename of `state.json`. -/
def renamedWorld : World :=
  (((Call.initializeStore (generationIdOf 0)).prog plainStore).execFor FsOp.answer 18 stagedWorld).2

/-- In the first `initialize` of an instance, between the rename of `state.json` and
    the sync of the instance directory, a power loss may leave `state.json` without
    the directory its generation is in: nothing has synced the entry
    `generations`. -/
theorem power_loss_may_lose_generations :
    ∃ x, (durableCalls plainStore).Reachable x ∧
      ¬ Consistent plainStore (fun g => get (generationDir g) x.state.moved) x.state := by
  have hrecord : plainStore.recordOf renamedWorld =
      some ⟨1, some (generationIdOf 0), .stopped⟩ := by decide +kernel
  have hold : renamedWorld.disk.old [GENERATIONS_DIR] = [.absent] := by decide +kernel
  have hstaged : (durableCalls plainStore).Reachable ⟨stagedWorld, none⟩ :=
    reachable_execCalls rfl rfl (fun _ _ _ => trivial) (.init (durableCalls_init emptyWorld_empty))
  have hstart := hstaged.next (.start (c := .initializeStore (generationIdOf 0)) trivial)
  obtain ⟨rest, hx⟩ : ∃ rest, (durableCalls plainStore).Reachable ⟨renamedWorld, rest⟩ :=
    ⟨_, reachable_partial hstart (Prog.execFor_partial (answer_sem false) 18 _ _)⟩
  generalize renamedWorld = w at hrecord hold hx
  refine ⟨_, hx, fun hc => ?_⟩
  have hi := (reachable_inv (durableCalls_keeps plainStore) hx).1
  obtain ⟨t, ht, hread⟩ := Store.readRecord_of_recordOf hrecord
  obtain ⟨b, hb, -⟩ := Store.readRecord_eq_some.1 hread
  cases hb
  rcases hi.consistent_iff.1 hc with hnil | hnone
  · rw [hold] at hnil
    cases hnil
  · have hmem : .file b (w.disk.data [STATE_FILE]) ∈ w.candidates :=
      mem_cons.2 (.inl (by rw [binding, ht]))
    have hlatest := hnone b _ _ hmem hread
    cases hlatest

end Lnx
