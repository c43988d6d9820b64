import Lnx.Store.Collect
import Lnx.Store.Exec

/-!
# Garbage collection removes exactly the garbage

What `collect_garbage` removes, for any content of the store, with pins coming
and going, calls failing and the process dying at any time. A collection that
returns `Ok` has removed the garbage and changed nothing else; one that stops
short has removed only garbage, and a later one finishes its work.

* `Garbage`: the paths a collection may remove.
* `Cleans`: what any part of a collection may have changed. It is transitive, so
  it also describes collections one after another.
* `Cleans.of_remove`, `Cleans.of_rename`: the steps of a collection are of this kind.
-/

namespace Lnx

open Assoc Lnx.Tree List World

variable {id : GenerationId} {p q : Path}

/-! ## What is garbage -/

/-- The name of a staging or trash directory. -/
def Leftover (name : Name) : Prop :=
  startsWith name STAGING_PREFIX = true ∨ startsWith name TRASH_PREFIX = true

/-- What a collection may remove when `ref` are the generations referenced, `live`
    is the run the record's phase names and `locked` tells whose pin is locked. -/
def Garbage (ref : List GenerationId) (live : Option RunId) (locked : Name → Prop) : Path → Prop
  | n :: m :: _ =>
    n = RUNS_DIR ∧ live.map RunId.asStr ≠ some m ∨
      n = GENERATIONS_DIR ∧
        (Leftover m ∨ ∃ id : GenerationId, id ∉ ref ∧ id.asStr = m ∧ ¬ locked m)
  | _ => False

theorem leftover_trash (id : GenerationId) : Leftover (TRASH_PREFIX ++ id.asStr) := by
  simp [Leftover, startsWith]

theorem not_leftover_id (id : GenerationId) : ¬ Leftover id.asStr := fun h =>
  (inert_of_collected h).gens id |>.1 (prefix_refl _)

theorem eq_of_trash_below {id' : GenerationId} (h : trashDir id' <+: trashDir id ++ q) : id' = id :=
  GenerationId.ext_asStr (by simpa [trashDir] using h)

theorem GenerationId.tryFrom_eq_none {n : Name} (h : GenerationId.tryFrom n = none)
    (id : GenerationId) : id.asStr ≠ n := by
  rintro rfl
  rw [GenerationId.tryFrom_asStr] at h
  cases h

open GenerationId

/-- The names `generations/` lists. -/
def World.listed (w : World) : List Name := Store.listing (w.look [GENERATIONS_DIR])

open World

variable {w w' : World} {faults : Bool} {e : Edit} {r : Except IoError Unit}

theorem listing_look (h : w'.get p = w.get p) :
    Store.listing (w'.look p) = Store.listing (w.look p) := by
  cases hg : w.get p with
  | some t => rw [look_eq_ok.2 hg, look_eq_ok.2 (h.trans hg)]
  | none =>
    have hempty : ∀ {v : World}, v.get p = none → Store.listing (v.look p) = [] := by
      intro v hv
      cases hl : v.look p with
      | ok t => rw [look_eq_ok.1 hl] at hv; cases hv
      | error e => rfl
    rw [hempty hg, hempty (h.trans hg)]

theorem mem_listed {n : Name} : n ∈ w.listed ↔ w.peek [GENERATIONS_DIR, n] ≠ none :=
  mem_listing_iff (p := [GENERATIONS_DIR]) (by simp)

/-- A new entry is listed last. -/
theorem World.listed_put {m : Name} {t : Dir} (h : w.put [GENERATIONS_DIR, m] t = some w') :
    w.listed <+: w'.listed := by
  rcases put_cases h with ⟨r, d, hp, hd, rfl⟩ | ⟨n, r, d, hp, hn, hd, rfl⟩
  · simp [GENERATIONS_DIR, RUNS_DIR] at hp
  · obtain ⟨es, hes, hes'⟩ := get_put_concat (p := [GENERATIONS_DIR]) hd
    have hw : w.get [GENERATIONS_DIR] = some (.node es) := hes
    have hw' : ({ w with top := d } : World).get [GENERATIONS_DIR] =
        some (.node (Assoc.set m t es)) := hes'
    rw [listed, listed, look_eq_ok.2 hw, look_eq_ok.2 hw']
    simp only [Store.listing]
    by_cases hm : m ∈ names es
    · rw [names_set_of_mem hm]
    · rw [set_of_not_mem hm, names, names, map_append]
      exact prefix_append _ _

/-- A removed entry is no longer listed; the others keep their order. -/
theorem World.listed_del (w : World) (m : Name) :
    w.listed.filter (· ≠ m) <+ (w.del [GENERATIONS_DIR, m]).listed := by
  cases hg : w.get [GENERATIONS_DIR] with
  | none =>
    have hempty : w.listed = [] := by
      refine eq_nil_iff_forall_not_mem.2 fun n hn => mem_listed.1 hn ?_
      have hnone : w.peek [GENERATIONS_DIR] = none := peek_eq_none.2 hg
      exact peek_below_none (q := [n]) (by simp) hnone
    rw [hempty]
    exact nil_sublist _
  | some u =>
    cases u with
    | leaf a =>
      rw [listed, look_eq_ok.2 hg]
      exact nil_sublist _
    | node es =>
      have hdel : (w.del [GENERATIONS_DIR, m]).get [GENERATIONS_DIR] = some (.node (Assoc.del m es)) :=
        Tree.get_del_concat (p := [GENERATIONS_DIR]) (t := w.top) hg
      rw [listed, listed, look_eq_ok.2 hg, look_eq_ok.2 hdel]
      simp [Store.listing, Assoc.del, filter_map, Function.comp_def]

/-- Two names are listed in the order they were, as long as both are there. -/
theorem EditSem.listed_order (h : EditSem faults e w r w')
    (he : ∀ p ∈ e.footprint, (∃ n, p = [RUNS_DIR, n]) ∨ ∃ m, p = [GENERATIONS_DIR, m])
    (hren : ∀ src dst, e = .rename src dst → src ≠ dst) {a b : Name}
    (ha : w'.peek [GENERATIONS_DIR, a] ≠ none) (hb : w'.peek [GENERATIONS_DIR, b] ≠ none)
    (hab : [a, b] <+ w.listed) : [a, b] <+ w'.listed := by
  obtain ⟨x, d, hm, rfl⟩ := h.world_cases
  have hruns : ∀ {v v' : World}, v'.top = v.top → v'.listed = v.listed := by
    intro v v' hv
    exact listing_look (by simp [World.get, hv, GENERATIONS_DIR, RUNS_DIR])
  have hput : ∀ {v v' : World} {p : Path} {t : Dir}, p ∈ e.footprint → v.put p t = some v' →
      v.listed <+ v'.listed := by
    intro v v' p t hp hv
    rcases he p hp with ⟨n, rfl⟩ | ⟨m, rfl⟩
    · rcases put_cases hv with ⟨q, d, hq, hd, rfl⟩ | ⟨k, q, d, hq, hk, hd, rfl⟩
      · exact (hruns rfl).symm ▸ List.Sublist.refl _
      · cases hq
        exact absurd rfl hk
    · exact (listed_put hv).sublist
  have hdel : ∀ {v : World} {p : Path}, p ∈ e.footprint → p ≠ [GENERATIONS_DIR, a] →
      p ≠ [GENERATIONS_DIR, b] → [a, b] <+ v.listed → [a, b] <+ (v.del p).listed := by
    intro v p hp hpa hpb hv
    rcases he p hp with ⟨n, rfl⟩ | ⟨m, rfl⟩
    · rw [hruns (v := v) (by simp [World.del])]
      exact hv
    · have hfilter := (hv.filter (· ≠ m)).trans (v.listed_del m)
      have hma : a ≠ m := fun h => hpa (by rw [h])
      have hmb : b ≠ m := fun h => hpb (by rw [h])
      simpa [filter_cons, hma, hmb] using hfilter
  have hgone : ∀ {v : World} {n : Name}, (v.del [GENERATIONS_DIR, n]).peek [GENERATIONS_DIR, n] = none :=
    peek_eq_none.2 (get_del_self ⟨by simp, by simp⟩)
  have hd : (x.withDisk d).listed = x.listed := hruns rfl
  rw [hd]
  cases hm with
  | same => exact hab
  | put hp hx => exact hab.trans (hput hp hx)
  | del hp =>
    refine hdel hp ?_ ?_ hab
    · rintro rfl
      exact ha hgone
    · rintro rfl
      exact hb hgone
  | @rename src dst t x heq _ hx =>
    subst heq
    have hsrc : src ∈ (Edit.rename src dst).footprint := by simp
    have hdst : dst ∈ (Edit.rename src dst).footprint := by simp
    have hmoved : ({ x with moved := (dst, t) :: w.moved } : World).listed = x.listed := hruns rfl
    rw [hmoved]
    have hapart : ∀ {n : Name}, src = [GENERATIONS_DIR, n] → x.peek [GENERATIONS_DIR, n] = none := by
      rintro n rfl
      rw [peek_put hx, hgone]
      intro hp
      rcases he dst hdst with ⟨k, rfl⟩ | ⟨k, rfl⟩
      · simp [RUNS_DIR, GENERATIONS_DIR] at hp
      · have hk : k = n := by simpa using hp
        exact hren _ _ rfl (by rw [hk])
    refine (hdel hsrc (fun h => ha (hapart h)) (fun h => hb (hapart h)) hab).trans (hput hdst hx)

/-! ## What a collection may change -/

/-- What others do during a collection: they take and drop pins, unless all is
    steady. -/
def Pins (steady : Bool) (w w' : World) : Prop :=
  ∃ h, (steady = true → h = w.held) ∧ w' = { w with held := h }

theorem pins_refl (steady : Bool) (w : World) : Pins steady w w := ⟨w.held, fun _ => rfl, rfl⟩

theorem pins_trans {steady : Bool} {a b c : World} (h₁ : Pins steady a b) (h₂ : Pins steady b c) :
    Pins steady a c := by
  obtain ⟨h, hh, rfl⟩ := h₁
  obtain ⟨h', hh', rfl⟩ := h₂
  exact ⟨h', fun hs => (hh' hs).trans (hh hs), rfl⟩

section

variable {steady : Bool} {w w' : World} (h : Pins steady w w')

include h

theorem Pins.get (p : Path) : w'.get p = w.get p := by
  obtain ⟨_, -, rfl⟩ := h
  cases p <;> rfl

theorem Pins.look (p : Path) : w'.look p = w.look p := by
  obtain ⟨_, -, rfl⟩ := h
  cases p <;> rfl

theorem Pins.peek (p : Path) : w'.peek p = w.peek p := by
  rw [World.peek, World.peek, h.get]

theorem Pins.examined : w'.examined = w.examined := by
  obtain ⟨_, -, rfl⟩ := h
  rfl

theorem Pins.held (hs : steady = true) : w'.held = w.held := by
  obtain ⟨_, hh, rfl⟩ := h
  exact hh hs

end

/-- The part of a path a collection removes at once: a run, or a staging or trash
    directory. -/
def Spot (live : Option RunId) (p : Path) : Prop :=
  (∃ n, p = [RUNS_DIR, n] ∧ live.map RunId.asStr ≠ some n) ∨ ∃ m, p = [GENERATIONS_DIR, m] ∧ Leftover m

/-- The calls that remove things. -/
def Removes (p : Path) (e : Edit) : Prop := e = .shrink p ∨ e = .removeDir p ∨ e = .unlink p

theorem Removes.footprint (h : Removes p e) : e.footprint = [p] := by
  rcases h with rfl | rfl | rfl <;> rfl

/-- What is there after such a call was there before. -/
theorem Removes.peek_eq (he : Removes p e) (hp : p ≠ [] ∧ p ≠ [RUNS_DIR])
    (h : EditSem faults e w r w') {l : Option Leaf} (hl : w'.peek q = some l) :
    w.peek q = some l := by
  by_cases hpq : p <+: q
  · obtain ⟨s, rfl⟩ := hpq
    have hdel : (w.del p).peek (p ++ s) = none := peek_eq_none.2 (get_del_append hp s)
    cases h with
    | refused h | fault h => exact hl
    | partialWrite hf h => rcases he with he | he | he <;> cases he
    | @shrunk p' t t' w w' hlook hprunes hput =>
      have hpp : p' = p := by rcases he with he | he | he <;> cases he; rfl
      subst hpp
      rw [World.peek_withDisk, World.peek, World.get_put_append hput] at hl
      rw [World.peek_append hp.1 (World.look_eq_ok.1 hlook)]
      exact hprunes.2 _ _ hl
    | done h =>
      rw [peek_withDisk] at hl
      rcases he with rfl | rfl | rfl
      all_goals
        simp only [Edit.apply] at h
        split at h <;> cases h
      · exact hl
      · rw [hdel] at hl
        cases hl
      · rw [hdel] at hl
        cases hl
  · rw [← hl]
    refine (h.peek_eq fun p' hp' => ?_).symm
    have hpp : p' = p := mem_singleton.1 (he.footprint ▸ hp')
    exact hpp ▸ hpq

/-- What any part of a collection may have changed. -/
structure Cleans (steady : Bool) (ref : List GenerationId) (live : Option RunId) (w w' : World) : Prop where
  /-- only garbage changes -/
  frame : ∀ p, ¬ Garbage ref live (fun _ => False) p → w'.peek p = w.peek p
  /-- a generation stays whole or goes whole, and goes only without a pin or with
      its pin last found unlocked -/
  gens : ∀ id, id ∉ ref → (∀ q, w'.peek (generationDir id ++ q) = w.peek (generationDir id ++ q)) ∨
    (∀ q, w'.peek (generationDir id ++ q) = none) ∧
      (w.peek (generationDir id ++ [PIN]) = none ∨ Assoc.get id.asStr w'.examined = some false)
  /-- nothing new appears, but for the trash of a generation that was moved there -/
  shrinks : ∀ p l, (∀ id, id ∉ ref → trashDir id <+: p → w'.peek (generationDir id) ≠ none) →
    w'.peek p = some l → w.peek p = some l
  order : ∀ id, id ∉ ref → w'.peek (generationDir id) ≠ none → w'.peek (trashDir id) ≠ none →
    [TRASH_PREFIX ++ id.asStr, id.asStr] <+ w.listed →
      [TRASH_PREFIX ++ id.asStr, id.asStr] <+ w'.listed
  checkpoints : w'.get [CHECKPOINTS_DIR] = w.get [CHECKPOINTS_DIR]
  examined : ∀ id : GenerationId, Assoc.get id.asStr w'.examined = Assoc.get id.asStr w.examined ∨
    w.peek (generationDir id ++ [PIN]) ≠ none
  distinct : w.top.Distinct ∧ w.runs.Distinct → w'.top.Distinct ∧ w'.runs.Distinct
  held : steady = true → w'.held = w.held
  /-- with steady pins, lock attempts find what is so -/
  found : steady = true → ∀ e ∈ w'.examined, e ∈ w.examined ∨ e.2 = w.held e.1

namespace Cleans

variable {steady : Bool} {ref : List GenerationId} {live : Option RunId}

theorem refl (w : World) : Cleans steady ref live w w where
  frame _ _ := rfl
  gens _ _ := .inl fun _ => rfl
  shrinks _ _ _ h := h
  order _ _ _ _ h := h
  checkpoints := rfl
  examined _ := .inl rfl
  distinct h := h
  held _ := rfl
  found _ _ h := .inl h

section

variable (h : Cleans steady ref live w w')

include h

theorem referenced (hid : id ∈ ref) (q : Path) :
    w'.peek (generationDir id ++ q) = w.peek (generationDir id ++ q) := by
  refine h.frame _ ?_
  rintro (⟨hr, -⟩ | ⟨-, hl | ⟨id', hid', he, -⟩⟩)
  · exact absurd hr (by decide)
  · exact not_leftover_id id hl
  · exact hid' (ext_asStr he ▸ hid)

/-- What is in place after a collection was there before. -/
theorem in_place (hq : w'.peek (generationDir id ++ q) ≠ none) :
    w'.peek (generationDir id ++ q) = w.peek (generationDir id ++ q) := by
  by_cases hid : id ∈ ref
  · exact h.referenced hid q
  · rcases h.gens id hid with h | ⟨h, -⟩
    · exact h q
    · exact absurd (h q) hq

theorem dir_in_place {g : GenerationId} (hg : w'.peek (generationDir g) ≠ none) :
    w'.peek (generationDir g) = w.peek (generationDir g) := by
  exact h.in_place hg

theorem was_in_place (hq : w'.peek (generationDir id ++ q) ≠ none) :
    w.peek (generationDir id ++ q) ≠ none :=
  h.in_place hq ▸ hq

end

theorem trans {a b c : World} (h₁ : Cleans steady ref live a b) (h₂ : Cleans steady ref live b c) :
    Cleans steady ref live a c := by
  have hback : ∀ {id}, c.peek (generationDir id) ≠ none → b.peek (generationDir id) ≠ none := by
    intro id h
    rwa [← h₂.dir_in_place h]
  refine
    { frame := fun p hp => (h₂.frame p hp).trans (h₁.frame p hp)
      gens := fun id hid => ?_
      shrinks := fun p l hp h =>
        h₁.shrinks p l (fun id hid ht => hback (hp id hid ht)) (h₂.shrinks p l hp h)
      order := fun id hid hg ht h => ?_
      checkpoints := h₂.checkpoints.trans h₁.checkpoints
      examined := fun id => ?_
      distinct := fun h => h₂.distinct (h₁.distinct h)
      held := fun hs => (h₂.held hs).trans (h₁.held hs)
      found := fun hs e he => ?_ }
  · rcases h₁.gens id hid with hb | ⟨hb, hlast⟩
    · rcases h₂.gens id hid with hc | ⟨hc, hlast⟩
      · exact .inl fun q => (hc q).trans (hb q)
      · exact .inr ⟨hc, hlast.imp_left fun h => (hb _).symm.trans h⟩
    · -- gone already: it is not examined any more
      have hgone : ∀ q, c.peek (generationDir id ++ q) = none := by
        intro q
        by_contra h
        exact h₂.was_in_place h (hb q)
      refine .inr ⟨hgone, hlast.imp_right fun h => ?_⟩
      rcases h₂.examined id with he | hp
      · exact he.trans h
      · exact absurd (hb _) hp
  · refine h₂.order id hid hg ht (h₁.order id hid (hback hg) ?_ h)
    obtain ⟨l, hl⟩ := Option.ne_none_iff_exists'.1 ht
    rw [h₂.shrinks _ l (fun id' _ hp => ?_) hl]
    · simp
    · exact eq_of_trash_below (q := []) (by simpa using hp) ▸ hg
  · rcases h₂.examined id with he₂ | hp
    · rcases h₁.examined id with he₁ | hp
      · exact .inl (he₂.trans he₁)
      · exact .inr hp
    · exact .inr (h₁.was_in_place hp)
  · rcases h₂.found hs e he with he | he
    · exact h₁.found hs e he
    · exact .inr (he.trans (by rw [h₁.held hs]))

/-- A step that leaves the directory tree alone. -/
theorem of_tree (htop : w'.top = w.top) (hruns : w'.runs = w.runs)
    (hheld : steady = true → w'.held = w.held)
    (hfound : ∀ e ∈ w'.examined, e ∈ w.examined ∨ e.2 = w.held e.1)
    (he : ∀ id : GenerationId, Assoc.get id.asStr w'.examined = Assoc.get id.asStr w.examined ∨
      w.peek (generationDir id ++ [PIN]) ≠ none) : Cleans steady ref live w w' := by
  have hget : ∀ p, w'.get p = w.get p := fun p => by cases p <;> simp [World.get, htop, hruns]
  have hpeek : ∀ p, w'.peek p = w.peek p := fun p => by rw [World.peek, World.peek, hget]
  refine
    { frame := fun p _ => hpeek p
      gens := fun _ _ => .inl fun _ => hpeek _
      shrinks := fun p _ _ h => (hpeek p).symm.trans h
      order := fun _ _ _ _ h => ?_
      checkpoints := hget _
      examined := he
      distinct := fun h => ?_
      held := hheld
      found := fun _ => hfound }
  · have hlisted : w'.listed = w.listed := listing_look (hget _)
    rwa [hlisted]
  · rwa [htop, hruns]

theorem of_pins (h : Pins steady w w') : Cleans steady ref live w w' := by
  obtain ⟨_, hh, rfl⟩ := h
  exact of_tree rfl rfl hh (fun _ he => .inl he) fun _ => .inl rfl

theorem of_tryLock (h : w.peek (generationDir id ++ [PIN]) ≠ none) :
    Cleans steady ref live w { w with examined := (id.asStr, w.held id.asStr) :: w.examined } := by
  refine of_tree rfl rfl (fun _ => rfl) (fun e he => ?_) fun id' => ?_
  · rcases mem_cons.1 he with rfl | he
    · exact .inr rfl
    · exact .inl he
  · by_cases hid : id.asStr = id'.asStr
    · exact .inr (ext_asStr hid ▸ h)
    · exact .inl (by simp [hid])

/-- A call that removes a run, a staging or a trash directory, or a part of it. -/
theorem of_remove (hp : Spot live p) (he : Removes p e) (h : EditSem faults e w r w') :
    Cleans steady ref live w w' := by
  have hpp : ∀ p' ∈ e.footprint, p' = p := he.footprint ▸ by simp
  have hne : p ≠ [] ∧ p ≠ [RUNS_DIR] := by
    rcases hp with ⟨n, rfl, -⟩ | ⟨m, rfl, -⟩ <;> simp
  have haside : ∀ {q}, ¬ p <+: q → w'.peek q = w.peek q := fun hq =>
    h.peek_eq fun p' hp' => hpp p' hp' ▸ hq
  have hgens : ∀ (id : GenerationId) q, ¬ p <+: generationDir id ++ q := by
    rintro id q hpq
    rcases hp with ⟨n, rfl, -⟩ | ⟨m, rfl, hm⟩
    · simp [generationDir, RUNS_DIR, GENERATIONS_DIR] at hpq
    · have hid : m = id.asStr := by simpa [generationDir] using hpq
      exact not_leftover_id id (hid ▸ hm)
  refine
    { frame := fun q hq => haside fun hpq => hq ?_
      gens := fun id _ => .inl fun q => haside (hgens id q)
      shrinks := fun q l _ hl => he.peek_eq hne h hl
      order := fun id _ hg ht hl => ?_
      checkpoints := h.get_apart fun p' hp' => ?_
      examined := fun _ => .inl (by rw [h.rest.2.2.2])
      distinct := h.distinct
      held := fun _ => h.rest.1
      found := fun _ e he => .inl (h.rest.2.2.2 ▸ he) }
  · obtain ⟨s, rfl⟩ := hpq
    rcases hp with ⟨n, rfl, hn⟩ | ⟨m, rfl, hm⟩
    · exact .inl ⟨rfl, hn⟩
    · exact .inr ⟨rfl, .inl hm⟩
  · refine h.listed_order (fun p' hp' => ?_) (fun src dst heq => ?_) ht hg hl
    · rw [hpp p' hp']
      exact hp.imp (fun h => h.imp fun _ h => h.1) fun h => h.imp fun _ h => h.1
    · rcases he with rfl | rfl | rfl <;> cases heq
  · rw [hpp p' hp']
    rcases hp with ⟨n, rfl, -⟩ | ⟨m, rfl, -⟩
    · exact apart_of_ne (by decide) _ _
    · exact apart_of_ne (by decide) _ _

/-- The rename that takes a generation out of place. -/
theorem of_rename (hid : id ∉ ref)
    (hlast : w.peek (generationDir id ++ [PIN]) = none ∨ Assoc.get id.asStr w.examined = some false)
    (h : EditSem faults (.rename (generationDir id) (trashDir id)) w r w') :
    Cleans steady ref live w w' := by
  have hne : generationDir id ≠ trashDir id := fun heq =>
    ((inert_trash id).gens id).1 (heq ▸ prefix_refl _)
  have haside : ∀ {q}, ¬ generationDir id <+: q → ¬ trashDir id <+: q → w'.peek q = w.peek q :=
    fun hg ht => h.peek_eq (Edit.forall_rename hg ht)
  -- done or not, the generation is where it was or gone
  have hwhole : w' = w ∨ ∀ q, w'.peek (generationDir id ++ q) = none := by
    cases h with
    | refused h | fault h => exact .inl rfl
    | done h =>
      obtain ⟨t, x, ht, hx, rfl, -⟩ := Edit.rename_eq_ok h
      refine .inr fun q => ?_
      have hput := get_put_apart hx (((inert_trash id).gens id).append_right q)
      have hnone : x.peek (generationDir id ++ q) = none := by
        rw [peek_eq_none, hput]
        exact get_del_append ⟨by simp [generationDir], by simp [generationDir]⟩ q
      exact hnone
  rcases hwhole with rfl | hgone
  · exact refl _
  refine
    { frame := fun q hq => haside (fun hp => hq ?_) fun hp => hq ?_
      gens := fun id' hid' => ?_
      shrinks := fun q l hq hl => ?_
      order := fun id' _ hg ht hl => ?_
      checkpoints := h.get_apart (Edit.forall_rename (apart_of_ne (by decide) _ _) (apart_of_ne (by decide) _ _))
      examined := fun _ => .inl (by rw [h.rest.2.2.2])
      distinct := h.distinct
      held := fun _ => h.rest.1
      found := fun _ e he => .inl (h.rest.2.2.2 ▸ he) }
  · obtain ⟨s, rfl⟩ := hp
    exact .inr ⟨rfl, .inr ⟨id, hid, rfl, fun h => h⟩⟩
  · obtain ⟨s, rfl⟩ := hp
    exact .inr ⟨rfl, .inl (leftover_trash id)⟩
  · by_cases heq : id' = id
    · subst heq
      refine .inr ⟨hgone, hlast.imp_right fun hl => ?_⟩
      rw [h.rest.2.2.2]
      exact hl
    · refine .inl fun q => haside (fun hp => ?_) fun hp => ?_
      · exact ((generationDir_apart (Ne.symm heq)).append_right q).1 hp
      · exact (((inert_trash id).gens id').append_right q).1 hp
  · have ht : ¬ trashDir id <+: q := fun hp => by
      have hin := hq id hid hp
      exact hin (by simpa using hgone [])
    have hg : ¬ generationDir id <+: q := by
      rintro ⟨s, rfl⟩
      rw [hgone s] at hl
      cases hl
    rw [← haside hg ht]
    exact hl
  · refine h.listed_order (Edit.forall_rename (.inr ⟨_, rfl⟩) (.inr ⟨_, rfl⟩)) (fun src dst heq => ?_) ht hg hl
    cases heq
    exact hne

end Cleans

end Lnx
