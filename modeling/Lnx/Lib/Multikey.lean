import Mathlib.Data.Nat.Notation
import Mathlib.Logic.Function.Basic
import Mathlib.Tactic.SplitIfs

/-!
# A map with two kinds of keys

Every value has a main key and an alternate key. Inserting a value whose alternate key is
in use removes the entry that used it.

* `get_insertAll`: entries with distinct keys of both kinds that are inserted one after
  another are all there at the end.
-/

universe u v w

structure Multikey (K : Type u) (A : Type v) (V : Type w) where
  main : K → Option (A × V)
  alt : A → Option K

namespace Multikey

open Option List Function

variable {K : Type u} {A : Type v} {V : Type w} [DecidableEq K] [DecidableEq A]

omit [DecidableEq K] [DecidableEq A] in
def empty : Multikey K A V := ⟨fun _ => none, fun _ => none⟩

def get (m : Multikey K A V) (k : K) : Option V := (m.main k).map Prod.snd

/-- The value under an alternate key. -/
def getAlt (m : Multikey K A V) (a : A) : Option V := (m.alt a).bind m.get

/-- The main map without the entry that used an alternate key. -/
def dropAlt (m : Multikey K A V) (a : A) : K → Option (A × V) :=
  match m.alt a with
  | some old => update m.main old none
  | none => m.main

def insert (m : Multikey K A V) (k : K) (a : A) (v : V) : Multikey K A V :=
  let main := m.dropAlt a
  let alt := update m.alt a (some k)
  -- the alternate key that the main key had before goes
  let alt := match main k with
    | some (old, _) => if old = a then alt else update alt old none
    | none => alt
  ⟨update main k (some (a, v)), alt⟩

theorem get_insert_self (m : Multikey K A V) (k : K) (a : A) (v : V) :
    (m.insert k a v).get k = some v := by
  simp [get, insert]

variable {m : Multikey K A V} {k k' : K} {a : A} {v : V} {es : List (K × A × V)}

/-- An entry under another main key stays unless it had the alternate key. -/
theorem get_insert_of_ne (v : V) (hk : k' ≠ k) (ha : m.alt a ≠ some k') :
    (m.insert k a v).get k' = m.get k' := by
  have hdrop : m.dropAlt a k' = m.main k' := by
    unfold dropAlt
    cases hold : m.alt a with
    | none => rfl
    | some old =>
      have hne : k' ≠ old := by
        rintro rfl
        exact ha hold
      exact update_of_ne hne _ _
  simp [get, insert, update_of_ne hk, hdrop]

/-- What an alternate key refers to was inserted with it. -/
theorem alt_insert {a' : A} (h : (m.insert k a v).alt a' = some k') :
    (a' = a ∧ k' = k) ∨ m.alt a' = some k' := by
  have hupdate : ∀ {x : Option K}, update m.alt a (some k) a' = x → x = some k' →
      (a' = a ∧ k' = k) ∨ m.alt a' = some k' := by
    rintro x rfl hx
    by_cases ha : a' = a
    · subst ha
      rw [update_self] at hx
      exact .inl ⟨rfl, (some.inj hx).symm⟩
    · rw [update_of_ne ha] at hx
      exact .inr hx
  simp only [insert] at h
  split at h
  · next old _ _ =>
    split at h
    · exact hupdate rfl h
    · by_cases hold : a' = old
      · subst hold
        rw [update_self] at h
        cases h
      · rw [update_of_ne hold] at h
        exact hupdate rfl h
  · exact hupdate rfl h

/-- Entries inserted one after another. -/
def insertAll (m : Multikey K A V) (es : List (K × A × V)) : Multikey K A V :=
  es.foldl (fun m e => m.insert e.1 e.2.1 e.2.2) m

theorem get_insertAll_of_not_mem (hk : ∀ e ∈ es, e.1 ≠ k) (ha : ∀ e ∈ es, m.alt e.2.1 ≠ some k) :
    (m.insertAll es).get k = m.get k := by
  induction es generalizing m with
  | nil => rfl
  | cons e es ih =>
    have hk' : k ≠ e.1 := (hk e mem_cons_self).symm
    calc (m.insertAll (e :: es)).get k = ((m.insert e.1 e.2.1 e.2.2).insertAll es).get k := rfl
      _ = (m.insert e.1 e.2.1 e.2.2).get k := by
        refine ih (fun x hx => hk x (mem_cons_of_mem _ hx)) ?_
        intro x hx halt
        rcases alt_insert halt with ⟨-, rfl⟩ | halt
        · exact hk' rfl
        · exact ha x (mem_cons_of_mem _ hx) halt
      _ = m.get k := get_insert_of_ne _ hk' (ha e mem_cons_self)

/-- Entries with distinct keys of both kinds are all there, if none of their main keys was. -/
theorem get_insertAll (hk : es.Pairwise fun e e' => e.1 ≠ e'.1)
    (ha : es.Pairwise fun e e' => e.2.1 ≠ e'.2.1) (hm : ∀ a k, m.alt a = some k → ∀ e ∈ es, e.1 ≠ k)
    {e : K × A × V} (he : e ∈ es) :
    (m.insertAll es).get e.1 = some e.2.2 := by
  induction es generalizing m with
  | nil => cases he
  | cons x es ih =>
    rw [pairwise_cons] at hk ha
    rcases mem_cons.1 he with rfl | he
    · have hrest : ((m.insert e.1 e.2.1 e.2.2).insertAll es).get e.1 =
          (m.insert e.1 e.2.1 e.2.2).get e.1 := by
        refine get_insertAll_of_not_mem (fun x hx => (hk.1 x hx).symm) ?_
        intro x hx halt
        rcases alt_insert halt with ⟨heq, -⟩ | halt
        · exact ha.1 x hx heq.symm
        · exact hm _ _ halt e mem_cons_self rfl
      exact hrest.trans (get_insert_self _ _ _ _)
    · refine ih hk.2 ha.2 ?_ he
      intro a k halt y hy
      rcases alt_insert halt with ⟨-, rfl⟩ | halt
      · exact (hk.1 y hy).symm
      · exact hm a k halt y (mem_cons_of_mem _ hy)

/-! ## Maps whose two keys agree -/

/-- An alternate key refers to the entry that has it. -/
def Agrees (m : Multikey K A V) : Prop := ∀ a k, m.alt a = some k ↔ ∃ v, m.main k = some (a, v)

omit [DecidableEq K] [DecidableEq A] in
theorem agrees_empty : (empty : Multikey K A V).Agrees := by
  intro a k
  simp [empty]

/-- An entry with a new alternate key. -/
theorem main_insert (ha : m.alt a = none) (k : K) (v : V) :
    (m.insert k a v).main = update m.main k (some (a, v)) := by
  simp [insert, dropAlt, ha]

theorem alt_insert_self (ha : m.alt a = none) (k : K) (v : V) :
    (m.insert k a v).alt a = some k := by
  simp only [insert, dropAlt, ha]
  cases hk : m.main k with
  | none => exact update_self _ _ _
  | some e =>
    by_cases he : e.1 = a
    · simp only [he, if_true, update_self]
    · simp only [he, if_false]
      rw [update_of_ne (Ne.symm he), update_self]

theorem alt_insert_of_ne {b : A} (ha : m.alt a = none) (hb : b ≠ a) (k : K) (v : V) :
    (m.insert k a v).alt b =
      if (m.main k).map Prod.fst = some b then none else m.alt b := by
  simp only [insert, dropAlt, ha]
  cases hk : m.main k with
  | none => simp [update_of_ne hb]
  | some e =>
    simp only [map_some, some.injEq]
    by_cases he : e.1 = b
    · subst he
      simp [hb]
    · rw [if_neg he]
      by_cases hea : e.1 = a
      · rw [if_pos hea, update_of_ne hb]
      · rw [if_neg hea, update_of_ne (Ne.symm he), update_of_ne hb]

theorem Agrees.insert (h : m.Agrees) (ha : m.alt a = none) (k : K) (v : V) :
    (m.insert k a v).Agrees := by
  intro b j
  rw [main_insert ha]
  by_cases hb : b = a
  · subst hb
    rw [alt_insert_self ha]
    constructor
    · rintro ⟨⟩
      exact ⟨v, update_self _ _ _⟩
    · rintro ⟨w, hw⟩
      by_cases hj : j = k
      · rw [hj]
      · rw [update_of_ne hj] at hw
        have := (h b j).2 ⟨w, hw⟩
        rw [ha] at this
        cases this
  · rw [alt_insert_of_ne ha hb]
    by_cases hj : j = k
    · subst hj
      rw [update_self]
      constructor
      · intro halt
        split_ifs at halt with hold
        obtain ⟨w, hw⟩ := (h b j).1 halt
        rw [hw] at hold
        exact absurd rfl hold
      · rintro ⟨w, hw⟩
        cases hw
        exact absurd rfl hb
    · rw [update_of_ne hj, ← h b j]
      constructor
      · intro halt
        split_ifs at halt with hold
        exact halt
      · intro halt
        rw [if_neg ?_, halt]
        intro hold
        obtain ⟨e, he, rfl⟩ := map_eq_some_iff.1 hold
        have hk := (h e.1 k).2 ⟨e.2, he⟩
        rw [halt] at hk
        exact hj (some.inj hk)

/-- The alternate key that an entry had before refers to nothing. -/
theorem Agrees.alt_insert_old (h : m.Agrees) {b : A} {w : V} (hk : m.main k = some (b, w))
    (hab : b ≠ a) (v : V) : (m.insert k a v).alt b = none := by
  have hdrop : m.dropAlt a k = some (b, w) := by
    unfold dropAlt
    cases halt : m.alt a with
    | none => exact hk
    | some old =>
      have hne : k ≠ old := by
        rintro rfl
        obtain ⟨v', hv'⟩ := (h a k).1 halt
        exact hab (congrArg Prod.fst (some.inj (hk.symm.trans hv')))
      exact (update_of_ne hne _ _).trans hk
  simp [Multikey.insert, hdrop, hab]

/-- An entry that is there already. -/
theorem Agrees.insert_self (h : m.Agrees) (hk : m.main k = some (a, v)) : m.insert k a v = m := by
  have halt : m.alt a = some k := (h a k).2 ⟨v, hk⟩
  have hmain : update (update m.main k none) k (some (a, v)) = m.main := by
    rw [update_idem, ← hk, update_eq_self]
  have halts : update m.alt a (some k) = m.alt := by
    rw [← halt, update_eq_self]
  simp only [Multikey.insert, dropAlt, halt, update_self, hmain, halts]

omit [DecidableEq K] [DecidableEq A] in
theorem Agrees.getAlt_none (h : m.Agrees) (hget : m.getAlt a = none) : m.alt a = none := by
  cases halt : m.alt a with
  | none => rfl
  | some k =>
    obtain ⟨w, hw⟩ := (h a k).1 halt
    simp [Multikey.getAlt, halt, get, hw] at hget

omit [DecidableEq K] [DecidableEq A] in
/-- Two entries have different alternate keys. -/
theorem Agrees.unique (h : m.Agrees) {v' : V} (hk : m.main k = some (a, v))
    (hk' : m.main k' = some (a, v')) : k = k' :=
  some.inj (((h a k).2 ⟨v, hk⟩).symm.trans ((h a k').2 ⟨v', hk'⟩))

omit [DecidableEq K] [DecidableEq A] in
theorem Agrees.getAlt (h : m.Agrees) (hget : m.getAlt a = some v) :
    ∃ k, m.main k = some (a, v) := by
  obtain ⟨k, halt, hk⟩ := bind_eq_some_iff.1 hget
  obtain ⟨w, hw⟩ := (h a k).1 halt
  rw [get, hw] at hk
  cases hk
  exact ⟨k, hw⟩

end Multikey
