import Mathlib.Data.List.Infix
import Mathlib.Logic.Function.Basic

/-!
# Trees as functions of paths

A file tree is a partial function on paths, whose nodes are directories or leaves.

* `walk`: the resolution of a path, node by node, which may stop at a leaf on the way.
* `WellFormed`: the root is a directory and every node has a directory above it; kept when a
  node is added under a directory and when one with nothing below it is removed.
* `walk_of_clear`: where only directories are above a path its resolution is the value there.
-/

universe u v

namespace PathTree

open List Function

variable {ν : Type u} {α : Type v}

/-- What resolving a path comes to. -/
inductive Walk (ν : Type u) (α : Type v)
  | found (a : α)
  | missing
  /-- a leaf is on the way, and this is left of the path -/
  | stopped (leaf : α) (at_ : List ν) (rest : List ν)

/-- The end of a path that was not stopped. -/
def Walk.ofOption : Option α → Walk ν α
  | some a => .found a
  | none => .missing

section

variable (isDir : α → Bool) (t : List ν → Option α)

/-- The resolution of a path below `base`. -/
def walk (base : List ν) : List ν → Walk ν α
  | [] => .ofOption (t base)
  | n :: rest => match t base with
    | some a => if isDir a then walk (base ++ [n]) rest else .stopped a base (n :: rest)
    | none => .missing

/-- The root is a directory, and so is what every other node is in. -/
structure WellFormed : Prop where
  root : ∃ a, t [] = some a ∧ isDir a = true
  parent : ∀ p n, t (p ++ [n]) ≠ none → ∃ a, t p = some a ∧ isDir a = true

/-- Only directories are above a path. -/
def Clear (p : List ν) : Prop :=
  ∀ q n r, p = q ++ n :: r → ∀ a, t q = some a → isDir a = true

end

variable {isDir : α → Bool} {t : List ν → Option α} {p : List ν} {n : ν}

section

variable (ht : WellFormed isDir t)

include ht

/-- Above a node are directories. -/
theorem WellFormed.above {q : List ν} (r : List ν) (h : t (q ++ n :: r) ≠ none) :
    ∃ a, t q = some a ∧ isDir a = true := by
  induction r using List.reverseRecOn with
  | nil => exact ht.parent q n h
  | append_singleton r m ih =>
    refine ih ?_
    obtain ⟨a, ha, -⟩ := ht.parent (q ++ n :: r) m (by simpa using h)
    simp [ha]

theorem WellFormed.dir_above {q r : List ν} (hr : r <+: q) (h : t (q ++ [n]) ≠ none) :
    ∃ a, t r = some a ∧ isDir a = true := by
  obtain ⟨rest, rfl⟩ := hr
  cases rest with
  | nil => exact ht.parent r n (by simpa using h)
  | cons m rest => exact ht.above (rest ++ [n]) (by simpa using h)

theorem WellFormed.clear (h : t p ≠ none) : Clear isDir t p := by
  rintro q n r rfl a ha
  obtain ⟨b, hb, hdir⟩ := ht.above r h
  cases ha.symm.trans hb
  exact hdir

theorem WellFormed.append_none (h : t p = none) (r : List ν) : t (p ++ r) = none := by
  cases r with
  | nil => rwa [append_nil]
  | cons n r =>
    by_contra hne
    obtain ⟨a, ha, -⟩ := ht.above r hne
    rw [h] at ha
    cases ha

/-- A leaf has nothing below it. -/
theorem WellFormed.leaf {a : α} (hp : t p = some a) (hleaf : isDir a = false) :
    p ≠ [] ∧ ∀ n, t (p ++ [n]) = none := by
  have hnot : ¬ ∃ b, t p = some b ∧ isDir b = true := by
    rintro ⟨b, hb, hdir⟩
    cases hp.symm.trans hb
    rw [hleaf] at hdir
    cases hdir
  refine ⟨?_, fun n => by_contra fun h => hnot (ht.parent p n h)⟩
  rintro rfl
  exact hnot ht.root

end

theorem Clear.of_append {r : List ν} (h : Clear isDir t (p ++ r)) : Clear isDir t p := by
  rintro q n r' rfl a ha
  exact h q n (r' ++ r) (by simp) a ha

/-- One more name on a path to a directory, or to nothing. -/
theorem Clear.concat (h : Clear isDir t p) (hp : ∀ a, t p = some a → isDir a = true) (n : ν) :
    Clear isDir t (p ++ [n]) := by
  intro q m r hpath a ha
  rcases eq_nil_or_concat' r with rfl | ⟨r, m', rfl⟩
  · obtain ⟨rfl, -⟩ := append_inj' hpath rfl
    exact hp a ha
  · have hsplit : p ++ [n] = (q ++ m :: r) ++ [m'] := by simpa using hpath
    obtain ⟨rfl, -⟩ := append_inj' hsplit rfl
    exact h q m r rfl a ha

/-- With only directories on the way a path resolves to the node there. -/
theorem walk_of_clear (ht : WellFormed isDir t) (h : Clear isDir t p) :
    walk isDir t [] p = .ofOption (t p) := by
  suffices hbase : ∀ rest base, p = base ++ rest → walk isDir t base rest = .ofOption (t p) from
    hbase p [] rfl
  intro rest
  induction rest with
  | nil =>
    intro base hp
    rw [append_nil] at hp
    rw [hp, walk]
  | cons n rest ih =>
    intro base hp
    rw [walk]
    cases hbase : t base with
    | none =>
      rw [hp, ht.append_none hbase]
      rfl
    | some a =>
      have hdir : isDir a = true := h base n rest hp a hbase
      simp only [hdir, if_true]
      exact ih (base ++ [n]) (by simpa using hp)

section update

variable [DecidableEq ν]

/-- A node is added in a directory. -/
theorem WellFormed.add (ht : WellFormed isDir t) {a : α}
    (hparent : ∃ b, t p = some b ∧ isDir b = true) (hfree : t (p ++ [n]) = none) :
    WellFormed isDir (update t (p ++ [n]) (some a)) := by
  have hkeep : ∀ q, (∃ b, t q = some b ∧ isDir b = true) →
      ∃ b, update t (p ++ [n]) (some a) q = some b ∧ isDir b = true := by
    rintro q ⟨b, hb, hdir⟩
    have hne : q ≠ p ++ [n] := by
      rintro rfl
      rw [hfree] at hb
      cases hb
    exact ⟨b, by rw [update_of_ne hne, hb], hdir⟩
  refine ⟨hkeep [] ht.root, ?_⟩
  intro q m hq
  by_cases hpath : q ++ [m] = p ++ [n]
  · obtain ⟨rfl, -⟩ := append_inj' hpath rfl
    exact hkeep q hparent
  · rw [update_of_ne hpath] at hq
    exact hkeep q (ht.parent q m hq)

/-- A node with nothing below it is removed. -/
theorem WellFormed.remove (ht : WellFormed isDir t) (hp : p ≠ [] ∧ ∀ n, t (p ++ [n]) = none) :
    WellFormed isDir (update t p none) := by
  refine ⟨?_, ?_⟩
  · rw [update_of_ne (Ne.symm hp.1)]
    exact ht.root
  · intro q m hq
    have hold : t (q ++ [m]) ≠ none := by
      by_cases hpath : q ++ [m] = p
      · rw [hpath, update_self] at hq
        exact absurd rfl hq
      · rwa [update_of_ne hpath] at hq
    have hne : q ≠ p := by
      rintro rfl
      exact hold (hp.2 m)
    rw [update_of_ne hne]
    exact ht.parent q m hold

end update

end PathTree
