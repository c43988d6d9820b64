import Mathlib.Data.List.Infix
import Mathlib.Data.List.Nodup

/-!
# Trees with named children

Finite trees whose inner nodes list their children by name, read and changed
along paths. A directory tree is the example in mind; the names and the data at
the leaves are arbitrary.

* `Tree.get`, `Tree.put`, `Tree.del`: the subtree at a path, replacing it,
  removing it.
* `Tree.Apart`: two paths neither of which runs through the other. A change at
  a path is seen below it (`get_put_append`, `get_del_append`) and nowhere apart
  from it (`get_put_apart`, `get_del_apart`).
* `Tree.peek`: what stands at a path without its children, which a change
  elsewhere leaves alone even on the way to it (`peek_put`, `peek_del`).
* `Tree.Distinct`: no node lists a name twice.
-/

namespace Lnx

open Option List

/-! ## Association lists -/

namespace Assoc

variable {ν β : Type} [DecidableEq ν]

/-- The first value listed under a name. -/
@[simp] def get (n : ν) : List (ν × β) → Option β
  | [] => none
  | (m, b) :: l => if m = n then some b else get n l

/-- List `b` under `n`, in place of what is listed there or else at the end. -/
@[simp] def set (n : ν) (b : β) : List (ν × β) → List (ν × β)
  | [] => [(n, b)]
  | (m, c) :: l => if m = n then (n, b) :: l else (m, c) :: set n b l

/-- Drop everything listed under a name. -/
def del (n : ν) (l : List (ν × β)) : List (ν × β) := l.filter fun e => e.1 ≠ n

/-- The names listed. -/
@[simp] def names (l : List (ν × β)) : List ν := l.map Prod.fst

@[simp] theorem get_set_self (n : ν) (b : β) (l : List (ν × β)) : get n (set n b l) = some b := by
  induction l with
  | nil => simp
  | cons e l ih => by_cases h : e.1 = n <;> simp [h, ih]

variable {m n : ν} {b : β}

theorem get_set_ne (h : m ≠ n) (b : β) (l : List (ν × β)) : get n (set m b l) = get n l := by
  induction l with
  | nil => simp [h]
  | cons e l ih =>
    by_cases hm : e.1 = m
    · simp [hm, h]
    · by_cases hn : e.1 = n
      · have hne : n ≠ m := h.symm
        simp [hn, hne]
      · simp [hm, hn, ih]

@[simp] theorem get_del_self (n : ν) (l : List (ν × β)) : get n (del n l) = none := by
  induction l with
  | nil => rfl
  | cons e l ih => by_cases h : e.1 = n <;> simp_all [del]

theorem get_del_ne (h : m ≠ n) (l : List (ν × β)) : get n (del m l) = get n l := by
  induction l with
  | nil => rfl
  | cons e l ih =>
    by_cases hm : e.1 = m
    · have hn : e.1 ≠ n := by rw [hm]; exact h
      simp_all [del]
    · by_cases hn : e.1 = n <;> simp_all [del]

variable {l : List (ν × β)}

theorem get_eq_none_iff : get n l = none ↔ n ∉ names l := by
  induction l with
  | nil => simp
  | cons e l ih =>
    by_cases h : e.1 = n
    · simp [h]
    · simp_all [eq_comm]

theorem get_isSome_iff : (get n l).isSome ↔ n ∈ names l := by
  rw [← not_iff_not, ← get_eq_none_iff]
  simp

theorem mem_of_get (h : get n l = some b) : (n, b) ∈ l := by
  induction l with
  | nil => simp at h
  | cons e l ih =>
    by_cases hn : e.1 = n
    · have hb : e.2 = b := by simpa [hn] using h
      subst hn hb
      exact mem_cons_self
    · exact mem_cons_of_mem _ (ih (by simpa [hn] using h))

theorem get_of_mem (hl : (names l).Nodup) (h : (n, b) ∈ l) : get n l = some b := by
  induction l with
  | nil => cases h
  | cons e l ih =>
    simp only [names, map_cons, nodup_cons] at hl
    rcases mem_cons.1 h with rfl | h
    · simp
    · have hne : e.1 ≠ n := fun he => hl.1 (he ▸ mem_map_of_mem (f := Prod.fst) h)
      simp [hne, ih hl.2 h]

theorem names_set_of_mem (h : n ∈ names l) : names (set n b l) = names l := by
  induction l with
  | nil => cases h
  | cons e l ih =>
    by_cases hn : e.1 = n
    · simp [hn]
    · have hl : n ∈ names l := by
        rcases mem_cons.1 h with he | h
        · exact absurd he.symm hn
        · exact h
      have hrest := ih hl
      simp_all

theorem set_of_not_mem (h : n ∉ names l) : set n b l = l ++ [(n, b)] := by
  induction l with
  | nil => rfl
  | cons e l ih =>
    simp only [names, map_cons, mem_cons, not_or] at h
    have hn : e.1 ≠ n := fun he => h.1 he.symm
    simp [hn, ih h.2]

theorem nodup_names_set (h : (names l).Nodup) : (names (set n b l)).Nodup := by
  by_cases hn : n ∈ names l
  · rwa [names_set_of_mem hn]
  · rw [set_of_not_mem hn]
    simpa [nodup_append] using ⟨h, fun m c hm he => hn (he ▸ mem_map_of_mem hm)⟩

theorem nodup_names_del (h : (names l).Nodup) : (names (del n l)).Nodup :=
  h.sublist (filter_sublist.map _)

theorem mem_set {e : ν × β} (h : e ∈ set n b l) : e = (n, b) ∨ e ∈ l := by
  induction l with
  | nil => exact .inl (by simpa using h)
  | cons x l ih =>
    by_cases hx : x.1 = n
    · simp only [set, hx, ite_true, mem_cons] at h
      exact h.imp id (mem_cons_of_mem _)
    · simp only [set, hx, ite_false, mem_cons] at h
      rcases h with h | h
      · exact .inr (h ▸ mem_cons_self)
      · exact (ih h).imp id (mem_cons_of_mem _)

end Assoc

open Assoc

/-! ## Trees -/

/-- A tree with data at its leaves and named children at its inner nodes. -/
inductive Tree (ν α : Type) : Type
  | leaf (a : α)
  | node (entries : List (ν × Tree ν α))

namespace Tree

variable {ν α : Type}

/-- Induction that gives the statement for every child of a node. -/
theorem induct {P : Tree ν α → Prop} (leaf : ∀ a, P (.leaf a))
    (node : ∀ es, (∀ e ∈ es, P e.2) → P (.node es)) : ∀ t, P t
  | .leaf a => leaf a
  | .node es => node es fun e _he => induct leaf node e.2
termination_by t => sizeOf t
decreasing_by
  have h := sizeOf_lt_of_mem _he
  cases e
  simp only [Tree.node.sizeOf_spec, Prod.mk.sizeOf_spec] at *
  omega

/-- No node lists a name twice. -/
inductive Distinct : Tree ν α → Prop
  | leaf (a : α) : Distinct (.leaf a)
  | node {es : List (ν × Tree ν α)} : (Assoc.names es).Nodup → (∀ e ∈ es, Distinct e.2) →
      Distinct (.node es)

/-- Neither path runs through the other. -/
def Apart (p q : List ν) : Prop := ¬ p <+: q ∧ ¬ q <+: p

variable {p q : List ν} {n : ν} {t t' u : Tree ν α} {es : List (ν × Tree ν α)}

theorem Apart.symm (h : Apart p q) : Apart q p := ⟨h.2, h.1⟩

@[simp] theorem apart_cons_self : Apart (n :: p) (n :: q) ↔ Apart p q := by
  simp [Apart]

@[simp] theorem not_apart_nil_left : ¬ Apart [] q := fun h => h.1 nil_prefix

@[simp] theorem not_apart_nil_right : ¬ Apart q [] := fun h => h.2 nil_prefix

theorem apart_of_ne {m : ν} (h : n ≠ m) (p q : List ν) : Apart (n :: p) (m :: q) := by
  constructor <;> rw [cons_prefix_cons] <;> rintro ⟨he, -⟩
  · exact h he
  · exact h he.symm

theorem Apart.not_append_prefix (h : Apart p q) (r s : List ν) : ¬ p ++ r <+: q ++ s := by
  intro hp
  rcases prefix_or_prefix_of_prefix ((prefix_append p r).trans hp) (prefix_append q s) with h' | h'
  · exact h.1 h'
  · exact h.2 h'

theorem Apart.append (h : Apart p q) (r s : List ν) : Apart (p ++ r) (q ++ s) :=
  ⟨h.not_append_prefix r s, h.symm.not_append_prefix s r⟩

theorem Apart.append_left (h : Apart p q) (r : List ν) : Apart (p ++ r) q := by
  simpa using h.append r []

theorem Apart.append_right (h : Apart p q) (s : List ν) : Apart p (q ++ s) := by
  simpa using h.append [] s

variable [DecidableEq ν]

/-- The subtree at a path. -/
def get : Tree ν α → List ν → Option (Tree ν α)
  | t, [] => some t
  | .leaf _, _ :: _ => none
  | .node es, n :: p =>
    match Assoc.get n es with
    | none => none
    | some c => c.get p

/-- The tree with `u` at a path, if the path's parent is a node. -/
def put : Tree ν α → List ν → Tree ν α → Option (Tree ν α)
  | _, [], u => some u
  | .leaf _, _ :: _, _ => none
  | .node es, [n], u => some (.node (Assoc.set n u es))
  | .node es, n :: m :: p, u =>
    match Assoc.get n es with
    | none => none
    | some c => (c.put (m :: p) u).map fun c' => .node (Assoc.set n c' es)

/-- The tree without what stands at a path. -/
def del : Tree ν α → List ν → Tree ν α
  | t, [] => t
  | .leaf a, _ :: _ => .leaf a
  | .node es, [n] => .node (Assoc.del n es)
  | .node es, n :: m :: p =>
    match Assoc.get n es with
    | none => .node es
    | some c => .node (Assoc.set n (c.del (m :: p)) es)

@[simp] theorem get_nil (t : Tree ν α) : t.get [] = some t := by cases t <;> rfl

@[simp] theorem get_leaf_cons (a : α) (n : ν) (p : List ν) : (leaf a : Tree ν α).get (n :: p) = none :=
  rfl

theorem get_node_cons (es : List (ν × Tree ν α)) (n : ν) (p : List ν) :
    (node es).get (n :: p) = (Assoc.get n es).bind fun c => c.get p := by
  simp only [get]
  cases Assoc.get n es <;> rfl

theorem get_append (t : Tree ν α) (p q : List ν) :
    t.get (p ++ q) = (t.get p).bind fun u => u.get q := by
  induction p generalizing t with
  | nil => simp
  | cons n p ih =>
    cases t with
    | leaf a => rfl
    | node es =>
      rw [cons_append, get_node_cons, get_node_cons]
      cases Assoc.get n es with
      | none => rfl
      | some c => exact ih c

theorem put_node_cons_cons (es : List (ν × Tree ν α)) (n m : ν) (p : List ν) (u : Tree ν α) :
    (node es).put (n :: m :: p) u =
      (Assoc.get n es).bind fun c => (c.put (m :: p) u).map fun c' => .node (Assoc.set n c' es) := by
  simp only [put]
  cases Assoc.get n es <;> rfl

/-- A change below a node sets one of its children: to the new subtree, or to the child changed. -/
theorem exists_of_put_cons (h : t.put (n :: p) u = some t') :
    ∃ es c, t = .node es ∧ t' = .node (Assoc.set n c es) ∧
      (p = [] ∧ c = u ∨ ∃ c₀, Assoc.get n es = some c₀ ∧ c₀.put p u = some c) := by
  cases t with
  | leaf a => cases h
  | node es =>
    cases p with
    | nil =>
      cases h
      exact ⟨es, u, rfl, rfl, .inl ⟨rfl, rfl⟩⟩
    | cons m p =>
      rw [put_node_cons_cons] at h
      obtain ⟨c₀, hc₀, h⟩ := bind_eq_some_iff.1 h
      obtain ⟨c, hc, rfl⟩ := map_eq_some_iff.1 h
      exact ⟨es, c, rfl, rfl, .inr ⟨c₀, hc₀, hc⟩⟩

/-- A removal below a tree finds nothing, drops a child, or changes one. -/
theorem del_cons_cases (t : Tree ν α) (n : ν) (p : List ν) :
    (t.del (n :: p) = t ∧ ∀ q, t.get (n :: q) = none) ∨
      ∃ es, t = .node es ∧ (p = [] ∧ t.del (n :: p) = .node (Assoc.del n es) ∨
        ∃ c, p ≠ [] ∧ Assoc.get n es = some c ∧
          t.del (n :: p) = .node (Assoc.set n (c.del p) es)) := by
  cases t with
  | leaf a => exact .inl ⟨by cases p <;> rfl, fun _ => rfl⟩
  | node es =>
    cases p with
    | nil => exact .inr ⟨es, rfl, .inl ⟨rfl, rfl⟩⟩
    | cons m p =>
      cases hc : Assoc.get n es with
      | none => exact .inl ⟨by simp [del, hc], fun q => by simp [get_node_cons, hc]⟩
      | some c => exact .inr ⟨es, rfl, .inr ⟨c, by simp, hc, by simp [del, hc]⟩⟩

/-- A change at a path is what stands at the path and below it. -/
theorem get_put_append (h : t.put p u = some t') (q : List ν) : t'.get (p ++ q) = u.get q := by
  induction p generalizing t t' with
  | nil => cases t <;> (cases h; rfl)
  | cons n p ih =>
    obtain ⟨es, c, rfl, rfl, hc⟩ := exists_of_put_cons h
    rw [cons_append, get_node_cons, get_set_self]
    rcases hc with ⟨rfl, rfl⟩ | ⟨c₀, -, hc⟩
    · rfl
    · exact ih hc

/-- A change at a path is not seen apart from it. -/
theorem get_put_apart (h : t.put p u = some t') (hpq : Apart p q) : t'.get q = t.get q := by
  induction p generalizing t t' q with
  | nil => exact absurd hpq not_apart_nil_left
  | cons n p ih =>
    cases q with
    | nil => exact absurd hpq not_apart_nil_right
    | cons x q =>
      obtain ⟨es, c, rfl, rfl, hc⟩ := exists_of_put_cons h
      rw [get_node_cons, get_node_cons]
      by_cases hx : n = x
      · subst hx
        have hpq := apart_cons_self.1 hpq
        rcases hc with ⟨rfl, -⟩ | ⟨c₀, hc₀, hc⟩
        · exact absurd hpq not_apart_nil_left
        · rw [get_set_self, hc₀]
          exact ih hc hpq
      · rw [get_set_ne hx]

/-- What was removed is gone, with everything below it. -/
theorem get_del_append (hp : p ≠ []) (q : List ν) : (t.del p).get (p ++ q) = none := by
  induction p generalizing t with
  | nil => exact absurd rfl hp
  | cons n p ih =>
    rcases del_cons_cases t n p with ⟨hd, hnone⟩ | ⟨es, -, ⟨-, hd⟩ | ⟨c, hp, -, hd⟩⟩
    · rw [hd, cons_append, hnone]
    · rw [hd, cons_append, get_node_cons, get_del_self]
      rfl
    · rw [hd, cons_append, get_node_cons, get_set_self]
      exact ih hp

theorem get_del_apart (hpq : Apart p q) : (t.del p).get q = t.get q := by
  induction p generalizing t q with
  | nil => exact absurd hpq not_apart_nil_left
  | cons n p ih =>
    cases q with
    | nil => exact absurd hpq not_apart_nil_right
    | cons x q =>
      rcases del_cons_cases t n p with ⟨hd, -⟩ | ⟨es, rfl, ⟨rfl, hd⟩ | ⟨c, -, hc, hd⟩⟩
      · rw [hd]
      · have hx : n ≠ x := by
          rintro rfl
          exact not_apart_nil_left (apart_cons_self.1 hpq)
        rw [hd, get_node_cons, get_node_cons, get_del_ne hx]
      · rw [hd, get_node_cons, get_node_cons]
        by_cases hx : n = x
        · subst hx
          rw [get_set_self, hc]
          exact ih (apart_cons_self.1 hpq)
        · rw [get_set_ne hx]

/-! ### What stands at a path, without its children -/

/-- The data of a leaf; nothing for a node. -/
@[simp] def label : Tree ν α → Option α
  | .leaf a => some a
  | .node _ => none

/-- What stands at a path: nothing, a node (`some none`), or a leaf. -/
def peek (t : Tree ν α) (p : List ν) : Option (Option α) := (t.get p).map label

omit [DecidableEq ν] in
theorem map_label_eq_leaf {o : Option (Tree ν α)} {a : α} :
    o.map label = some (some a) ↔ o = some (.leaf a) := by
  rcases o with _ | b | es <;> simp

omit [DecidableEq ν] in
theorem map_label_eq_node {o : Option (Tree ν α)} : o.map label = some none ↔ ∃ es, o = some (.node es) := by
  rcases o with _ | b | es <;> simp

theorem peek_eq_leaf {a : α} : t.peek p = some (some a) ↔ t.get p = some (.leaf a) := map_label_eq_leaf

theorem peek_node_cons (es : List (ν × Tree ν α)) (n : ν) (p : List ν) :
    (node es).peek (n :: p) = (Assoc.get n es).bind fun c => c.peek p := by
  rw [peek, get_node_cons]
  cases Assoc.get n es <;> rfl

/-- A change at a path is seen only there and below. -/
theorem peek_put (h : t.put p u = some t') (hq : ¬ p <+: q) : t'.peek q = t.peek q := by
  induction p generalizing t t' q with
  | nil => exact absurd nil_prefix hq
  | cons n p ih =>
    obtain ⟨es, c, rfl, rfl, hc⟩ := exists_of_put_cons h
    cases q with
    | nil => rfl
    | cons x q =>
      rw [peek_node_cons, peek_node_cons]
      by_cases hx : n = x
      · subst hx
        have hq : ¬ p <+: q := fun hp => hq (by simpa using hp)
        rcases hc with ⟨rfl, -⟩ | ⟨c₀, hc₀, hc⟩
        · exact absurd nil_prefix hq
        · rw [get_set_self, hc₀]
          exact ih hc hq
      · rw [get_set_ne hx]

theorem peek_del (hq : ¬ p <+: q) : (t.del p).peek q = t.peek q := by
  induction p generalizing t q with
  | nil => exact absurd nil_prefix hq
  | cons n p ih =>
    rcases del_cons_cases t n p with ⟨hd, -⟩ | ⟨es, rfl, hd⟩
    · rw [hd]
    · cases q with
      | nil => rcases hd with ⟨-, hd⟩ | ⟨c, -, -, hd⟩ <;> (rw [hd]; rfl)
      | cons x q =>
        rcases hd with ⟨rfl, hd⟩ | ⟨c, -, hc, hd⟩
        · have hx : n ≠ x := by
            rintro rfl
            simp at hq
          rw [hd, peek_node_cons, peek_node_cons, get_del_ne hx]
        · rw [hd, peek_node_cons, peek_node_cons]
          by_cases hx : n = x
          · subst hx
            rw [get_set_self, hc]
            exact ih fun hp => hq (by simpa using hp)
          · rw [get_set_ne hx]

/-- A change to a child changes its parent's list. -/
theorem get_put_concat (h : t.put (p ++ [n]) u = some t') :
    ∃ es, t.get p = some (.node es) ∧ t'.get p = some (.node (Assoc.set n u es)) := by
  induction p generalizing t t' with
  | nil =>
    obtain ⟨es, c, rfl, rfl, ⟨-, rfl⟩ | ⟨c₀, -, hc⟩⟩ := exists_of_put_cons h
    · exact ⟨es, rfl, rfl⟩
    · cases c₀ <;> (cases hc; exact ⟨es, rfl, rfl⟩)
  | cons m p ih =>
    obtain ⟨es, c, rfl, rfl, ⟨hp, -⟩ | ⟨c₀, hc₀, hc⟩⟩ := exists_of_put_cons h
    · simp at hp
    · obtain ⟨es', hes, hes'⟩ := ih hc
      refine ⟨es', ?_, ?_⟩
      · rw [get_node_cons, hc₀]
        exact hes
      · rw [get_node_cons, get_set_self]
        exact hes'

/-- Removing a child drops it from its parent's list. -/
theorem get_del_concat (h : t.get p = some (.node es)) :
    (t.del (p ++ [n])).get p = some (.node (Assoc.del n es)) := by
  induction p generalizing t with
  | nil =>
    cases h
    rfl
  | cons m p ih =>
    cases t with
    | leaf a => cases h
    | node es' =>
      rw [get_node_cons] at h
      obtain ⟨c, hc, h⟩ := bind_eq_some_iff.1 h
      have hdel : (node es').del (m :: (p ++ [n])) = .node (Assoc.set m (c.del (p ++ [n])) es') := by
        cases p <;> simp [del, hc]
      rw [cons_append, hdel, get_node_cons, get_set_self]
      exact ih h

/-- A change is possible exactly where the parent is a node. -/
theorem put_concat_isSome (h : t.get p = some (.node es)) : (t.put (p ++ [n]) u).isSome := by
  induction p generalizing t with
  | nil =>
    cases h
    rfl
  | cons m p ih =>
    cases t with
    | leaf a => cases h
    | node es' =>
      rw [get_node_cons] at h
      obtain ⟨c, hc, h⟩ := bind_eq_some_iff.1 h
      have hsome := ih h
      cases p with
      | nil | cons x p => simpa [put, hc] using hsome

theorem Distinct.set (hn : (Assoc.names es).Nodup) (hes : ∀ e ∈ es, Distinct e.2) (hu : u.Distinct) :
    (Tree.node (Assoc.set n u es)).Distinct := by
  refine .node (nodup_names_set hn) fun e he => ?_
  rcases Assoc.mem_set he with rfl | he
  · exact hu
  · exact hes e he

theorem Distinct.put (ht : t.Distinct) (hu : u.Distinct) (h : t.put p u = some t') :
    t'.Distinct := by
  induction p generalizing t t' with
  | nil => cases t <;> (cases h; exact hu)
  | cons n p ih =>
    obtain ⟨es, c, rfl, rfl, hc⟩ := exists_of_put_cons h
    obtain _ | ⟨hn, hes⟩ := ht
    rcases hc with ⟨-, rfl⟩ | ⟨c₀, hc₀, hc⟩
    · exact .set hn hes hu
    · exact .set hn hes (ih (hes _ (mem_of_get hc₀)) hc)

theorem Distinct.del (ht : t.Distinct) : (t.del p).Distinct := by
  induction p generalizing t with
  | nil => cases t <;> exact ht
  | cons n p ih =>
    rcases del_cons_cases t n p with ⟨hd, -⟩ | ⟨es, rfl, hd⟩
    · rwa [hd]
    · obtain _ | ⟨hn, hes⟩ := ht
      rcases hd with ⟨-, hd⟩ | ⟨c, -, hc, hd⟩
      · rw [hd]
        exact .node (nodup_names_del hn) fun e he => hes e (mem_of_mem_filter he)
      · rw [hd]
        exact .set hn hes (ih (hes _ (mem_of_get hc)))

theorem Distinct.get (ht : t.Distinct) (h : t.get p = some u) : u.Distinct := by
  induction p generalizing t with
  | nil =>
    cases h
    exact ht
  | cons n p ih =>
    cases ht with
    | leaf a => cases h
    | node hn hes =>
      rw [get_node_cons] at h
      obtain ⟨c, hc, h⟩ := bind_eq_some_iff.1 h
      exact ih (hes _ (mem_of_get hc)) h

end Tree

end Lnx
