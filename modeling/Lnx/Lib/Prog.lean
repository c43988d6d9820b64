import Mathlib.Logic.Relation

/-!
# Programs over atomic operations

A program that talks to its surroundings only through atomic operations is a
value of `Prog Op α`: it has returned, or it performs one operation and goes on
with the answer. What the operations may do is given apart, as a relation
(`Sem`), so that one program can be studied under faults, crashes and
interference.

* `Prog.Meets`: rely–guarantee correctness. Before every operation the
  environment may take a `rely` step; every operation is a `guar` step; a
  returned value satisfies the postcondition.
* `Prog.Answers`: the same for fallible programs; `Prog.Ensures`
  with one postcondition for success and one for failure.
* `Prog.meets_bind`, `Prog.ensures_bind`, `Prog.ensures_forEach`: the rules the
  specifications of larger programs are assembled with.
* `Calls.reachable_inv`: an invariant of a system that runs one call after
  another, each of which may be cut short after any operation.
-/

namespace Lnx

/-- A sequence returns only if both parts do. -/
theorem bind_eq_ok {ε α β : Type} {x : Except ε α} {f : α → Except ε β} {b : β} :
    x >>= f = .ok b ↔ ∃ a, x = .ok a ∧ f a = .ok b := by
  cases x with
  | error e | ok a => simp [bind, Except.bind]

/-- A program that returns an `α` after finitely many operations of `Op`. -/
inductive Prog (Op : Type → Type) (α : Type) : Type 1
  | ret (a : α)
  | op {β : Type} (o : Op β) (k : β → Prog Op α)

/-- What operations may do: `sem β o s r s'` when `o`, performed in `s`, may
    answer `r` and leave `s'`. -/
abbrev Sem (Op : Type → Type) (σ : Type) := ∀ β : Type, Op β → σ → β → σ → Prop

namespace Prog

variable {Op : Type → Type} {α β γ ε σ : Type}

/-- Run `p`, then `f` on its result. -/
def bind : Prog Op α → (α → Prog Op β) → Prog Op β
  | .ret a, f => f a
  | .op o k, f => .op o fun r => bind (k r) f

instance : Monad (Prog Op) where
  pure := .ret
  bind := Prog.bind

@[simp] theorem pure_eq (a : α) : (pure a : Prog Op α) = .ret a := rfl

@[simp] theorem ret_bind (a : α) (f : α → Prog Op β) : (Prog.ret a >>= f) = f a := rfl

@[simp] theorem op_bind (o : Op γ) (k : γ → Prog Op α) (f : α → Prog Op β) :
    (Prog.op o k >>= f) = .op o fun r => k r >>= f := rfl

/-- The same program over other operations. -/
def lift {Op' : Type → Type} (f : ∀ β : Type, Op β → Op' β) : Prog Op α → Prog Op' α
  | .ret a => .ret a
  | .op o k => .op (f _ o) fun r => lift f (k r)

/-- A fallible program for every element of a list, stopping at the first error. -/
def forEach (body : γ → ExceptT ε (Prog Op) Unit) : List γ → ExceptT ε (Prog Op) Unit
  | [] => pure ()
  | x :: xs => do body x; forEach body xs

/-! ## Executions -/

/-- `p`, run alone from `s`, may return `a` in `s'`. -/
inductive Runs (sem : Sem Op σ) : Prog Op α → σ → α → σ → Prop
  | ret (a : α) (s : σ) : Runs sem (.ret a) s a s
  | op {β : Type} {o : Op β} {k : β → Prog Op α} {s s' s'' : σ} {r : β} {a : α} :
      sem β o s r s' → Runs sem (k r) s' a s'' → Runs sem (.op o k) s a s''

/-- `p`, run alone from `s`, may be at `p'` in `s'`. -/
inductive Partial (sem : Sem Op σ) : Prog Op α → σ → Prog Op α → σ → Prop
  | here (p : Prog Op α) (s : σ) : Partial sem p s p s
  | op {β : Type} {o : Op β} {k : β → Prog Op α} {s s' s'' : σ} {r : β} {p' : Prog Op α} :
      sem β o s r s' → Partial sem (k r) s' p' s'' → Partial sem (.op o k) s p' s''

/-- The run a handler of the operations picks out. -/
def exec (h : ∀ β : Type, Op β → σ → β × σ) : Prog Op α → σ → α × σ
  | .ret a, s => (a, s)
  | .op o k, s => exec h (k (h _ o s).1) (h _ o s).2

variable {sem : Sem Op σ} {h : ∀ β : Type, Op β → σ → β × σ} {a : α}

theorem exec_runs (hh : ∀ (β : Type) (o : Op β) s, sem β o s (h β o s).1 (h β o s).2)
    (p : Prog Op α) (s : σ) : Runs sem p s (p.exec h s).1 (p.exec h s).2 := by
  induction p generalizing s with
  | ret a => exact .ret a s
  | op o k ih => exact .op (hh _ o s) (ih _ _)

/-- The first `n` operations of that run. -/
def execFor (h : ∀ β : Type, Op β → σ → β × σ) : Prog Op α → Nat → σ → Prog Op α × σ
  | p, 0, s => (p, s)
  | .ret a, _ + 1, s => (.ret a, s)
  | .op o k, n + 1, s => execFor h (k (h _ o s).1) n (h _ o s).2

theorem execFor_partial (hh : ∀ (β : Type) (o : Op β) s, sem β o s (h β o s).1 (h β o s).2)
    (n : Nat) (p : Prog Op α) (s : σ) :
    Partial sem p s (p.execFor h n s).1 (p.execFor h n s).2 := by
  induction n generalizing p s with
  | zero =>
    rw [execFor]
    exact .here p s
  | succ n ih =>
    cases p with
    | ret a => exact .here _ s
    | op o k => exact .op (hh _ o s) (ih _ _)

/-! ## Rely and guarantee -/

/-- Started in `s`, with the environment taking a `rely` step before every
    operation, `p` performs only `guar` steps and returns only with `post`. -/
def Meets (sem : Sem Op σ) (rely guar : σ → σ → Prop) (post : α → σ → Prop) :
    Prog Op α → σ → Prop
  | .ret a, s => post a s
  | .op o k, s => ∀ s₁, rely s s₁ → ∀ r s₂, sem _ o s₁ r s₂ →
      guar s₁ s₂ ∧ Meets sem rely guar post (k r) s₂

/-- `Meets` for a fallible program. -/
abbrev Answers (sem : Sem Op σ) (rely guar : σ → σ → Prop) (post : Except ε α → σ → Prop)
    (p : ExceptT ε (Prog Op) α) (s : σ) : Prop :=
  Meets (α := Except ε α) sem rely guar post p s

/-- A postcondition of a fallible program: `post` when it returns a value, `err`
    when it fails. -/
def Ends (post : α → σ → Prop) (err : σ → Prop) : Except ε α → σ → Prop
  | .ok a, s => post a s
  | .error _, s => err s

/-- `Answers` with such a postcondition. -/
def Ensures (sem : Sem Op σ) (rely guar : σ → σ → Prop) (post : α → σ → Prop) (err : σ → Prop)
    (p : ExceptT ε (Prog Op) α) (s : σ) : Prop :=
  Answers sem rely guar (Ends post err) p s

variable {guar' : σ → σ → Prop} {post post' : α → σ → Prop} {p : Prog Op α} {s s' : σ}
  {f : α → Prog Op β} {I : σ → Prop}

section rules

variable {sem : Sem Op σ} {rely guar : σ → σ → Prop} {err : σ → Prop}

theorem meets_mono {rely' : σ → σ → Prop} (hr : ∀ s s', rely' s s' → rely s s')
    (hg : ∀ s s', guar s s' → guar' s s') (hp : ∀ a s', post a s' → post' a s')
    (h : Meets sem rely guar post p s) :
    Meets sem rely' guar' post' p s := by
  induction p generalizing s with
  | ret a => exact hp _ _ h
  | op o k ih =>
    intro s₁ h₁ r s₂ h₂
    obtain ⟨hg', hk⟩ := h s₁ (hr _ _ h₁) r s₂ h₂
    exact ⟨hg _ _ hg', ih r hk⟩

theorem meets_post (h : Meets sem rely guar post p s) (hp : ∀ a s', post a s' → post' a s') :
    Meets sem rely guar post' p s :=
  meets_mono (fun _ _ h => h) (fun _ _ h => h) hp h

/-- Two specifications of one program. -/
theorem meets_and (h : Meets sem rely guar post p s) (h' : Meets sem rely guar' post' p s) :
    Meets sem rely guar (fun a s => post a s ∧ post' a s) p s := by
  induction p generalizing s with
  | ret a => exact ⟨h, h'⟩
  | op o k ih =>
    intro s₁ h₁ r s₂ h₂
    obtain ⟨hg, hk⟩ := h s₁ h₁ r s₂ h₂
    exact ⟨hg, ih r hk (h' s₁ h₁ r s₂ h₂).2⟩

/-- A postcondition the environment cannot break survives an environment step. -/
theorem meets_rely (htrans : ∀ a b c, rely a b → rely b c → rely a c)
    (hpost : ∀ a s s', rely s s' → post a s → post a s') (h : Meets sem rely guar post p s)
    (hs : rely s s') : Meets sem rely guar post p s' := by
  cases p with
  | ret a => exact hpost _ _ _ hs h
  | op o k => exact fun s₁ h₁ r s₂ h₂ => h s₁ (htrans _ _ _ hs h₁) r s₂ h₂

theorem meets_bind {post : β → σ → Prop}
    (h : Meets sem rely guar (fun a s' => Meets sem rely guar post (f a) s') p s) :
    Meets sem rely guar post (p >>= f) s := by
  induction p generalizing s with
  | ret a => exact h
  | op o k ih =>
    intro s₁ h₁ r s₂ h₂
    obtain ⟨hg, hk⟩ := h s₁ h₁ r s₂ h₂
    exact ⟨hg, ih r hk⟩

/-- What a composed program meets, its first part meets with the rest to come. -/
theorem meets_of_bind {post : β → σ → Prop} (h : Meets sem rely guar post (p >>= f) s) :
    Meets sem rely guar (fun a s' => Meets sem rely guar post (f a) s') p s := by
  induction p generalizing s with
  | ret a => exact h
  | op o k ih =>
    intro s₁ h₁ r s₂ h₂
    obtain ⟨hg, hk⟩ := h s₁ h₁ r s₂ h₂
    exact ⟨hg, ih r hk⟩

theorem meets_runs (hrefl : ∀ s, rely s s) (h : Meets sem rely guar post p s)
    (hr : Runs sem p s a s') :
    post a s' := by
  induction hr with
  | ret a s => exact h
  | op ho _ ih => exact ih (h _ (hrefl _) _ _ ho).2

/-- What a whole run does is a step of a transitive guarantee. -/
theorem meets_runs_guar (h : Meets sem rely guar post p s) (hr : Runs sem p s a s')
    (hrefl : ∀ s, rely s s) (grefl : ∀ s, guar s s)
    (gtrans : ∀ a b c, guar a b → guar b c → guar a c) : guar s s' := by
  induction hr with
  | ret a s => exact grefl s
  | op ho _ ih =>
    obtain ⟨hg, hk⟩ := h _ (hrefl _) _ _ ho
    exact gtrans _ _ _ hg (ih hk)

/-- What the guarantee keeps holds wherever a run may be cut short. -/
theorem meets_partial {p' : Prog Op α} (h : Meets sem rely guar post p s)
    (hr : Partial sem p s p' s') (hrefl : ∀ s, rely s s) (hI : ∀ s s', I s → guar s s' → I s')
    (hs : I s) : I s' ∧ Meets sem rely guar post p' s' := by
  induction hr with
  | here p s => exact ⟨hs, h⟩
  | op ho _ ih =>
    obtain ⟨hg, hk⟩ := h _ (hrefl _) _ _ ho
    exact ih hk (hI _ _ hs hg)

/-- What the guarantee and the environment keep may be used at every step. -/
theorem meets_inv (h : Meets sem rely guar post p s) (hrely : ∀ s s', I s → rely s s' → I s')
    (hguar : ∀ s s', I s → guar s s' → I s') (hs : I s) :
    Meets sem rely (fun s s' => I s ∧ guar s s') (fun a s' => post a s' ∧ I s') p s := by
  induction p generalizing s with
  | ret a => exact ⟨h, hs⟩
  | op o k ih =>
    intro s₁ h₁ r s₂ h₂
    obtain ⟨hg, hk⟩ := h s₁ h₁ r s₂ h₂
    have hs₁ := hrely _ _ hs h₁
    exact ⟨⟨hs₁, hg⟩, ih r hk (hguar _ _ hs₁ hg)⟩

/-- The bind rule of fallible programs, with a postcondition for errors too. -/
theorem answers_bind {post : Except ε β → σ → Prop} {Q : Except ε α → σ → Prop}
    {p : ExceptT ε (Prog Op) α} {f : α → ExceptT ε (Prog Op) β} (h : Answers sem rely guar Q p s)
    (hok : ∀ a s', Q (.ok a) s' → Answers sem rely guar post (f a) s')
    (herr : ∀ e s', Q (.error e) s' → post (.error e) s') :
    Answers sem rely guar post (p >>= f) s := by
  refine meets_bind (meets_post h fun r s' hr => ?_)
  cases r with
  | ok a => exact hok a s' hr
  | error e => exact herr e s' hr

theorem ensures_pure (h : post a s) :
    Ensures sem rely guar post err (pure a : ExceptT ε (Prog Op) α) s := h

theorem ensures_throw {e : ε} (h : err s) :
    Ensures sem rely guar post err (throw e : ExceptT ε (Prog Op) α) s := h

theorem ensures_post {p : ExceptT ε (Prog Op) α} (h : Ensures sem rely guar post err p s)
    (hp : ∀ a s', post a s' → post' a s') :
    Ensures sem rely guar post' err p s :=
  meets_post h fun r s' hr => by
    cases r with
    | ok a => exact hp a s' hr
    | error e => exact hr

theorem ensures_bind {post : β → σ → Prop} {mid : α → σ → Prop} {p : ExceptT ε (Prog Op) α}
    {f : α → ExceptT ε (Prog Op) β} (h : Ensures sem rely guar mid err p s)
    (hf : ∀ a s', mid a s' → Ensures sem rely guar post err (f a) s') :
    Ensures sem rely guar post err (p >>= f) s :=
  answers_bind h hf fun _ _ he => he

/-- The loop rule: `I` holds of the elements still to come. -/
theorem ensures_forEach {body : γ → ExceptT ε (Prog Op) Unit} {I : List γ → σ → Prop}
    (hbody : ∀ x xs s, I (x :: xs) s → Ensures sem rely guar (fun _ s' => I xs s') err (body x) s)
    (xs : List γ) (h : I xs s) :
    Ensures sem rely guar (fun _ s' => I [] s') err (forEach body xs) s := by
  induction xs generalizing s with
  | nil => exact ensures_pure h
  | cons x xs ih => exact ensures_bind (hbody x xs s h) fun _ _ h' => ih h'

end rules

end Prog

/-! ## Systems that run calls -/

/-- A state, and the call in progress with what is left of its program. -/
structure Config (Op : Type → Type) (σ C R : Type) where
  state : σ
  running : Option (C × Prog Op R)

/-- A system that runs one call at a time: which calls may start, the program
    of each, what operations do, what the environment may do meanwhile, and
    what is left of the state when the process dies. -/
structure Calls (Op : Type → Type) (σ C R : Type) where
  init : σ → Prop
  enabled : σ → C → Prop
  prog : C → Prog Op R
  sem : Sem Op σ
  env : Option C → σ → σ → Prop
  crash : σ → σ → Prop

namespace Calls

variable {Op : Type → Type} {σ C R : Type} (S : Calls Op σ C R)

/-- One step of the system. -/
inductive Next : Config Op σ C R → Config Op σ C R → Prop
  | start {w : σ} {c : C} : S.enabled w c → Next ⟨w, none⟩ ⟨w, some (c, S.prog c)⟩
  | step {β : Type} {o : Op β} {k : β → Prog Op R} {w w' : σ} {c : C} {r : β} :
      S.sem β o w r w' → Next ⟨w, some (c, .op o k)⟩ ⟨w', some (c, k r)⟩
  | finish {w : σ} {c : C} {a : R} : Next ⟨w, some (c, .ret a)⟩ ⟨w, none⟩
  | env {w w' : σ} {x : Option (C × Prog Op R)} :
      S.env (x.map Prod.fst) w w' → Next ⟨w, x⟩ ⟨w', x⟩
  | crash {w w' : σ} {x : Option (C × Prog Op R)} : S.crash w w' → Next ⟨w, x⟩ ⟨w', none⟩

/-- The configurations of the runs of the system. -/
inductive Reachable : Config Op σ C R → Prop
  | init {w : σ} : S.init w → Reachable ⟨w, none⟩
  | next {x y : Config Op σ C R} : Reachable x → S.Next x y → Reachable y

/-- What the calls owe each other: every call, started where `inv` and `rest` hold,
    takes only steps of its guarantee and returns only with its postcondition;
    these steps and the environment keep `inv`; the environment keeps the
    postcondition, which implies `rest`, and `rest` between calls. -/
structure Keeps (inv rest : σ → Prop) (guar : C → σ → σ → Prop) (post : C → R → σ → Prop) :
    Prop where
  init : ∀ w, S.init w → inv w ∧ rest w
  call : ∀ w c, inv w → rest w → S.enabled w c →
    (S.prog c).Meets S.sem (S.env (some c)) (guar c) (post c) w
  guar : ∀ c w w', inv w → guar c w w' → inv w'
  env : ∀ c w w', inv w → S.env c w w' → inv w'
  envPost : ∀ c a w w', S.env (some c) w w' → post c a w → post c a w'
  envRest : ∀ w w', S.env none w w' → rest w → rest w'
  envTrans : ∀ c a b d, S.env c a b → S.env c b d → S.env c a d
  envRefl : ∀ c w, S.env c w w
  ret : ∀ c a w, post c a w → rest w
  crash : ∀ w w', inv w → S.crash w w' → inv w' ∧ rest w'

variable {S} {inv rest : σ → Prop} {guar : C → σ → σ → Prop} {post : C → R → σ → Prop}

section

variable (hk : S.Keeps inv rest guar post)

include hk

/-- The invariant holds in every reachable configuration, `rest` between calls, and
    what is left of a call in progress still meets the call's specification. -/
theorem reachable_inv {x : Config Op σ C R} (hx : S.Reachable x) :
    inv x.state ∧ (x.running = none → rest x.state) ∧ ∀ c p, x.running = some (c, p) →
      p.Meets S.sem (S.env (some c)) (guar c) (post c) x.state := by
  induction hx with
  | init h => exact ⟨(hk.init _ h).1, fun _ => (hk.init _ h).2, fun _ _ h => by cases h⟩
  | next _ hn ih =>
    obtain ⟨hi, hr, hm⟩ := ih
    cases hn with
    | start he =>
      refine ⟨hi, nofun, fun c p h => ?_⟩
      cases h
      exact hk.call _ _ hi (hr rfl) he
    | step ho =>
      obtain ⟨hg, hm'⟩ := hm _ _ rfl _ (hk.envRefl _ _) _ _ ho
      refine ⟨hk.guar _ _ _ hi hg, nofun, fun c p h => ?_⟩
      cases h
      exact hm'
    | finish => exact ⟨hi, fun _ => hk.ret _ _ _ (hm _ _ rfl), fun _ _ h => by cases h⟩
    | @env w w' running he =>
      refine ⟨hk.env _ _ _ hi he, fun h => ?_, fun c p h => ?_⟩
      · cases h
        exact hk.envRest _ _ he (hr rfl)
      · cases h
        exact Prog.meets_rely (hk.envTrans _) (hk.envPost c) (hm _ _ rfl) he
    | crash hc => exact ⟨(hk.crash _ _ hi hc).1, fun _ => (hk.crash _ _ hi hc).2, fun _ _ h => by cases h⟩

variable {w w' : σ} {c : C}

/-- Every operation of a reachable call in progress is a step of its guarantee. -/
theorem reachable_step {β : Type} {o : Op β} {k : β → Prog Op R} {r : β}
    (hx : S.Reachable ⟨w, some (c, .op o k)⟩) (ho : S.sem β o w r w') : guar c w w' :=
  ((reachable_inv hk hx).2.2 c _ rfl _ (hk.envRefl _ _) _ _ ho).1

/-- A call that has returned has met its postcondition. -/
theorem reachable_post {a : R} (hx : S.Reachable ⟨w, some (c, .ret a)⟩) : post c a w :=
  (reachable_inv hk hx).2.2 c _ rfl

end

/-- A call run for some time without a break. -/
theorem reachable_partial {p p' : Prog Op R} (hx : S.Reachable ⟨w, some (c, p)⟩)
    (hr : Prog.Partial S.sem p w p' w') : S.Reachable ⟨w', some (c, p')⟩ := by
  induction hr with
  | here p s => exact hx
  | op ho _ ih => exact ih (hx.next (.step ho))

/-- A call run to its end without a break. -/
theorem reachable_runs {p : Prog Op R} {a : R} (hx : S.Reachable ⟨w, some (c, p)⟩)
    (hr : Prog.Runs S.sem p w a w') :
    S.Reachable ⟨w', some (c, .ret a)⟩ := by
  induction hr with
  | ret a s => exact hx
  | op ho _ ih => exact ih (hx.next (.step ho))

end Calls

end Lnx
