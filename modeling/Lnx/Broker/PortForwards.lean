import Lnx.Lib.Machine

/-!
# The tables of forwarded ports

A VM owner listens on host ports and relays what connects to the guest. It keeps two
tables (`runner/broker.rs` lines 71–76): `auto_forward_ports`, the ports that it
forwards because something in the guest listens on them, and `user_forwards`, those
that users asked for. `ensure_auto_forward_port` (lines 695–731) and `add_user_forward`
(lines 736–778) change them around a `bind` that may fail. A call of the latter holds
the lock of `user_forwards` from its first look at the table on; the lock of
`auto_forward_ports` is held for one look or one change at a time.

Every entry carries the call that has made it; no call reads that.

* `Forwards.step`: the steps of any number of calls.
* `Forwards.Kept`: a call that returns `Ok` has a listener, one that returns `Err` has
  left nothing in the tables, and when no call is under way every entry has a listener.
* `forwards_kept_iff`: which runs keep this. `add_user_forward` reserves its port in
  `auto_forward_ports` before it binds it and does not take that back; and it takes a
  port that it finds there for one that is listened on (`Trusts`).
-/

namespace Lnx

open List

/-- A host name and a port. -/
abbrev Addr := String × UInt16

structure PortForward where
  listen : Addr
  guest : Addr
  deriving DecidableEq

/-- Why a call fails. -/
inductive ForwardError
  | ownerStopping
  /-- the host address is already forwarded to another address of the guest -/
  | forwarded (guest : Addr)
  /-- the host address is already forwarded because the guest listens there -/
  | autoForwarded (port : UInt16)
  /-- `bind` or `set_nonblocking` -/
  | listen
  deriving DecidableEq

inductive ForwardCall
  /-- `ensure_auto_forward_port`, of an address that is the same on both sides -/
  | auto (k : Addr)
  /-- `add_user_forward` -/
  | user (f : PortForward)
  deriving DecidableEq

/-- What a call does next. -/
inductive ForwardPc
  | idle
  /-- look at `stopping` -/
  | called (c : ForwardCall)
  | autoInsert (k : Addr)
  | autoBind (k : Addr)
  | autoRemove (k : Addr)
  | userLock (f : PortForward)
  | userLook (f : PortForward)
  | userAuto (f : PortForward)
  | userReserve (f : PortForward)
  | userBind (f : PortForward)
  | userInsert (f : PortForward)
  /-- it has returned; the value `true` or `false` is the one of `ensure_auto_forward_port` -/
  | returned (c : ForwardCall) (r : Except ForwardError Bool)
  deriving DecidableEq

open ForwardPc

/-- The call is not under way. -/
def ForwardPc.quiet : ForwardPc → Bool
  | .idle | .returned _ _ => true
  | _ => false

/-- The forward that the call of `add_user_forward` is about to bind. -/
def ForwardPc.binds : ForwardPc → Option PortForward
  | .userBind f => some f
  | _ => none

/-- The forward that it is about to enter, and to return `Ok` for. -/
def ForwardPc.inserts : ForwardPc → Option PortForward
  | .userInsert f => some f
  | _ => none

/-- The forward that is to have a listener: of a call that has returned `Ok`, and if `early`,
    of one that is about to. -/
@[simp]
def ForwardPc.promised (early : Bool) : ForwardPc → Option PortForward
  | .returned (.user f) (.ok _) => some f
  | .userInsert f => if early then some f else none
  | _ => none

variable {pc : ForwardPc} {f : PortForward} {early : Bool}

theorem ForwardPc.eq_of_binds (h : pc.binds = some f) : pc = .userBind f := by
  cases pc <;> simp_all [binds]

theorem ForwardPc.eq_of_inserts (h : pc.inserts = some f) : pc = .userInsert f := by
  cases pc <;> simp_all [inserts]

structure Forwards (T : Type) where
  autoForwardPorts : List (Addr × T)
  userForwards : List ((Addr × Addr) × T)
  /-- the listeners that have been started: where they listen and what they reach -/
  listeners : List (Addr × Addr)
  /-- who holds the lock of `user_forwards` -/
  lock : Option T
  call : T → ForwardPc

/-- The steps of the calls. -/
inductive ForwardStep (T : Type)
  | call (t : T) (c : ForwardCall)
  /-- the next thing the call `t` does; `b` is what `is_stopping` returns, or whether a
      `bind` succeeds -/
  | go (t : T) (b : Bool)

/-- Whether `reserve_forward_port` enters the address. -/
def PortForward.reserved (f : PortForward) : Bool :=
  f.listen.1 == "127.0.0.1" && decide (1024 < f.listen.2)

namespace Forwards

variable {T : Type} [DecidableEq T]

/-- The call `t` goes on to `pc`. -/
def goto (s : Forwards T) (t : T) (pc : ForwardPc) : Forwards T :=
  { s with call := Function.update s.call t pc }

/-- `add_user_forward` returns, and drops its lock. -/
def leave (s : Forwards T) (t : T) (f : PortForward) (r : Except ForwardError Bool) : Forwards T :=
  { s with lock := none }.goto t (.returned (.user f) r)

def isAuto (s : Forwards T) (k : Addr) : Bool := s.autoForwardPorts.any fun e => e.1 == k

/-- The next step of a call. -/
def goOn (s : Forwards T) (t : T) (b : Bool) : Option (Forwards T) :=
  match s.call t with
  | .called (.auto k) =>
    if k.2 ≤ 1024 ∨ b then some (s.goto t (.returned (.auto k) (.ok false)))
    else some (s.goto t (.autoInsert k))
  | .autoInsert k =>
    if s.isAuto k then some (s.goto t (.returned (.auto k) (.ok false)))
    else some ({ s with autoForwardPorts := (k, t) :: s.autoForwardPorts }.goto t (.autoBind k))
  | .autoBind k =>
    if b then
      some ({ s with listeners := (k, k) :: s.listeners }.goto t (.returned (.auto k) (.ok true)))
    else some (s.goto t (.autoRemove k))
  | .autoRemove k =>
    some ({ s with autoForwardPorts := s.autoForwardPorts.filter fun e => e.1 != k }.goto t
      (.returned (.auto k) (.error .listen)))
  | .called (.user f) =>
    if b then some (s.goto t (.returned (.user f) (.error .ownerStopping)))
    else some (s.goto t (.userLock f))
  | .userLock f =>
    if s.lock = none then some ({ s with lock := some t }.goto t (.userLook f)) else none
  | .userLook f =>
    match s.userForwards.find? fun e => e.1.1 == f.listen with
    | some e =>
      if e.1.2 = f.guest then some (s.leave t f (.ok true))
      else some (s.leave t f (.error (.forwarded e.1.2)))
    | none => some (s.goto t (.userAuto f))
  | .userAuto f =>
    if s.isAuto f.listen then
      if f.guest ≠ f.listen then some (s.leave t f (.error (.autoForwarded f.listen.2)))
      else some (s.goto t (.userInsert f))
    else some (s.goto t (.userReserve f))
  -- `reserve_forward_port`; the set keeps an entry that is already there
  | .userReserve f =>
    if f.reserved ∧ s.isAuto f.listen = false then
      some ({ s with autoForwardPorts := (f.listen, t) :: s.autoForwardPorts }.goto t (.userBind f))
    else some (s.goto t (.userBind f))
  | .userBind f =>
    if b then some ({ s with listeners := (f.listen, f.guest) :: s.listeners }.goto t (.userInsert f))
    else some (s.leave t f (.error .listen))
  | .userInsert f =>
    some ({ s with userForwards := ((f.listen, f.guest), t) :: s.userForwards }.leave t f (.ok true))
  | .idle | .returned _ _ => none

def step (s : Forwards T) : ForwardStep T → Option (Forwards T)
  | .call t c => if s.call t = .idle then some (s.goto t (.called c)) else none
  | .go t b => s.goOn t b

/-- Nothing forwarded yet, and no call under way. -/
structure Initial (s : Forwards T) : Prop where
  autoForwardPorts : s.autoForwardPorts = []
  userForwards : s.userForwards = []
  call : ∀ t, s.call t = .idle

/-! ## The property -/

structure Kept (s : Forwards T) : Prop where
  /-- an `Ok` of `add_user_forward` means that there is such a listener -/
  ok : ∀ t f r, s.call t = .returned (.user f) (.ok r) → (f.listen, f.guest) ∈ s.listeners
  /-- an `Err` means that the call has left no entry -/
  err : ∀ t f e, s.call t = .returned (.user f) (.error e) →
    (∀ k, (k, t) ∉ s.autoForwardPorts) ∧ ∀ x, (x, t) ∉ s.userForwards
  /-- once all calls have returned, every entry has its listener -/
  rest : (∀ t, (s.call t).quiet = true) → (∀ e ∈ s.userForwards, e.1 ∈ s.listeners) ∧
    ∀ e ∈ s.autoForwardPorts, ∃ g, (e.1, g) ∈ s.listeners

/-- `add_user_forward` fails to bind the port that it has reserved. -/
def Strands (s : Forwards T) : ForwardStep T → Prop
  | .go t false => (s.call t).binds.any (fun f => decide ((f.listen, t) ∈ s.autoForwardPorts)) = true
  | _ => False

/-- `add_user_forward` returns `Ok` for a port that nothing listens on, because it is in
    `auto_forward_ports`. -/
def Presumes (s : Forwards T) : ForwardStep T → Prop
  | .go t _ => (s.call t).inserts.any (fun f => decide ((f.listen, f.guest) ∉ s.listeners)) = true
  | _ => False

/-- `add_user_forward` finds its port in `auto_forward_ports` while nothing listens on it. -/
def Trusts (s : Forwards T) : ForwardStep T → Prop
  | .go t _ => ∃ f, s.call t = .userAuto f ∧ s.isAuto f.listen = true ∧ (f.listen, f.guest) ∉ s.listeners
  | _ => False

instance (s : Forwards T) : (a : ForwardStep T) → Decidable (s.Strands a)
  | .go t false => inferInstanceAs (Decidable ((s.call t).binds.any _ = true))
  | .go _ true | .call _ _ => .isFalse not_false

instance (s : Forwards T) : (a : ForwardStep T) → Decidable (s.Presumes a)
  | .go t _ => inferInstanceAs (Decidable ((s.call t).inserts.any _ = true))
  | .call _ _ => .isFalse not_false

/-- `Strands` or `Presumes` -/
def Breaks (s : Forwards T) (a : ForwardStep T) : Prop := s.Strands a ∨ s.Presumes a

/-- `Breaks`, or if `early`, with `Trusts` in the place of `Presumes`. -/
def BreaksAt (early : Bool) (s : Forwards T) (a : ForwardStep T) : Prop :=
  s.Strands a ∨ if early then s.Trusts a else s.Presumes a

instance (s : Forwards T) (a : ForwardStep T) : Decidable (s.Breaks a) :=
  inferInstanceAs (Decidable (_ ∨ _))

variable {s : Forwards T} {k : Addr} {c : ForwardPc}

theorem strands_iff {t : T} (hpc : s.call t = .userBind f) :
    s.Strands (.go t false) ↔ (f.listen, t) ∈ s.autoForwardPorts := by
  simp [Strands, hpc, binds]

omit [DecidableEq T] in
theorem presumes_iff {t : T} {b : Bool} (hpc : s.call t = .userInsert f) :
    s.Presumes (.go t b) ↔ (f.listen, f.guest) ∉ s.listeners := by
  simp [Presumes, hpc, inserts]

variable {s s' : Forwards T} {t : T}

@[simp] theorem goto_call_self (s : Forwards T) (t : T) (pc : ForwardPc) : (s.goto t pc).call t = pc :=
  Function.update_self ..

theorem leave_call_self (s : Forwards T) (t : T) (f : PortForward) (r : Except ForwardError Bool) :
    (s.leave t f r).call t = .returned (.user f) r :=
  Function.update_self ..

/-- A step that breaks the property does so at once. -/
theorem Kept.not_breaks {a : ForwardStep T} (h : s.step a = some s') (hk : s'.Kept) : ¬ s.Breaks a := by
  cases a with
  | call t c => rintro (h | h) <;> exact h
  | go t b =>
    rintro (hb | hb)
    · cases b with
      | true => exact hb
      | false =>
        obtain ⟨f, hf, hmem⟩ := (Option.any_eq_true _ _).1 hb
        have hpc := eq_of_binds hf
        simp only [step, goOn, hpc] at h
        cases h
        exact (hk.err t f .listen (leave_call_self ..)).1 f.listen (of_decide_eq_true hmem)
    · obtain ⟨f, hf, hno⟩ := (Option.any_eq_true _ _).1 hb
      have hpc := eq_of_inserts hf
      simp only [step, goOn, hpc] at h
      cases h
      exact of_decide_eq_true hno (hk.ok t f true (leave_call_self ..))

/-! ## Runs that keep it -/

/-- An entry of `auto_forward_ports` that a call at `pc` has made is one that the call
    has yet to bind or to remove, or has a listener. -/
def Backs (s : Forwards T) (k : Addr) : ForwardPc → Prop
  | .autoBind k' | .autoRemove k' => k' = k
  | .userBind f => f.listen = k
  | .userInsert _ | .returned (.auto _) (.ok true) | .returned (.user _) (.ok _) =>
    ∃ g, (k, g) ∈ s.listeners
  | _ => False

structure Inv (early : Bool) (s : Forwards T) : Prop where
  auto : ∀ k t, (k, t) ∈ s.autoForwardPorts → s.Backs k (s.call t)
  user : ∀ x t, (x, t) ∈ s.userForwards → x ∈ s.listeners ∧ ∃ f, s.call t = .returned (.user f) (.ok true)
  ok : ∀ t f, (s.call t).promised early = some f → (f.listen, f.guest) ∈ s.listeners

omit [DecidableEq T] in
theorem Backs.mono (h : s.Backs k pc) (hl : s.listeners ⊆ s'.listeners) : s'.Backs k pc := by
  have hlisten : (∃ g, (k, g) ∈ s.listeners) → ∃ g, (k, g) ∈ s'.listeners := by
    rintro ⟨g, hg⟩
    exact ⟨g, hl hg⟩
  unfold Backs at h
  split at h
  · exact h
  · exact h
  · exact h
  · exact hlisten h
  · exact hlisten h
  · exact hlisten h
  · exact h.elim

omit [DecidableEq T] in
/-- A call that is not under way backs its entries by listeners. -/
theorem Backs.listener (h : s.Backs k pc) (hq : pc.quiet = true) : ∃ g, (k, g) ∈ s.listeners := by
  unfold Backs at h
  split at h
  · cases hq
  · cases hq
  · cases hq
  · exact h
  · exact h
  · exact h
  · exact h.elim

/-- One call goes on. What the others rely on stays, and the entries of the call itself
    are as its new place has it. -/
theorem Inv.goto (hs : s.Inv early) (hcall : s'.call = s.call) (hl : s.listeners ⊆ s'.listeners)
    (hauto : ∀ k t', t' ≠ t → (k, t') ∈ s'.autoForwardPorts → (k, t') ∈ s.autoForwardPorts)
    (hauto_self : ∀ k, (k, t) ∈ s'.autoForwardPorts → s'.Backs k pc)
    (huser : ∀ x t', t' ≠ t → (x, t') ∈ s'.userForwards → (x, t') ∈ s.userForwards)
    (huser_self : ∀ x, (x, t) ∈ s'.userForwards →
      x ∈ s'.listeners ∧ ∃ f, pc = .returned (.user f) (.ok true))
    (hok : ∀ f, pc.promised early = some f → (f.listen, f.guest) ∈ s'.listeners) :
    (s'.goto t pc).Inv early := by
  have hother : ∀ t', t' ≠ t → (s'.goto t pc).call t' = s.call t' := by
    intro t' ht
    rw [← hcall]
    exact Function.update_of_ne ht ..
  refine ⟨fun k t' hk => ?_, fun x t' hx => ?_, fun t' => ?_⟩
  · by_cases ht : t' = t
    · subst ht
      rw [goto_call_self]
      exact hauto_self k hk
    · rw [hother t' ht]
      exact (hs.auto k t' (hauto k t' ht hk)).mono hl
  · by_cases ht : t' = t
    · subst ht
      rw [goto_call_self]
      exact huser_self x hx
    · rw [hother t' ht]
      obtain ⟨hx, hf⟩ := hs.user x t' (huser x t' ht hx)
      exact ⟨hl hx, hf⟩
  · by_cases ht : t' = t
    · subst ht
      rw [goto_call_self]
      exact hok
    · rw [hother t' ht]
      exact fun f h => hl (hs.ok t' f h)

/-- A call that has no entry in `user_forwards` goes on, and makes none. -/
theorem Inv.goto_auto (hs : s.Inv early) (hpc : s.call t = c)
    (hc : ∀ f, c ≠ .returned (.user f) (.ok true)) (hcall : s'.call = s.call)
    (huser : s'.userForwards = s.userForwards) (hl : s.listeners ⊆ s'.listeners)
    (hauto : ∀ e ∈ s'.autoForwardPorts, e ∈ s.autoForwardPorts ∨ e.2 = t ∧ s'.Backs e.1 pc)
    (hback : ∀ k, (k, t) ∈ s'.autoForwardPorts → (k, t) ∈ s.autoForwardPorts → s.Backs k c → s'.Backs k pc)
    (hok : ∀ f, pc.promised early = some f → (f.listen, f.guest) ∈ s'.listeners) :
    (s'.goto t pc).Inv early := by
  refine hs.goto hcall hl (fun k t' ht hk => ?_) (fun k hk => ?_) (fun x t' _ hx => huser ▸ hx)
    (fun x hx => ?_) hok
  · exact (hauto _ hk).resolve_right fun h => ht h.1
  · rcases hauto _ hk with hold | hnew
    · exact hback k hk hold (hpc ▸ hs.auto k t hold)
    · exact hnew.2
  · rw [huser] at hx
    obtain ⟨-, f, hf⟩ := hs.user x t hx
    exact absurd (hpc.symm.trans hf) (hc f)

/-- A call that changes no table. -/
theorem Inv.goto_same (hs : s.Inv early) (hpc : s.call t = c)
    (hc : ∀ f, c ≠ .returned (.user f) (.ok true)) (hback : ∀ k, s.Backs k c → s.Backs k pc)
    (hok : ∀ f, pc.promised early = some f → (f.listen, f.guest) ∈ s.listeners) :
    (s.goto t pc).Inv early :=
  hs.goto_auto hpc hc rfl rfl (List.Subset.refl _) (fun _ => .inl) (fun k _ _ => hback k) hok

/-- A call enters an address. -/
theorem Inv.goto_enter (hs : s.Inv early) (hpc : s.call t = c)
    (hc : ∀ f, c ≠ .returned (.user f) (.ok true)) (hnone : ∀ k', ¬ s.Backs k' c)
    (hback : Backs { s with autoForwardPorts := (k, t) :: s.autoForwardPorts } k pc)
    (hok : pc.promised early = none) :
    ({ s with autoForwardPorts := (k, t) :: s.autoForwardPorts }.goto t pc).Inv early := by
  refine hs.goto_auto hpc hc rfl rfl (List.Subset.refl _) ?_ (fun k' _ _ h => absurd h (hnone k'))
    fun f h => by rw [hok] at h; cases h
  intro e he
  rcases mem_cons.1 he with rfl | he
  · exact .inr ⟨rfl, hback⟩
  · exact .inl he

omit [DecidableEq T] in
theorem Inv.lock (hs : s.Inv early) (o : Option T) : ({ s with lock := o } : Forwards T).Inv early :=
  ⟨fun k t hk => (hs.auto k t hk).mono (List.Subset.refl _), hs.user, hs.ok⟩

theorem Inv.goOn {b : Bool} (hs : s.Inv early) (hb : ¬ s.BreaksAt early (.go t b)) (h : s.goOn t b = some s') :
    s'.Inv early := by
  -- what has the mark of the call itself depends on where it is
  obtain ⟨c, hpc⟩ : ∃ c, s.call t = c := ⟨_, rfl⟩
  rw [Forwards.goOn, hpc] at h
  cases c with
  | idle | returned => cases h
  | called c =>
    cases c with
    | auto k | user f =>
      dsimp only at h
      split_ifs at h <;> cases h <;> exact hs.goto_same hpc (by simp) (fun _ h => h) (by simp)
  | autoInsert k =>
    dsimp only at h
    split_ifs at h <;> cases h
    · exact hs.goto_same hpc (by simp) (fun _ h => h) (by simp)
    · exact hs.goto_enter hpc (by simp) (fun _ h => h) rfl (by simp)
  | autoBind k =>
    dsimp only at h
    split_ifs at h <;> cases h
    · refine hs.goto_auto hpc (by simp) rfl rfl (subset_cons_self _ _) (fun _ => .inl) ?_ (by simp)
      rintro k' - - rfl
      exact ⟨k, mem_cons_self⟩
    · exact hs.goto_same hpc (by simp) (fun _ h => h) (by simp)
  | autoRemove k =>
    cases h
    refine hs.goto_auto hpc (by simp) rfl rfl (List.Subset.refl _)
      (fun _ h => .inl (mem_filter.1 h).1) ?_ (by simp)
    rintro k' hk - rfl
    simp at hk
  | userLock f =>
    dsimp only at h
    split_ifs at h
    cases h
    exact (hs.lock (some t)).goto_same hpc (by simp) (fun _ h => h) (by simp)
  | userLook f =>
    dsimp only at h
    split at h
    · next e he =>
      split_ifs at h with hg <;> cases h
      · refine (hs.lock none).goto_same hpc (by simp) (fun _ h => h.elim) ?_
        rintro f' heq
        cases heq
        have hmem := mem_of_find?_eq_some he
        have hlisten : e.1.1 = f.listen := by simpa using List.find?_some he
        have hx := (hs.user e.1 e.2 hmem).1
        rwa [← hlisten, ← hg]
      · exact (hs.lock none).goto_same hpc (by simp) (fun _ h => h) (by simp)
    · cases h
      exact hs.goto_same hpc (by simp) (fun _ h => h) (by simp)
  | userAuto f =>
    dsimp only at h
    split_ifs at h <;> cases h
    · exact (hs.lock none).goto_same hpc (by simp) (fun _ h => h) (by simp)
    · next hauto _ =>
      refine hs.goto_same hpc (by simp) (fun _ h => h.elim) fun f' heq => ?_
      cases early <;> cases heq
      by_contra hno
      exact hb (.inr ⟨f, hpc, hauto, hno⟩)
    · exact hs.goto_same hpc (by simp) (fun _ h => h) (by simp)
  | userReserve f =>
    dsimp only at h
    split_ifs at h <;> cases h
    · exact hs.goto_enter hpc (by simp) (fun _ h => h) rfl (by simp)
    · exact hs.goto_same hpc (by simp) (fun _ h => h.elim) (by simp)
  | userBind f =>
    dsimp only at h
    split_ifs at h with hbind <;> cases h
    · refine hs.goto_auto hpc (by simp) rfl rfl (subset_cons_self _ _) (fun _ => .inl) ?_ (by simp)
      rintro k' - - rfl
      exact ⟨f.guest, mem_cons_self⟩
    · -- it has reserved nothing, or it would leave that behind
      obtain rfl : b = false := by simpa using hbind
      refine (hs.lock none).goto_auto hpc (by simp) rfl rfl (List.Subset.refl _) (fun _ => .inl) ?_
        (by simp)
      rintro k' hk - rfl
      exact absurd (.inl ((strands_iff hpc).2 hk)) hb
  | userInsert f =>
    cases h
    have hl : (f.listen, f.guest) ∈ s.listeners := by
      cases early with
      | true => exact hs.ok t f (hpc ▸ rfl)
      | false =>
        by_contra hno
        exact hb (.inr ((presumes_iff (b := b) hpc).2 hno))
    refine hs.goto rfl (List.Subset.refl _) (fun _ _ _ h => h) (fun k' hk => ?_)
      (fun x t' ht hx => ?_) (fun x hx => ?_) ?_
    · have hk' := hs.auto k' t hk
      rw [hpc] at hk'
      exact hk'
    · rcases mem_cons.1 hx with heq | hx
      · cases heq
        exact absurd rfl ht
      · exact hx
    · rcases mem_cons.1 hx with heq | hx
      · cases heq
        exact ⟨hl, f, rfl⟩
      · obtain ⟨-, f', hf⟩ := hs.user x t hx
        rw [hpc] at hf
        cases hf
    · rintro f' heq
      cases heq
      exact hl

theorem Inv.step {a : ForwardStep T} (hs : s.Inv early) (hb : ¬ s.BreaksAt early a) (h : s.step a = some s') :
    s'.Inv early := by
  cases a with
  | call t c =>
    obtain ⟨hidle, rfl⟩ := of_guard h
    exact hs.goto_same hidle (by simp) (fun _ h => h) (by simp)
  | go t b => exact hs.goOn hb h

omit [DecidableEq T] in
theorem Inv.kept (hs : s.Inv early) : s.Kept := by
  refine ⟨fun t f r h => hs.ok t f (h ▸ rfl), fun t f e hpc => ⟨fun k hk => ?_, fun x hx => ?_⟩, fun hq => ⟨fun e he => ?_,
    fun e he => ?_⟩⟩
  · have := hs.auto k t hk
    rw [hpc] at this
    exact this
  · obtain ⟨-, f', hf⟩ := hs.user x t hx
    cases hpc.symm.trans hf
  · exact (hs.user e.1 e.2 he).1
  · exact (hs.auto e.1 e.2 he).listener (hq e.2)

end Forwards

open Forwards in
/-- Any number of calls of `ensure_auto_forward_port` and `add_user_forward` run in any
    order, and each `bind` succeeds or fails. The tables are kept as they should be if and
    only if no `add_user_forward` fails to bind a port that it has reserved, and none
    returns `Ok` without a listener because it has found the port among those forwarded
    automatically. For the second it is enough that none finds a port there on which
    nothing listens yet. -/
theorem forwards_kept_iff {T : Type} [DecidableEq T] {s : Forwards T} (hs : s.Initial)
    (as : List (ForwardStep T)) :
    (Along step Kept s as ↔ Avoids step Breaks s as) ∧
      (Avoids step (fun s a => s.Strands a ∨ s.Trusts a) s as → Along step Kept s as) := by
  have hinv (early : Bool) : s.Inv early := by
    refine ⟨fun k t hk => ?_, fun x t hx => ?_, fun t f hf => ?_⟩
    · rw [hs.autoForwardPorts] at hk
      cases hk
    · rw [hs.userForwards] at hx
      cases hx
    · rw [hs.call t] at hf
      cases hf
  have hkept (early : Bool) (hav : Avoids step (BreaksAt early) s as) : Along step Kept s as :=
    (along_of_avoids (fun s a s' hi hb h => hi.step hb h) (hinv early) hav).mono fun s hi => hi.kept
  exact ⟨⟨avoids_of_along fun s a s' h hk => hk.not_breaks h, hkept false⟩, hkept true⟩

/-- An owner that forwards nothing. -/
def noForwards : Forwards Bool := ⟨[], [], [], none, fun _ => .idle⟩

/-- Host port 8080 to the guest's. -/
def forward8080 : PortForward := ⟨("127.0.0.1", 8080), ("127.0.0.1", 8080)⟩

/-- A call of `add_user_forward` that meets nobody, up to its `bind`. -/
def userCall (t : Bool) (f : PortForward) : List (ForwardStep Bool) :=
  [.call t (.user f), .go t false, .go t false, .go t false, .go t false, .go t false]

/-- The `bind` of a first call fails. A second call, of the same forward, returns `Ok`
    without trying, and nothing listens. -/
theorem forward_ok_without_listener : noForwards.Initial ∧
    ((userCall false forward8080 ++ .go false false :: userCall true forward8080).foldlM
      Forwards.step noForwards).map (fun s => (s.call false, s.call true, s.listeners,
        s.autoForwardPorts)) =
      some (.returned (.user forward8080) (.error .listen), .returned (.user forward8080) (.ok true), [],
        [(("127.0.0.1", 8080), false)]) := by
  exact ⟨⟨rfl, rfl, fun _ => rfl⟩, rfl⟩

/-- A call whose `bind` succeeds leaves the tables as they should be. -/
theorem forwards_kept_bound :
    Along Forwards.step Forwards.Kept noForwards
      (userCall false forward8080 ++ ([.go false true, .go false true] : List (ForwardStep Bool))) := by
  refine (forwards_kept_iff ⟨rfl, rfl, fun _ => rfl⟩ _).1.2 ?_
  decide

end Lnx
