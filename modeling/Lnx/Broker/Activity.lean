import Lnx.Broker.State
import Lnx.Lib.Machine
import Mathlib.Algebra.BigOperators.Group.Finset.Basic
import Mathlib.Data.Fintype.Basic
import Mathlib.Data.Multiset.Range
import Mathlib.Tactic.Abel

/-!
# Accounting for activity

`active` (`runner/broker.rs` line 63) counts what keeps the VM awake: the open channels
that count, and the `ActivityGuard`s. It is an atomic of its own. A channel's unit is
added in `open_channel` before the channel is in the table, and taken off after the
channel has been removed: by `close_channel`, which has dropped the lock of the table
by then, by `open_channel` itself when the agent is gone, or by `drain_locked`.

Every access to the table, to its lock and to `active` is one step here. Each unit has
a number, and the units that have been taken off are recorded; no thread reads either.

* `Activity.step`: the steps of any number of threads.
* `Activity.Accounts`: each unit is with exactly one channel or thread, or released.
* `active_accounts`: in every reachable state `active` counts the open channels, the
  guards, the channels removed whose unit is still to be taken off, and the channels
  counted that are not in the table yet.
-/

namespace Lnx

open List

/-- An open channel, with the unit of `active` that it holds if it counts. -/
structure CountedChannel where
  client : ℕ
  unit : Option ℕ
  deriving DecidableEq

/-- What a thread does next. -/
inductive ActivityPc
  | idle
  -- `open_channel`
  | openLock (c : ChannelId) (channel : BrokerChannel)
  | openCheck (c : ChannelId) (channel : BrokerChannel)
  | openAdd (c : ChannelId) (channel : BrokerChannel)
  | openInsert (c : ChannelId) (client : ℕ) (unit : Option ℕ)
  | openSend (c : ChannelId) (unit : Option ℕ)
  | openRemove (c : ChannelId) (unit : Option ℕ)
  | openSub (unit : Option ℕ)
  -- `close_channel`
  | closeLock (c : ChannelId)
  | closeRemove (c : ChannelId)
  | closeUnlock (unit : Option ℕ)
  | closeSub (unit : Option ℕ)
  -- `deliver_to_client`, of a `Close` or of another message
  | deliverLock (c : ChannelId) (closes : Bool)
  | deliverGet (c : ChannelId) (closes : Bool)
  | deliverSend (c : ChannelId) (closes : Bool)
  -- `drain` and `begin_shutdown`
  | drainLock (shutdown : Bool)
  | drainSet (shutdown : Bool)
  | drainTake
  | drainSub (units : List ℕ)
  deriving DecidableEq

variable {pc : ActivityPc}

namespace ActivityPc

/-- The unit that has been added for a channel that is not in the table yet. -/
def counted : ActivityPc → List ℕ
  | openInsert _ _ unit => unit.toList
  | _ => []

/-- The units of removed channels that are still to be taken off. -/
def removed : ActivityPc → List ℕ
  | openSub unit | closeUnlock unit | closeSub unit => unit.toList
  | drainSub units => units
  | _ => []

/-- Whether the thread has the lock of the table. -/
def locked : ActivityPc → Bool
  | openCheck _ _ | openAdd _ _ | openInsert _ _ _ | openSend _ _ | openRemove _ _ | openSub _
  | closeRemove _ | closeUnlock _ | deliverGet _ _ | drainSet _ | drainTake | drainSub _ => true
  | _ => false

/-- The channel that the thread is about to enter into the table. -/
@[simp] def opening : ActivityPc → Option ChannelId
  | openAdd c _ | openInsert c _ _ => some c
  | _ => none

/-- The channel that the thread has entered, and its unit. -/
def entered : ActivityPc → Option (ChannelId × Option ℕ)
  | openSend c unit | openRemove c unit => some (c, unit)
  | _ => none

theorem locked_of_opening {c : ChannelId} (h : pc.opening = some c) : pc.locked = true := by
  cases pc <;> first | rfl | cases h

theorem locked_of_entered {x : ChannelId × Option ℕ} (h : pc.entered = some x) :
    pc.locked = true := by
  cases pc <;> first | rfl | cases h

end ActivityPc

structure Activity (T : Type) where
  channels : List (ChannelId × CountedChannel)
  stopping : Bool
  active : BitVec 64
  /-- the `ActivityGuard`s that live -/
  guards : ℕ
  lock : Option T
  /-- how many units have been added for channels -/
  opened : ℕ
  /-- the units of channels that have been taken off -/
  released : List ℕ
  pc : T → ActivityPc

/-- The calls that threads make. -/
inductive ActivityCall
  | openChannel (c : ChannelId) (channel : BrokerChannel)
  | closeChannel (c : ChannelId)
  | deliverToClient (c : ChannelId) (closes : Bool)
  | drain
  | beginShutdown
  deriving DecidableEq

@[simp] def ActivityCall.start : ActivityCall → ActivityPc
  | openChannel c channel => .openLock c channel
  | closeChannel c => .closeLock c
  | deliverToClient c closes => .deliverLock c closes
  | drain => .drainLock false
  | beginShutdown => .drainLock true

inductive ActivityAct (T : Type)
  | call (t : T) (call : ActivityCall)
  /-- what `t` does next; `ok` is whether `prepare` and `before_dispatch` succeed, or the
      sending to the agent -/
  | go (t : T) (ok : Bool)
  /-- `hold_awake` -/
  | hold
  /-- an `ActivityGuard` is dropped -/
  | drop

namespace Activity

variable {T : Type} [DecidableEq T]

def goto (s : Activity T) (t : T) (pc : ActivityPc) : Activity T :=
  { s with pc := Function.update s.pc t pc }

/-- Takes the lock, or waits. -/
def acquire (s : Activity T) (t : T) (pc : ActivityPc) : Option (Activity T) :=
  if s.lock = none then some ({ s with lock := some t }.goto t pc) else none

/-- Drops the lock. -/
def leave (s : Activity T) (t : T) (pc : ActivityPc) : Activity T :=
  { s with lock := none }.goto t pc

/-- `active.fetch_sub(units.len())` -/
def takeOff (s : Activity T) (units : List ℕ) : Activity T :=
  { s with active := s.active - BitVec.ofNat 64 units.length, released := s.released ++ units }

def ids (s : Activity T) : List ChannelId := s.channels.map Prod.fst

/-- The unit of the channel `c`, if there is one that counts. -/
def unitAt (l : List (ChannelId × CountedChannel)) (c : ChannelId) : Option ℕ :=
  (l.find? fun e => e.1 == c).bind fun e => e.2.unit

/-- `channels.remove(&c)` -/
def remove (s : Activity T) (c : ChannelId) : Activity T :=
  { s with channels := s.channels.filter fun e => e.1 != c }

/-- The units of the channels of a table. -/
def units (l : List (ChannelId × CountedChannel)) : List ℕ := l.filterMap fun e => e.2.unit

/-- The next step of a thread. -/
def goOn (s : Activity T) (t : T) (ok : Bool) : Option (Activity T) :=
  match s.pc t with
  | .idle => none
  | .openLock c channel => s.acquire t (.openCheck c channel)
  | .openCheck c channel =>
    if s.stopping ∨ c ∈ s.ids ∨ !ok then some (s.leave t .idle) else some (s.goto t (.openAdd c channel))
  | .openAdd c channel =>
    if channel.countsAsActive then
      some ({ s with active := s.active + 1, opened := s.opened + 1 }.goto t
        (.openInsert c channel.client (some s.opened)))
    else some (s.goto t (.openInsert c channel.client none))
  | .openInsert c client unit =>
    some ({ s with channels := s.channels ++ [(c, CountedChannel.mk client unit)] }.goto t (.openSend c unit))
  | .openSend c unit => if ok then some (s.leave t .idle) else some (s.goto t (.openRemove c unit))
  | .openRemove c unit => some ((s.remove c).goto t (.openSub unit))
  | .openSub unit => some ((s.takeOff unit.toList).leave t .idle)
  | .closeLock c => s.acquire t (.closeRemove c)
  | .closeRemove c => some ((s.remove c).goto t (.closeUnlock (unitAt s.channels c)))
  | .closeUnlock unit => some (s.leave t (.closeSub unit))
  | .closeSub unit => some ((s.takeOff unit.toList).goto t .idle)
  | .deliverLock c closes => s.acquire t (.deliverGet c closes)
  | .deliverGet c closes => some (s.leave t (.deliverSend c closes))
  | .deliverSend c closes => some (s.goto t (if closes then .closeLock c else .idle))
  | .drainLock shutdown => s.acquire t (.drainSet shutdown)
  | .drainSet shutdown => some ({ s with stopping := s.stopping || shutdown }.goto t .drainTake)
  | .drainTake => some ({ s with channels := [] }.goto t (.drainSub (units s.channels)))
  | .drainSub us => some ((s.takeOff us).leave t .idle)

def step (s : Activity T) : ActivityAct T → Option (Activity T)
  | .call t call => if s.pc t = .idle then some (s.goto t call.start) else none
  | .go t ok => s.goOn t ok
  | .hold => some { s with active := s.active + 1, guards := s.guards + 1 }
  | .drop => if s.guards = 0 then none else some { s with active := s.active - 1, guards := s.guards - 1 }

/-- A broker that has just been made. -/
def start : Activity T := ⟨[], false, 0, 0, none, 0, [], fun _ => .idle⟩

/-! ## The account -/

section account

variable [Fintype T]

/-- How many units channels have that are counted and not in the table yet. -/
def countedUnits (s : Activity T) : Multiset ℕ := ∑ t, ((s.pc t).counted : Multiset ℕ)

/-- How many units of removed channels are still to be taken off. -/
def removedUnits (s : Activity T) : Multiset ℕ := ∑ t, ((s.pc t).removed : Multiset ℕ)

/-- Each unit ever added is in one place: with a channel of the table, with a thread, or
    taken off. -/
def Accounts (s : Activity T) : Prop :=
  (units s.channels : Multiset ℕ) + s.countedUnits + s.removedUnits + (s.released : Multiset ℕ) =
    Multiset.range s.opened

/-- What holds at any time. -/
structure Inv (s : Activity T) : Prop where
  lock : ∀ t, (s.pc t).locked = true → s.lock = some t
  nodup : s.ids.Nodup
  fresh : ∀ t c, (s.pc t).opening = some c → c ∉ s.ids
  entered : ∀ t c unit, (s.pc t).entered = some (c, unit) → unitAt s.channels c = unit
  accounts : s.Accounts
  active : s.active + BitVec.ofNat 64 s.released.length = BitVec.ofNat 64 (s.opened + s.guards)

theorem sum_update_add {M : Type*} [AddCommMonoid M] (f : ActivityPc → M) (pc : T → ActivityPc) (t : T)
    (c : ActivityPc) : ∑ x, f (Function.update pc t c x) + f (pc t) = ∑ x, f (pc x) + f c := by
  rw [← Finset.add_sum_erase _ _ (Finset.mem_univ t),
    ← Finset.add_sum_erase _ (fun x => f (pc x)) (Finset.mem_univ t), Function.update_self]
  have hrest : ∑ x ∈ Finset.univ.erase t, f (Function.update pc t c x) =
      ∑ x ∈ Finset.univ.erase t, f (pc x) := by
    refine Finset.sum_congr rfl fun x hx => ?_
    rw [Function.update_of_ne (Finset.ne_of_mem_erase hx)]
  rw [hrest]
  abel

variable {s s' : Activity T} {t : T}

/-- One thread goes on. The table changes only under its lock, and what the thread takes
    from one place it puts in another. -/
theorem Inv.next (hs : s.Inv) (hpc : s'.pc = Function.update s.pc t pc)
    (hlock : ∀ t', t' ≠ t → s.lock = some t' → s'.lock = some t')
    (hlock_self : pc.locked = true → s'.lock = some t)
    (hchannels : s'.channels = s.channels ∨ s.lock = some t) (hnodup : s'.ids.Nodup)
    (hfresh : ∀ c, pc.opening = some c → c ∉ s'.ids)
    (hentered : ∀ c unit, pc.entered = some (c, unit) → unitAt s'.channels c = unit)
    (haccounts : (units s'.channels : Multiset ℕ) + pc.counted + pc.removed + s'.released +
      Multiset.range s.opened = (units s.channels : Multiset ℕ) + (s.pc t).counted + (s.pc t).removed +
        s.released + Multiset.range s'.opened)
    (hactive : s'.active + BitVec.ofNat 64 s'.released.length =
      BitVec.ofNat 64 (s'.opened + s'.guards)) : s'.Inv := by
  -- whoever else has the lock sees the table as it was
  have hother : ∀ t', t' ≠ t → (s.pc t').locked = true → s'.channels = s.channels := by
    intro t' ht hl
    refine hchannels.resolve_right fun h => ht ?_
    exact Option.some.inj ((hs.lock t' hl).symm.trans h)
  have hpc_ne : ∀ t', t' ≠ t → s'.pc t' = s.pc t' := fun t' ht => by
    rw [hpc, Function.update_of_ne ht]
  have hpc_self : s'.pc t = pc := by rw [hpc, Function.update_self]
  refine ⟨fun t' hl => ?_, hnodup, fun t' c hc => ?_, fun t' c unit hc => ?_, ?_, hactive⟩
  · by_cases ht : t' = t
    · subst ht
      exact hlock_self (hpc_self ▸ hl)
    · rw [hpc_ne t' ht] at hl
      exact hlock t' ht (hs.lock t' hl)
  · by_cases ht : t' = t
    · subst ht
      exact hfresh c (hpc_self ▸ hc)
    · rw [hpc_ne t' ht] at hc
      rw [ids, hother t' ht (ActivityPc.locked_of_opening hc)]
      exact hs.fresh t' c hc
  · by_cases ht : t' = t
    · subst ht
      exact hentered c unit (hpc_self ▸ hc)
    · rw [hpc_ne t' ht] at hc
      rw [hother t' ht (ActivityPc.locked_of_entered hc)]
      exact hs.entered t' c unit hc
  · have hcounted : s'.countedUnits + (s.pc t).counted = s.countedUnits + pc.counted := by
      rw [countedUnits, hpc]
      exact sum_update_add (fun pc => (pc.counted : Multiset ℕ)) s.pc t pc
    have hremoved : s'.removedUnits + (s.pc t).removed = s.removedUnits + pc.removed := by
      rw [removedUnits, hpc]
      exact sum_update_add (fun pc => (pc.removed : Multiset ℕ)) s.pc t pc
    have hold : (units s.channels : Multiset ℕ) + s.countedUnits + s.removedUnits + s.released =
        Multiset.range s.opened := hs.accounts
    refine add_right_cancel (b := (s.pc t).counted + (s.pc t).removed + Multiset.range s.opened) ?_
    calc (units s'.channels : Multiset ℕ) + s'.countedUnits + s'.removedUnits + s'.released +
          (((s.pc t).counted : Multiset ℕ) + (s.pc t).removed + Multiset.range s.opened)
        = units s'.channels + s'.released + Multiset.range s.opened +
            (s'.countedUnits + (s.pc t).counted) + (s'.removedUnits + (s.pc t).removed) := by abel
      _ = (units s'.channels + pc.counted + pc.removed + s'.released + Multiset.range s.opened) +
            s.countedUnits + s.removedUnits := by
          rw [hcounted, hremoved]
          abel
      _ = (units s.channels + s.countedUnits + s.removedUnits + s.released) + Multiset.range s'.opened +
            ((s.pc t).counted + (s.pc t).removed) := by
          rw [haccounts]
          abel
      _ = Multiset.range s'.opened +
            ((s.pc t).counted + (s.pc t).removed + Multiset.range s.opened) := by
          rw [hold]
          abel

variable {old : ActivityPc}

/-- A thread that goes on without touching the table, the counter or the lock. -/
theorem Inv.goto (hs : s.Inv) (hold : s.pc t = old) (hlock : pc.locked = true → s.lock = some t)
    (hopening : ∀ c, pc.opening = some c → c ∉ s.ids)
    (hentered : ∀ c unit, pc.entered = some (c, unit) → unitAt s.channels c = unit)
    (hcounted : pc.counted = old.counted) (hremoved : pc.removed = old.removed) :
    (s.goto t pc).Inv := by
  refine hs.next rfl (fun _ _ h => h) hlock (.inl rfl) hs.nodup hopening hentered ?_ hs.active
  rw [hold, hcounted, hremoved]
  rfl

/-- A thread takes the lock. -/
theorem Inv.acquire (hs : s.Inv) (hold : s.pc t = old) (h : s.acquire t pc = some s')
    (hopening : pc.opening = none) (hentered : pc.entered = none)
    (hcounted : pc.counted = old.counted) (hremoved : pc.removed = old.removed) : s'.Inv := by
  obtain ⟨hfree, rfl⟩ := of_guard h
  refine hs.next rfl (fun t' _ h => ?_) (fun _ => rfl) (.inl rfl) hs.nodup (fun c hc => ?_)
    (fun c unit hc => ?_) ?_ hs.active
  · cases hfree.symm.trans h
  · cases hopening.symm.trans hc
  · cases hentered.symm.trans hc
  · rw [hold, hcounted, hremoved]
    rfl

/-- A thread drops the lock. -/
theorem Inv.leave (hs : s.Inv) (hold : s.pc t = old) (hl : old.locked = true)
    (hpc : pc.locked = false) (hcounted : pc.counted = old.counted)
    (hremoved : pc.removed = old.removed) :
    (s.leave t pc).Inv := by
  have hlock := hs.lock t (hold ▸ hl)
  refine hs.next rfl (fun t' ht h => ?_) (fun h => ?_) (.inl rfl) hs.nodup (fun c hc => ?_)
    (fun c unit hc => ?_) ?_ hs.active
  · exact absurd (Option.some.inj (h.symm.trans hlock)) ht
  · cases hpc.symm.trans h
  · cases hpc.symm.trans (ActivityPc.locked_of_opening hc)
  · cases hpc.symm.trans (ActivityPc.locked_of_entered hc)
  · rw [hold, hcounted, hremoved]
    rfl

omit [DecidableEq T] [Fintype T] in
theorem active_takeOff {a : BitVec 64} {n r : ℕ} (h : a + BitVec.ofNat 64 r = BitVec.ofNat 64 n) (k : ℕ) :
    a - BitVec.ofNat 64 k + BitVec.ofNat 64 (r + k) = BitVec.ofNat 64 n := by
  bv_omega

omit [DecidableEq T] [Fintype T] in
theorem units_cons (e : ChannelId × CountedChannel) (l : List (ChannelId × CountedChannel)) :
    units (e :: l) = e.2.unit.toList ++ units l := by
  cases hu : e.2.unit <;> simp [units, hu]

/-- What a removal takes from the table is the unit of that channel. -/
theorem units_remove {l : List (ChannelId × CountedChannel)} (hl : (l.map Prod.fst).Nodup) (c : ChannelId) :
    (units l : Multiset ℕ) = units (l.filter fun e => e.1 != c) + ((unitAt l c).toList : Multiset ℕ) := by
  induction l with
  | nil => rfl
  | cons e l ih =>
    obtain ⟨hmem, hl⟩ := nodup_cons.1 hl
    by_cases he : e.1 = c
    · have hrest : (l.filter fun e => e.1 != c) = l := by
        refine filter_eq_self.2 fun e' he' => ?_
        have : e'.1 ≠ c := by
          rintro rfl
          exact hmem (mem_map.2 ⟨e', he', he.symm ▸ rfl⟩)
        simpa using this
      have hunit : unitAt (e :: l) c = e.2.unit := by simp [unitAt, he]
      rw [hunit, filter_cons_of_neg (by simp [he]), hrest, units_cons, ← Multiset.coe_add, add_comm]
    · have hunit : unitAt (e :: l) c = unitAt l c := by simp [unitAt, he]
      rw [hunit, filter_cons_of_pos (by simp [he]), units_cons, units_cons, ← Multiset.coe_add,
        ← Multiset.coe_add, ih hl, add_assoc]

/-- A thread that has the lock removes a channel, and has its unit to take off. -/
theorem Inv.remove (hs : s.Inv) (hold : s.pc t = old) {c : ChannelId} (hl : old.locked = true)
    (hopening : pc.opening = none) (hentered : pc.entered = none) (hcounted : pc.counted = [])
    (hremoved : pc.removed = (unitAt s.channels c).toList) (hcounted' : old.counted = [])
    (hremoved' : old.removed = []) : ((s.remove c).goto t pc).Inv := by
  have hlock := hs.lock t (hold ▸ hl)
  refine hs.next rfl (fun _ _ h => h) (fun _ => hlock) (.inr hlock) ?_ (fun c hc => ?_)
    (fun c unit hc => ?_) ?_ hs.active
  · exact hs.nodup.sublist (filter_sublist.map _)
  · cases hopening.symm.trans hc
  · cases hentered.symm.trans hc
  · rw [hold, hcounted, hremoved, hcounted', hremoved', units_remove hs.nodup c]
    simp only [Activity.goto, Activity.remove, Multiset.coe_nil]
    abel

/-- The units that a thread has are taken off. -/
theorem Inv.takeOff (hs : s.Inv) (hold : s.pc t = old) {us : List ℕ} (hremoved : old.removed = us)
    (hcounted : old.counted = []) {o : Option T}
    (ho : ∀ t', t' ≠ t → s.lock = some t' → o = some t') :
    ({ s.takeOff us with lock := o }.goto t .idle).Inv := by
  refine hs.next rfl ho (fun h => by cases h) (.inl rfl) hs.nodup (by simp)
    (fun _ _ h => by cases h) ?_ ?_
  · rw [hold, hremoved, hcounted]
    simp only [Activity.goto, Activity.takeOff, ActivityPc.counted, ActivityPc.removed, Multiset.coe_nil,
      ← Multiset.coe_add]
    abel
  · show s.active - BitVec.ofNat 64 us.length + BitVec.ofNat 64 (s.released ++ us).length = _
    rw [length_append]
    exact active_takeOff hs.active us.length

theorem Inv.goOn (hs : s.Inv) {ok : Bool} (h : s.goOn t ok = some s') : s'.Inv := by
  obtain ⟨old, hpc⟩ : ∃ old, s.pc t = old := ⟨_, rfl⟩
  have hlock := hs.lock t
  have hfresh := hs.fresh t
  have hentered := hs.entered t
  rw [hpc] at hlock hfresh hentered
  rw [Activity.goOn, hpc] at h
  cases old with
  | idle => cases h
  | openLock c channel | closeLock c | deliverLock c closes | drainLock shutdown =>
    exact hs.acquire hpc h rfl rfl rfl rfl
  | openCheck c channel =>
    dsimp only at h
    split_ifs at h with hno <;> cases h
    · exact hs.leave hpc rfl rfl rfl rfl
    · refine hs.goto hpc (fun _ => hlock rfl) (fun d hd => ?_) (fun _ _ h => by cases h) rfl rfl
      cases hd
      exact fun hc => hno (.inr (.inl hc))
  | openAdd c channel =>
    dsimp only at h
    have hnew : ∀ d, some c = some d → d ∉ s.ids := hfresh
    split_ifs at h <;> cases h
    · refine hs.next rfl (fun _ _ h => h) (fun _ => hlock rfl) (.inl rfl) hs.nodup hnew
        (fun _ _ h => by cases h) ?_ ?_
      · rw [hpc]
        simp only [Activity.goto, ActivityPc.counted, ActivityPc.removed, Option.toList_some,
          Multiset.range_succ, Multiset.coe_nil, Multiset.coe_singleton, ← Multiset.singleton_add]
        abel
      · show s.active + 1 + BitVec.ofNat 64 s.released.length = BitVec.ofNat 64 (s.opened + 1 + s.guards)
        have := hs.active
        bv_omega
    · exact hs.goto hpc (fun _ => hlock rfl) hnew (fun _ _ h => by cases h) rfl rfl
  | openInsert c client unit =>
    cases h
    have hnew : c ∉ s.ids := hfresh c rfl
    refine hs.next rfl (fun _ _ h => h) (fun _ => hlock rfl) (.inr (hlock rfl)) ?_
      (by simp) (fun d u hd => ?_) ?_ hs.active
    · show ((s.channels ++ [(c, CountedChannel.mk client unit)]).map Prod.fst).Nodup
      rw [map_append]
      exact nodup_append'.2 ⟨hs.nodup, nodup_singleton _, disjoint_singleton.2 hnew⟩
    · cases hd
      show unitAt (s.channels ++ [(c, CountedChannel.mk client unit)]) c = unit
      have hnone : (s.channels.find? fun e => e.1 == c) = none := by
        rw [List.find?_eq_none]
        intro e he heq
        exact hnew (mem_map.2 ⟨e, he, by simpa using heq⟩)
      simp [unitAt, List.find?_append, hnone]
    · rw [hpc]
      have hunits : units (s.channels ++ [(c, CountedChannel.mk client unit)]) =
          units s.channels ++ unit.toList := by
        cases unit <;> simp [units]
      simp only [Activity.goto, hunits, ActivityPc.counted, ActivityPc.removed, ← Multiset.coe_add,
        Multiset.coe_nil]
      abel
  | openSend c unit =>
    split_ifs at h <;> cases h
    · exact hs.leave hpc rfl rfl rfl rfl
    · refine hs.goto hpc (fun _ => hlock rfl) (by simp) (fun d u hd => ?_) rfl rfl
      cases hd
      exact hentered c unit rfl
  | openRemove c unit =>
    cases h
    -- the unit is the one of the channel that this thread has entered
    refine hs.remove hpc rfl rfl rfl rfl ?_ rfl rfl
    rw [hentered c unit rfl]
    rfl
  | openSub unit | drainSub us =>
    cases h
    refine hs.takeOff hpc rfl rfl fun t' ht h => ?_
    exact absurd (Option.some.inj (h.symm.trans (hlock rfl))) ht
  | closeRemove c =>
    cases h
    exact hs.remove hpc rfl rfl rfl rfl rfl rfl rfl
  | closeUnlock unit | deliverGet c closes =>
    cases h
    exact hs.leave hpc rfl rfl rfl rfl
  | closeSub unit =>
    cases h
    exact hs.takeOff (o := s.lock) hpc rfl rfl fun _ _ h => h
  | deliverSend c closes =>
    cases h
    cases closes with
    | false | true =>
      exact hs.goto hpc (fun h => by cases h) (by simp) (fun _ _ h => by cases h) rfl rfl
  | drainSet shutdown =>
    cases h
    refine hs.next rfl (fun _ _ h => h) (fun _ => hlock rfl) (.inl rfl) hs.nodup
      (by simp) (fun _ _ h => by cases h) ?_ hs.active
    rw [hpc]
    rfl
  | drainTake =>
    cases h
    refine hs.next rfl (fun _ _ h => h) (fun _ => hlock rfl) (.inr (hlock rfl)) nodup_nil
      (by simp) (fun _ _ h => by cases h) ?_ hs.active
    rw [hpc]
    abel

omit [DecidableEq T] in
/-- A change of the counter for a guard. -/
theorem Inv.guards (hs : s.Inv) {a : BitVec 64} {n : ℕ}
    (h : a + BitVec.ofNat 64 s.released.length = BitVec.ofNat 64 (s.opened + n)) :
    ({ s with active := a, guards := n } : Activity T).Inv :=
  ⟨hs.lock, hs.nodup, hs.fresh, hs.entered, hs.accounts, h⟩

theorem Inv.step (hs : s.Inv) {a : ActivityAct T} (h : s.step a = some s') : s'.Inv := by
  cases a with
  | call t call =>
    obtain ⟨hidle, rfl⟩ := of_guard h
    cases call <;>
      exact hs.goto hidle (fun h => by cases h)
        (by simp) (fun _ _ h => by cases h) rfl rfl
  | go t ok => exact hs.goOn h
  | hold =>
    cases h
    refine hs.guards ?_
    have := hs.active
    bv_omega
  | drop =>
    simp only [Activity.step] at h
    split_ifs at h with hzero
    cases h
    refine hs.guards ?_
    have := hs.active
    bv_omega

omit [DecidableEq T] in
theorem inv_start : (start : Activity T).Inv := by
  refine ⟨(fun _ h => by cases h), nodup_nil, by simp [start],
    (fun _ _ _ h => by cases h), ?_, rfl⟩
  simp [Accounts, countedUnits, removedUnits, start, units, ActivityPc.counted, ActivityPc.removed]

/-- The units that are in use: those of the open channels, of the guards, of removed
    channels and of channels not in the table yet. -/
def inUse (s : Activity T) : ℕ :=
  (units s.channels).length + s.guards + s.removedUnits.card + s.countedUnits.card

omit [DecidableEq T] in
theorem Inv.active_eq (hs : s.Inv) : s.active = BitVec.ofNat 64 s.inUse := by
  have hcard := congrArg Multiset.card hs.accounts
  simp only [Multiset.card_add, Multiset.coe_card, Multiset.card_range] at hcard
  have hsum : s.opened + s.guards = s.inUse + s.released.length := by
    unfold inUse
    omega
  have hactive := hs.active
  rw [hsum, BitVec.ofNat_add] at hactive
  exact (BitVec.add_left_inj _).1 hactive

end account

end Activity

open Activity in
/-- In every state that any number of threads can get into, `active` is the number of
    open channels that count, of guards, of removed channels whose unit is still to be
    taken off, and of channels that `open_channel` has counted and not yet entered. Every
    unit is in one of these places or has been taken off, once. -/
theorem active_accounts {T : Type} [DecidableEq T] [Fintype T] {s : Activity T}
    {as : List (ActivityAct T)} (h : as.foldlM Activity.step start = some s) :
    s.active = BitVec.ofNat 64 s.inUse ∧ (s.inUse < 2 ^ 64 → s.active.toNat = s.inUse) ∧ s.Accounts ∧
      s.released.Nodup := by
  have hs : s.Inv := run_inv (fun s a s' hi h => hi.step h) inv_start h
  refine ⟨hs.active_eq, fun hlt => ?_, hs.accounts, ?_⟩
  · rw [hs.active_eq, BitVec.toNat_ofNat, Nat.mod_eq_of_lt hlt]
  · have hnodup : ((s.released : Multiset ℕ)).Nodup := by
      refine Multiset.nodup_of_le ?_ (Multiset.nodup_range s.opened)
      rw [← hs.accounts]
      exact Multiset.le_add_left _ _
    exact Multiset.coe_nodup.1 hnodup

/-- The steps of a thread that opens a channel, up to the adding of its unit. -/
def openSteps : List (ActivityAct Unit) :=
  [.call () (.openChannel 1 ⟨0, true⟩), .go () true, .go () true, .go () true]

/-- At that point the unit is counted, with no channel in the table, no guard and no
    removed channel. -/
theorem active_before_table :
    (openSteps.foldlM Activity.step Activity.start).map (fun s => (s.active, s.channels, s.guards,
      (s.pc ()).removed)) = some (1, [], 0, []) := by
  decide

/-- The rest of that call, and the closing of the channel. -/
def closeSteps : List (ActivityAct Unit) :=
  [.go () true, .go () true, .call () (.closeChannel 1), .go () true, .go () true, .go () true, .go () true]

/-- A channel that is opened and closed again has released its unit. -/
theorem active_accounts_closed : ∃ s : Activity Unit,
    (openSteps ++ closeSteps).foldlM Activity.step Activity.start = some s ∧ s.active.toNat = s.inUse ∧
      s.released = [0] := by
  have hend : ((openSteps ++ closeSteps).foldlM Activity.step Activity.start).map
      (fun s => (s.inUse, s.released)) = some (0, [0]) := by
    decide
  obtain ⟨s, hs, heq⟩ := Option.map_eq_some_iff.1 hend
  obtain ⟨huse, hreleased⟩ := Prod.mk.inj heq
  exact ⟨s, hs, (active_accounts hs).2.1 (by rw [huse]; decide), hreleased⟩

end Lnx
