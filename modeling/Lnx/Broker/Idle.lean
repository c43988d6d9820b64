import Lnx.Lib.Machine

/-!
# When an idle owner stops

The owner's accept loop (`run_broker_owner`, `runner.rs` lines 2264–2313) stops the VM
when `idle_status` (`runner/broker.rs` lines 298–319) finds it neither busy nor with
connections pending for long enough. A client's handler (lines 489–537) is counted in
`pending` from the accept on and in `active` once its channel is open; it gives up its
unit of `pending` only then. `idle_status` reads the two counters one after the other.
Every load, increment and decrement of a counter is a step of its own, and so are the
parts of `open_channel` and `close_channel` under the lock of the channel table.

* `IdleOwner.step`: the steps of the owner, of client handlers and of forwarded
  connections. No shutdown is requested, `accept` does not fail and the agent stays.
* `IdleOwner.HandsOver`: the owner stops although a handler has opened its channel
  after `active` was read, and given up `pending` before that was read.
* `idle_stop_iff`: in all other runs, and only in those, no command is running when the
  owner decides to stop, and none is failed by it.
-/

namespace Lnx

open List

/-- What a client's handler has made of its channel. -/
inductive ChannelStage
  | unopened
  /-- in `open_channel`, past its checks -/
  | admitted
  /-- `active` is incremented -/
  | counted
  | opened
  /-- out of the table, `active` still to be decremented -/
  | removed
  | released
  /-- failed by the stopping owner -/
  | failed
  deriving DecidableEq

/-- A client's handler; `pending` says whether it holds its `PendingConnection`. -/
structure Handler where
  pending : Bool
  channel : ChannelStage
  deriving DecidableEq

/-- The steps of a handler, and of the agent reader on its channel. -/
inductive HandlerAct
  | enter
  | count
  | insert
  /-- sending the opening message fails, and `active` is decremented again -/
  | fail
  /-- drop the `PendingConnection` -/
  | drop
  | remove
  | release
  deriving DecidableEq

namespace Handler

/-- The channel counts in `active`. -/
def counts (h : Handler) : Bool :=
  match h.channel with
  | .counted => true
  | .opened => true
  | .removed => true
  | _ => false

def isOpen (h : Handler) : Bool := h.channel == .opened

def next (h : Handler) : HandlerAct → Option Handler
  | .enter => if h.pending = true ∧ h.channel = .unopened then some { h with channel := .admitted } else none
  | .count => if h.channel = .admitted then some { h with channel := .counted } else none
  | .insert => if h.channel = .counted then some { h with channel := .opened } else none
  | .fail => if h.channel = .counted then some { h with channel := .released } else none
  | .drop =>
    if h.pending = true ∧ h.channel ≠ .admitted ∧ h.channel ≠ .counted then some { h with pending := false }
    else none
  | .remove => if h.channel = .opened then some { h with channel := .removed } else none
  | .release => if h.channel = .removed then some { h with channel := .released } else none

/-- `begin_shutdown` fails the open channels. -/
def stop (h : Handler) : Handler := if h.isOpen then { h with channel := .failed } else h

end Handler

namespace HandlerAct

/-- What becomes of `active`. -/
def active : HandlerAct → ℕ → ℕ
  | .count, n => n + 1
  | .fail, n => n - 1
  | .release, n => n - 1
  | _, n => n

/-- What becomes of `pending`. -/
def pending : HandlerAct → ℕ → ℕ
  | .drop, n => n - 1
  | _, n => n

/-- What becomes of the lock of the channel table: `none` where the step has to wait. -/
def lock : HandlerAct → Bool → Option Bool
  | .enter, locked => if locked then none else some true
  | .insert, _ => some false
  | .fail, _ => some false
  | .remove, locked => if locked then none else some false
  | _, locked => some locked

end HandlerAct

/-- What `idle_status` returns. -/
structure IdleStatus where
  busy : Bool
  pending : Bool
  seenActive : Bool
  deriving DecidableEq

inductive IdlePc
  | accepting
  | accepted
  | loadActive
  | loadKept
  | loadPending
  | loadSeen
  | check
  /-- out of the loop -/
  | exited
  /-- the barrier is set -/
  | stopped
  deriving DecidableEq

structure IdleOwner where
  handlers : List Handler
  locked : Bool
  /-- the guards of forwarded connections -/
  holds : ℕ
  active : ℕ
  pending : ℕ
  keptRunning : Bool
  seenActive : Bool
  pc : IdlePc
  status : IdleStatus
  /-- which handlers have been counted in `active` since it was last read -/
  since : List ℕ
  /-- which handlers had their channels open when `pending` was last read -/
  openThen : List ℕ

inductive IdleAct
  | handler (i : ℕ) (x : HandlerAct)
  | hold
  | unhold
  | keepRunning
  | accept
  /-- take a `PendingConnection` and start the handler -/
  | spawn
  /-- `accept` finds nobody; what the clock says of `awake_until` and
      `first_client_deadline` -/
  | poll (lingering awaitingFirst : Bool)
  | loadActive
  | loadKept
  | loadPending
  | loadSeen
  /-- whether the deadline has passed -/
  | check (elapsed : Bool)
  | stop

namespace IdleOwner

/-- The handlers whose channels are open. -/
def openNow (s : IdleOwner) : List ℕ :=
  (List.range s.handlers.length).filter fun i => s.handlers[i]?.any Handler.isOpen

def handlerStep (s : IdleOwner) (i : ℕ) (x : HandlerAct) : Option IdleOwner :=
  match s.handlers[i]?.bind (·.next x), x.lock s.locked with
  | some h, some locked =>
    some { s with
      handlers := s.handlers.set i h
      locked := locked
      active := x.active s.active
      pending := x.pending s.pending
      seenActive := s.seenActive || x == .insert
      since := if x = .count then i :: s.since else s.since }
  | _, _ => none

def step (s : IdleOwner) : IdleAct → Option IdleOwner
  | .handler i x =>
    -- a stopping owner admits nobody
    if x = .enter ∧ s.pc = .stopped then none else s.handlerStep i x
  | .hold => some { s with holds := s.holds + 1, active := s.active + 1, seenActive := true }
  | .unhold =>
    if 0 < s.holds then some { s with holds := s.holds - 1, active := s.active - 1 } else none
  | .keepRunning => some { s with keptRunning := true, seenActive := true }
  | .accept => if s.pc = .accepting then some { s with pc := .accepted } else none
  | .spawn =>
    if s.pc = .accepted then
      some { s with
        handlers := s.handlers ++ [⟨true, .unopened⟩]
        pending := s.pending + 1
        pc := .accepting }
    else none
  | .poll lingering awaitingFirst =>
    if s.pc = .accepting then some { s with pc := .loadActive, status := ⟨lingering, awaitingFirst, false⟩ }
    else none
  | .loadActive =>
    if s.pc = .loadActive then
      some { s with
        pc := .loadKept
        status := { s.status with busy := decide (0 < s.active) || s.status.busy }
        since := [] }
    else none
  | .loadKept =>
    if s.pc = .loadKept then
      some { s with
        pc := .loadPending
        status := { s.status with busy := s.status.busy || s.keptRunning } }
    else none
  | .loadPending =>
    if s.pc = .loadPending then
      some { s with
        pc := .loadSeen
        status := { s.status with pending := decide (0 < s.pending) || s.status.pending }
        openThen := s.openNow }
    else none
  | .loadSeen =>
    if s.pc = .loadSeen then
      some { s with pc := .check, status := { s.status with seenActive := s.seenActive } }
    else none
  | .check elapsed =>
    if s.pc = .check then
      if s.status.busy = false ∧ s.status.seenActive = true ∧ elapsed = true ∧ s.status.pending = false then
        some { s with pc := .exited }
      else some { s with pc := .accepting }
    else none
  | .stop =>
    if s.pc = .exited ∧ s.locked = false then
      some { s with
        handlers := s.handlers.map Handler.stop
        active := s.active - s.handlers.countP Handler.isOpen
        pc := .stopped }
    else none

/-- An owner that has just started, idle or not. -/
def start (startsIdle : Bool) : IdleOwner :=
  ⟨[], false, 0, 0, 0, false, startsIdle, .accepting, ⟨false, false, false⟩, [], []⟩

/-- When the owner leaves its loop, no channel was open when `idle_status` decided, and
    no channel is failed. -/
def Safe (s : IdleOwner) : Prop :=
  (s.pc = .exited → s.openThen = []) ∧ (s.pc = .stopped → ∀ h ∈ s.handlers, h.channel ≠ .failed)

/-- The owner leaves its loop although a handler has been counted since `active` was
    read, and had opened its channel and given up `pending` when that was read. -/
def HandsOver (s : IdleOwner) (a : IdleAct) : Prop :=
  a = .check true ∧ s.pc = .check ∧ s.status = ⟨false, false, true⟩ ∧
    ∃ i ∈ s.openThen, i ∈ s.since ∧ ∃ h, s.handlers[i]? = some h ∧ h.pending = false

/-- A handler is counted in `active` between the two reads. -/
def CountsBetween (s : IdleOwner) (a : IdleAct) : Prop :=
  (s.pc = .loadKept ∨ s.pc = .loadPending) ∧ ∃ i, a = .handler i .count

end IdleOwner

/-! ## What a handler's step does -/

namespace Handler

variable {h h' : Handler} {x : HandlerAct}

/-- The counters move as the handler does. -/
theorem next_counters (hn : h.next x = some h') (k : ℕ) :
    x.active (k + h.counts.toNat) = k + h'.counts.toNat ∧
      x.pending (k + h.pending.toNat) = k + h'.pending.toNat := by
  cases x <;> simp only [next] at hn <;> split_ifs at hn with hc <;> cases hn <;>
    simp_all [counts, HandlerAct.active, HandlerAct.pending]

/-- A handler in `open_channel` holds its `PendingConnection`. -/
def Inside (h : Handler) : Prop := h.channel = .admitted ∨ h.channel = .counted → h.pending = true

theorem next_inside (hn : h.next x = some h') (hi : h.Inside) : h'.Inside := by
  cases x <;> simp only [next] at hn <;> split_ifs at hn with hc <;> cases hn <;> simp_all [Inside]

theorem next_counts (hn : h.next x = some h') (hc' : h'.counts = true) : x = .count ∨ h.counts = true := by
  cases x <;> simp only [next] at hn <;> split_ifs at hn with hc <;> cases hn <;> simp_all [counts]

/-- Without its `PendingConnection` a handler opens nothing. -/
theorem next_quiet (hn : h.next x = some h') (hi : h.Inside) (hp : h.pending = false) :
    h'.pending = false ∧ (h'.isOpen = true → h.isOpen = true) := by
  cases x <;> simp only [next] at hn <;> split_ifs at hn with hc <;> cases hn <;>
    simp_all [Inside, isOpen]

theorem next_failed (hn : h.next x = some h') (hf : h.channel ≠ .failed) : h'.channel ≠ .failed := by
  cases x <;> simp only [next] at hn <;> split_ifs at hn with hc <;> cases hn <;> simp_all

theorem stop_counts (l : List Handler) :
    (l.map stop).countP counts + l.countP isOpen = l.countP counts := by
  induction l with
  | nil => rfl
  | cons h l ih =>
    have hone : (if h.stop.counts then 1 else 0) + (if h.isOpen then 1 else 0) =
        if h.counts then 1 else 0 := by
      cases ho : h.isOpen with
      | false => simp [stop, ho]
      | true =>
        have hc : h.channel = .opened := by simpa [isOpen] using ho
        simp [stop, ho, counts, hc]
    rw [map_cons, countP_cons, countP_cons, countP_cons]
    omega

theorem stop_pending (l : List Handler) :
    (l.map stop).countP Handler.pending = l.countP Handler.pending := by
  rw [countP_map]
  congr 1
  funext h
  simp only [Function.comp, stop]
  split <;> rfl

end Handler

variable {i : ℕ}

/-- Setting one element of a list changes a count by that element only. -/
theorem countP_set_split {β : Type} {l : List β} {x : β} (p : β → Bool) (h : l[i]? = some x) :
    ∃ k, l.countP p = k + (p x).toNat ∧ ∀ y, (l.set i y).countP p = k + (p y).toNat := by
  obtain ⟨hi, rfl⟩ := List.getElem?_eq_some_iff.1 h
  have hnat (b : Bool) : (if b = true then 1 else 0) = b.toNat := by cases b <;> rfl
  have hle := boole_getElem_le_countP (p := p) hi
  rw [hnat] at hle
  refine ⟨l.countP p - (p l[i]).toNat, (Nat.sub_add_cancel hle).symm, fun y => ?_⟩
  rw [countP_set hi, hnat, hnat]

/-! ## What always holds -/

namespace IdleOwner

structure Inv (s : IdleOwner) : Prop where
  active : s.active = s.handlers.countP Handler.counts + s.holds
  pending : s.pending = s.handlers.countP Handler.pending
  inside : ∀ h ∈ s.handlers, h.Inside
  unfailed : s.pc ≠ .stopped → ∀ h ∈ s.handlers, h.channel ≠ .failed
  /-- whoever counts in `active` has come to since it was read as zero -/
  since : s.pc = .loadKept ∨ s.pc = .loadPending → s.status.busy = false →
    ∀ i h, s.handlers[i]? = some h → h.counts = true → i ∈ s.since
  /-- nobody was pending when that was read as zero, and nobody has come since -/
  quiet : s.pc = .loadSeen ∨ s.pc = .check ∨ s.pc = .exited → s.status.pending = false →
    (∀ h ∈ s.handlers, h.pending = false) ∧
      ∀ i h, s.handlers[i]? = some h → h.isOpen = true → i ∈ s.openThen
  openThen : s.pc = .loadSeen ∨ s.pc = .check → s.status.busy = false →
    ∀ i ∈ s.openThen, i ∈ s.since ∧ i < s.handlers.length
  exited : s.pc = .exited → s.status.pending = false

theorem inv_start (startsIdle : Bool) : (start startsIdle).Inv where
  active := rfl
  pending := rfl
  inside _ h := absurd h not_mem_nil
  unfailed _ _ h := absurd h not_mem_nil
  since h := by simp [start] at h
  quiet h := by simp [start] at h
  openThen h := by simp [start] at h
  exited h := by simp [start] at h

variable {s s' : IdleOwner} {a : IdleAct} {x : HandlerAct}

/-- What a handler's step does, spelled out. -/
theorem handlerStep_eq (h : s.handlerStep i x = some s') :
    ∃ k k' locked, s.handlers[i]? = some k ∧ k.next x = some k' ∧
      s' = { s with
        handlers := s.handlers.set i k'
        locked := locked
        active := x.active s.active
        pending := x.pending s.pending
        seenActive := s.seenActive || x == .insert
        since := if x = .count then i :: s.since else s.since } := by
  unfold handlerStep at h
  split at h
  · next k' locked hk hl =>
    cases h
    obtain ⟨k, hget, hnext⟩ := Option.bind_eq_some_iff.1 hk
    exact ⟨k, k', locked, hget, hnext, rfl⟩
  · cases h

theorem Inv.handler (hs : s.Inv) (h : s.handlerStep i x = some s') : s'.Inv := by
  obtain ⟨k, k', locked, hget, hnext, rfl⟩ := handlerStep_eq h
  have hmem : k ∈ s.handlers := mem_of_getElem? hget
  -- a property of all handlers that the step keeps
  have hall {P : Handler → Prop} (hP : ∀ h ∈ s.handlers, P h) (hk' : P k') :
      ∀ h ∈ s.handlers.set i k', P h := by
    intro h hh
    rcases mem_or_eq_of_mem_set hh with hh | rfl
    · exact hP h hh
    · exact hk'
  have hgets {j : ℕ} {h : Handler} (hj : (s.handlers.set i k')[j]? = some h) :
      (j = i ∧ h = k') ∨ (j ≠ i ∧ s.handlers[j]? = some h) := by
    by_cases hji : j = i
    · subst hji
      left
      have hlt : j < s.handlers.length := (List.getElem?_eq_some_iff.1 hget).1
      rw [List.getElem?_set_self hlt] at hj
      cases hj
      exact ⟨rfl, rfl⟩
    · right
      rw [List.getElem?_set_ne (Ne.symm hji)] at hj
      exact ⟨hji, hj⟩
  refine ⟨?_, ?_, ?_, fun hpc => ?_, fun hpc hbusy j h hj hc => ?_, fun hpc hp => ?_,
    fun hpc hbusy j hj => ?_, hs.exited⟩
  · obtain ⟨n, hn, hset⟩ := countP_set_split Handler.counts hget
    show x.active s.active = (s.handlers.set i k').countP Handler.counts + s.holds
    have := (Handler.next_counters hnext (n + s.holds)).1
    rw [hs.active, hn, hset, Nat.add_right_comm, this, Nat.add_right_comm]
  · obtain ⟨n, hn, hset⟩ := countP_set_split Handler.pending hget
    show x.pending s.pending = (s.handlers.set i k').countP Handler.pending
    rw [hs.pending, hn, hset, (Handler.next_counters hnext n).2]
  · exact hall hs.inside (Handler.next_inside hnext (hs.inside k hmem))
  · exact hall (hs.unfailed hpc) (Handler.next_failed hnext (hs.unfailed hpc k hmem))
  · show j ∈ if x = .count then i :: s.since else s.since
    rcases hgets hj with ⟨rfl, rfl⟩ | ⟨-, hj⟩
    · rcases Handler.next_counts hnext hc with hx | hx
      · rw [if_pos hx]
        exact mem_cons_self
      · have := hs.since hpc hbusy j k hget hx
        split
        · exact mem_cons_of_mem _ this
        · exact this
    · have := hs.since hpc hbusy j h hj hc
      split
      · exact mem_cons_of_mem _ this
      · exact this
  · obtain ⟨hnone, hopen⟩ := hs.quiet hpc hp
    obtain ⟨hk'p, hk'o⟩ := Handler.next_quiet hnext (hs.inside k hmem) (hnone k hmem)
    refine ⟨hall hnone hk'p, fun j h hj ho => ?_⟩
    rcases hgets hj with ⟨rfl, rfl⟩ | ⟨-, hj⟩
    · exact hopen j k hget (hk'o ho)
    · exact hopen j h hj ho
  · obtain ⟨hsince, hlt⟩ := hs.openThen hpc hbusy j hj
    refine ⟨?_, by simpa using hlt⟩
    show j ∈ if x = .count then i :: s.since else s.since
    split
    · exact mem_cons_of_mem _ hsince
    · exact hsince

theorem Inv.step (hs : s.Inv) (h : s.step a = some s') : s'.Inv := by
  cases a with
  | handler i x =>
    simp only [IdleOwner.step] at h
    split_ifs at h
    exact hs.handler h
  | hold =>
    cases h
    refine { hs with active := ?_ }
    have := hs.active
    show s.active + 1 = s.handlers.countP Handler.counts + (s.holds + 1)
    omega
  | unhold =>
    obtain ⟨hpos, rfl⟩ := of_guard h
    refine { hs with active := ?_ }
    have := hs.active
    show s.active - 1 = s.handlers.countP Handler.counts + (s.holds - 1)
    omega
  | keepRunning =>
    cases h
    exact { hs with }
  | accept | poll lingering awaitingFirst =>
    obtain ⟨hpc, rfl⟩ := of_guard h
    exact { hs with
      unfailed := fun _ => hs.unfailed (by simp [hpc])
      since := by simp
      quiet := by simp
      openThen := by simp
      exited := by simp }
  | spawn =>
    obtain ⟨hpc, rfl⟩ := of_guard h
    refine ⟨?_, ?_, fun k hk => ?_, fun _ k hk => ?_, by simp, by simp, by simp, by simp⟩
    · simpa [Handler.counts] using hs.active
    · simpa using hs.pending
    · rcases mem_append.1 hk with hk | hk
      · exact hs.inside k hk
      · cases mem_singleton.1 hk
        exact fun _ => rfl
    · rcases mem_append.1 hk with hk | hk
      · exact hs.unfailed (by simp [hpc]) k hk
      · cases mem_singleton.1 hk
        nofun
  | loadActive =>
    obtain ⟨hpc, rfl⟩ := of_guard h
    refine { hs with
      unfailed := fun _ => hs.unfailed (by simp [hpc])
      since := fun _ hbusy i k hk hc => ?_
      quiet := by simp
      openThen := by simp
      exited := by simp }
    -- `active` is zero, so nobody counts
    have hzero : ¬ 0 < s.active := by
      intro hpos
      simp [hpos] at hbusy
    have hcount : 0 < s.handlers.countP Handler.counts :=
      countP_pos_iff.2 ⟨k, mem_of_getElem? hk, hc⟩
    have := hs.active
    omega
  | loadKept =>
    obtain ⟨hpc, rfl⟩ := of_guard h
    refine { hs with
      unfailed := fun _ => hs.unfailed (by simp [hpc])
      since := fun _ hbusy => hs.since (.inl hpc) (Bool.or_eq_false_iff.1 hbusy).1
      quiet := by simp
      openThen := by simp
      exited := by simp }
  | loadPending =>
    obtain ⟨hpc, rfl⟩ := of_guard h
    have hopen (i : ℕ) : i ∈ s.openNow ↔ ∃ k, s.handlers[i]? = some k ∧ k.isOpen = true := by
      simp only [openNow, mem_filter, mem_range, Option.any_eq_true]
      constructor
      · exact fun h => h.2
      · rintro ⟨k, hk, ho⟩
        exact ⟨(List.getElem?_eq_some_iff.1 hk).1, k, hk, ho⟩
    refine { hs with
      unfailed := fun _ => hs.unfailed (by simp [hpc])
      since := by simp
      quiet := fun _ hp => ⟨fun k hk => ?_, fun i k hk ho => (hopen i).2 ⟨k, hk, ho⟩⟩
      openThen := fun _ hbusy i hi => ?_
      exited := by simp }
    · -- `pending` is zero, so nobody holds a `PendingConnection`
      by_contra hne
      have hpos : 0 < s.handlers.countP Handler.pending :=
        countP_pos_iff.2 ⟨k, hk, by simpa using hne⟩
      rw [← hs.pending] at hpos
      simp [hpos] at hp
    · obtain ⟨k, hk, ho⟩ := (hopen i).1 hi
      refine ⟨hs.since (.inr hpc) hbusy i k hk ?_, (List.getElem?_eq_some_iff.1 hk).1⟩
      simp_all [Handler.isOpen, Handler.counts]
  | loadSeen =>
    obtain ⟨hpc, rfl⟩ := of_guard h
    exact { hs with
      unfailed := fun _ => hs.unfailed (by simp [hpc])
      since := by simp
      quiet := fun _ => hs.quiet (.inl hpc)
      openThen := fun _ => hs.openThen (.inl hpc)
      exited := by simp }
  | check elapsed =>
    simp only [IdleOwner.step] at h
    split_ifs at h with hpc hexit
    · cases h
      exact { hs with
        unfailed := fun _ => hs.unfailed (by simp [hpc])
        since := by simp
        quiet := fun _ => hs.quiet (.inr (.inl hpc))
        openThen := by simp
        exited := fun _ => hexit.2.2.2 }
    · cases h
      exact { hs with
        unfailed := fun _ => hs.unfailed (by simp [hpc])
        since := by simp
        quiet := by simp
        openThen := by simp
        exited := by simp }
  | stop =>
    obtain ⟨hpc, rfl⟩ := of_guard h
    refine ⟨?_, ?_, fun k hk => ?_, fun h => absurd rfl h, by simp, by simp, by simp, by simp⟩
    · have := hs.active
      have := Handler.stop_counts s.handlers
      show s.active - s.handlers.countP Handler.isOpen =
        (s.handlers.map Handler.stop).countP Handler.counts + s.holds
      omega
    · exact hs.pending.trans (Handler.stop_pending s.handlers).symm
    · obtain ⟨k, hmem, rfl⟩ := mem_map.1 hk
      have := hs.inside k hmem
      unfold Handler.stop
      split
      · simp [Handler.Inside]
      · exact this

/-- Only the decision to stop can go wrong, and only for a hand-over. -/
theorem safe_step (hs : s.Inv) (hsafe : s.Safe) (h : s.step a = some s') :
    s'.Safe ↔ ¬ s.HandsOver a := by
  cases a with
  | check elapsed =>
    simp only [IdleOwner.step] at h
    split_ifs at h with hpc hexit
    · cases h
      obtain ⟨hbusy, hseen, rfl, hpend⟩ := hexit
      have hstatus : s.status = ⟨false, false, true⟩ := by
        cases hst : s.status
        simp_all
      constructor
      · rintro ⟨hnil, -⟩ ⟨-, -, -, i, hi, -⟩
        rw [show s.openThen = [] from hnil rfl] at hi
        cases hi
      · intro hno
        refine ⟨fun _ => ?_, nofun⟩
        by_contra hne
        obtain ⟨i, hi⟩ := exists_mem_of_ne_nil _ hne
        obtain ⟨hsince, hlt⟩ := hs.openThen (.inr hpc) hbusy i hi
        have hquiet := (hs.quiet (.inr (.inl hpc)) hpend).1
        exact hno ⟨rfl, hpc, hstatus, i, hi, hsince, s.handlers[i], List.getElem?_eq_getElem hlt,
          hquiet _ (getElem_mem hlt)⟩
    · cases h
      refine iff_of_true ⟨nofun, nofun⟩ fun hover => ?_
      obtain ⟨he, -, hst, -⟩ := hover
      cases he
      exact hexit (by simp [hst])
  | stop =>
    obtain ⟨hpc, rfl⟩ := of_guard h
    refine iff_of_true ⟨nofun, fun _ k' hk' => ?_⟩ fun hover => by cases hover.1
    obtain ⟨k, hk, rfl⟩ := mem_map.1 hk'
    have hopen : k.isOpen = false := by
      by_contra ho
      obtain ⟨i, hlt, hget⟩ := getElem_of_mem hk
      have := (hs.quiet (.inr (.inr hpc.1)) (hs.exited hpc.1)).2 i k
        (by rw [List.getElem?_eq_getElem hlt, hget]) (by simpa using ho)
      rw [hsafe.1 hpc.1] at this
      cases this
    rw [Handler.stop, hopen]
    exact hs.unfailed (by simp [hpc.1]) k hk
  | handler i x =>
    refine iff_of_true ?_ fun hover => by cases hover.1
    simp only [IdleOwner.step] at h
    split_ifs at h with hstop
    obtain ⟨k, k', locked, hget, hnext, rfl⟩ := handlerStep_eq h
    refine ⟨hsafe.1, fun hpc k₀ hk₀ => ?_⟩
    rcases mem_or_eq_of_mem_set hk₀ with hk₀ | rfl
    · exact hsafe.2 hpc k₀ hk₀
    · exact Handler.next_failed hnext (hsafe.2 hpc k (mem_of_getElem? hget))
  | hold | keepRunning =>
    cases h
    exact iff_of_true hsafe fun hover => by cases hover.1
  | unhold =>
    obtain ⟨-, rfl⟩ := of_guard h
    exact iff_of_true hsafe fun hover => by cases hover.1
  | accept | spawn | poll | loadActive | loadKept | loadPending | loadSeen =>
    obtain ⟨-, rfl⟩ := of_guard h
    exact iff_of_true ⟨nofun, nofun⟩ fun hover => by cases hover.1

/-- What holds as long as no handler is counted between the two reads. -/
structure Alone (s : IdleOwner) : Prop where
  since : s.pc = .loadKept ∨ s.pc = .loadPending → s.since = []
  openThen : s.pc = .loadSeen ∨ s.pc = .check → s.status.busy = false → s.openThen = []

theorem Alone.step (hl : s.Alone) (hs : s.Inv) (hc : ¬ s.CountsBetween a) (h : s.step a = some s') :
    s'.Alone := by
  have hs' := hs.step h
  cases a with
  | handler i x =>
    simp only [IdleOwner.step] at h
    split_ifs at h
    obtain ⟨k, k', locked, hget, hnext, rfl⟩ := handlerStep_eq h
    refine ⟨fun hpc => ?_, hl.openThen⟩
    show (if x = .count then i :: s.since else s.since) = []
    rw [if_neg, hl.since hpc]
    rintro rfl
    exact hc ⟨hpc, i, rfl⟩
  | hold | keepRunning =>
    cases h
    exact ⟨hl.since, hl.openThen⟩
  | unhold =>
    obtain ⟨-, rfl⟩ := of_guard h
    exact ⟨hl.since, hl.openThen⟩
  | loadKept =>
    obtain ⟨hpc, rfl⟩ := of_guard h
    exact ⟨fun _ => hl.since (.inl hpc), by simp⟩
  | loadPending =>
    obtain ⟨hpc, rfl⟩ := of_guard h
    -- whoever is open has been counted since
    refine ⟨by simp, fun _ hbusy => eq_nil_iff_forall_not_mem.2 fun j hj => ?_⟩
    have hsince : j ∈ s.since := (hs'.openThen (.inl rfl) hbusy j hj).1
    rw [hl.since (.inr hpc)] at hsince
    cases hsince
  | loadSeen =>
    obtain ⟨hpc, rfl⟩ := of_guard h
    exact ⟨by simp, fun _ => hl.openThen (.inl hpc)⟩
  | check elapsed =>
    simp only [IdleOwner.step] at h
    split_ifs at h <;> cases h <;> exact ⟨by simp, by simp⟩
  | _ =>
    obtain ⟨-, rfl⟩ := of_guard h
    exact ⟨by simp, by simp⟩

end IdleOwner

open IdleOwner in
/-- In every interleaving of the owner's loop with any number of client handlers and
    forwarded connections, whether or not the owner starts idle: whenever the loop ends,
    no channel that counts as active was open when `idle_status` read `pending`, and none
    is failed by the stopping owner, if and only if no handler hands its count over
    between the two reads. So it is enough that none is counted between them. -/
theorem idle_stop_iff (startsIdle : Bool) (as : List IdleAct) :
    (Along step Safe (start startsIdle) as ↔ Avoids step HandsOver (start startsIdle) as) ∧
      (Avoids step CountsBetween (start startsIdle) as → Along step Safe (start startsIdle) as) := by
  have hstart := inv_start startsIdle
  refine ⟨along_iff_avoids (I := Inv) (P := Safe) (fun _ _ _ hs h => hs.step h)
    (fun _ _ _ hs hsafe h => safe_step hs hsafe h) hstart ⟨nofun, nofun⟩ as, fun hav => ?_⟩
  refine (along_of_avoids (I := fun s => s.Inv ∧ s.Alone ∧ s.Safe) (fun s a s' hs hc h => ?_)
    ⟨hstart, ⟨by simp [start], by simp [start]⟩, nofun, nofun⟩ hav).mono fun s hs => hs.2.2
  refine ⟨hs.1.step h, hs.2.1.step hs.1 hc h, (safe_step hs.1 hs.2.2 h).2 ?_⟩
  rintro ⟨-, hpc, hst, i, hi, -⟩
  rw [hs.2.1.openThen (.inr hpc) (by rw [hst])] at hi
  cases hi

/-- A client has connected and the deadline has passed. The owner reads `active`, the
    handler opens its channel and drops its `PendingConnection`, the owner reads
    `pending`: it stops, and fails the channel it has just admitted. -/
theorem idle_stop_may_fail_command :
    ([.accept, .spawn, .poll false false, .loadActive, .handler 0 .enter, .handler 0 .count,
        .handler 0 .insert, .handler 0 .drop, .loadKept, .loadPending, .loadSeen, .check true,
        .stop].foldlM IdleOwner.step (IdleOwner.start true)).map (fun s => s.handlers) =
      some [⟨false, .failed⟩] := by
  decide

end Lnx
