import Lnx.Guest.Table
import Mathlib.Data.List.Nodup

/-!
# The state of a VM owner's broker

`BrokerState` (`runner/broker.rs` lines 57–82) and its operations that register
channels and send to the guest agent (lines 119–267). Each of them holds the lock of
the channel table from the check of `stopping` on, so each is one function here. The
`HashMap` of channels is a list, in the order the map enumerates them; both queues are
logs of what has been put on them. A poisoned lock, which takes a panic, is left out.

`Broker.openChannel_cases`, `Broker.sendToAgent_cases` and the lemmas after them say
what an operation can do to the table and to the log of the agent's queue.
-/

namespace Lnx

open List

def ownerStopping : String := "VM owner is stopping after a final snapshot"

/-- Sent instead of opening a channel. -/
def ownerStoppingNotStarted : String :=
  "VM owner is stopping after a final snapshot; the command was not started"

/-- An open channel: the client that its `tx` reaches, and whether the channel holds
    one unit of `active`. -/
structure BrokerChannel where
  client : ℕ
  countsAsActive : Bool
  deriving DecidableEq

/-- What happened to a request to open a channel. -/
inductive ChannelAdmission
  | opened
  | stopping
  | collision
  deriving DecidableEq

structure Broker where
  channels : List (ChannelId × BrokerChannel)
  stopping : Bool
  active : ℕ
  seenActive : Bool
  firstClientDeadline : Option ℕ
  /-- the thread that writes to the agent has stopped, so that `agent_tx.send` fails -/
  agentGone : Bool
  /-- what has been sent on `agent_tx` -/
  toAgent : List Message
  /-- what has been sent to clients -/
  toClients : List (ℕ × Message)

namespace Broker

/-- The ids of the open channels. -/
def ids (b : Broker) : List ChannelId := b.channels.map Prod.fst

/-- `agent_tx.send(message)` -/
def send (b : Broker) (ms : List Message) : Broker :=
  if b.agentGone then b else { b with toAgent := b.toAgent ++ ms }

def sendToAgent (b : Broker) (m : Message) : Broker × Except String Bool :=
  if b.stopping then (b, .ok false)
  else if b.agentGone then (b, .error "guest agent writer has stopped")
  else (b.send [m], .ok true)

def sendToAgentOn (b : Broker) (c : ChannelId) (m : Message) : Broker × Bool :=
  if !b.stopping ∧ c ∈ b.ids ∧ !b.agentGone then (b.send [m], true) else (b, false)

/-- `prepare` and `dispatch` are what `prepare()` and `before_dispatch()` return. When
    `agent_tx.send` fails, the entry and the unit of `active` are taken back. -/
def openChannel (b : Broker) (c : ChannelId) (channel : BrokerChannel) (opening : Message)
    (prepare dispatch : Except String Unit) : Broker × Except String ChannelAdmission :=
  if b.stopping then (b, .ok .stopping)
  else if c ∈ b.ids then (b, .ok .collision)
  else
    match prepare, dispatch with
    | .error e, _ => (b, .error e)
    | .ok _, .error e => (b, .error e)
    | .ok _, .ok _ =>
      let b := { b with seenActive := true, firstClientDeadline := none }
      if b.agentGone then (b, .error "send channel open to agent")
      else
        ({ b with
            channels := b.channels ++ [(c, channel)]
            active := b.active + channel.countsAsActive.toNat
            toAgent := b.toAgent ++ [opening] }, .ok .opened)

def closeChannel (b : Broker) (c : ChannelId) : Broker :=
  match b.channels.find? fun e => e.1 == c with
  | some e =>
    { b with
      channels := b.channels.filter fun e => e.1 != c
      active := b.active - e.2.countsAsActive.toNat }
  | none => b

/-- A message for the client of a channel. -/
def tell (b : Broker) (client : ℕ) (m : Message) : Broker :=
  { b with toClients := b.toClients ++ [(client, m)] }

@[simp] def drain (b : Broker) (error : Option String) : Broker × ℕ :=
  let released := b.channels.countP fun e => e.2.countsAsActive
  ({ b with
      channels := []
      active := b.active - released
      toClients := b.toClients ++
        match error with
        | some text => b.channels.map fun e => (e.2.client, .error e.1 text)
        | none => [] }, released)

@[simp] def beginShutdown (b : Broker) (error : String) : Broker × ℕ :=
  ({ b with stopping := true }.send (b.ids.map .close)).drain (some error)

end Broker

/-- A message of a client, of a forwarded connection or in answer to a request of the
    guest: one that opens no channel and does not ask for the final snapshot. -/
def Message.Traffic (m : Message) : Prop := m.opens = none ∧ m ≠ .snapshotReady

instance (m : Message) : Decidable m.Traffic := inferInstanceAs (Decidable (_ ∧ _))

/-- The operations that client handlers, forwarded connections and the agent reader
    call, and the end of the thread that writes to the agent. -/
inductive BrokerOp
  | openChannel (c : ChannelId) (tcp : Bool) (channel : BrokerChannel) (prepare dispatch : Except String Unit)
  | sendToAgent (m : Message)
  | sendToAgentOn (c : ChannelId) (m : Message)
  | closeChannel (c : ChannelId)
  | drain (error : Option String)
  | agentGone

/-- What is sent is traffic. -/
def BrokerOp.Traffic : BrokerOp → Prop
  | .sendToAgent m => m.Traffic
  | .sendToAgentOn _ m => m.Traffic
  | _ => True

instance : (o : BrokerOp) → Decidable o.Traffic
  | .sendToAgent m => inferInstanceAs (Decidable m.Traffic)
  | .sendToAgentOn _ m => inferInstanceAs (Decidable m.Traffic)
  | .openChannel .. => .isTrue trivial
  | .closeChannel _ => .isTrue trivial
  | .drain _ => .isTrue trivial
  | .agentGone => .isTrue trivial

namespace Broker

def apply (b : Broker) : BrokerOp → Broker
  | .openChannel c tcp channel prepare dispatch =>
    (b.openChannel c channel (if tcp then .openTcp c else .openExec c) prepare dispatch).1
  | .sendToAgent m => (b.sendToAgent m).1
  | .sendToAgentOn c m => (b.sendToAgentOn c m).1
  | .closeChannel c => b.closeChannel c
  | .drain error => (b.drain error).1
  | .agentGone => { b with agentGone := true }

/-! ## What an operation can do -/

variable {b b' : Broker} {c d : ChannelId} {m : Message} {channel : BrokerChannel}
  {prepare dispatch : Except String Unit}

section send

variable (b : Broker) (ms : List Message)

theorem send_eq : b.send ms = { b with toAgent := b.toAgent ++ if b.agentGone then [] else ms } := by
  unfold send
  split <;> simp

@[simp] theorem send_channels : (b.send ms).channels = b.channels := by rw [send_eq]
@[simp] theorem send_stopping : (b.send ms).stopping = b.stopping := by rw [send_eq]
@[simp] theorem send_toClients : (b.send ms).toClients = b.toClients := by rw [send_eq]
@[simp] theorem send_agentGone : (b.send ms).agentGone = b.agentGone := by rw [send_eq]

theorem send_toAgent : (b.send ms).toAgent = b.toAgent ++ if b.agentGone then [] else ms := by
  rw [send_eq]

end send

theorem sendToAgent_cases (b : Broker) (m : Message) :
    (b.sendToAgent m).1 = b ∨ (b.stopping = false ∧ (b.sendToAgent m).1 = b.send [m]) := by
  unfold sendToAgent
  split_ifs with hs hg
  · exact .inl rfl
  · exact .inl rfl
  · exact .inr ⟨by simpa using hs, rfl⟩

theorem sendToAgentOn_cases (b : Broker) (c : ChannelId) (m : Message) :
    (b.sendToAgentOn c m).1 = b ∨
      (b.stopping = false ∧ c ∈ b.ids ∧ (b.sendToAgentOn c m).1 = b.send [m]) := by
  unfold sendToAgentOn
  split_ifs with h
  · exact .inr ⟨by simpa using h.1, h.2.1, rfl⟩
  · exact .inl rfl

/-- Either the channel is registered and its opening message queued, or neither. -/
theorem openChannel_cases (b : Broker) (c : ChannelId) (channel : BrokerChannel) (opening : Message)
    (prepare dispatch : Except String Unit) :
    let b' := (b.openChannel c channel opening prepare dispatch).1
    (b'.channels = b.channels ∧ b'.toAgent = b.toAgent ∧ b'.active = b.active ∧
        b'.stopping = b.stopping ∧ b'.toClients = b.toClients ∧ b'.agentGone = b.agentGone ∧
        (b.openChannel c channel opening prepare dispatch).2 ≠ .ok .opened) ∨
      (b.stopping = false ∧ c ∉ b.ids ∧ b'.channels = b.channels ++ [(c, channel)] ∧
        b'.toAgent = b.toAgent ++ [opening] ∧ b'.stopping = b.stopping ∧
        b'.toClients = b.toClients ∧ b'.agentGone = b.agentGone ∧
        (b.openChannel c channel opening prepare dispatch).2 = .ok .opened) := by
  unfold openChannel
  split_ifs with hs hc
  · exact .inl ⟨rfl, rfl, rfl, rfl, rfl, rfl, nofun⟩
  · exact .inl ⟨rfl, rfl, rfl, rfl, rfl, rfl, nofun⟩
  · cases prepare with
    | error e => exact .inl ⟨rfl, rfl, rfl, rfl, rfl, rfl, nofun⟩
    | ok u =>
      cases dispatch with
      | error e => exact .inl ⟨rfl, rfl, rfl, rfl, rfl, rfl, nofun⟩
      | ok u =>
        dsimp only
        split_ifs with hg
        · exact .inl ⟨rfl, rfl, rfl, rfl, rfl, rfl, nofun⟩
        · exact .inr ⟨by simpa using hs, hc, rfl, rfl, rfl, rfl, rfl, rfl⟩

theorem closeChannel_eq (b : Broker) (c : ChannelId) :
    (b.closeChannel c).channels = b.channels.filter (fun e => e.1 != c) ∧
      (b.closeChannel c).toAgent = b.toAgent ∧ (b.closeChannel c).stopping = b.stopping ∧
      (b.closeChannel c).toClients = b.toClients ∧ (b.closeChannel c).agentGone = b.agentGone := by
  unfold closeChannel
  split
  · exact ⟨rfl, rfl, rfl, rfl, rfl⟩
  · next h =>
    refine ⟨?_, rfl, rfl, rfl, rfl⟩
    rw [List.find?_eq_none] at h
    exact (filter_eq_self.2 fun e he => by simpa using h e he).symm

theorem mem_ids_closeChannel : d ∈ (b.closeChannel c).ids ↔ d ∈ b.ids ∧ d ≠ c := by
  rw [ids, (closeChannel_eq b c).1]
  simp only [ids, mem_map, mem_filter, bne_iff_ne]
  constructor
  · rintro ⟨e, ⟨he, hne⟩, rfl⟩
    exact ⟨⟨e, he, rfl⟩, hne⟩
  · rintro ⟨⟨e, he, rfl⟩, hne⟩
    exact ⟨e, ⟨he, hne⟩, rfl⟩

/-- The ids of a table are distinct, as they are the keys of a map. -/
theorem nodup_apply (hb : b.ids.Nodup) (o : BrokerOp) : (b.apply o).ids.Nodup := by
  cases o with
  | openChannel c tcp channel prepare dispatch =>
    rcases b.openChannel_cases c channel (if tcp then .openTcp c else .openExec c) prepare dispatch with
      ⟨hch, -⟩ | ⟨-, hc, hch, -⟩
    · rwa [ids, apply, hch]
    · rw [ids, apply, hch, map_append]
      exact nodup_append'.2 ⟨hb, nodup_singleton _, disjoint_singleton.2 hc⟩
  | sendToAgent m =>
    rcases b.sendToAgent_cases m with h | ⟨-, h⟩ <;> rw [apply, h]
    · exact hb
    · simpa [ids] using hb
  | sendToAgentOn c m =>
    rcases b.sendToAgentOn_cases c m with h | ⟨-, -, h⟩ <;> rw [apply, h]
    · exact hb
    · simpa [ids] using hb
  | closeChannel c =>
    rw [ids, apply, (b.closeChannel_eq c).1]
    exact hb.sublist (filter_sublist.map _)
  | drain error => exact nodup_nil
  | agentGone => exact hb

@[simp] theorem apply_stopping (b : Broker) (o : BrokerOp) : (b.apply o).stopping = b.stopping := by
  cases o with
  | openChannel c tcp channel prepare dispatch =>
    rcases b.openChannel_cases c channel (if tcp then .openTcp c else .openExec c) prepare dispatch with
      h | h
    · exact h.2.2.2.1
    · exact h.2.2.2.2.1
  | sendToAgent m => rcases b.sendToAgent_cases m with h | ⟨-, h⟩ <;> simp [apply, h]
  | sendToAgentOn c m => rcases b.sendToAgentOn_cases c m with h | ⟨-, -, h⟩ <;> simp [apply, h]
  | closeChannel c => exact (b.closeChannel_eq c).2.2.1
  | drain error | agentGone => rfl

/-! ## After the barrier -/

/-- The broker is stopping, and has no open channels. -/
def Shut (b : Broker) : Prop := b.stopping = true ∧ b.channels = []

theorem shut_beginShutdown (b : Broker) (error : String) : (b.beginShutdown error).1.Shut := by
  simp [Shut]

/-- Shutting down once more changes nothing. -/
theorem Shut.beginShutdown (hb : b.Shut) (error : String) : b.beginShutdown error = (b, 0) := by
  obtain ⟨hstop, hnil⟩ := hb
  have hsame : ({ b with stopping := true } : Broker) = b := by
    cases b
    simp_all
  have hsend : b.send [] = b := by
    unfold send
    split
    · rfl
    · simp
  rw [Broker.beginShutdown, hsame, ids, hnil, map_nil, map_nil, hsend]
  cases b
  simp_all

/-- No operation gets anything past the barrier. -/
theorem Shut.apply (hb : b.Shut) (o : BrokerOp) :
    (b.apply o).Shut ∧ (b.apply o).toAgent = b.toAgent ∧ (b.apply o).toClients = b.toClients ∧
      (b.agentGone = true → (b.apply o).agentGone = true) := by
  obtain ⟨hstop, hnil⟩ := hb
  cases o with
  | openChannel c tcp channel prepare dispatch => simp [Broker.apply, openChannel, hstop, hnil, Shut]
  | sendToAgent m => simp [Broker.apply, sendToAgent, hstop, hnil, Shut]
  | sendToAgentOn c m => simp [Broker.apply, sendToAgentOn, hstop, hnil, Shut]
  | closeChannel c => simp [Broker.apply, closeChannel, hstop, hnil, Shut]
  | drain error => cases error <;> simp [Broker.apply, hstop, hnil, Shut]
  | agentGone => simp [Broker.apply, hstop, hnil, Shut]

end Broker

end Lnx
