import Lnx.Protocol.Frame

/-!
# What a client can send to the guest agent

Once a client's channel is open, its handler (`handle_broker_client`,
`runner/broker.rs` lines 541–590) reads message after message and passes each on to
the agent's queue, whatever it is: it looks at the message for the log only. When the
client is gone it closes the channel. What other clients, the agent and the owner do
meanwhile shows in what the handler finds when it sends.

* `handled`: what the handler puts on the queue.
* `Own`: the messages that concern the client's own channel.
* `client_isolated_iff`: all of them are `Own` if and only if all that the client sends is.
-/

namespace Lnx

open List

/-- What the handler finds under the lock of the channel table. -/
structure BrokerView where
  stopping : Bool
  /-- whether the channel is still open -/
  registered : Bool
  /-- the thread that writes to the agent has stopped -/
  agentGone : Bool
  deriving DecidableEq

/-- The broker of a running owner, with the channel open. -/
def BrokerView.live : BrokerView := ⟨false, true, false⟩

/-- `send_to_agent`: what is queued, and whether the handler goes on. -/
def BrokerView.sendToAgent (v : BrokerView) (m : ProtocolMessage) : List ProtocolMessage × Bool :=
  if v.stopping then ([], false)
  else if v.agentGone then ([], false)
  else ([m], true)

/-- `send_to_agent_on` -/
def BrokerView.sendToAgentOn (v : BrokerView) (m : ProtocolMessage) : List ProtocolMessage :=
  if !v.stopping && v.registered && !v.agentGone then [m] else []

/-- What the handler of the channel `c` puts on the agent's queue, as long as it has a
    view of the broker for each message that it reads. -/
def handled (P : Postcard) (c : ChannelId) : List BrokerView → Pieces UInt8 → List ProtocolMessage
  | [], _ => []
  | v :: vs, stream =>
    match hostReadMessage P stream with
    | .error _ => v.sendToAgentOn (.close c)
    | .ok (m, rest) =>
      let sent := v.sendToAgent m
      sent.1 ++ if sent.2 then handled P c vs rest else []

/-- What the client sends: the messages that can be read of its stream, up to `n`. -/
def clientMessages (P : Postcard) (n : ℕ) (stream : Pieces UInt8) : List ProtocolMessage :=
  readAll (fun stream => (hostReadMessage P stream).toOption) n stream

/-- A message that feeds, resizes or ends the command of the channel `c`. -/
def Own (c : ChannelId) : ProtocolMessage → Prop
  | .data d _ | .eof d | .windowResize d _ _ | .close d => d = c
  | _ => False

variable {P : Postcard} {c : ChannelId}

/-- Nothing is queued but what the client sends and the `Close` of its channel. -/
theorem handled_subset (vs : List BrokerView) (stream : Pieces UInt8) :
    ∀ m ∈ handled P c vs stream, m ∈ clientMessages P vs.length stream ∨ m = .close c := by
  induction vs generalizing stream with
  | nil =>
    intro m hm
    cases hm
  | cons v vs ih =>
    intro m hm
    rw [handled] at hm
    rw [clientMessages, length_cons, readAll]
    split at hm
    · right
      rw [BrokerView.sendToAgentOn] at hm
      split at hm
      · exact mem_singleton.1 hm
      · cases hm
    · next m' rest hread =>
      have hsome : (hostReadMessage P stream).toOption = some (m', rest) := by
        rw [hread]
        rfl
      rw [hsome]
      rcases mem_append.1 hm with hm | hm
      · have heq : m = m' := by
          rw [BrokerView.sendToAgent] at hm
          split_ifs at hm
          · cases hm
          · cases hm
          · exact mem_singleton.1 hm
        exact .inl (heq ▸ mem_cons_self)
      · split at hm
        · exact (ih rest m hm).imp_left (mem_cons_of_mem m')
        · cases hm

/-- While the owner runs, everything that the client sends is queued. -/
theorem mem_handled_live (n : ℕ) (stream : Pieces UInt8) :
    ∀ m ∈ clientMessages P n stream, m ∈ handled P c (List.replicate n .live) stream := by
  induction n generalizing stream with
  | zero =>
    intro m hm
    cases hm
  | succ n ih =>
    intro m hm
    rw [clientMessages, readAll] at hm
    rw [replicate_succ, handled]
    cases hread : hostReadMessage P stream with
    | error e =>
      rw [hread] at hm
      cases hm
    | ok r =>
      obtain ⟨m', rest⟩ := r
      rw [hread] at hm
      rcases mem_cons.1 hm with rfl | hm
      · exact mem_cons_self
      · exact mem_cons_of_mem m' (ih rest m hm)

/-- For every stream of bytes of a client, in whatever pieces it arrives and whatever the
    broker's state at each message: all that the handler queues concerns the client's own
    channel if and only if all that the client sends does. -/
theorem client_isolated_iff (P : Postcard) (c : ChannelId) (stream : Pieces UInt8) :
    (∀ vs, ∀ m ∈ handled P c vs stream, Own c m) ↔ ∀ n, ∀ m ∈ clientMessages P n stream, Own c m := by
  constructor
  · intro h n m hm
    exact h _ m (mem_handled_live n stream m hm)
  · intro h vs m hm
    rcases handled_subset vs stream m hm with hm | rfl
    · exact h _ m hm
    · exact rfl

theorem fitsFrame_close (d : ChannelId) : FitsFrame postcard (.close d) := by
  have hvariant : (Wire.putVarint 11).length ≤ 1 := Wire.length_putVarint_le (by decide) (by decide)
  have hid := putVarint_channelId d
  show (Wire.putVarint 11 ++ Wire.putVarint d.toNat).length ≤ maxMessageSize
  rw [length_append, maxMessageSize]
  omega

/-- The client of channel 1 ends the command of channel 2. -/
theorem client_may_close_another :
    handled postcard 1 [.live] [frameOf postcard (.close 2)] = [.close 2] ∧ ¬ Own 1 (.close 2) := by
  constructor
  · have hflat : ([frameOf postcard (.close 2)] : Pieces UInt8).flatten = frameOf postcard (.close 2) ++ [] := by
      simp
    obtain ⟨rest, hread, -⟩ := readFrame_frameOf (fitsFrame_close 2) hflat
    have hhost : hostReadMessage postcard [frameOf postcard (.close 2)] = .ok (.close 2, rest) := by
      simp only [hostReadMessage, hread, postcard.fromBytes_toAllocvec]
    simp only [handled, hhost]
    rfl
  · intro h
    have h21 : (2 : ChannelId) = 1 := h
    exact absurd h21 (by decide)

end Lnx
