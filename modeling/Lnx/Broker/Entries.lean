import Lnx.Broker.State
import Lnx.Lib.Machine
import Mathlib.Data.List.Nodup
import Mathlib.Data.List.Perm.Subperm

/-!
# How large the agent's channel table gets

The broker and the guest agent together: the host registers channels and queues their
messages (`runner/broker.rs` lines 139–212, 547–590 and 902–933), the agent takes
messages from its queue and keeps its table, a channel's thread sends a `Close` when
it ends (`send_status`, `guest-agent/src/main.rs` lines 2211–2224), and the broker's
agent reader forgets the channel. An entry of the agent's table goes only when the host
sends a `Close` of its own.

* `Joint.step`: every step of either side.
* `Joint.Forgets`: the broker forgets a channel without having sent a `Close` for it
  since it was opened.
* `agent_table_bounded`: in every run without such a step, the table is no larger than
  the number of channels that have not ended and of `Close` messages in flight.
-/

namespace Lnx

open AgentTable Message List

structure Joint where
  broker : Broker
  /-- how many messages the agent has taken from its queue -/
  taken : ℕ
  table : AgentTable
  /-- the ids of the channels whose threads have not sent `Close` yet -/
  live : List ChannelId
  /-- the `Close` messages on their way to the host -/
  toHost : List ChannelId
  /-- the agent reader has delivered this channel's `Close`, and forgets it next -/
  closing : Option ChannelId

inductive JointAct
  | op (o : BrokerOp)
  /-- the capture worker or the owner sends, past the barrier -/
  | send (m : Message)
  | beginShutdown
  /-- the agent takes the next message -/
  | take
  /-- the thread of a channel sends `Close` -/
  | ended (c : ChannelId)
  /-- the agent reader receives a `Close` and delivers it -/
  | deliver
  /-- and forgets the channel -/
  | forget

namespace Joint

/-- The messages the agent has not taken yet. -/
def inFlight (s : Joint) : List Message := s.broker.toAgent.drop s.taken

def step (s : Joint) : JointAct → Option Joint
  | .op o => if o.Traffic then some { s with broker := s.broker.apply o } else none
  | .send m => if m.opens = none then some { s with broker := s.broker.send [m] } else none
  | .beginShutdown => some { s with broker := (s.broker.beginShutdown ownerStopping).1 }
  | .take =>
    match s.broker.toAgent[s.taken]? with
    | some m =>
      some { s with
        taken := s.taken + 1
        table := (s.table.receive m).1
        live := s.live ++ m.opens.toList }
    | none => none
  | .ended c =>
    if c ∈ s.live then some { s with live := s.live.erase c, toHost := s.toHost ++ [c] } else none
  | .deliver =>
    match s.toHost, s.closing with
    | c :: rest, none => some { s with toHost := rest, closing := some c }
    | _, _ => none
  | .forget =>
    match s.closing with
    | some c => some { s with broker := s.broker.closeChannel c, closing := none }
    | none => none

/-- A VM whose guest agent has just connected. -/
def start : Joint := ⟨⟨[], false, 0, false, none, false, [], []⟩, 0, ⟨[], 0⟩, [], [], none⟩

/-- How often a channel has been opened since the host last sent a `Close` for it. -/
def unclosed (log : List Message) (c : ChannelId) : ℕ := log.foldl (fun n m => m.tally c n) 0

/-- The broker forgets a channel for which it has not sent a `Close` since it was
    opened. -/
def Forgets (s : Joint) (a : JointAct) : Prop :=
  ∃ s' ∈ s.step a, ∃ c ∈ s.broker.ids, c ∉ s'.broker.ids ∧ unclosed s'.broker.toAgent c ≠ 0

instance (s : Joint) (a : JointAct) : Decidable (s.Forgets a) :=
  inferInstanceAs (Decidable (∃ s' ∈ s.step a, ∃ c ∈ s.broker.ids,
    c ∉ s'.broker.ids ∧ unclosed s'.broker.toAgent c ≠ 0))

/-- The `Close` messages in flight, either way. -/
def closesInFlight (s : Joint) : List ChannelId :=
  s.toHost ++ s.closing.toList ++ s.inFlight.filterMap Message.removes

/-- All channels have ended and no `Close` is in flight. -/
def AllEnded (s : Joint) : Prop := s.live = [] ∧ s.closesInFlight = []

/-- The table has no more entries than there are channels that have not ended and
    `Close` messages in flight. -/
def Bounded (s : Joint) : Prop :=
  s.table.channels.length ≤ s.live.length + s.closesInFlight.length ∧
    (s.AllEnded → s.table.channels = [])

/-! ## Openings since the last `Close` -/

section unclosed

variable {p q log : List Message} {m : Message} {c : ChannelId}

theorem unclosed_concat (log : List Message) (m : Message) (c : ChannelId) :
    unclosed (log ++ [m]) c = m.tally c (unclosed log c) := by
  simp [unclosed]

/-- What opens nothing does not raise the number. -/
theorem unclosed_append_le (h : ∀ m ∈ q, m.opens = none) (p : List Message) (c : ChannelId) :
    unclosed (p ++ q) c ≤ unclosed p c := by
  induction q generalizing p with
  | nil => simp
  | cons m q ih =>
    have hm : unclosed (p ++ [m]) c ≤ unclosed p c := by
      rw [unclosed_concat, tally, h m mem_cons_self, if_neg (by simp)]
      split <;> omega
    have := ih (fun m' hm' => h m' (mem_cons_of_mem m hm')) (p ++ [m])
    rw [append_assoc] at this
    exact Nat.le_trans this hm

/-- Only a removal lowers it. -/
theorem exists_removes (h : unclosed (p ++ q) c < unclosed p c) : ∃ m ∈ q, m.removes = some c := by
  induction q generalizing p with
  | nil => simp at h
  | cons m q ih =>
    by_cases hr : m.removes = some c
    · exact ⟨m, mem_cons_self, hr⟩
    · have hm : unclosed p c ≤ unclosed (p ++ [m]) c := by
        rw [unclosed_concat, tally, if_neg hr]
        split <;> omega
      rw [show p ++ m :: q = (p ++ [m]) ++ q by simp] at h
      obtain ⟨m', hm', hr'⟩ := ih (Nat.lt_of_lt_of_le h hm)
      exact ⟨m', mem_cons_of_mem m hm', hr'⟩

end unclosed

/-! ## What holds along a run that does not forget -/

structure Inv (s : Joint) : Prop where
  taken : s.taken ≤ s.broker.toAgent.length
  table : ∀ c, (s.table.entries c).length = unclosed (s.broker.toAgent.take s.taken) c
  /-- a channel is not opened again before a `Close` -/
  once : ∀ n c, unclosed (s.broker.toAgent.take n) c ≤ 1
  closed : ∀ c ∉ s.broker.ids, unclosed s.broker.toAgent c = 0
  /-- an open channel is still running, or its end is on the way to the broker -/
  running : ∀ c ∈ s.broker.ids,
    (∃ m ∈ s.inFlight, m.opens = some c) ∨ c ∈ s.live ∨ c ∈ s.toHost ∨ s.closing = some c

theorem inv_start : start.Inv where
  taken := Nat.le_refl 0
  table _ := rfl
  once n c := by simp [start, unclosed]
  closed _ _ := rfl
  running _ h := absurd h not_mem_nil

variable {s s' : Joint} {a : JointAct} {b : Broker} {δ : List Message}

theorem Inv.taken_append (hs : s.Inv) (hlog : b.toAgent = s.broker.toAgent ++ δ) :
    b.toAgent.take s.taken = s.broker.toAgent.take s.taken ∧
      b.toAgent.drop s.taken = s.inFlight ++ δ := by
  rw [hlog, take_append_of_le_length hs.taken, drop_append_of_le_length hs.taken]
  exact ⟨rfl, rfl⟩

/-- The broker queues messages that open nothing, and forgets what it has closed. -/
theorem Inv.quiet (hs : s.Inv) (hlog : b.toAgent = s.broker.toAgent ++ δ) (hδ : ∀ m ∈ δ, m.opens = none)
    (hids : ∀ c ∈ b.ids, c ∈ s.broker.ids)
    (hforgot : ∀ c ∈ s.broker.ids, c ∉ b.ids → unclosed b.toAgent c = 0) :
    ({ s with broker := b } : Joint).Inv := by
  obtain ⟨htake, hdrop⟩ := hs.taken_append hlog
  have hle (n : ℕ) (c : ChannelId) : unclosed (b.toAgent.take n) c ≤ 1 := by
    rw [hlog, take_append]
    refine Nat.le_trans (unclosed_append_le (fun m hm => hδ m (mem_of_mem_take hm)) _ c) ?_
    exact hs.once n c
  refine ⟨?_, fun c => ?_, hle, fun c hc => ?_, fun c hc => ?_⟩
  · have := hs.taken
    simp only [hlog, length_append]
    omega
  · exact (hs.table c).trans (by rw [htake])
  · by_cases hold : c ∈ s.broker.ids
    · exact hforgot c hold hc
    · have := unclosed_append_le hδ s.broker.toAgent c
      rw [← hlog, hs.closed c hold] at this
      exact Nat.le_zero.1 this
  · refine (hs.running c (hids c hc)).imp_left fun ⟨m, hm, ho⟩ => ⟨m, ?_, ho⟩
    show m ∈ b.toAgent.drop s.taken
    rw [hdrop]
    exact mem_append_left _ hm

/-- The broker registers a channel and queues its opening message. -/
theorem Inv.opened {c : ChannelId} {channel : BrokerChannel} {m : Message} (hs : s.Inv)
    (ho : m.opens = some c) (hc : c ∉ s.broker.ids) (hch : b.channels = s.broker.channels ++ [(c, channel)])
    (hlog : b.toAgent = s.broker.toAgent ++ [m]) : ({ s with broker := b } : Joint).Inv := by
  obtain ⟨htake, hdrop⟩ := hs.taken_append hlog
  have hmem (d : ChannelId) : d ∈ b.ids ↔ d ∈ s.broker.ids ∨ d = c := by simp [Broker.ids, hch]
  have hunclosed (d : ChannelId) : unclosed b.toAgent d ≤ 1 ∧ (d ∉ b.ids → unclosed b.toAgent d = 0) := by
    rw [hlog, unclosed_concat, tally, ho, opens_removes ho]
    by_cases hd : c = d
    · subst hd
      simp [hs.closed c hc, hmem]
    · simp only [Option.some.injEq, hd, if_false, reduceCtorEq]
      refine ⟨?_, fun hn => hs.closed d fun h => hn ((hmem d).2 (.inl h))⟩
      have := hs.once s.broker.toAgent.length d
      rwa [take_length] at this
  refine ⟨?_, fun d => ?_, fun n d => ?_, fun d hd => (hunclosed d).2 hd, fun d hd => ?_⟩
  · have := hs.taken
    simp only [hlog, length_append]
    omega
  · exact (hs.table d).trans (by rw [htake])
  · show unclosed (b.toAgent.take n) d ≤ 1
    by_cases hn : n ≤ s.broker.toAgent.length
    · rw [hlog, take_append_of_le_length hn]
      exact hs.once n d
    · rw [take_of_length_le (by simp [hlog]; omega)]
      exact (hunclosed d).1
  · show (∃ m' ∈ b.toAgent.drop s.taken, _) ∨ _
    rw [hdrop]
    rcases (hmem d).1 hd with hd | rfl
    · refine (hs.running d hd).imp_left fun h => ?_
      obtain ⟨m', hm', ho'⟩ := h
      exact ⟨m', mem_append_left _ hm', ho'⟩
    · exact .inl ⟨m, by simp, ho⟩

theorem Inv.take {m : Message} (hs : s.Inv) (hm : s.broker.toAgent[s.taken]? = some m) :
    ({ s with
      taken := s.taken + 1
      table := (s.table.receive m).1
      live := s.live ++ m.opens.toList } : Joint).Inv := by
  obtain ⟨hlt, hget⟩ := List.getElem?_eq_some_iff.1 hm
  have htake : s.broker.toAgent.take (s.taken + 1) = s.broker.toAgent.take s.taken ++ [m] := by
    rw [take_add_one, hm]
    rfl
  have hdrop : s.inFlight = m :: s.broker.toAgent.drop (s.taken + 1) := by
    rw [inFlight, drop_eq_getElem_cons hlt, hget]
  refine ⟨hlt, fun c => ?_, hs.once, hs.closed, fun c hc => ?_⟩
  · rw [length_entries_receive, hs.table c, htake, unclosed_concat]
  · rcases hs.running c hc with ⟨m', hm', ho⟩ | h | h
    · rw [hdrop] at hm'
      rcases mem_cons.1 hm' with rfl | hm'
      · exact .inr (.inl (by simp [ho]))
      · exact .inl ⟨m', hm', ho⟩
    · exact .inr (.inl (mem_append_left _ h))
    · exact .inr (.inr h)

/-- A send keeps the table of channels. -/
theorem Inv.send {ms : List Message} (hs : s.Inv) (hms : ∀ m ∈ ms, m.opens = none) :
    ({ s with broker := s.broker.send ms } : Joint).Inv := by
  refine hs.quiet (s.broker.send_toAgent ms) (fun m hm => ?_) (fun c hc => ?_) fun c hc hn => ?_
  · split at hm
    · cases hm
    · exact hms m hm
  · simpa [Broker.ids] using hc
  · exact absurd (by simpa [Broker.ids] using hc) hn

theorem Inv.op {o : BrokerOp} (hs : s.Inv) (ho : o.Traffic)
    (hforgot : ∀ c ∈ s.broker.ids, c ∉ (s.broker.apply o).ids → unclosed (s.broker.apply o).toAgent c = 0) :
    ({ s with broker := s.broker.apply o } : Joint).Inv := by
  cases o with
  | openChannel c tcp channel prepare dispatch =>
    rcases s.broker.openChannel_cases c channel (if tcp then .openTcp c else .openExec c) prepare
      dispatch with ⟨hch, hlog, -⟩ | ⟨-, hc, hch, hlog, -⟩
    · refine hs.quiet (δ := []) (by simpa [Broker.apply] using hlog) (by simp) (fun d hd => ?_) hforgot
      rwa [Broker.ids, Broker.apply, hch] at hd
    · refine hs.opened ?_ hc hch hlog
      split <;> rfl
  | sendToAgent m =>
    rcases s.broker.sendToAgent_cases m with hb | ⟨-, hb⟩
    · rw [Broker.apply, hb]
      exact hs
    · rw [Broker.apply, hb]
      exact hs.send (by simpa using ho.1)
  | sendToAgentOn c m =>
    rcases s.broker.sendToAgentOn_cases c m with hb | ⟨-, -, hb⟩
    · rw [Broker.apply, hb]
      exact hs
    · rw [Broker.apply, hb]
      exact hs.send (by simpa using ho.1)
  | closeChannel c =>
    refine hs.quiet (δ := []) (by simpa [Broker.apply] using (s.broker.closeChannel_eq c).2.1) (by simp)
      (fun d hd => ?_) hforgot
    exact (Broker.mem_ids_closeChannel.1 hd).1
  | drain error =>
    refine hs.quiet (δ := []) (by simp [Broker.apply]) (by simp) (fun d hd => ?_) hforgot
    cases hd
  | agentGone => exact ⟨hs.taken, hs.table, hs.once, hs.closed, hs.running⟩

theorem Inv.step (hs : s.Inv) (hf : ¬ s.Forgets a) (h : s.step a = some s') : s'.Inv := by
  have hforgot : ∀ c ∈ s.broker.ids, c ∉ s'.broker.ids → unclosed s'.broker.toAgent c = 0 := by
    intro c hc hc'
    by_contra hne
    exact hf ⟨s', h, c, hc, hc', hne⟩
  cases a with
  | op o =>
    obtain ⟨ho, rfl⟩ := of_guard h
    exact hs.op ho hforgot
  | send m =>
    obtain ⟨ho, rfl⟩ := of_guard h
    exact hs.send (by simpa using ho)
  | beginShutdown =>
    cases h
    refine hs.quiet (Broker.send_toAgent { s.broker with stopping := true } _) (fun m hm => ?_) nofun
      hforgot
    split at hm
    · cases hm
    · obtain ⟨d, -, rfl⟩ := mem_map.1 hm
      rfl
  | take =>
    simp only [Joint.step] at h
    split at h
    · next m hm =>
      cases h
      exact hs.take hm
    · cases h
  | ended c =>
    obtain ⟨hc, rfl⟩ := of_guard h
    refine ⟨hs.taken, hs.table, hs.once, hs.closed, fun d hd => ?_⟩
    rcases hs.running d hd with h | h | h | h
    · exact .inl h
    · by_cases hdc : d = c
      · exact .inr (.inr (.inl (by simp [hdc])))
      · exact .inr (.inl ((mem_erase_of_ne hdc).2 h))
    · exact .inr (.inr (.inl (mem_append_left _ h)))
    · exact .inr (.inr (.inr h))
  | deliver =>
    simp only [Joint.step] at h
    split at h
    · next c rest hto hclosing =>
      cases h
      refine ⟨hs.taken, hs.table, hs.once, hs.closed, fun d hd => (hs.running d hd).imp_right (.imp_right ?_)⟩
      rintro (h | h)
      · rw [hto] at h
        rcases mem_cons.1 h with rfl | h
        · exact .inr rfl
        · exact .inl h
      · cases hclosing.symm.trans h
    · cases h
  | forget =>
    simp only [Joint.step] at h
    split at h
    · next c hclosing =>
      cases h
      have hquiet : ({ s with broker := s.broker.closeChannel c } : Joint).Inv := by
        refine hs.quiet (δ := []) (by simpa using (s.broker.closeChannel_eq c).2.1) nofun
          (fun d hd => ?_) hforgot
        exact (Broker.mem_ids_closeChannel.1 hd).1
      refine ⟨hquiet.taken, hquiet.table, hquiet.once, hquiet.closed, fun d hd => ?_⟩
      refine (hquiet.running d hd).imp_right (.imp_right (.imp_right fun h => ?_))
      cases hclosing.symm.trans h
      exact absurd rfl (Broker.mem_ids_closeChannel.1 hd).2
    · cases h

/-- Every entry belongs to a channel that has not ended or whose `Close` is in flight. -/
theorem Inv.mem_of_entry {e : ChannelId × ℕ} (hs : s.Inv) (he : e ∈ s.table.channels) :
    e.1 ∈ s.live ++ s.closesInFlight := by
  have hpos : 0 < unclosed (s.broker.toAgent.take s.taken) e.1 := by
    rw [← hs.table]
    refine length_pos_of_mem (a := e.2) (mem_map.2 ⟨e, ?_, rfl⟩)
    exact mem_filter.2 ⟨he, by simp⟩
  have hremoves (h : ∃ m ∈ s.inFlight, m.removes = some e.1) : e.1 ∈ s.live ++ s.closesInFlight := by
    obtain ⟨m, hm, hr⟩ := h
    refine mem_append_right _ (mem_append_right _ ?_)
    exact mem_filterMap.2 ⟨m, hm, hr⟩
  by_cases hc : e.1 ∈ s.broker.ids
  · rcases hs.running e.1 hc with ⟨m, hm, ho⟩ | h | h | h
    · -- opened again: the entry's removal comes before
      obtain ⟨p, q, hpq⟩ := append_of_mem hm
      have hpre : s.broker.toAgent.take s.taken ++ p ++ [m] <+: s.broker.toAgent := by
        refine ⟨q, ?_⟩
        conv_rhs => rw [← take_append_drop s.taken s.broker.toAgent]
        rw [show s.broker.toAgent.drop s.taken = p ++ m :: q from hpq]
        simp
      have hagain := hs.once (s.broker.toAgent.take s.taken ++ p ++ [m]).length e.1
      rw [← prefix_iff_eq_take.1 hpre] at hagain
      rw [unclosed_concat, tally, if_pos ho] at hagain
      obtain ⟨m', hm', hr⟩ := exists_removes (p := s.broker.toAgent.take s.taken) (q := p) (c := e.1)
        (by omega)
      exact hremoves ⟨m', by rw [hpq]; exact mem_append_left _ hm', hr⟩
    · exact mem_append_left _ h
    · exact mem_append_right _ (mem_append_left _ (mem_append_left _ h))
    · exact mem_append_right _ (mem_append_left _ (mem_append_right _ (by simp [h])))
  · apply hremoves
    apply exists_removes (p := s.broker.toAgent.take s.taken)
    rw [inFlight, take_append_drop, hs.closed e.1 hc]
    exact hpos

/-- No id has two entries, so the table is no longer than the list of those channels. -/
theorem Inv.bounded (hs : s.Inv) : s.Bounded := by
  have hnodup : (s.table.channels.map Prod.fst).Nodup := by
    rw [nodup_iff_count_le_one]
    intro c
    have := hs.once s.taken c
    rw [← hs.table c] at this
    refine Nat.le_trans (Nat.le_of_eq ?_) this
    rw [count_eq_countP, countP_map, countP_eq_length_filter, entries,
      length_map]
    rfl
  have hsub : s.table.channels.map Prod.fst ⊆ s.live ++ s.closesInFlight := by
    intro c hc
    obtain ⟨e, he, rfl⟩ := mem_map.1 hc
    exact hs.mem_of_entry he
  have hlen := (subperm_of_subset hnodup hsub).length_le
  rw [length_map, length_append] at hlen
  refine ⟨hlen, fun h => ?_⟩
  rw [h.1, h.2] at hlen
  exact length_eq_zero_iff.1 (Nat.le_zero.1 hlen)

end Joint

/-- For every history of channels opened by clients and forwarded connections, and
    every interleaving of broker and agent, in which the broker forgets a channel
    only after it has sent a `Close` for it since it was opened: the agent's table is never
    larger than the number of channels the agent has not sent `Close` for plus the
    `Close` messages in flight, and it is empty when all have ended. -/
theorem agent_table_bounded {as : List JointAct} (h : Avoids Joint.step Joint.Forgets Joint.start as) :
    Along Joint.step Joint.Bounded Joint.start as :=
  (along_of_avoids (fun _ _ _ hs hf h => Joint.Inv.step hs hf h) Joint.inv_start h).mono
    fun _ hs => hs.bounded

/-- A client goes away while its command runs, so that the broker sends a `Close`. -/
theorem agent_table_bounded_gone :
    Along Joint.step Joint.Bounded Joint.start
      [.op (.openChannel 5 false ⟨0, true⟩ (.ok ()) (.ok ())), .take, .op (.sendToAgentOn 5 (.close 5)), .ended 5,
        .deliver, .forget, .take] :=
  agent_table_bounded (by decide)

/-- A command opens a channel, runs, ends and is forgotten, as the client's handler
    leaves it: one entry is left in the table, and nothing else. -/
theorem agent_table_may_grow :
    ([.op (.openChannel 5 false ⟨0, true⟩ (.ok ()) (.ok ())), .take, .ended 5, .deliver, .forget].foldlM
        Joint.step Joint.start).map
      (fun s => (s.broker.ids, s.live, s.closesInFlight, s.table.channels)) =
        some ([], [], [], [(5, 0)]) := by
  decide

end Lnx
