import Mathlib.Data.Nat.Notation
import Mathlib.Tactic.Common

/-!
# The channel table of the guest agent

`agent_loop` (`guest-agent/src/main.rs` lines 2806–2973) keeps a `Vec` of channels. An
opening message pushes an entry at its end, a message for a channel goes to the first
entry with its id, and only a `Close` or an `ExitStatus` from the host removes
entries, all those with its id. The `Close` that a channel's own thread sends when its
command has ended does not.

* `AgentTable.receive`: what the loop does with one message.
* `AgentTable.ofHistory`: the table after any sequence of events.
* `routed_to_latest_iff`: a message reaches the channel opened last with its id if
  and only if that id has been opened once since the host last removed it.
-/

namespace Lnx

open List

/-! ## Messages -/

abbrev ChannelId := UInt64

/-- `format!("{channel_id:016x}")` -/
def hex16 (c : ChannelId) : String :=
  String.ofList (((Nat.toDigits 16 c.toNat).leftpad 16 '0'))

/-- The messages between host and agent that the model is about. What an opening
    message says of the command or the address is not read by the loop. -/
inductive Message
  | openExec (channelId : ChannelId)
  | openTcp (channelId : ChannelId)
  | data (channelId : ChannelId) (bytes : List UInt8)
  | eof (channelId : ChannelId)
  | windowResize (channelId : ChannelId) (rows cols : UInt16)
  | exitStatus (channelId : ChannelId) (status : Int)
  | close (channelId : ChannelId)
  | error (channelId : ChannelId) (message : String)
  | checkpointCreated (channelId : ChannelId)
  | execStarted (channelId : ChannelId)
  | openUrlResult (channelId : ChannelId) (ok : Bool)
  | restoreSync (channelId : ChannelId) (entropy : List UInt8)
  | setClock (unixNanos : UInt64)
  | snapshotReady
  deriving DecidableEq

open Message

/-- What the loop sends to a channel's thread. -/
inductive ChannelInput
  | data (bytes : List UInt8)
  | eof
  | resize (rows cols : UInt16)
  | close
  | snapshotComplete
  | snapshotFailed
  | openUrlComplete
  | openUrlFailed
  deriving DecidableEq

namespace Message

/-- The channel that a message opens. -/
def opens : Message → Option ChannelId
  | .openExec c => some c
  | .openTcp c => some c
  | _ => none

/-- The channel whose entries a message removes. -/
def removes : Message → Option ChannelId
  | .close c => some c
  | .exitStatus c _ => some c
  | _ => none

/-- How often a channel has been opened since it was last removed, after one more
    message. -/
@[simp] def tally (m : Message) (c : ChannelId) (n : ℕ) : ℕ :=
  if m.opens = some c then n + 1 else if m.removes = some c then 0 else n

/-- The channel that a message is for, and what its thread is sent. -/
def target : Message → Option (ChannelId × ChannelInput)
  | .data c bytes => some (c, .data bytes)
  | .eof c => some (c, .eof)
  | .windowResize c rows cols => some (c, .resize rows cols)
  | .close c => some (c, .close)
  | .checkpointCreated c => some (c, .snapshotComplete)
  | .error c _ => some (c, .snapshotFailed)
  | .openUrlResult c ok => some (c, if ok then .openUrlComplete else .openUrlFailed)
  | _ => none

end Message

/-! ## The table -/

/-- The loop's `channels`, and how many it has opened. An entry's number tells which of
    them it is, as its `tx` does. -/
structure AgentTable where
  channels : List (ChannelId × ℕ)
  opened : ℕ
  deriving DecidableEq

open AgentTable

namespace AgentTable

/-- A new channel with a thread of its own. -/
def push (t : AgentTable) (c : ChannelId) : AgentTable :=
  ⟨t.channels ++ [(c, t.opened)], t.opened + 1⟩

/-- `channels.retain(|(id, _)| *id != channel_id)` -/
def retain (t : AgentTable) (c : ChannelId) : AgentTable :=
  { t with channels := t.channels.filter fun e => e.1 != c }

/-- `channels.iter().find(|(id, _)| *id == channel_id)`, and the sending. -/
def route (t : AgentTable) (c : ChannelId) (input : ChannelInput) : Option (ℕ × ChannelInput) :=
  (t.channels.find? fun e => e.1 == c).map fun e => (e.2, input)

/-- The handling of one message: the table after it, and which channel was sent what. -/
def receive (t : AgentTable) : Message → AgentTable × Option (ℕ × ChannelInput)
  | .openExec c => (t.push c, none)
  | .openTcp c => (t.push c, none)
  | .data c bytes => (t, t.route c (.data bytes))
  | .eof c => (t, t.route c .eof)
  | .windowResize c rows cols => (t, t.route c (.resize rows cols))
  | .close c => (t.retain c, t.route c .close)
  | .checkpointCreated c => (t, t.route c .snapshotComplete)
  | .error c _ => (t, t.route c .snapshotFailed)
  | .execStarted _ => (t, none)
  | .openUrlResult c ok => (t, t.route c (if ok then .openUrlComplete else .openUrlFailed))
  | .restoreSync _ _ => (t, none)
  | .exitStatus c _ => (t.retain c, none)
  | .setClock _ => (t, none)
  | .snapshotReady => (t, none)

/-- The channels with an id, in the order of their entries. -/
def entries (t : AgentTable) (c : ChannelId) : List ℕ :=
  (t.channels.filter fun e => e.1 == c).map Prod.snd

variable {t : AgentTable} {c d : ChannelId} {m : Message}

@[simp] theorem entries_push (t : AgentTable) (c d : ChannelId) :
    (t.push d).entries c = t.entries c ++ if d = c then [t.opened] else [] := by
  by_cases h : d = c <;> simp [entries, push, h]

@[simp] theorem entries_retain (t : AgentTable) (c d : ChannelId) :
    (t.retain d).entries c = if d = c then [] else t.entries c := by
  by_cases h : d = c
  · simp [entries, retain, h]
  · rw [if_neg h]
    simp only [entries, retain, filter_filter]
    congr 1
    apply filter_congr
    intro e _
    by_cases he : e.1 = c
    · simp [he, Ne.symm h]
    · simp [he]

theorem route_eq (t : AgentTable) (c : ChannelId) (input : ChannelInput) :
    t.route c input = (t.entries c).head?.map fun k => (k, input) := by
  rw [entries, List.head?_map, List.head?_filter, route, Option.map_map]
  rfl

/-- What a message does to the table depends on what it opens and removes only. -/
theorem receive_fst (t : AgentTable) (m : Message) :
    (t.receive m).1 =
      match m.opens, m.removes with
      | some c, _ => t.push c
      | none, some c => t.retain c
      | none, none => t := by
  cases m <;> rfl

theorem opens_removes (h : m.opens = some c) : m.removes = none := by
  cases m with
  | close | exitStatus => cases h
  | _ => rfl

theorem length_entries_receive (t : AgentTable) (m : Message) (c : ChannelId) :
    ((t.receive m).1.entries c).length = m.tally c (t.entries c).length := by
  rw [receive_fst]
  cases ho : m.opens with
  | some d =>
    have hr := opens_removes ho
    by_cases hd : d = c <;> simp [ho, hr, hd]
  | none =>
    cases hr : m.removes with
    | some d => by_cases hd : d = c <;> simp [ho, hr, hd]
    | none => simp [ho, hr]

theorem receive_snd (h : m.target = some (c, input)) : (t.receive m).2 = t.route c input := by
  cases m <;> simp only [target, reduceCtorEq, Option.some.injEq, Prod.mk.injEq] at h <;>
    obtain ⟨rfl, rfl⟩ := h <;> rfl

end AgentTable

/-! ## Histories -/

/-- What happens to the agent. -/
inductive AgentEvent
  | recv (m : Message)
  /-- the thread of the `k`-th channel sends the host its `Close` -/
  | sentClose (k : ℕ)
  deriving DecidableEq

/-- The events so far, the latest first. -/
abbrev AgentHistory := List AgentEvent

/-- The table after a history. -/
def AgentTable.ofHistory : AgentHistory → AgentTable
  | [] => ⟨[], 0⟩
  | .recv m :: h => ((ofHistory h).receive m).1
  | .sentClose _ :: h => ofHistory h

namespace AgentHistory

/-- The channel opened by the most recent opening message with an id. -/
@[simp] def latest : AgentHistory → ChannelId → Option ℕ
  | [], _ => none
  | .recv m :: h, c => if m.opens = some c then some (AgentTable.ofHistory h).opened else latest h c
  | .sentClose _ :: h, c => latest h c

/-- How often an id has been opened since the host last removed it. -/
@[simp] def openings : AgentHistory → ChannelId → ℕ
  | [], _ => 0
  | .recv m :: h, c => m.tally c (openings h c)
  | .sentClose _ :: h, c => openings h c

/-- The host opens an id again only after the agent has sent `Close` for the earlier
    channel with it. -/
def Orderly : AgentHistory → Prop
  | [] => True
  | .recv m :: h => Orderly h ∧ ∀ c ∈ m.opens, ∀ k ∈ latest h c, .sentClose k ∈ h
  | .sentClose k :: h => Orderly h ∧ k < (AgentTable.ofHistory h).opened

instance decidableOrderly : (h : AgentHistory) → Decidable (Orderly h)
  | [] => .isTrue trivial
  | .recv m :: h =>
    have := decidableOrderly h
    have (c : ChannelId) : Decidable (∀ k ∈ latest h c, AgentEvent.sentClose k ∈ h) :=
      Option.decidableForallMem (latest h c)
    have : Decidable (∀ c ∈ m.opens, ∀ k ∈ latest h c, AgentEvent.sentClose k ∈ h) :=
      Option.decidableForallMem m.opens
    inferInstanceAs (Decidable (_ ∧ _))
  | .sentClose _ :: h =>
    have := decidableOrderly h
    inferInstanceAs (Decidable (_ ∧ _))

/-- The entries with an id are the openings since the id was last removed, and the last
    of them is the latest. -/
structure Tracks (h : AgentHistory) (c : ChannelId) (l : List ℕ) : Prop where
  count : l.length = openings h c
  older : ∀ k ∈ l, k < (AgentTable.ofHistory h).opened
  ascending : l.Pairwise (· < ·)
  last : ∀ k ∈ l.getLast?, latest h c = some k

variable {h h' : AgentHistory} {c : ChannelId} {l : List ℕ} {m : Message}

/-- An event that does not concern the id. -/
theorem Tracks.same (ht : Tracks h c l) (hcount : openings h' c = openings h c)
    (hlast : latest h' c = latest h c)
    (hopened : (AgentTable.ofHistory h).opened ≤ (AgentTable.ofHistory h').opened) : Tracks h' c l where
  count := ht.count.trans hcount.symm
  older k hk := Nat.lt_of_lt_of_le (ht.older k hk) hopened
  ascending := ht.ascending
  last k hk := hlast.trans (ht.last k hk)

theorem Tracks.push (ht : Tracks h c l) (ho : m.opens = some c) :
    Tracks (.recv m :: h) c (l ++ [(AgentTable.ofHistory h).opened]) := by
  have hopened : (ofHistory (.recv m :: h)).opened = (ofHistory h).opened + 1 := by
    rw [ofHistory, receive_fst, ho]
    rfl
  refine ⟨?_, fun k hk => ?_, ?_, fun k hk => ?_⟩
  · simp [ho, ht.count]
  · rw [hopened]
    rcases mem_append.1 hk with hk | hk
    · have := ht.older k hk
      omega
    · have := mem_singleton.1 hk
      omega
  · exact pairwise_append.2 ⟨ht.ascending, pairwise_singleton _ _, fun a ha b hb =>
      mem_singleton.1 hb ▸ ht.older a ha⟩
  · rw [List.getLast?_concat] at hk
    simp [ho, Option.mem_some_iff.1 hk]

theorem Tracks.retain (hno : m.opens = none) (hr : m.removes = some c) :
    Tracks (.recv m :: h) c [] where
  count := by simp [hno, hr]
  older := nofun
  ascending := .nil
  last := nofun

theorem tracks (h : AgentHistory) (c : ChannelId) : Tracks h c ((AgentTable.ofHistory h).entries c) := by
  induction h with
  | nil => exact ⟨rfl, nofun, .nil, nofun⟩
  | cons e h ih =>
    cases e with
    | sentClose k => exact ih.same rfl rfl (Nat.le_refl _)
    | recv m =>
      rw [ofHistory]
      have htable := (ofHistory h).receive_fst m
      cases ho : m.opens with
      | some d =>
        rw [ho] at htable
        rw [htable, entries_push]
        by_cases hd : d = c
        · subst hd
          rw [if_pos rfl]
          exact ih.push ho
        · have hne : m.opens ≠ some c := by simpa [ho] using hd
          have hr := opens_removes ho
          rw [if_neg hd, append_nil]
          refine ih.same (by simp [hne, hr]) (by simp [hne]) ?_
          rw [ofHistory, htable]
          exact Nat.le_succ _
      | none =>
        rw [ho] at htable
        cases hr : m.removes with
        | some d =>
          rw [hr] at htable
          rw [htable, entries_retain]
          by_cases hd : d = c
          · subst hd
            rw [if_pos rfl]
            exact .retain ho hr
          · rw [if_neg hd]
            refine ih.same (by simp [ho, hr, hd]) (by simp [ho]) ?_
            exact Nat.le_of_eq (by rw [ofHistory, htable]; rfl)
        | none =>
          rw [hr] at htable
          rw [htable]
          refine ih.same (by simp [ho, hr]) (by simp [ho]) ?_
          exact Nat.le_of_eq (by rw [ofHistory, htable])

/-- The first of ascending numbers is the last just when there are no others. -/
theorem Tracks.head_eq_latest_iff {k : ℕ} (ht : Tracks h c l) (hk : latest h c = some k) :
    l.head? = some k ↔ openings h c = 1 := by
  rw [← ht.count]
  cases l with
  | nil => simp
  | cons a l =>
    rcases eq_nil_or_concat l with rfl | ⟨l', b, rfl⟩
    · have := ht.last a (by simp)
      rw [hk] at this
      simpa using this.symm
    · have hb := ht.last b (by simp [List.getLast?_cons])
      have hlt : a < b := (pairwise_cons.1 ht.ascending).1 b (by simp)
      rw [hk] at hb
      cases hb
      refine iff_of_false (fun heq => ?_) (by simp)
      cases heq
      exact Nat.lt_irrefl _ hlt

end AgentHistory

/-- After every sequence of events, for every message for a channel that has been
    opened: the message is delivered to the channel opened by the most recent opening
    message with its id if and only if that id has been opened exactly once since the
    host last sent a `Close` (or an `ExitStatus`) for it. -/
theorem routed_to_latest_iff (h : AgentHistory) {m : Message} {c : ChannelId} {input : ChannelInput}
    {k : ℕ} (hm : m.target = some (c, input)) (hk : h.latest c = some k) :
    ((AgentTable.ofHistory h).receive m).2 = some (k, input) ↔ h.openings c = 1 := by
  rw [receive_snd hm, route_eq,
    ← (AgentHistory.tracks h c).head_eq_latest_iff hk]
  cases ((ofHistory h).entries c).head? with
  | none | some j => simp

/-- An id that the host has closed and opened again is the second channel's. -/
theorem routed_to_latest_reopened :
    let h := [.recv (.openExec 5), .recv (.close 5), .sentClose 0, .recv (.openExec 5)]
    ((AgentTable.ofHistory h).receive (.eof 5)).2 = some (1, .eof) :=
  (routed_to_latest_iff _ (c := 5) (k := 1) rfl (by decide)).2 (by decide)

/-- A command ends, the agent sends its `Close`, and an identical command gets the same
    id: the second channel is the latest, and the first is sent its input. -/
theorem routed_to_ended_channel :
    AgentHistory.Orderly [.recv (.openExec 5), .sentClose 0, .recv (.openExec 5)] ∧
      AgentHistory.latest [.recv (.openExec 5), .sentClose 0, .recv (.openExec 5)] 5 = some 1 ∧
      ((AgentTable.ofHistory [.recv (.openExec 5), .sentClose 0, .recv (.openExec 5)]).receive
        (.data 5 [7])).2 = some (0, .data [7]) := by
  decide

end Lnx
