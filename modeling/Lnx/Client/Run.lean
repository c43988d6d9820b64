import Lnx.Broker.State
import Lnx.Lib.Machine

/-!
# Running a command at most once

`run` (`runner.rs` lines 220–232) offers a command to a VM owner, and again to the next
one if the owner turns out to be stopping. An attempt (`run_once`, lines 234–318)
connects to the owner that runs, waits for another process that is starting one, or
starts one itself; it asks for forwards and for the VM to be kept running, sends
`OpenExec` and relays what comes back (lines 1756–1813). Owners come and go as they
like: everything else their threads do is interleaved with the steps of the client and
of the handlers of its connections.

* `ClientRun.step`: the steps of the client, of its handlers and of the owners. What
  fails for reasons of its own (the file system, a socket, a protocol mismatch) is the
  action `fail`. The messages that the client sends after `OpenExec` are left out, as
  any thread may send messages that open nothing.
* `run_at_most_once`: across all attempts at most one `OpenExec` is put on the queue of
  a guest agent, none by an attempt that is repeated, and one if the run ends with the
  exit status of the command.
* `run_status_without_command`: a run that ends with the status of an interrupted
  client may have queued none.
-/

namespace Lnx

open Option List Function

/-- How many times a command is offered to an owner. -/
def notStartedAttempts : ℕ := 3

def exitTimedOut : Int := 124

def channelCollision (c : ChannelId) : String :=
  "channel id collision for live channel " ++ hex16 c ++
    "; deterministic mode cannot run identical commands concurrently"

/-! ## Owners -/

/-- The errors that the guest agent reports on a channel. -/
inductive AgentError
  | openpty
  | connect (host port e : String)
  | cloneTcp (e : String)
  | tcpRead (e : String)
  | tcpWrite (e : String)

def AgentError.text : AgentError → String
  | .openpty => "openpty failed"
  | .connect host port e => "connect " ++ host ++ ":" ++ port ++ ": " ++ e
  | .cloneTcp e => "clone tcp stream: " ++ e
  | .tcpRead e => "tcp read: " ++ e
  | .tcpWrite e => "tcp write: " ++ e

/-- What the guest agent reports on a channel; `Stderr` goes the way of `Data`. -/
inductive AgentReport
  | data (bytes : List UInt8)
  | eof
  | exitStatus (status : Int)
  | close
  | error (e : AgentError)

def AgentReport.message (c : ChannelId) : AgentReport → Message
  | .data bytes => .data c bytes
  | .eof => .eof c
  | .exitStatus status => .exitStatus c status
  | .close => .close c
  | .error e => .error c e.text

def agentDisconnected (readerError : String) : String :=
  "guest agent disconnected before command completed: " ++ readerError

/-- A VM owner: its broker, and the message that its agent reader is delivering. -/
structure VmOwner where
  broker : Broker
  delivering : Option (ℕ × Message)

/-- What the threads of an owner do apart from the handlers of this client. -/
inductive OwnerStep
  | op (o : BrokerOp)
  /-- `deliver_to_client` looks up the channel -/
  | lookUp (c : ChannelId) (r : AgentReport)
  | deliver
  /-- the agent reader ends; whether the final snapshot has started -/
  | agentLost (readerError : String) (snapshotStarted : Bool)
  | shutdown

/-- An operation for other clients, whose numbers are larger than those of the attempts.
    Draining is the agent reader's own step. -/
def BrokerOp.others : BrokerOp → Bool
  | .openChannel _ _ channel _ _ => decide (notStartedAttempts < channel.client)
  | .drain _ => false
  | _ => true

namespace VmOwner

def start : VmOwner := ⟨⟨[], false, 0, false, none, false, [], []⟩, none⟩

def step (o : VmOwner) : OwnerStep → Option VmOwner
  | .op op => if op.others then some { o with broker := o.broker.apply op } else none
  | .lookUp c r =>
    match o.delivering with
    | some _ => none
    | none =>
      some { o with
        delivering := (o.broker.channels.find? fun e => e.1 == c).map fun e => (e.2.client, r.message c) }
  | .deliver =>
    o.delivering.map fun (client, m) => ⟨o.broker.tell client m, none⟩
  | .agentLost readerError snapshotStarted =>
    let error := if snapshotStarted then none else some (agentDisconnected readerError)
    some { o with broker := (o.broker.drain error).1 }
  | .shutdown => some { o with broker := (o.broker.beginShutdown ownerStopping).1 }

end VmOwner

/-! ## The client -/

/-- How an attempt ends. -/
inductive RunEnd
  /-- with the status that an `ExitStatus` message brings -/
  | exited (status : Int)
  | interrupted (signal : ℕ)
  | timedOut
  /-- with `CommandNotStarted` -/
  | notStarted
  | failed (text : String)
  deriving DecidableEq

open RunEnd

/-- What `run_once` returns. -/
def RunEnd.result : RunEnd → Except String Int
  | .exited status => .ok status
  | .interrupted signal => .ok (128 + signal)
  | .timedOut => .ok exitTimedOut
  | .notStarted => .error ownerStoppingNotStarted
  | .failed text => .error text

/-- An error that an owner replies with. -/
def RunEnd.ofError (text : String) : RunEnd :=
  if text = ownerStoppingNotStarted then .notStarted else .failed text

inductive SessionStage
  | connected
  /-- `OpenExec` is on its way to the handler -/
  | sent
  | opened
  /-- the handler has answered with an error -/
  | refused (message : String)
  /-- the handler has failed without an answer -/
  | dropped
  deriving DecidableEq

/-- A connection for a command, and how many messages of its channel have been read. -/
structure Session where
  owner : ℕ
  channelId : ChannelId
  stage : SessionStage
  read : ℕ

inductive RunPc
  | starting
  /-- in `run_existing_broker_client` -/
  | existing
  /-- in `acquire_owner_start_or_run_client` -/
  | locking
  /-- in `run_broker_client_awaiting_owner` -/
  | awaiting
  /-- in `add_forwards` -/
  | forwarding (left : ℕ)
  /-- in `request_keep_running` -/
  | keeping
  | opening
  | relaying
  | ended (e : RunEnd)
  deriving DecidableEq

/-- What the model reads of a `RunConfig`: of the forwards, how many there are, and of the
    timeout, whether there is one. -/
structure RunConfig where
  reuseOwner : Bool
  forwards : ℕ
  keepRunning : Bool
  timeout : Bool

structure ClientRun where
  attempt : ℕ
  pc : RunPc
  interrupt : ℕ
  /-- the connection of each attempt -/
  sessions : ℕ → Option Session
  owners : ℕ → VmOwner
  /-- for each message that a handler's `open_channel` has put on the queue to an agent,
      the attempt it was for -/
  queued : List ℕ

open ClientRun

inductive RunAct
  | signal (n : ℕ)
  | fail (text : String)
  | begin
  | connect (owner : ℕ)
  | noBroker
  | lock
  | interrupted
  /-- ask an owner for a forward, which it may fail to set up -/
  | forward (owner : ℕ) (outcome : Except String Unit)
  | session
  | keep (owner : ℕ)
  /-- send `OpenExec` -/
  | openExec (c : ChannelId)
  | timeOut
  | receive
  /-- the handler of an attempt's connection calls `open_channel` -/
  | handle (n : ℕ) (prepare dispatch : Except String Unit)
  | owner (k : ℕ) (x : OwnerStep)

/-- What `relay_channel_output` makes of a message. -/
def Message.relayed (c : ChannelId) : Message → Option RunEnd
  | .exitStatus id status => if id = c then some (.exited status) else none
  | .error id text => if id = c then some (.ofError text) else none
  | _ => none

/-- The next message on the connection of attempt `n`. -/
def Session.next (x : Session) (n : ℕ) (o : VmOwner) : Option Message :=
  match x.stage with
  | .refused text => some (.error x.channelId text)
  | .opened => (o.broker.toClients.filter fun e => e.1 == n)[x.read]?.map Prod.snd
  | _ => none

/-- What the handler does after `open_channel`. -/
@[simp] def SessionStage.admitted (c : ChannelId) : Except String ChannelAdmission → SessionStage
  | .ok .opened => .opened
  | .ok .stopping => .refused ownerStoppingNotStarted
  | .ok .collision => .refused (channelCollision c)
  | .error _ => .dropped

namespace ClientRun

def start : ClientRun := ⟨1, .starting, 0, fun _ => none, fun _ => .start, []⟩

/-- `run`: an attempt that did not start the command is repeated. -/
def finish (s : ClientRun) (e : RunEnd) : ClientRun :=
  if e = .notStarted ∧ s.attempt < notStartedAttempts then
    { s with attempt := s.attempt + 1, pc := .starting }
  else { s with pc := .ended e }

def setSession (s : ClientRun) (n : ℕ) (x : Session) : ClientRun :=
  { s with sessions := update s.sessions n (some x) }

/-- Connected to an owner, with forwards to ask for. The channel's id is drawn later. -/
def meet (s : ClientRun) (owner forwards : ℕ) : ClientRun :=
  { s.setSession s.attempt ⟨owner, 0, .connected, 0⟩ with pc := .forwarding forwards }

def handle (s : ClientRun) (n : ℕ) (x : Session) (prepare dispatch : Except String Unit) : ClientRun :=
  let b := (s.owners x.owner).broker
  let r := b.openChannel x.channelId ⟨n, true⟩ (.openExec x.channelId) prepare dispatch
  { s.setSession n { x with stage := .admitted x.channelId r.2 } with
    owners := update s.owners x.owner { s.owners x.owner with broker := r.1 }
    queued := s.queued ++ (r.1.toAgent.drop b.toAgent.length).map fun _ => n }

def step (config : RunConfig) (s : ClientRun) : RunAct → Option ClientRun
  | .signal n => some { s with interrupt := n }
  | .fail text =>
    match s.pc with
    | .ended _ => none
    | _ => some (s.finish (.failed text))
  | .begin =>
    if s.pc = .starting then
      some { s with interrupt := 0, pc := if config.reuseOwner then .existing else .locking }
    else none
  | .connect owner =>
    match s.pc with
    | .existing => some (s.meet owner config.forwards)
    | .locking => if config.reuseOwner then some (s.meet owner config.forwards) else none
    | .awaiting => some (s.meet owner 0)
    | _ => none
  | .noBroker => if s.pc = .existing then some { s with pc := .locking } else none
  | .lock => if s.pc = .locking then some { s with pc := .awaiting } else none
  | .interrupted =>
    if s.interrupt ≠ 0 ∧ (s.pc = .awaiting ∨ s.pc = .relaying) then
      some (s.finish (.interrupted s.interrupt))
    else none
  | .forward owner outcome =>
    match s.pc with
    | .forwarding (left + 1) =>
      if (s.owners owner).broker.stopping then some (s.finish (.ofError ownerStoppingNotStarted))
      else
        match outcome with
        | .ok _ => some { s with pc := .forwarding left }
        | .error text => some (s.finish (.ofError text))
    | _ => none
  | .session =>
    if s.pc = .forwarding 0 then
      some { s with interrupt := 0, pc := if config.keepRunning then .keeping else .opening }
    else none
  | .keep owner =>
    if s.pc = .keeping then
      if (s.owners owner).broker.stopping then some (s.finish (.ofError ownerStoppingNotStarted))
      else some { s with pc := .opening }
    else none
  | .openExec c =>
    match s.pc, s.sessions s.attempt with
    | .opening, some x =>
      some { s.setSession s.attempt { x with channelId := c, stage := .sent } with pc := .relaying }
    | _, _ => none
  | .timeOut => if config.timeout ∧ s.pc = .relaying then some (s.finish .timedOut) else none
  | .receive =>
    match s.pc, s.sessions s.attempt with
    | .relaying, some x =>
      match x.next s.attempt (s.owners x.owner) with
      | some m =>
        match m.relayed x.channelId with
        | some e => some (s.finish e)
        | none => some (s.setSession s.attempt { x with read := x.read + 1 })
      | none => none
    | _, _ => none
  | .handle n prepare dispatch =>
    match s.sessions n with
    | some x => if x.stage = .sent then some (s.handle n x prepare dispatch) else none
    | none => none
  | .owner k x =>
    ((s.owners k).step x).map fun o => { s with owners := update s.owners k o }

/-- At most one `OpenExec` has been queued, for the last attempt, and one if the command
    has reported its exit status. -/
def AtMostOnce (s : ClientRun) : Prop :=
  s.queued.length ≤ 1 ∧ (∀ n ∈ s.queued, n = s.attempt) ∧
    ∀ status, s.pc = .ended (.exited status) → s.queued.length = 1

end ClientRun

/-! ## Whom an owner has messages for -/

theorem ownerStopping_ne : ownerStopping ≠ ownerStoppingNotStarted := by
  decide

/-- The first letter tells most texts apart. -/
theorem ne_notStarted_of_head {text : String} {c : Char} (hc : c ≠ 'V')
    (h : text.toList.head? = some c) : text ≠ ownerStoppingNotStarted := by
  rintro rfl
  exact hc (some.inj h).symm

theorem ne_notStarted_append {a : String} (b : String) {c : Char} (hc : c ≠ 'V')
    (h : a.toList.head? = some c) : a ++ b ≠ ownerStoppingNotStarted := by
  refine ne_notStarted_of_head hc ?_
  rw [String.toList_append, List.head?_append, h]
  rfl

theorem AgentError.text_ne (e : AgentError) : e.text ≠ ownerStoppingNotStarted := by
  cases e with
  | openpty =>
    refine ne_notStarted_of_head (c := 'o') (by decide) ?_
    rfl
  | connect host port e =>
    refine ne_notStarted_of_head (c := 'c') (by decide) ?_
    show ("connect " ++ host ++ ":" ++ port ++ ": " ++ e).toList.head? = some 'c'
    simp only [String.toList_append, List.head?_append]
    rfl
  | cloneTcp e => exact ne_notStarted_append e (c := 'c') (by decide) rfl
  | tcpRead e | tcpWrite e => exact ne_notStarted_append e (c := 't') (by decide) rfl

theorem agentDisconnected_ne (e : String) : agentDisconnected e ≠ ownerStoppingNotStarted :=
  ne_notStarted_append e (c := 'g') (by decide) rfl

/-- The message does not say that the command was not started. -/
def Message.Starts (m : Message) : Prop := ∀ c, m ≠ .error c ownerStoppingNotStarted

theorem AgentReport.starts (c : ChannelId) (r : AgentReport) : (r.message c).Starts := by
  intro d h
  cases r with
  | error e =>
    injection h with _ h
    exact e.text_ne h
  | _ => cases h

/-- The channels of a broker, and what it has sent, are all for clients in `P`, and it has
    told none of them that its command was not started. -/
structure Broker.Serves (P : ℕ → Prop) (b : Broker) : Prop where
  channels : ∀ e ∈ b.channels, P e.2.client
  toClients : ∀ e ∈ b.toClients, P e.1 ∧ e.2.Starts

namespace Broker.Serves

variable {P Q : ℕ → Prop} {b : Broker}

theorem mono (h : ∀ n, P n → Q n) (hb : b.Serves P) : b.Serves Q :=
  ⟨fun e he => h _ (hb.channels e he), fun e he => ⟨h _ (hb.toClients e he).1, (hb.toClients e he).2⟩⟩

section

variable (hb : b.Serves P)

include hb

theorem of_eq {b' : Broker} (hch : b'.channels = b.channels) (htell : b'.toClients = b.toClients) :
    b'.Serves P :=
  ⟨hch ▸ hb.channels, htell ▸ hb.toClients⟩

theorem openChannel {channel : BrokerChannel} (hP : P channel.client) (c : ChannelId)
    (opening : Message) (prepare dispatch : Except String Unit) :
    (b.openChannel c channel opening prepare dispatch).1.Serves P := by
  rcases b.openChannel_cases c channel opening prepare dispatch with
    ⟨hch, -, -, -, htell, -⟩ | ⟨-, -, hch, -, -, htell, -⟩
  · exact hb.of_eq hch htell
  · refine ⟨fun e he => ?_, htell ▸ hb.toClients⟩
    rw [hch] at he
    rcases mem_append.1 he with he | he
    · exact hb.channels e he
    · cases mem_singleton.1 he
      exact hP

theorem tell {client : ℕ} (hP : P client) {m : Message} (hm : m.Starts) :
    (b.tell client m).Serves P := by
  refine ⟨hb.channels, fun e he => ?_⟩
  rcases mem_append.1 he with he | he
  · exact hb.toClients e he
  · cases mem_singleton.1 he
    exact ⟨hP, hm⟩

theorem drain {error : Option String} (herr : ∀ text ∈ error, text ≠ ownerStoppingNotStarted) :
    (b.drain error).1.Serves P := by
  refine ⟨nofun, fun e he => ?_⟩
  rcases mem_append.1 he with he | he
  · exact hb.toClients e he
  · cases error with
    | none => cases he
    | some text =>
      obtain ⟨x, hx, rfl⟩ := mem_map.1 he
      refine ⟨hb.channels x hx, fun c h => ?_⟩
      injection h with _ h
      exact herr text rfl h

theorem beginShutdown {error : String} (herr : error ≠ ownerStoppingNotStarted) :
    (b.beginShutdown error).1.Serves P := by
  apply drain
  · exact hb.of_eq (send_channels _ _) (send_toClients _ _)
  · intro text htext
    cases htext
    exact herr

theorem apply (hP : ∀ n, notStartedAttempts < n → P n) {o : BrokerOp} (ho : o.others = true) :
    (b.apply o).Serves P := by
  cases o with
  | openChannel c tcp channel prepare dispatch =>
    exact hb.openChannel (hP _ (of_decide_eq_true ho)) c _ prepare dispatch
  | sendToAgent m =>
    rcases b.sendToAgent_cases m with h | ⟨-, h⟩ <;> rw [Broker.apply, h]
    · exact hb
    · exact hb.of_eq (send_channels b _) (send_toClients b _)
  | sendToAgentOn c m =>
    rcases b.sendToAgentOn_cases c m with h | ⟨-, -, h⟩ <;> rw [Broker.apply, h]
    · exact hb
    · exact hb.of_eq (send_channels b _) (send_toClients b _)
  | closeChannel c =>
    obtain ⟨hch, -, -, htell, -⟩ := b.closeChannel_eq c
    refine ⟨fun e he => ?_, htell ▸ hb.toClients⟩
    rw [Broker.apply, hch] at he
    exact hb.channels e (mem_filter.1 he).1
  | drain error => cases ho
  | agentGone => exact hb.of_eq rfl rfl

end

end Broker.Serves

/-- The same of an owner, with the message that is being delivered. -/
structure VmOwner.Serves (P : ℕ → Prop) (o : VmOwner) : Prop where
  broker : o.broker.Serves P
  delivering : ∀ e ∈ o.delivering, P e.1 ∧ e.2.Starts

namespace VmOwner.Serves

variable {P Q : ℕ → Prop} {o o' : VmOwner}

theorem mono (h : ∀ n, P n → Q n) (ho : o.Serves P) : o.Serves Q :=
  ⟨ho.broker.mono h, fun e he => ⟨h _ (ho.delivering e he).1, (ho.delivering e he).2⟩⟩

theorem step (ho : o.Serves P) (hP : ∀ n, notStartedAttempts < n → P n) {x : OwnerStep}
    (h : o.step x = some o') : o'.Serves P := by
  cases x with
  | op op =>
    obtain ⟨hop, rfl⟩ := of_guard h
    exact ⟨ho.broker.apply hP hop, ho.delivering⟩
  | lookUp c r =>
    simp only [VmOwner.step] at h
    split at h
    · cases h
    · cases h
      refine ⟨ho.broker, fun e he => ?_⟩
      obtain ⟨x, hx, rfl⟩ := map_eq_some_iff.1 he
      exact ⟨ho.broker.channels x (mem_of_find?_eq_some hx), r.starts c⟩
  | deliver =>
    obtain ⟨⟨client, m⟩, hd, rfl⟩ := map_eq_some_iff.1 h
    obtain ⟨hclient, hm⟩ := ho.delivering _ hd
    exact ⟨ho.broker.tell hclient hm, nofun⟩
  | agentLost readerError snapshotStarted =>
    cases h
    refine ⟨ho.broker.drain fun text htext => ?_, ho.delivering⟩
    cases snapshotStarted with
    | true => cases htext
    | false =>
      cases htext
      exact agentDisconnected_ne readerError
  | shutdown =>
    cases h
    exact ⟨ho.broker.beginShutdown ownerStopping_ne, ho.delivering⟩

end VmOwner.Serves

/-! ## What always holds -/

namespace ClientRun

variable {config : RunConfig} {s s' : ClientRun} {a : RunAct} {n k : ℕ} {x : Session}

/-- The owner `k` has opened the channel of attempt `n`. -/
def Opened (s : ClientRun) (n k : ℕ) : Prop :=
  ∃ x, s.sessions n = some x ∧ x.stage = .opened ∧ x.owner = k

/-- The clients that the owner `k` may have channels for. -/
def Theirs (s : ClientRun) (k n : ℕ) : Prop := notStartedAttempts < n ∨ s.Opened n k

structure Inv (s : ClientRun) : Prop where
  /-- before an attempt has connected there is no connection for it -/
  unmet : ∀ n, s.attempt < n ∨ (n = s.attempt ∧ s.pc ∈ [.starting, .existing, .locking, .awaiting]) →
    s.sessions n = none
  /-- nor has `OpenExec` been sent before it is time -/
  unsent : (∃ left, s.pc = .forwarding left) ∨ s.pc = .keeping ∨ s.pc = .opening →
    ∀ x, s.sessions s.attempt = some x → x.stage = .connected
  /-- an attempt is over when its connection is of no use or has been refused -/
  earlier : ∀ n < s.attempt, ∀ x, s.sessions n = some x →
    x.stage = .connected ∨ ∃ text, x.stage = .refused text
  queued : (∃ k, s.Opened s.attempt k) ∧ s.queued = [s.attempt] ∨
    (∀ k, ¬ s.Opened s.attempt k) ∧ s.queued = []
  owners : ∀ k, (s.owners k).Serves (s.Theirs k)
  exited : ∀ status, s.pc = .ended (.exited status) → ∃ k, s.Opened s.attempt k

theorem inv_start : start.Inv where
  unmet _ _ := rfl
  unsent _ _ h := by cases h
  earlier _ _ _ h := by cases h
  queued := .inr ⟨fun k ⟨_, h, _⟩ => (by cases h), rfl⟩
  owners _ := ⟨⟨nofun, nofun⟩, nofun⟩
  exited _ h := by cases h

theorem Inv.atMostOnce (hs : s.Inv) : s.AtMostOnce := by
  rcases hs.queued with ⟨hk, hq⟩ | ⟨hk, hq⟩
  · rw [AtMostOnce, hq]
    exact ⟨Nat.le_refl 1, fun n hn => mem_singleton.1 hn, fun _ _ => rfl⟩
  · rw [AtMostOnce, hq]
    refine ⟨Nat.zero_le 1, nofun, fun status h => ?_⟩
    obtain ⟨k, h⟩ := hs.exited status h
    exact absurd h (hk k)

/-- The attempt has not connected yet. -/
@[simp] def Unmet (pc : RunPc) : Prop := pc ∈ [.starting, .existing, .locking, .awaiting]

/-- It has, and `OpenExec` is still to be sent. -/
@[simp] def Unsent (pc : RunPc) : Prop := (∃ left, pc = .forwarding left) ∨ pc = .keeping ∨ pc = .opening

/-- Only the place in the program changes, to one that promises no more. -/
theorem Inv.goto (hs : s.Inv) {pc : RunPc} {i : ℕ} (hun : Unmet pc → Unmet s.pc)
    (hsend : Unsent pc → Unsent s.pc)
    (hexit : ∀ status, pc = .ended (.exited status) → ∃ k, s.Opened s.attempt k) :
    ({ s with pc := pc, interrupt := i } : ClientRun).Inv :=
  { hs with
    unmet := fun n h => hs.unmet n (h.imp_right fun h => ⟨h.1, hun h.2⟩)
    unsent := fun h => hs.unsent (hsend h)
    exited := hexit }

/-- An attempt is repeated when its connection was never opened and never will be. -/
theorem Inv.finish (hs : s.Inv) {e : RunEnd}
    (hrep : e = .notStarted → ∀ x, s.sessions s.attempt = some x →
      x.stage = .connected ∨ ∃ text, x.stage = .refused text)
    (hexit : ∀ status, e = .exited status → ∃ k, s.Opened s.attempt k) : (s.finish e).Inv := by
  unfold ClientRun.finish
  split_ifs with hnot
  · have hnone : s.sessions (s.attempt + 1) = none := hs.unmet _ (.inl (Nat.lt_succ_self _))
    have hclosed : ∀ k, ¬ s.Opened s.attempt k := by
      rintro k ⟨x, hx, hstage, -⟩
      rcases hrep hnot.1 x hx with h | ⟨text, h⟩ <;> rw [h] at hstage <;> cases hstage
    refine ⟨fun n hn => ?_, fun h => by simp at h, fun n hn x hx => ?_, .inr ⟨?_, ?_⟩, hs.owners, nofun⟩
    · refine hs.unmet n (.inl ?_)
      rcases hn with hn | ⟨rfl, -⟩
      · exact Nat.lt_of_succ_lt hn
      · exact Nat.lt_succ_self _
    · rcases Nat.lt_succ_iff_lt_or_eq.1 hn with hn | rfl
      · exact hs.earlier n hn x hx
      · exact hrep hnot.1 x hx
    · rintro k ⟨x, hx, -⟩
      rw [show s.sessions (s.attempt + 1) = some x from hx] at hnone
      cases hnone
    · exact (hs.queued.resolve_left fun h => hclosed _ h.1.choose_spec).2
  · exact hs.goto (i := s.interrupt) (by simp) (by simp) fun status h => hexit status (by simpa using h)

theorem setSession_self : (s.setSession n x).sessions n = some x := update_self ..

theorem setSession_ne {m : ℕ} (h : m ≠ n) : (s.setSession n x).sessions m = s.sessions m :=
  update_of_ne h ..

/-- A connection that is not opened may change; one that is opened keeps its owner. -/
theorem opened_setSession (hx : ∀ y, s.sessions n = some y → y.stage = .opened →
    x.stage = .opened ∧ x.owner = y.owner) {m : ℕ} (h : s.Opened m k) : (s.setSession n x).Opened m k := by
  obtain ⟨y, hy, hstage, hown⟩ := h
  by_cases hm : m = n
  · subst hm
    exact ⟨x, setSession_self, (hx y hy hstage).1, (hx y hy hstage).2.trans hown⟩
  · exact ⟨y, (setSession_ne hm).trans hy, hstage, hown⟩

/-- The connection of the current attempt changes, but is opened if and only if it was. -/
theorem Inv.setSession (hs : s.Inv) {pc : RunPc} (hpc : ¬ Unmet pc)
    (hexit : ∀ status, pc ≠ .ended (.exited status))
    (hsend : Unsent pc → x.stage = .connected)
    (hx : ∀ y, s.sessions s.attempt = some y → y.stage = .opened → x.stage = .opened ∧ x.owner = y.owner)
    (hnew : x.stage = .opened → s.Opened s.attempt x.owner) :
    ({ s.setSession s.attempt x with pc := pc } : ClientRun).Inv := by
  refine ⟨fun n hn => ?_, fun h y hy => ?_, fun n hn y hy => ?_, ?_, fun k => ?_,
    fun status h => absurd h (hexit status)⟩
  · rcases hn with hn | ⟨-, hn⟩
    · exact (setSession_ne (Nat.ne_of_gt hn)).trans (hs.unmet n (.inl hn))
    · exact absurd hn hpc
  · cases setSession_self.symm.trans hy
    exact hsend h
  · exact hs.earlier n hn y ((setSession_ne (Nat.ne_of_lt hn)).symm.trans hy)
  · rcases hs.queued with ⟨⟨k, hk⟩, hq⟩ | ⟨hk, hq⟩
    · exact .inl ⟨⟨k, opened_setSession hx hk⟩, hq⟩
    · refine .inr ⟨?_, hq⟩
      rintro k ⟨y, hy, hstage, -⟩
      cases setSession_self.symm.trans hy
      exact hk _ (hnew hstage)
  · exact (hs.owners k).mono fun n hn => hn.imp_right (opened_setSession hx)

/-- Where a connection has sent its `OpenExec` and not been answered, it is that of the
    current attempt, and the run is past its opening. -/
theorem Inv.of_sent (hs : s.Inv) (hx : s.sessions n = some x) (hsent : x.stage = .sent) :
    n = s.attempt ∧ (∀ k, ¬ s.Opened n k) ∧ s.queued = [] ∧ ¬ Unmet s.pc ∧ ¬ Unsent s.pc ∧
      ∀ status, s.pc ≠ .ended (.exited status) := by
  obtain rfl : n = s.attempt := by
    rcases Nat.lt_trichotomy n s.attempt with hlt | heq | hgt
    · rcases hs.earlier n hlt x hx with h | ⟨text, h⟩ <;> rw [h] at hsent <;> cases hsent
    · exact heq
    · rw [hs.unmet n (.inl hgt)] at hx
      cases hx
  have hfree : ∀ k, ¬ s.Opened s.attempt k := by
    rintro k ⟨y, hy, hstage, -⟩
    cases hx.symm.trans hy
    rw [hsent] at hstage
    cases hstage
  refine ⟨rfl, hfree, ?_, fun h => ?_, fun h => ?_, fun status h => ?_⟩
  · exact (hs.queued.resolve_left fun h => hfree _ h.1.choose_spec).2
  · rw [hs.unmet s.attempt (.inr ⟨rfl, h⟩)] at hx
    cases hx
  · have := hs.unsent h x hx
    rw [hsent] at this
    cases this
  · exact hfree _ (hs.exited status h).choose_spec

theorem admitted_eq_opened (c : ChannelId) (r : Except String ChannelAdmission) :
    SessionStage.admitted c r = .opened ↔ r = .ok .opened := by
  rcases r with _ | _ | _ | _ <;> simp

/-- The handler of a connection decides. -/
theorem Inv.handle (hs : s.Inv) (hx : s.sessions n = some x) (hsent : x.stage = .sent)
    (prepare dispatch : Except String Unit) : (s.handle n x prepare dispatch).Inv := by
  obtain ⟨rfl, hfree, hnil, hmet, hpc, hexit⟩ := hs.of_sent hx hsent
  have hcases := (s.owners x.owner).broker.openChannel_cases x.channelId ⟨s.attempt, true⟩
    (.openExec x.channelId) prepare dispatch
  have hserves : ∀ P : ℕ → Prop, (s.owners x.owner).broker.Serves P → P s.attempt →
      ((s.owners x.owner).broker.openChannel x.channelId ⟨s.attempt, true⟩ (.openExec x.channelId)
        prepare dispatch).1.Serves P :=
    fun P hb hP => hb.openChannel hP x.channelId _ prepare dispatch
  unfold handle
  dsimp only
  generalize (s.owners x.owner).broker.openChannel x.channelId ⟨s.attempt, true⟩
    (.openExec x.channelId) prepare dispatch = r at hcases hserves
  set y : Session := { x with stage := .admitted x.channelId r.2 }
  have hmono : ∀ {m k : ℕ}, s.Opened m k → (s.setSession s.attempt y).Opened m k := by
    intro m k h
    exact opened_setSession (fun z hz hstage => absurd ⟨z, hz, hstage, rfl⟩ (hfree z.owner)) h
  refine ⟨fun m hm => ?_, fun h => absurd h hpc, fun m hm z hz => ?_, ?_, ?_,
    fun status h => absurd h (hexit status)⟩
  · rcases hm with hm | ⟨-, hm⟩
    · exact (setSession_ne (Nat.ne_of_gt hm)).trans (hs.unmet m (.inl hm))
    · exact absurd hm hmet
  · exact hs.earlier m hm z ((setSession_ne (Nat.ne_of_lt hm)).symm.trans hz)
  · rcases hcases with ⟨-, hlog, -, -, -, -, hres⟩ | ⟨-, -, -, hlog, -, -, -, hres⟩
    · refine .inr ⟨?_, by simp [hlog, hnil]⟩
      rintro k ⟨z, hz, hstage, -⟩
      cases setSession_self.symm.trans hz
      exact hres ((admitted_eq_opened _ _).1 hstage)
    · refine .inl ⟨⟨x.owner, y, setSession_self, (admitted_eq_opened _ _).2 hres, rfl⟩, ?_⟩
      show s.queued ++ _ = [s.attempt]
      simp [hlog, hnil]
  · refine forall_update (P := fun k o => VmOwner.Serves ((s.setSession s.attempt y).Theirs k) o)
      (fun k _ => (hs.owners k).mono fun m hm => hm.imp_right hmono) ?_
    have hserve := (hs.owners x.owner).mono (Q := (s.setSession s.attempt y).Theirs x.owner)
      fun m hm => hm.imp_right hmono
    refine ⟨?_, hserve.delivering⟩
    rcases hcases with ⟨hch, -, -, -, htell, -⟩ | ⟨-, -, -, -, -, -, -, hres⟩
    · exact hserve.broker.of_eq hch htell
    · exact hserves _ hserve.broker (.inr ⟨y, setSession_self, (admitted_eq_opened _ _).2 hres, rfl⟩)

/-- What the client reads says whether its channel was opened. -/
theorem Inv.relayed (hs : s.Inv) (hx : s.sessions s.attempt = some x) {m : Message}
    (hm : x.next s.attempt (s.owners x.owner) = some m) {e : RunEnd}
    (he : m.relayed x.channelId = some e) : (s.finish e).Inv := by
  unfold Session.next at hm
  split at hm
  · -- refused
    next text hstage =>
    cases hm
    have he : ofError text = e := by simpa [Message.relayed] using he
    refine hs.finish (fun _ y hy => ?_) (fun status h => ?_)
    · cases hx.symm.trans hy
      exact .inr ⟨text, hstage⟩
    · rw [h, ofError] at he
      split_ifs at he
  · -- opened: the message has come from the owner
    next hstage =>
    have hopen : s.Opened s.attempt x.owner := ⟨x, hx, hstage, rfl⟩
    refine hs.finish (fun h => ?_) (fun status _ => ⟨_, hopen⟩)
    obtain ⟨⟨client, m'⟩, hget, rfl⟩ := map_eq_some_iff.1 hm
    have hmem := (mem_filter.1 (mem_of_getElem? hget)).1
    have hstarts := ((hs.owners x.owner).broker.toClients _ hmem).2
    unfold Message.relayed at he
    split at he
    · split_ifs at he
      cases he
      cases h
    · next id text hmsg =>
      split_ifs at he with hid
      cases he
      have htext : text = ownerStoppingNotStarted := by
        by_contra hne
        rw [ofError, if_neg hne] at h
        cases h
      exact absurd (hmsg.trans (by rw [htext])) (hstarts id)
    · cases he
  · cases hm

theorem of_connect (h : s.step config (.connect k) = some s') :
    Unmet s.pc ∧ ∃ forwards, s' = s.meet k forwards := by
  simp only [step] at h
  split at h
  · next hpc =>
    cases h
    exact ⟨by simp [hpc], _, rfl⟩
  · next hpc =>
    split_ifs at h
    cases h
    exact ⟨by simp [hpc], _, rfl⟩
  · next hpc =>
    cases h
    exact ⟨by simp [hpc], _, rfl⟩
  · cases h

theorem Inv.step (hs : s.Inv) (h : s.step config a = some s') : s'.Inv := by
  -- an attempt that ends before it has sent `OpenExec`
  have hearly : Unsent s.pc → ∀ text, (s.finish (.ofError text)).Inv := by
    intro hpc text
    refine hs.finish (fun _ x hx => .inl (hs.unsent hpc x hx)) fun status h => ?_
    rw [ofError] at h
    split_ifs at h
  cases a with
  | signal n =>
    cases h
    exact hs.goto id id (hs.exited ·)
  | fail text =>
    simp only [step] at h
    split at h
    · cases h
    · cases h
      exact hs.finish nofun nofun
  | begin =>
    obtain ⟨hpc, rfl⟩ := of_guard h
    cases config.reuseOwner <;> exact hs.goto (fun _ => by simp [hpc]) (by simp) nofun
  | connect k =>
    obtain ⟨hpc, forwards, rfl⟩ := of_connect h
    refine hs.setSession (by simp) (by simp) (fun _ => rfl) (fun y hy => ?_) nofun
    rw [hs.unmet s.attempt (.inr ⟨rfl, hpc⟩)] at hy
    cases hy
  | noBroker | lock =>
    obtain ⟨hpc, rfl⟩ := of_guard h
    exact hs.goto (fun _ => by simp [hpc]) (by simp) nofun
  | interrupted | timeOut =>
    obtain ⟨-, rfl⟩ := of_guard h
    exact hs.finish nofun nofun
  | forward k outcome =>
    simp only [step] at h
    split at h
    · next left hpc =>
      split_ifs at h
      · cases h
        exact hearly (.inl ⟨_, hpc⟩) _
      · split at h
        · cases h
          exact hs.goto (by simp) (fun _ => .inl ⟨_, hpc⟩) nofun
        · cases h
          exact hearly (.inl ⟨_, hpc⟩) _
    · cases h
  | session =>
    obtain ⟨hpc, rfl⟩ := of_guard h
    cases config.keepRunning <;> exact hs.goto (by simp) (fun _ => .inl ⟨_, hpc⟩) nofun
  | keep k =>
    simp only [step] at h
    split_ifs at h with hpc
    · cases h
      exact hearly (.inr (.inl hpc)) _
    · cases h
      exact hs.goto (by simp) (fun _ => .inr (.inl hpc)) nofun
  | openExec c =>
    simp only [step] at h
    split at h
    · next x hpc hx =>
      cases h
      have hconn := hs.unsent (.inr (.inr hpc)) x hx
      refine hs.setSession (by simp) (by simp) (by simp) (fun y hy hstage => ?_) nofun
      cases hx.symm.trans hy
      rw [hconn] at hstage
      cases hstage
    · cases h
  | receive =>
    simp only [step] at h
    split at h
    · next x hpc hx =>
      split at h
      · next m hm =>
        split at h
        · next e he =>
          cases h
          exact hs.relayed hx hm he
        · cases h
          show ({ s.setSession s.attempt { x with read := x.read + 1 } with pc := s.pc } : ClientRun).Inv
          refine hs.setSession (by simp [hpc]) (by simp [hpc]) (by simp [hpc]) (fun y hy hstage => ?_)
            fun hstage => ⟨x, hx, hstage, rfl⟩
          cases hx.symm.trans hy
          exact ⟨hstage, rfl⟩
      · cases h
    · cases h
  | handle n prepare dispatch =>
    simp only [step] at h
    split at h
    · next x hx =>
      split_ifs at h with hsent
      cases h
      exact hs.handle hx hsent prepare dispatch
    · cases h
  | owner k x =>
    obtain ⟨o, ho, rfl⟩ := map_eq_some_iff.1 h
    refine { hs with owners := ?_ }
    exact forall_update (P := fun k o => VmOwner.Serves (s.Theirs k) o) (fun j _ => hs.owners j)
      ((hs.owners k).step (fun _ => .inl) ho)

/-- The attempt has sent its `OpenExec`. -/
def Sent (s : ClientRun) (n : ℕ) : Prop := ∃ x, s.sessions n = some x ∧ x.stage ≠ .connected

theorem Sent.finish (h : s.Sent n) (e : RunEnd) : (s.finish e).Sent n := by
  unfold ClientRun.finish
  split_ifs <;> exact h

theorem Sent.setSession (h : s.Sent n) {m : ℕ} (hx : m = n → x.stage ≠ .connected) :
    (s.setSession m x).Sent n := by
  obtain ⟨y, hy, hstage⟩ := h
  by_cases hm : n = m
  · subst hm
    exact ⟨x, setSession_self, hx rfl⟩
  · exact ⟨y, (setSession_ne hm).trans hy, hstage⟩

theorem Inv.le_of_sent (hs : s.Inv) (h : s.Sent n) : n ≤ s.attempt := by
  by_contra hlt
  obtain ⟨x, hx, -⟩ := h
  rw [hs.unmet n (.inl (Nat.lt_of_not_le hlt))] at hx
  cases hx

theorem Inv.eq_of_opened (hs : s.Inv) (h : s.Opened n k) : n = s.attempt := by
  obtain ⟨x, hx, hstage, -⟩ := h
  refine Nat.le_antisymm (hs.le_of_sent ⟨x, hx, by simp [hstage]⟩) (Nat.le_of_not_lt fun hlt => ?_)
  rcases hs.earlier n hlt x hx with h | ⟨text, h⟩ <;> rw [h] at hstage <;> cases hstage

theorem Inv.sent_openExec (hs : s.Inv) {c : ChannelId} (h : s.step config (.openExec c) = some s') :
    ¬ s.Sent s.attempt ∧ s'.Sent s.attempt := by
  simp only [ClientRun.step] at h
  split at h
  · next x hpc hx =>
    cases h
    refine ⟨?_, _, update_self .., by simp⟩
    rintro ⟨y, hy, hstage⟩
    exact hstage (hs.unsent (.inr (.inr hpc)) y hy)
  · cases h

/-- What has been sent stays sent. -/
theorem Sent.step (hs : s.Inv) (h : s.step config a = some s') (hn : s.Sent n) : s'.Sent n := by
  cases a with
  | signal n =>
    cases h
    exact hn
  | fail text =>
    simp only [step] at h
    split at h <;> cases h
    exact hn.finish _
  | connect k =>
    obtain ⟨hpc, forwards, rfl⟩ := of_connect h
    refine hn.setSession fun hatt => ?_
    obtain ⟨x, hx, -⟩ := hn
    rw [← hatt, hs.unmet s.attempt (.inr ⟨rfl, hpc⟩)] at hx
    cases hx
  | begin | noBroker | lock | session =>
    obtain ⟨-, rfl⟩ := of_guard h
    exact hn
  | interrupted | timeOut =>
    obtain ⟨-, rfl⟩ := of_guard h
    exact hn.finish _
  | forward k outcome =>
    simp only [step] at h
    split at h
    · split_ifs at h
      · cases h
        exact hn.finish _
      · split at h <;> cases h
        · exact hn
        · exact hn.finish _
    · cases h
  | keep k =>
    simp only [step] at h
    split_ifs at h <;> cases h
    · exact hn.finish _
    · exact hn
  | openExec c =>
    simp only [step] at h
    split at h <;> cases h
    exact hn.setSession fun _ => by simp
  | receive =>
    simp only [step] at h
    split at h
    · next x hpc hx =>
      split at h
      · split at h <;> cases h
        · exact hn.finish _
        · refine hn.setSession fun hatt => ?_
          obtain ⟨y, hy, hstage⟩ := hn
          rw [hatt] at hx
          cases hx.symm.trans hy
          exact hstage
      · cases h
    · cases h
  | handle m prepare dispatch =>
    simp only [step] at h
    split at h
    · next x hx =>
      split_ifs at h
      cases h
      refine hn.setSession fun _ => ?_
      generalize ((s.owners x.owner).broker.openChannel _ _ _ prepare dispatch).2 = r
      rcases r with _ | _ | _ | _ <;> simp
    · cases h
  | owner k x =>
    obtain ⟨o, ho, rfl⟩ := map_eq_some_iff.1 h
    exact hn

end ClientRun

/-- For every configuration and every interleaving of a run with the owners it meets:
    across all its attempts, at most one `OpenExec` is ever put on the queue of a guest
    agent; those of earlier attempts, which were repeated, are not; and when the run ends
    with the exit status of the command, one has been queued. -/
theorem run_at_most_once (config : RunConfig) (as : List RunAct) :
    Along (ClientRun.step config) ClientRun.AtMostOnce ClientRun.start as := by
  have hall : Avoids (step config) (fun _ _ => False) ClientRun.start as :=
    avoids_of_forall (fun _ _ _ h => h) _
  exact (along_of_avoids (fun _ _ _ hs _ h => hs.step h) ClientRun.inv_start hall).mono
    fun _ hs => hs.atMostOnce

/-- A client that is interrupted while it waits for the owner it has started returns 130,
    and its command has not been queued. -/
theorem run_status_without_command :
    ([.begin, .noBroker, .lock, .signal 2, .interrupted].foldlM (ClientRun.step ⟨true, 0, false, false⟩)
        ClientRun.start).map (fun s => (s.pc, s.queued)) = some (.ended (.interrupted 2), []) ∧
      (RunEnd.interrupted 2).result = .ok 130 :=
  ⟨rfl, rfl⟩

end Lnx
