import Mathlib.Data.Nat.Notation
import Mathlib.Logic.Function.Basic
import Lnx.Lib.Machine
import Lnx.Protocol.Frame

/-!
# What the host gets of a command in pipe mode

The thread of a channel in pipe mode (`run_channel_pipe`, `guest-agent/src/main.rs` lines
2562–2699) sends `ExecStarted`, drains the command's stdout and stderr
(`drain_output_message`, lines 2244–2284), asks `waitpid` whether the command has
exited, and leaves its loop once it has and both streams are at their end. It then sends
the `ExitStatus` and a `Close` (`send_status`).

The command's processes write, close their ends and exit whenever they like; a `poll` may
report any readiness; a read may return any part of what is there, would block only while
somebody holds the other end, and may be interrupted. How much of the command's stdin the
pipe holds is left open: a write to it may take any time while a process holds the
other end.

* `Channel.step`: the steps of the command, of the host's messages and of the thread.
* `Channel.Sound`: what holds in every run: the bytes sent and those still in the pipe
  are the bytes written, and the messages come in their order.
* `Channel.right_iff`: the status is the command's unless a `Close` is taken from the queue
  after `waitpid` has reported the exit: `status = 130 << 8` is then not overwritten.
* `output_complete_iff`: a finished run has sent everything, with the command's status, if
  and only if no such `Close` was taken, and a run whose command is over finishes.
-/

namespace Lnx

open Option List Function

/-! ## The command -/

inductive OutFd
  | stdout
  | stderr
  deriving DecidableEq

open OutFd

namespace OutFd

/-- The message with bytes read from a stream. -/
def message (c : ChannelId) : OutFd → List UInt8 → ProtocolMessage
  | stdout, bytes => .data c bytes
  | stderr, bytes => .stderr c bytes

/-- The bytes of a stream in a message. -/
@[simp] def bytesOf : OutFd → ProtocolMessage → List UInt8
  | stdout, .data _ bytes => bytes
  | stderr, .stderr _ bytes => bytes
  | _, _ => []

/-- The bytes of a stream in a sequence of messages. -/
def payload (fd : OutFd) (ms : List ProtocolMessage) : List UInt8 :=
  ms.flatMap fd.bytesOf

end OutFd

/-- A pipe from the command to the agent. -/
structure OutPipe where
  /-- all that was ever written to it -/
  written : List UInt8
  /-- what the agent has not read yet -/
  unread : List UInt8
  /-- whether a process holds the end that is written to -/
  held : Bool

/-- How a process ends. -/
inductive Ending
  | exited (code : ℕ) (lt : code < 256)
  | signaled (sig : ℕ) (pos : 0 < sig) (le : sig ≤ 64) (core : Bool)

namespace Ending

def ofCode (code : UInt8) : Ending := exited code.toNat code.toNat_lt

/-- The word `waitpid` stores. -/
def word : Ending → Int32
  | exited code _ => Int32.ofNat (code * 256)
  | signaled sig _ _ core => Int32.ofNat (if core then sig + 128 else sig)

/-- The exit code, or 128 plus the signal. -/
def status : Ending → Int32
  | exited code _ => Int32.ofNat code
  | signaled sig _ _ _ => Int32.ofNat (128 + sig)

end Ending

/-- `exit_status` -/
def exitStatusOf (status : Int32) : Int32 :=
  if status &&& 0x7f = 0 then (status >>> 8) &&& 0xff else 128 + (status &&& 0x7f)

theorem exitStatusOf_word (e : Ending) : exitStatusOf e.word = e.status := by
  have hcode : ∀ code < 256,
      exitStatusOf (Int32.ofNat (code * 256)) = Int32.ofNat code := by decide +kernel
  have hsig : ∀ sig < 65, 0 < sig → ∀ core : Bool,
      exitStatusOf (Int32.ofNat (if core then sig + 128 else sig)) = Int32.ofNat (128 + sig) := by
    decide +kernel
  cases e with
  | exited code lt => exact hcode code lt
  | signaled sig pos le core => exact hsig sig (by omega) pos core

/-! ## The channel's thread -/

/-- A request on the channel's control socket. -/
inductive ControlRequest
  | snapshotExit
  | openUrl (url : String)
  deriving DecidableEq

/-- Where the thread is. -/
inductive OutputPc
  | poll
  /-- draining the streams the `poll` found ready, with a control request to handle after it -/
  | drains (todo : List OutFd) (control : Option ControlRequest)
  /-- at `rx.try_recv()` -/
  | recv
  /-- in the `write_all` to the command's stdin -/
  | writing
  /-- at `eof_requested.swap(false)` -/
  | swap
  /-- at `waitpid` -/
  | wait
  /-- draining after the command has exited -/
  | finals (todo : List OutFd)
  /-- at the test that leaves the loop -/
  | check
  /-- at the sending of `ExitStatus` -/
  | status
  /-- at the sending of `Close` -/
  | close
  | done
  deriving DecidableEq

namespace OutputPc

/-- The stream being drained, and where the thread goes when that returns. -/
def draining : OutputPc → Option (OutFd × OutputPc)
  | drains (fd :: todo) control => some (fd, drains todo control)
  | finals (fd :: todo) => some (fd, finals todo)
  | _ => none

/-- Whether the thread has left its loop. -/
def left : OutputPc → Bool
  | status | close | done => true
  | _ => false

end OutputPc

/-- A channel in pipe mode: the command's side, what comes from the host, and the thread. -/
structure Channel where
  out : OutFd → OutPipe
  /-- whether a process holds the reading end of the command's stdin -/
  stdinHeld : Bool
  ended : Option Ending
  /-- what the host still sends -/
  incoming : List ChannelInput
  queue : List ChannelInput
  eofRequested : Bool
  pc : OutputPc
  stdinWrite : Bool
  pendingControl : Bool
  status : Int32
  childExited : Bool
  eof : OutFd → Bool
  /-- what has been sent to the host -/
  sent : List ProtocolMessage

inductive OutputAct
  /-- a process of the command writes -/
  | write (fd : OutFd) (bytes : List UInt8)
  /-- the last process that could write to a stream closes it -/
  | shut (fd : OutFd)
  /-- the last process that could read the command's stdin closes it -/
  | shutStdin
  | exit (e : Ending)
  /-- the main loop passes the host's next message on -/
  | arrive
  /-- the `poll` returns: which streams are ready, and a request on the control socket -/
  | poll (out err : Bool) (control : Option ControlRequest)
  /-- a `read` returns `n` bytes -/
  | read (n : ℕ)
  /-- the `poll` of `poll_output` finds nothing, or the `read` fails with `EAGAIN` -/
  | wouldBlock
  /-- one of the two fails with `EINTR` -/
  | retry
  /-- a `read` returns 0 -/
  | hangup
  /-- the `write_all` to the command's stdin returns -/
  | wrote (ok : Bool)
  /-- the thread does what comes next -/
  | go

/-- Whether an action is the thread's own. -/
def OutputAct.isGo : OutputAct → Bool
  | .go => true
  | _ => false

namespace Channel

/-- `handle_channel_control`, if there is a request and none is pending. -/
def handleControl (c : ChannelId) (s : Channel) (control : Option ControlRequest) : Channel :=
  if s.pendingControl then { s with pc := .recv }
  else match control with
    | none => { s with pc := .recv }
    | some .snapshotExit =>
      { s with pendingControl := true, sent := s.sent ++ [.snapshotExit c], pc := .recv }
    | some (.openUrl url) =>
      { s with pendingControl := true, sent := s.sent ++ [.openUrl c url], pc := .recv }

/-- One round of the `rx.try_recv()` loop. -/
def recv (s : Channel) : Channel :=
  match s.queue with
  | [] => { s with pc := .swap }
  | .data _ :: q =>
    if s.stdinWrite then { s with queue := q, pc := .writing } else { s with queue := q }
  | .eof :: q => { s with queue := q, stdinWrite := false }
  | .close :: q => { s with queue := q, status := Int32.ofNat (130 * 256), pc := .swap }
  | .snapshotComplete :: q => { s with queue := q, pendingControl := false }
  | .openUrlComplete :: q => { s with queue := q, pendingControl := false }
  | .snapshotFailed :: q => { s with queue := q, pendingControl := false }
  | .openUrlFailed :: q => { s with queue := q, pendingControl := false }
  | .resize _ _ :: q => { s with queue := q }

/-- `waitpid` with `WNOHANG`, and the branch for an exited child. -/
def waitChild (s : Channel) : Channel :=
  if s.childExited then { s with stdinWrite := false, pc := .finals [.stdout, .stderr] }
  else match s.ended with
    | some e =>
      { s with
        status := e.word
        childExited := true
        stdinWrite := false
        pc := .finals [.stdout, .stderr] }
    | none => { s with pc := .check }

/-- The thread's next step where it depends on nothing outside. -/
def goStep (c : ChannelId) (s : Channel) : Option Channel :=
  match s.pc with
  | .drains [] control => some (s.handleControl c control)
  | .recv => some s.recv
  | .swap =>
    some { s with
      eofRequested := false
      stdinWrite := s.stdinWrite && !s.eofRequested
      pc := .wait }
  | .wait => some s.waitChild
  | .finals [] => some { s with pc := .check }
  | .check =>
    if s.childExited && s.eof .stdout && s.eof .stderr then some { s with pc := .status }
    else some { s with pc := .poll }
  | .status =>
    some { s with sent := s.sent ++ [.exitStatus c (exitStatusOf s.status)], pc := .close }
  | .close => some { s with sent := s.sent ++ [.close c], pc := .done }
  | _ => none

@[simp] def setOut (s : Channel) (fd : OutFd) (p : OutPipe) : Channel :=
  { s with out := update s.out fd p }

def step (c : ChannelId) (s : Channel) : OutputAct → Option Channel
  | .write fd bytes =>
    if (s.out fd).held then
      some (s.setOut fd ⟨(s.out fd).written ++ bytes, (s.out fd).unread ++ bytes, true⟩)
    else none
  | .shut fd =>
    if (s.out fd).held then some (s.setOut fd ⟨(s.out fd).written, (s.out fd).unread, false⟩)
    else none
  | .shutStdin => if s.stdinHeld then some { s with stdinHeld := false } else none
  | .exit e => if s.ended.isNone then some { s with ended := some e } else none
  | .arrive =>
    match s.incoming with
    | [] => none
    | i :: rest =>
      some { s with
        incoming := rest
        queue := s.queue ++ [i]
        -- the flag is stored before the message is queued; only stdin depends on it
        eofRequested := s.eofRequested || i == .eof }
  | .poll out err control =>
    if s.pc = .poll then
      -- `poll` skips the descriptor of a stream at its end
      let todo := (if out && !s.eof .stdout then [.stdout] else []) ++
        (if err && !s.eof .stderr then [.stderr] else [])
      some { s with pc := .drains todo control }
    else none
  | .read n =>
    match s.pc.draining with
    | some (fd, _) =>
      if 0 < n ∧ n ≤ 8192 ∧ n ≤ (s.out fd).unread.length then
        some { s.setOut fd ⟨(s.out fd).written, (s.out fd).unread.drop n, (s.out fd).held⟩ with
          sent := s.sent ++ [fd.message c ((s.out fd).unread.take n)] }
      else none
    | none => none
  | .wouldBlock =>
    match s.pc.draining with
    | some (fd, next) => if (s.out fd).held then some { s with pc := next } else none
    | none => none
  | .retry =>
    match s.pc.draining with
    | some _ => some s
    | none => none
  | .hangup =>
    match s.pc.draining with
    | some (fd, next) =>
      if (s.out fd).unread = [] ∧ (s.out fd).held = false then
        some { s with eof := update s.eof fd true, pc := next }
      else none
    | none => none
  | .wrote ok =>
    -- without a reader the write fails, and the thread closes its end
    if s.pc = .writing ∧ (ok = true → s.stdinHeld = true) then
      some { s with stdinWrite := ok, pc := .recv }
    else none
  | .go => s.goStep c

/-- The command has been started and the host told so. -/
def start (c : ChannelId) (incoming : List ChannelInput) : Channel where
  out := fun _ => ⟨[], [], true⟩
  stdinHeld := true
  ended := none
  incoming := incoming
  queue := []
  eofRequested := false
  pc := .poll
  stdinWrite := true
  pendingControl := false
  status := 0
  childExited := false
  eof := fun _ => false
  sent := [.execStarted c]

/-! ## What is to hold -/

/-- The messages that may come between `ExecStarted` and `ExitStatus`. -/
def Between (c : ChannelId) (m : ProtocolMessage) : Prop :=
  (∃ fd bytes, m = OutFd.message c fd bytes) ∨ m = .snapshotExit c ∨ ∃ url, m = .openUrl c url

/-- What the thread has sent after its loop. -/
def tail (c : ChannelId) (s : Channel) : List ProtocolMessage :=
  match s.pc with
  | .close => [.exitStatus c (exitStatusOf s.status)]
  | .done => [.exitStatus c (exitStatusOf s.status), .close c]
  | _ => []

/-- In every run: one `ExecStarted`, the bytes of the two streams in order, and at the end
    an `ExitStatus` and a `Close`, once the streams are at their end. -/
structure Sound (c : ChannelId) (s : Channel) : Prop where
  streams : ∀ fd : OutFd, fd.payload s.sent ++ (s.out fd).unread = (s.out fd).written
  ateof : ∀ fd, s.eof fd = true → (s.out fd).unread = [] ∧ (s.out fd).held = false
  exited : s.childExited = true → s.ended.isSome = true
  draining : ∀ todo, s.pc = .finals todo → s.childExited = true
  left : s.pc.left = true → s.childExited = true ∧ ∀ fd, s.eof fd = true
  shape : ∃ body, (∀ m ∈ body, Between c m) ∧ s.sent = .execStarted c :: body ++ s.tail c

/-- The thread's status is the command's, once `waitpid` has reported the exit. -/
def Right (s : Channel) : Prop :=
  s.childExited = true → ∀ e ∈ s.ended, exitStatusOf s.status = e.status

/-- The thread takes a `Close` from its queue. -/
def TakesClose (s : Channel) (a : OutputAct) : Prop :=
  a.isGo = true ∧ s.pc = .recv ∧ s.queue.head? = some .close

/-- It does so after the exit was reported, with a status other than 130. -/
def LateClose (s : Channel) (a : OutputAct) : Prop :=
  TakesClose s a ∧ s.childExited = true ∧ s.ended.any (fun e => e.status != 130) = true

instance (s : Channel) (a : OutputAct) : Decidable (LateClose s a) :=
  inferInstanceAs (Decidable ((a.isGo = true ∧ s.pc = .recv ∧ s.queue.head? = some .close) ∧
    s.childExited = true ∧ s.ended.any (fun e => e.status != 130) = true))

/-- All has been sent: `ExecStarted`, everything written to the two streams, the command's
    status and `Close`. -/
def Complete (c : ChannelId) (s : Channel) : Prop :=
  ∃ body e, (∀ m ∈ body, Between c m) ∧ s.ended = some e ∧
    s.sent = .execStarted c :: body ++ [.exitStatus c e.status, .close c] ∧
    ∀ fd : OutFd, fd.payload body = (s.out fd).written ∧ (s.out fd).held = false

/-- The command is over: it has exited, and no process holds one of its pipes. -/
structure Over (s : Channel) : Prop where
  ended : s.ended.isSome = true
  out : ∀ fd, (s.out fd).held = false
  stdin : s.stdinHeld = false

/-! ## Steps -/

variable {c : ChannelId} {s s' : Channel} {a : OutputAct}

theorem payload_append (fd : OutFd) (ms ns : List ProtocolMessage) :
    fd.payload (ms ++ ns) = fd.payload ms ++ fd.payload ns :=
  flatMap_append

/-- A message carries the bytes of its own stream only. -/
theorem payload_message (fd fd' : OutFd) (bytes : List UInt8) :
    fd'.payload [fd.message c bytes] = if fd' = fd then bytes else [] := by
  cases fd <;> cases fd' <;> simp [payload, message]

variable {next pc : OutputPc} {fd : OutFd}

theorem draining_left (h : pc.draining = some (fd, next)) :
    pc.left = false ∧ next.left = false := by
  unfold OutputPc.draining at h
  split at h
  · cases h
    exact ⟨rfl, rfl⟩
  · cases h
    exact ⟨rfl, rfl⟩
  · cases h

theorem draining_finals {todo : List OutFd} (h : pc.draining = some (fd, .finals todo)) :
    pc = .finals (fd :: todo) := by
  unfold OutputPc.draining at h
  split at h
  · cases h
  · cases h
    rfl
  · cases h

theorem tail_of_not_left (h : s.pc.left = false) : s.tail c = [] := by
  unfold tail
  split
  · next hpc =>
    rw [hpc] at h
    cases h
  · next hpc =>
    rw [hpc] at h
    cases h
  · rfl

/-- What one step can do, action by action. -/
inductive Effect (c : ChannelId) (s : Channel) : OutputAct → Channel → Prop
  | write {fd : OutFd} {bytes : List UInt8} (held : (s.out fd).held = true) :
      Effect c s (.write fd bytes)
        (s.setOut fd ⟨(s.out fd).written ++ bytes, (s.out fd).unread ++ bytes, true⟩)
  | shut {fd : OutFd} (held : (s.out fd).held = true) :
      Effect c s (.shut fd) (s.setOut fd ⟨(s.out fd).written, (s.out fd).unread, false⟩)
  | shutStdin (held : s.stdinHeld = true) : Effect c s .shutStdin { s with stdinHeld := false }
  | exit {e : Ending} (none : s.ended = none) : Effect c s (.exit e) { s with ended := some e }
  | arrive {i : ChannelInput} {rest : List ChannelInput} (incoming : s.incoming = i :: rest) :
      Effect c s .arrive { s with
        incoming := rest
        queue := s.queue ++ [i]
        eofRequested := s.eofRequested || i == .eof }
  | poll {out err : Bool} {control : Option ControlRequest} {todo : List OutFd}
      (pc : s.pc = .poll) (short : todo.length ≤ 2) :
      Effect c s (.poll out err control) { s with pc := .drains todo control }
  | read {n : ℕ} {fd : OutFd} {next : OutputPc} (pc : s.pc.draining = some (fd, next))
      (pos : 0 < n) (le : n ≤ (s.out fd).unread.length) :
      Effect c s (.read n)
        { s.setOut fd ⟨(s.out fd).written, (s.out fd).unread.drop n, (s.out fd).held⟩ with
          sent := s.sent ++ [fd.message c ((s.out fd).unread.take n)] }
  | wouldBlock {fd : OutFd} {next : OutputPc} (pc : s.pc.draining = some (fd, next))
      (held : (s.out fd).held = true) : Effect c s .wouldBlock { s with pc := next }
  | retry : Effect c s .retry s
  | hangup {fd : OutFd} {next : OutputPc} (pc : s.pc.draining = some (fd, next))
      (atEnd : (s.out fd).unread = [] ∧ (s.out fd).held = false) :
      Effect c s .hangup { s with eof := update s.eof fd true, pc := next }
  | wrote {ok : Bool} (pc : s.pc = .writing) :
      Effect c s (.wrote ok) { s with stdinWrite := ok, pc := .recv }
  | control {r : Option ControlRequest} (pc : s.pc = .drains [] r) :
      Effect c s .go (s.handleControl c r)
  | recv (pc : s.pc = .recv) : Effect c s .go s.recv
  | swap (pc : s.pc = .swap) :
      Effect c s .go { s with
        eofRequested := false
        stdinWrite := s.stdinWrite && !s.eofRequested
        pc := .wait }
  | wait (pc : s.pc = .wait) : Effect c s .go s.waitChild
  | drained (pc : s.pc = .finals []) : Effect c s .go { s with pc := .check }
  | leave (pc : s.pc = .check) (exited : s.childExited = true) (eof : ∀ fd, s.eof fd = true) :
      Effect c s .go { s with pc := .status }
  | again (pc : s.pc = .check) (more : ¬ (s.childExited = true ∧ ∀ fd, s.eof fd = true)) :
      Effect c s .go { s with pc := .poll }
  | status (pc : s.pc = .status) :
      Effect c s .go
        { s with sent := s.sent ++ [.exitStatus c (exitStatusOf s.status)], pc := .close }
  | close (pc : s.pc = .close) :
      Effect c s .go { s with sent := s.sent ++ [.close c], pc := .done }

theorem forall_fd {P : OutFd → Prop} : (∀ fd, P fd) ↔ P .stdout ∧ P .stderr := by
  constructor
  · intro h
    exact ⟨h _, h _⟩
  · rintro ⟨h₁, h₂⟩ fd
    cases fd
    · exact h₁
    · exact h₂

theorem effect_of_goStep (h : s.goStep c = some s') : Effect c s .go s' := by
  unfold goStep at h
  split at h
  · next hpc =>
    cases h
    exact .control hpc
  · next hpc =>
    cases h
    exact .recv hpc
  · next hpc =>
    cases h
    exact .swap hpc
  · next hpc =>
    cases h
    exact .wait hpc
  · next hpc =>
    cases h
    exact .drained hpc
  · next hpc =>
    split at h
    · next hready =>
      cases h
      simp only [Bool.and_eq_true] at hready
      exact .leave hpc hready.1.1 (forall_fd.2 ⟨hready.1.2, hready.2⟩)
    · next hready =>
      cases h
      refine .again hpc ?_
      rintro ⟨hexited, heof⟩
      simp [hexited, heof] at hready
  · next hpc =>
    cases h
    exact .status hpc
  · next hpc =>
    cases h
    exact .close hpc
  · cases h

theorem effect_of_step (h : s.step c a = some s') : Effect c s a s' := by
  cases a with
  | write fd bytes =>
    obtain ⟨held, rfl⟩ := of_guard h
    exact .write held
  | shut fd =>
    obtain ⟨held, rfl⟩ := of_guard h
    exact .shut held
  | shutStdin =>
    obtain ⟨held, rfl⟩ := of_guard h
    exact .shutStdin held
  | exit e =>
    obtain ⟨hnone, rfl⟩ := of_guard h
    exact .exit (isNone_iff_eq_none.1 hnone)
  | arrive =>
    simp only [step] at h
    split at h
    · cases h
    · next hi =>
      cases h
      exact .arrive hi
  | poll out err control =>
    obtain ⟨hpc, rfl⟩ := of_guard h
    refine .poll hpc ?_
    split <;> split <;> decide
  | read n =>
    simp only [step] at h
    split at h
    · next hd =>
      obtain ⟨⟨pos, -, le⟩, rfl⟩ := of_guard h
      exact .read hd pos le
    · cases h
  | wouldBlock =>
    simp only [step] at h
    split at h
    · next hd =>
      obtain ⟨held, rfl⟩ := of_guard h
      exact .wouldBlock hd held
    · cases h
  | retry =>
    simp only [step] at h
    split at h
    · cases h
      exact .retry
    · cases h
  | hangup =>
    simp only [step] at h
    split at h
    · next hd =>
      obtain ⟨atEnd, rfl⟩ := of_guard h
      exact .hangup hd atEnd
    · cases h
  | wrote ok =>
    obtain ⟨⟨hpc, -⟩, rfl⟩ := of_guard h
    exact .wrote hpc
  | go => exact effect_of_goStep h

/-! ## The order of what is sent -/

/-- A step of the command that only writes to, or closes, one of its pipes. -/
theorem Sound.setOut (h : Sound c s) (fd : OutFd) {p : OutPipe} (bytes : List UInt8)
    (hheld : (s.out fd).held = true) (hw : p.written = (s.out fd).written ++ bytes)
    (hu : p.unread = (s.out fd).unread ++ bytes) : Sound c (s.setOut fd p) where
  streams := by
    intro fd'
    by_cases hfd : fd' = fd
    · subst hfd
      simp only [Channel.setOut, update_self, hw, hu, ← h.streams fd', append_assoc]
    · simp only [Channel.setOut, update_of_ne hfd, h.streams fd']
  ateof := by
    intro fd' heof
    have hold := h.ateof fd' heof
    have hfd : fd' ≠ fd := by
      rintro rfl
      rw [hold.2] at hheld
      cases hheld
    simpa only [Channel.setOut, update_of_ne hfd] using hold
  exited := h.exited
  draining := h.draining
  left := h.left
  shape := h.shape

/-- A step inside the loop that neither sends nor touches the pipes. -/
theorem Sound.frame (h : Sound c s) (hpc : s.pc.left = false) (hout : s'.out = s.out)
    (heof : s'.eof = s.eof) (hsent : s'.sent = s.sent)
    (hexit : s'.childExited = true → s'.ended.isSome = true)
    (hdrain : ∀ todo, s'.pc = .finals todo → s'.childExited = true)
    (hpc' : s'.pc.left = false) : Sound c s' where
  streams := by
    intro fd
    rw [hsent, hout]
    exact h.streams fd
  ateof := by
    intro fd he
    rw [heof] at he
    rw [hout]
    exact h.ateof fd he
  exited := hexit
  draining := hdrain
  left := by
    intro hl
    rw [hpc'] at hl
    cases hl
  shape := by
    obtain ⟨body, hbody, hs⟩ := h.shape
    rw [tail_of_not_left hpc] at hs
    rw [tail_of_not_left hpc', hsent]
    exact ⟨body, hbody, hs⟩

/-- A step inside the loop that sends one message and stays in it. -/
theorem Sound.send (h : Sound c s) (hpc : s.pc.left = false) {m : ProtocolMessage}
    (hm : Between c m) (hsent : s'.sent = s.sent ++ [m])
    (hstreams : ∀ fd : OutFd, fd.payload [m] ++ (s'.out fd).unread = (s.out fd).unread ∧
      (s'.out fd).written = (s.out fd).written ∧ (s'.out fd).held = (s.out fd).held)
    (heof : s'.eof = s.eof) (hended : s'.ended = s.ended)
    (hexit : s'.childExited = s.childExited)
    (hdrain : ∀ todo, s'.pc = .finals todo → s.pc = .finals todo)
    (hpc' : s'.pc.left = false) : Sound c s' where
  streams := by
    intro fd
    rw [hsent, payload_append, append_assoc, (hstreams fd).1, (hstreams fd).2.1]
    exact h.streams fd
  ateof := by
    intro fd he
    rw [heof] at he
    obtain ⟨hu, hh⟩ := h.ateof fd he
    have hnil := (hstreams fd).1
    rw [hu] at hnil
    exact ⟨(append_eq_nil_iff.1 hnil).2, (hstreams fd).2.2.trans hh⟩
  exited := by
    rw [hexit, hended]
    exact h.exited
  draining := by
    intro todo ht
    rw [hexit]
    exact h.draining todo (hdrain todo ht)
  left := by
    intro hl
    rw [hpc'] at hl
    cases hl
  shape := by
    obtain ⟨body, hbody, hs⟩ := h.shape
    rw [tail_of_not_left hpc, append_nil] at hs
    refine ⟨body ++ [m], ?_, ?_⟩
    · intro x hx
      rcases mem_append.1 hx with hx | hx
      · exact hbody x hx
      · rw [mem_singleton.1 hx]
        exact hm
    · rw [hsent, hs, tail_of_not_left hpc']
      simp

theorem sound_start (c : ChannelId) (incoming : List ChannelInput) :
    Sound c (start c incoming) where
  streams := by
    intro fd
    cases fd <;> rfl
  ateof := by
    intro fd h
    cases h
  exited := by
    intro h
    cases h
  draining := by
    intro todo h
    cases h
  left := by
    intro h
    cases h
  shape := ⟨[], by simp, rfl⟩

section

variable (h : Sound c s)

include h

theorem Sound.handleControl (hpc : s.pc.left = false) (control : Option ControlRequest) :
    Sound c (s.handleControl c control) := by
  have hrecv : ∀ todo, OutputPc.recv = .finals todo → s.childExited = true := by
    intro todo ht
    cases ht
  unfold Channel.handleControl
  split
  · exact h.frame hpc rfl rfl rfl h.exited hrecv rfl
  · split
    · exact h.frame hpc rfl rfl rfl h.exited hrecv rfl
    · refine h.send hpc (.inr (.inl rfl)) rfl ?_ rfl rfl rfl (fun todo ht => by cases ht) rfl
      intro fd
      cases fd <;> exact ⟨rfl, rfl, rfl⟩
    · refine h.send hpc (.inr (.inr ⟨_, rfl⟩)) rfl ?_ rfl rfl rfl (fun todo ht => by cases ht) rfl
      intro fd
      cases fd <;> exact ⟨rfl, rfl, rfl⟩

theorem Sound.recv (hpc : s.pc = .recv) : Sound c s.recv := by
  have hl : s.pc.left = false := by rw [hpc]; rfl
  have hfin : ∀ pc, pc = s.pc ∨ pc = .swap ∨ pc = .writing →
      ∀ todo, pc = .finals todo → s.childExited = true := by
    rintro pc (rfl | rfl | rfl) todo ht
    · rw [hpc] at ht
      cases ht
    · cases ht
    · cases ht
  unfold Channel.recv
  split
  · exact h.frame hl rfl rfl rfl h.exited (hfin _ (.inr (.inl rfl))) rfl
  · split
    · exact h.frame hl rfl rfl rfl h.exited (hfin _ (.inr (.inr rfl))) rfl
    · exact h.frame hl rfl rfl rfl h.exited (hfin _ (.inl rfl)) hl
  · exact h.frame hl rfl rfl rfl h.exited (hfin _ (.inl rfl)) hl
  · exact h.frame hl rfl rfl rfl h.exited (hfin _ (.inr (.inl rfl))) rfl
  all_goals exact h.frame hl rfl rfl rfl h.exited (hfin _ (.inl rfl)) hl

theorem Sound.waitChild (hpc : s.pc.left = false) : Sound c s.waitChild := by
  unfold Channel.waitChild
  split
  · next hexited => exact h.frame hpc rfl rfl rfl h.exited (fun _ _ => hexited) rfl
  · split
    · next e he =>
      refine h.frame hpc rfl rfl rfl (fun _ => ?_) (fun _ _ => rfl) rfl
      exact Option.isSome_of_eq_some he
    · exact h.frame hpc rfl rfl rfl h.exited (fun _ ht => by cases ht) rfl

/-- A step that leaves the loop or is taken after it. -/
theorem Sound.leave (hready : s.childExited = true ∧ ∀ fd, s.eof fd = true)
    (hpc' : s'.pc.left = true) (hout : s'.out = s.out) (heof : s'.eof = s.eof)
    (hended : s'.ended = s.ended) (hexit : s'.childExited = s.childExited)
    (hpayload : ∀ fd : OutFd, fd.payload s'.sent = fd.payload s.sent)
    (hshape : ∃ body, (∀ m ∈ body, Between c m) ∧
      s'.sent = .execStarted c :: body ++ s'.tail c) : Sound c s' where
  streams := by
    intro fd
    rw [hpayload, hout]
    exact h.streams fd
  ateof := by
    intro fd he
    rw [heof] at he
    rw [hout]
    exact h.ateof fd he
  exited := by
    rw [hexit, hended]
    exact h.exited
  draining := by
    intro todo ht
    rw [ht] at hpc'
    cases hpc'
  left := by
    intro _
    rw [hexit, heof]
    exact hready
  shape := hshape

theorem Sound.read (hd : s.pc.draining = some (fd, next)) (n : ℕ) :
    Sound c { s.setOut fd ⟨(s.out fd).written, (s.out fd).unread.drop n, (s.out fd).held⟩ with
      sent := s.sent ++ [fd.message c ((s.out fd).unread.take n)] } := by
  have hl := (draining_left hd).1
  refine h.send hl (.inl ⟨fd, _, rfl⟩) rfl ?_ rfl rfl rfl (fun _ ht => ht) hl
  intro fd'
  rw [payload_message]
  by_cases hfd : fd' = fd
  · subst hfd
    simp
  · simp [hfd]

theorem Sound.hangup (hd : s.pc.draining = some (fd, next))
    (hend : (s.out fd).unread = [] ∧ (s.out fd).held = false) :
    Sound c { s with eof := update s.eof fd true, pc := next } := by
  have hl := draining_left hd
  refine ⟨h.streams, ?_, h.exited, ?_, ?_, ?_⟩
  · intro fd' he
    by_cases hfd : fd' = fd
    · subst hfd
      exact hend
    · simp only [update_of_ne hfd] at he
      exact h.ateof fd' he
  · rintro todo rfl
    exact h.draining _ (draining_finals hd)
  · intro hleft
    rw [hl.2] at hleft
    cases hleft
  · have hshape := h.shape
    rw [tail_of_not_left hl.1] at hshape
    rw [tail_of_not_left hl.2]
    exact hshape

/-- One step keeps the order. -/
theorem Sound.step (hs : s.step c a = some s') : Sound c s' := by
  -- inside the loop, going to a place other than `finals`
  have goes : ∀ {s' : Channel}, s.pc.left = false → s'.out = s.out → s'.eof = s.eof →
      s'.sent = s.sent → s'.ended = s.ended → s'.childExited = s.childExited →
      (∀ todo, s'.pc ≠ .finals todo) → s'.pc.left = false → Sound c s' := by
    intro s' hl hout heof hsent hended hexit hfin hl'
    refine h.frame hl hout heof hsent ?_ (fun todo ht => absurd ht (hfin todo)) hl'
    rw [hexit, hended]
    exact h.exited
  cases effect_of_step hs with
  | write held => exact h.setOut _ _ held rfl rfl
  | shut held => exact h.setOut _ [] held (by simp) (by simp)
  | shutStdin | arrive => exact ⟨h.streams, h.ateof, h.exited, h.draining, h.left, h.shape⟩
  | exit => exact ⟨h.streams, h.ateof, fun _ => rfl, h.draining, h.left, h.shape⟩
  | poll hpc | wrote hpc | swap hpc | drained hpc | again hpc =>
    exact goes (by rw [hpc]; rfl) rfl rfl rfl rfl rfl (by simp) rfl
  | read hd => exact h.read hd _
  | wouldBlock hd =>
    refine h.frame (draining_left hd).1 rfl rfl rfl h.exited ?_ (draining_left hd).2
    rintro todo rfl
    exact h.draining _ (draining_finals hd)
  | retry => exact h
  | hangup hd hend => exact h.hangup hd hend
  | control hpc => exact h.handleControl (by rw [hpc]; rfl) _
  | recv hpc => exact h.recv hpc
  | wait hpc => exact h.waitChild (by rw [hpc]; rfl)
  | leave hpc hexited heof =>
    have hl : s.pc.left = false := by rw [hpc]; rfl
    refine h.leave ⟨hexited, heof⟩ rfl rfl rfl rfl rfl (fun _ => rfl) ?_
    have hshape := h.shape
    rw [tail_of_not_left hl] at hshape
    exact hshape
  | status hpc | close hpc =>
    refine h.leave (h.left (by rw [hpc]; rfl)) rfl rfl rfl rfl rfl ?_ ?_
    · intro fd
      cases fd <;> simp [payload]
    · obtain ⟨body, hbody, hsent⟩ := h.shape
      refine ⟨body, hbody, ?_⟩
      simp [hsent, tail, hpc]

end

/-! ## The status -/

theorem exitStatusOf_closed : exitStatusOf (Int32.ofNat (130 * 256)) = 130 := by decide

theorem recv_status : (s.queue.head? = some .close → s.recv.status = Int32.ofNat (130 * 256)) ∧
    (s.queue.head? ≠ some .close → s.recv.status = s.status) := by
  unfold recv
  split
  case h_2 => split <;> simp_all
  all_goals simp_all

@[simp] theorem recv_childExited : s.recv.childExited = s.childExited := by
  unfold recv
  split
  case h_2 => split <;> rfl
  all_goals rfl

@[simp] theorem recv_ended : s.recv.ended = s.ended := by
  unfold recv
  split
  case h_2 => split <;> rfl
  all_goals rfl

theorem handleControl_keeps (r : Option ControlRequest) :
    (s.handleControl c r).childExited = s.childExited ∧
      (s.handleControl c r).ended = s.ended ∧ (s.handleControl c r).status = s.status := by
  unfold handleControl
  split
  · exact ⟨rfl, rfl, rfl⟩
  · split <;> exact ⟨rfl, rfl, rfl⟩

/-- Once the exit has been reported, only a `Close` changes the status. -/
theorem step_status (h : Sound c s) (hexited : s.childExited = true)
    (hs : s.step c a = some s') :
    s'.childExited = true ∧ s'.ended = s.ended ∧
      (TakesClose s a → s'.status = Int32.ofNat (130 * 256)) ∧
      (¬ TakesClose s a → s'.status = s.status) := by
  -- every action but the one at `recv` leaves the three as they are
  have keeps : ∀ {s' : Channel}, ¬ TakesClose s a → s'.childExited = s.childExited →
      s'.ended = s.ended → s'.status = s.status →
      s'.childExited = true ∧ s'.ended = s.ended ∧
        (TakesClose s a → s'.status = Int32.ofNat (130 * 256)) ∧
        (¬ TakesClose s a → s'.status = s.status) := by
    intro s' hno hexit hended hstatus
    exact ⟨hexit.trans hexited, hended, fun hc => absurd hc hno, fun _ => hstatus⟩
  have other : ∀ pc, s.pc = pc → pc ≠ .recv → ¬ TakesClose s a := by
    rintro pc rfl hne ⟨-, hpc, -⟩
    exact hne hpc
  have acts : a.isGo = false → ¬ TakesClose s a := by
    rintro hgo ⟨hgo', -⟩
    rw [hgo] at hgo'
    cases hgo'
  cases effect_of_step hs with
  | exit hnone =>
    have := h.exited hexited
    rw [hnone] at this
    cases this
  | control hpc =>
    obtain ⟨h₁, h₂, h₃⟩ := handleControl_keeps (c := c) (s := s) _
    exact keeps (other _ hpc (by simp)) h₁ h₂ h₃
  | recv hpc =>
    have hiff : TakesClose s .go ↔ s.queue.head? = some .close := by simp [TakesClose, hpc, OutputAct.isGo]
    rw [hiff, recv_childExited, recv_ended]
    exact ⟨hexited, rfl, recv_status.1, recv_status.2⟩
  | wait hpc =>
    have heq : s.waitChild = { s with stdinWrite := false, pc := .finals [.stdout, .stderr] } := by
      simp [waitChild, hexited]
    rw [heq]
    exact keeps (other _ hpc (by simp)) rfl rfl rfl
  | swap hpc | drained hpc | leave hpc | again hpc | status hpc | close hpc =>
    exact keeps (other _ hpc (by simp)) rfl rfl rfl
  | _ => exact keeps (acts rfl) rfl rfl rfl

/-- The exit is reported with the word `waitpid` stored. -/
theorem step_exits (hrun : s.childExited = false) (hs : s.step c a = some s') :
    s'.childExited = false ∨ ∃ e, s'.ended = some e ∧ s'.status = e.word := by
  cases effect_of_step hs with
  | control => exact .inl ((handleControl_keeps _).1.trans hrun)
  | recv => exact .inl (recv_childExited.trans hrun)
  | wait =>
    unfold waitChild
    rw [if_neg (by simp [hrun])]
    split
    · next e he => exact .inr ⟨e, he, rfl⟩
    · exact .inl hrun
  | _ => exact .inl hrun

/-- The status was overwritten. -/
def Wrong (s : Channel) : Prop :=
  s.childExited = true ∧ s.status = Int32.ofNat (130 * 256) ∧
    s.ended.any (fun e => e.status != 130) = true

theorem not_right_of_wrong (h : s.Wrong) : ¬ s.Right := by
  obtain ⟨hexited, hstatus, hany⟩ := h
  obtain ⟨e, he, hne⟩ := (Option.any_eq_true _ _).1 hany
  intro hr
  have heq := hr hexited e he
  rw [hstatus, exitStatusOf_closed] at heq
  exact bne_iff_ne.1 hne heq.symm

theorem step_wrong (h : Sound c s) (hw : s.Wrong ∨ LateClose s a) (hs : s.step c a = some s') :
    s'.Wrong := by
  have hexited : s.childExited = true := hw.elim (fun hw => hw.1) fun hl => hl.2.1
  obtain ⟨hex', hended, hclose, hkeep⟩ := step_status h hexited hs
  refine ⟨hex', ?_, ?_⟩
  · by_cases ht : TakesClose s a
    · exact hclose ht
    · rw [hkeep ht]
      exact hw.elim (fun hw => hw.2.1) fun hl => absurd hl.1 ht
  · rw [hended]
    exact hw.elim (fun hw => hw.2.2) fun hl => hl.2.2

theorem step_right (h : Sound c s) (hr : s.Right) (hno : ¬ LateClose s a)
    (hs : s.step c a = some s') : s'.Right := by
  intro hex e he
  cases hexited : s.childExited with
  | false =>
    rcases step_exits hexited hs with hfalse | ⟨e', he', hstatus⟩
    · rw [hfalse] at hex
      cases hex
    · rw [mem_def.1 he] at he'
      cases he'
      rw [hstatus, exitStatusOf_word]
  | true =>
    obtain ⟨-, hended, hclose, hkeep⟩ := step_status h hexited hs
    rw [hended] at he
    by_cases ht : TakesClose s a
    · rw [hclose ht, exitStatusOf_closed]
      by_contra hne
      have hany : s.ended.any (fun e => e.status != 130) = true := by
        rw [mem_def.1 he]
        exact bne_iff_ne.2 fun heq => hne heq.symm
      exact hno ⟨ht, hexited, hany⟩
    · rw [hkeep ht]
      exact hr hexited e he

/-- At the end of a run the status is the command's just when no late `Close` was taken. -/
theorem right_iff {incoming : List ChannelInput} {as : List OutputAct}
    (hr : as.foldlM (step c) (start c incoming) = some s) :
    s.Right ↔ Avoids (step c) LateClose (start c incoming) as := by
  refine last_iff_avoids (I := Sound c) (W := Wrong) (fun s a s' h hs => h.step hs)
    (fun s a s' h hr hno hs => step_right h hr hno hs)
    (fun s a s' h hl hs => step_wrong h (.inr hl) hs)
    (fun s a s' h hw hs => step_wrong h (.inl hw) hs) (fun s _ => not_right_of_wrong)
    (sound_start c incoming) ?_ hr
  intro h
  cases h

theorem complete_iff (h : Sound c s) (hdone : s.pc = .done) : Complete c s ↔ s.Right := by
  obtain ⟨hexited, heof⟩ := h.left (by rw [hdone]; rfl)
  obtain ⟨e, he⟩ := isSome_iff_exists.1 (h.exited hexited)
  obtain ⟨body, hbody, hsent⟩ := h.shape
  have htail : s.tail c = [.exitStatus c (exitStatusOf s.status), .close c] := by
    rw [tail, hdone]
  rw [htail] at hsent
  constructor
  · rintro ⟨body', e', -, he', hsent', -⟩ - e'' he''
    rw [he'] at he''
    cases he''
    rw [hsent'] at hsent
    have hlast := congrArg (fun ms : List ProtocolMessage => ms.reverse) hsent
    simp only [reverse_append, reverse_cons, reverse_nil, nil_append,
      cons_append, List.cons.injEq, ProtocolMessage.exitStatus.injEq] at hlast
    exact hlast.2.1.2.symm
  · intro hr
    refine ⟨body, e, hbody, he, ?_, ?_⟩
    · rw [hsent, hr hexited e he]
    · intro fd
      obtain ⟨hunread, hheld⟩ := h.ateof fd (heof fd)
      refine ⟨?_, hheld⟩
      have hstream := h.streams fd
      rw [hunread, append_nil, hsent] at hstream
      rw [← hstream]
      cases fd <;> simp [payload]

/-! ## Getting done -/

theorem Over.step (h : Over s) (hs : s.step c a = some s') : Over s' := by
  cases effect_of_step hs with
  | write held | shut held => simp [h.out] at held
  | shutStdin held => simp [h.stdin] at held
  | exit hnone =>
    have := h.ended
    rw [hnone] at this
    cases this
  | read =>
    refine ⟨h.ended, fun fd' => ?_, h.stdin⟩
    simp only [setOut, update_apply]
    split <;> exact h.out _
  | control =>
    unfold handleControl
    split
    · exact ⟨h.ended, h.out, h.stdin⟩
    · split <;> exact ⟨h.ended, h.out, h.stdin⟩
  | recv =>
    unfold recv
    split
    case h_2 => split <;> exact ⟨h.ended, h.out, h.stdin⟩
    all_goals exact ⟨h.ended, h.out, h.stdin⟩
  | wait =>
    unfold waitChild
    split
    · exact ⟨h.ended, h.out, h.stdin⟩
    · split <;> exact ⟨h.ended, h.out, h.stdin⟩
  | _ => exact ⟨h.ended, h.out, h.stdin⟩

/-- How far a place is from the end of the pass it is in. -/
def rank : OutputPc → ℕ
  | .done => 0
  | .close => 1
  | .status => 2
  | .check => 3
  | .finals todo => 4 + todo.length
  | .wait => 7
  | .swap => 8
  | .recv => 9
  | .writing => 10
  | .drains todo _ => 11 + todo.length
  | .poll => 14

/-- Whether the thread has to go round once more: the last drain of a stream that is not
    drained again in this pass did not see its end. -/
def lap (s : Channel) : ℕ :=
  match s.pc with
  | .finals todo =>
    if (.stdout ∈ todo ∨ s.eof .stdout = true) ∧ (.stderr ∈ todo ∨ s.eof .stderr = true) then 0
    else 1
  | .check => if s.childExited = true ∧ s.eof .stdout = true ∧ s.eof .stderr = true then 0 else 1
  | _ => 0

def measure (s : Channel) : ℕ :=
  40 * s.lap + rank s.pc + (s.out .stdout).unread.length + (s.out .stderr).unread.length +
    3 * s.incoming.length + 2 * s.queue.length

/-- A drain that saw the end of its stream does not make another round necessary. -/
theorem hangup_measure (hd : s.pc.draining = some (fd, next)) :
    measure { s with eof := update s.eof fd true, pc := next } < measure s := by
  unfold OutputPc.draining at hd
  split at hd
  · next hpc =>
    cases hd
    simp only [measure, lap, rank, hpc, length_cons]
    omega
  · next todo hpc =>
    cases hd
    have hlap : lap { s with eof := update s.eof fd true, pc := .finals todo } ≤ lap s := by
      simp only [lap, hpc]
      cases fd <;> simp
    simp only [measure, rank, hpc, length_cons]
    omega
  · cases hd

theorem read_measure {n : ℕ} {p : OutPipe} {ms : List ProtocolMessage} (hpos : 0 < n)
    (hle : n ≤ (s.out fd).unread.length) (hp : p.unread = (s.out fd).unread.drop n) :
    measure { s.setOut fd p with sent := ms } < measure s := by
  have hlen : p.unread.length = (s.out fd).unread.length - n := by rw [hp, length_drop]
  have hlap : lap { s with out := update s.out fd p, sent := ms } = lap s := rfl
  cases fd <;>
  · simp only [measure, setOut, hlap, update_self, update_of_ne, ne_eq,
      reduceCtorEq, not_false_eq_true]
    omega

theorem recv_measure (hpc : s.pc = .recv) : measure s.recv < measure s := by
  unfold recv
  split
  case h_2 => split <;> simp only [measure, lap, rank, *, length_cons] <;> omega
  all_goals
    simp only [measure, lap, rank, *, length_cons]
    omega

/-- When the command is over, every action but an interrupted call brings the thread nearer
    to its end. -/
theorem step_measure (h : Sound c s) (ho : Over s) (hs : s.step c a = some s') :
    measure s' < measure s ∨ (a = .retry ∧ measure s' ≤ measure s) := by
  cases effect_of_step hs with
  | write held | shut held | wouldBlock hd held => simp [ho.out] at held
  | shutStdin held => simp [ho.stdin] at held
  | exit hnone =>
    have := ho.ended
    rw [hnone] at this
    cases this
  | arrive hi =>
    left
    simp only [measure, lap, hi, length_cons, length_append, length_nil]
    omega
  | poll hpc hshort | wrote hpc | swap hpc | leave hpc | status hpc | close hpc =>
    left
    simp only [measure, lap, rank, hpc]
    omega
  | read hd hpos hle => exact .inl (read_measure hpos hle rfl)
  | retry => exact .inr ⟨rfl, le_rfl⟩
  | hangup hd => exact .inl (hangup_measure hd)
  | control hpc =>
    left
    unfold handleControl
    split
    · simp only [measure, lap, rank, hpc, length_nil]
      omega
    · split <;> simp only [measure, lap, rank, hpc, length_nil] <;> omega
  | recv hpc => exact .inl (recv_measure hpc)
  | wait hpc =>
    left
    obtain ⟨e, he⟩ := isSome_iff_exists.1 ho.ended
    unfold waitChild
    rw [he]
    split <;> simp [measure, lap, rank, hpc]
  | drained hpc =>
    left
    have hexited := h.draining [] hpc
    simp only [measure, lap, rank, hpc, hexited]
    simp
  | again hpc hmore =>
    left
    rw [forall_fd] at hmore
    simp only [measure, lap, rank, hpc, if_neg hmore]
    omega

theorem live_of_isSome (a : OutputAct) (hne : a ≠ .retry) (h : (s.step c a).isSome = true) :
    ∃ a s', a ≠ OutputAct.retry ∧ s.step c a = some s' := by
  obtain ⟨s', hs⟩ := isSome_iff_exists.1 h
  exact ⟨a, s', hne, hs⟩

theorem draining_live (ho : Over s) (hd : s.pc.draining = some (fd, next)) :
    ∃ a s', a ≠ OutputAct.retry ∧ s.step c a = some s' := by
  by_cases hu : (s.out fd).unread = []
  · refine live_of_isSome .hangup (by simp) ?_
    simp [step, hd, hu, ho.out]
  · refine live_of_isSome (.read 1) (by simp) ?_
    have hpos := length_pos_iff.2 hu
    simp [step, hd]
    omega

/-- It can take one until it is done. -/
theorem step_live (ho : Over s) (hdone : s.pc ≠ .done) :
    ∃ a s', a ≠ OutputAct.retry ∧ s.step c a = some s' := by
  have hgo : (s.goStep c).isSome = true → ∃ a s', a ≠ OutputAct.retry ∧ s.step c a = some s' :=
    live_of_isSome .go (by simp)
  cases hpc : s.pc with
  | poll => exact live_of_isSome (.poll false false none) (by simp) (by simp [step, hpc])
  | drains todo control =>
    cases todo with
    | nil => exact hgo (by simp [goStep, hpc])
    | cons fd todo =>
      have hd : s.pc.draining = some (fd, .drains todo control) := by rw [hpc]; rfl
      exact draining_live ho hd
  | recv | swap | wait | status | close => exact hgo (by simp [goStep, hpc])
  | writing => exact live_of_isSome (.wrote false) (by simp) (by simp [step, hpc])
  | finals todo =>
    cases todo with
    | nil => exact hgo (by simp [goStep, hpc])
    | cons fd todo =>
      have hd : s.pc.draining = some (fd, .finals todo) := by rw [hpc]; rfl
      exact draining_live ho hd
  | check =>
    refine hgo ?_
    simp only [goStep, hpc]
    split <;> rfl
  | done => exact absurd hpc hdone

/-- A run whose command is over gets to its end. -/
theorem finishes_of_over (h : Sound c s) (ho : Over s) :
    Finishes (step c) (fun _ a => a = .retry) (fun s => s.pc = .done) s := by
  refine finishes_of_measure (I := fun s => Sound c s ∧ Over s) measure ?_ ?_ ?_ ⟨h, ho⟩
  · intro s a s' h hs
    exact ⟨h.1.step hs, h.2.step hs⟩
  · intro s a s' h hs
    exact step_measure h.1 h.2 hs
  · intro s h hdone
    exact step_live h.2 hdone

/-! ## The property -/

theorem close_mem_iff (h : Sound c s) : ProtocolMessage.close c ∈ s.sent ↔ s.pc = .done := by
  obtain ⟨body, hbody, hsent⟩ := h.shape
  have hno : ProtocolMessage.close c ∉ body := by
    intro hm
    rcases hbody _ hm with ⟨fd, bytes, hm⟩ | hm | ⟨url, hm⟩
    · cases fd <;> cases hm
    · cases hm
    · cases hm
  rw [hsent]
  unfold tail
  split
  · next hpc => simp [hno, hpc]
  · next hpc => simp [hpc]
  · next hpc => simpa [hno] using hpc

/-- After the `Close` nothing is sent. -/
theorem step_done (hdone : s.pc = .done) (hs : s.step c a = some s') :
    s'.pc = .done ∧ s'.sent = s.sent := by
  have hother : ∀ {pc : OutputPc}, s.pc = pc → pc ≠ .done → s'.pc = .done ∧ s'.sent = s.sent := by
    intro pc hpc hne
    exact absurd (hpc.symm.trans hdone) hne
  have hdrain : ∀ {fd next}, s.pc.draining = some (fd, next) →
      s'.pc = .done ∧ s'.sent = s.sent := by
    intro fd next hd
    rw [hdone] at hd
    cases hd
  cases effect_of_step hs with
  | write | shut | shutStdin | exit | arrive | retry => exact ⟨hdone, rfl⟩
  | read hd | wouldBlock hd | hangup hd => exact hdrain hd
  | poll hpc | wrote hpc | control hpc | recv hpc | swap hpc | wait hpc | drained hpc | leave hpc
  | again hpc | status hpc | close hpc => exact hother hpc (by simp)

end Channel

open Channel in
/-- Every run of a command in pipe mode, with any splitting of its output over reads and
    polls: what has been sent is in order and complete up to what is still in the pipes, and
    after the `Close` nothing is sent; a run whose command is over gets to its end; and at the
    end everything has been sent with the command's status if and only if no `Close` from the
    host was taken after the exit had been reported. -/
theorem output_complete_iff (c : ChannelId) (incoming : List ChannelInput)
    {as : List OutputAct} {s : Channel}
    (hrun : as.foldlM (step c) (start c incoming) = some s) :
    Sound c s ∧
      (∀ (bs : List OutputAct) (s' : Channel), bs.foldlM (step c) s = some s' →
        ProtocolMessage.close c ∈ s.sent → s'.sent = s.sent) ∧
      (Over s → Finishes (step c) (fun _ a => a = .retry) (fun s => s.pc = .done) s) ∧
      (s.pc = .done → (Complete c s ↔ Avoids (step c) LateClose (start c incoming) as)) := by
  have hsound : Sound c s :=
    run_inv (I := Sound c) (fun _ _ _ h hs => h.step hs) (sound_start c incoming) hrun
  refine ⟨hsound, ?_, finishes_of_over hsound, ?_⟩
  · intro bs s' hrun' hclose
    have hdone := (close_mem_iff hsound).1 hclose
    have hend := run_inv (I := fun t : Channel => t.pc = .done ∧ t.sent = s.sent)
      (fun t a t' ht hs =>
        ⟨(step_done ht.1 hs).1, (step_done ht.1 hs).2.trans ht.2⟩) ⟨hdone, rfl⟩ hrun'
    exact hend.2
  · intro hdone
    rw [complete_iff hsound hdone, right_iff hrun]

/-- A command that writes a byte to its stdout and exits with 7. -/
def echoRun : List OutputAct :=
  [.write .stdout [104], .exit (.ofCode 7), .shut .stdout, .shut .stderr,
    .poll true true none, .read 1, .hangup, .hangup, .go, .go, .go, .go, .hangup, .hangup,
    .go, .go, .go, .go]

open Channel in
theorem output_complete_echo :
    ∃ s, echoRun.foldlM (step 1) (start 1 []) = some s ∧ s.pc = .done ∧ Complete 1 s :=
  have hrun : echoRun.foldlM (step 1) (start 1 []) = some _ := rfl
  ⟨_, hrun, rfl, ((output_complete_iff 1 [] hrun).2.2.2 rfl).2 (by decide)⟩

/-- The command exits with 3 and leaves a process behind that holds its stdout. The host then
    closes the channel, which ends that process. -/
def lateCloseRun : List OutputAct :=
  [.exit (.ofCode 3), .shut .stderr,
    .poll false false none, .go, .go, .go, .go, .wouldBlock, .hangup, .go, .go,
    .arrive, .poll false false none, .go, .go, .shut .stdout, .go, .go, .hangup, .hangup,
    .go, .go, .go, .go]

open Channel in
/-- The host is told 130, not 3. -/
theorem late_close_hides_status :
    ∃ s, lateCloseRun.foldlM (step 1) (start 1 [.close]) = some s ∧ s.pc = .done ∧
      s.sent = [.execStarted 1, .exitStatus 1 130, .close 1] ∧ ¬ Complete 1 s := by
  refine ⟨_, rfl, rfl, by decide, ?_⟩
  rintro ⟨body, e, -, he, hsent, -⟩
  cases he
  have hlast := congrArg (fun ms : List ProtocolMessage => ms.reverse[1]?) hsent
  simp [Ending.status] at hlast
  exact absurd hlast (by decide)

end Lnx
