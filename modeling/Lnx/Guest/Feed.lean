import Lnx.Lib.Machine

/-!
# Standard input of a command in pipe mode

What the host sends to a command's stdin reaches the guest agent as `Data`
messages followed by `Eof`. The agent's main loop (`agent_loop`,
`guest-agent/src/main.rs` lines 2888–2906) puts them on the channel's queue, and
announces `Eof` on a second way as well: it sets `eof_requested` before it queues
`Eof`. The channel's thread (`run_channel_pipe`, lines 2623–2659) empties the
queue and then looks at `eof_requested`. Every operation on the queue and on the
flag is one step.

* `Inbox.step`, `Feed.step`: the steps of the main loop and of the thread.
* `Feed.Overtakes`: the flag is found set while data is still queued.
* `stdin_delivered_iff`: a run delivers everything before stdin is closed if and only
  if the flag never overtakes data.
-/

namespace Lnx

open List

variable {α : Type}

/-! ## The queue of a channel -/

/-- What the main loop sends to a channel's thread, as far as stdin goes (of the source's
    `ChannelInput`). -/
inductive StdinInput (α : Type)
  | data (bytes : List α)
  | eof
  deriving DecidableEq

/-- Where the main loop is with `Eof`. -/
inductive EofStage
  | awaited
  /-- `eof_requested` is set -/
  | latched
  /-- and `Eof` is queued -/
  | queued
  deriving DecidableEq

/-- What the main loop has still to receive for a channel, the channel's queue and
    `eof_requested`. -/
structure Inbox (α : Type) where
  incoming : List (List α)
  eof : EofStage
  queue : List (StdinInput α)
  eofRequested : Bool

open Inbox

/-- The steps of the main loop. -/
inductive InboxAct
  /-- receive `Data` and queue it -/
  | data
  /-- receive `Eof` and set the flag -/
  | latch
  /-- queue `Eof` -/
  | eof
  deriving DecidableEq

variable {x : StdinInput α} {q : List (StdinInput α)}

namespace Inbox

def step (s : Inbox α) : InboxAct → Option (Inbox α)
  | .data =>
    match s.incoming with
    | bytes :: rest => some { s with incoming := rest, queue := s.queue ++ [.data bytes] }
    | [] => none
  | .latch =>
    if s.incoming = [] ∧ s.eof = .awaited then some { s with eof := .latched, eofRequested := true }
    else none
  | .eof =>
    if s.eof = .latched then some { s with eof := .queued, queue := s.queue ++ [.eof] } else none

/-- Everything is still to be received. -/
def start (payload : List (List α)) : Inbox α := ⟨payload, .awaited, [], false⟩

/-- The bytes in a queue. -/
@[simp] def bytesOf : List (StdinInput α) → List α
  | [] => []
  | .data bytes :: q => bytes ++ bytesOf q
  | .eof :: q => bytesOf q

theorem bytesOf_append (p q : List (StdinInput α)) :
    bytesOf (p ++ q) = bytesOf p ++ bytesOf q := by
  induction p with
  | nil => rfl
  | cons x p ih =>
    cases x with
    | data bytes => simp [ih]
    | eof => simpa using ih

/-- The bytes that have not reached the thread yet. -/
@[simp] def bytes (s : Inbox α) : List α := bytesOf s.queue ++ s.incoming.flatten

/-- `Eof` comes last: it is announced, on either way, only when all data is queued,
    and nothing is queued after it. -/
structure Ordered (s : Inbox α) : Prop where
  latched : s.eofRequested = true → s.incoming = []
  awaited : s.eof ≠ .awaited → s.incoming = []
  queued : .eof ∈ s.queue → s.eof = .queued
  last : ∀ p q, s.queue = p ++ .eof :: q → q = []

variable {s s' : Inbox α} {a : InboxAct}

theorem ordered_start (payload : List (List α)) : (start payload).Ordered where
  latched h := by cases h
  awaited h := absurd rfl h
  queued h := by cases h
  last p q h := by simp [start] at h

theorem step_bytes (h : s.step a = some s') : s'.bytes = s.bytes := by
  cases a with
  | data =>
    simp only [step] at h
    split at h
    · next b rest hin =>
      cases h
      simp [bytesOf_append, hin]
    · cases h
  | latch =>
    obtain ⟨-, rfl⟩ := of_guard h
    rfl
  | eof =>
    obtain ⟨-, rfl⟩ := of_guard h
    simp [bytesOf_append]

theorem Ordered.step (hs : s.Ordered) (h : s.step a = some s') : s'.Ordered := by
  cases a with
  | data =>
    simp only [step] at h
    split at h
    · next b rest hin =>
      cases h
      have hne : s.incoming ≠ [] := by simp [hin]
      have heof : s.eof = .awaited := by
        by_contra he
        exact hne (hs.awaited he)
      have hnot : .eof ∉ s.queue ++ [.data b] := by
        intro hm
        rcases mem_append.1 hm with hm | hm
        · rw [hs.queued hm] at heof
          cases heof
        · simp at hm
      refine ⟨fun hl => absurd (hs.latched hl) hne, fun he => absurd heof he, fun hm => absurd hm hnot,
        fun p q hq => ?_⟩
      refine absurd ?_ hnot
      show .eof ∈ s.queue ++ [.data b]
      rw [show s.queue ++ [.data b] = p ++ .eof :: q from hq]
      simp
    · cases h
  | latch =>
    obtain ⟨hc, rfl⟩ := of_guard h
    refine ⟨fun _ => hc.1, fun _ => hc.1, fun hm => ?_, hs.last⟩
    have := hs.queued hm
    rw [hc.2] at this
    cases this
  | eof =>
    obtain ⟨hc, rfl⟩ := of_guard h
    have hnot : .eof ∉ s.queue := fun hm => by
      have := hs.queued hm
      rw [hc] at this
      cases this
    refine ⟨hs.latched, fun _ => hs.awaited (by simp [hc]), fun _ => rfl, fun p q hq => ?_⟩
    -- the `Eof` just queued is the only one
    have hq' : s.queue ++ [.eof] = p ++ .eof :: q := hq
    rcases eq_nil_or_concat q with rfl | ⟨q', x, rfl⟩
    · rfl
    · refine absurd ?_ hnot
      have hsplit : s.queue = p ++ .eof :: q' := by
        have : s.queue ++ [.eof] = (p ++ .eof :: q') ++ [x] := by simpa using hq'
        exact (append_inj' this rfl).1
      rw [hsplit]
      simp

theorem step_mem (h : s.step a = some s') (hx : x ∈ s.queue) : x ∈ s'.queue := by
  cases a with
  | data =>
    simp only [step] at h
    split at h
    · cases h
      exact mem_append_left _ hx
    · cases h
  | latch =>
    obtain ⟨-, rfl⟩ := of_guard h
    exact hx
  | eof =>
    obtain ⟨-, rfl⟩ := of_guard h
    exact mem_append_left _ hx

theorem step_queued (h : s.step a = some s') (hq : s'.eof = .queued) :
    s.eof = .queued ∨ .eof ∈ s'.queue := by
  cases a with
  | data =>
    simp only [step] at h
    split at h
    · cases h
      exact .inl hq
    · cases h
  | latch =>
    obtain ⟨-, rfl⟩ := of_guard h
    cases hq
  | eof =>
    obtain ⟨-, rfl⟩ := of_guard h
    exact .inr (by simp)

theorem data_eof (h : s.step .data = some s') : s'.eof = s.eof := by
  simp only [step] at h
  split at h
  · cases h
    rfl
  · cases h

/-- The main loop goes on until `Eof` is queued. -/
theorem queued_of_stuck (h : ∀ a, s.step a = none) : s.eof = .queued := by
  have hin : s.incoming = [] := by
    have := h .data
    simp only [step] at this
    split at this
    · cases this
    · next hin => exact hin
  cases heof : s.eof with
  | awaited =>
    have := h .latch
    simp [step, hin, heof] at this
  | latched =>
    have := h .eof
    simp [step, heof] at this
  | queued => rfl

/-- What is left to do with the messages: one of more weight is farther from the thread. -/
def weight (s : Inbox α) : ℕ :=
  6 * s.incoming.flatten.length + 2 * s.incoming.length + 5 * (bytesOf s.queue).length +
    s.queue.length + (match s.eof with | .awaited => 4 | .latched => 2 | .queued => 0) +
    s.eofRequested.toNat

theorem step_weight (h : s.step a = some s') : s'.weight < s.weight := by
  cases a with
  | data =>
    simp only [step] at h
    split at h
    · next b rest hin =>
      cases h
      simp only [weight, hin, bytesOf_append, bytesOf, flatten_cons, length_append,
        length_cons, length_nil]
      omega
    · cases h
  | latch =>
    obtain ⟨hc, rfl⟩ := of_guard h
    simp only [weight, hc.2, Bool.toNat_true]
    omega
  | eof =>
    obtain ⟨hc, rfl⟩ := of_guard h
    simp only [weight, hc, bytesOf_append, bytesOf, length_append, length_cons,
      length_nil]
    omega

/-- The thread takes the next input. -/
theorem Ordered.tail (hs : s.Ordered) (hq : s.queue = x :: q) :
    ({ s with queue := q } : Inbox α).Ordered where
  latched := hs.latched
  awaited := hs.awaited
  queued hm := hs.queued (by rw [hq]; exact mem_cons_of_mem _ hm)
  last p r h := hs.last (x :: p) r (by rw [hq]; simpa using h)

/-- When `Eof` is the next input, all data has been taken. -/
theorem Ordered.bytes_of_eof (hs : s.Ordered) (hq : s.queue = .eof :: q) : s.bytes = [] := by
  have hnil : q = [] := hs.last [] q (by simpa using hq)
  have hin : s.incoming = [] := hs.awaited (by rw [hs.queued (by simp [hq])]; simp)
  simp [hq, hnil, hin]

/-- Once the flag is set, what the thread has not taken is queued. -/
theorem Ordered.bytes_of_latched (hs : s.Ordered) (h : s.eofRequested = true) :
    s.bytes = bytesOf s.queue := by
  simp [hs.latched h]

end Inbox

/-! ## The channel's thread -/

/-- A channel in pipe mode. -/
structure Feed (α : Type) where
  inbox : Inbox α
  /-- the thread has found the queue empty, and looks at the flag next -/
  drained : Bool
  /-- what has been written to the command's stdin -/
  written : List α
  stdinOpen : Bool

open Feed

inductive FeedAct
  | main (a : InboxAct)
  /-- `rx.try_recv()`, and the handling of what it returns -/
  | recv
  /-- `eof_requested.swap(false)` -/
  | swap
  deriving DecidableEq

namespace Feed

/-- The thread handles one input; the command keeps its stdin open, so writing
    succeeds. -/
def handle (s : Feed α) : StdinInput α → Feed α
  | .data bytes => if s.stdinOpen then { s with written := s.written ++ bytes } else s
  | .eof => { s with stdinOpen := false }

def step (s : Feed α) : FeedAct → Option (Feed α)
  | .main a => (s.inbox.step a).map fun i => { s with inbox := i }
  | .recv =>
    if s.drained then none
    else
      match s.inbox.queue with
      | [] => some { s with drained := true }
      | x :: q => some ({ s with inbox := { s.inbox with queue := q } }.handle x)
  | .swap =>
    if s.drained then
      some { s with
        inbox := { s.inbox with eofRequested := false }
        drained := false
        stdinOpen := s.stdinOpen && !s.inbox.eofRequested }
    else none

/-- A channel whose command has just started, with all its input to come. -/
def start (payload : List (List α)) : Feed α := ⟨.start payload, false, [], true⟩

/-- The flag is found set, and stdin closed for it, while data is still queued. -/
def Overtakes (s : Feed α) (a : FeedAct) : Prop :=
  a = .swap ∧ s.drained = true ∧ s.stdinOpen = true ∧ s.inbox.eofRequested = true ∧
    Inbox.bytesOf s.inbox.queue ≠ []

/-- Stdin is closed only after everything has been written. -/
def Complete (payload : List (List α)) (s : Feed α) : Prop :=
  s.stdinOpen = false → s.written = payload.flatten

/-- While stdin is open, nothing is lost. -/
structure Carries (payload : List (List α)) (s : Feed α) : Prop where
  ordered : s.inbox.Ordered
  carried : s.stdinOpen = true → s.written ++ s.inbox.bytes = payload.flatten

variable {payload : List (List α)} {s s' : Feed α} {a : FeedAct}

theorem carries_start (payload : List (List α)) : (start payload).Carries payload where
  ordered := ordered_start payload
  carried _ := by simp [start, Inbox.start]

theorem Carries.handle (hs : s.Carries payload) (hq : s.inbox.queue = x :: q) :
    ({ s with inbox := { s.inbox with queue := q } }.handle x).Carries payload := by
  cases x with
  | data bytes =>
    unfold Feed.handle
    split_ifs with ho
    · refine ⟨hs.ordered.tail hq, fun _ => ?_⟩
      have hc := hs.carried ho
      simpa [hq] using hc
    · exact ⟨hs.ordered.tail hq, fun h => absurd h ho⟩
  | eof => exact ⟨hs.ordered.tail hq, fun h => by cases h⟩

theorem Carries.step (hs : s.Carries payload) (h : s.step a = some s') : s'.Carries payload := by
  cases a with
  | main a =>
    obtain ⟨i, hi, rfl⟩ := Option.map_eq_some_iff.1 h
    exact ⟨hs.ordered.step hi, fun ho => by rw [step_bytes hi]; exact hs.carried ho⟩
  | recv =>
    simp only [step] at h
    split_ifs at h
    split at h
    · cases h
      exact ⟨hs.ordered, hs.carried⟩
    · next x q hq =>
      cases h
      exact hs.handle hq
  | swap =>
    obtain ⟨-, rfl⟩ := of_guard h
    refine ⟨⟨nofun, hs.ordered.awaited, hs.ordered.queued, hs.ordered.last⟩, fun ho => ?_⟩
    exact hs.carried (Bool.and_eq_true_iff.1 ho).1

/-- Only the flag can close stdin too early. -/
theorem complete_step (hs : s.Carries payload) (hc : s.Complete payload)
    (h : s.step a = some s') : s'.Complete payload ↔ ¬ s.Overtakes a := by
  cases a with
  | main a =>
    obtain ⟨i, hi, rfl⟩ := Option.map_eq_some_iff.1 h
    exact iff_of_true hc nofun
  | recv =>
    refine iff_of_true ?_ nofun
    simp only [step] at h
    split_ifs at h
    split at h
    · cases h
      exact hc
    · next x q hq =>
      cases h
      cases x with
      | data bytes =>
        unfold handle
        split_ifs with ho
        · exact fun hclosed => absurd ho (by simpa using hclosed)
        · exact fun _ => hc (by simpa using ho)
      | eof =>
        intro _
        cases ho : s.stdinOpen with
        | false => exact hc ho
        | true =>
          have hcar := hs.carried ho
          rwa [hs.ordered.bytes_of_eof hq, append_nil] at hcar
  | swap =>
    obtain ⟨hd, rfl⟩ := of_guard h
    cases ho : s.stdinOpen with
    | false =>
      refine iff_of_true (fun _ => hc ho) fun hov => ?_
      simp [Overtakes, ho] at hov
    | true =>
      cases hf : s.inbox.eofRequested with
      | false =>
        refine iff_of_true (fun hclosed => ?_) fun hov => ?_
        · cases hclosed
        · simp [Overtakes, hf] at hov
      | true =>
        have hcar := hs.carried ho
        rw [hs.ordered.bytes_of_latched hf] at hcar
        have hiff : s.written = payload.flatten ↔ bytesOf s.inbox.queue = [] := by
          rw [← hcar]
          simp
        simp [Complete, Overtakes, hd, ho, hf, hiff]

end Feed

/-- For every sequence of `Data` messages followed by `Eof` and every interleaving of
    the agent's main loop with the channel's thread: whenever stdin is closed,
    exactly the messages' bytes have been written to it in order, if and only if the
    thread never finds `eof_requested` set while data is queued. -/
theorem stdin_delivered_iff (payload : List (List α)) (as : List FeedAct) :
    Along Feed.step (Feed.Complete payload) (Feed.start payload) as ↔
      Avoids Feed.step Feed.Overtakes (Feed.start payload) as :=
  along_iff_avoids (fun _ _ _ hs h => hs.step h) (fun _ _ _ hs hc h => complete_step hs hc h)
    (carries_start payload) nofun as

/-- The thread finds the queue empty; then one byte and `Eof` arrive, and the thread
    looks at the flag: stdin is closed and nothing was written. -/
theorem stdin_may_lose_data :
    ([.recv, .main .data, .main .latch, .swap].foldlM Feed.step (Feed.start [[(7 : UInt8)]])).map
      (fun s => (s.stdinOpen, s.written)) = some (false, []) := by
  decide

end Lnx
