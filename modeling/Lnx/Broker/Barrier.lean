import Lnx.Broker.State
import Lnx.Lib.Machine
import Mathlib.Data.List.Forall2
import Mathlib.Data.List.TakeWhile

/-!
# The stopping barrier

How a VM owner stops taking work before its final snapshot: `begin_shutdown`
(`runner/broker.rs` lines 224–267) sets `stopping` under the lock of the channel
table, and `run_broker_owner` (`runner.rs` lines 2264–2347) waits for the capture
worker (`runner/capture.rs` lines 203–241) before it queues `SnapshotReady`. Client
handlers, forwarded connections, the agent reader and the capture worker go on in any
order meanwhile.

* `Owner.step`: every step of every thread.
* `Owner.Inv`: what holds in every reachable state.
* `Owner.Since`: what has been sent since the barrier was set.
* `stopping_barrier`: nothing gets past the barrier, every open channel is closed
  once, and accepted checkpoints are captured and answered before the final snapshot.
-/

namespace Lnx

open List

/-- What the capture worker is asked for; a checkpoint request has a number. -/
inductive CaptureJob
  | checkpoint (request : ℕ)
  | snapshotExit (c : ChannelId)
  /-- stop after every job queued before this one -/
  | finish
  deriving DecidableEq

/-- The checkpoint a job is for. -/
@[simp] def CaptureJob.request : CaptureJob → Option ℕ
  | .checkpoint r => some r
  | .snapshotExit _ | .finish => none

inductive CaptureWorker
  | waiting
  | running (job : CaptureJob)
  /-- the VM has been captured for the job, or the capture failed -/
  | captured (job : CaptureJob) (ok : Bool)
  | ended
  deriving DecidableEq

/-- The checkpoint the worker has taken from the queue and not answered. -/
@[simp] def CaptureWorker.request : CaptureWorker → List ℕ
  | .running job | .captured job _ => job.request.toList
  | .waiting | .ended => []

/-- The capture it has not answered for. -/
@[simp] def CaptureWorker.taken : CaptureWorker → List (ℕ × Bool)
  | .captured job ok => job.request.toList.map (·, ok)
  | .waiting | .running _ | .ended => []

/-- The worker takes no more jobs. -/
@[simp] def CaptureWorker.Finishing : CaptureWorker → Prop
  | .running job => job = .finish
  | .ended => True
  | .waiting | .captured _ _ => False

/-- The owner: in its accept loop, after it, after the barrier, waiting for the capture
    worker, done waiting, and after `SnapshotReady`. -/
inductive OwnerPc
  | looping
  | left
  | shut
  | joining
  | joined
  | ready
  deriving DecidableEq

open OwnerPc

@[simp] def OwnerPc.rank : OwnerPc → ℕ
  | .looping => 0
  | .left => 1
  | .shut => 2
  | .joining => 3
  | .joined => 4
  | .ready => 5

namespace Message

/-- The error with which a stopping owner fails a channel. -/
def isStop : Message → Bool
  | .error _ text => text == ownerStopping
  | _ => false

/-- What the capture worker sends to the agent. -/
def isCapture : Message → Bool
  | .setClock _ => true
  | .checkpointCreated _ => true
  | .error _ _ => true
  | _ => false

end Message

open Message

/-- A message of the agent that the agent reader is delivering, with the channel it has
    looked up. The agent's errors have other texts than the owner's. -/
structure Delivery where
  channel : Option BrokerChannel
  message : Message
  notStop : message.isStop = false

structure Owner where
  broker : Broker
  delivering : Option Delivery
  jobs : List CaptureJob
  worker : CaptureWorker
  /-- checkpoint requests that were not answered with the stopping error -/
  accepted : List ℕ
  /-- the captures for checkpoints, and whether they succeeded -/
  captured : List (ℕ × Bool)
  /-- the answers to checkpoint requests -/
  answered : List (ℕ × Bool)
  pc : OwnerPc

open Owner

inductive OwnerAct
  | op (o : BrokerOp)
  /-- the agent reader looks up the channel of a message, in `deliver_to_client` -/
  | look (c : ChannelId) (m : Message)
  /-- and sends it to the channel's client -/
  | deliver
  /-- a client asks for a checkpoint -/
  | checkpoint (request : ℕ)
  /-- the guest asks for a snapshot -/
  | snapshotExit (c : ChannelId)
  /-- the capture worker takes a job -/
  | take
  /-- the capture worker captures the VM -/
  | capture (ok : Bool)
  /-- and sends to the agent -/
  | report (m : Message)
  /-- the capture worker is done with its job; for a checkpoint, `ok` is what recording and
      exporting it returned -/
  | answer (ok : Bool)
  /-- the owner finds that a shutdown was requested -/
  | signal
  /-- the owner leaves its loop for another reason -/
  | leave
  | barrier
  | finish
  | join
  | ready

namespace Owner

def step (s : Owner) : OwnerAct → Option Owner
  | .op o => some { s with broker := s.broker.apply o }
  | .look c m =>
    if h : m.isStop = false ∧ s.delivering.isNone then
      let channel := (s.broker.channels.find? fun e => e.1 == c).map Prod.snd
      some { s with delivering := some ⟨channel, m, h.1⟩ }
    else none
  | .deliver =>
    match s.delivering with
    | some ⟨some channel, m, _⟩ =>
      some { s with broker := s.broker.tell channel.client m, delivering := none }
    | some ⟨none, _, _⟩ => some { s with delivering := none }
    | none => none
  | .checkpoint r =>
    -- `unless_stopping`; otherwise the client is answered with the stopping error
    if s.broker.stopping then some s
    else some { s with jobs := s.jobs ++ [.checkpoint r], accepted := s.accepted ++ [r] }
  | .snapshotExit c => some { s with jobs := s.jobs ++ [.snapshotExit c] }
  | .take =>
    match s.worker, s.jobs with
    | .waiting, j :: rest => some { s with jobs := rest, worker := .running j }
    | _, _ => none
  | .capture ok =>
    match s.worker with
    | .running (.checkpoint r) =>
      some { s with captured := s.captured ++ [(r, ok)], worker := .captured (.checkpoint r) ok }
    | .running (.snapshotExit c) => some { s with worker := .captured (.snapshotExit c) ok }
    | _ => none
  | .report m =>
    match s.worker with
    | .captured _ _ => if m.isCapture then some { s with broker := s.broker.send [m] } else none
    | _ => none
  | .answer ok =>
    match s.worker with
    | .running .finish => some { s with worker := .ended }
    | .captured (.checkpoint r) taken =>
      some { s with answered := s.answered ++ [(r, taken && ok)], worker := .waiting }
    | .captured (.snapshotExit _) _ => some { s with worker := .waiting }
    | _ => none
  | .signal =>
    if s.pc = .looping then
      some { s with broker := (s.broker.beginShutdown ownerStopping).1, pc := .left }
    else none
  | .leave => if s.pc = .looping then some { s with pc := .left } else none
  | .barrier =>
    if s.pc = .left then
      some { s with broker := (s.broker.beginShutdown ownerStopping).1, pc := .shut }
    else none
  | .finish =>
    if s.pc = .shut then some { s with jobs := s.jobs ++ [.finish], pc := .joining } else none
  | .join => if s.pc = .joining ∧ s.worker = .ended then some { s with pc := .joined } else none
  | .ready =>
    if s.pc = .joined then some { s with broker := s.broker.send [.snapshotReady], pc := .ready } else none

/-- An owner whose agent has just connected. -/
def start : Owner := ⟨⟨[], false, 0, false, none, false, [], []⟩, none, [], .waiting, [], [], [], .looping⟩

/-! ## What always holds -/

/-- A capture and the answer for it, which says `Ok` only if the capture succeeded. -/
def Answers (capture answer : ℕ × Bool) : Prop :=
  answer.1 = capture.1 ∧ (answer.2 = true → capture.2 = true)

structure Inv (s : Owner) : Prop where
  shut : s.broker.stopping = true → s.broker.channels = []
  nodup : s.broker.ids.Nodup
  stopping : 2 ≤ s.pc.rank → s.broker.stopping = true
  unfinished : s.pc.rank ≤ 2 → .finish ∉ s.jobs ∧ ¬ s.worker.Finishing
  /-- no checkpoint is queued behind `Finish` -/
  last : s.jobs.Pairwise fun j k => j = .finish → k.request = none
  finished : s.worker.Finishing → ∀ j ∈ s.jobs, j.request = none
  /-- in the order they were accepted: answered, with the worker, queued -/
  pending : s.accepted =
    s.answered.map Prod.fst ++ s.worker.request ++ s.jobs.filterMap CaptureJob.request
  taken : ∃ done, s.captured = done ++ s.worker.taken ∧ Forall₂ Answers done s.answered
  joined : 4 ≤ s.pc.rank → s.worker = .ended

theorem inv_start : start.Inv where
  shut h := by cases h
  nodup := nodup_nil
  stopping h := absurd h (by decide)
  unfinished _ := ⟨not_mem_nil, id⟩
  last := .nil
  finished h := h.elim
  pending := rfl
  taken := ⟨[], rfl, .nil⟩
  joined h := absurd h (by decide)

variable {s s' : Owner} {a : OwnerAct} {b : Broker}

/-- What keeps the lists that the invariant reads of the broker. -/
theorem Inv.broker (hs : s.Inv) (hshut : b.stopping = true → b.channels = []) (hnodup : b.ids.Nodup)
    (hstop : s.broker.stopping = true → b.stopping = true) : ({ s with broker := b } : Owner).Inv :=
  { hs with
    shut := hshut
    nodup := hnodup
    stopping := fun h => hstop (hs.stopping h) }

/-- A checkpoint is accepted only before the worker is told to finish. -/
theorem Inv.accept (hs : s.Inv) (hstop : s.broker.stopping = false) (r : ℕ) :
    ({ s with jobs := s.jobs ++ [.checkpoint r], accepted := s.accepted ++ [r] } : Owner).Inv := by
  have hrank : s.pc.rank ≤ 2 := by
    by_contra hlt
    rw [hs.stopping (by omega)] at hstop
    cases hstop
  obtain ⟨hno, hrun⟩ := hs.unfinished hrank
  refine { hs with
    unfinished := fun _ => ⟨by simp [hno], hrun⟩
    last := pairwise_append.2 ⟨hs.last, pairwise_singleton _ _, ?_⟩
    finished := fun h => (hrun h).elim
    pending := by simp [hs.pending] }
  intro j hj k _ hfin
  exact absurd (hfin ▸ hj) hno

/-- Other jobs may be queued at any time. -/
theorem Inv.queue {j : CaptureJob} (hs : s.Inv) (hj : j.request = none) :
    (s.jobs ++ [j]).Pairwise (fun j k => j = .finish → k.request = none) ∧
    (s.worker.Finishing → ∀ k ∈ s.jobs ++ [j], k.request = none) ∧
    (s.jobs ++ [j]).filterMap CaptureJob.request = s.jobs.filterMap CaptureJob.request := by
  refine ⟨pairwise_append.2 ⟨hs.last, pairwise_singleton _ _, ?_⟩, fun h k hk => ?_, ?_⟩
  · intro i _ k hk _
    rwa [mem_singleton.1 hk]
  · rcases mem_append.1 hk with hk | hk
    · exact hs.finished h k hk
    · rwa [mem_singleton.1 hk]
  · rw [filterMap_append, filterMap_cons_none hj, filterMap_nil, append_nil]

theorem Inv.take {j : CaptureJob} {rest : List CaptureJob} (hs : s.Inv) (hw : s.worker = .waiting)
    (hj : s.jobs = j :: rest) : ({ s with jobs := rest, worker := .running j } : Owner).Inv := by
  obtain ⟨hbehind, hlast⟩ := pairwise_cons.1 (hj ▸ hs.last)
  refine { hs with
    unfinished := fun h => ?_
    last := hlast
    finished := fun hfin k hk => hbehind k hk hfin
    pending := ?_
    taken := by simpa [hw] using hs.taken
    joined := fun h => ?_ }
  · obtain ⟨hno, -⟩ := hs.unfinished h
    rw [hj, mem_cons, not_or] at hno
    exact ⟨hno.2, fun hfin => hno.1 hfin.symm⟩
  · rw [hs.pending, hw, hj]
    cases j <;> simp [filterMap_cons]
  · have := hs.joined h
    rw [hw] at this
    cases this

/-- The worker goes on with a job, or is done with it. -/
theorem Inv.work {w : CaptureWorker} {captured answered : List (ℕ × Bool)} (hs : s.Inv)
    (hold : ¬ s.worker.Finishing) (hnew : ¬ w.Finishing)
    (hpending : s.answered.map Prod.fst ++ s.worker.request = answered.map Prod.fst ++ w.request)
    (htaken : ∃ done, captured = done ++ w.taken ∧ Forall₂ Answers done answered) :
    ({ s with worker := w, captured := captured, answered := answered } : Owner).Inv :=
  { hs with
    unfinished := fun h => ⟨(hs.unfinished h).1, hnew⟩
    finished := fun h => (hnew h).elim
    pending := hs.pending.trans (congrArg (· ++ _) hpending)
    taken := htaken
    joined := fun h => (hold (by rw [hs.joined h]; trivial)).elim }

theorem Inv.capture {ok : Bool} (hs : s.Inv) (h : s.step (.capture ok) = some s') : s'.Inv := by
  obtain ⟨done, htaken, hdone⟩ := hs.taken
  simp only [step] at h
  split at h
  · next r hw =>
    cases h
    exact hs.work (by simp [hw]) id (by simp [hw])
      ⟨done, by simpa [hw] using htaken, hdone⟩
  · next c hw =>
    cases h
    exact hs.work (by simp [hw]) id (by simp [hw]) ⟨done, by simpa [hw] using htaken, hdone⟩
  · cases h

theorem Inv.answer {ok : Bool} (hs : s.Inv) (h : s.step (.answer ok) = some s') : s'.Inv := by
  obtain ⟨done, htaken, hdone⟩ := hs.taken
  simp only [step] at h
  split at h
  · next hw =>
    cases h
    have hfin : s.worker.Finishing := by simp [hw]
    exact { hs with
      unfinished := fun h => absurd hfin (hs.unfinished h).2
      finished := fun _ => hs.finished hfin
      pending := by simpa [hw] using hs.pending
      taken := ⟨done, by simpa [hw] using htaken, hdone⟩
      joined := fun _ => rfl }
  · next r taken hw =>
    cases h
    refine hs.work (by simp [hw]) id (by simp [hw])
      ⟨done ++ [(r, taken)], by simpa [hw] using htaken, rel_append hdone ?_⟩
    exact .cons ⟨rfl, fun h => (Bool.and_eq_true_iff.1 h).1⟩ .nil
  · next c taken hw =>
    cases h
    exact hs.work (by simp [hw]) id (by simp [hw]) ⟨done, by simpa [hw] using htaken, hdone⟩
  · cases h

/-- The owner sets the barrier. -/
theorem Inv.shutdown {pc : OwnerPc} (hs : s.Inv) (hold : s.pc.rank ≤ 1) (hnew : pc.rank ≤ 2) :
    ({ s with broker := (s.broker.beginShutdown ownerStopping).1, pc := pc } : Owner).Inv := by
  have hshut := s.broker.shut_beginShutdown ownerStopping
  refine { hs with
    shut := fun _ => hshut.2
    nodup := ?_
    stopping := fun _ => hshut.1
    unfinished := fun _ => hs.unfinished (by omega)
    joined := fun h => by have h : 4 ≤ pc.rank := h; omega }
  rw [Broker.ids, hshut.2]
  exact nodup_nil

theorem Inv.step (hs : s.Inv) (h : s.step a = some s') : s'.Inv := by
  cases a with
  | op o =>
    cases h
    refine hs.broker (fun hstop => ?_) (Broker.nodup_apply hs.nodup o) (fun hstop => ?_)
    · rw [Broker.apply_stopping] at hstop
      have hshut : s.broker.Shut := ⟨hstop, hs.shut hstop⟩
      exact (hshut.apply o).1.2
    · rwa [Broker.apply_stopping]
  | look c m =>
    simp only [step] at h
    split at h
    · cases h
      exact { hs with }
    · cases h
  | deliver =>
    simp only [step] at h
    split at h
    · cases h
      exact { hs with }
    · cases h
      exact { hs with }
    · cases h
  | checkpoint r =>
    simp only [step] at h
    split at h
    · cases h
      exact hs
    · next hstop =>
      cases h
      exact hs.accept (by simpa using hstop) r
  | snapshotExit c =>
    cases h
    obtain ⟨hlast, hfinished, hrequests⟩ := hs.queue (j := .snapshotExit c) rfl
    exact { hs with
      unfinished := fun h => ⟨by simp [(hs.unfinished h).1], (hs.unfinished h).2⟩
      last := hlast
      finished := hfinished
      pending := hrequests ▸ hs.pending }
  | take =>
    simp only [step] at h
    split at h
    · next hw hj =>
      cases h
      exact hs.take hw hj
    · cases h
  | capture ok => exact hs.capture h
  | report m =>
    simp only [step] at h
    split at h
    · split_ifs at h
      cases h
      exact hs.broker (by simpa using hs.shut) (by simpa [Broker.ids] using hs.nodup) (by simp)
    · cases h
  | answer ok => exact hs.answer h
  | signal | barrier =>
    obtain ⟨hpc, rfl⟩ := of_guard h
    exact hs.shutdown (by simp [hpc]) (by simp)
  | leave =>
    obtain ⟨hpc, rfl⟩ := of_guard h
    exact { hs with
      stopping := fun h => absurd h (by simp)
      unfinished := fun _ => hs.unfinished (by simp [hpc])
      joined := fun h => absurd h (by simp) }
  | finish =>
    obtain ⟨hpc, rfl⟩ := of_guard h
    obtain ⟨hlast, hfinished, hrequests⟩ := hs.queue (j := .finish) rfl
    exact { hs with
      stopping := fun _ => hs.stopping (by simp [hpc])
      unfinished := fun h => absurd h (by simp)
      last := hlast
      finished := hfinished
      pending := hrequests ▸ hs.pending
      joined := fun h => absurd h (by simp) }
  | join =>
    obtain ⟨hpc, rfl⟩ := of_guard h
    exact { hs with
      stopping := fun _ => hs.stopping (by simp [hpc.1])
      unfinished := fun h => absurd h (by simp)
      joined := fun _ => hpc.2 }
  | ready =>
    obtain ⟨hpc, rfl⟩ := of_guard h
    exact { hs with
      shut := by simpa using hs.shut
      nodup := by simpa [Broker.ids] using hs.nodup
      stopping := fun _ => by simpa using hs.stopping (by simp [hpc])
      unfinished := fun h => absurd h (by simp)
      joined := fun _ => hs.joined (by simp [hpc]) }

/-- When the worker has ended, every accepted checkpoint was captured and answered, in order. -/
theorem Inv.answered (hs : s.Inv) (hw : s.worker = .ended) :
    s.answered.map Prod.fst = s.accepted ∧ Forall₂ Answers s.captured s.answered := by
  have hnone : s.jobs.filterMap CaptureJob.request = [] :=
    filterMap_eq_nil_iff.2 (hs.finished (by simp [hw]))
  obtain ⟨done, htaken, hdone⟩ := hs.taken
  constructor
  · rw [hs.pending, hw, hnone]
    simp
  · rw [htaken, hw]
    simpa using hdone

/-! ## What is sent once the barrier is set -/

/-- What has been sent since the barrier was set at a broker `b`, when the checkpoints `rs`
    had been accepted. -/
structure Since (b : Broker) (rs : List ℕ) (s : Owner) : Prop where
  shut : s.broker.Shut
  accepted : s.accepted = rs
  agent : ∃ rest, s.broker.toAgent =
      b.toAgent ++ (if b.agentGone then [] else b.ids.map .close) ++ rest ∧
    (∀ c, .close c ∉ rest) ∧ (b.agentGone = true → rest = [])
  clients : ∃ rest, s.broker.toClients =
      b.toClients ++ b.channels.map (fun e => (e.2.client, .error e.1 ownerStopping)) ++ rest ∧
    ∀ e ∈ rest, e.2.isStop = false
  gone : b.agentGone = true → s.broker.agentGone = true

theorem since_shutdown (s : Owner) (pc : OwnerPc) :
    Since s.broker s.accepted
      { s with broker := (s.broker.beginShutdown ownerStopping).1, pc := pc } where
  shut := s.broker.shut_beginShutdown ownerStopping
  accepted := rfl
  agent := ⟨[], by simp [Broker.send_toAgent], by simp, by simp⟩
  clients := ⟨[], by simp, by simp⟩
  gone h := by simp [h]

variable {b₀ : Broker} {rs : List ℕ} {δ : List Message} {ε : List (ℕ × Message)}

theorem Since.broker (hs : Since b₀ rs s) (hshut : s'.broker.Shut)
    (haccepted : s'.accepted = s.accepted) (hagent : s'.broker.toAgent = s.broker.toAgent ++ δ) (hδ : ∀ c, .close c ∉ δ)
    (hclients : s'.broker.toClients = s.broker.toClients ++ ε) (hε : ∀ e ∈ ε, e.2.isStop = false)
    (hgone : s.broker.agentGone = true → s'.broker.agentGone = true ∧ δ = []) : Since b₀ rs s' := by
  obtain ⟨rest, hrest, hno, hnil⟩ := hs.agent
  obtain ⟨crest, hcrest, hcno⟩ := hs.clients
  refine ⟨hshut, haccepted.trans hs.accepted, ⟨rest ++ δ, ?_, fun c hc => ?_, fun hg => ?_⟩, ⟨crest ++ ε, ?_, fun e he => ?_⟩,
    fun hg => (hgone (hs.gone hg)).1⟩
  · rw [hagent, hrest, append_assoc]
  · exact (mem_append.1 hc).elim (hno c) (hδ c)
  · rw [hnil hg, (hgone (hs.gone hg)).2]
    rfl
  · rw [hclients, hcrest, append_assoc]
  · exact (mem_append.1 he).elim (hcno e) (hε e)

/-- Nobody who is told anything by the broker hears of the stop again. -/
theorem Since.same (hs : Since b₀ rs s) (h : s'.broker = s.broker)
    (haccepted : s'.accepted = s.accepted) : Since b₀ rs s' :=
  hs.broker (δ := []) (ε := []) (h ▸ hs.shut) haccepted (by simp [h]) (by simp) (by simp [h]) (by simp)
    fun hg => ⟨h ▸ hg, rfl⟩

theorem Since.send {m : Message} (hs : Since b₀ rs s) (hm : ∀ c, m ≠ .close c)
    (h : s'.broker = s.broker.send [m]) (haccepted : s'.accepted = s.accepted) :
    Since b₀ rs s' := by
  refine hs.broker (ε := []) ?_ haccepted (h ▸ s.broker.send_toAgent [m]) (fun c hc => ?_) (by simp [h]) (by simp)
    fun hg => ⟨by simpa [h] using hg, by simp [hg]⟩
  · simpa [h, Broker.Shut] using hs.shut
  · split at hc
    · cases hc
    · exact hm c (mem_singleton.1 hc).symm

theorem Since.step (hs : Since b₀ rs s) (h : s.step a = some s') : Since b₀ rs s' := by
  cases a with
  | op o =>
    cases h
    obtain ⟨hshut, hagent, hclients, hgone⟩ := hs.shut.apply o
    exact hs.broker (δ := []) (ε := []) hshut rfl (by simpa using hagent) (by simp)
      (by simpa using hclients) (by simp) fun hg => ⟨hgone hg, rfl⟩
  | look c m =>
    simp only [step] at h
    split at h
    · cases h
      exact hs.same rfl rfl
    · cases h
  | deliver =>
    simp only [step] at h
    split at h
    · next channel m hm hd =>
      cases h
      exact hs.broker (δ := []) (ε := [(channel.client, m)]) hs.shut rfl (by simp [Broker.tell]) (by simp) rfl
        (by simpa using hm) fun hg => ⟨hg, rfl⟩
    · cases h
      exact hs.same rfl rfl
    · cases h
  | checkpoint r =>
    simp only [step, hs.shut.1, if_true] at h
    cases h
    exact hs
  | snapshotExit c =>
    cases h
    exact hs.same rfl rfl
  | take | capture ok | answer ok =>
    simp only [step] at h
    split at h <;> cases h <;> exact hs.same rfl rfl
  | report m =>
    simp only [step] at h
    split at h
    · split_ifs at h with hm
      cases h
      refine hs.send (fun c hc => ?_) rfl rfl
      rw [hc] at hm
      cases hm
    · cases h
  | signal | barrier =>
    obtain ⟨-, rfl⟩ := of_guard h
    exact hs.same (congrArg Prod.fst (hs.shut.beginShutdown ownerStopping)) rfl
  | leave | finish | join =>
    obtain ⟨-, rfl⟩ := of_guard h
    exact hs.same rfl rfl
  | ready =>
    obtain ⟨-, rfl⟩ := of_guard h
    exact hs.send (fun c hc => by cases hc) rfl rfl

/-- The barrier is set by the owner only. -/
theorem since_of_stops (hs : s.broker.stopping = false) (h : s.step a = some s')
    (hs' : s'.broker.stopping = true) : Since s.broker s.accepted s' := by
  have hnot (hb : s'.broker.stopping = s.broker.stopping) : Since s.broker s.accepted s' := by
    rw [hb, hs] at hs'
    cases hs'
  cases a with
  | signal | barrier =>
    obtain ⟨-, rfl⟩ := of_guard h
    exact since_shutdown s _
  | op o =>
    cases h
    exact hnot (s.broker.apply_stopping o)
  | look c m =>
    simp only [step] at h
    split at h <;> cases h
    exact hnot rfl
  | deliver | take | checkpoint r | capture ok | answer ok =>
    simp only [step] at h
    split at h <;> cases h <;> exact hnot rfl
  | snapshotExit c =>
    cases h
    exact hnot rfl
  | report m =>
    simp only [step] at h
    split at h
    · split_ifs at h
      cases h
      exact hnot (s.broker.send_stopping _)
    · cases h
  | leave | finish | join =>
    obtain ⟨-, rfl⟩ := of_guard h
    exact hnot rfl
  | ready =>
    obtain ⟨-, rfl⟩ := of_guard h
    exact hnot (s.broker.send_stopping _)

/-- The system of all the owner's threads. -/
def machine : Machine Owner := .ofStep step (· = start)

theorem reachable_inv (h : machine.Reachable s) : s.Inv :=
  Machine.reachable_inv (fun s hs => by cases hs; exact inv_start) (fun _ _ _ hs ⟨_, h⟩ => hs.step h) h

theorem since_later (hs : Since b₀ rs s) (h : machine.Later s s') : Since b₀ rs s' := by
  induction h with
  | here => exact hs
  | step _ hn ih =>
    obtain ⟨a, ha⟩ := hn
    exact ih.step ha

/-- The owner stays shut, and accepts nothing any more. -/
theorem Inv.later (hs : s.Inv) (hstop : s.broker.stopping = true) (h : machine.Later s s') :
    s'.broker.Shut ∧ s'.accepted = s.accepted := by
  have hnil := hs.shut hstop
  have hsince : Since s.broker s.accepted s :=
    ⟨⟨hstop, hnil⟩, rfl, ⟨[], by simp [Broker.ids, hnil], by simp, by simp⟩, ⟨[], by simp [hnil], by simp⟩, id⟩
  exact ⟨(since_later hsince h).shut, (since_later hsince h).accepted⟩

/-- What was queued for the agent since the barrier was set at `b`, up to the request for
    the final snapshot. -/
def beforeReady (b : Broker) (s : Owner) : List Message :=
  (s.broker.toAgent.drop b.toAgent.length).takeWhile (· ≠ .snapshotReady)

/-- What clients were sent since then. -/
def toldSince (b : Broker) (s : Owner) : List (ℕ × Message) :=
  s.broker.toClients.drop b.toClients.length

theorem Since.count_close {c : ChannelId} (hs : Since b₀ rs s) (hnodup : b₀.ids.Nodup) (hc : c ∈ b₀.ids)
    (hready : .snapshotReady ∈ s.broker.toAgent.drop b₀.toAgent.length) :
    (beforeReady b₀ s).count (.close c) = 1 := by
  obtain ⟨rest, hrest, hno, hnil⟩ := hs.agent
  have hgone : b₀.agentGone = false := by
    by_contra hg
    have hg : b₀.agentGone = true := by simpa using hg
    simp [hrest, hg, hnil hg] at hready
  have hdrop : s.broker.toAgent.drop b₀.toAgent.length = b₀.ids.map .close ++ rest := by
    rw [hrest, hgone, append_assoc, drop_left]
    rfl
  have hcloses : ∀ m ∈ b₀.ids.map close, decide (m ≠ .snapshotReady) = true := by
    intro m hm
    obtain ⟨d, -, rfl⟩ := mem_map.1 hm
    rfl
  have hrest0 : (rest.takeWhile (· ≠ .snapshotReady)).count (.close c) = 0 :=
    count_eq_zero.2 fun hm => hno c ((takeWhile_sublist _).subset hm)
  rw [beforeReady, hdrop, takeWhile_append_of_pos hcloses, count_append, hrest0]
  have hinj : Function.Injective close := fun _ _ h => by cases h; rfl
  rw [count_eq_one_of_mem (hnodup.map hinj) (mem_map_of_mem hc)]

theorem Since.count_stop {e : ChannelId × BrokerChannel} (hs : Since b₀ rs s) (hnodup : b₀.ids.Nodup)
    (he : e ∈ b₀.channels) :
    (toldSince b₀ s).count (e.2.client, .error e.1 ownerStopping) = 1 := by
  obtain ⟨rest, hrest, hno⟩ := hs.clients
  have hrest0 : rest.count (e.2.client, .error e.1 ownerStopping) = 0 :=
    count_eq_zero.2 fun hm => by
      have := hno _ hm
      simp [isStop] at this
  -- the errors name their channels, so they differ
  have hdistinct : (b₀.channels.map fun e =>
      (e.2.client, error e.1 ownerStopping)).Nodup := by
    refine List.Nodup.of_map (fun p => match p.2 with | .error c _ => c | _ => 0) ?_
    rw [map_map]
    exact hnodup
  rw [toldSince, hrest, append_assoc, drop_left, count_append, hrest0,
    count_eq_one_of_mem hdistinct (mem_map_of_mem he)]

/-- The steps that send through the barrier: opening a channel and the two ways of sending
    to the agent. -/
def Sends : OwnerAct → Prop
  | .op (.openChannel ..) => True
  | .op (.sendToAgent _) => True
  | .op (.sendToAgentOn ..) => True
  | _ => False

end Owner

/-- In every interleaving of client handlers, forwarded connections, requests of the
    guest, the capture worker and the owner:
    * once the owner is stopping, it stays so: nothing sent through the barrier reaches the
      agent's queue, no channel is open any more, and shutting down again changes nothing;
    * of every channel that was open when the barrier was set, exactly one `Close` is
      queued from then on before `SnapshotReady`, and its client is sent exactly one
      stop error;
    * when the owner queues `SnapshotReady`, each checkpoint that is ever accepted has been
      captured and answered once, in the order they were accepted, and answered with `Ok`
      only if the capture succeeded. -/
theorem stopping_barrier :
    (∀ s, Owner.machine.Reachable s → s.broker.stopping = true → ∀ u, Owner.machine.Later s u →
      (∀ a u', Owner.Sends a → u.step a = some u' → u'.broker.toAgent = u.broker.toAgent) ∧
      u.broker.channels = [] ∧ ∀ error, u.broker.beginShutdown error = (u.broker, 0)) ∧
    (∀ s a t, Owner.machine.Reachable s → s.broker.stopping = false → s.step a = some t →
      t.broker.stopping = true → ∀ u, Owner.machine.Later t u → ∀ e ∈ s.broker.channels,
        (.snapshotReady ∈ u.broker.toAgent.drop s.broker.toAgent.length →
          (Owner.beforeReady s.broker u).count (.close e.1) = 1) ∧
        (Owner.toldSince s.broker u).count (e.2.client, .error e.1 ownerStopping) = 1) ∧
    ∀ s t, Owner.machine.Reachable s → s.step .ready = some t → ∀ u, Owner.machine.Later t u →
      s.answered.map Prod.fst = u.accepted ∧ Forall₂ Owner.Answers s.captured s.answered := by
  refine ⟨fun s hr hstop u hu => ?_, fun s a t hr hs h ht u hu e he => ?_, fun s t hr h u hu => ?_⟩
  · obtain ⟨hshut, -⟩ := (reachable_inv hr).later hstop hu
    refine ⟨fun a s' ha h => ?_, hshut.2, hshut.beginShutdown⟩
    cases a with
    | op o =>
      cases h
      exact (hshut.apply o).2.1
    | _ => cases ha
  · have hnodup := (reachable_inv hr).nodup
    have hsince := since_later (since_of_stops hs h ht) hu
    exact ⟨hsince.count_close hnodup (mem_map_of_mem he), hsince.count_stop hnodup he⟩
  · have hinv := reachable_inv hr
    have hinv' := hinv.step h
    obtain ⟨hpc, rfl⟩ := of_guard h
    obtain ⟨hanswered, hcaptured⟩ := hinv.answered (hinv.joined (by simp [hpc]))
    rw [(hinv'.later (hinv'.stopping (by simp)) hu).2]
    exact ⟨hanswered, hcaptured⟩

/-- One command is running and a checkpoint has been accepted when a shutdown is requested. -/
theorem stopping_barrier_one : ∃ s t u v,
    [.op (.openChannel 5 false ⟨3, true⟩ (.ok ()) (.ok ())), .checkpoint 7].foldlM Owner.step
      Owner.start = some s ∧
    s.step .signal = some t ∧
    [.barrier, .finish, .take, .capture true, .answer true, .take, .answer true, .join].foldlM
      Owner.step t = some u ∧
    u.step .ready = some v ∧
    ((Owner.beforeReady s.broker v).count (.close 5) = 1 ∧
      (Owner.toldSince s.broker v).count (3, .error 5 ownerStopping) = 1) ∧
    u.answered.map Prod.fst = v.accepted ∧ v.accepted = [7] := by
  refine ⟨_, _, _, _, rfl, rfl, rfl, rfl,
    (stopping_barrier.2.1 _ .signal _ ?_ rfl rfl rfl _ ?_ (5, ⟨3, true⟩) ?_).imp_left fun h => h ?_,
    (stopping_barrier.2.2 _ _ ?_ rfl _ (.here _)).1, rfl⟩
  · exact (Machine.Reachable.init rfl).later (Machine.Later.run
      [.op (.openChannel 5 false ⟨3, true⟩ (.ok ()) (.ok ())), .checkpoint 7] rfl)
  · exact Machine.Later.run
      [.barrier, .finish, .take, .capture true, .answer true, .take, .answer true, .join, .ready] rfl
  · decide
  · exact (Machine.Reachable.init rfl).later (Machine.Later.run
      [.op (.openChannel 5 false ⟨3, true⟩ (.ok ()) (.ok ())), .checkpoint 7, .signal, .barrier,
        .finish, .take, .capture true, .answer true, .take, .answer true, .join] rfl)
  · decide

end Lnx
