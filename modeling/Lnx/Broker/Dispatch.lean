import Lnx.Broker.State
import Lnx.Lib.Machine
import Lnx.Store.Ops

/-!
# Dirty before dispatch

Before the first channel's opening message reaches the guest, `open_channel` has the
owner record that its run is dirty: `before_dispatch` is `RunSession::mark_dirty`
(`runner/session.rs` lines 105–119), which runs under the lock of the channel table and
commits under a lock of its own. The capture worker's `advance` (lines 160–169) takes
that lock too. `abandon` (lines 196–228), for a run that will not have a final snapshot,
takes it only to read the flag; the owner calls it when starting up fails, with the
forwards it has set up still being served, or after the barrier.

The record is read in one step and committed in another, and committing may fail with
the record written or not.

* `Phase.markDirty`, `Phase.abandonRun`, `Phase.advanceLatest`: what the operations of the
  store commit for the phase they have read (`Store.markDirty_eq` and the two after it).
* `DirtyRun.step`: the steps of the broker's threads, the capture worker and the owner.
* `dirty_before_dispatch`: whenever an opening message is queued the record says that the
  run is dirty, and until the final commit or salvage it goes on saying so, in every run
  in which `abandon_run` does not write over a record that has changed since it was read.
-/

namespace Lnx

open List

/-! ## What the store commits -/

namespace Phase

def markDirty (run : RunId) : Phase → Except StoreError (Option Phase)
  | .running current owner =>
    if current = run then .ok (some (.dirty run owner))
    else .error (.cannotMarkDirty run (.running current owner))
  | .dirty current owner =>
    if current = run then .ok none else .error (.cannotMarkDirty run (.dirty current owner))
  | .stopped => .error (.cannotMarkDirty run .stopped)

def abandonRun (run : RunId) : Phase → Except StoreError Phase
  | .running current owner =>
    if current = run then .ok .stopped else .error (.cannotAbandon run (.running current owner))
  | phase => .error (.cannotAbandon run phase)

def advanceLatest (run : RunId) (phase : Phase) : Except StoreError Phase :=
  if phase.run = some run then .ok phase else .error (.cannotAdvance run phase)

end Phase

namespace Store

variable (S : Store) (run : RunId)

theorem markDirty_eq : S.markDirty run = (do
    let record ← S.requireRecord
    match record.phase.markDirty run with
    | .ok (some phase) => S.commitRecord record.latest phase
    | .ok none => pure ()
    | .error e => throw e) := by
  unfold markDirty
  congr 1
  funext ⟨version, latest, phase⟩
  cases phase with
  | stopped => rfl
  | running current owner | dirty current owner =>
    by_cases h : current = run <;> simp [Phase.markDirty, h]

theorem abandonRun_eq : S.abandonRun run = (do
    let record ← S.requireRecord
    match record.phase.abandonRun run with
    | .ok phase =>
      S.commitRecord record.latest phase
      let _ ← S.collectGarbage
      pure ()
    | .error e => throw e) := by
  unfold abandonRun
  congr 1
  funext ⟨version, latest, phase⟩
  cases phase with
  | running current owner => by_cases h : current = run <;> simp [Phase.abandonRun, h]
  | stopped | dirty current owner => rfl

theorem advanceLatest_eq (id : GenerationId) : S.advanceLatest run id = (do
    let _ ← S.generation id
    let record ← S.requireRecord
    match record.phase.advanceLatest run with
    | .ok phase => S.commitRecord (some id) phase
    | .error e => throw e) := by
  unfold advanceLatest
  congr 1
  funext _
  congr 1
  funext record
  by_cases h : record.phase.run = some run <;> simp [Phase.advanceLatest, h]

end Store

/-- How committing the record goes. `commit_json` may fail before the record is replaced,
    or after. -/
inductive CommitOutcome
  | done
  | failed (e : String)
  | unsynced (e : String)
  deriving DecidableEq

open CommitOutcome

namespace CommitOutcome

/-- The record afterwards. -/
@[simp] def record (c : CommitOutcome) (old new : Record) : Record :=
  match c with
  | .failed _ => old
  | _ => new

def result : CommitOutcome → Except String Unit
  | .done => .ok ()
  | .failed e => .error e
  | .unsynced e => .error e

/-- The record has been replaced. -/
@[simp] def lands : CommitOutcome → Bool
  | .failed _ => false
  | _ => true

end CommitOutcome

/-! ## The threads of an owner -/

/-- Where a thread is that is in `open_channel`, past its checks. -/
inductive OpeningStage
  | entered
  /-- holds the lock of the flag, which was not set -/
  | marking
  | read (record : Record)
  /-- the record says that the run is dirty -/
  | marked
  /-- `before_dispatch` has returned -/
  | dispatched (result : Except String Unit)

structure Opening where
  channelId : ChannelId
  tcp : Bool
  channel : BrokerChannel
  stage : OpeningStage

/-- Where the capture worker is in `RunSession::advance`. -/
inductive AdvanceStage
  | idle
  | locked
  | read (record : Record)
  /-- the worker has been joined -/
  | joined

inductive DirtyPc
  /-- starting up, or in the accept loop -/
  | up
  /-- past the barrier -/
  | down
  /-- in `abandon`, with what the flag was -/
  | abandoning (dirty : Bool)
  /-- in `abandon_run`, with the record it has read -/
  | abandonRun (record : Record)
  /-- in `salvage` -/
  | salvaging
  | ended

structure DirtyRun where
  broker : Broker
  /-- the committed record -/
  record : Record
  /-- the flag `RunSession::dirty` -/
  dirty : Bool
  quiesced : Bool
  opening : Option Opening
  advance : AdvanceStage
  pc : DirtyPc
  /-- whether the final snapshot or a salvaged disk has been committed -/
  kept : Bool
  /-- the phase of the record whenever an opening message was queued -/
  atDispatch : List Phase

open DirtyRun

inductive DirtyAct
  | op (o : BrokerOp)
  /-- a client or a forwarded connection gets past the checks of `open_channel` -/
  | enter (c : ChannelId) (tcp : Bool) (channel : BrokerChannel)
  /-- `mark_dirty`: take the lock and look at the flag, read the record, commit it, set the flag -/
  | lockFlag
  | readRecord (result : Except String Unit)
  | commitDirty (c : CommitOutcome)
  | setFlag
  /-- the rest of `open_channel` -/
  | openChannel
  | advanceLock
  | advanceRead (result : Except String Unit)
  | advanceCommit (id : GenerationId) (c : CommitOutcome)
  | beginShutdown
  /-- join the capture worker -/
  | join
  | quiesce
  | commitFinal (id : GenerationId) (c : CommitOutcome)
  /-- `abandon` reads the flag; starting up has failed, or there is no final snapshot -/
  | abandon
  | abandonRead (result : Except String Unit)
  | abandonCommit (c : CommitOutcome)
  | salvageCommit (id : GenerationId) (c : CommitOutcome)

/-- What a thread may do to the broker apart from `open_channel`. Once channels have been
    opened, a client may send any message. -/
def BrokerOp.allowed (served : Bool) : BrokerOp → Bool
  | .openChannel .. => false
  | .sendToAgent m => served || m.opens.isNone
  | .sendToAgentOn _ m => served || m.opens.isNone
  | _ => true

namespace DirtyRun

def start (latest : Option GenerationId) (run : RunId) (owner : ProcessIdentity) : DirtyRun :=
  ⟨⟨[], false, 0, false, none, false, [], []⟩, ⟨RECORD_VERSION, latest, .running run owner⟩, false, false,
    none, .idle, .up, false, []⟩

/-- Nobody holds the lock of the flag. -/
def flagFree (s : DirtyRun) : Bool :=
  (match s.advance with
    | .idle => true
    | .joined => true
    | _ => false) &&
  match s.opening with
  | some o =>
    match o.stage with
    | .entered => true
    | .dispatched _ => true
    | _ => false
  | none => true

/-- The broker after an operation, and the phase for each opening message that it queued. -/
def withBroker (s : DirtyRun) (b : Broker) : DirtyRun :=
  { s with
    broker := b
    atDispatch := s.atDispatch ++
      ((b.toAgent.drop s.broker.toAgent.length).filter fun m => m.opens.isSome).map fun _ => s.record.phase }

def goto (s : DirtyRun) (o : Opening) (stage : OpeningStage) : DirtyRun :=
  { s with opening := some { o with stage := stage } }

/-- The steps of the thread in `open_channel`. -/
def openingStep (run : RunId) (s : DirtyRun) (o : Opening) : DirtyAct → Option DirtyRun
  | .lockFlag =>
    match o.stage with
    | .entered =>
      if s.flagFree then some (s.goto o (if s.dirty then .dispatched (.ok ()) else .marking)) else none
    | _ => none
  | .readRecord result =>
    match o.stage with
    | .marking =>
      match result with
      | .ok _ => some (s.goto o (.read s.record))
      | .error e => some (s.goto o (.dispatched (.error e)))
    | _ => none
  | .commitDirty c =>
    match o.stage with
    | .read record =>
      match record.phase.markDirty run with
      | .ok (some phase) =>
        some { s.goto o (match c.result with
            | .ok _ => .marked
            | .error e => .dispatched (.error e)) with
          record := c.record s.record ⟨RECORD_VERSION, record.latest, phase⟩ }
      | .ok none => some (s.goto o .marked)
      -- the text goes on to say what the phase is
      | .error _ => some (s.goto o (.dispatched (.error ("cannot mark run " ++ run.asStr ++ " dirty"))))
    | _ => none
  | .setFlag =>
    match o.stage with
    | .marked => some { s.goto o (.dispatched (.ok ())) with dirty := true }
    | _ => none
  | .openChannel =>
    match o.stage with
    | .dispatched result =>
      let opening := if o.tcp then .openTcp o.channelId else .openExec o.channelId
      some { s.withBroker (s.broker.openChannel o.channelId o.channel opening (.ok ()) result).1 with
        opening := none }
    | _ => none
  | _ => none

/-- The steps of the capture worker. -/
def advanceStep (run : RunId) (s : DirtyRun) : DirtyAct → Option DirtyRun
  | .advanceLock =>
    match s.advance with
    | .idle => if s.flagFree then some { s with advance := .locked } else none
    | _ => none
  | .advanceRead result =>
    match s.advance with
    | .locked =>
      match result with
      | .ok _ => some { s with advance := .read s.record }
      | .error _ => some { s with advance := .idle }
    | _ => none
  | .advanceCommit id c =>
    match s.advance with
    | .read record =>
      match record.phase.advanceLatest run with
      | .ok phase =>
        some { s with record := c.record s.record ⟨RECORD_VERSION, some id, phase⟩, advance := .idle }
      | .error _ => some { s with advance := .idle }
    | _ => none
  | _ => none

/-- The steps of the owner. -/
def ownerStep (run : RunId) (s : DirtyRun) : DirtyAct → Option DirtyRun
  | .beginShutdown =>
    match s.pc, s.opening with
    | .up, none => some { s.withBroker (s.broker.beginShutdown ownerStopping).1 with pc := .down }
    | _, _ => none
  | .join =>
    match s.pc, s.advance with
    | .down, .idle => some { s with advance := .joined }
    | _, _ => none
  | .quiesce =>
    match s.pc with
    | .down => some { s with quiesced := true }
    | _ => none
  | .commitFinal id c =>
    match s.pc, s.advance with
    | .down, .joined =>
      some { s with
        record := c.record s.record ⟨RECORD_VERSION, some id, .stopped⟩
        kept := s.kept || c.lands
        pc := match c.result with
          | .ok _ => .ended
          | .error _ => .down }
    | _, _ => none
  | .abandon =>
    match s.pc, s.advance with
    | .up, _ => if s.flagFree then some { s with pc := .abandoning s.dirty } else none
    | .down, .joined => if s.flagFree then some { s with pc := .abandoning s.dirty } else none
    | _, _ => none
  | .abandonRead result =>
    match s.pc with
    | .abandoning dirty =>
      match result with
      | .error _ => some { s with pc := .ended }
      | .ok _ =>
        if dirty then
          match s.quiesced, s.record.phase with
          | true, .dirty _ _ => some { s with pc := .salvaging }
          | _, _ => some { s with pc := .ended }
        else
          match s.record.phase.abandonRun run with
          | .ok _ => some { s with pc := .abandonRun s.record }
          | .error _ => some { s with pc := .ended }
    | _ => none
  | .abandonCommit c =>
    match s.pc with
    | .abandonRun record =>
      some { s with record := c.record s.record ⟨RECORD_VERSION, record.latest, .stopped⟩, pc := .ended }
    | _ => none
  | .salvageCommit id c =>
    match s.pc with
    | .salvaging =>
      some { s with
        record := c.record s.record ⟨RECORD_VERSION, some id, .stopped⟩
        kept := s.kept || c.lands
        pc := .ended }
    | _ => none
  | _ => none

def step (run : RunId) (s : DirtyRun) (a : DirtyAct) : Option DirtyRun :=
  match a with
  | .op o =>
    match s.opening with
    | none => if o.allowed !s.atDispatch.isEmpty then some (s.withBroker (s.broker.apply o)) else none
    | some _ => none
  | .enter c tcp channel =>
    match s.opening with
    | none =>
      if s.broker.stopping = false ∧ c ∉ s.broker.ids then
        some { s with opening := some ⟨c, tcp, channel, .entered⟩ }
      else none
    | some _ => none
  | a =>
    match s.opening.bind (fun o => s.openingStep run o a) with
    | some s' => some s'
    | none =>
      match s.advanceStep run a with
      | some s' => some s'
      | none => s.ownerStep run a

/-- At every moment an opening message was queued, the record said that the run was dirty,
    and if one has been queued it still does, unless the run has been kept. -/
def Safe (run : RunId) (owner : ProcessIdentity) (s : DirtyRun) : Prop :=
  (∀ phase ∈ s.atDispatch, phase = .dirty run owner) ∧
    (s.atDispatch ≠ [] → s.kept = true ∨ s.record.phase = .dirty run owner)

/-- `abandon_run` commits although the phase has changed since it was read. -/
def overwrites (s : DirtyRun) (a : DirtyAct) : Bool :=
  match a, s.pc with
  | .abandonCommit _, .abandonRun record => s.record.phase != record.phase
  | _, _ => false

end DirtyRun

/-! ## What the broker queues -/

namespace Broker

variable (b : Broker)

/-- A failing `before_dispatch` leaves no trace in the table, the queue or the count. -/
theorem openChannel_dispatch_error (c : ChannelId) (channel : BrokerChannel) (opening : Message)
    (prepare : Except String Unit) (e : String) :
    let b' := (b.openChannel c channel opening prepare (.error e)).1
    b'.channels = b.channels ∧ b'.toAgent = b.toAgent ∧ b'.active = b.active := by
  unfold openChannel
  split_ifs with hs hc
  · exact ⟨rfl, rfl, rfl⟩
  · exact ⟨rfl, rfl, rfl⟩
  · cases prepare <;> exact ⟨rfl, rfl, rfl⟩

theorem send_opens {served : Bool} {m : Message} (hm : (served || m.opens.isNone) = true)
    (hstop : b.stopping = false) : ∃ ms, (b.send [m]).toAgent = b.toAgent ++ ms ∧
      ((∃ m ∈ ms, m.opens.isSome) → served = true ∧ b.stopping = false) := by
  refine ⟨_, send_toAgent b [m], ?_⟩
  rintro ⟨m', hm', hopens⟩
  refine ⟨?_, hstop⟩
  split at hm'
  · cases hm'
  · cases mem_singleton.1 hm'
    cases hs : served with
    | true => rfl
    | false =>
      rw [hs, Bool.false_or, Option.isNone_iff_eq_none] at hm
      rw [hm] at hopens
      cases hopens

/-- Apart from `open_channel`, what opens a channel is sent by clients that are served. -/
theorem apply_opens {o : BrokerOp} {served : Bool} (ho : o.allowed served = true) :
    ∃ ms, (b.apply o).toAgent = b.toAgent ++ ms ∧
      ((∃ m ∈ ms, m.opens.isSome) → served = true ∧ b.stopping = false) := by
  have hnone : ∀ b' : Broker, b'.toAgent = b.toAgent → ∃ ms, b'.toAgent = b.toAgent ++ ms ∧
      ((∃ m ∈ ms, m.opens.isSome) → served = true ∧ b.stopping = false) :=
    fun b' h => ⟨[], by rw [h, append_nil], by simp⟩
  cases o with
  | openChannel => cases ho
  | sendToAgent m =>
    rcases b.sendToAgent_cases m with h | ⟨hstop, h⟩ <;> rw [apply, h]
    · exact hnone b rfl
    · exact b.send_opens ho hstop
  | sendToAgentOn c m =>
    rcases b.sendToAgentOn_cases c m with h | ⟨hstop, -, h⟩ <;> rw [apply, h]
    · exact hnone b rfl
    · exact b.send_opens ho hstop
  | closeChannel c => exact hnone _ (b.closeChannel_eq c).2.1
  | drain error | agentGone => exact hnone _ rfl

theorem beginShutdown_opens (error : String) :
    ∃ ms, (b.beginShutdown error).1.toAgent = b.toAgent ++ ms ∧ ∀ m ∈ ms, m.opens = none := by
  refine ⟨_, send_toAgent _ _, fun m hm => ?_⟩
  split at hm
  · cases hm
  · obtain ⟨c, -, rfl⟩ := mem_map.1 hm
    rfl

end Broker

/-! ## What always holds -/

namespace OpeningStage

/-- The thread holds the lock of the flag. -/
def holds : OpeningStage → Bool
  | .marking => true
  | .read _ => true
  | .marked => true
  | _ => false

end OpeningStage

namespace DirtyRun

variable {run : RunId} {owner : ProcessIdentity} {s s' : DirtyRun} {a : DirtyAct} {o : Opening}

variable (run owner) in
/-- The phases that the record of this run may have. -/
def Ours (phase : Phase) : Prop := phase = .running run owner ∨ phase = .dirty run owner ∨ phase = .stopped

variable (run owner) in
/-- What a thread in `open_channel` knows of the record and the flag. -/
def Knows (s : DirtyRun) : OpeningStage → Prop
  | .read record => Ours run owner record.phase ∧
      (record.phase = .dirty run owner → s.record.phase = .dirty run owner)
  | .marked => s.record.phase = .dirty run owner
  | .dispatched (.ok _) => s.dirty = true
  | _ => True

/-- The flag is not taken back, nor the dirty phase from a thread that holds the lock. -/
theorem Knows.mono {t : OpeningStage} (h : s.Knows run owner t) (hflag : s.dirty = true → s'.dirty = true)
    (hphase : t.holds = true → s.record.phase = .dirty run owner → s'.record.phase = .dirty run owner) :
    s'.Knows run owner t := by
  cases t with
  | read record => exact ⟨h.1, fun hr => hphase rfl (h.2 hr)⟩
  | marked => exact hphase rfl h
  | dispatched result =>
    cases result with
    | ok => exact hflag h
    | error => trivial
  | _ => trivial

variable (run owner) in
structure Inv (s : DirtyRun) : Prop where
  phase : Ours run owner s.record.phase
  opening : ∀ o, s.opening = some o → s.Knows run owner o.stage
  advance : ∀ record, s.advance = .read record →
    Ours run owner record.phase ∧ (s.record.phase = .dirty run owner → record.phase = .dirty run owner)
  lock : ∀ o, s.opening = some o → o.stage.holds = true → s.advance = .idle ∨ s.advance = .joined
  abandon : ∀ record, s.pc = .abandonRun record → record.phase = .running run owner
  flag : s.dirty = true → s.kept = true ∨ s.record.phase = .dirty run owner
  served : s.atDispatch ≠ [] → s.dirty = true
  dispatched : ∀ phase ∈ s.atDispatch, phase = .dirty run owner
  barred : s.pc = .down ∨ s.pc = .salvaging ∨ s.quiesced = true ∨ s.kept = true →
    s.broker.stopping = true ∧ s.opening = none

theorem inv_start (latest : Option GenerationId) : (start latest run owner).Inv run owner where
  phase := .inl rfl
  opening _ h := by cases h
  advance _ h := by cases h
  lock _ h := by cases h
  abandon _ h := by cases h
  flag h := by cases h
  served h := absurd rfl h
  dispatched _ h := by cases h
  barred h := by simp [start] at h

section

variable (hs : s.Inv run owner)

include hs

theorem Inv.safe : s.Safe run owner :=
  ⟨hs.dispatched, fun h => hs.flag (hs.served h)⟩

/-- An operation on the broker, if it queues opening messages only of a run that is dirty. -/
theorem Inv.withBroker {b : Broker} {m : List Message} (hlog : b.toAgent = s.broker.toAgent ++ m)
    (hstop : s.broker.stopping = true → b.stopping = true)
    (hms : (∃ x ∈ m, x.opens.isSome) → s.dirty = true ∧ s.record.phase = .dirty run owner) :
    (s.withBroker b).Inv run owner := by
  have hdrop : b.toAgent.drop s.broker.toAgent.length = m := by
    rw [hlog, drop_left]
  have hnew : ∀ phase ∈ (m.filter fun x => x.opens.isSome).map (fun _ => s.record.phase),
      s.dirty = true ∧ phase = .dirty run owner := by
    intro phase hp
    obtain ⟨x, hx, rfl⟩ := mem_map.1 hp
    obtain ⟨hmem, hopens⟩ := mem_filter.1 hx
    exact hms ⟨x, hmem, hopens⟩
  have hat : (s.withBroker b).atDispatch =
      s.atDispatch ++ (m.filter fun x => x.opens.isSome).map fun _ => s.record.phase := by
    rw [← hdrop]
    rfl
  refine { hs with
    opening := hs.opening
    served := fun hne => ?_
    dispatched := fun phase hp => ?_
    barred := fun h => (hs.barred h).imp_left hstop }
  · rw [hat] at hne
    by_cases hold : s.atDispatch = []
    · rw [hold, nil_append] at hne
      obtain ⟨phase, hp⟩ := exists_mem_of_ne_nil _ hne
      exact (hnew phase hp).1
    · exact hs.served hold
  · rw [hat] at hp
    rcases mem_append.1 hp with hp | hp
    · exact hs.dispatched phase hp
    · exact (hnew phase hp).2

/-- The thread in `open_channel` goes on. -/
theorem Inv.goto (ho : s.opening = some o) {t : OpeningStage} (hknows : s.Knows run owner t)
    (hlock : t.holds = true → s.advance = .idle ∨ s.advance = .joined) :
    (s.goto o t).Inv run owner := by
  refine { hs with
    opening := fun o' ho' => ?_
    lock := fun o' ho' => ?_
    barred := fun h => ?_ }
  · cases ho'
    exact hknows
  · cases ho'
    exact hlock
  · rw [(hs.barred h).2] at ho
    cases ho

/-- It leaves `open_channel`. -/
theorem Inv.leave : ({ s with opening := none } : DirtyRun).Inv run owner :=
  { hs with
    opening := fun _ h => by cases h
    lock := fun _ h => by cases h
    barred := fun h => ⟨(hs.barred h).1, rfl⟩ }

/-- The thread in `open_channel` sees a run that has not been kept. -/
theorem Inv.not_kept (ho : s.opening = some o) : s.kept = false := by
  by_contra hk
  rw [(hs.barred (.inr (.inr (.inr (by simpa using hk))))).2] at ho
  cases ho

theorem Inv.setDirty (hphase : s.record.phase = .dirty run owner) :
    ({ s with dirty := true } : DirtyRun).Inv run owner :=
  { hs with
    opening := fun o ho => (hs.opening o ho).mono (fun _ => rfl) fun _ => id
    flag := fun _ => .inr hphase
    served := fun _ => rfl }

/-- The record says that the run is dirty. -/
theorem Inv.commitDirty (hadv : s.advance = .idle ∨ s.advance = .joined) {r : Record}
    (hphase : r.phase = .dirty run owner) :
    ({ s with record := r } : DirtyRun).Inv run owner := by
  refine { hs with
    phase := .inr (.inl hphase)
    opening := fun o ho => (hs.opening o ho).mono id fun _ _ => hphase
    advance := fun r' hr => ?_
    flag := fun _ => .inr hphase }
  have hr : s.advance = .read r' := hr
  rcases hadv with h | h <;> rw [h] at hr <;> cases hr

end

theorem Ours.markDirty {phase : Phase} (h : Ours run owner phase) :
    (phase.markDirty run = .ok (some (.dirty run owner)) ∧ phase = .running run owner) ∨
      (phase.markDirty run = .ok none ∧ phase = .dirty run owner) ∨ ∃ e, phase.markDirty run = .error e := by
  rcases h with rfl | rfl | rfl
  · exact .inl ⟨if_pos rfl, rfl⟩
  · exact .inr (.inl ⟨if_pos rfl, rfl⟩)
  · exact .inr (.inr ⟨_, rfl⟩)

section

variable (hs : s.Inv run owner)

include hs

theorem Inv.openingStep (ho : s.opening = some o) (h : s.openingStep run o a = some s') :
    s'.Inv run owner := by
  have hknows := hs.opening o ho
  have hlock := hs.lock o ho
  cases a with
  | lockFlag =>
    simp only [openingStep] at h
    split at h
    · split_ifs at h with hfree hdirty
      · cases h
        exact hs.goto ho hdirty nofun
      · cases h
        refine hs.goto ho trivial fun _ => ?_
        simp only [flagFree, Bool.and_eq_true] at hfree
        cases hadv : s.advance <;> simp [hadv] at hfree ⊢
    · cases h
  | readRecord result =>
    simp only [openingStep] at h
    split at h
    · next hstage =>
      rw [hstage] at hlock
      split at h
      · cases h
        exact hs.goto ho ⟨hs.phase, id⟩ fun _ => hlock rfl
      · cases h
        exact hs.goto ho trivial nofun
    · cases h
  | commitDirty c =>
    simp only [openingStep] at h
    split at h
    · next record hstage =>
      rw [hstage] at hlock hknows
      rcases hknows.1.markDirty with ⟨hm, -⟩ | ⟨hm, hphase⟩ | ⟨e, hm⟩ <;> rw [hm] at h <;> cases h
      · have hcommit := hs.commitDirty (r := ⟨RECORD_VERSION, record.latest, .dirty run owner⟩) (hlock rfl) rfl
        cases c with
        | done => exact hcommit.goto (t := .marked) ho rfl fun _ => hlock rfl
        | failed e => exact hs.goto ho trivial nofun
        | unsynced e => exact hcommit.goto (t := .dispatched (.error e)) ho trivial nofun
      · exact hs.goto ho (hknows.2 hphase) fun _ => hlock rfl
      · exact hs.goto ho trivial nofun
    · cases h
  | setFlag =>
    simp only [openingStep] at h
    split at h
    · next hstage =>
      rw [hstage] at hknows
      cases h
      exact (hs.setDirty hknows).goto ho rfl nofun
    · cases h
  | openChannel =>
    simp only [openingStep] at h
    split at h
    · next result hstage =>
      rw [hstage] at hknows
      cases h
      refine Inv.leave ?_
      set opening : Message := if o.tcp then .openTcp o.channelId else .openExec o.channelId
      cases result with
      | error e =>
        have hsame := s.broker.openChannel_dispatch_error o.channelId o.channel opening (.ok ()) e
        have hcases := s.broker.openChannel_cases o.channelId o.channel opening (.ok ()) (.error e)
        refine hs.withBroker (m := []) (by rw [hsame.2.1, append_nil]) (fun h => ?_) (by simp)
        rcases hcases with hb | hb
        · rw [hb.2.2.2.1, h]
        · rw [hb.2.2.2.2.1, h]
      | ok u =>
        have hdirty : s.dirty = true := hknows
        have hphase : s.record.phase = .dirty run owner :=
          (hs.flag hdirty).resolve_left fun h => by
            rw [hs.not_kept ho] at h
            cases h
        rcases s.broker.openChannel_cases o.channelId o.channel opening (.ok ()) (.ok u) with hb | hb
        · refine hs.withBroker (m := []) (by rw [hb.2.1, append_nil]) (fun h => ?_) (by simp)
          rw [hb.2.2.2.1, h]
        · refine hs.withBroker hb.2.2.2.1 (fun h => ?_) fun _ => ⟨hdirty, hphase⟩
          rw [hb.2.2.2.2.1, h]
    · cases h
  | _ => cases h

theorem Inv.advanceStep (h : s.advanceStep run a = some s') : s'.Inv run owner := by
  cases a with
  | advanceLock =>
    simp only [advanceStep] at h
    split at h
    · split_ifs at h with hfree
      cases h
      refine { hs with opening := hs.opening, advance := nofun, lock := fun o ho hholds => ?_ }
      -- the lock was free
      have ho : s.opening = some o := ho
      simp only [flagFree, ho, Bool.and_eq_true] at hfree
      cases hstage : o.stage <;> simp [hstage, OpeningStage.holds] at hfree hholds
    · cases h
  | advanceRead result =>
    simp only [advanceStep] at h
    split at h
    · next hadv =>
      have hlock : ∀ o, s.opening = some o → o.stage.holds = true → False := by
        intro o ho hholds
        rcases hs.lock o ho hholds with h | h <;> rw [hadv] at h <;> cases h
      split at h
      · cases h
        refine { hs with
          opening := hs.opening
          advance := fun r hr => ?_
          lock := fun o ho hholds => (hlock o ho hholds).elim }
        cases hr
        exact ⟨hs.phase, id⟩
      · cases h
        exact { hs with opening := hs.opening, advance := nofun, lock := fun _ _ _ => .inl rfl }
    · cases h
  | advanceCommit g c =>
    simp only [advanceStep] at h
    split at h
    · next record hadv =>
      obtain ⟨hours, hdirty⟩ := hs.advance record hadv
      have hidle : ({ s with advance := .idle } : DirtyRun).Inv run owner :=
        { hs with opening := hs.opening, advance := nofun, lock := fun _ _ _ => .inl rfl }
      split at h
      · next phase hp =>
        cases h
        obtain rfl : record.phase = phase := by
          unfold Phase.advanceLatest at hp
          split_ifs at hp
          exact Except.ok.inj hp
        cases c with
        | failed e => exact hidle
        | done | unsynced =>
          refine { hidle with
            phase := hours
            opening := fun o ho => (hs.opening o ho).mono id fun hholds => ?_
            advance := nofun
            flag := fun h => (hs.flag h).imp_right hdirty }
          -- whoever relies on the record would hold the lock
          rcases hs.lock o ho hholds with h | h <;> rw [hadv] at h <;> cases h
      · cases h
        exact hidle
    · cases h
  | _ => cases h

/-- The record is replaced by one that says stopped, at a time when it does not say dirty
    or when nobody is in `open_channel`. -/
theorem Inv.commitStopped {r : Record} (hphase : r.phase = .stopped) {pc : DirtyPc} {kept : Bool}
    (hkept : s.kept = true → kept = true)
    (hdirty : s.record.phase = .dirty run owner → kept = true ∧ s.opening = none)
    (habandon : ∀ record, pc ≠ .abandonRun record)
    (hbarred : pc = .down ∨ pc = .salvaging ∨ kept = true →
      s.pc = .down ∨ s.pc = .salvaging ∨ s.quiesced = true ∨ s.kept = true) :
    ({ s with record := r, kept := kept, pc := pc } : DirtyRun).Inv run owner := by
  refine { hs with
    phase := .inr (.inr hphase)
    opening := fun o ho => (hs.opening o ho).mono id fun _ h => ?_
    advance := fun r' hr => ⟨(hs.advance r' hr).1, fun h => ?_⟩
    abandon := fun record h => absurd h (habandon record)
    flag := fun h => .inl ?_
    barred := fun h => hs.barred ?_ }
  · rw [show s.opening = some o from ho] at hdirty
    exact absurd (hdirty h).2 nofun
  · rw [hphase] at h
    cases h
  · rcases hs.flag h with h | h
    · exact hkept h
    · exact (hdirty h).1
  · rcases h with h | h | h | h
    · exact hbarred (.inl h)
    · exact hbarred (.inr (.inl h))
    · exact .inr (.inr (.inl h))
    · exact hbarred (.inr (.inr h))

/-- Only the owner's own place changes. -/
theorem Inv.setPc {p : DirtyPc}
    (habandon : ∀ record, p = .abandonRun record → record.phase = .running run owner)
    (hbarred : p = .down ∨ p = .salvaging → s.pc = .down ∨ s.pc = .salvaging ∨ s.quiesced = true) :
    ({ s with pc := p } : DirtyRun).Inv run owner := by
  refine { hs with
    opening := hs.opening
    abandon := habandon
    barred := fun h => hs.barred ?_ }
  rcases h with h | h | h
  · rcases hbarred (.inl h) with h | h | h <;> simp [h]
  · rcases hbarred (.inr h) with h | h | h <;> simp [h]
  · exact .inr (.inr h)

theorem Inv.ownerStep (h : s.ownerStep run a = some s') (hgood : s.overwrites a = false) :
    s'.Inv run owner := by
  cases a with
  | beginShutdown =>
    simp only [ownerStep] at h
    split at h
    · next hpc hopen =>
      cases h
      obtain ⟨ms, hlog, hms⟩ := s.broker.beginShutdown_opens ownerStopping
      have hshut := s.broker.shut_beginShutdown ownerStopping
      have hnext := hs.withBroker hlog (fun _ => hshut.1) (by
        rintro ⟨m, hm, hopens⟩
        rw [hms m hm] at hopens
        cases hopens)
      exact { hnext with opening := hnext.opening, abandon := nofun, barred := fun _ => ⟨hshut.1, hopen⟩ }
    · cases h
  | join =>
    simp only [ownerStep] at h
    split at h
    · cases h
      exact { hs with opening := hs.opening, advance := nofun, lock := fun _ _ _ => .inr rfl }
    · cases h
  | quiesce =>
    simp only [ownerStep] at h
    split at h
    · next hpc =>
      cases h
      exact { hs with opening := hs.opening, barred := fun _ => hs.barred (.inl hpc) }
    · cases h
  | commitFinal g c =>
    simp only [ownerStep] at h
    split at h
    · next hpc _ =>
      cases h
      have hbar := hs.barred (.inl hpc)
      cases c with
      | failed e =>
        have hdown := hs.setPc (p := .down) nofun fun _ => .inl hpc
        simpa [result] using hdown
      | done | unsynced =>
        exact hs.commitStopped rfl (fun h => by simp [h])
          (fun _ => ⟨by simp, hbar.2⟩) nofun
          fun _ => .inl hpc
    · cases h
  | abandon =>
    simp only [ownerStep] at h
    split at h
    · split_ifs at h
      cases h
      exact hs.setPc nofun (by simp)
    · split_ifs at h
      cases h
      exact hs.setPc nofun (by simp)
    · cases h
  | abandonRead result =>
    simp only [ownerStep] at h
    split at h
    · have hended : ({ s with pc := .ended } : DirtyRun).Inv run owner := hs.setPc nofun (by simp)
      split at h
      · cases h
        exact hended
      · split_ifs at h
        · split at h
          · next hquiet _ =>
            cases h
            exact hs.setPc nofun fun _ => .inr (.inr hquiet)
          · cases h
            exact hended
        · split at h
          · next hphase =>
            cases h
            refine hs.setPc (fun record hr => ?_) (by simp)
            cases hr
            rcases hs.phase with h | h | h
            · exact h
            · rw [h] at hphase
              cases hphase
            · rw [h] at hphase
              cases hphase
          · cases h
            exact hended
    · cases h
  | abandonCommit c =>
    simp only [ownerStep] at h
    split at h
    · next record hpc =>
      cases h
      -- the phase is still the one that was read
      have hphase : s.record.phase = .running run owner := by
        have hsame : (s.record.phase != record.phase) = false := by simpa [overwrites, hpc] using hgood
        exact (bne_eq_false_iff_eq.1 hsame).trans (hs.abandon record hpc)
      cases c with
      | failed e => exact hs.setPc nofun (by simp)
      | done | unsynced =>
        refine hs.commitStopped rfl id (fun h => ?_) nofun (by simp +contextual)
        rw [hphase] at h
        cases h
    · cases h
  | salvageCommit g c =>
    simp only [ownerStep] at h
    split at h
    · next hpc =>
      cases h
      have hbar := hs.barred (.inr (.inl hpc))
      cases c with
      | failed e =>
        have hended := hs.setPc (p := .ended) nofun (by simp)
        simpa using hended
      | done | unsynced =>
        exact hs.commitStopped rfl (fun h => by simp [h])
          (fun _ => ⟨by simp, hbar.2⟩) nofun
          fun _ => .inr (.inl hpc)
    · cases h
  | _ => cases h

theorem Inv.step (hgood : ¬ s.overwrites a = true) (h : s.step run a = some s') :
    s'.Inv run owner := by
  have hrest : ∀ x : Option DirtyRun, x = s.opening.bind (fun o => s.openingStep run o a) →
      (match x with
        | some s' => some s'
        | none =>
          match s.advanceStep run a with
          | some s' => some s'
          | none => s.ownerStep run a) = some s' → s'.Inv run owner := by
    intro x hx h
    split at h
    · cases h
      obtain ⟨o, ho, hstep⟩ := Option.bind_eq_some_iff.1 hx.symm
      exact hs.openingStep ho hstep
    · split at h
      · next hstep =>
        cases h
        exact hs.advanceStep hstep
      · exact hs.ownerStep h (by simpa using hgood)
  cases a with
  | op o =>
    simp only [step] at h
    split at h
    · split_ifs at h with hallowed
      cases h
      obtain ⟨ms, hlog, hms⟩ := s.broker.apply_opens hallowed
      refine hs.withBroker hlog (fun h => by rwa [Broker.apply_stopping]) fun hopens => ?_
      obtain ⟨hserved, hstop⟩ := hms hopens
      have hdirty : s.dirty = true := hs.served (by simpa using hserved)
      refine ⟨hdirty, (hs.flag hdirty).resolve_left fun hk => ?_⟩
      rw [(hs.barred (.inr (.inr (.inr hk)))).1] at hstop
      cases hstop
    · cases h
  | enter c tcp channel =>
    simp only [step] at h
    split at h
    · split_ifs at h with hfree
      cases h
      refine { hs with opening := fun o ho => ?_, lock := fun o ho => ?_, barred := fun h => ?_ }
      · cases ho
        trivial
      · cases ho
        nofun
      · rw [(hs.barred h).1] at hfree
        cases hfree.1
    · cases h
  | _ => exact hrest _ rfl h

end

end DirtyRun

/-- For every owner and every interleaving of its clients, forwarded connections, agent
    reader and capture worker with its own steps, whatever commits fail: in each run in which
    `abandon_run` does not write over a phase that has changed since it was read, at every
    moment an opening message is put on the queue to the agent the committed phase is dirty
    for this run, and it stays so until the final commit or the salvage. And if marking the
    run dirty has failed, `open_channel` queues, registers and counts nothing. -/
theorem dirty_before_dispatch (latest : Option GenerationId) (run : RunId) (owner : ProcessIdentity) :
    (∀ as : List DirtyAct,
      Avoids (DirtyRun.step run) (fun s a => s.overwrites a = true) (.start latest run owner) as →
      Along (DirtyRun.step run) (DirtyRun.Safe run owner) (.start latest run owner) as) ∧
    ∀ (s s' : DirtyRun) (o : Opening) (e : String), s.opening = some o →
      o.stage = .dispatched (.error e) → s.step run .openChannel = some s' →
      s'.broker.toAgent = s.broker.toAgent ∧ s'.broker.channels = s.broker.channels ∧
        s'.broker.active = s.broker.active := by
  constructor
  · intro as h
    exact (along_of_avoids (fun _ _ _ hs hgood h => hs.step hgood h) (DirtyRun.inv_start latest) h).mono
      fun _ hs => hs.safe
  · intro s s' o e ho hstage h
    simp only [step, ho, Option.bind_some, openingStep, hstage] at h
    cases h
    obtain ⟨hch, hlog, hactive⟩ := s.broker.openChannel_dispatch_error o.channelId o.channel
      (if o.tcp then .openTcp o.channelId else .openExec o.channelId) (.ok ()) e
    exact ⟨hlog, hch, hactive⟩

/-- A forwarded connection is served, and the owner shuts down. In another run the record
    cannot be read, and the connection is not. -/
theorem dirty_before_dispatch_tcp :
    (∃ s, [.enter 7 true ⟨0, false⟩, .lockFlag, .readRecord (.ok ()), .commitDirty .done, .setFlag,
        .openChannel, .beginShutdown, .join, .abandon].foldlM (DirtyRun.step ⟨"r", rfl⟩)
        (.start none ⟨"r", rfl⟩ ⟨1, 0⟩) = some s ∧ s.broker.toAgent = [.openTcp 7, .close 7]) ∧
    Along (DirtyRun.step ⟨"r", rfl⟩) (DirtyRun.Safe ⟨"r", rfl⟩ ⟨1, 0⟩) (.start none ⟨"r", rfl⟩ ⟨1, 0⟩)
      [.enter 7 true ⟨0, false⟩, .lockFlag, .readRecord (.ok ()), .commitDirty .done, .setFlag, .openChannel,
        .beginShutdown, .join, .abandon] ∧
    ∃ s s', [.enter 7 true ⟨0, false⟩, .lockFlag, .readRecord (.error "EIO")].foldlM
        (DirtyRun.step ⟨"r", rfl⟩) (.start none ⟨"r", rfl⟩ ⟨1, 0⟩) = some s ∧
      s.step ⟨"r", rfl⟩ .openChannel = some s' ∧ s'.broker.toAgent = s.broker.toAgent ∧
      s'.broker.channels = s.broker.channels ∧ s'.broker.active = s.broker.active := by
  refine ⟨⟨_, rfl, rfl⟩, (dirty_before_dispatch none ⟨"r", rfl⟩ ⟨1, 0⟩).1 _ (by decide), _, _, rfl, rfl, ?_⟩
  exact (dirty_before_dispatch none ⟨"r", rfl⟩ ⟨1, 0⟩).2 _ _ _ "EIO" rfl rfl rfl

/-- Starting up has failed while a forward is being served. `abandon` finds the flag unset
    and `abandon_run` reads the record; a connection marks the run dirty and is served; then
    `abandon_run` commits that the instance is stopped. -/
theorem dispatch_may_be_forgotten :
    ([.abandon, .abandonRead (.ok ()), .enter 7 true ⟨0, false⟩, .lockFlag, .readRecord (.ok ()),
          .commitDirty .done, .setFlag, .openChannel, .abandonCommit .done].foldlM (DirtyRun.step ⟨"r", rfl⟩)
        (.start none ⟨"r", rfl⟩ ⟨1, 0⟩)).map (fun s => (s.broker.toAgent, s.record.phase, s.kept)) =
      some ([.openTcp 7], .stopped, false) := by
  decide

end Lnx
