import Lnx.Client.Run
import Mathlib.Data.List.Flatten

/-!
# The command's standard input

Each attempt of `run` has a reader of its own for standard input: a thread
(`spawn_stdin_pump`, `runner.rs` lines 1708–1733) that holds the lock of `stdin` until
it ends, or in deterministic mode, unless standard input is a terminal, the client
itself, which reads all of it before it looks at the owner's reply (`send_all_stdin`,
lines 1695–1705). Either starts as soon as `OpenExec` is sent. An attempt that turns out
not to have been started leaves a thread that goes on reading until it fails to send.

* `StdinRun.step`: the steps of `ClientRun.step` and of the readers. The `Eof` and
  `Close` of an interrupted or timed-out client are left out.
* `stdin_whole_iff`: the admitted attempt sends all of standard input and then `Eof` if
  and only if the reader of no earlier attempt has read any of it.
-/

namespace Lnx

open Option List Function

/-- The size of the pump's buffer. -/
def stdinChunk : ℕ := 8192

inductive ReaderStage
  /-- for the lock of `stdin` -/
  | waiting
  | reading
  | sending (bytes : List UInt8)
  /-- about to send `Eof` -/
  | ending
  | ended
  deriving DecidableEq

/-- The reader of an attempt, and the messages it has sent. -/
structure Reader where
  channelId : ChannelId
  stage : ReaderStage
  sent : List Message

open Reader

namespace Reader

/-- What has been read and not sent. -/
@[simp] def held (r : Reader) : List UInt8 :=
  match r.stage with
  | .sending bytes => bytes
  | _ => []

/-- The reader has come to the end of standard input. -/
def Drains (r : Reader) (deterministic : Bool) : Prop :=
  match r.stage with
  | .sending _ => deterministic = true
  | .ending => True
  | _ => False

/-- The reader has sent `input` in some pieces, and then `Eof`. -/
def Whole (r : Reader) (input : List UInt8) : Prop :=
  ∃ payloads : List (List UInt8),
    r.sent = payloads.map (.data r.channelId) ++ [.eof r.channelId] ∧ payloads.flatten = input

end Reader

structure StdinRun where
  run : ClientRun
  /-- what is left of standard input -/
  stdin : List UInt8
  readers : ℕ → Option Reader
  /-- who has the lock of `stdin` -/
  holder : Option ℕ
  /-- which attempt's reader has read what -/
  reads : List (ℕ × List UInt8)

open StdinRun

inductive StdinAct
  | run (a : RunAct)
  | lock (n : ℕ)
  /-- read at most so many bytes -/
  | read (n size : ℕ)
  | readError (n : ℕ) (text : String)
  /-- sending may fail -/
  | send (n : ℕ) (error : Option String)

/-- The steps of `relay_channel_output`, and errors of the client itself. -/
def RunAct.relays : RunAct → Bool
  | .receive => true
  | .interrupted => true
  | .timeOut => true
  | .fail _ => true
  | _ => false

namespace StdinRun

def start (input : List UInt8) : StdinRun := ⟨.start, input, fun _ => none, none, []⟩

/-- The client is in `send_all_stdin`. -/
def busy (s : StdinRun) (deterministic : Bool) : Bool :=
  deterministic && (s.readers s.run.attempt).any fun r => r.stage != .ended

def setReader (s : StdinRun) (n : ℕ) (r : Reader) : StdinRun :=
  { s with readers := update s.readers n (some r) }

/-- The reader ends with an error, which in deterministic mode is the client's. -/
def abort (s : StdinRun) (deterministic : Bool) (n : ℕ) (r : Reader) (text : String) : StdinRun :=
  { s.setReader n { r with stage := .ended } with
    holder := none
    run := if deterministic then s.run.finish (.failed text) else s.run }

def step (config : RunConfig) (deterministic : Bool) (s : StdinRun) : StdinAct → Option StdinRun
  | .run a =>
    if s.busy deterministic ∧ a.relays then none
    else
      (s.run.step config a).map fun run =>
        match a with
        | .openExec c => { s.setReader s.run.attempt ⟨c, .waiting, []⟩ with run := run }
        | _ => { s with run := run }
  | .lock n =>
    match s.readers n, s.holder with
    | some r, none =>
      if r.stage = .waiting then some { s.setReader n { r with stage := .reading } with holder := some n }
      else none
    | _, _ => none
  | .read n size =>
    match s.readers n with
    | some r =>
      if r.stage = .reading ∧ 0 < size ∧ size ≤ stdinChunk then
        if s.stdin = [] then some (s.setReader n { r with stage := .ending })
        else
          -- `read_to_end` in deterministic mode
          let size := if deterministic then s.stdin.length else size
          some { s.setReader n { r with stage := .sending (s.stdin.take size) } with
            stdin := s.stdin.drop size
            reads := s.reads ++ [(n, s.stdin.take size)] }
      else none
    | none => none
  | .readError n text =>
    match s.readers n with
    | some r => if r.stage = .reading then some (s.abort deterministic n r text) else none
    | none => none
  | .send n error =>
    match s.readers n with
    | some r =>
      match r.stage, error with
      | .sending bytes, none =>
        some (s.setReader n { r with
          stage := if deterministic then .ending else .reading
          sent := r.sent ++ [.data r.channelId bytes] })
      | .ending, none =>
        some { s.setReader n { r with stage := .ended, sent := r.sent ++ [.eof r.channelId] } with holder := none }
      | .sending _, some text => some (s.abort deterministic n r text)
      | .ending, some text => some (s.abort deterministic n r text)
      | _, _ => none
    | none => none

/-! ## What always holds -/

/-- What the reader of an attempt has read. -/
def taken (s : StdinRun) (n : ℕ) : List UInt8 :=
  (s.reads.filter fun e => e.1 == n).flatMap Prod.snd

/-- A reader has sent what it has read, but for what it holds, unless it has failed. -/
inductive Faithful (deterministic : Bool) (s : StdinRun) (n : ℕ) (r : Reader) : Prop
  | failed : r.stage = .ended → .eof r.channelId ∉ r.sent → Faithful deterministic s n r
  | active (payloads : List (List UInt8)) : r.stage ≠ .ended → (r.Drains deterministic → s.stdin = []) →
      r.sent = payloads.map (.data r.channelId) → payloads.flatten ++ r.held = s.taken n →
      Faithful deterministic s n r
  | done (payloads : List (List UInt8)) : r.stage = .ended → s.stdin = [] →
      r.sent = payloads.map (.data r.channelId) ++ [.eof r.channelId] →
      payloads.flatten = s.taken n → Faithful deterministic s n r

structure Inv (deterministic : Bool) (input : List UInt8) (s : StdinRun) : Prop where
  run : s.run.Inv
  bytes : s.reads.flatMap Prod.snd ++ s.stdin = input
  sent : ∀ n r, s.readers n = some r → s.run.Sent n
  reads : ∀ e ∈ s.reads, (s.readers e.1).isSome ∧ e.2 ≠ []
  readers : ∀ n r, s.readers n = some r → s.Faithful deterministic n r

variable {config : RunConfig} {deterministic : Bool} {input : List UInt8} {s s' : StdinRun} {a : StdinAct}
  {n m : ℕ} {r r' : Reader}

theorem inv_start (deterministic : Bool) (input : List UInt8) : (start input).Inv deterministic input where
  run := ClientRun.inv_start
  bytes := rfl
  sent _ _ h := by cases h
  reads _ h := by cases h
  readers _ _ h := by cases h

/-- What is read by others leaves a reader as it is. -/
theorem Faithful.of_taken (h : s.Faithful deterministic n r) (htaken : s'.taken n = s.taken n)
    (hend : s.stdin = [] → s'.stdin = []) : s'.Faithful deterministic n r := by
  cases h with
  | failed hstage hsent => exact .failed hstage hsent
  | active payloads hstage hending hsent hp =>
    exact .active payloads hstage (fun h => hend (hending h)) hsent (hp.trans htaken.symm)
  | done payloads hstage hnil hsent hp => exact .done payloads hstage (hend hnil) hsent (hp.trans htaken.symm)

section

variable (hs : s.Inv deterministic input)

include hs

/-- A reader takes a step that reads nothing. -/
theorem Inv.setReader (hr : s.readers n = some r) (hr' : s.Faithful deterministic n r')
    {run : ClientRun} (hrun : run.Inv) (hsent : ∀ m, s.run.Sent m → run.Sent m) (holder : Option ℕ) :
    ({ s.setReader n r' with run := run, holder := holder } : StdinRun).Inv deterministic input := by
  have hreaders : ∀ m x, update s.readers n (some r') m = some x →
      (∃ y, s.readers m = some y) ∧ s.Faithful deterministic m x := by
    intro m x hx
    by_cases hm : m = n
    · subst hm
      rw [update_self] at hx
      cases hx
      exact ⟨⟨r, hr⟩, hr'⟩
    · rw [update_of_ne hm] at hx
      exact ⟨⟨x, hx⟩, hs.readers m x hx⟩
  refine ⟨hrun, hs.bytes, fun m x hx => ?_, fun e he => ⟨?_, (hs.reads e he).2⟩, fun m x hx => ?_⟩
  · obtain ⟨⟨y, hy⟩, -⟩ := hreaders m x hx
    exact hsent m (hs.sent m y hy)
  · show (update s.readers n (some r') e.1).isSome
    by_cases hm : e.1 = n
    · rw [hm, update_self]
      rfl
    · rw [update_of_ne hm]
      exact (hs.reads e he).1
  · exact (hreaders m x hx).2.of_taken rfl id

/-- A failure leaves nothing to be sent. -/
theorem Inv.abort (hr : s.readers n = some r) (hstage : r.stage ≠ .ended) (text : String) :
    (s.abort deterministic n r text).Inv deterministic input := by
  have hno : .eof r.channelId ∉ r.sent := by
    cases hs.readers n r hr with
    | failed h | done _ h => exact absurd h hstage
    | active payloads _ _ hsent => simp [hsent]
  have hfail : s.Faithful deterministic n { r with stage := .ended } := .failed rfl hno
  refine hs.setReader hr hfail ?_ (fun m hm => ?_) none
  · split
    · exact hs.run.finish nofun nofun
    · exact hs.run
  · split
    · exact hm.finish _
    · exact hm

/-- Reading moves bytes from standard input to the reader. -/
theorem Inv.read (hr : s.readers n = some r) (hstage : r.stage = .reading) (hne : s.stdin ≠ [])
    {size : ℕ} (hsize : 0 < size) (hall : deterministic = true → s.stdin.length ≤ size) :
    ({ s.setReader n { r with stage := .sending (s.stdin.take size) } with
      stdin := s.stdin.drop size
      reads := s.reads ++ [(n, s.stdin.take size)] } : StdinRun).Inv deterministic input := by
  have hreaders : ∀ m, (∃ x, s.readers m = some x) →
      (update s.readers n (some { r with stage := .sending (s.stdin.take size) }) m).isSome := by
    rintro m ⟨x, hx⟩
    by_cases hm : m = n
    · rw [hm, update_self]
      rfl
    · rw [update_of_ne hm, hx]
      rfl
  refine ⟨hs.run, ?_, fun m x hx => ?_, fun e he => ?_, fun m x hx => ?_⟩
  · rw [flatMap_append, flatMap_singleton, append_assoc, take_append_drop]
    exact hs.bytes
  · by_cases hm : m = n
    · exact hm ▸ hs.sent n r hr
    · exact hs.sent m x ((update_of_ne hm ..).symm.trans hx)
  · rcases mem_append.1 he with he | he
    · obtain ⟨hsome, hbytes⟩ := hs.reads e he
      exact ⟨hreaders _ (isSome_iff_exists.1 hsome), hbytes⟩
    · cases mem_singleton.1 he
      refine ⟨hreaders n ⟨r, hr⟩, fun h => ?_⟩
      rcases take_eq_nil_iff.1 h with h | h
      · omega
      · exact hne h
  · by_cases hm : m = n
    · subst hm
      cases (update_self ..).symm.trans hx
      cases hs.readers m r hr with
      | failed h | done _ h => rw [hstage] at h; cases h
      | active payloads _ _ hsent hp =>
        refine .active payloads nofun (fun h => drop_eq_nil_iff.2 (hall h)) hsent ?_
        have hheld : r.held = [] := by simp [hstage]
        rw [hheld, append_nil] at hp
        rw [hp]
        simp [taken]
    · have hx := (update_of_ne hm ..).symm.trans hx
      refine (hs.readers m x hx).of_taken ?_ fun h => absurd h hne
      simp [taken, Ne.symm hm]

/-- A new reader, for an attempt that had none. -/
theorem Inv.open {c : ChannelId} {run : ClientRun}
    (hrun : s.run.step config (.openExec c) = some run) :
    ({ s.setReader s.run.attempt ⟨c, .waiting, []⟩ with run := run } : StdinRun).Inv deterministic input := by
  obtain ⟨hno, hyes⟩ := hs.run.sent_openExec hrun
  have hsent : ∀ m, s.run.Sent m → run.Sent m := fun m hm => hm.step hs.run hrun
  have hnone : s.readers s.run.attempt = none := by
    cases hr : s.readers s.run.attempt with
    | none => rfl
    | some r => exact absurd (hs.sent _ r hr) hno
  have hother : ∀ m, (s.readers m).isSome → m ≠ s.run.attempt := by
    rintro m hm rfl
    rw [hnone] at hm
    cases hm
  refine ⟨hs.run.step hrun, hs.bytes, fun m x hx => ?_, fun e he => ?_, fun m x hx => ?_⟩
  · by_cases hm : m = s.run.attempt
    · exact hm ▸ hyes
    · exact hsent m (hs.sent m x ((update_of_ne hm ..).symm.trans hx))
  · obtain ⟨hsome, hbytes⟩ := hs.reads e he
    refine ⟨?_, hbytes⟩
    show (update s.readers s.run.attempt _ e.1).isSome
    rwa [update_of_ne (hother _ hsome)]
  · by_cases hm : m = s.run.attempt
    · subst hm
      cases (update_self ..).symm.trans hx
      refine .active [] nofun nofun rfl ?_
      have hfilter : s.reads.filter (fun e => e.1 == s.run.attempt) = [] :=
        filter_eq_nil_iff.2 fun e he => by simpa using hother _ (hs.reads e he).1
      show _ = (s.reads.filter fun e => e.1 == s.run.attempt).flatMap Prod.snd
      rw [hfilter]
      rfl
    · exact (hs.readers m x ((update_of_ne hm ..).symm.trans hx)).of_taken rfl id

theorem Inv.step (h : s.step config deterministic a = some s') : s'.Inv deterministic input := by
  cases a with
  | run a =>
    simp only [step] at h
    split_ifs at h
    obtain ⟨run, hrun, h⟩ := map_eq_some_iff.1 h
    have hinv := hs.run.step hrun
    have hsent : ∀ m, s.run.Sent m → run.Sent m := fun m hm => hm.step hs.run hrun
    split at h
    · next c =>
      cases h
      exact hs.open hrun
    · cases h
      exact { hs with
        run := hinv
        sent := fun m x hx => hsent m (hs.sent m x hx)
        readers := fun m x hx => (hs.readers m x hx).of_taken rfl id }
  | lock n =>
    simp only [step] at h
    split at h
    · next r hr _ =>
      split_ifs at h with hstage
      cases h
      refine hs.setReader hr ?_ hs.run (fun _ => id) _
      cases hs.readers n r hr with
      | failed h | done _ h => rw [hstage] at h; cases h
      | active payloads _ _ hsent hp =>
        exact .active payloads nofun nofun hsent (by simpa [hstage] using hp)
    · cases h
  | read n size =>
    simp only [step] at h
    split at h
    · next r hr =>
      split_ifs at h with hstage hnil hdet
      · cases h
        refine hs.setReader hr ?_ hs.run (fun _ => id) s.holder
        cases hs.readers n r hr with
        | failed h | done _ h => rw [hstage.1] at h; cases h
        | active payloads _ _ hsent hp =>
          exact .active payloads nofun (fun _ => hnil) hsent (by simpa [hstage.1] using hp)
      · cases h
        exact hs.read hr hstage.1 hnil (length_pos_of_ne_nil hnil) fun _ => Nat.le_refl _
      · cases h
        exact hs.read hr hstage.1 hnil hstage.2.1 fun h => absurd h hdet
    · cases h
  | readError n text =>
    simp only [step] at h
    split at h
    · next r hr =>
      split_ifs at h with hstage
      cases h
      exact hs.abort hr (by simp [hstage]) text
    · cases h
  | send n error =>
    simp only [step] at h
    split at h
    · next r hr =>
      split at h
      · next bytes hstage =>
        cases h
        refine hs.setReader hr ?_ hs.run (fun _ => id) s.holder
        cases hs.readers n r hr with
        | failed h | done _ h => rw [hstage] at h; cases h
        | active payloads _ hnil hsent hp =>
          have hdrains : r.Drains deterministic ↔ deterministic = true := by simp [Reader.Drains, hstage]
          rw [hdrains] at hnil
          simp only [held, hstage] at hp
          refine .active (payloads ++ [bytes]) ?_ (fun h => hnil ?_) (by simp [hsent]) ?_
          · cases deterministic <;> simp
          · cases deterministic <;> simp [Reader.Drains] at h ⊢
          · rw [← hp]
            cases deterministic <;> simp
      · next hstage =>
        cases h
        refine hs.setReader hr ?_ hs.run (fun _ => id) none
        cases hs.readers n r hr with
        | failed h | done _ h => rw [hstage] at h; cases h
        | active payloads _ hnil hsent hp =>
          refine .done payloads rfl (hnil (by simp [Reader.Drains, hstage])) (by simp [hsent]) ?_
          simpa [hstage] using hp
      · next hstage =>
        cases h
        exact hs.abort hr (by simp [hstage]) _
      · next hstage =>
        cases h
        exact hs.abort hr (by simp [hstage]) _
      · cases h
    · cases h

end

end StdinRun

/-- If the chosen pieces are as long as all of them, all were chosen. -/
theorem forall_of_length_flatMap_filter {β γ : Type} {p : β → Bool} {f : β → List γ} {l : List β}
    (hne : ∀ e ∈ l, f e ≠ []) (h : (l.flatMap f).length ≤ ((l.filter p).flatMap f).length) :
    ∀ e ∈ l, p e = true := by
  induction l with
  | nil => nofun
  | cons e l ih =>
    have hle : ((l.filter p).flatMap f).length ≤ (l.flatMap f).length :=
      (filter_sublist.flatMap f).length_le
    have hpos : 0 < (f e).length := length_pos_of_ne_nil (hne e mem_cons_self)
    cases hp : p e with
    | false =>
      rw [filter_cons_of_neg (by simp [hp]), flatMap_cons, length_append] at h
      omega
    | true =>
      rw [filter_cons_of_pos hp, flatMap_cons, flatMap_cons, length_append,
        length_append] at h
      intro x hx
      rcases mem_cons.1 hx with rfl | hx
      · exact hp
      · exact ih (fun y hy => hne y (mem_cons_of_mem e hy)) (by omega) x hx

open StdinRun in
/-- For every standard input, in deterministic mode or not, and every interleaving of a
    run, its readers and the owners it meets: an admitted attempt that has sent its `Eof`
    has sent exactly the whole of standard input before it if and only if no reader of an
    earlier attempt has read anything. -/
theorem stdin_whole_iff (config : RunConfig) (deterministic : Bool) (input : List UInt8)
    (as : List StdinAct) {s : StdinRun}
    (h : as.foldlM (StdinRun.step config deterministic) (.start input) = some s) {n k : ℕ} {r : Reader}
    (hopen : s.run.Opened n k) (hr : s.readers n = some r) (heof : .eof r.channelId ∈ r.sent) :
    r.Whole input ↔ ∀ e ∈ s.reads, n ≤ e.1 := by
  have hs : s.Inv deterministic input := run_inv (fun _ _ _ hs h => hs.step h) (inv_start ..) h
  cases hs.readers n r hr with
  | failed _ hno => exact absurd heof hno
  | active payloads _ _ hsent => simp [hsent] at heof
  | done payloads _ hnil hsent hp =>
    have hall : s.reads.flatMap Prod.snd = input := by
      have := hs.bytes
      rwa [hnil, append_nil] at this
    constructor
    · rintro ⟨payloads', hsent', hin⟩
      -- the payloads are what the reader has taken
      have heq : payloads' = payloads := by
        rw [hsent'] at hsent
        exact map_injective_iff.2 (fun _ _ h => by injection h) (append_cancel_right hsent)
      have htaken : s.taken n = input := by rw [← hp, ← heq, hin]
      intro e he
      have := forall_of_length_flatMap_filter (p := fun e => e.1 == n) (fun e he => (hs.reads e he).2)
        (by rw [hall, ← htaken]; exact Nat.le_refl _) e he
      exact Nat.le_of_eq (beq_iff_eq.1 this).symm
    · intro hearly
      refine ⟨payloads, hsent, hp.trans ?_⟩
      rw [← hall, taken, filter_eq_self.2]
      intro e he
      -- nobody is later than the admitted attempt
      obtain ⟨x, hx⟩ := isSome_iff_exists.1 (hs.reads e he).1
      have hle := hs.run.le_of_sent (hs.sent e.1 x hx)
      rw [← hs.run.eq_of_opened hopen] at hle
      exact beq_iff_eq.2 (Nat.le_antisymm hle (hearly e he))

/-- A command admitted at the first attempt is sent its input. -/
theorem stdin_whole_first : ∃ s r,
    [.run .begin, .run (.connect 0), .run .session, .run (.openExec 1), .run (.handle 1 (.ok ()) (.ok ())),
        .lock 1, .read 1 1, .send 1 none, .read 1 1, .send 1 none].foldlM
      (StdinRun.step ⟨true, 0, false, false⟩ false) (.start [7]) = some s ∧
    s.readers 1 = some r ∧ r.Whole [7] := by
  obtain ⟨s, hs⟩ : ∃ s, [.run .begin, .run (.connect 0), .run .session, .run (.openExec 1),
        .run (.handle 1 (.ok ()) (.ok ())), .lock 1, .read 1 1, .send 1 none, .read 1 1,
        .send 1 none].foldlM (step ⟨true, 0, false, false⟩ false) (.start [7]) = some s := ⟨_, rfl⟩
  have hstate := congrArg (Option.map fun s : StdinRun => (s.readers 1, s.run.sessions 1, s.reads)) hs
  have hstate : (s.readers 1, s.run.sessions 1, s.reads) = (some ⟨1, .ended, [.data 1 [7], .eof 1]⟩,
    some ⟨0, 1, .opened, 0⟩, [(1, [7])]) := some.inj (hstate.symm.trans rfl)
  obtain ⟨hr, hx, hreads⟩ := (Prod.mk.injEq ..).mp hstate |>.imp_right (Prod.mk.injEq ..).mp
  refine ⟨s, _, hs, hr, (stdin_whole_iff _ _ [7] _ hs (n := 1) (k := 0) ⟨_, hx, rfl, rfl⟩ hr ?_).2 ?_⟩
  · decide
  · rw [hreads]
    decide

/-- The owner that the first attempt meets is stopping. By the time the client knows, its
    reader has read the input, and the command is sent none of it. -/
theorem stdin_may_be_lost :
    ([.run .begin, .run (.connect 0), .run .session, .run (.openExec 1), .lock 1, .read 1 1, .send 1 none,
          .run (.owner 0 .shutdown), .run (.handle 1 (.ok ()) (.ok ())), .run .receive,
          .read 1 1, .send 1 (some "Broken pipe"),
          .run .begin, .run (.connect 1), .run .session, .run (.openExec 2), .run (.handle 2 (.ok ()) (.ok ())),
          .lock 2, .read 2 1, .send 2 none].foldlM
        (StdinRun.step ⟨true, 0, false, false⟩ false) (.start [7])).map
      (fun s => ((s.run.sessions 2).map (·.stage), (s.readers 2).map (·.sent))) =
    some (some .opened, some [.eof 2]) := by
  decide

end Lnx
