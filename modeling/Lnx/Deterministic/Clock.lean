import Mathlib.Data.Nat.Notation
import Mathlib.Logic.Function.Basic
import Lnx.Lib.Lines
import Lnx.Lib.Machine

/-!
# The deterministic clock's state file

The clock of a deterministic VM is a text file of `key=value` lines that two sides rewrite.
On a timer jump the vCPU thread (`update_deterministic_clock_state_file`,
`libkrun/src/vmm/src/linux/vstate.rs` lines 583–650) reads it, computes, writes a
temporary file and renames that over it. The host side
(`sync_deterministic_clock_event_sequence`, `src/runner/deterministic.rs` lines 233–252)
reads it, sets the event sequence and writes it in place: `fs::write` truncates the file
and then writes. Neither takes a lock.

* `updateDeterministicClockStateFile_content`, `parse_content`: on a file the program has
  written, the two parsers and writers compute on one state.
* `ClockDir.step`: any number of jumps and syncs in progress, each step by step, on files
  with their inodes.
* `clock_keeps_updates`: if every operation starts when no other is in progress, every
  read sees the result of all completed ones.
* `clock_loses_updates`: otherwise a read may see an empty file, and a jump may undo a sync.
-/

namespace Lnx

open List Lines

/-! ## The state and its text -/

structure ClockState where
  realtimeUnixNanos : UInt64
  monotonicNanos : UInt64
  counterFrequencyHz : UInt64
  eventSequence : UInt64
  timerJumpCount : UInt64
  lastTimerDeadlineTicks : UInt64
  deriving DecidableEq

def clockFields (st : ClockState) : Fields :=
  [("clock_state".toList, "deterministic-clock-state-v1".toList),
    ("realtime_unix_nanos".toList, showU64 st.realtimeUnixNanos),
    ("monotonic_nanos".toList, showU64 st.monotonicNanos),
    ("counter_frequency_hz".toList, showU64 st.counterFrequencyHz),
    ("event_sequence".toList, showU64 st.eventSequence),
    ("timer_jump_count".toList, showU64 st.timerJumpCount),
    ("last_timer_deadline_ticks".toList, showU64 st.lastTimerDeadlineTicks)]

def deterministicClockStateContent (st : ClockState) : Text := unfields (clockFields st)

/-! ## The host side -/

def parseClockStateU64 (fs : Fields) (key : String) : Except String UInt64 :=
  match lookupLast fs key.toList with
  | none => .error ("missing deterministic clock state field " ++ key)
  | some value =>
    match parseU64 value with
    | some n => .ok n
    | none =>
      .error ("parse deterministic clock state field " ++ key ++ "=" ++ String.ofList value)

def parseDeterministicClockState (raw : Text) : Except String ClockState := do
  -- `parse_shares_stamp`, which collects into a map
  let fs := fields raw
  match lookupLast fs "clock_state".toList with
  | some version =>
    if version = "deterministic-clock-state-v1".toList then
      return {
        realtimeUnixNanos := ← parseClockStateU64 fs "realtime_unix_nanos"
        monotonicNanos := ← parseClockStateU64 fs "monotonic_nanos"
        counterFrequencyHz := ← parseClockStateU64 fs "counter_frequency_hz"
        eventSequence := ← parseClockStateU64 fs "event_sequence"
        timerJumpCount := ← parseClockStateU64 fs "timer_jump_count"
        lastTimerDeadlineTicks := ← parseClockStateU64 fs "last_timer_deadline_ticks" }
    else throw ("unsupported deterministic clock state " ++ String.ofList version)
  | none => throw "missing deterministic clock state version"

/-- What `sync_deterministic_clock_event_sequence` writes, for the trace log's next number. -/
def syncContent (raw : Text) (nextSequence : UInt64) : Except String Text := do
  let st ← parseDeterministicClockState raw
  return deterministicClockStateContent { st with eventSequence := nextSequence }

/-! ## The vCPU thread -/

def clockStateU64 (fs : Fields) (key : String) : Option UInt64 :=
  (lookupFirst fs key.toList).bind parseU64

def ticksToNanos (ticks counterFrequencyHz : UInt64) : UInt64 :=
  if counterFrequencyHz = 0 then ticks
  else UInt64.ofNat (min (ticks.toNat * 1000000000 / counterFrequencyHz.toNat) (2 ^ 64 - 1))

def u64Max : UInt64 := 0xffffffffffffffff

/-- `saturating_add(1)` -/
def saturatingSucc (n : UInt64) : UInt64 := if n = u64Max then n else n + 1

/-- `max` -/
def maxU64 (a b : UInt64) : UInt64 := if a ≤ b then b else a

/-- The new content of the file, or the error that leaves it alone. -/
def updateDeterministicClockStateFile (raw : Text) (deadlineTicks counterFrequencyHz : UInt64) :
    Except String Text :=
  let fs := fields raw
  let recorded := (clockStateU64 fs "counter_frequency_hz").getD 0
  let pristine :=
    (clockStateU64 fs "timer_jump_count").getD 0 == 0 &&
      (clockStateU64 fs "last_timer_deadline_ticks").getD 0 == 0 &&
      (clockStateU64 fs "realtime_unix_nanos").getD 0 == 0 &&
      (clockStateU64 fs "monotonic_nanos").getD 0 == 0
  if recorded != 0 && recorded != counterFrequencyHz && !pristine then
    .error ("deterministic counter frequency mismatch: state=" ++
      String.ofList (showU64 recorded) ++ " current=" ++
      String.ofList (showU64 counterFrequencyHz))
  else
    let fs := setField "counter_frequency_hz".toList (showU64 counterFrequencyHz) fs
    let deadlineNanos := ticksToNanos deadlineTicks counterFrequencyHz
    let realtime := maxU64 ((clockStateU64 fs "realtime_unix_nanos").getD 0) deadlineNanos
    let monotonic := maxU64 ((clockStateU64 fs "monotonic_nanos").getD 0) deadlineNanos
    let fs := setField "realtime_unix_nanos".toList (showU64 realtime) fs
    let fs := setField "monotonic_nanos".toList (showU64 monotonic) fs
    let jumpCount := saturatingSucc ((clockStateU64 fs "timer_jump_count").getD 0)
    let fs := setField "timer_jump_count".toList (showU64 jumpCount) fs
    let fs := setField "last_timer_deadline_ticks".toList (showU64 deadlineTicks) fs
    .ok (unfields fs)

/-! ## What they compute on a state -/

/-- A jump is refused when the recorded frequency is another one, unless nothing has been
    recorded yet. -/
def ClockState.mismatch (st : ClockState) (hz : UInt64) : Bool :=
  st.counterFrequencyHz != 0 && st.counterFrequencyHz != hz &&
    !(st.timerJumpCount == 0 && st.lastTimerDeadlineTicks == 0 && st.realtimeUnixNanos == 0 &&
      st.monotonicNanos == 0)

def ClockState.jump (st : ClockState) (deadline hz : UInt64) : ClockState :=
  { realtimeUnixNanos := maxU64 st.realtimeUnixNanos (ticksToNanos deadline hz)
    monotonicNanos := maxU64 st.monotonicNanos (ticksToNanos deadline hz)
    counterFrequencyHz := hz
    eventSequence := st.eventSequence
    timerJumpCount := saturatingSucc st.timerJumpCount
    lastTimerDeadlineTicks := deadline }

theorem fields_content (st : ClockState) :
    fields (deterministicClockStateContent st) = clockFields st := by
  refine fields_unfields ?_
  intro f hf
  simp only [clockFields, mem_cons, not_mem_nil, or_false] at hf
  rcases hf with rfl | rfl | rfl | rfl | rfl | rfl | rfl
  · exact ⟨by decide, by decide, by decide⟩
  all_goals exact isField_showU64 (by decide) (by decide) _

theorem parse_content (st : ClockState) :
    parseDeterministicClockState (deterministicClockStateContent st) = .ok st := by
  have hkey : ∀ {key : String} {n : UInt64},
      lookupLast (clockFields st) key.toList = some (showU64 n) →
      parseClockStateU64 (clockFields st) key = .ok n := by
    intro key n h
    simp only [parseClockStateU64, h, parseU64_showU64]
  have hversion : lookupLast (clockFields st) "clock_state".toList =
      some "deterministic-clock-state-v1".toList := rfl
  simp only [parseDeterministicClockState, fields_content, hversion, if_pos]
  rw [hkey (n := st.realtimeUnixNanos) rfl, hkey (n := st.monotonicNanos) rfl,
    hkey (n := st.counterFrequencyHz) rfl, hkey (n := st.eventSequence) rfl,
    hkey (n := st.timerJumpCount) rfl, hkey (n := st.lastTimerDeadlineTicks) rfl]
  rfl

theorem syncContent_content (st : ClockState) (seq : UInt64) :
    syncContent (deterministicClockStateContent st) seq =
      .ok (deterministicClockStateContent { st with eventSequence := seq }) := by
  rw [syncContent, parse_content]
  rfl

/-- Reading a field of a written state is reading it in the state. -/
theorem clockStateU64_eq {st : ClockState} {key : String} {n : UInt64}
    (h : lookupFirst (clockFields st) key.toList = some (showU64 n)) :
    clockStateU64 (clockFields st) key = some n := by
  rw [clockStateU64, h, Option.bind_some, parseU64_showU64]

theorem clockStateU64_setField {key : Text} {key' : String} (h : key ≠ key'.toList) (value : Text)
    (fs : Fields) : clockStateU64 (setField key value fs) key' = clockStateU64 fs key' := by
  rw [clockStateU64, lookupFirst_setField h, clockStateU64]

theorem updateDeterministicClockStateFile_content (st : ClockState) (deadline hz : UInt64) :
    updateDeterministicClockStateFile (deterministicClockStateContent st) deadline hz =
      if st.mismatch hz then
        .error ("deterministic counter frequency mismatch: state=" ++
          String.ofList (showU64 st.counterFrequencyHz) ++ " current=" ++
          String.ofList (showU64 hz))
      else .ok (deterministicClockStateContent (st.jump deadline hz)) := by
  simp (disch := decide) only [updateDeterministicClockStateFile, fields_content, clockStateU64_setField]
  rw [clockStateU64_eq (n := st.counterFrequencyHz) rfl, clockStateU64_eq (n := st.timerJumpCount) rfl,
    clockStateU64_eq (n := st.lastTimerDeadlineTicks) rfl,
    clockStateU64_eq (n := st.realtimeUnixNanos) rfl, clockStateU64_eq (n := st.monotonicNanos) rfl]
  rfl

/-! ## Jumps and syncs in progress -/

/-- Where an operation in progress is. -/
inductive ClockOp
  /-- a jump that has read the file and computed, before `File::create` -/
  | create (deadline hz : UInt64) (content : Text)
  /-- before its `write_all` to the temporary file it has open -/
  | writeTmp (deadline hz : UInt64) (content : Text) (inode : ℕ)
  | rename (deadline hz : UInt64)
  /-- a sync that has read and parsed the file, before the open of `fs::write` -/
  | truncate (sequence : UInt64) (content : Text)
  /-- before the write to the file it has open -/
  | writeFile (sequence : UInt64) (content : Text) (inode : ℕ)
  deriving DecidableEq

/-- A completed operation. -/
inductive ClockDone
  | jumped (deadline hz : UInt64)
  | synced (sequence : UInt64)
  deriving DecidableEq

/-- 1 for a jump. -/
@[simp] def ClockDone.jumpCount : ClockDone → ℕ
  | jumped _ _ => 1
  | synced _ => 0

/-- The event sequence after an operation. -/
def ClockDone.sequenceAfter (last : UInt64) : ClockDone → UInt64
  | jumped _ _ => last
  | synced n => n

/-- The directory with the state file and the temporary one, and the operations. -/
structure ClockDir where
  inode : ℕ → Text
  /-- the inode at `deterministic-clock.state` -/
  path : ℕ
  /-- the inode at the temporary name -/
  tmp : Option ℕ
  /-- an inode number not in use -/
  fresh : ℕ
  ops : List ClockOp
  done : List ClockDone
  /-- what each read found, with what had been completed by then -/
  reads : List (List ClockDone × Text)

inductive ClockAct
  | startJump (deadline hz : UInt64)
  | startSync (nextSequence : UInt64)
  /-- the operation at this place takes its next step -/
  | advance (i : ℕ)

namespace ClockDir

/-- The content of the state file. -/
def file (s : ClockDir) : Text := s.inode s.path

/-- A write at the start of a file. -/
def overlay (content old : Text) : Text := content ++ old.drop content.length

/-- A read of the state file, and the operation it is the start of, if that did not fail. -/
def read (s : ClockDir) (op : Option ClockOp) : ClockDir :=
  { s with ops := s.ops ++ op.toList, reads := s.reads ++ [(s.done, s.file)] }

def opStep (s : ClockDir) (i : ℕ) : ClockOp → ClockDir
  | .create d f content =>
    let j := s.tmp.getD s.fresh
    { s with
      inode := Function.update s.inode j []
      tmp := some j
      fresh := if s.tmp.isNone then s.fresh + 1 else s.fresh
      ops := s.ops.set i (.writeTmp d f content j) }
  | .writeTmp d f content j =>
    { s with
      inode := Function.update s.inode j (overlay content (s.inode j))
      ops := s.ops.set i (.rename d f) }
  | .rename d f =>
    match s.tmp with
    | some j =>
      { s with path := j, tmp := none, ops := s.ops.eraseIdx i, done := s.done ++ [.jumped d f] }
    -- another jump has renamed the file away
    | none => { s with ops := s.ops.eraseIdx i }
  | .truncate n content =>
    { s with
      inode := Function.update s.inode s.path []
      ops := s.ops.set i (.writeFile n content s.path) }
  | .writeFile n content j =>
    { s with
      inode := Function.update s.inode j (overlay content (s.inode j))
      ops := s.ops.eraseIdx i
      done := s.done ++ [.synced n] }

def step (s : ClockDir) : ClockAct → Option ClockDir
  | .startJump d f =>
    some (s.read
      ((updateDeterministicClockStateFile s.file d f).toOption.map (.create d f)))
  | .startSync n => some (s.read ((syncContent s.file n).toOption.map (.truncate n)))
  | .advance i => s.ops[i]?.map (s.opStep i)

/-- The file as it was written, perhaps with a temporary file left from an earlier run. -/
def start (init : ClockState) (leftover : Option Text) : ClockDir where
  inode := fun i => if i = 0 then deterministicClockStateContent init else leftover.getD []
  path := 0
  tmp := leftover.map fun _ => 1
  fresh := 2
  ops := []
  done := []
  reads := []

/-! ## What is to hold -/

def jumps (done : List ClockDone) : ℕ := (done.map ClockDone.jumpCount).sum

def lastSequence (init : UInt64) (done : List ClockDone) : UInt64 :=
  done.foldl ClockDone.sequenceAfter init

/-- A state has all completed operations in it. -/
structure Reflects (init : ClockState) (done : List ClockDone) (st : ClockState) : Prop where
  count : st.timerJumpCount.toNat = init.timerJumpCount.toNat + jumps done
  sequence : st.eventSequence = lastSequence init.eventSequence done
  deadlines : ∀ d f, .jumped d f ∈ done →
    ticksToNanos d f ≤ st.realtimeUnixNanos ∧ ticksToNanos d f ≤ st.monotonicNanos

/-- What was read is a complete state with all completed operations in it. -/
def Sees (init : ClockState) (r : List ClockDone × Text) : Prop :=
  ∃ st, parseDeterministicClockState r.2 = .ok st ∧ Reflects init r.1 st

/-- The clocks of two reads, the second after the first. -/
def NotBack (r r' : List ClockDone × Text) : Prop :=
  ∀ st st', parseDeterministicClockState r.2 = .ok st →
    parseDeterministicClockState r'.2 = .ok st' →
    st.realtimeUnixNanos ≤ st'.realtimeUnixNanos ∧ st.monotonicNanos ≤ st'.monotonicNanos

/-- What has been read so far, and what a read would find when nothing is in progress. -/
def seen (init : ClockState) (s : ClockDir) : List (List ClockDone × Text) :=
  ([], deterministicClockStateContent init) ::
    (s.reads ++ if s.ops = [] then [(s.done, s.file)] else [])

/-- No update is lost. -/
structure KeepsUpdates (init : ClockState) (s : ClockDir) : Prop where
  complete : ∀ r ∈ s.seen init, Sees init r
  forward : (s.seen init).Pairwise NotBack

/-- An operation starts while another is in progress, or a jump when the counter is at its
    largest value. Two races come of it: `jumpReadsTruncated` and `jumpUndoesSync`. -/
def Overlaps (s : ClockDir) : ClockAct → Prop
  | .startJump _ _ =>
    s.ops ≠ [] ∨ clockStateU64 (fields s.file) "timer_jump_count" = some u64Max
  | .startSync _ => s.ops ≠ []
  | .advance _ => False

instance (s : ClockDir) : (a : ClockAct) → Decidable (Overlaps s a)
  | .startJump _ _ => inferInstanceAs (Decidable (_ ≠ _ ∨ _ = _))
  | .startSync _ => inferInstanceAs (Decidable (_ ≠ _))
  | .advance _ => inferInstanceAs (Decidable False)

/-! ## One operation at a time -/

theorem le_maxU64_left (a b : UInt64) : a ≤ maxU64 a b := by
  unfold maxU64
  split
  · assumption
  · exact UInt64.le_refl a

theorem le_maxU64_right (a b : UInt64) : b ≤ maxU64 a b := by
  unfold maxU64
  split
  · exact UInt64.le_refl b
  · next h => exact UInt64.le_of_lt (UInt64.not_le.1 h)

theorem toNat_saturatingSucc {n : UInt64} (h : n ≠ u64Max) :
    (saturatingSucc n).toNat = n.toNat + 1 := by
  have hlt : n.toNat < 2 ^ 64 - 1 := by
    have hle := n.toNat_lt
    have hne : n.toNat ≠ 2 ^ 64 - 1 := fun he => h (UInt64.toNat_inj.1 (he.trans rfl))
    omega
  rw [saturatingSucc, if_neg h, UInt64.toNat_add]
  have hone : (1 : UInt64).toNat = 1 := rfl
  omega

theorem reflects_start (init : ClockState) : Reflects init [] init where
  count := rfl
  sequence := rfl
  deadlines := by
    intro d f h
    cases h

variable {init st st' : ClockState} {done : List ClockDone} {reads : List (List ClockDone × Text)}

theorem Reflects.jump (h : Reflects init done st) (hmax : st.timerJumpCount ≠ u64Max) (d f : UInt64) :
    Reflects init (done ++ [.jumped d f]) (st.jump d f) where
  count := by
    have hsum : jumps (done ++ [.jumped d f]) = jumps done + 1 := by
      simp [jumps]
    rw [ClockState.jump, toNat_saturatingSucc hmax, h.count, hsum, Nat.add_assoc]
  sequence := by
    rw [lastSequence, foldl_append]
    exact h.sequence
  deadlines := by
    intro d' f' hmem
    rcases mem_append.1 hmem with hmem | hmem
    · obtain ⟨h₁, h₂⟩ := h.deadlines d' f' hmem
      exact ⟨UInt64.le_trans h₁ (le_maxU64_left _ _), UInt64.le_trans h₂ (le_maxU64_left _ _)⟩
    · cases mem_singleton.1 hmem
      exact ⟨le_maxU64_right _ _, le_maxU64_right _ _⟩

theorem Reflects.sync (h : Reflects init done st) (n : UInt64) :
    Reflects init (done ++ [.synced n]) { st with eventSequence := n } where
  count := by
    have hsum : jumps (done ++ [.synced n]) = jumps done := by
      simp [jumps]
    rw [hsum]
    exact h.count
  sequence := by
    rw [lastSequence, foldl_append]
    rfl
  deadlines := by
    intro d f hmem
    rcases mem_append.1 hmem with hmem | hmem
    · exact h.deadlines d f hmem
    · cases mem_singleton.1 hmem

/-- Where the one operation in progress is, if the file's last complete state is `st`. -/
inductive Phase (s : ClockDir) (st : ClockState) : List ClockOp → Prop
  | idle (file : s.file = deterministicClockStateContent st) : Phase s st []
  | create {d f : UInt64} {content : Text} (file : s.file = deterministicClockStateContent st)
      (max : st.timerJumpCount ≠ u64Max)
      (content_eq : content = deterministicClockStateContent (st.jump d f)) :
      Phase s st [.create d f content]
  | writeTmp {d f : UInt64} {content : Text} {j : ℕ} (tmp : s.tmp = some j)
      (empty : s.inode j = []) (max : st.timerJumpCount ≠ u64Max)
      (content_eq : content = deterministicClockStateContent (st.jump d f)) :
      Phase s st [.writeTmp d f content j]
  | rename {d f : UInt64} {j : ℕ} (tmp : s.tmp = some j) (max : st.timerJumpCount ≠ u64Max)
      (written : s.inode j = deterministicClockStateContent (st.jump d f)) :
      Phase s st [.rename d f]
  | truncate {n : UInt64} {content : Text}
      (content_eq : content = deterministicClockStateContent { st with eventSequence := n }) :
      Phase s st [.truncate n content]
  | writeFile {n : UInt64} {content : Text} {j : ℕ} (path : j = s.path) (empty : s.inode j = [])
      (content_eq : content = deterministicClockStateContent { st with eventSequence := n }) :
      Phase s st [.writeFile n content j]

/-- The clocks of one state are not before those of another. -/
def After (st st' : ClockState) : Prop :=
  st.realtimeUnixNanos ≤ st'.realtimeUnixNanos ∧ st.monotonicNanos ≤ st'.monotonicNanos

theorem After.refl (st : ClockState) : After st st :=
  ⟨UInt64.le_refl _, UInt64.le_refl _⟩

theorem After.trans {a b c : ClockState} (h : After a b) (h' : After b c) : After a c :=
  ⟨UInt64.le_trans h.1 h'.1, UInt64.le_trans h.2 h'.2⟩

theorem After.jump (st : ClockState) (d f : UInt64) : After st (st.jump d f) :=
  ⟨le_maxU64_left _ _, le_maxU64_left _ _⟩

/-- What has been read are states, none after the file's last complete one. -/
structure Recorded (init : ClockState) (st : ClockState)
    (reads : List (List ClockDone × Text)) : Prop where
  complete : ∀ r ∈ reads, ∃ st', r.2 = deterministicClockStateContent st' ∧
    Reflects init r.1 st' ∧ After init st' ∧ After st' st
  forward : reads.Pairwise NotBack

structure Exclusive (init : ClockState) (s : ClockDir) (st : ClockState) : Prop where
  reflects : Reflects init s.done st
  after : After init st
  phase : Phase s st s.ops
  tmp : ∀ j ∈ s.tmp, j ≠ s.path ∧ j < s.fresh
  path : s.path < s.fresh
  recorded : Recorded init st s.reads

theorem notBack_of_after {r r' : List ClockDone × Text}
    (hr : r.2 = deterministicClockStateContent st) (hr' : r'.2 = deterministicClockStateContent st')
    (h : After st st') : NotBack r r' := by
  intro a b ha hb
  rw [hr, parse_content] at ha
  rw [hr', parse_content] at hb
  cases ha
  cases hb
  exact h

variable {init st : ClockState} {s s' : ClockDir} {a : ClockAct}

/-- One more read of the last complete state. -/
theorem Recorded.read (h : Recorded init st reads) (hd : Reflects init done st) (ha : After init st)
    {raw : Text} (hraw : raw = deterministicClockStateContent st) :
    Recorded init st (reads ++ [(done, raw)]) where
  complete := by
    intro r hr
    rcases mem_append.1 hr with hr | hr
    · exact h.complete r hr
    · rw [mem_singleton.1 hr]
      exact ⟨st, hraw, hd, ha, After.refl st⟩
  forward := by
    rw [pairwise_append]
    refine ⟨h.forward, pairwise_singleton _ _, ?_⟩
    intro r hr r' hr'
    obtain ⟨st', hst', -, -, hafter⟩ := h.complete r hr
    rw [mem_singleton.1 hr']
    exact notBack_of_after hst' hraw hafter

theorem Recorded.mono (h : Recorded init st reads) (ha : After st st') :
    Recorded init st' reads where
  complete := by
    intro r hr
    obtain ⟨x, hx, hr, hi, hafter⟩ := h.complete r hr
    exact ⟨x, hx, hr, hi, hafter.trans ha⟩
  forward := h.forward

theorem exclusive_start (init : ClockState) (leftover : Option Text) :
    Exclusive init (start init leftover) init where
  reflects := reflects_start init
  after := After.refl init
  phase := .idle rfl
  tmp := by
    intro j hj
    cases leftover with
    | none => cases hj
    | some t =>
      cases hj
      exact ⟨Nat.one_ne_zero, Nat.one_lt_two⟩
  path := Nat.zero_lt_two
  recorded := ⟨by simp [start], .nil⟩

theorem Exclusive.file_eq (h : Exclusive init s st) (hidle : s.ops = []) :
    s.file = deterministicClockStateContent st := by
  have hphase := h.phase
  rw [hidle] at hphase
  cases hphase with
  | idle file => exact file

/-- A read when nothing is in progress. -/
theorem Exclusive.read (h : Exclusive init s st) (hidle : s.ops = []) {op : Option ClockOp}
    (hop : ∀ o ∈ op, Phase s st [o]) : Exclusive init (s.read op) st := by
  have hfile := h.file_eq hidle
  refine ⟨h.reflects, h.after, ?_, h.tmp, h.path, h.recorded.read h.reflects h.after hfile⟩
  cases op with
  | none =>
    rw [ClockDir.read, hidle]
    exact .idle hfile
  | some o =>
    have ho := hop o rfl
    simp only [ClockDir.read, hidle, Option.toList_some, nil_append]
    cases ho with
    | create file max heq => exact .create file max heq
    | writeTmp tmp empty max heq => exact .writeTmp tmp empty max heq
    | rename tmp max written => exact .rename tmp max written
    | truncate heq => exact .truncate heq
    | writeFile path empty heq => exact .writeFile path empty heq

theorem overlay_nil (content : Text) : overlay content [] = content := by
  simp [overlay]

theorem Phase.single {ops : List ClockOp} (h : Phase s st ops) {i : ℕ} {op : ClockOp}
    (hop : ops[i]? = some op) : ops = [op] ∧ i = 0 := by
  have hone : ∀ o, ops = [o] → ops = [op] ∧ i = 0 := by
    rintro o rfl
    cases i with
    | zero =>
      cases hop
      exact ⟨rfl, rfl⟩
    | succ i => cases hop
  cases h with
  | idle => cases hop
  | create | writeTmp | rename | truncate | writeFile => exact hone _ rfl

/-- One step of the one operation in progress. -/
theorem Exclusive.opStep (h : Exclusive init s st) {i : ℕ} {op : ClockOp}
    (hop : s.ops[i]? = some op) : ∃ st', Exclusive init (s.opStep i op) st' := by
  obtain ⟨hops, rfl⟩ := h.phase.single hop
  have hphase := h.phase
  rw [hops] at hphase
  cases hphase with
  | @create d f content _ hmax heq =>
    -- the temporary file is a left-over one or a new one, never the state file
    have hj : s.tmp.getD s.fresh ≠ s.path ∧
        s.tmp.getD s.fresh < (if s.tmp.isNone then s.fresh + 1 else s.fresh) ∧
        s.path < (if s.tmp.isNone then s.fresh + 1 else s.fresh) := by
      have hpath := h.path
      cases htmp : s.tmp with
      | none => exact ⟨by simp; omega, by simp, by simp; omega⟩
      | some j =>
        have hj := h.tmp j htmp
        exact ⟨hj.1, by simpa using hj.2, by simpa using hpath⟩
    refine ⟨st, h.reflects, h.after, ?_, ?_, hj.2.2, h.recorded⟩
    · simp only [ClockDir.opStep, hops, set_cons_zero]
      exact .writeTmp rfl (Function.update_self _ _ _) hmax heq
    · intro j hj'
      cases hj'
      exact ⟨hj.1, hj.2.1⟩
  | @writeTmp d f content j htmp hempty hmax heq =>
    refine ⟨st, h.reflects, h.after, ?_, h.tmp, h.path, h.recorded⟩
    simp only [ClockDir.opStep, hops, set_cons_zero]
    refine .rename htmp hmax ?_
    simp only [Function.update_self, hempty, overlay_nil, heq]
  | @rename d f j htmp hmax hwritten =>
    have hj := h.tmp j htmp
    refine ⟨st.jump d f, ?_⟩
    simp only [ClockDir.opStep, htmp, hops, eraseIdx_cons_zero]
    refine ⟨h.reflects.jump hmax d f, h.after.trans (.jump st d f), .idle hwritten, ?_, hj.2,
      h.recorded.mono (.jump st d f)⟩
    intro k hk
    cases hk
  | @truncate n content heq =>
    refine ⟨st, h.reflects, h.after, ?_, h.tmp, h.path, h.recorded⟩
    simp only [ClockDir.opStep, hops, set_cons_zero]
    exact .writeFile rfl (Function.update_self _ _ _) heq
  | @writeFile n content j hpath hempty heq =>
    refine ⟨{ st with eventSequence := n }, ?_⟩
    simp only [ClockDir.opStep, hops, eraseIdx_cons_zero]
    refine ⟨h.reflects.sync n, h.after, .idle ?_, h.tmp, h.path, h.recorded.mono (After.refl st)⟩
    subst hpath
    simp only [ClockDir.file, Function.update_self, hempty, overlay_nil, heq]

/-- One step that does not overlap. -/
theorem Exclusive.step (h : Exclusive init s st) (hno : ¬ Overlaps s a)
    (hs : s.step a = some s') : ∃ st', Exclusive init s' st' := by
  cases a with
  | startJump d f =>
    cases hs
    have hidle : s.ops = [] := by
      by_contra hne
      exact hno (.inl hne)
    have hfile := h.file_eq hidle
    have hmax : st.timerJumpCount ≠ u64Max := by
      intro hmax
      refine hno (.inr ?_)
      rw [hfile, fields_content, clockStateU64_eq (n := st.timerJumpCount) rfl, hmax]
    refine ⟨st, h.read hidle ?_⟩
    intro o ho
    rw [hfile, updateDeterministicClockStateFile_content] at ho
    split at ho
    · cases ho
    · cases ho
      exact .create hfile hmax rfl
  | startSync n =>
    cases hs
    have hidle : s.ops = [] := by
      by_contra hne
      exact hno hne
    refine ⟨st, h.read hidle ?_⟩
    intro o ho
    rw [h.file_eq hidle, syncContent_content] at ho
    cases ho
    exact .truncate rfl
  | advance i =>
    obtain ⟨op, hop, rfl⟩ := Option.map_eq_some_iff.1 hs
    exact h.opStep hop

theorem Exclusive.keepsUpdates (h : Exclusive init s st) : KeepsUpdates init s := by
  -- the first read is that of the initial file
  have hrec : Recorded init st (([], deterministicClockStateContent init) :: s.reads) := by
    refine ⟨?_, pairwise_cons.2 ⟨?_, h.recorded.forward⟩⟩
    · intro r hr
      rcases mem_cons.1 hr with rfl | hr
      · exact ⟨init, rfl, reflects_start init, After.refl init, h.after⟩
      · exact h.recorded.complete r hr
    · intro r hr
      obtain ⟨st', hst', -, hinit, -⟩ := h.recorded.complete r hr
      exact notBack_of_after rfl hst' hinit
  have hseen : Recorded init st (s.seen init) := by
    by_cases hidle : s.ops = []
    · rw [seen, if_pos hidle, ← cons_append]
      exact hrec.read h.reflects h.after (h.file_eq hidle)
    · rw [seen, if_neg hidle, append_nil]
      exact hrec
  refine ⟨?_, hseen.forward⟩
  intro r hr
  obtain ⟨st', hst', hrefl, -, -⟩ := hseen.complete r hr
  exact ⟨st', by rw [hst', parse_content], hrefl⟩

end ClockDir

open ClockDir in
/-- Jumps and syncs of which none starts while another is in progress, and no jump when the
    counter is at its largest value: every read, and the file whenever nothing is in progress,
    is a complete state with the number of completed jumps, the last completed sync's sequence
    and clocks at or after every completed deadline, and the clocks never go back. -/
theorem clock_keeps_updates (init : ClockState) (leftover : Option Text) {as : List ClockAct}
    (h : Avoids ClockDir.step Overlaps (start init leftover) as) :
    Along ClockDir.step (KeepsUpdates init) (start init leftover) as := by
  have hall : Along ClockDir.step (fun s => ∃ st, Exclusive init s st) (start init leftover) as :=
    along_of_avoids (fun s a s' hs hno hstep => hs.elim fun st hst => hst.step hno hstep)
      ⟨init, exclusive_start init leftover⟩ h
  exact hall.mono fun s hs => hs.elim fun st hst => hst.keepsUpdates

/-- The state a new VM starts with, `initial_deterministic_clock_state`. -/
def initialDeterministicClockState : ClockState := ⟨0, 0, 1000000000, 0, 0, 0⟩

/-- A jump, then a sync. -/
def jumpThenSync : List ClockAct :=
  [.startJump 5 1000000000, .advance 0, .advance 0, .advance 0, .startSync 9, .advance 0,
    .advance 0]

open ClockDir in
theorem clock_keeps_jump_and_sync :
    Along ClockDir.step (KeepsUpdates initialDeterministicClockState)
      (start initialDeterministicClockState none) jumpThenSync :=
  clock_keeps_updates _ none (by decide +kernel)

/-- A jump reads the file while a sync has truncated it. -/
def jumpReadsTruncated : List ClockAct := [.startSync 9, .advance 0, .startJump 5 1000000000]

/-- A sync comes between the read and the rename of a jump. -/
def jumpUndoesSync : List ClockAct :=
  [.startJump 5 1000000000, .startSync 9, .advance 1, .advance 1, .advance 0, .advance 0,
    .advance 0]

open ClockDir in
/-- In the first run a read sees an empty file, in the second the sync is undone. -/
theorem clock_loses_updates :
    ¬ Along ClockDir.step (KeepsUpdates initialDeterministicClockState)
        (start initialDeterministicClockState none) jumpReadsTruncated ∧
      ¬ Along ClockDir.step (KeepsUpdates initialDeterministicClockState)
        (start initialDeterministicClockState none) jumpUndoesSync := by
  constructor
  · intro h
    have hread : (jumpReadsTruncated.foldlM ClockDir.step
        (start initialDeterministicClockState none)).any
          (fun s => decide (([], []) ∈ s.reads)) = true := by
      decide +kernel
    obtain ⟨s, hrun, hmem⟩ := (Option.any_eq_true _ _).1 hread
    have hmem' : ([], []) ∈ s.seen initialDeterministicClockState :=
      mem_cons_of_mem _ (mem_append_left _ (of_decide_eq_true hmem))
    obtain ⟨st, hparse, -⟩ := (h.last hrun).complete _ hmem'
    cases hparse
  · intro h
    have hfile : (jumpUndoesSync.foldlM ClockDir.step
        (start initialDeterministicClockState none)).any
          (fun s => decide (s.ops = [] ∧ s.done = [.synced 9, .jumped 5 1000000000] ∧
            s.file = deterministicClockStateContent
              (initialDeterministicClockState.jump 5 1000000000))) = true := by
      decide +kernel
    obtain ⟨s, hrun, hend⟩ := (Option.any_eq_true _ _).1 hfile
    obtain ⟨hidle, hdone, hcontent⟩ := of_decide_eq_true hend
    have hmem : (s.done, s.file) ∈ s.seen initialDeterministicClockState := by
      rw [seen, if_pos hidle]
      exact mem_cons_of_mem _ (mem_append_right _ mem_cons_self)
    obtain ⟨st, hparse, hrefl⟩ := (h.last hrun).complete _ hmem
    rw [hcontent, parse_content] at hparse
    have hsequence : (initialDeterministicClockState.jump 5 1000000000).eventSequence =
        lastSequence initialDeterministicClockState.eventSequence
          [.synced 9, .jumped 5 1000000000] := by
      rw [Except.ok.inj hparse, ← hdone]
      exact hrefl.sequence
    exact absurd hsequence (by decide)

end Lnx
