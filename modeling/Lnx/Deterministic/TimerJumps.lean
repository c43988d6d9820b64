import Lnx.Deterministic.Clock
import Lnx.Lib.Strings
import Mathlib.Algebra.Ring.Int.Defs

/-!
# Timer jumps in the trace

The vCPU thread appends a line to a log for every timer jump
(`append_deterministic_timer_jump`, `libkrun/src/vmm/src/linux/vstate.rs` lines 668–687). The
owner of the instance copies new lines to its trace (`import_deterministic_timer_jumps`,
`src/runner/deterministic.rs` lines 254–306): a cursor file keeps how many bytes were copied.
Both files stay from run to run, and a run without a trace does not move the cursor.

* `JumpsKept.import_eq`: what is behind the cursor is copied, and nothing is left.
* `traced_once_iff`: every traced run has exactly its own jumps in its trace if and only if no
  run without a trace left jumps before it, and no number needs the sign bit of an `i64`.

The log holds less than `2^63` bytes: a line that does not fit is not appended.
-/

namespace Lnx

open Option List Lines
open Strings (isWhitespace trim)

/-! ## The log -/

structure TimerJump where
  deadlineTicks : UInt64
  counterFrequencyHz : UInt64
  deriving DecidableEq

open TimerJump

namespace TimerJump

def deadlineNanos (j : TimerJump) : UInt64 := ticksToNanos j.deadlineTicks j.counterFrequencyHz

def line (j : TimerJump) : Text :=
  fieldLine ("deadline_ticks".toList, showU64 j.deadlineTicks) ++ ' ' ::
    (fieldLine ("counter_frequency_hz".toList, showU64 j.counterFrequencyHz) ++ ' ' ::
      fieldLine ("deadline_nanos".toList, showU64 j.deadlineNanos))

end TimerJump

/-- The files of an instance directory. -/
structure JumpDir where
  jumps : Option Text
  cursor : Option Text

/-- The log with a new line, if it fits; the jumps that were recorded. -/
def appendDeterministicTimerJump (s : JumpDir) (j : TimerJump) : List TimerJump × JumpDir :=
  let raw := s.jumps.getD [] ++ (j.line ++ ['\n'])
  if raw.length < 2 ^ 63 then ([j], { s with jumps := some raw }) else ([], s)

/-! ## The trace -/

/-- A `timer_jump` event. -/
structure JumpEvent where
  deadlineTicks : ℤ
  counterFrequencyHz : ℤ
  deadlineNanos : ℤ
  deriving DecidableEq

/-- `n as i64` -/
def asI64 (n : UInt64) : ℤ := if n.toNat < 2 ^ 63 then n.toNat else n.toNat - 2 ^ 64

/-- `split_whitespace` -/
def splitWhitespace (l : Text) : List Text := (l.splitOnP isWhitespace).filter fun w => !w.isEmpty

def parseTimerJumpLine (l : Text) : List (Text × UInt64) :=
  (splitWhitespace l).filterMap fun part =>
    (splitOnce '=' part).bind fun f => (parseU64 f.2).map fun n => (f.1, n)

/-- A key of the map that the fields are collected in. -/
def jumpField (fs : List (Text × UInt64)) (key : String) : Option UInt64 :=
  (fs.reverse.find? fun f => f.1 == key.toList).map Prod.snd

def jumpEvent (l : Text) : Option JumpEvent :=
  let fs := parseTimerJumpLine l
  match jumpField fs "deadline_ticks", jumpField fs "counter_frequency_hz",
    jumpField fs "deadline_nanos" with
  | some ticks, some hz, some nanos => some ⟨asI64 ticks, asI64 hz, asI64 nanos⟩
  | _, _, _ => none

/-- The number in the cursor file. -/
def JumpDir.position (s : JumpDir) : ℕ :=
  ((s.cursor.bind fun raw => parseU64 (trim raw)).getD 0).toNat

/-- `import_deterministic_timer_jumps` with a trace. -/
def importDeterministicTimerJumps (s : JumpDir) : List JumpEvent × JumpDir :=
  match s.jumps with
  | none => ([], s)
  | some raw =>
    let start := min s.position raw.length
    let new := lines (raw.drop start)
    let consumed := new.foldl (fun c l => min (c + (l.length + 1)) (2 ^ 64 - 1)) start
    (new.filterMap jumpEvent, { s with cursor := some (showU64 (UInt64.ofNat consumed)) })

/-! ## Runs -/

inductive JumpOp
  | append (j : TimerJump)
  | flush
  deriving DecidableEq

/-- What was traced and recorded, and the files. -/
structure Traced where
  events : List JumpEvent
  recorded : List TimerJump
  dir : JumpDir

def JumpOp.apply (tracing : Bool) (s : JumpDir) : JumpOp → Traced
  | .append j =>
    let r := appendDeterministicTimerJump s j
    ⟨[], r.1, r.2⟩
  | .flush =>
    if tracing then
      let r := importDeterministicTimerJumps s
      ⟨r.1, [], r.2⟩
    else ⟨[], [], s⟩

def runJumpOps (tracing : Bool) : JumpDir → List JumpOp → Traced
  | s, [] => ⟨[], [], s⟩
  | s, op :: ops =>
    let r := op.apply tracing s
    let rest := runJumpOps tracing r.dir ops
    ⟨r.events ++ rest.events, r.recorded ++ rest.recorded, rest.dir⟩

/-- An owner's run, which imports once more at its end. -/
structure OwnerRun where
  tracing : Bool
  ops : List JumpOp

def OwnerRun.run (r : OwnerRun) (s : JumpDir) : Traced := runJumpOps r.tracing s (r.ops ++ [.flush])

/-- The event with the recorded numbers. -/
def TimerJump.exact (j : TimerJump) : JumpEvent :=
  ⟨j.deadlineTicks.toNat, j.counterFrequencyHz.toNat, j.deadlineNanos.toNat⟩

/-- Every traced run has the jumps of that run in its trace, each once and in order. -/
def TracedOnce : JumpDir → List OwnerRun → Prop
  | _, [] => True
  | s, r :: rs =>
    (r.tracing = true → (r.run s).events = (r.run s).recorded.map TimerJump.exact) ∧
      TracedOnce (r.run s).dir rs

/-- The numbers are not negative as `i64`. -/
def TimerJump.Fits (j : TimerJump) : Prop :=
  j.deadlineTicks.toNat < 2 ^ 63 ∧ j.counterFrequencyHz.toNat < 2 ^ 63 ∧ j.deadlineNanos.toNat < 2 ^ 63

/-- No traced run finds jumps of runs before it, where `left` says that there are some. -/
def NoneLeft : Bool → JumpDir → List OwnerRun → Prop
  | _, _, [] => True
  | left, s, r :: rs =>
    if r.tracing then left = false ∧ (∀ j ∈ (r.run s).recorded, j.Fits) ∧ NoneLeft false (r.run s).dir rs
    else NoneLeft (left || !(r.run s).recorded.isEmpty) (r.run s).dir rs

/-! ## Lines of the log -/

theorem isWhitespace_of_isDigit {c : Char} (h : c.isDigit = true) : isWhitespace c = false := by
  change (decide (48 ≤ c.val) && decide (c.val ≤ 57)) = true at h
  rw [Bool.and_eq_true, decide_eq_true_eq, decide_eq_true_eq] at h
  have hrange : 48 ≤ c.toNat ∧ c.toNat ≤ 57 := h
  simp only [isWhitespace, Bool.or_eq_false_iff, Bool.and_eq_false_iff, decide_eq_false_iff_not,
    beq_eq_false_iff_ne]
  omega

/-- A field of the line is one word. -/
theorem not_isWhitespace_fieldLine {key : Text} (hkey : ∀ c ∈ key, isWhitespace c = false) (n : UInt64) :
    ∀ c ∈ fieldLine (key, showU64 n), isWhitespace c = false := by
  intro c hc
  rw [fieldLine, mem_append, mem_cons] at hc
  rcases hc with hc | rfl | hc
  · exact hkey c hc
  · decide
  · exact isWhitespace_of_isDigit (isDigit_of_mem_showU64 hc)

theorem splitWhitespace_line (j : TimerJump) : splitWhitespace j.line =
    [fieldLine ("deadline_ticks".toList, showU64 j.deadlineTicks),
      fieldLine ("counter_frequency_hz".toList, showU64 j.counterFrequencyHz),
      fieldLine ("deadline_nanos".toList, showU64 j.deadlineNanos)] := by
  have hword {key : Text} (hkey : ∀ c ∈ key, isWhitespace c = false) :=
    not_isWhitespace_fieldLine hkey
  rw [splitWhitespace, line,
    splitOnP_append_cons_of_forall_mem (hword (all_iff_forall_prop.1 (by decide)) _) ' ' (by decide),
    splitOnP_append_cons_of_forall_mem (hword (all_iff_forall_prop.1 (by decide)) _) ' ' (by decide),
    splitOnP_eq_singleton (hword (all_iff_forall_prop.1 (by decide)) _)]
  simp [fieldLine]

/-- The event of a line. -/
def TimerJump.event (j : TimerJump) : JumpEvent :=
  ⟨asI64 j.deadlineTicks, asI64 j.counterFrequencyHz, asI64 j.deadlineNanos⟩

theorem jumpEvent_line (j : TimerJump) : jumpEvent j.line = some j.event := by
  have hparse : parseTimerJumpLine j.line = [("deadline_ticks".toList, j.deadlineTicks),
      ("counter_frequency_hz".toList, j.counterFrequencyHz), ("deadline_nanos".toList, j.deadlineNanos)] := by
    rw [parseTimerJumpLine, splitWhitespace_line]
    simp only [filterMap_cons, filterMap_nil, fieldLine]
    rw [splitOnce_append (by decide), splitOnce_append (by decide), splitOnce_append (by decide)]
    simp only [bind_some, parseU64_showU64, map_some]
  rw [jumpEvent, hparse]
  rfl

theorem isLine_line (j : TimerJump) : IsLine j.line := by
  have hfield {key : Text} (hkey : '=' ∉ key) (hline : '\n' ∉ key) (n : UInt64) :=
    (isField_showU64 hkey hline n).line
  have hlast : IsLine (fieldLine ("deadline_nanos".toList, showU64 j.deadlineNanos)) :=
    hfield (by decide) (by decide) _
  refine ⟨?_, ?_⟩
  · simp only [line, mem_append, mem_cons, not_or]
    exact ⟨(hfield (by decide) (by decide) _).1, by decide, (hfield (by decide) (by decide) _).1,
      by decide, hlast.1⟩
  · have hsplit : j.line = (fieldLine ("deadline_ticks".toList, showU64 j.deadlineTicks) ++ ' ' ::
        (fieldLine ("counter_frequency_hz".toList, showU64 j.counterFrequencyHz) ++ [' '])) ++
        fieldLine ("deadline_nanos".toList, showU64 j.deadlineNanos) := by
      simp [line]
    rw [hsplit, List.getLast?_append_of_ne_nil _ (by simp [fieldLine])]
    exact hlast.2

/-! ## What is behind the cursor -/

/-- The log of jumps. -/
def logOf (js : List TimerJump) : Text := unlines (js.map TimerJump.line)

theorem logOf_append (js js' : List TimerJump) : logOf (js ++ js') = logOf js ++ logOf js' := by
  simp [logOf, unlines]

theorem logOf_eq_nil {js : List TimerJump} (h : logOf js = []) : js = [] := by
  cases js with
  | nil => rfl
  | cons j js => simp [logOf, unlines] at h

/-- The files after `done` was imported and `left` was not. -/
structure JumpsKept (s : JumpDir) (done left : List TimerJump) : Prop where
  log : s.jumps.getD [] = logOf (done ++ left)
  fits : (logOf (done ++ left)).length < 2 ^ 63
  position : s.position = (logOf done).length

theorem jumpsKept_start : JumpsKept ⟨none, none⟩ [] [] := ⟨rfl, by decide, rfl⟩

variable {s : JumpDir} {done left : List TimerJump}

theorem JumpsKept.append (h : JumpsKept s done left) (j : TimerJump) :
    JumpsKept (appendDeterministicTimerJump s j).2 done (left ++ (appendDeterministicTimerJump s j).1) := by
  have hlog : s.jumps.getD [] ++ (j.line ++ ['\n']) = logOf (done ++ (left ++ [j])) := by
    rw [h.log, ← append_assoc done, logOf_append (done ++ left) [j]]
    simp [logOf, unlines]
  rw [appendDeterministicTimerJump]
  split_ifs with hfit
  · exact ⟨hlog, hlog ▸ hfit, h.position⟩
  · rwa [append_nil]

theorem trim_showU64 (n : UInt64) : trim (showU64 n) = showU64 n := by
  have hnot : ∀ c ∈ showU64 n, ¬ isWhitespace c = true := by
    intro c hc
    rw [isWhitespace_of_isDigit (isDigit_of_mem_showU64 hc)]
    decide
  rw [trim, rdropWhile_eq_self_iff.2 fun hne => hnot _ (getLast_mem hne)]
  exact dropWhile_eq_self_iff.2 fun hne => hnot _ (getElem_mem hne)

theorem consumed_eq {start : ℕ} {ls : List Text} (h : start + (unlines ls).length < 2 ^ 64) :
    ls.foldl (fun c l => min (c + (l.length + 1)) (2 ^ 64 - 1)) start = start + (unlines ls).length := by
  induction ls generalizing start with
  | nil => rfl
  | cons l ls ih =>
    have hlen : (unlines (l :: ls)).length = l.length + 1 + (unlines ls).length := by
      rw [unlines, flatMap_cons, length_append, length_append]
      rfl
    rw [foldl_cons, Nat.min_eq_left (by omega), ih (by omega)]
    omega

theorem position_of_cursor {n : ℕ} (h : n < 2 ^ 64) (jumps : Option Text) :
    JumpDir.position ⟨jumps, some (showU64 (UInt64.ofNat n))⟩ = n := by
  rw [JumpDir.position, bind_some, trim_showU64, parseU64_showU64]
  exact UInt64.toNat_ofNat_of_lt' h

/-- What is behind the cursor is imported, and nothing is left. -/
theorem JumpsKept.import_eq (h : JumpsKept s done left) :
    (importDeterministicTimerJumps s).1 = left.map TimerJump.event ∧
      JumpsKept (importDeterministicTimerJumps s).2 (done ++ left) [] := by
  have hlog := h.log
  rw [importDeterministicTimerJumps]
  cases hjumps : s.jumps with
  | none =>
    rw [hjumps] at hlog
    obtain ⟨rfl, rfl⟩ := append_eq_nil_iff.1 (logOf_eq_nil hlog.symm)
    exact ⟨rfl, h⟩
  | some raw =>
    rw [hjumps, getD_some] at hlog
    have hsplit : raw = logOf done ++ logOf left := hlog.trans (logOf_append _ _)
    have hlen : raw.length = (logOf done).length + (logOf left).length := by
      rw [hsplit, length_append]
    have hfits : raw.length < 2 ^ 63 := hlog ▸ h.fits
    have hstart : min s.position raw.length = (logOf done).length := by
      rw [h.position]
      omega
    have hnew : lines (raw.drop (logOf done).length) = left.map line := by
      rw [hsplit, drop_left, logOf, lines_unlines]
      intro l hl
      obtain ⟨j, -, rfl⟩ := mem_map.1 hl
      exact isLine_line j
    have hend : (left.map line).foldl (fun c l => min (c + (l.length + 1)) (2 ^ 64 - 1))
        (logOf done).length = raw.length := by
      rw [consumed_eq, hlen, logOf, logOf]
      change (logOf done).length + (logOf left).length < _
      omega
    simp only [hstart, hnew, hend]
    refine ⟨?_, ?_, ?_, ?_⟩
    · rw [filterMap_map, ← filterMap_eq_map]
      exact filterMap_congr fun j _ => jumpEvent_line j
    · rw [append_nil, ← hlog]
      rfl
    · rw [append_nil, ← hlog]
      exact hfits
    · rw [position_of_cursor (by omega), hlog]

/-! ## What a run traces -/

/-- A traced run traces what was left before it and what it records. -/
theorem JumpsKept.run_traced (h : JumpsKept s done left) (ops : List JumpOp) :
    (runJumpOps true s (ops ++ [.flush])).events =
        (left ++ (runJumpOps true s (ops ++ [.flush])).recorded).map TimerJump.event ∧
      ∃ done', JumpsKept (runJumpOps true s (ops ++ [.flush])).dir done' [] := by
  induction ops generalizing s done left with
  | nil =>
    obtain ⟨hevents, h'⟩ := h.import_eq
    simpa [runJumpOps, JumpOp.apply, hevents] using ⟨_, h'⟩
  | cons op ops ih =>
    cases op with
    | append j =>
      obtain ⟨hevents, h'⟩ := ih (h.append j)
      refine ⟨?_, h'⟩
      rw [append_assoc] at hevents
      exact hevents
    | flush =>
      obtain ⟨hfirst, hnone⟩ := h.import_eq
      obtain ⟨hevents, h'⟩ := ih hnone
      refine ⟨?_, h'⟩
      rw [map_append, ← hfirst]
      exact congrArg _ hevents

/-- A run without a trace leaves what it records. -/
theorem JumpsKept.run_untraced (h : JumpsKept s done left) (ops : List JumpOp) :
    JumpsKept (runJumpOps false s ops).dir done (left ++ (runJumpOps false s ops).recorded) := by
  induction ops generalizing s left with
  | nil => rwa [runJumpOps, append_nil]
  | cons op ops ih =>
    cases op with
    | append j =>
      have hrest := ih (h.append j)
      rw [append_assoc] at hrest
      exact hrest
    | flush => exact ih h

theorem TimerJump.event_eq_iff (j : TimerJump) : j.event = j.exact ↔ j.Fits := by
  have hnat (n : UInt64) : asI64 n = n.toNat ↔ n.toNat < 2 ^ 63 := by
    rw [asI64]
    split_ifs <;> omega
  rw [event, exact, JumpEvent.mk.injEq, hnat, hnat, hnat, TimerJump.Fits]

/-- The old jumps come first, so there are none if the trace is right. -/
theorem map_event_eq_iff {js js' : List TimerJump} :
    (js ++ js').map TimerJump.event = js'.map TimerJump.exact ↔ js = [] ∧ ∀ j ∈ js', j.Fits := by
  simp only [← event_eq_iff]
  constructor
  · intro h
    have hlen := congrArg List.length h
    have hnil : js = [] := by
      simpa using hlen
    subst hnil
    exact ⟨rfl, map_inj_left.1 h⟩
  · rintro ⟨rfl, h⟩
    exact map_inj_left.2 h

theorem JumpsKept.tracedOnce_iff (h : JumpsKept s done left) (runs : List OwnerRun) :
    TracedOnce s runs ↔ NoneLeft (!left.isEmpty) s runs := by
  induction runs generalizing s done left with
  | nil => exact Iff.rfl
  | cons r rs ih =>
    obtain ⟨tracing, ops⟩ := r
    cases tracing with
    | true =>
      obtain ⟨hevents, done', h'⟩ := h.run_traced ops
      simp only [TracedOnce, NoneLeft, OwnerRun.run]
      rw [hevents, map_event_eq_iff, ih h']
      simp [and_assoc]
    | false =>
      have h' := h.run_untraced (ops ++ [.flush])
      simp only [TracedOnce, NoneLeft, OwnerRun.run]
      rw [ih h']
      cases left <;> simp

/-- Every traced run has exactly its own jumps in its trace, each once, in order and with the
recorded numbers, if and only if it finds no jumps of runs before it and its numbers are not
negative as `i64`. -/
theorem traced_once_iff (runs : List OwnerRun) :
    TracedOnce ⟨none, none⟩ runs ↔ NoneLeft false ⟨none, none⟩ runs :=
  jumpsKept_start.tracedOnce_iff runs

/-- A jump of a run without a trace is in the trace of the next run, and a deadline of `2^63`
ticks is traced as a negative number. -/
theorem traced_wrong :
    ¬ TracedOnce ⟨none, none⟩ [⟨false, [.append ⟨24, 1⟩]⟩, ⟨true, []⟩] ∧
      ¬ TracedOnce ⟨none, none⟩ [⟨true, [.append ⟨9223372036854775808, 1⟩]⟩] := by
  rw [jumpsKept_start.tracedOnce_iff, jumpsKept_start.tracedOnce_iff]
  have hfirst : (appendDeterministicTimerJump ⟨none, none⟩ ⟨24, 1⟩).1 = [⟨24, 1⟩] := by
    decide +kernel
  have hsecond : (appendDeterministicTimerJump ⟨none, none⟩ ⟨9223372036854775808, 1⟩).1 = [⟨9223372036854775808, 1⟩] := by
    decide +kernel
  simp [NoneLeft, OwnerRun.run, runJumpOps, JumpOp.apply, hfirst, hsecond, TimerJump.Fits]

end Lnx
