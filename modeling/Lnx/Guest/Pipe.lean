import Lnx.Guest.Feed

/-!
# Progress of a command in pipe mode

The thread of a channel in pipe mode (`run_channel_pipe`,
`guest-agent/src/main.rs` lines 2569–2688) both feeds the command's stdin and drains
its stdout. Reading stdout does not block, but `write_all` (lines 1364–1382) to
stdin does: the pipe is opened blocking. Here the command is a filter that reads some
bytes and writes them to stdout before it reads on, and exits at the end of its input;
the two pipes hold `cin` and `cout` bytes. Stderr and the control socket, which
the filter does not use, are left out.

* `Piped.step`: the steps of the agent's main loop, of the thread and of the command.
* `Piped.Deadlocked`: thread and command wait for each other.
* `Piped.deadlock_reachable`: with more than `cin + cout + 1` bytes they may come to.
* `piped_command_progress_iff`: with no more they never do, and every run gets to the
  end, where everything has been echoed unless `eof_requested` overtook data.
-/

namespace Lnx

open Inbox List

variable {α : Type}

/-- Where the thread is in its loop. -/
inductive PipePc (α : Type)
  /-- at the `poll`, draining stdout -/
  | drain
  /-- at `rx.try_recv()` -/
  | recv
  /-- in `write_all`, with these bytes still to be written -/
  | writing (rest : List α)
  /-- at `eof_requested.swap(false)` -/
  | swap
  /-- at `waitpid` -/
  | wait
  /-- draining what the command left in stdout -/
  | final
  /-- at the sending of `ExitStatus` -/
  | status
  /-- at the sending of `Close` -/
  | close
  | done
  deriving DecidableEq

open PipePc

/-- The bytes the thread is about to write. -/
@[simp] def PipePc.rest : PipePc α → List α
  | .writing rest => rest
  | _ => []

/-- How far the thread is from its end. -/
@[simp] def PipePc.left : PipePc α → ℕ
  | .final => 3
  | .status => 2
  | .close => 1
  | .done => 0
  | _ => 4

/-- A channel in pipe mode and its command. -/
structure Piped (α : Type) where
  inbox : Inbox α
  pc : PipePc α
  /-- the bytes in the stdin pipe -/
  stdin : List α
  stdinOpen : Bool
  /-- what the command has read and not written yet -/
  hold : List α
  exited : Bool
  /-- the bytes in the stdout pipe -/
  stdout : List α
  /-- what has been sent to the host as `Data` -/
  echoed : List α

open Piped

inductive PipedAct
  | main (a : InboxAct)
  | thread
  /-- the command reads `n` bytes -/
  | read (n : ℕ)
  /-- the command writes `n` bytes -/
  | write (n : ℕ)
  | exit
  deriving DecidableEq

namespace Piped

/-- One round of `drain_output_message`: a `read` into the buffer of 8192 bytes and
    the `Data` message with what it returned. -/
def forward (s : Piped α) : Piped α :=
  { s with echoed := s.echoed ++ s.stdout.take 8192, stdout := s.stdout.drop 8192 }

/-- The thread's next step; `none` while `write` blocks. -/
def threadStep (cin : ℕ) (s : Piped α) : Option (Piped α) :=
  match s.pc with
  | .drain => if s.stdout = [] then some { s with pc := .recv } else some s.forward
  | .recv =>
    match s.inbox.queue with
    | [] => some { s with pc := .swap }
    | .data bytes :: q =>
      if s.stdinOpen ∧ bytes ≠ [] then
        some { s with inbox := { s.inbox with queue := q }, pc := .writing bytes }
      else some { s with inbox := { s.inbox with queue := q } }
    | .eof :: q => some { s with inbox := { s.inbox with queue := q }, stdinOpen := false }
  | .writing rest =>
    if s.stdin.length < cin then
      let room := cin - s.stdin.length
      some { s with
        stdin := s.stdin ++ rest.take room
        pc := if rest.drop room = [] then .recv else .writing (rest.drop room) }
    else none
  | .swap =>
    some { s with
      inbox := { s.inbox with eofRequested := false }
      stdinOpen := s.stdinOpen && !s.inbox.eofRequested
      pc := .wait }
  | .wait =>
    if s.exited then some { s with stdinOpen := false, pc := .final } else some { s with pc := .drain }
  | .final => if s.stdout = [] then some { s with pc := .status } else some s.forward
  | .status => some { s with pc := .close }
  | .close => some { s with pc := .done }
  | .done => none

def step (cin cout : ℕ) (s : Piped α) : PipedAct → Option (Piped α)
  | .main a => (s.inbox.step a).map fun i => { s with inbox := i }
  | .thread => s.threadStep cin
  | .read n =>
    if s.hold = [] ∧ 0 < n ∧ n ≤ s.stdin.length then
      some { s with hold := s.stdin.take n, stdin := s.stdin.drop n }
    else none
  | .write n =>
    if 0 < n ∧ n ≤ s.hold.length ∧ s.stdout.length + n ≤ cout then
      some { s with stdout := s.stdout ++ s.hold.take n, hold := s.hold.drop n }
    else none
  | .exit =>
    if s.hold = [] ∧ s.stdin = [] ∧ s.stdinOpen = false ∧ s.exited = false then
      some { s with exited := true }
    else none

/-- The command has just been started, with all its input to come. -/
def start (payload : List (List α)) : Piped α := ⟨.start payload, .drain, [], true, [], false, [], []⟩

/-- The thread is blocked writing the command's stdin, and the command writing its
    stdout. -/
def Deadlocked (cin cout : ℕ) (s : Piped α) : Prop :=
  (∃ rest, s.pc = .writing rest) ∧ cin ≤ s.stdin.length ∧ s.hold ≠ [] ∧ cout ≤ s.stdout.length

/-- There is nothing for the thread to do. -/
structure Quiet (s : Piped α) : Prop where
  stdout : s.stdout = []
  queue : s.inbox.queue = []
  flag : s.inbox.eofRequested = false
  exited : s.exited = false
  looping : s.pc = .drain ∨ s.pc = .recv ∨ s.pc = .swap ∨ s.pc = .wait

/-- The thread goes round its loop, with nothing to do. -/
def Idle (s : Piped α) (a : PipedAct) : Prop := a = .thread ∧ s.Quiet

/-- The flag is found set, and stdin closed for it, while data is still queued. -/
def Overtakes (s : Piped α) (a : PipedAct) : Prop :=
  a = .thread ∧ s.pc = .swap ∧ s.stdinOpen = true ∧ s.inbox.eofRequested = true ∧
    Inbox.bytesOf s.inbox.queue ≠ []

/-! ## What a step can do -/

/-- The thread goes on in its loop, having found nothing to do. -/
inductive Rotates (s : Piped α) : PipePc α → Prop
  | recv : s.pc = .drain → s.stdout = [] → Rotates s .recv
  | swap : s.pc = .recv → s.inbox.queue = [] → Rotates s .swap
  | wait : s.pc = .swap → s.inbox.eofRequested = false → Rotates s .wait
  | drain : s.pc = .wait → s.exited = false → Rotates s .drain

/-- The thread is at the end, the command's output being drained. -/
inductive Ends (s : Piped α) : PipePc α → Prop
  | status : s.pc = .final → s.stdout = [] → Ends s .status
  | close : s.pc = .status → Ends s .close
  | done : s.pc = .close → Ends s .done

inductive Move (cin cout : ℕ) (s : Piped α) : PipedAct → Piped α → Prop
  | main {a : InboxAct} {i : Inbox α} : s.inbox.step a = some i → Move cin cout s (.main a) { s with inbox := i }
  | rotate {pc : PipePc α} : s.Rotates pc → Move cin cout s .thread { s with pc := pc }
  | forward : s.pc = .drain ∨ s.pc = .final → s.stdout ≠ [] → Move cin cout s .thread s.forward
  | data {bytes : List α} {q : List (StdinInput α)} : s.pc = .recv → s.inbox.queue = .data bytes :: q →
      s.stdinOpen = true → bytes ≠ [] →
      Move cin cout s .thread { s with inbox := { s.inbox with queue := q }, pc := .writing bytes }
  | drop {bytes : List α} {q : List (StdinInput α)} : s.pc = .recv → s.inbox.queue = .data bytes :: q →
      ¬ (s.stdinOpen = true ∧ bytes ≠ []) →
      Move cin cout s .thread { s with inbox := { s.inbox with queue := q } }
  | eof {q : List (StdinInput α)} : s.pc = .recv → s.inbox.queue = .eof :: q →
      Move cin cout s .thread { s with inbox := { s.inbox with queue := q }, stdinOpen := false }
  | put {rest : List α} {room : ℕ} {pc : PipePc α} : s.pc = .writing rest → s.stdin.length + room = cin →
      0 < room → pc.rest = rest.drop room → (pc = .recv ∨ pc = .writing (rest.drop room) ∧ rest.drop room ≠ []) →
      Move cin cout s .thread { s with stdin := s.stdin ++ rest.take room, pc := pc }
  | latched : s.pc = .swap → s.inbox.eofRequested = true →
      Move cin cout s .thread
        { s with inbox := { s.inbox with eofRequested := false }, stdinOpen := false, pc := .wait }
  | reap : s.pc = .wait → s.exited = true →
      Move cin cout s .thread { s with stdinOpen := false, pc := .final }
  | finish {pc : PipePc α} : s.Ends pc → Move cin cout s .thread { s with pc := pc }
  | read {n : ℕ} : s.hold = [] → 0 < n → n ≤ s.stdin.length →
      Move cin cout s (.read n) { s with hold := s.stdin.take n, stdin := s.stdin.drop n }
  | write {n : ℕ} : 0 < n → n ≤ s.hold.length → s.stdout.length + n ≤ cout →
      Move cin cout s (.write n) { s with stdout := s.stdout ++ s.hold.take n, hold := s.hold.drop n }
  | exit : s.hold = [] → s.stdin = [] → s.stdinOpen = false → s.exited = false →
      Move cin cout s .exit { s with exited := true }

variable {cin cout : ℕ} {payload : List (List α)} {s s' : Piped α} {a : PipedAct}

theorem threadStep_move (h : s.threadStep cin = some s') : Move cin cout s .thread s' := by
  unfold threadStep at h
  split at h
  · next hpc =>
    split at h <;> cases h
    · next ho => exact .rotate (.recv hpc ho)
    · next ho => exact .forward (.inl hpc) ho
  · next hpc =>
    split at h
    · next hq =>
      cases h
      exact .rotate (.swap hpc hq)
    · next hq =>
      split at h <;> cases h
      · next hc => exact .data hpc hq hc.1 hc.2
      · next hc => exact .drop hpc hq hc
    · next hq =>
      cases h
      exact .eof hpc hq
  · next rest hpc =>
    split at h
    · next hroom =>
      cases h
      refine .put hpc (Nat.add_sub_cancel' (Nat.le_of_lt hroom)) (Nat.sub_pos_of_lt hroom) ?_ ?_
      · split_ifs with hnil
        · exact hnil.symm
        · rfl
      · split_ifs with hnil
        · exact .inl rfl
        · exact .inr ⟨rfl, hnil⟩
    · cases h
  · next hpc =>
    cases h
    cases hf : s.inbox.eofRequested with
    | true => simpa [hf] using (Move.latched hpc hf : Move cin cout s _ _)
    | false =>
      have hinbox : ({ s.inbox with eofRequested := false } : Inbox α) = s.inbox := by
        cases hi : s.inbox
        simp_all
      simpa [hinbox] using (Move.rotate (.wait hpc hf) : Move cin cout s _ _)
  · next hpc =>
    split at h <;> cases h
    · next he => exact .reap hpc he
    · next he => exact .rotate (.drain hpc (by simpa using he))
  · next hpc =>
    split at h <;> cases h
    · next ho => exact .finish (.status hpc ho)
    · next ho => exact .forward (.inr hpc) ho
  · next hpc =>
    cases h
    exact .finish (.close hpc)
  · next hpc =>
    cases h
    exact .finish (.done hpc)
  · cases h

theorem step_move (h : s.step cin cout a = some s') : Move cin cout s a s' := by
  cases a with
  | main a =>
    obtain ⟨i, hi, rfl⟩ := Option.map_eq_some_iff.1 h
    exact .main hi
  | thread => exact threadStep_move h
  | read n =>
    obtain ⟨hc, rfl⟩ := of_guard h
    exact .read hc.1 hc.2.1 hc.2.2
  | write n =>
    obtain ⟨hc, rfl⟩ := of_guard h
    exact .write hc.1 hc.2.1 hc.2.2
  | exit =>
    obtain ⟨hc, rfl⟩ := of_guard h
    exact .exit hc.1 hc.2.1 hc.2.2.1 hc.2.2.2

/-! ## What always holds -/

/-- What has been written to the command's stdin. -/
@[simp] def delivered (s : Piped α) : List α := s.echoed ++ s.stdout ++ s.hold ++ s.stdin

structure Inv (cin cout : ℕ) (payload : List (List α)) (s : Piped α) : Prop where
  ordered : s.inbox.Ordered
  room : s.stdin.length ≤ cin
  roomOut : s.stdout.length ≤ cout
  writing : ∀ rest, s.pc = .writing rest → rest ≠ [] ∧ s.stdinOpen = true
  exited : s.exited = true → s.stdin = [] ∧ s.hold = [] ∧ s.stdinOpen = false
  reaped : s.pc.left < 4 → s.exited = true
  drained : s.pc.left < 3 → s.stdout = []
  closed : s.inbox.eof = .queued → .eof ∈ s.inbox.queue ∨ s.stdinOpen = false
  carried : s.stdinOpen = true → s.delivered ++ s.pc.rest ++ s.inbox.bytes = payload.flatten

theorem inv_start (payload : List (List α)) : (start payload).Inv cin cout payload where
  ordered := ordered_start payload
  room := Nat.zero_le _
  roomOut := Nat.zero_le _
  writing _ h := by cases h
  exited h := by cases h
  reaped h := absurd h (Nat.lt_irrefl 4)
  drained h := absurd h (Nat.not_lt_of_le (Nat.le_succ 3))
  closed h := by cases h
  carried _ := by simp [start, Inbox.start]

theorem delivered_forward (s : Piped α) : s.forward.delivered = s.delivered := by
  have := take_append_drop 8192 s.stdout
  simp only [forward, delivered, append_assoc]
  rw [← append_assoc (s.stdout.take 8192), this]

theorem Inv.move (hs : s.Inv cin cout payload) (hm : Move cin cout s a s') : s'.Inv cin cout payload := by
  -- while the thread is in its loop there is nothing to show about its end
  have h44 {P : Prop} (h : 4 < 4) : P := absurd h (Nat.lt_irrefl 4)
  have h43 {P : Prop} (h : 4 < 3) : P := absurd h (Nat.not_lt_of_le (Nat.le_succ 3))
  cases hm with
  | main hi =>
    refine { hs with
      ordered := hs.ordered.step hi
      closed := fun hq => ?_
      carried := fun ho => by rw [Inbox.step_bytes hi]; exact hs.carried ho }
    rcases Inbox.step_queued hi hq with h | h
    · exact (hs.closed h).imp_left (Inbox.step_mem hi)
    · exact .inl h
  | rotate hr =>
    have hcar (ho : s.stdinOpen = true) : s.delivered ++ [] ++ s.inbox.bytes = payload.flatten := by
      have hc := hs.carried ho
      cases hr with
      | recv hpc | swap hpc | wait hpc | drain hpc =>
        rw [hpc] at hc
        exact hc
    cases hr <;> exact { hs with writing := by simp, reaped := h44, drained := h43, carried := hcar }
  | forward hpc hne =>
    exact { hs with
      roomOut := Nat.le_trans (by simp [forward]) hs.roomOut
      drained := fun h => absurd (hs.drained h) hne
      carried := fun ho => by rw [delivered_forward]; exact hs.carried ho }
  | data hpc hq ho hne =>
    refine { hs with
      ordered := hs.ordered.tail hq
      writing := fun rest h => ?_
      reaped := h44
      drained := h43
      closed := fun h => (hs.closed h).imp_left fun hm => by simpa [hq] using hm
      carried := fun ho => ?_ }
    · cases h
      exact ⟨hne, ho⟩
    · have hc := hs.carried ho
      rw [hpc] at hc
      simpa [hq] using hc
  | drop hpc hq hc =>
    refine { hs with
      ordered := hs.ordered.tail hq
      closed := fun h => (hs.closed h).imp_left fun hm => by simpa [hq] using hm
      carried := fun ho => ?_ }
    have hnil : _ = [] := by_contra fun hne => hc ⟨ho, hne⟩
    simpa [hq, hnil] using hs.carried ho
  | eof hpc hq =>
    exact { hs with
      ordered := hs.ordered.tail hq
      writing := fun rest h => by rw [hpc] at h; cases h
      exited := fun h => ⟨(hs.exited h).1, (hs.exited h).2.1, rfl⟩
      closed := fun _ => .inr rfl
      carried := by simp }
  | @put rest room pc hpc hroom hpos hrest hnext =>
    obtain ⟨-, ho⟩ := hs.writing rest hpc
    have hexit : s.exited ≠ true := fun he => by rw [(hs.exited he).2.2] at ho; cases ho
    refine { hs with
      room := ?_
      writing := fun r h => ?_
      exited := fun he => absurd he hexit
      reaped := fun h => ?_
      drained := fun h => ?_
      carried := fun ho => ?_ }
    · simp only [length_append, length_take]
      omega
    · rcases hnext with rfl | ⟨rfl, hne⟩
      · cases h
      · cases h
        exact ⟨hne, ho⟩
    · rcases hnext with rfl | ⟨rfl, -⟩ <;> exact h44 h
    · rcases hnext with rfl | ⟨rfl, -⟩ <;> exact h43 h
    · have hc := hs.carried ho
      rw [hpc] at hc
      simp only [hrest]
      simpa [take_append_drop] using hc
  | latched hpc hf =>
    exact { hs with
      ordered := ⟨(by simp), hs.ordered.awaited, hs.ordered.queued, hs.ordered.last⟩
      writing := by simp
      exited := fun h => ⟨(hs.exited h).1, (hs.exited h).2.1, rfl⟩
      reaped := h44
      drained := h43
      closed := fun _ => .inr rfl
      carried := by simp }
  | reap hpc he =>
    exact { hs with
      writing := by simp
      exited := fun h => ⟨(hs.exited h).1, (hs.exited h).2.1, rfl⟩
      reaped := fun _ => he
      drained := fun h => absurd h (Nat.lt_irrefl 3)
      closed := fun _ => .inr rfl
      carried := by simp }
  | finish hend =>
    have hreaped : s.exited = true := by
      cases hend with
      | status hpc _ | close hpc | done hpc => exact hs.reaped (by rw [hpc]; simp)
    have hclosed := (hs.exited hreaped).2.2
    have hdrained : s.stdout = [] := by
      cases hend with
      | status _ ho => exact ho
      | close hpc | done hpc => exact hs.drained (by rw [hpc]; simp)
    exact { hs with
      writing := fun _ h => by cases hend <;> cases h
      reaped := fun _ => hreaped
      drained := fun _ => hdrained
      carried := fun ho => by rw [show s.stdinOpen = true from ho] at hclosed; cases hclosed }
  | @read n hhold hpos hn =>
    refine { hs with
      room := ?_
      exited := fun he => ?_
      carried := fun ho => ?_ }
    · simp only [length_drop]
      have := hs.room
      omega
    · have := (hs.exited he).1
      simp only [this, length_nil] at hn
      omega
    · simpa [hhold] using hs.carried ho
  | @write n hpos hn hroom =>
    have hexit : s.exited ≠ true := fun he => by
      simp only [(hs.exited he).2.1, length_nil] at hn
      omega
    refine { hs with
      roomOut := ?_
      exited := fun he => absurd he hexit
      drained := fun h => absurd (hs.reaped (Nat.lt_succ_of_lt h)) hexit
      carried := fun ho => ?_ }
    · simp only [length_append, length_take]
      omega
    · have hc := hs.carried ho
      simpa using hc
  | exit hhold hstdin ho hexit =>
    exact { hs with
      exited := fun _ => ⟨hstdin, hhold, ho⟩
      reaped := fun _ => rfl }

theorem Inv.step (hs : s.Inv cin cout payload) (h : s.step cin cout a = some s') :
    s'.Inv cin cout payload := hs.move (step_move h)

/-! ## Work gets less

Each byte and each message has a weight that falls on its way from the host to the
host; between two steps that lower the weight the thread only goes on to the part of
its loop where there is something to do. -/

/-- Whether there is something to do at the `poll`, at `try_recv`, at the flag and at
    `waitpid`. -/
def todo (s : Piped α) : Bool × Bool × Bool × Bool :=
  (!s.stdout.isEmpty, !s.inbox.queue.isEmpty, s.inbox.eofRequested, s.exited)

/-- How many places one passes before one with something to do. -/
def firstOf (a b c d : Bool) : ℕ :=
  if a then 0 else if b then 1 else if c then 2 else if d then 3 else 0

theorem firstOf_rotate {a b c d : Bool} (ha : a = false) :
    firstOf b c d a < firstOf a b c d ∨ (b = false ∧ c = false ∧ d = false ∧ firstOf b c d a = 0) := by
  subst ha
  revert b c d
  decide

theorem firstOf_le (a b c d : Bool) : firstOf a b c d ≤ 3 := by
  revert a b c d
  decide

/-- How far the thread is from the next place with something to do. -/
def distance (s : Piped α) : ℕ :=
  match s.pc, s.todo with
  | .drain, (o, q, f, e) => firstOf o q f e
  | .recv, (o, q, f, e) => firstOf q f e o
  | .swap, (o, q, f, e) => firstOf f e o q
  | .wait, (o, q, f, e) => firstOf e o q f
  | _, _ => 0

def weight (s : Piped α) : ℕ :=
  s.inbox.weight + 4 * s.pc.rest.length + 3 * s.stdin.length + 2 * s.hold.length + s.stdout.length +
    (!s.exited).toNat + s.pc.left

def measure (s : Piped α) : ℕ := 4 * s.weight + s.distance

theorem distance_le (s : Piped α) : s.distance ≤ 3 := by
  unfold distance
  split
  · exact firstOf_le ..
  · exact firstOf_le ..
  · exact firstOf_le ..
  · exact firstOf_le ..
  · exact Nat.zero_le 3

/-- Whoever lowers the weight lowers the measure. -/
theorem measure_lt_of_weight (h : s'.weight < s.weight) : s'.measure < s.measure := by
  have := distance_le s'
  unfold measure
  omega

/-- Going round lowers the distance, unless there is nothing to do anywhere. -/
theorem Rotates.measure {pc : PipePc α} (hr : s.Rotates pc) :
    ({ s with pc := pc } : Piped α).measure < s.measure ∨
      (s.Quiet ∧ ({ s with pc := pc } : Piped α).measure ≤ s.measure) := by
  have hweight : ({ s with pc := pc } : Piped α).weight = s.weight := by
    cases hr with
    | recv hpc | swap hpc | wait hpc | drain hpc => simp [weight, hpc]
  have hmeasure (h : ({ s with pc := pc } : Piped α).distance < s.distance ∨
      (s.Quiet ∧ ({ s with pc := pc } : Piped α).distance = 0)) :
      ({ s with pc := pc } : Piped α).measure < s.measure ∨
        (s.Quiet ∧ ({ s with pc := pc } : Piped α).measure ≤ s.measure) := by
    unfold Piped.measure
    rcases h with h | ⟨hq, h⟩
    · exact .inl (by omega)
    · exact .inr ⟨hq, by omega⟩
  apply hmeasure
  cases hr with
  | recv hpc ho =>
    simp only [distance, todo, hpc]
    refine (firstOf_rotate (by simp [ho])).imp_right fun ⟨hq, hf, he, h⟩ => ?_
    exact ⟨⟨ho, by simpa using hq, hf, he, .inl hpc⟩, h⟩
  | swap hpc hq =>
    simp only [distance, todo, hpc]
    refine (firstOf_rotate (by simp [hq])).imp_right fun ⟨hf, he, ho, h⟩ => ?_
    exact ⟨⟨by simpa using ho, hq, hf, he, .inr (.inl hpc)⟩, h⟩
  | wait hpc hf =>
    simp only [distance, todo, hpc]
    refine (firstOf_rotate hf).imp_right fun ⟨he, ho, hq, h⟩ => ?_
    exact ⟨⟨by simpa using ho, by simpa using hq, hf, he, .inr (.inr (.inl hpc))⟩, h⟩
  | drain hpc he =>
    simp only [distance, todo, hpc]
    refine (firstOf_rotate he).imp_right fun ⟨ho, hq, hf, h⟩ => ?_
    exact ⟨⟨by simpa using ho, by simpa using hq, hf, he, .inr (.inr (.inr hpc))⟩, h⟩

/-- Every other step lowers the weight. -/
theorem measure_move (hs : s.Inv cin cout payload) (hm : Move cin cout s a s') :
    s'.measure < s.measure ∨ (s.Idle a ∧ s'.measure ≤ s.measure) := by
  cases hm with
  | rotate hr => exact hr.measure.imp_right fun ⟨hq, h⟩ => ⟨⟨rfl, hq⟩, h⟩
  | main hi =>
    have := Inbox.step_weight hi
    exact .inl (measure_lt_of_weight (by simp only [weight]; omega))
  | forward hpc hne =>
    have := length_pos_iff.2 hne
    exact .inl (measure_lt_of_weight (by simp only [weight, Piped.forward, length_drop]; omega))
  | data hpc hq ho hne =>
    refine .inl (measure_lt_of_weight ?_)
    simp only [weight, Inbox.weight, hpc, hq, Inbox.bytesOf, PipePc.rest, PipePc.left,
      length_append, length_cons, length_nil]
    omega
  | drop hpc hq hc =>
    refine .inl (measure_lt_of_weight ?_)
    simp only [weight, Inbox.weight, hq, Inbox.bytesOf, length_append, length_cons]
    omega
  | eof hpc hq =>
    refine .inl (measure_lt_of_weight ?_)
    simp only [weight, Inbox.weight, hq, Inbox.bytesOf, length_cons]
    omega
  | @put rest room pc hpc hroom hpos hrest hnext =>
    have hne := length_pos_iff.2 (hs.writing rest hpc).1
    have hleft : pc.left = 4 := by rcases hnext with rfl | ⟨rfl, -⟩ <;> rfl
    refine .inl (measure_lt_of_weight ?_)
    simp only [weight, hrest, hleft]
    simp only [hpc, PipePc.rest, PipePc.left, length_append, length_take, length_drop]
    omega
  | latched hpc hf =>
    refine .inl (measure_lt_of_weight ?_)
    simp only [weight, Inbox.weight, hpc, hf, PipePc.rest, PipePc.left, Bool.toNat_true,
      Bool.toNat_false]
    omega
  | reap hpc he =>
    refine .inl (measure_lt_of_weight ?_)
    simp only [weight, hpc, PipePc.rest, PipePc.left]
    omega
  | finish hend =>
    refine .inl (measure_lt_of_weight ?_)
    cases hend with
    | status hpc _ | close hpc | done hpc =>
      simp only [weight, hpc, PipePc.rest, PipePc.left]
      omega
  | read hhold hpos hn =>
    refine .inl (measure_lt_of_weight ?_)
    simp only [weight, hhold, length_take, length_drop, length_nil]
    omega
  | write hpos hn hroom =>
    refine .inl (measure_lt_of_weight ?_)
    simp only [weight, length_append, length_take, length_drop]
    omega
  | exit hhold hstdin ho hexit =>
    refine .inl (measure_lt_of_weight ?_)
    simp only [weight, hexit, Bool.not_true, Bool.not_false, Bool.toNat_true, Bool.toNat_false]
    omega

/-! ## Somebody can always go on, short of a deadlock -/

variable (cout) in
theorem thread_enabled (h : ∀ rest, s.pc = .writing rest → s.stdin.length < cin) (hd : s.pc ≠ .done) :
    ∃ s', s.step cin cout .thread = some s' := by
  show ∃ s', s.threadStep cin = some s'
  unfold threadStep
  split
  · split <;> exact ⟨_, rfl⟩
  · split
    · exact ⟨_, rfl⟩
    · split <;> exact ⟨_, rfl⟩
    · exact ⟨_, rfl⟩
  · next rest hpc =>
    rw [if_pos (h rest hpc)]
    exact ⟨_, rfl⟩
  · exact ⟨_, rfl⟩
  · split <;> exact ⟨_, rfl⟩
  · split <;> exact ⟨_, rfl⟩
  · exact ⟨_, rfl⟩
  · exact ⟨_, rfl⟩
  · next hpc => exact absurd hpc hd

variable (cin) in
/-- The command goes on where it has something to write and room for it, or something
    to read. -/
theorem command_enabled (hwrite : s.hold ≠ [] → s.stdout.length < cout)
    (h : s.hold ≠ [] ∨ s.stdin ≠ []) : ∃ a s', a ≠ .thread ∧ s.step cin cout a = some s' := by
  by_cases hhold : s.hold = []
  · have hne : s.stdin ≠ [] := h.resolve_left fun hn => hn hhold
    refine ⟨.read 1, _, nofun, if_pos ⟨hhold, Nat.one_pos, ?_⟩⟩
    exact length_pos_iff.2 hne
  · refine ⟨.write 1, _, nofun, if_pos ⟨Nat.one_pos, ?_, hwrite hhold⟩⟩
    exact length_pos_iff.2 hhold

theorem live (hin : 0 < cin) (hout : 0 < cout) (hs : s.Inv cin cout payload)
    (hdead : ¬ s.Deadlocked cin cout) (hdone : s.pc ≠ .done) :
    ∃ a s', ¬ s.Idle a ∧ s.step cin cout a = some s' := by
  have hbusy {a : PipedAct} (h : a ≠ .thread) : ¬ s.Idle a := fun hi => h hi.1
  by_cases hquiet : s.Quiet
  · -- the thread waits: for the main loop or for the command
    by_cases hmain : ∃ b i, s.inbox.step b = some i
    · obtain ⟨b, i, hi⟩ := hmain
      exact ⟨.main b, { s with inbox := i }, hbusy nofun, by simp [step, hi]⟩
    · have hno : ∀ b, s.inbox.step b = none := fun b =>
        Option.eq_none_iff_forall_ne_some.2 fun i hi => hmain ⟨b, i, hi⟩
      have hclosed : s.stdinOpen = false := by
        refine (hs.closed (queued_of_stuck hno)).resolve_left ?_
        rw [hquiet.queue]
        exact not_mem_nil
      by_cases hwork : s.hold ≠ [] ∨ s.stdin ≠ []
      · have hwrite (_ : s.hold ≠ []) : s.stdout.length < cout := by rwa [hquiet.stdout]
        obtain ⟨b, t, hb, ht⟩ := command_enabled cin hwrite hwork
        exact ⟨b, t, hbusy hb, ht⟩
      · have hhold : s.hold = [] := by_contra fun h => hwork (.inl h)
        have hstdin : s.stdin = [] := by_contra fun h => hwork (.inr h)
        exact ⟨.exit, _, hbusy nofun, if_pos ⟨hhold, hstdin, hclosed, hquiet.exited⟩⟩
  · by_cases hfull : ∀ rest, s.pc = .writing rest → s.stdin.length < cin
    · obtain ⟨t, ht⟩ := thread_enabled cout hfull hdone
      exact ⟨.thread, t, fun hi => hquiet hi.2, ht⟩
    · -- the thread is blocked, so the command is not
      obtain ⟨rest, hfull⟩ := not_forall.1 hfull
      obtain ⟨hpc, hcin⟩ := Classical.not_imp.1 hfull
      have hcin : cin ≤ s.stdin.length := Nat.le_of_not_lt hcin
      have hwrite (hhold : s.hold ≠ []) : s.stdout.length < cout := by
        by_contra hc
        exact hdead ⟨⟨rest, hpc⟩, hcin, hhold, by omega⟩
      have hne : s.stdin ≠ [] := length_pos_iff.1 (by omega)
      obtain ⟨b, t, hb, ht⟩ := command_enabled cin hwrite (.inr hne)
      exact ⟨b, t, hbusy hb, ht⟩

theorem finishes (hin : 0 < cin) (hout : 0 < cout) (payload : List (List α))
    (hdead : ∀ s, Inv cin cout payload s → ¬ s.Deadlocked cin cout) :
    Finishes (step cin cout) Idle (fun s => s.pc = .done) (start payload) := by
  apply finishes_of_measure (I := Inv cin cout payload) measure
  · intro s a s' hs h
    exact hs.step h
  · intro s a s' hs h
    exact measure_move hs (step_move h)
  · intro s hs hdone
    exact live hin hout hs (hdead s hs) hdone
  · exact inv_start payload

/-! ## Deadlock -/

/-- A deadlock takes more bytes than the two pipes hold and one in the command's hands. -/
theorem Deadlocked.length (hd : s.Deadlocked cin cout) (hs : s.Inv cin cout payload) :
    cin + cout + 1 < payload.flatten.length := by
  obtain ⟨⟨rest, hpc⟩, hcin, hhold, hcout⟩ := hd
  obtain ⟨hne, ho⟩ := hs.writing rest hpc
  have hc := hs.carried ho
  rw [hpc] at hc
  have h1 := length_pos_iff.2 hhold
  have h2 := length_pos_iff.2 hne
  rw [← hc]
  simp only [delivered, PipePc.rest, length_append]
  omega

/-- The main loop queues data, the thread writes it, and the command moves it on byte
    by byte, while nobody drains stdout. -/
def Stuffs (cin cout : ℕ) (s s' : Piped α) : Prop :=
  (∃ a, a ∈ [PipedAct.main .data, .read 1, .write 1] ∧ s.step cin cout a = some s') ∨
    ((s.inbox.queue ≠ [] ∨ s.pc ≠ .recv) ∧ s.step cin cout .thread = some s')

/-- The thread has not come to look at stdout yet. -/
structure Stuffed (cin cout : ℕ) (payload : List (List α)) (s : Piped α) : Prop where
  inv : s.Inv cin cout payload
  feeding : s.pc = .recv ∨ ∃ rest, s.pc = .writing rest
  awaited : s.inbox.eof = .awaited
  stdinOpen : s.stdinOpen = true
  hold : s.hold.length ≤ 1
  echoed : s.echoed = []

theorem Stuffs.step (h : Stuffs cin cout s s') : ∃ a, s.step cin cout a = some s' := by
  rcases h with ⟨a, -, h⟩ | ⟨-, h⟩
  · exact ⟨a, h⟩
  · exact ⟨.thread, h⟩

theorem Stuffed.step (hs : s.Stuffed cin cout payload) (h : Stuffs cin cout s s') :
    s'.Stuffed cin cout payload := by
  obtain ⟨b, hb⟩ := h.step
  have hinv := hs.inv.step hb
  have hnoeof {q : List (StdinInput α)} : s.inbox.queue ≠ .eof :: q := fun hq => by
    have := hs.inv.ordered.queued (by rw [hq]; exact mem_cons_self)
    rw [hs.awaited] at this
    cases this
  rcases h with ⟨a, ha, h⟩ | ⟨hwork, h⟩
  · rcases mem_cons.1 ha with rfl | ha
    · obtain ⟨i, hi, rfl⟩ := Option.map_eq_some_iff.1 h
      refine { hs with inv := hinv, awaited := ?_ }
      exact data_eof hi ▸ hs.awaited
    · rcases mem_cons.1 ha with rfl | ha
      · cases step_move h with
        | read hhold hpos hn => exact { hs with inv := hinv, hold := length_take_le 1 _ }
      · cases mem_singleton.1 ha
        cases step_move h with
        | write hpos hn hroom =>
          have := hs.hold
          exact { hs with inv := hinv, hold := by simp; omega }
  · cases step_move h with
    | rotate hr =>
      exfalso
      cases hr with
      | swap hpc hq => exact hwork.elim (fun h => h hq) fun h => h hpc
      | recv hpc | wait hpc | drain hpc => rcases hs.feeding with h | ⟨r, h⟩ <;> simp [hpc] at h
    | forward hpc hne =>
      rcases hs.feeding with h | ⟨r, h⟩ <;> rcases hpc with hpc | hpc <;> simp [hpc] at h
    | data hpc hq ho hne => exact { hs with inv := hinv, feeding := .inr ⟨_, rfl⟩ }
    | drop hpc hq hc => exact { hs with inv := hinv }
    | eof hpc hq => exact absurd hq hnoeof
    | put hpc hroom hpos hrest hnext =>
      exact { hs with inv := hinv, feeding := hnext.imp_right fun h => ⟨_, h.1⟩ }
    | latched hpc | reap hpc => rcases hs.feeding with h | ⟨r, h⟩ <;> simp [hpc] at h
    | finish hend =>
      cases hend with
      | status hpc | close hpc | done hpc => rcases hs.feeding with h | ⟨r, h⟩ <;> simp [hpc] at h

theorem Stuffed.measure (hs : s.Stuffed cin cout payload) (h : Stuffs cin cout s s') :
    s'.measure < s.measure := by
  rcases h with ⟨a, ha, h⟩ | ⟨hwork, h⟩
  · refine (measure_move hs.inv (step_move h)).resolve_right fun ⟨⟨hthread, _⟩, _⟩ => ?_
    subst hthread
    simp at ha
  · refine (measure_move hs.inv (step_move h)).resolve_right fun ⟨⟨_, hquiet⟩, _⟩ => ?_
    rcases hwork with hq | hpc
    · exact hq hquiet.queue
    · obtain ⟨r, hr⟩ := hs.feeding.resolve_left hpc
      have := hquiet.looping
      simp [hr] at this

/-- When nothing more can be stuffed into the pipes, they are full. -/
theorem Stuffed.deadlocked (hs : s.Stuffed cin cout payload) (hin : 0 < cin)
    (hlen : cin + cout + 1 < payload.flatten.length) (hstuck : ∀ s', ¬ Stuffs cin cout s s') :
    s.Deadlocked cin cout := by
  have hincoming : s.inbox.incoming = [] := by
    cases hc : s.inbox.incoming with
    | nil => rfl
    | cons b bs =>
      have hi : s.inbox.step .data =
          some { s.inbox with incoming := bs, queue := s.inbox.queue ++ [.data b] } := by
        simp [Inbox.step, hc]
      exact absurd (.inl ⟨.main .data, by simp, congrArg (Option.map _) hi⟩) (hstuck _)
  have hthread (hwork : s.inbox.queue ≠ [] ∨ s.pc ≠ .recv) : ¬ ∃ t, s.step cin cout .thread = some t := by
    rintro ⟨t, ht⟩
    exact hstuck t (.inr ⟨hwork, ht⟩)
  have hdone : s.pc ≠ .done := by
    rcases hs.feeding with h | ⟨r, h⟩ <;> simp [h]
  have hc := congrArg List.length (hs.inv.carried hs.stdinOpen)
  simp only [delivered, hs.echoed, Inbox.bytes, hincoming, length_append, length_nil,
    flatten_nil] at hc
  have hroom := hs.inv.room
  have hroomOut := hs.inv.roomOut
  have hhold := hs.hold
  rcases hs.feeding with hpc | ⟨rest, hpc⟩
  · -- all bytes would be in the pipes and the command
    have hq : s.inbox.queue = [] := by
      by_contra hq
      exact hthread (.inl hq) (thread_enabled cout (fun r h => by simp [hpc] at h) hdone)
    simp only [hpc, hq, PipePc.rest, Inbox.bytesOf, length_nil] at hc
    omega
  · have hfull : cin ≤ s.stdin.length := by
      by_contra hlt
      refine hthread (.inr (by simp [hpc])) (thread_enabled cout (fun _ _ => ?_) hdone)
      omega
    have hne : s.hold ≠ [] := by
      intro hnil
      exact hstuck _ (.inl ⟨.read 1, by simp, if_pos ⟨hnil, Nat.one_pos, by omega⟩⟩)
    refine ⟨⟨rest, hpc⟩, hfull, hne, ?_⟩
    by_contra hlt
    have := length_pos_iff.2 hne
    exact hstuck _ (.inl ⟨.write 1, by simp, if_pos ⟨Nat.one_pos, this, by omega⟩⟩)

theorem deadlock_reachable (hin : 0 < cin) (hlen : cin + cout + 1 < payload.flatten.length) :
    ∃ s, (Machine.ofStep (step cin cout) (· = start payload)).Reachable s ∧ s.Deadlocked cin cout := by
  -- the thread passes the `poll` before the command has written anything
  let s₁ : Piped α := { start payload with pc := .recv }
  have hfirst : (start payload).step cin cout .thread = some s₁ := rfl
  have hs₁ : s₁.Stuffed cin cout payload :=
    ⟨(inv_start payload).step hfirst, .inl rfl, rfl, rfl, Nat.zero_le 1, rfl⟩
  obtain ⟨t, ht, hpath, hstuck⟩ := exists_stuck (R := Stuffs cin cout) measure
    (fun _ _ hs h => Stuffed.step hs h) (fun _ _ hs h => hs.measure h) hs₁
  refine ⟨t, ?_, ht.deadlocked hin hlen hstuck⟩
  clear ht hstuck
  induction hpath with
  | refl => exact .step (.init rfl) ⟨.thread, hfirst⟩
  | tail _ h ih => exact .step ih h.step

/-! ## What has been echoed -/

/-- Stdin is closed only after everything has been written. -/
def Complete (payload : List (List α)) (s : Piped α) : Prop :=
  s.stdinOpen = false → s.delivered = payload.flatten

theorem complete_move (hs : s.Inv cin cout payload) (hc : s.Complete payload)
    (hm : Move cin cout s a s') (hov : ¬ s.Overtakes a) : s'.Complete payload := by
  cases hm with
  | main | rotate | data | drop | finish | exit => exact hc
  | forward => exact fun ho => (delivered_forward s).trans (hc ho)
  | eof hpc hq =>
    intro _
    cases ho : s.stdinOpen with
    | false => exact hc ho
    | true =>
      have hcar := hs.carried ho
      rw [hs.ordered.bytes_of_eof hq, hpc] at hcar
      simpa using hcar
  | @put rest room pc hpc hroom hpos hrest hnext =>
    intro ho
    have := (hs.writing rest hpc).2
    rw [show s.stdinOpen = false from ho] at this
    cases this
  | latched hpc hf =>
    intro _
    cases ho : s.stdinOpen with
    | false => exact hc ho
    | true =>
      have hcar := hs.carried ho
      have hq : bytesOf s.inbox.queue = [] := by
        by_contra hq
        exact hov ⟨rfl, hpc, ho, hf, hq⟩
      rw [hs.ordered.bytes_of_latched hf, hq, hpc] at hcar
      simpa using hcar
  | reap hpc he => exact fun _ => hc (hs.exited he).2.2
  | read hhold hpos hn =>
    intro ho
    rw [← hc ho]
    simp [hhold]
  | write hpos hn hroom =>
    intro ho
    rw [← hc ho]
    simp

/-- At the end the command has echoed what was written to its stdin. -/
theorem echoed_of_done (hs : s.Inv cin cout payload) (hc : s.Complete payload) (hd : s.pc = .done) :
    s.echoed = payload.flatten := by
  have hleft : s.pc.left = 0 := by rw [hd, left]
  obtain ⟨hstdin, hhold, ho⟩ := hs.exited (hs.reaped (by omega))
  have hout := hs.drained (by omega)
  have := hc ho
  simpa [hstdin, hhold, hout] using this

end Piped

/-- For every sequence of `Data` messages followed by `Eof` and all capacities of the
    two pipes: thread and command never wait for each other, and every run gets to
    the sending of `ExitStatus` and `Close`, if and only if the messages have at most
    `cin + cout + 1` bytes. All bytes have been echoed at the end of every run in which
    `eof_requested` does not overtake data. -/
theorem piped_command_progress_iff (payload : List (List α)) {cin cout : ℕ} (hin : 0 < cin)
    (hout : 0 < cout) :
    ((∀ s, (Machine.ofStep (Piped.step cin cout) (· = .start payload)).Reachable s →
        ¬ s.Deadlocked cin cout) ∧
      Finishes (Piped.step cin cout) Piped.Idle (fun s => s.pc = .done) (.start payload) ↔
        payload.flatten.length ≤ cin + cout + 1) ∧
    ∀ as, Avoids (Piped.step cin cout) Piped.Overtakes (.start payload) as →
      Along (Piped.step cin cout) (fun s => s.pc = .done → s.echoed = payload.flatten)
        (.start payload) as := by
  constructor
  · constructor
    · rintro ⟨hdead, -⟩
      by_contra hlen
      obtain ⟨s, hr, hd⟩ := deadlock_reachable hin (Nat.lt_of_not_le hlen)
      exact hdead s hr hd
    · intro hlen
      have hdead : ∀ s, Piped.Inv cin cout payload s → ¬ s.Deadlocked cin cout := by
        intro s hs hd
        have := hd.length hs
        omega
      refine ⟨fun s hr => hdead s ?_, finishes hin hout payload hdead⟩
      refine Machine.reachable_inv (fun s h => ?_) (fun s s' _ hs ⟨a, h⟩ => hs.step h) hr
      subst h
      exact Piped.inv_start payload
  · intro as havoid
    have halong := along_of_avoids
      (I := fun s => Piped.Inv cin cout payload s ∧ s.Complete payload)
      (fun s a s' hs hb h => ⟨hs.1.step h, complete_move hs.1 hs.2 (step_move h) hb⟩)
      ⟨Piped.inv_start payload, nofun⟩ havoid
    exact halong.mono fun s hs hd => echoed_of_done hs.1 hs.2 hd

/-- Three bytes through pipes of one byte each. -/
theorem piped_command_progress_three :
    (∀ s, (Machine.ofStep (Piped.step 1 1) (· = .start [[(1 : UInt8), 2, 3]])).Reachable s →
        ¬ s.Deadlocked 1 1) ∧
      Finishes (Piped.step 1 1) Piped.Idle (fun s => s.pc = .done) (.start [[(1 : UInt8), 2, 3]]) :=
  (piped_command_progress_iff [[(1 : UInt8), 2, 3]] Nat.one_pos Nat.one_pos).1.2 (by decide)

/-- Four bytes through pipes of one byte each: the thread is left with the fourth byte
    to write to a full stdin, and the command with the second byte to write to a full
    stdout. -/
theorem piped_command_may_deadlock :
    ([.main .data, .thread, .thread, .thread, .read 1, .write 1, .thread, .read 1, .thread].foldlM
        (Piped.step 1 1) (Piped.start [[(1 : UInt8), 2, 3, 4]])).map
      (fun s => (s.pc, s.stdin, s.hold, s.stdout)) = some (.writing [4], [3], [2], [1]) := by
  decide

end Lnx
