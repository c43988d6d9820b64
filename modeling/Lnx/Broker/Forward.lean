import Lnx.Lib.Machine

/-!
# A forwarded TCP connection

`handle_forward_connection` on the host (`runner/broker.rs` lines 837–933) and
`run_channel_tcp` in the guest (`guest-agent/src/main.rs` lines 2701–2804) relay a
connection between a peer on the host and a server in the guest, each with a thread for
either direction. Each endpoint sends its bytes and then closes its side. The queues of
the broker and the agent on the way are one queue for either direction. Nobody asks
for a stop and no socket fails.

* `Forward.step`: the steps of the four threads and of the broker's agent reader.
* `Forward.Cuts`: the guest's writer ends because its reader has, with bytes of the
  peer still to be written.
* `forward_exact_iff`: both endpoints get to the end of their streams, and have got
  exactly the other's bytes if and only if that does not happen.
-/

namespace Lnx

open Bool List

variable {α : Type}

/-- The messages on the channel, either way. -/
inductive TcpMessage (α : Type)
  | data (bytes : List α)
  | eof
  | close
  deriving DecidableEq

/-- The guest's writer: at `done_rx.try_recv()`, at `rx.recv_timeout`, about to send
    `Close`, done. -/
inductive WriterPc
  | check
  | recv
  | close
  | done
  deriving DecidableEq

/-- The guest's reader: reading, about to signal its end on `done_tx`, done. -/
inductive ReaderPc
  | reading
  | signal
  | done
  deriving DecidableEq

/-- The host's relay to the peer: receiving, about to send `Close`, about to forget the
    channel, done. -/
inductive RelayPc
  | receiving
  | close
  | forget
  | done
  deriving DecidableEq

structure Forward (α : Type) where
  /-- the peer's bytes that the host has not read yet -/
  peer : List α
  /-- the host's input thread has ended -/
  inputDone : Bool
  toGuest : List (TcpMessage α)
  writer : WriterPc
  /-- what the server has got -/
  serverGot : List α
  /-- the server sees the end of its stream -/
  serverEof : Bool
  /-- the server's bytes that the guest has not read yet -/
  server : List α
  reader : ReaderPc
  toHost : List (TcpMessage α)
  /-- the broker has the channel in its table -/
  registered : Bool
  /-- the broker's agent reader has delivered `Close`, and forgets the channel next -/
  forgetting : Bool
  /-- what the agent reader has delivered to the relay -/
  mail : List (TcpMessage α)
  relay : RelayPc
  /-- what the peer has got -/
  peerGot : List α
  /-- the peer sees the end of its stream -/
  peerEof : Bool

open Forward

inductive ForwardAct
  /-- the host's input thread reads `n` bytes from the peer -/
  | input (n : ℕ)
  | writer
  /-- the guest's reader reads `n` bytes from the server -/
  | read (n : ℕ)
  | signal
  | agent
  | relay
  deriving DecidableEq

/-- What `read` into the buffer of 8192 bytes can return: zero at the end only. -/
def Reads (n : ℕ) (l : List α) : Prop := n ≤ l.length ∧ n ≤ 8192 ∧ (n = 0 ↔ l = [])

instance (n : ℕ) (l : List α) : Decidable (Reads n l) :=
  inferInstanceAs (Decidable (_ ∧ _ ∧ (n = 0 ↔ l = [])))

namespace Forward

/-- `send_to_agent_on` -/
def post (s : Forward α) (m : TcpMessage α) : List (TcpMessage α) :=
  if s.registered then s.toGuest ++ [m] else s.toGuest

def inputStep (s : Forward α) (n : ℕ) : Option (Forward α) :=
  if s.inputDone = false ∧ Reads n s.peer then
    if n = 0 then some { s with inputDone := true, toGuest := s.post .eof }
    else
      some { s with
        peer := s.peer.drop n
        inputDone := !s.registered
        toGuest := s.post (.data (s.peer.take n)) }
  else none

def writerStep (s : Forward α) : Option (Forward α) :=
  match s.writer with
  | .check =>
    -- `shutdown(Both)` after the loop
    if s.reader = .done then some { s with writer := .close, serverEof := true }
    else some { s with writer := .recv }
  | .recv =>
    match s.toGuest with
    | [] => some { s with writer := .check }
    | .data bytes :: q =>
      some { s with toGuest := q, serverGot := s.serverGot ++ bytes, writer := .check }
    | .eof :: q => some { s with toGuest := q, serverEof := true, writer := .check }
    | .close :: q => some { s with toGuest := q, serverEof := true, writer := .close }
  | .close => some { s with toHost := s.toHost ++ [.close], writer := .done }
  | .done => none

def readStep (s : Forward α) (n : ℕ) : Option (Forward α) :=
  if s.reader = .reading ∧ Reads n s.server then
    if n = 0 then some { s with reader := .signal, toHost := s.toHost ++ [.eof] }
    else some { s with server := s.server.drop n, toHost := s.toHost ++ [.data (s.server.take n)] }
  else none

/-- The broker's agent reader: `deliver_to_client`. -/
def agentStep (s : Forward α) : Option (Forward α) :=
  if s.forgetting then some { s with registered := false, forgetting := false }
  else
    match s.toHost with
    | [] => none
    | m :: q =>
      some { s with
        toHost := q
        mail := if s.registered then s.mail ++ [m] else s.mail
        forgetting := match m with | .close => true | _ => false }

def relayStep (s : Forward α) : Option (Forward α) :=
  match s.relay with
  | .receiving =>
    match s.mail with
    | .data bytes :: q => some { s with mail := q, peerGot := s.peerGot ++ bytes }
    | .eof :: q => some { s with mail := q, peerEof := true }
    | .close :: q => some { s with mail := q, relay := .close }
    -- `recv` fails once the broker has dropped its end
    | [] => if s.registered then none else some { s with relay := .close }
  | .close => some { s with toGuest := s.post .close, relay := .forget }
  | .forget => some { s with registered := false, relay := .done }
  | .done => none

def step (s : Forward α) : ForwardAct → Option (Forward α)
  | .input n => s.inputStep n
  | .writer => s.writerStep
  | .read n => s.readStep n
  | .signal => if s.reader = .signal then some { s with reader := .done } else none
  | .agent => s.agentStep
  | .relay => s.relayStep

/-- The channel has just been opened; `xs` is what the peer sends, `ys` the server. -/
def start (xs ys : List α) : Forward α :=
  ⟨xs, false, [], .check, [], false, ys, .reading, [], true, false, [], .receiving, [], false⟩

/-- Whoever sees the end of its stream has got exactly the other's bytes. -/
def Exact (xs ys : List α) (s : Forward α) : Prop :=
  (s.serverEof = true → s.serverGot = xs) ∧ (s.peerEof = true → s.peerGot = ys)

/-- The writer goes round its loop, with nothing to do. -/
def Idle (s : Forward α) (a : ForwardAct) : Prop :=
  a = .writer ∧ (s.writer = .check ∨ s.writer = .recv) ∧ s.toGuest = [] ∧ s.reader ≠ .done

/-! ## Streams as lists of items -/

/-- What travels: bytes and the two kinds of end. -/
inductive Item (α : Type)
  | byte (a : α)
  | eof
  | close
  deriving DecidableEq

@[simp] def itemsOf : TcpMessage α → List (Item α)
  | .data bytes => bytes.map .byte
  | .eof => [.eof]
  | .close => [.close]

def items (l : List (TcpMessage α)) : List (Item α) := l.flatMap itemsOf

/-- The bytes of the messages. -/
def bytesOf (l : List (TcpMessage α)) : List α :=
  l.flatMap fun
    | .data bytes => bytes
    | _ => []

/-- The guest's writer ends because its reader has, while bytes of the peer are
    queued or not even read. -/
def Cuts (s : Forward α) (a : ForwardAct) : Prop :=
  a = .writer ∧ s.writer = .check ∧ s.reader = .done ∧ s.serverEof = false ∧
    bytesOf s.toGuest ++ s.peer ≠ []

@[simp] theorem items_nil : items ([] : List (TcpMessage α)) = [] := rfl

@[simp] theorem items_cons (m : TcpMessage α) (l : List (TcpMessage α)) :
    items (m :: l) = itemsOf m ++ items l := rfl

@[simp] theorem items_append (l k : List (TcpMessage α)) : items (l ++ k) = items l ++ items k := by
  simp [items]

theorem close_mem_items {l : List (TcpMessage α)} (h : .close ∈ l) : Item.close ∈ items l :=
  mem_flatMap.2 ⟨.close, h, mem_singleton.2 rfl⟩

/-- What comes before the end of the stream is all its bytes. -/
theorem eq_of_eof {g ys : List α} {r k : List (Item α)}
    (h : g.map .byte ++ .eof :: r = ys.map .byte ++ .eof :: k) : g = ys ∧ r = k := by
  induction g generalizing ys with
  | nil =>
    cases ys with
    | nil => simpa using h
    | cons y ys => simp at h
  | cons a g ih =>
    cases ys with
    | nil => simp at h
    | cons y ys =>
      simp only [map_cons, cons_append, List.cons.injEq, Item.byte.injEq] at h
      obtain ⟨rfl, h⟩ := h
      obtain ⟨rfl, hr⟩ := ih h
      exact ⟨rfl, hr⟩

/-- Nothing comes after `Close`. -/
theorem nil_of_close {ys : List α} {p q : List (Item α)}
    (h : p ++ q = ys.map .byte ++ [.eof, .close]) (hp : Item.close ∈ p) : q = [] := by
  rcases eq_nil_or_concat q with rfl | ⟨q', x, rfl⟩
  · rfl
  · have hinit : p ++ q' = ys.map .byte ++ [.eof] := by
      have : (p ++ q') ++ [x] = (ys.map .byte ++ [.eof]) ++ [.close] := by simpa using h
      exact (append_inj' this rfl).1
    have : Item.close ∈ p ++ q' := mem_append_left _ hp
    rw [hinit] at this
    simp at this

/-! ## What a step can do -/

inductive Move (s : Forward α) : ForwardAct → Forward α → Prop
  | inputEof : s.inputDone = false → s.peer = [] →
      Move s (.input 0) { s with inputDone := true, toGuest := s.post .eof }
  | input {n : ℕ} : s.inputDone = false → 0 < n → n ≤ s.peer.length →
      Move s (.input n) { s with
        peer := s.peer.drop n
        inputDone := !s.registered
        toGuest := s.post (.data (s.peer.take n)) }
  | shutdown : s.writer = .check → s.reader = .done →
      Move s .writer { s with writer := .close, serverEof := true }
  | poll : s.writer = .check → s.reader ≠ .done → Move s .writer { s with writer := .recv }
  | timeout : s.writer = .recv → s.toGuest = [] → Move s .writer { s with writer := .check }
  | writeData {bytes : List α} {q : List (TcpMessage α)} : s.writer = .recv →
      s.toGuest = .data bytes :: q →
      Move s .writer { s with toGuest := q, serverGot := s.serverGot ++ bytes, writer := .check }
  | writeEof {q : List (TcpMessage α)} : s.writer = .recv → s.toGuest = .eof :: q →
      Move s .writer { s with toGuest := q, serverEof := true, writer := .check }
  | writeClose {q : List (TcpMessage α)} : s.writer = .recv → s.toGuest = .close :: q →
      Move s .writer { s with toGuest := q, serverEof := true, writer := .close }
  | sendClose : s.writer = .close →
      Move s .writer { s with toHost := s.toHost ++ [.close], writer := .done }
  | readEof : s.reader = .reading → s.server = [] →
      Move s (.read 0) { s with reader := .signal, toHost := s.toHost ++ [.eof] }
  | read {n : ℕ} : s.reader = .reading → 0 < n → n ≤ s.server.length →
      Move s (.read n) { s with
        server := s.server.drop n
        toHost := s.toHost ++ [.data (s.server.take n)] }
  | signal : s.reader = .signal → Move s .signal { s with reader := .done }
  | forget : s.forgetting = true → Move s .agent { s with registered := false, forgetting := false }
  | deliver {m : TcpMessage α} {q : List (TcpMessage α)} : s.forgetting = false → s.toHost = m :: q →
      Move s .agent { s with
        toHost := q
        mail := if s.registered then s.mail ++ [m] else s.mail
        forgetting := match m with | .close => true | _ => false }
  | relayData {bytes : List α} {q : List (TcpMessage α)} : s.relay = .receiving →
      s.mail = .data bytes :: q →
      Move s .relay { s with mail := q, peerGot := s.peerGot ++ bytes }
  | relayEof {q : List (TcpMessage α)} : s.relay = .receiving → s.mail = .eof :: q →
      Move s .relay { s with mail := q, peerEof := true }
  | relayClose {q : List (TcpMessage α)} : s.relay = .receiving → s.mail = .close :: q →
      Move s .relay { s with mail := q, relay := .close }
  | hangUp : s.relay = .receiving → s.mail = [] → s.registered = false →
      Move s .relay { s with relay := .close }
  | relaySend : s.relay = .close → Move s .relay { s with toGuest := s.post .close, relay := .forget }
  | relayForget : s.relay = .forget → Move s .relay { s with registered := false, relay := .done }

variable {xs ys : List α} {s s' : Forward α} {a : ForwardAct}

theorem step_move (h : s.step a = some s') : Move s a s' := by
  cases a with
  | input n =>
    simp only [step, inputStep] at h
    split at h
    · next hc =>
      obtain ⟨hdone, hle, -, hzero⟩ := hc
      split at h <;> cases h
      · next hn =>
        subst hn
        exact .inputEof hdone (hzero.1 rfl)
      · next hn => exact .input hdone (Nat.pos_of_ne_zero hn) hle
    · cases h
  | writer =>
    simp only [step, writerStep] at h
    split at h
    · next hw =>
      split at h <;> cases h
      · next hr => exact .shutdown hw hr
      · next hr => exact .poll hw hr
    · next hw =>
      split at h <;> cases h
      · next hq => exact .timeout hw hq
      · next hq => exact .writeData hw hq
      · next hq => exact .writeEof hw hq
      · next hq => exact .writeClose hw hq
    · next hw =>
      cases h
      exact .sendClose hw
    · cases h
  | read n =>
    simp only [step, readStep] at h
    split at h
    · next hc =>
      obtain ⟨hr, hle, -, hzero⟩ := hc
      split at h <;> cases h
      · next hn =>
        subst hn
        exact .readEof hr (hzero.1 rfl)
      · next hn => exact .read hr (Nat.pos_of_ne_zero hn) hle
    · cases h
  | signal =>
    obtain ⟨hr, rfl⟩ := of_guard h
    exact .signal hr
  | agent =>
    simp only [step, agentStep] at h
    split at h
    · next hf =>
      cases h
      exact .forget hf
    · next hf =>
      split at h <;> cases h
      next hq => exact .deliver (by simpa using hf) hq
  | relay =>
    simp only [step, relayStep] at h
    split at h
    · next hr =>
      split at h
      · next hm =>
        cases h
        exact .relayData hr hm
      · next hm =>
        cases h
        exact .relayEof hr hm
      · next hm =>
        cases h
        exact .relayClose hr hm
      · next hm =>
        split at h <;> cases h
        next hreg => exact .hangUp hr hm (by simpa using hreg)
    · next hr =>
      cases h
      exact .relaySend hr
    · next hr =>
      cases h
      exact .relayForget hr
    · cases h

/-! ## What always holds

The items on their way in one direction, from those that have arrived to those still
to be sent, are always the same list. -/

/-- What has come out of the relay, as far as the peer can tell. -/
@[simp] def relayed (s : Forward α) : List (Item α) :=
  s.peerGot.map .byte ++ (if s.peerEof then [.eof] else []) ++
    if s.relay = .receiving then [] else [.close]

/-- What the guest has still to send. -/
@[simp] def unsent (s : Forward α) : List (Item α) :=
  s.server.map .byte ++ (if s.reader = .reading then [.eof] else []) ++
    if s.writer = .done then [] else [.close]

/-- What the guest's writer has done. -/
@[simp] def written (s : Forward α) : List (Item α) :=
  s.serverGot.map .byte ++ if s.serverEof then [.eof] else []

/-- What the host's input thread has still to send. -/
@[simp] def unread (s : Forward α) : List (Item α) :=
  s.peer.map .byte ++ if s.inputDone then [] else [.eof]

structure Inv (xs ys : List α) (s : Forward α) : Prop where
  down : s.relayed ++ items s.mail ++ items s.toHost ++ s.unsent = ys.map .byte ++ [.eof, .close]
  up : s.writer = .check ∨ s.writer = .recv →
    s.written ++ items s.toGuest ++ s.unread = xs.map .byte ++ [.eof]
  drained : s.reader ≠ .reading → s.server = []
  waited : s.writer = .close ∨ s.writer = .done → s.reader = .done ∧ s.serverEof = true
  /-- the host ends its side only for a `Close` -/
  ended : s.forgetting = true ∨ s.registered = false → s.relay ≠ .receiving ∨ .close ∈ s.mail

theorem inv_start (xs ys : List α) : (start xs ys).Inv xs ys where
  down := by simp [start]
  up _ := by simp [start]
  drained h := absurd rfl h
  waited h := by simp [start] at h
  ended h := by simp [start] at h

section

variable (hs : s.Inv xs ys)

include hs

/-- Once `Close` has come to the relay, the guest has nothing more to send. -/
theorem Inv.closed (h : s.relay ≠ .receiving ∨ .close ∈ s.mail) :
    items s.toHost = [] ∧ s.writer = .done := by
  have hnil : items s.toHost ++ s.unsent = [] := by
    apply nil_of_close (p := s.relayed ++ items s.mail)
    · simpa using hs.down
    · rcases h with h | h
      · exact mem_append_left _ (mem_append_right _ (by simp [h]))
      · exact mem_append_right _ (close_mem_items h)
  obtain ⟨htoHost, hunsent⟩ := append_eq_nil_iff.1 hnil
  refine ⟨htoHost, ?_⟩
  by_contra hw
  simp [hw] at hunsent

theorem Inv.peerGot (h : s.peerEof = true) :
    s.peerGot = ys ∧ (if s.relay = .receiving then [] else [Item.close]) ++ items s.mail ++
      items s.toHost ++ s.unsent = [.close] := by
  apply eq_of_eof
  have := hs.down
  simpa [h] using this

theorem Inv.serverGot (hw : s.writer = .check ∨ s.writer = .recv) (h : s.serverEof = true) :
    s.serverGot = xs ∧ items s.toGuest ++ s.unread = [] := by
  apply eq_of_eof
  have := hs.up hw
  simpa [h] using this

/-- While the writer is in its loop, the channel is registered. -/
theorem Inv.registered (hw : s.writer ≠ .done) : s.registered = true := by
  by_contra hr
  exact hw (hs.closed (hs.ended (.inr (by simpa using hr)))).2

/-- The host does not send `Close` before the guest does. -/
theorem Inv.not_close (hw : s.writer = .recv) {q : List (TcpMessage α)}
    (hq : s.toGuest = .close :: q) : False := by
  have hup := hs.up (.inr hw)
  have hmem : Item.close ∈ xs.map Item.byte ++ [.eof] := by
    rw [← hup, hq]
    simp
  simp at hmem

theorem Inv.move (hm : Move s a s') : s'.Inv xs ys := by
  have hrun (hw : s.writer = .check ∨ s.writer = .recv) : s.registered = true := by
    apply hs.registered
    rcases hw with hw | hw <;> simp [hw]
  have hdown := hs.down
  cases hm with
  | inputEof hdone hpeer =>
    refine { hs with up := fun hw => ?_ }
    have hup := hs.up hw
    simpa [post, hrun hw, hdone, hpeer] using hup
  | input hdone hpos hle =>
    refine { hs with up := fun hw => ?_ }
    have hup := hs.up hw
    simp only [written, unread, post, hrun hw, if_true, Bool.not_true, items_append, items_cons,
      itemsOf, items_nil, append_nil, hdone, false_eq_true, if_false] at hup ⊢
    rw [← hup]
    simp only [append_assoc, ← map_append, ← append_assoc (List.map _ (List.take _ _)),
      take_append_drop]
  | shutdown hw hr =>
    exact { hs with
      down := by simpa [hw] using hdown
      up := fun h => by simp at h
      waited := fun _ => ⟨hr, rfl⟩ }
  | poll hw hr =>
    exact { hs with
      down := by simpa [hw] using hdown
      up := fun _ => hs.up (.inl hw)
      waited := fun h => by simp at h }
  | timeout hw hq =>
    exact { hs with
      down := by simpa [hw] using hdown
      up := fun _ => hs.up (.inr hw)
      waited := fun h => by simp at h }
  | @writeData bytes q hw hq =>
    refine { hs with down := ?_, up := fun _ => ?_, waited := fun h => by simp at h }
    · simpa [hw] using hdown
    · have hup := hs.up (.inr hw)
      cases he : s.serverEof with
      | false => simpa [he, hq] using hup
      | true =>
        -- no data after the end of the stream
        have hnil := (hs.serverGot (.inr hw) he).2
        have hb : bytes = [] := by
          simp only [hq, items_cons, itemsOf, append_eq_nil_iff, map_eq_nil_iff] at hnil
          exact hnil.1.1
        simpa [he, hq, hb] using hup
  | @writeEof q hw hq =>
    refine { hs with down := ?_, up := fun _ => ?_, waited := fun h => by simp at h }
    · simpa [hw] using hdown
    · have hup := hs.up (.inr hw)
      cases he : s.serverEof with
      | false => simpa [he, hq] using hup
      | true =>
        have hnil := (hs.serverGot (.inr hw) he).2
        simp [hq] at hnil
  | writeClose hw hq => exact (hs.not_close hw hq).elim
  | sendClose hw =>
    obtain ⟨hr, he⟩ := hs.waited (.inl hw)
    exact { hs with
      down := by simpa [hw, hr, hs.drained] using hdown
      up := fun h => by simp at h
      waited := fun _ => ⟨hr, he⟩ }
  | readEof hr hserver =>
    refine { hs with down := ?_, drained := fun _ => hserver, waited := fun h => ?_ }
    · simpa [hr, hserver] using hdown
    · have := (hs.waited h).1
      rw [hr] at this
      cases this
  | read hr hpos hle =>
    refine { hs with down := ?_, drained := fun h => absurd hr h }
    rw [← hdown]
    simp only [relayed, unsent, items_append, items_cons, itemsOf, items_nil, append_nil,
      append_assoc]
    simp only [← append_assoc (List.map Item.byte (List.take _ _)), ← map_append,
      take_append_drop]
  | signal hr =>
    exact { hs with
      down := by simpa [hr] using hdown
      drained := fun _ => hs.drained (by simp [hr])
      waited := fun h => ⟨rfl, (hs.waited h).2⟩ }
  | forget hf => exact { hs with ended := fun _ => hs.ended (.inl hf) }
  | @deliver m q hf hq =>
    cases hreg : s.registered with
    | true =>
      refine { hs with down := ?_, ended := fun h => ?_ }
      · simpa [hq] using hdown
      · right
        cases m with
        | close => simp
        | data | eof => simp at h
    | false =>
      have hend := hs.ended (.inr hreg)
      have hnil := (hs.closed hend).1
      refine { hs with down := ?_, ended := fun _ => hend }
      rw [hq, items_cons, append_eq_nil_iff] at hnil
      rw [hq, items_cons, hnil.1, hnil.2] at hdown
      simpa [hnil.2] using hdown
  | @relayData bytes q hr hmail =>
    refine { hs with down := ?_, ended := fun h => ?_ }
    · cases he : s.peerEof with
      | false => simpa [hr, hmail, he] using hdown
      | true =>
        have hrest := (hs.peerGot he).2
        have hb : bytes = [] := by
          cases bytes with
          | nil => rfl
          | cons b bytes => simp [hr, hmail] at hrest
        simpa [hr, hmail, he, hb] using hdown
    · refine (hs.ended h).imp_right fun hm => ?_
      simpa [hmail] using hm
  | @relayEof q hr hmail =>
    refine { hs with down := ?_, ended := fun h => ?_ }
    · cases he : s.peerEof with
      | false => simpa [hr, hmail, he] using hdown
      | true =>
        have hrest := (hs.peerGot he).2
        simp [hr, hmail] at hrest
    · refine (hs.ended h).imp_right fun hm => ?_
      simpa [hmail] using hm
  | relayClose hr hmail =>
    exact { hs with
      down := by simpa [hr, hmail] using hdown
      ended := fun _ => .inl (by simp) }
  | hangUp hr hmail hreg =>
    exfalso
    rcases hs.ended (.inr hreg) with h | h
    · exact h hr
    · simp [hmail] at h
  | relaySend hr =>
    have hdone := (hs.closed (.inl (by simp [hr]))).2
    exact { hs with
      down := by simpa [hr] using hdown
      up := fun h => by simp [hdone] at h
      ended := fun _ => .inl (by simp) }
  | relayForget hr =>
    exact { hs with
      down := by simpa [hr] using hdown
      ended := fun _ => .inl (by simp) }

theorem Inv.step (h : s.step a = some s') : s'.Inv xs ys := hs.move (step_move h)

end

/-! ## Who has got what -/

/-- The bytes among items. -/
def bytes (l : List (Item α)) : List α :=
  l.filterMap fun
    | .byte a => some a
    | _ => none

theorem bytes_map (l : List α) : bytes (l.map Item.byte) = l := by
  rw [bytes, filterMap_map]
  exact filterMap_some

theorem bytes_append (l k : List (Item α)) : bytes (l ++ k) = bytes l ++ bytes k := by
  simp [bytes]

theorem bytes_items (l : List (TcpMessage α)) : bytes (items l) = bytesOf l := by
  induction l with
  | nil => rfl
  | cons m l ih =>
    rw [items_cons, bytes_append, ih]
    cases m with
    | data b => simp [bytes_map, bytesOf]
    | eof | close => rfl

/-- As long as the server's stream is open, it has got all but what is under way. -/
theorem Inv.pending (hs : s.Inv xs ys) (hw : s.writer = .check ∨ s.writer = .recv)
    (he : s.serverEof = false) : s.serverGot ++ (bytesOf s.toGuest ++ s.peer) = xs := by
  have hup := congrArg bytes (hs.up hw)
  have hend : bytes (if s.inputDone then [] else [.eof] : List (Item α)) = [] := by
    split <;> rfl
  have heof : bytes ([.eof] : List (Item α)) = [] := rfl
  simpa [he, bytes_append, bytes_map, bytes_items, hend, heof] using hup

/-- Only the end of the guest's writer can keep bytes from the server. -/
theorem exact_step (hs : s.Inv xs ys) (hx : s.Exact xs ys) (h : s.step a = some s') :
    s'.Exact xs ys ↔ ¬ s.Cuts a := by
  have hs' := hs.step h
  have hpeer : s'.peerEof = true → s'.peerGot = ys := fun he => (hs'.peerGot he).1
  -- where the writer stays in its loop, or has left it before
  have hloop (hw : s'.writer = .check ∨ s'.writer = .recv) : s'.Exact xs ys :=
    ⟨fun he => (hs'.serverGot hw he).1, hpeer⟩
  have hsame (hgot : s'.serverGot = s.serverGot) (heof : s'.serverEof = s.serverEof) : s'.Exact xs ys :=
    ⟨fun he => hgot.trans (hx.1 (heof.symm.trans he)), hpeer⟩
  cases step_move h with
  | shutdown hw hr =>
    cases he : s.serverEof with
    | true => exact iff_of_true ⟨fun _ => hx.1 he, hpeer⟩ fun hc => by simp [Cuts, he] at hc
    | false =>
      have hpend := hs.pending (.inl hw) he
      have hgot : s.serverGot = xs ↔ bytesOf s.toGuest ++ s.peer = [] := by
        rw [← hpend]
        simp
      constructor
      · intro hx' hc
        exact hc.2.2.2.2 (hgot.1 (hx'.1 rfl))
      · intro hc
        refine ⟨fun _ => hgot.2 ?_, hpeer⟩
        by_contra hne
        exact hc ⟨rfl, hw, hr, he, hne⟩
  | poll hw hr => exact iff_of_true (hloop (.inr rfl)) fun hc => hr hc.2.2.1
  | timeout hw | writeData hw | writeEof hw =>
    exact iff_of_true (hloop (.inl rfl)) fun hc => by simp [Cuts, hw] at hc
  | writeClose hw hq => exact (hs.not_close hw hq).elim
  | sendClose hw => exact iff_of_true (hsame rfl rfl) fun hc => by simp [Cuts, hw] at hc
  | _ => exact iff_of_true (hsame rfl rfl) fun hc => by cases hc.1

/-! ## Getting to the end -/

@[simp] def writerLeft : WriterPc → ℕ
  | .check => 16
  | .recv => 16
  | .close => 8
  | .done => 0

def readerLeft : ReaderPc → ℕ
  | .reading => 10
  | .signal => 5
  | .done => 0

def relayLeft : RelayPc → ℕ
  | .receiving => 12
  | .close => 8
  | .forget => 4
  | .done => 0

/-- Whether the writer is at the wrong place of its loop for what there is to do. -/
def turn (s : Forward α) : ℕ :=
  match s.writer with
  | .check => if s.toGuest = [] then 0 else 1
  | .recv => if s.toGuest = [] ∧ s.reader = .done then 1 else 0
  | _ => 0

theorem turn_le (s : Forward α) : s.turn ≤ 1 := by
  unfold turn
  split
  · split <;> omega
  · split <;> omega
  · omega

/-- Bytes and messages weigh less the farther they have come. -/
def measure (s : Forward α) : ℕ :=
  4 * s.peer.length + 4 * (!s.inputDone).toNat + 2 * s.toGuest.length + writerLeft s.writer + s.turn +
    9 * s.server.length + readerLeft s.reader + 4 * s.toHost.length + 2 * s.forgetting.toNat +
    s.mail.length + relayLeft s.relay

theorem length_post (s : Forward α) (m : TcpMessage α) : (s.post m).length ≤ s.toGuest.length + 1 := by
  unfold post
  split <;> simp

theorem measure_move (hm : Move s a s') :
    s'.measure < s.measure ∨ (s.Idle a ∧ s'.measure ≤ s.measure) := by
  have hturn := turn_le s'
  have hsame (hw : s'.writer = s.writer) (hq : s'.toGuest = s.toGuest) (hr : s'.reader = s.reader) :
      s'.turn = s.turn := by simp only [turn, hw, hq, hr]
  cases hm with
  | inputEof hdone hpeer =>
    left
    have := length_post s (.eof : TcpMessage α)
    simp only [measure, hdone, Bool.not_true, Bool.not_false, toNat_true, toNat_false] at hturn ⊢
    omega
  | @input n hdone hpos hle =>
    left
    have := length_post s (.data (s.peer.take n))
    have := (!(!s.registered)).toNat_le
    simp only [measure, hdone, Bool.not_false, toNat_true, length_drop] at hturn ⊢
    omega
  | shutdown hw hr =>
    left
    simp only [measure, hw, writerLeft]
    omega
  | poll hw hr =>
    by_cases hq : s.toGuest = []
    · right
      refine ⟨⟨rfl, .inl hw, hq, hr⟩, ?_⟩
      simp [measure, turn, hw, hq, hr]
    · left
      simp [measure, turn, hw, hq]
  | timeout hw hq =>
    by_cases hr : s.reader = .done
    · left
      simp [measure, turn, hw, hq, hr]
    · right
      refine ⟨⟨rfl, .inr hw, hq, hr⟩, ?_⟩
      simp [measure, turn, hw, hq, hr]
  | writeData hw hq | writeEof hw hq | writeClose hw hq =>
    left
    simp only [measure, hw, hq, writerLeft, length_cons] at hturn ⊢
    omega
  | sendClose hw =>
    left
    simp only [measure, hw, writerLeft, length_append, length_cons, length_nil] at hturn ⊢
    omega
  | readEof hr hserver =>
    left
    have : ({ s with reader := .signal, toHost := s.toHost ++ [.eof] } : Forward α).turn = s.turn := by
      simp [turn, hr]
    simp only [measure, this, hr, readerLeft, length_append, length_cons, length_nil]
    omega
  | read hr hpos hle =>
    left
    simp only [measure, hsame rfl rfl rfl, length_drop, length_append, length_cons,
      length_nil]
    omega
  | signal hr =>
    left
    simp only [measure, hr, readerLeft] at hturn ⊢
    omega
  | forget hf =>
    left
    simp only [measure, hsame rfl rfl rfl, hf, toNat_true, toNat_false]
    omega
  | @deliver m q hf hq =>
    left
    have hmail : (if s.registered then s.mail ++ [m] else s.mail).length ≤ s.mail.length + 1 := by
      split <;> simp
    have hforget (b : Bool) : 2 * b.toNat ≤ 2 := by
      have := b.toNat_le
      omega
    refine Nat.lt_of_le_of_lt (Nat.add_le_add_right (Nat.add_le_add (Nat.add_le_add_left (hforget _) _)
      hmail) _) ?_
    simp only [measure, hsame rfl rfl rfl, hf, hq, length_cons, toNat_false]
    omega
  | relayData hr hmail | relayEof hr hmail =>
    left
    simp only [measure, hsame rfl rfl rfl, hmail, length_cons]
    omega
  | relayClose hr hmail =>
    left
    simp only [measure, hsame rfl rfl rfl, hr, hmail, length_cons, relayLeft]
    omega
  | hangUp hr hmail hreg | relayForget hr =>
    left
    simp only [measure, hsame rfl rfl rfl, hr, relayLeft]
    omega
  | relaySend hr =>
    left
    have := length_post s (.close : TcpMessage α)
    simp only [measure, hr, relayLeft] at hturn ⊢
    omega

/-- Both endpoints see the end of their streams. -/
def Ended (s : Forward α) : Prop := s.serverEof = true ∧ s.peerEof = true

/-- Until the peer sees the end of its stream, that is on its way to the relay. -/
theorem Inv.eof_waits (hs : s.Inv xs ys) (hpeer : s.peerEof = false) :
    s.relay = .receiving ∧ Item.eof ∈ items s.mail ++ items s.toHost ++ s.unsent := by
  have heof (g : List α) : Item.eof ∉ g.map Item.byte := by simp
  have hdown := hs.down
  have hrelay : s.relay = .receiving := by
    by_contra hne
    simp only [relayed, hpeer, hne, if_false, false_eq_true, append_nil] at hdown
    have hsplit : (s.peerGot.map Item.byte ++ [.close]) ++
        (items s.mail ++ items s.toHost ++ s.unsent) = ys.map Item.byte ++ [.eof, .close] := by
      simpa using hdown
    have hall : s.peerGot.map Item.byte ++ [.close] = (ys.map Item.byte ++ [.eof]) ++ [.close] := by
      rw [nil_of_close hsplit (by simp), append_nil] at hsplit
      simpa using hsplit
    have hgot := (append_inj' hall rfl).1
    exact heof s.peerGot (by rw [hgot]; simp)
  refine ⟨hrelay, ?_⟩
  have hmem : Item.eof ∈ ys.map Item.byte ++ [.eof, .close] := by simp
  rw [← hdown] at hmem
  simpa [hpeer, hrelay] using hmem

/-- Something other than idling can be done until both endpoints have ended. -/
theorem live (hs : s.Inv xs ys) (hend : ¬ s.Ended) : ∃ a s', ¬ s.Idle a ∧ s.step a = some s' := by
  have hbusy {a : ForwardAct} (h : a ≠ .writer) : ¬ s.Idle a := fun hi => h hi.1
  cases hr : s.reader with
  | reading =>
    by_cases hserver : s.server = []
    · refine ⟨.read 0, { s with reader := .signal, toHost := s.toHost ++ [.eof] }, hbusy nofun, ?_⟩
      simp [step, readStep, hr, hserver, Reads]
    · have hpos := length_pos_iff.2 hserver
      have hreads : Reads 1 s.server := ⟨hpos, by decide, by simp [hserver]⟩
      refine ⟨.read 1, { s with
        server := s.server.drop 1
        toHost := s.toHost ++ [.data (s.server.take 1)] }, hbusy nofun, ?_⟩
      simp [step, readStep, hr, hreads]
  | signal => exact ⟨.signal, _, hbusy nofun, if_pos hr⟩
  | done =>
    by_cases hw : s.writer = .done
    · -- the end of the server's stream is on its way to the peer
      have hpeer : s.peerEof = false := by
        by_contra hp
        exact hend ⟨(hs.waited (.inr hw)).2, by simpa using hp⟩
      obtain ⟨hrelay, hwait⟩ := hs.eof_waits hpeer
      by_cases hmail : s.mail = []
      · have htoHost : s.toHost ≠ [] := fun hnil => by
          simp [hmail, hnil, hr, hw, hs.drained] at hwait
        suffices ∃ s', s.agentStep = some s' by
          obtain ⟨s', h⟩ := this
          exact ⟨.agent, s', hbusy nofun, h⟩
        unfold agentStep
        split
        · exact ⟨_, rfl⟩
        · split
          · next h => exact absurd h htoHost
          · exact ⟨_, rfl⟩
      · suffices ∃ s', s.relayStep = some s' by
          obtain ⟨s', h⟩ := this
          exact ⟨.relay, s', hbusy nofun, h⟩
        simp only [relayStep, hrelay]
        split
        · exact ⟨_, rfl⟩
        · exact ⟨_, rfl⟩
        · exact ⟨_, rfl⟩
        · next h => exact absurd h hmail
    · have hidle : ¬ s.Idle .writer := fun hi => hi.2.2.2 hr
      suffices ∃ s', s.writerStep = some s' by
        obtain ⟨s', h⟩ := this
        exact ⟨.writer, s', hidle, h⟩
      unfold writerStep
      split
      · split <;> exact ⟨_, rfl⟩
      · split <;> exact ⟨_, rfl⟩
      · exact ⟨_, rfl⟩
      · next h => exact absurd h hw

end Forward

/-- For all bytes `xs` of the peer on the host and `ys` of the server in the guest, each
    endpoint half-closing after its own: every run gets both endpoints to the end of
    their streams, and whoever is there has got exactly the other's bytes, in every
    interleaving in which the guest's writer does not end for the end of the server's
    stream with bytes of the peer still to be written, and in no other. -/
theorem forward_exact_iff (xs ys : List α) :
    Finishes Forward.step Forward.Idle Forward.Ended (Forward.start xs ys) ∧
      ∀ as, Along Forward.step (Forward.Exact xs ys) (Forward.start xs ys) as ↔
        Avoids Forward.step Forward.Cuts (Forward.start xs ys) as := by
  constructor
  · apply finishes_of_measure (I := Forward.Inv xs ys) Forward.measure
    · intro s a s' hs h
      exact hs.step h
    · intro s a s' _ h
      exact measure_move (step_move h)
    · intro s hs hend
      exact live hs hend
    · exact Forward.inv_start xs ys
  · intro as
    exact along_iff_avoids (fun _ _ _ hs h => hs.step h)
      (fun _ _ _ hs hx h => exact_step hs hx h) (Forward.inv_start xs ys) ⟨nofun, nofun⟩ as

/-- The server half-closes before the peer has sent its byte: the guest's reader ends,
    then its writer, and the server has got nothing. -/
theorem forward_may_cut :
    ([.read 0, .signal, .writer].foldlM Forward.step (Forward.start [(7 : UInt8)] [])).map
      (fun s => (s.serverEof, s.serverGot, s.peer)) = some (true, [], [7]) := by
  decide

end Lnx
