import Lnx.Guest.Table
import Lnx.Lib.Pieces
import Lnx.Lib.Varint

/-!
# Frames of the host and agent protocol

A message (`lnx-protocol/src/lib.rs`) travels as its length in four bytes, big end
first, and its postcard form. Host (`runner/protocol_io.rs` lines 14–34) and guest agent
(`guest-agent/src/main.rs` lines 1619–1645) each have a writer and a reader of
their own.

Postcard is a library: `Postcard` says what is used of it, and `postcard` shows that there
is such an encoding of the messages.

* `hostReads_frames`, `agentReads_frames`: either side reads what the other has written,
  however the stream is split.
* `Producer`: those that send `Data` and `Stderr`. All but one send what one `read` into a
  buffer of 8192 bytes has returned. `send_all_stdin` reads all of standard
  input first.
* `frames_alike_iff`: no `Data` is too large for a frame if and only if that input is not.
-/

namespace Lnx

open Pieces Wire List

/-! ## Messages -/

/-- `lnx_protocol::Message` -/
inductive ProtocolMessage
  | hello (version : UInt16)
  | openExec (channelId : ChannelId) (argv : List String) (cwd : String) (pty : Bool)
      (term colorterm : String) (rows cols : UInt16) (uid gid : UInt32) (group : String)
      (env : List (String × String))
  | openTcp (channelId : ChannelId) (host : String) (port : UInt16)
  | checkpoint (channelId : ChannelId) (request : String)
  | checkpointCreated (channelId : ChannelId)
  | data (channelId : ChannelId) (bytes : List UInt8)
  | stderr (channelId : ChannelId) (bytes : List UInt8)
  | execStarted (channelId : ChannelId)
  | eof (channelId : ChannelId)
  | windowResize (channelId : ChannelId) (rows cols : UInt16)
  | exitStatus (channelId : ChannelId) (status : Int32)
  | close (channelId : ChannelId)
  | error (channelId : ChannelId) (message : String)
  | restoreSync (channelId : ChannelId) (entropy : List UInt8)
  | restoreSynced (channelId : ChannelId)
  | snapshotExit (channelId : ChannelId)
  | openUrl (channelId : ChannelId) (url : String)
  | openUrlResult (channelId : ChannelId) (ok : Bool)
  | portListeners (ports : List UInt16)
  | snapshotReady
  | addForward (channelId : ChannelId) (listenHost : String) (listenPort : UInt16)
      (guestHost : String) (guestPort : UInt16)
  | forwardAdded (channelId : ChannelId)
  | setClock (unixNanos : UInt64)
  | keepRunning (channelId : ChannelId)
  | keepingRunning (channelId : ChannelId)
  deriving DecidableEq

/-- The length of the postcard form of a `Data` or a `Stderr` of `n` bytes: the number of the
    variant, the id, the length and the bytes. -/
def dataSize (c : ChannelId) (n : ℕ) : ℕ :=
  1 + (Wire.putVarint c.toNat).length + (Wire.putVarint n).length + n

/-- What is used of postcard: what it writes it reads back, and how long two of the
    messages get. -/
structure Postcard where
  toAllocvec : ProtocolMessage → List UInt8
  fromBytes : List UInt8 → Option ProtocolMessage
  fromBytes_toAllocvec : ∀ m, fromBytes (toAllocvec m) = some m
  length_data : ∀ c bytes, (toAllocvec (.data c bytes)).length = dataSize c bytes.length
  length_stderr : ∀ c bytes, (toAllocvec (.stderr c bytes)).length = dataSize c bytes.length

namespace ProtocolMessage

open Wire

/-- How the fields of a variant are written. -/
structure Form where
  {α : Type}
  wire : Wire α
  make : α → ProtocolMessage

/-- The fields of `OpenExec`. -/
def execFields : Wire (ChannelId × List String × String × Bool × (String × String) ×
    (UInt16 × UInt16) × (UInt32 × UInt32) × String × List (String × String)) :=
  u64.pair (utf8.seq.pair (utf8.pair (bool.pair ((utf8.pair utf8).pair ((u16.pair u16).pair
    ((u32.pair u32).pair (utf8.pair (utf8.pair utf8).seq)))))))

/-- The variants, by number; 24 is the last. -/
def forms : ℕ → Form
  | 0 => ⟨u16, hello⟩
  | 1 => ⟨execFields, fun (c, argv, cwd, pty, (term, colorterm), (rows, cols), (uid, gid), group, env) =>
      openExec c argv cwd pty term colorterm rows cols uid gid group env⟩
  | 2 => ⟨u64.pair (utf8.pair u16), fun (c, host, port) => openTcp c host port⟩
  | 3 => ⟨u64.pair utf8, fun (c, request) => checkpoint c request⟩
  | 4 => ⟨u64, checkpointCreated⟩
  | 5 => ⟨u64.pair bytes, fun (c, bs) => data c bs⟩
  | 6 => ⟨u64.pair bytes, fun (c, bs) => stderr c bs⟩
  | 7 => ⟨u64, execStarted⟩
  | 8 => ⟨u64, eof⟩
  | 9 => ⟨u64.pair (u16.pair u16), fun (c, rows, cols) => windowResize c rows cols⟩
  | 10 => ⟨u64.pair i32, fun (c, status) => exitStatus c status⟩
  | 11 => ⟨u64, close⟩
  | 12 => ⟨u64.pair utf8, fun (c, message) => error c message⟩
  | 13 => ⟨u64.pair bytes, fun (c, entropy) => restoreSync c entropy⟩
  | 14 => ⟨u64, restoreSynced⟩
  | 15 => ⟨u64, snapshotExit⟩
  | 16 => ⟨u64.pair utf8, fun (c, url) => openUrl c url⟩
  | 17 => ⟨u64.pair bool, fun (c, ok) => openUrlResult c ok⟩
  | 18 => ⟨u16.seq, portListeners⟩
  | 19 => ⟨unit, fun _ => snapshotReady⟩
  | 20 => ⟨u64.pair ((utf8.pair u16).pair (utf8.pair u16)), fun (c, (lh, lp), (gh, gp)) =>
      addForward c lh lp gh gp⟩
  | 21 => ⟨u64, forwardAdded⟩
  | 22 => ⟨u64, setClock⟩
  | 23 => ⟨u64, keepRunning⟩
  | _ => ⟨u64, keepingRunning⟩

/-- The number of a message's variant, and its fields. -/
def parts : ProtocolMessage → (n : ℕ) × (forms n).α
  | hello version => ⟨0, version⟩
  | openExec c argv cwd pty term colorterm rows cols uid gid group env =>
    ⟨1, c, argv, cwd, pty, (term, colorterm), (rows, cols), (uid, gid), group, env⟩
  | openTcp c host port => ⟨2, c, host, port⟩
  | checkpoint c request => ⟨3, c, request⟩
  | checkpointCreated c => ⟨4, c⟩
  | data c bs => ⟨5, c, bs⟩
  | stderr c bs => ⟨6, c, bs⟩
  | execStarted c => ⟨7, c⟩
  | eof c => ⟨8, c⟩
  | windowResize c rows cols => ⟨9, c, rows, cols⟩
  | exitStatus c status => ⟨10, c, status⟩
  | close c => ⟨11, c⟩
  | error c message => ⟨12, c, message⟩
  | restoreSync c entropy => ⟨13, c, entropy⟩
  | restoreSynced c => ⟨14, c⟩
  | snapshotExit c => ⟨15, c⟩
  | openUrl c url => ⟨16, c, url⟩
  | openUrlResult c ok => ⟨17, c, ok⟩
  | portListeners ports => ⟨18, ports⟩
  | snapshotReady => ⟨19, ()⟩
  | addForward c lh lp gh gp => ⟨20, c, (lh, lp), (gh, gp)⟩
  | forwardAdded c => ⟨21, c⟩
  | setClock nanos => ⟨22, nanos⟩
  | keepRunning c => ⟨23, c⟩
  | keepingRunning c => ⟨24, c⟩

/-- An encoding of the messages: the number of the variant, then its fields in order. -/
def put (m : ProtocolMessage) : List UInt8 :=
  putVarint m.parts.1 ++ (forms m.parts.1).wire.put m.parts.2

def get (bs : List UInt8) : Option ProtocolMessage :=
  (getVarint bs).bind fun (n, bs) =>
    if n ≤ 24 then ((forms n).wire.get bs).map fun r => (forms n).make r.1 else none

theorem get_put (m : ProtocolMessage) : get m.put = some m := by
  have hmake : (forms m.parts.1).make m.parts.2 = m := by
    cases m <;> rfl
  have hlast : m.parts.1 ≤ 24 := by
    cases m <;> simp [parts]
  have hread := (forms m.parts.1).wire.get_put m.parts.2 []
  rw [append_nil] at hread
  rw [get, put, getVarint_putVarint, Option.bind_some]
  simp [hread, hmake, hlast]

end ProtocolMessage

theorem ProtocolMessage.length_put_bytes (n : ℕ) (hn : n < 128) (c : ChannelId) (bs : List UInt8) :
    (Wire.putVarint n ++ (Wire.u64.pair Wire.bytes).put (c, bs)).length = dataSize c bs.length := by
  have hvariant : (Wire.putVarint n).length = 1 := by
    rw [Wire.putVarint, if_pos hn]
    rfl
  have hfields : ((Wire.u64.pair Wire.bytes).put (c, bs)).length =
      (Wire.putVarint c.toNat).length + (Wire.bytes.put bs).length := length_append
  rw [length_append, hvariant, hfields, Wire.length_put_bytes, dataSize]
  omega

/-- An instance of `Postcard`, so that what is assumed of postcard can be met. -/
def postcard : Postcard where
  toAllocvec := ProtocolMessage.put
  fromBytes := ProtocolMessage.get
  fromBytes_toAllocvec := ProtocolMessage.get_put
  length_data := ProtocolMessage.length_put_bytes 5 (Nat.lt_of_sub_eq_succ rfl)
  length_stderr := ProtocolMessage.length_put_bytes 6 (Nat.lt_of_sub_eq_succ rfl)

/-! ## Frames -/

/-- `MAX_MESSAGE_SIZE` -/
def maxMessageSize : ℕ := 16 * 1024 * 1024

/-- `u32::to_be_bytes` -/
def be32 (n : ℕ) : List UInt8 :=
  [UInt8.ofNat (n / 2 ^ 24), UInt8.ofNat (n / 2 ^ 16), UInt8.ofNat (n / 2 ^ 8), UInt8.ofNat n]

/-- `u32::from_be_bytes` -/
def ofBe32 (bs : List UInt8) : ℕ := bs.foldl (fun n b => 2 ^ 8 * n + b.toNat) 0

variable {n : ℕ} {c : ChannelId} {bytes : List UInt8}

theorem ofBe32_be32 (h : n < 2 ^ 32) : ofBe32 (be32 n) = n := by
  simp only [be32, ofBe32, foldl_cons, foldl_nil, UInt8.toNat_ofNat']
  omega

/-- What a reader finds at the beginning of a stream. -/
inductive FrameRead
  | ended
  | tooLarge (len : ℕ)
  | body (bytes : List UInt8) (rest : Pieces UInt8)

def readFrame (stream : Pieces UInt8) : FrameRead :=
  match Pieces.exact 4 stream with
  | none => .ended
  | some (len, stream) =>
    if maxMessageSize < ofBe32 len then .tooLarge (ofBe32 len)
    else match Pieces.exact (ofBe32 len) stream with
      | none => .ended
      | some (bytes, rest) => .body bytes rest

section frames

variable (P : Postcard)

/-- The message is not too large for a frame. -/
def FitsFrame (m : ProtocolMessage) : Prop := (P.toAllocvec m).length ≤ maxMessageSize

/-- The bytes of a frame. -/
def frameOf (m : ProtocolMessage) : List UInt8 :=
  be32 (P.toAllocvec m).length ++ P.toAllocvec m

inductive ProtocolError
  | tooLarge (len : ℕ)
  | closed
  | undecodable

/-- `write_message` of the host. -/
def hostWriteMessage (m : ProtocolMessage) : Except ProtocolError (List UInt8) :=
  if maxMessageSize < (P.toAllocvec m).length then .error (.tooLarge (P.toAllocvec m).length)
  else .ok (frameOf P m)

/-- `read_message` of the host. -/
def hostReadMessage (stream : Pieces UInt8) : Except ProtocolError (ProtocolMessage × Pieces UInt8) :=
  match readFrame stream with
  | .ended => .error .closed
  | .tooLarge len => .error (.tooLarge len)
  | .body bytes rest =>
    match P.fromBytes bytes with
    | some m => .ok (m, rest)
    | none => .error .undecodable

/-- `write_message` of the agent; it returns `false` instead. -/
def agentWriteMessage (m : ProtocolMessage) : Option (List UInt8) :=
  if maxMessageSize < (P.toAllocvec m).length then none else some (frameOf P m)

/-- What `read_message` of the agent does. -/
inductive AgentRead
  | died
  | none
  | message (m : ProtocolMessage) (rest : Pieces UInt8)

/-- `read_message` of the agent. -/
def agentReadMessage (stream : Pieces UInt8) : AgentRead :=
  match readFrame stream with
  | .ended => .none
  | .tooLarge _ => .died
  | .body bytes rest =>
    match P.fromBytes bytes with
    | some m => .message m rest
    | none => .none

/-- The message, if one was read. -/
def AgentRead.toOption : AgentRead → Option (ProtocolMessage × Pieces UInt8)
  | .died | .none => Option.none
  | .message m rest => some (m, rest)

/-- All the messages that a reader finds, up to `n` of them. -/
def readAll (read : Pieces UInt8 → Option (ProtocolMessage × Pieces UInt8)) :
    ℕ → Pieces UInt8 → List ProtocolMessage
  | 0, _ => []
  | n + 1, stream =>
    match read stream with
    | none => []
    | some (m, rest) => m :: readAll read n rest

/-- A reader of frames: it finds the message of a frame that is not too large, and
    nothing at the end. -/
structure ReadsFrames (read : Pieces UInt8 → Option (ProtocolMessage × Pieces UInt8)) : Prop where
  frame : ∀ m stream more, FitsFrame P m → stream.flatten = frameOf P m ++ more →
    ∃ rest, read stream = some (m, rest) ∧ rest.flatten = more
  ended : ∀ stream, stream.flatten = [] → read stream = none

variable {P} {stream : Pieces UInt8} {ms : List ProtocolMessage}

theorem readFrame_frameOf {m : ProtocolMessage} {more : List UInt8} (hm : FitsFrame P m)
    (h : stream.flatten = frameOf P m ++ more) :
    ∃ rest, readFrame stream = .body (P.toAllocvec m) rest ∧ rest.flatten = more := by
  have hlen : ofBe32 (be32 (P.toAllocvec m).length) = (P.toAllocvec m).length :=
    ofBe32_be32 (Nat.lt_of_le_of_lt hm (by decide))
  rw [frameOf, append_assoc] at h
  obtain ⟨rest, hrest, hflat⟩ := exact_append h
  obtain ⟨rest', hrest', hflat'⟩ := exact_append hflat
  refine ⟨rest', ?_, hflat'⟩
  have hfour : exact 4 stream = some (be32 (P.toAllocvec m).length, rest) := hrest
  simp only [readFrame, hfour, hlen, hrest', if_neg (Nat.not_lt.2 hm)]

theorem readFrame_nil (h : stream.flatten = []) : readFrame stream = .ended := by
  have hfour : exact 4 stream = none := exact_of_lt 4 stream (by rw [h]; decide)
  simp only [readFrame, hfour]

theorem hostReads_frames : ReadsFrames P fun stream => (hostReadMessage P stream).toOption := by
  constructor
  · intro m stream more hm h
    obtain ⟨rest, hread, hflat⟩ := readFrame_frameOf hm h
    refine ⟨rest, ?_, hflat⟩
    simp only [hostReadMessage, hread, P.fromBytes_toAllocvec]
    rfl
  · intro stream h
    simp only [hostReadMessage, readFrame_nil h]
    rfl

theorem agentReads_frames : ReadsFrames P fun stream => (agentReadMessage P stream).toOption := by
  constructor
  · intro m stream more hm h
    obtain ⟨rest, hread, hflat⟩ := readFrame_frameOf hm h
    refine ⟨rest, ?_, hflat⟩
    simp only [agentReadMessage, hread, P.fromBytes_toAllocvec]
    rfl
  · intro stream h
    simp only [agentReadMessage, readFrame_nil h]
    rfl

/-- Reading frames gives back the messages, and nothing else. -/
theorem ReadsFrames.readAll {read : Pieces UInt8 → Option (ProtocolMessage × Pieces UInt8)}
    (hread : ReadsFrames P read) (hms : ∀ m ∈ ms, FitsFrame P m)
    (h : stream.flatten = (ms.map (frameOf P)).flatten) (hn : ms.length ≤ n) :
    readAll read n stream = ms := by
  induction ms generalizing stream n with
  | nil =>
    cases n with
    | zero => rfl
    | succ n =>
      rw [Lnx.readAll, hread.ended stream h]
  | cons m ms ih =>
    rw [length_cons] at hn
    obtain ⟨k, rfl⟩ : ∃ k, n = k + 1 := ⟨n - 1, by omega⟩
    obtain ⟨rest, hrest, hflat⟩ := hread.frame m stream _ (hms m mem_cons_self) h
    rw [Lnx.readAll, hrest]
    dsimp only
    rw [ih (fun m' hm' => hms m' (mem_cons_of_mem m hm')) hflat (by omega)]

theorem mapM_hostWriteMessage (hms : ∀ m ∈ ms, FitsFrame P m) :
    ms.mapM (hostWriteMessage P) = .ok (ms.map (frameOf P)) := by
  induction ms with
  | nil => rfl
  | cons m ms ih =>
    have hm : hostWriteMessage P m = .ok (frameOf P m) := if_neg (Nat.not_lt.2 (hms m mem_cons_self))
    rw [mapM_cons, hm, ih fun m' hm' => hms m' (mem_cons_of_mem m hm')]
    rfl

theorem mapM_agentWriteMessage (hms : ∀ m ∈ ms, FitsFrame P m) :
    ms.mapM (agentWriteMessage P) = some (ms.map (frameOf P)) := by
  induction ms with
  | nil => rfl
  | cons m ms ih =>
    have hm : agentWriteMessage P m = some (frameOf P m) := if_neg (Nat.not_lt.2 (hms m mem_cons_self))
    rw [mapM_cons, hm, ih fun m' hm' => hms m' (mem_cons_of_mem m hm')]
    rfl

end frames

/-! ## Those that send data -/

/-- The size of the buffers that the producers read into. -/
def producerBuffer : ℕ := 8192

/-- What calls of `read` into the buffer return of an input that comes in pieces: the `k`th
    call returns one byte and up to `sizes[k]` more, as far as they fit. -/
@[simp] def readChunks : List ℕ → List UInt8 → List (List UInt8)
  | [], _ | _, [] => []
  | k :: sizes, input =>
    let n := min (k + 1) producerBuffer
    input.take n :: readChunks sizes (input.drop n)

theorem length_readChunks (sizes : List ℕ) (input : List UInt8) :
    ∀ chunk ∈ readChunks sizes input, chunk.length ≤ producerBuffer := by
  induction sizes generalizing input with
  | nil =>
    intro chunk h
    simp at h
  | cons k sizes ih =>
    cases input with
    | nil =>
      intro chunk h
      simp at h
    | cons b bs =>
      intro chunk h
      rw [readChunks] at h
      rcases mem_cons.1 h with rfl | h
      · rw [length_take]
        omega
      · exact ih _ chunk h
      · simp

/-- Those that send `Data`, and the guest's output `Stderr`. -/
inductive Producer
  /-- `send_all_stdin` of the client in deterministic mode, `runner.rs` lines 1694–1704 -/
  | sendAllStdin
  /-- `spawn_stdin_pump` of the client, lines 1708–1732 -/
  | stdinPump
  /-- the broker's reader of a forwarded connection, `runner/broker.rs` lines 867–903 -/
  | forward
  /-- `drain_output_message` of the agent -/
  | output (stderr : Bool)
  /-- the agent's reader of a forwarded connection -/
  | tcp

open Producer

/-- The messages with bytes that a producer builds of an input. -/
def Producer.messages (c : ChannelId) (sizes : List ℕ) (input : List UInt8) : Producer → List ProtocolMessage
  | sendAllStdin => if input.isEmpty then [] else [.data c input]
  | stdinPump | forward | tcp => (readChunks sizes input).map (.data c)
  | output stderr => (readChunks sizes input).map (if stderr then .stderr c else .data c)

theorem putVarint_channelId (c : ChannelId) : (Wire.putVarint c.toNat).length ≤ 10 :=
  length_putVarint_le (by decide) (Nat.lt_of_lt_of_le c.toNat_lt (by decide))

theorem dataSize_le_of_buffer (c : ChannelId) (hn : n ≤ producerBuffer) :
    dataSize c n ≤ maxMessageSize := by
  have hlen : (putVarint n).length ≤ 2 :=
    length_putVarint_le (by decide) (Nat.lt_of_le_of_lt hn (by decide))
  have := putVarint_channelId c
  simp only [dataSize, maxMessageSize, producerBuffer] at *
  omega

variable (P : Postcard)

theorem fitsFrame_data_iff :
    FitsFrame P (.data c bytes) ↔ dataSize c bytes.length ≤ maxMessageSize := by
  rw [FitsFrame, P.length_data]

theorem fitsFrame_stderr_iff :
    FitsFrame P (.stderr c bytes) ↔ dataSize c bytes.length ≤ maxMessageSize := by
  rw [FitsFrame, P.length_stderr]

/-- What is read into the buffer makes a message that fits. -/
theorem fitsFrame_chunk (c : ChannelId) (sizes : List ℕ) (input : List UInt8) (stderr : Bool) :
    ∀ m ∈ (readChunks sizes input).map (if stderr then .stderr c else .data c), FitsFrame P m := by
  intro m hm
  obtain ⟨chunk, hchunk, rfl⟩ := mem_map.1 hm
  have hlen := dataSize_le_of_buffer c (length_readChunks sizes input chunk hchunk)
  cases stderr with
  | false => exact (fitsFrame_data_iff P).2 hlen
  | true => exact (fitsFrame_stderr_iff P).2 hlen

/-- Host and agent read what the other has written, whatever the messages that fit and
    however the stream is split. All that the client, the broker and the agent send
    with bytes fits if and only if all of standard input, which `send_all_stdin` puts into
    one message, does. -/
theorem frames_alike_iff :
    (∀ ms : List ProtocolMessage, (∀ m ∈ ms, FitsFrame P m) →
      (∃ frames, ms.mapM (hostWriteMessage P) = .ok frames ∧ ∀ stream : Pieces UInt8,
        stream.flatten = frames.flatten → ∀ n, ms.length ≤ n →
          readAll (fun stream => (agentReadMessage P stream).toOption) n stream = ms) ∧
      ∃ frames, ms.mapM (agentWriteMessage P) = some frames ∧ ∀ stream : Pieces UInt8,
        stream.flatten = frames.flatten → ∀ n, ms.length ≤ n →
          readAll (fun stream => (hostReadMessage P stream).toOption) n stream = ms) ∧
    ∀ (c : ChannelId) (input : List UInt8),
      (∀ (p : Producer) (sizes : List ℕ), ∀ m ∈ p.messages c sizes input, FitsFrame P m) ↔
        (input ≠ [] → dataSize c input.length ≤ maxMessageSize) := by
  refine ⟨fun ms hms => ⟨⟨_, mapM_hostWriteMessage hms, fun stream h n hn => ?_⟩,
    ⟨_, mapM_agentWriteMessage hms, fun stream h n hn => ?_⟩⟩, fun c input => ⟨fun h hne => ?_,
      fun h p sizes m hm => ?_⟩⟩
  · exact agentReads_frames.readAll hms h hn
  · exact hostReads_frames.readAll hms h hn
  · have hmem : .data c input ∈ sendAllStdin.messages c [] input := by
      rw [messages, if_neg (by simpa using hne)]
      exact mem_singleton_self _
    exact (fitsFrame_data_iff P).1 (h .sendAllStdin [] _ hmem)
  · cases p with
    | sendAllStdin =>
      rw [messages] at hm
      split_ifs at hm with hempty
      · cases hm
      · obtain rfl := mem_singleton.1 hm
        exact (fitsFrame_data_iff P).2 (h (by simpa using hempty))
    | stdinPump | forward | tcp => exact fitsFrame_chunk P c sizes input false m hm
    | output stderr => exact fitsFrame_chunk P c sizes input stderr m hm

/-- Standard input of 16 MiB, all of it zeros. -/
def largeInput : List UInt8 := List.replicate maxMessageSize 0

/-- Input of that length is put into a `Data` that the host's own writer refuses. -/
theorem stdin_may_not_fit : Producer.sendAllStdin.messages 0 [] largeInput = [.data 0 largeInput] ∧
    ∃ len, hostWriteMessage postcard (.data 0 largeInput) = .error (.tooLarge len) := by
  have hlen : largeInput.length = maxMessageSize := length_replicate
  constructor
  · rw [messages, if_neg]
    intro h
    exact absurd h (by decide)
  · refine ⟨_, if_pos ?_⟩
    rw [postcard.length_data, hlen, dataSize]
    omega

/-- An `Eof` and one byte of data are read as they were written, also byte by byte. -/
theorem frames_alike_small :
    readAll (fun stream => (agentReadMessage postcard stream).toOption) 2
      (([.data 7 [1], .eof 7] : List ProtocolMessage).flatMap (frameOf postcard) |>.map fun b => [b]) =
      [.data 7 [1], .eof 7] := by
  have hfits : ∀ m ∈ ([.data 7 [1], .eof 7] : List ProtocolMessage), FitsFrame postcard m := by
    intro m hm
    rcases mem_cons.1 hm with rfl | hm
    · exact (fitsFrame_data_iff postcard).2 (dataSize_le_of_buffer 7 (by decide))
    · obtain rfl := mem_singleton.1 hm
      have hvariant : (putVarint 8).length ≤ 1 := length_putVarint_le (by decide) (by decide)
      have hid := putVarint_channelId 7
      show (putVarint 8 ++ putVarint (UInt64.toNat 7)).length ≤ maxMessageSize
      rw [length_append, maxMessageSize]
      omega
  obtain ⟨⟨frames, hframes, hread⟩, -⟩ := (frames_alike_iff postcard).1 _ hfits
  cases (mapM_hostWriteMessage hfits).symm.trans hframes
  refine hread _ ?_ 2 (by decide)
  rw [← flatMap_def, flatMap_singleton', flatMap_def]

end Lnx
