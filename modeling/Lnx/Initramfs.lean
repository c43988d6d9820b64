import Lnx.Lib.Region
import Lnx.Lib.Utf8
import Mathlib.Data.Nat.Digits.Lemmas

/-!
# The initramfs

`write_agent` (`src/src/initramfs.rs`) packs the guest agent under three names into a cpio
archive of the newc format, which the kernel unpacks at boot.

* `readCpio`: the entries of an archive by the rules of the format, which aligns names and
  data to four bytes from the start of the archive.
* `readEntry_entry`: what `entry` appends is read back, wherever in the archive it begins.
* `write_agent_decodes`: the archive of an agent holds it three times, then the trailer and
  zeros.
-/

namespace Lnx.Initramfs

open List Utf8

/-! ## Writing -/

/-- `{n:08X}`: the hexadecimal digits in upper case, with zeros in front up to eight. -/
def hex08 (n : ℕ) : Bytes := ((Nat.digits 16 n).rightpad 8 0).reverse.map (digitByte true)

/-- `buf` with zeros up to a multiple of `n` bytes. -/
def padTo (n : ℕ) (buf : Bytes) : Bytes :=
  if buf.length % n ≠ 0 then buf ++ replicate (n - buf.length % n) 0 else buf

def pad4 : Bytes → Bytes := padTo 4

def magic : Bytes := utf8 "070701".toList

/-- The numbers of a header: `ino`, `mode`, `uid`, `gid`, `nlink`, `mtime`, `filesize`, four
    device numbers, `namesize` and `check`. -/
def header (name data : Bytes) (mode : ℕ) : List ℕ :=
  [1, mode, 0, 0, 1, 0, data.length, 0, 0, 0, 0, name.length + 1, 0]

/-- The `write!` of a header. -/
def writeHeader (buf name data : Bytes) (mode : ℕ) : Bytes :=
  buf ++ magic ++ (header name data mode).flatMap hex08

def entry (buf name data : Bytes) (mode : ℕ) : Bytes :=
  let buf := writeHeader buf name data mode
  let buf := pad4 (buf ++ (name ++ [0]))
  pad4 (buf ++ data)

def trailer : Bytes := utf8 "TRAILER!!!".toList

/-- The bytes that `write_agent` writes. -/
def writeAgent (agent : Bytes) : Bytes :=
  let buf := entry [] (utf8 "init".toList) agent 0o100755
  let buf := entry buf (utf8 "lnx-agent".toList) agent 0o100755
  let buf := entry buf (utf8 "lnxctl".toList) agent 0o100755
  padTo 512 (entry buf trailer [] 0)

/-! ## Reading -/

structure CpioEntry where
  name : Bytes
  mode : ℕ
  data : Bytes

/-- The number that eight hexadecimal digits denote. -/
def readHex (bs : Bytes) : Option ℕ :=
  if bs.length = 8 then (bs.mapM hexDigit).map fun ds => Nat.ofDigits 16 ds.reverse else none

def readFields : ℕ → Bytes → Option (List ℕ)
  | 0, _ => some []
  | n + 1, bs => (readHex (bs.take 8)).bind fun v => (readFields n (bs.drop 8)).map (v :: ·)

def align4 (n : ℕ) : ℕ := (n + 3) / 4 * 4

/-- The entry whose header begins at `pos`, and where the next one begins. -/
def readEntry (archive : Bytes) (pos : ℕ) : Option (CpioEntry × ℕ) :=
  if slice archive pos 6 = magic then
    match readFields 13 (slice archive (pos + 6) 104) with
    | some [_, mode, _, _, _, _, filesize, _, _, _, _, namesize, _] =>
      let name := slice archive (pos + 110) namesize
      let start := align4 (pos + 110 + namesize)
      let data := slice archive start filesize
      if name.length = namesize ∧ name.getLast? = some 0 ∧ data.length = filesize then
        some (⟨name.dropLast, mode, data⟩, align4 (start + filesize))
      else none
    | _ => none
  else none

/-- The entries from `pos` on up to the trailer, if they are fewer than `n`, and where the
    trailer ends. -/
def readEntries (archive : Bytes) : ℕ → ℕ → Option (List CpioEntry × ℕ)
  | 0, _ => none
  | n + 1, pos =>
    (readEntry archive pos).bind fun r =>
      if r.1.name = trailer then some ([], r.2)
      else (readEntries archive n r.2).map fun es => (r.1 :: es.1, es.2)

def readCpio (archive : Bytes) : Option (List CpioEntry × ℕ) := readEntries archive archive.length 0

/-! ## Numbers -/

theorem mapM_hexDigit {ds : List ℕ} (h : ∀ d ∈ ds, d < 16) :
    (ds.map (digitByte true)).mapM hexDigit = some ds := by
  induction ds with
  | nil => rfl
  | cons d ds ih =>
    rw [map_cons, mapM_cons, (utf8_digitChar true d (h d mem_cons_self)).2,
      ih fun x hx => h x (mem_cons_of_mem d hx)]
    rfl

theorem length_hex08 {n : ℕ} (h : n < 2 ^ 32) : (hex08 n).length = 8 := by
  have hle : (Nat.digits 16 n).length ≤ 8 := (Nat.digits_length_le_iff (by decide) n).2 h
  simp [hex08, rightpad, hle]

theorem readHex_hex08 {n : ℕ} (h : n < 2 ^ 32) : readHex (hex08 n) = some n := by
  have hdigit : ∀ d ∈ ((Nat.digits 16 n).rightpad 8 0).reverse, d < 16 := by
    intro d hd
    rcases mem_append.1 (mem_reverse.1 hd) with hd | hd
    · exact Nat.digits_lt_base (by decide) hd
    · rw [eq_of_mem_replicate hd]
      decide
  rw [readHex, if_pos (length_hex08 h), hex08, mapM_hexDigit hdigit, Option.map_some, reverse_reverse,
    rightpad, Nat.ofDigits_append_replicate_zero, Nat.ofDigits_digits]

theorem read_fields {vs : List ℕ} (h : ∀ v ∈ vs, v < 2 ^ 32) :
    (vs.flatMap hex08).length = 8 * vs.length ∧ readFields vs.length (vs.flatMap hex08) = some vs := by
  induction vs with
  | nil => exact ⟨rfl, rfl⟩
  | cons v vs ih =>
    have hlen := length_hex08 (h v mem_cons_self)
    obtain ⟨hlens, hread⟩ := ih fun x hx => h x (mem_cons_of_mem v hx)
    rw [flatMap_cons, length_append, length_cons, readFields, take_left' hlen, drop_left' hlen,
      readHex_hex08 (h v mem_cons_self), hread]
    exact ⟨by omega, rfl⟩

/-! ## Entries -/

variable {archive buf name data : Bytes} {mode : ℕ}

theorem prefix_padTo (n : ℕ) (buf : Bytes) : buf <+: padTo n buf := by
  unfold padTo
  split
  · exact prefix_append _ _
  · exact prefix_rfl

theorem exists_padTo_512 (buf : Bytes) :
    ∃ z < 512, padTo 512 buf = buf ++ replicate z 0 ∧ 512 ∣ buf.length + z := by
  unfold padTo
  split
  · exact ⟨512 - buf.length % 512, by omega, rfl, by omega⟩
  · exact ⟨0, by decide, (append_nil _).symm, by omega⟩

theorem length_pad4 (buf : Bytes) : (pad4 buf).length = align4 buf.length := by
  unfold pad4 padTo align4
  split
  · rw [length_append, length_replicate]
    omega
  · omega

theorem slice_of_prefix {a b : Bytes} {o n : ℕ} (h : a ++ b <+: archive) (ha : a.length = o)
    (hb : b.length = n) : slice archive o n = b := by
  obtain ⟨rest, rfl⟩ := h
  rw [slice, append_assoc, drop_left' ha, take_left' hb]

theorem prefix_entry (buf name data : Bytes) (mode : ℕ) : buf ++ magic <+: entry buf name data mode :=
  (prefix_append _ _).trans ((prefix_append _ (name ++ [0])).trans
    ((prefix_padTo 4 _).trans ((prefix_append _ data).trans (prefix_padTo 4 _))))

theorem readEntry_entry (h : entry buf name data mode <+: archive) (hname : name.length + 1 < 2 ^ 32)
    (hdata : data.length < 2 ^ 32) (hmode : mode < 2 ^ 32) :
    readEntry archive buf.length =
      some (⟨name, mode, data⟩, (entry buf name data mode).length) := by
  have hfits : ∀ v ∈ header name data mode, v < 2 ^ 32 := by
    simpa [header] using ⟨hmode, hdata, hname⟩
  obtain ⟨hlen, hread⟩ := read_fields hfits
  have hhead : (writeHeader buf name data mode).length = buf.length + 110 := by
    rw [writeHeader, length_append, length_append, hlen, Nat.add_assoc]
    rfl
  have hmid : (pad4 (writeHeader buf name data mode ++ (name ++ [0]))).length =
      align4 (buf.length + 110 + (name.length + 1)) := by
    rw [length_pad4, length_append, hhead, length_append]
    rfl
  have hend : (entry buf name data mode).length =
      align4 (align4 (buf.length + 110 + (name.length + 1)) + data.length) := by
    rw [entry, length_pad4, length_append, hmid]
  -- what is read stands at the end of a beginning of the archive
  have hfile := (prefix_padTo 4 _).trans h
  have hnamed := (prefix_padTo 4 _).trans ((prefix_append _ data).trans hfile)
  have hheader := (prefix_append _ (name ++ [0])).trans hnamed
  have hmagic : slice archive buf.length 6 = magic :=
    slice_of_prefix ((prefix_append _ _).trans hheader) rfl rfl
  have hfields : slice archive (buf.length + 6) 104 = (header name data mode).flatMap hex08 :=
    slice_of_prefix hheader length_append hlen
  have hname : slice archive (buf.length + 110) (name.length + 1) = name ++ [0] :=
    slice_of_prefix hnamed hhead length_append
  have hread : readFields 13 ((header name data mode).flatMap hex08) = some (header name data mode) := hread
  rw [hend, readEntry, if_pos hmagic, hfields, hread]
  simp only [header]
  rw [hname, slice_of_prefix hfile hmid rfl]
  simp

/-! ## Archives -/

/-- Entries with the same data under several names, and the trailer. -/
def entries (data : Bytes) (mode : ℕ) : List Bytes → Bytes → Bytes
  | [], buf => entry buf trailer [] 0
  | name :: names, buf => entries data mode names (entry buf name data mode)

theorem prefix_entries (data : Bytes) (mode : ℕ) (names : List Bytes) (buf : Bytes) :
    buf ++ magic <+: entries data mode names buf := by
  induction names generalizing buf with
  | nil => exact prefix_entry _ _ _ _
  | cons name names ih => exact (prefix_entry _ _ _ _).trans ((prefix_append _ _).trans (ih _))

theorem readEntries_entries (hdata : data.length < 2 ^ 32) (hmode : mode < 2 ^ 32) {names : List Bytes}
    (hnames : ∀ name ∈ names, name ≠ trailer ∧ name.length + 1 < 2 ^ 32) {n : ℕ}
    (hn : names.length < n) (h : entries data mode names buf <+: archive) :
    readEntries archive n buf.length =
      some (names.map fun name => ⟨name, mode, data⟩, (entries data mode names buf).length) := by
  induction names generalizing buf n with
  | nil =>
    cases n with
    | zero => cases hn
    | succ n =>
      rw [readEntries, readEntry_entry h (by decide) (by decide) (by decide), Option.bind_some, if_pos rfl]
      rfl
  | cons name names ih =>
    cases n with
    | zero => cases hn
    | succ n =>
      obtain ⟨hne, hname⟩ := hnames name mem_cons_self
      have hentry := ((prefix_append _ _).trans (prefix_entries data mode names _)).trans h
      rw [readEntries, readEntry_entry hentry hname hdata hmode, Option.bind_some, if_neg hne,
        ih (fun x hx => hnames x (mem_cons_of_mem name hx)) (Nat.lt_of_succ_lt_succ hn) h]
      rfl

/-- The names that the agent has in the archive. -/
def agentNames : List Bytes := ["init", "lnx-agent", "lnxctl"].map fun n => utf8 n.toList

/-- The archive reads as the agent under its names, in files that all may execute, up to
    the trailer; from there it has zeros, up to a multiple of 512 bytes. -/
def Decodes (archive agent : Bytes) : Prop :=
  ∃ stop, readCpio archive = some (agentNames.map fun name => ⟨name, 0o100755, agent⟩, stop) ∧
    stop ≤ archive.length ∧ archive.length < stop + 512 ∧ 512 ∣ archive.length ∧
    ∀ b ∈ archive.drop stop, b = 0

theorem write_agent_decodes (agent : Bytes) (h : agent.length < 2 ^ 32) :
    Decodes (writeAgent agent) agent := by
  have heq : writeAgent agent = padTo 512 (entries agent 0o100755 agentNames []) := rfl
  obtain ⟨z, hz, hpad, hdvd⟩ := exists_padTo_512 (entries agent 0o100755 agentNames [])
  have hnames : ∀ name ∈ agentNames, name ≠ trailer ∧ name.length + 1 < 2 ^ 32 := by decide
  have hlong : agentNames.length < (entries agent 0o100755 agentNames [] ++ replicate z 0).length := by
    have hmagic := (prefix_entries agent 0o100755 agentNames []).length_le
    have hthree : agentNames.length < ([] ++ magic).length := by decide
    rw [length_append]
    omega
  have hmode : 0o100755 < 2 ^ 32 := by decide
  have hread := readEntries_entries h hmode hnames hlong
    (prefix_append (entries agent 0o100755 agentNames []) (replicate z 0))
  rw [heq, hpad]
  refine ⟨_, hread, ?_⟩
  rw [length_append, length_replicate, drop_left]
  exact ⟨by omega, by omega, hdvd, fun b hb => eq_of_mem_replicate hb⟩

/-- The first four bytes of an ELF file, as an agent. -/
theorem elf_magic_decodes : Decodes (writeAgent [0x7f, 0x45, 0x4c, 0x46]) [0x7f, 0x45, 0x4c, 0x46] :=
  write_agent_decodes _ (by decide)

end Lnx.Initramfs
