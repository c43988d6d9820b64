import Mathlib.Data.Nat.Notation
import Lnx.Lib.Strings
import Lnx.Lib.Utf8
import Lnx.Lib.Words

/-!
# Launch parameters on the kernel command line

The owner passes the guest its share paths in three words of the init environment
(`src/runner.rs` lines 896–916), which libkrun joins with blanks into the kernel command
line (`libkrun/src/lib.rs` lines 990–1008 and `Cmdline::insert_str`). The kernel cuts that
line at blanks outside double quotes and gives init every `name=value` word as an
environment variable; from those `mount_host_shares` and `mount_vhost_user_fs`
(`guest-agent/src/main.rs` lines 342–391) mount the shares. Nothing on the way quotes a
value, and `validate_vhost_user_fs_mount` (`src/cli.rs` lines 2617–2651) only keeps the
separators of the list of mounts out of a mount point.

* `mountVhostUserFs_guestEnv`: the list of mounts survives its own encoding.
* `launch_parameters_iff`: all reach the guest if and only if the paths are absolute, of
  printable ASCII, without a blank outside double quotes or an open quote, and the line fits.
* `blank_in_home`: a home directory with a blank in it is cut there.
-/

namespace Lnx

open List
open Words (words unwords Closed quoteAfter)
open Lines (Text showU64 splitOnce lookupLast)
open Utf8 (lossy)

/-! ## The mounts the command line accepts -/

structure VhostUserFsMount where
  tag : Text
  mountpoint : Text
  socket : Text
  readOnly : Bool
  deriving DecidableEq

/-- What `parse_vhost_user_fs_mount` and the checks report. -/
inductive VhostUserFsError
  | readOnlyOnly
  | invalidOption (part : Text)
  | invalidKey (key : Text)
  | missingTag
  | missingMount
  | missingSocket
  | tagLength
  | tagCharacters
  | tagReserved (tag : Text)
  | mountpoint
  | socket
  | duplicateTag (tag : Text)

def tagCharacter (c : Char) : Bool :=
  (c.toNat < 128 && c.isAlphanum) || c == '.' || c == '_' || c == '-'

def validateVhostUserFsMount (m : VhostUserFsMount) : Except VhostUserFsError Unit :=
  if !m.readOnly then .error .readOnlyOnly
  else if m.tag.isEmpty || 36 < (String.ofList m.tag).utf8ByteSize then .error .tagLength
  else if !m.tag.all tagCharacter then .error .tagCharacters
  else if m.tag = "home".toList ∨ m.tag = "cwd".toList then .error (.tagReserved m.tag)
  else if m.mountpoint.head? ≠ some '/' ∨ ':' ∈ m.mountpoint ∨ ';' ∈ m.mountpoint ∨
      ',' ∈ m.mountpoint then .error .mountpoint
  else if m.socket.head? ≠ some '/' ∨ ',' ∈ m.socket ∨ ';' ∈ m.socket then .error .socket
  else .ok ()

/-- The options read so far. -/
structure MountOptions where
  tag : Option Text
  mountpoint : Option Text
  socket : Option Text

def parseMountOption (o : MountOptions) (part : Text) : Except VhostUserFsError MountOptions :=
  if part = "ro".toList ∨ part = "readonly".toList then .ok o
  else if part = "rw".toList then .error .readOnlyOnly
  else
    match splitOnce '=' part with
    | none => .error (.invalidOption part)
    | some (key, value) =>
      if key = "tag".toList then .ok { o with tag := some value }
      else if key = "mount".toList then .ok { o with mountpoint := some value }
      else if key = "socket".toList then .ok { o with socket := some value }
      else .error (.invalidKey key)

def parseVhostUserFsMount (value : Text) : Except VhostUserFsError VhostUserFsMount := do
  let parts := (value.splitOn ',').filter fun part => !part.isEmpty
  let o ← parts.foldlM parseMountOption ⟨none, none, none⟩
  match o.tag, o.mountpoint, o.socket with
  | none, _, _ => throw .missingTag
  | some _, none, _ => throw .missingMount
  | some _, some _, none => throw .missingSocket
  | some tag, some mountpoint, some socket =>
    let mount : VhostUserFsMount := ⟨tag, mountpoint, socket, true⟩
    validateVhostUserFsMount mount
    return mount

/-- The check of the whole list, with the tags seen so far. -/
def validateVhostUserFsMounts (tags : List Text) :
    List VhostUserFsMount → Except VhostUserFsError Unit
  | [] => .ok ()
  | m :: ms => do
    validateVhostUserFsMount m
    if m.tag ∈ tags then throw (.duplicateTag m.tag)
    validateVhostUserFsMounts (m.tag :: tags) ms

/-- `vhost_user_fs_guest_env` -/
@[simp] def vhostUserFsEntry (m : VhostUserFsMount) : Text :=
  m.tag ++ ':' :: (m.mountpoint ++ ':' :: (if m.readOnly then "ro".toList else "rw".toList))

def vhostUserFsGuestEnv (mounts : List VhostUserFsMount) : Text :=
  [';'].intercalate (mounts.map vhostUserFsEntry)

/-! ## The owner -/

/-- A byte string read as text, one character per byte. -/
def byteText (p : List UInt8) : Text := p.map fun b => Char.ofNat b.toNat

/-- What the command line of the kernel depends on. -/
structure LaunchConfig where
  aarch64 : Bool
  nestedKvm : Bool
  initUnixSecs : UInt64
  noHostShares : Bool
  hostHome : List UInt8
  outsideHomeCwd : Option (List UInt8)
  vhostUserFs : List VhostUserFsMount

section owner

variable (cfg : LaunchConfig)

def guestHome : Text := if cfg.noHostShares then [] else lossy cfg.hostHome

def guestCwd : Text :=
  if cfg.noHostShares then [] else (cfg.outsideHomeCwd.map lossy).getD []

def virtiofsHome : Text := "LNX_VIRTIOFS_HOME".toList
def virtiofsCwd : Text := "LNX_VIRTIOFS_CWD".toList
def vhostUserFsName : Text := "LNX_VHOST_USER_FS".toList

/-- A `name=value` word. -/
def envWord (name value : Text) : Text := name ++ '=' :: value

/-- The words of the init environment before the three. -/
def fixedEnv : List Text :=
  ["PATH=/usr/local/sbin:/usr/local/bin:/usr/sbin:/usr/bin:/sbin:/bin".toList,
    "container=lnx".toList,
    envWord "LNX_HOST_UNIX_SECS".toList (showU64 cfg.initUnixSecs),
    "LNX_ROOT_DEVICE=/dev/pmem0".toList,
    "LNX_NET_IP=".toList,
    "LNX_NET_GATEWAY=".toList]

def initEnv : List Text :=
  fixedEnv cfg ++
    [envWord virtiofsHome (guestHome cfg), envWord virtiofsCwd (guestCwd cfg),
      envWord vhostUserFsName (vhostUserFsGuestEnv cfg.vhostUserFs)]

/-- The words of `kernel_cmdline`. -/
def kernelWords : List Text :=
  ["console=hvc0".toList, "reboot=k".toList, "panic=1".toList, "root=/dev/pmem0".toList,
    "rw".toList, "rootfstype=ext4".toList] ++
  (if cfg.aarch64 then ["arm64.nopauth".toList] else []) ++ ["rootflags=dax".toList] ++
  (if cfg.nestedKvm then ["kvm.allow_unsafe_mappings=1".toList] else [])

/-- `krun_env`, with the two words libkrun adds. -/
def krunEnv : Text :=
  ' ' :: (unwords ["KRUN_INIT=/init".toList, "KRUN_WORKDIR=/".toList] ++
    ' ' :: unwords (initEnv cfg))

/-- What is inserted into the command line, in order, but for the `virtio_mmio.device` words
    of x86_64. -/
def cmdlineSlugs : List Text :=
  [unwords (kernelWords cfg), krunEnv cfg, "KRUN_DHCP=1".toList, " -- --init".toList]

def cmdlineMaxSize : ℕ := if cfg.aarch64 then 2048 else 0x10000

/-- `valid_char` -/
def validChar (c : Char) : Bool := 32 ≤ c.toNat && c.toNat ≤ 126

/-- The line after a push. -/
def pushSlug (line slug : Text) : Text :=
  if line.isEmpty then slug else line ++ ' ' :: slug

/-- `Cmdline::insert_str`; every caller unwraps. -/
def insertStr (capacity : ℕ) (line slug : Text) : Option Text :=
  if slug.all validChar = true ∧
      line.length + slug.length + (if line.isEmpty then 0 else 1) < capacity then
    some (pushSlug line slug)
  else none

/-- The kernel command line, if the VM starts at all. -/
def cmdline : Option Text :=
  (cmdlineSlugs cfg).foldlM (insertStr (cmdlineMaxSize cfg)) []

end owner

/-! ## The guest -/

/-- The environment init gets: the words before `--` of the form `name=value`, later ones
    over earlier ones. -/
def kernelEnv (line : Text) (name : Text) : Option Text :=
  lookupLast (((words line).takeWhile (· != "--".toList)).filterMap (splitOnce '=')) name

structure GuestMount where
  tag : Text
  path : Text
  readOnly : Bool
  dax : Bool
  deriving DecidableEq

/-- The mount made, if any. -/
@[simp] def mountVirtiofsWithDax (tag guestPath : Text) (readOnly dax : Bool) : List GuestMount :=
  if tag.isEmpty || guestPath.isEmpty || guestPath.head? != some '/' then []
  else [⟨tag, guestPath, readOnly, dax⟩]

@[simp] def mountVirtiofs (tag guestPath : Text) (readOnly : Bool) : List GuestMount :=
  mountVirtiofsWithDax tag guestPath readOnly true

def mountHostShares (env : Text → Option Text) : List GuestMount :=
  (env virtiofsHome).elim [] (fun home => mountVirtiofs "home".toList home false) ++
    (env virtiofsCwd).elim [] fun cwd => mountVirtiofs "cwd".toList cwd false

/-- One entry of the list; malformed ones are skipped. -/
def mountEntry (mount : Text) : List GuestMount :=
  match mount.splitOn ':' with
  | [tag, guestPath, mode] =>
    if mode = "ro".toList then mountVirtiofsWithDax tag guestPath true false else []
  | _ => []

def mountVhostUserFs (env : Text → Option Text) : List GuestMount :=
  ((((env vhostUserFsName).getD []).splitOn ';').filter fun mount => !mount.isEmpty).flatMap
    mountEntry

/-! ## The property -/

/-- The words the kernel is to find. -/
def intendedWords (cfg : LaunchConfig) : List Text :=
  kernelWords cfg ++ ["KRUN_INIT=/init".toList, "KRUN_WORKDIR=/".toList] ++ initEnv cfg ++
    ["KRUN_DHCP=1".toList, "--".toList, "--init".toList]

/-- The bytes of the two share paths, empty where there is no share. -/
def shareHome (cfg : LaunchConfig) : Text := if cfg.noHostShares then [] else byteText cfg.hostHome

def shareCwd (cfg : LaunchConfig) : Text :=
  if cfg.noHostShares then [] else (cfg.outsideHomeCwd.map byteText).getD []

/-- The mounts the guest is to make, in order. -/
def intendedMounts (cfg : LaunchConfig) : List GuestMount :=
  (if cfg.noHostShares then [] else
    ⟨"home".toList, byteText cfg.hostHome, false, true⟩ ::
      (cfg.outsideHomeCwd.map fun cwd => ⟨"cwd".toList, byteText cwd, false, true⟩).toList) ++
    cfg.vhostUserFs.map fun m => ⟨m.tag, m.mountpoint, true, false⟩

/-- The VM starts, the kernel finds the words that were put there, the three values have the
    bytes they had on the host, and the guest mounts what was intended. -/
def ReachGuest (cfg : LaunchConfig) : Prop :=
  ∃ line, cmdline cfg = some line ∧ words line = intendedWords cfg ∧
    kernelEnv line virtiofsHome = some (shareHome cfg) ∧
    kernelEnv line virtiofsCwd = some (shareCwd cfg) ∧
    kernelEnv line vhostUserFsName = some (vhostUserFsGuestEnv cfg.vhostUserFs) ∧
    mountHostShares (kernelEnv line) ++ mountVhostUserFs (kernelEnv line) = intendedMounts cfg

/-- A host path that can stand on the line. -/
structure PathOk (p : List UInt8) : Prop where
  absolute : p.head? = some 47
  printable : ∀ b ∈ p, 32 ≤ b ∧ b ≤ 126
  closed : Closed (byteText p)

/-- The line, whatever its characters and its length. -/
def fullLine (cfg : LaunchConfig) : Text :=
  (cmdlineSlugs cfg).foldl pushSlug []

/-- The condition. -/
structure CanReach (cfg : LaunchConfig) : Prop where
  home : cfg.noHostShares = false → PathOk cfg.hostHome
  cwd : cfg.noHostShares = false → ∀ cwd ∈ cfg.outsideHomeCwd, PathOk cwd
  mountpoints : ∀ m ∈ cfg.vhostUserFs, m.mountpoint.all validChar = true
  closed : Closed (vhostUserFsGuestEnv cfg.vhostUserFs)
  fits : (fullLine cfg).length < cmdlineMaxSize cfg

/-! ## The list of mounts -/

/-- What the checks of a mount give. -/
structure AcceptedMount (m : VhostUserFsMount) : Prop where
  readOnly : m.readOnly = true
  tag : m.tag ≠ []
  tagChars : ∀ c ∈ m.tag, tagCharacter c = true
  absolute : m.mountpoint.head? = some '/'
  noColon : ':' ∉ m.mountpoint
  noSemicolon : ';' ∉ m.mountpoint

variable {m : VhostUserFsMount} {c : Char} {mounts : List VhostUserFsMount}
  {env : Text → Option Text} {line : Text} {cfg : LaunchConfig} {p : List UInt8}

/-- What the checks of a mount found. -/
theorem validate_eq_ok (h : validateVhostUserFsMount m = .ok ()) :
    m.readOnly = true ∧ m.tag ≠ [] ∧ m.tag.all tagCharacter = true ∧
      (m.mountpoint.head? = some '/' ∧ ':' ∉ m.mountpoint ∧ ';' ∉ m.mountpoint ∧ ',' ∉ m.mountpoint) ∧
      ',' ∉ m.socket := by
  unfold validateVhostUserFsMount at h
  split_ifs at h with hro hlen hchars htag hmount hsocket
  simp only [not_or, not_not, ne_eq] at hmount hsocket
  refine ⟨by simpa using hro, ?_, by simpa using hchars, hmount, hsocket.2.1⟩
  rintro hnil
  simp [hnil] at hlen

theorem acceptedMount_of_validate (h : validateVhostUserFsMount m = .ok ()) : AcceptedMount m := by
  obtain ⟨hro, hne, hchars, ⟨habs, hcolon, hsemi, -⟩, -⟩ := validate_eq_ok h
  exact ⟨hro, hne, all_eq_true.1 hchars, habs, hcolon, hsemi⟩

theorem not_mem_tag (h : AcceptedMount m) (hc : tagCharacter c = false) : c ∉ m.tag := by
  intro hmem
  rw [h.tagChars c hmem] at hc
  cases hc

theorem vhostUserFsEntry_eq (h : AcceptedMount m) :
    vhostUserFsEntry m = [':'].intercalate [m.tag, m.mountpoint, "ro".toList] := by
  simp [h.readOnly, intercalate_cons_cons]

theorem mountEntry_entry (h : AcceptedMount m) :
    mountEntry (vhostUserFsEntry m) = [⟨m.tag, m.mountpoint, true, false⟩] := by
  have hsplit : (vhostUserFsEntry m).splitOn ':' = [m.tag, m.mountpoint, "ro".toList] := by
    rw [vhostUserFsEntry_eq h, splitOn_intercalate]
    · intro l hl
      simp only [mem_cons, not_mem_nil, or_false] at hl
      rcases hl with rfl | rfl | rfl
      · exact not_mem_tag h (by decide)
      · exact h.noColon
      · decide
    · simp
  have hpath : m.mountpoint ≠ [] := by
    intro hnil
    have := h.absolute
    rw [hnil] at this
    cases this
  rw [mountEntry, hsplit]
  simp [h.tag, hpath, h.absolute]

theorem semicolon_not_mem_entry (h : AcceptedMount m) : ';' ∉ vhostUserFsEntry m := by
  have htag := not_mem_tag h (c := ';') (by decide)
  simp [h.readOnly, htag, h.noSemicolon]

/-- The guest reads from the list of mounts what was written to it. -/
theorem mountVhostUserFs_guestEnv (h : ∀ m ∈ mounts, AcceptedMount m)
    (henv : env vhostUserFsName = some (vhostUserFsGuestEnv mounts)) :
    mountVhostUserFs env = mounts.map fun m => ⟨m.tag, m.mountpoint, true, false⟩ := by
  have hentries : (((vhostUserFsGuestEnv mounts).splitOn ';').filter fun e => !e.isEmpty) =
      mounts.map vhostUserFsEntry := by
    cases mounts with
    | nil => rfl
    | cons m ms =>
      rw [vhostUserFsGuestEnv, splitOn_intercalate]
      · refine filter_eq_self.2 ?_
        intro e he
        obtain ⟨m', -, rfl⟩ := mem_map.1 he
        simp
      · intro e he
        obtain ⟨m', hm', rfl⟩ := mem_map.1 he
        exact semicolon_not_mem_entry (h m' hm')
      · simp
  rw [mountVhostUserFs, henv, Option.getD_some, hentries]
  clear hentries henv
  induction mounts with
  | nil => rfl
  | cons m ms ih =>
    rw [map_cons, flatMap_cons, mountEntry_entry (h m mem_cons_self),
      ih fun x hx => h x (mem_cons_of_mem _ hx)]
    rfl

/-! ## The line -/

theorem length_pushSlug (line slug : Text) :
    (pushSlug line slug).length = line.length + slug.length + (if line.isEmpty then 0 else 1) := by
  unfold pushSlug
  cases line with
  | nil => simp
  | cons c cs =>
    simp
    omega

theorem insertStr_eq_some {capacity : ℕ} {slug r : Text} :
    insertStr capacity line slug = some r ↔
      slug.all validChar = true ∧ r = pushSlug line slug ∧ r.length < capacity := by
  unfold insertStr
  rw [← length_pushSlug, Option.ite_none_right_eq_some, Option.some.injEq]
  constructor
  · rintro ⟨⟨h₁, h₂⟩, rfl⟩
    exact ⟨h₁, rfl, h₂⟩
  · rintro ⟨h₁, rfl, h₂⟩
    exact ⟨⟨h₁, h₂⟩, rfl⟩

theorem length_le_foldl_pushSlug (slugs : List Text) (line : Text) :
    line.length ≤ (slugs.foldl pushSlug line).length := by
  induction slugs generalizing line with
  | nil => exact Nat.le_refl _
  | cons s slugs ih =>
    have := ih (pushSlug line s)
    rw [length_pushSlug] at this
    rw [foldl_cons]
    omega

/-- All insertions succeed if all characters are valid and the whole line fits. -/
theorem foldlM_insertStr {capacity : ℕ} {slugs : List Text} {r : Text}
    (hline : line.length < capacity) :
    slugs.foldlM (insertStr capacity) line = some r ↔
      (∀ s ∈ slugs, s.all validChar = true) ∧ r = slugs.foldl pushSlug line ∧
        r.length < capacity := by
  induction slugs generalizing line with
  | nil =>
    constructor
    · intro h
      cases h
      exact ⟨by simp, rfl, hline⟩
    · rintro ⟨-, rfl, -⟩
      rfl
  | cons s slugs ih =>
    rw [foldlM_cons, Option.bind_eq_bind, Option.bind_eq_some_iff, foldl_cons,
      forall_mem_cons]
    constructor
    · rintro ⟨t, ht, hr⟩
      obtain ⟨hs, rfl, hlt⟩ := insertStr_eq_some.1 ht
      obtain ⟨hrest, hr, hr'⟩ := (ih hlt).1 hr
      exact ⟨⟨hs, hrest⟩, hr, hr'⟩
    · rintro ⟨⟨hs, hrest⟩, hr, hr'⟩
      have hlt : (pushSlug line s).length < capacity := by
        have := length_le_foldl_pushSlug slugs (pushSlug line s)
        rw [← hr] at this
        omega
      exact ⟨_, insertStr_eq_some.2 ⟨hs, rfl, hlt⟩, (ih hlt).2 ⟨hrest, hr, hr'⟩⟩

theorem cmdline_eq_some :
    cmdline cfg = some line ↔
      (∀ s ∈ cmdlineSlugs cfg, s.all validChar = true) ∧ line = fullLine cfg ∧
        line.length < cmdlineMaxSize cfg := by
  refine foldlM_insertStr ?_
  unfold cmdlineMaxSize
  split <;> simp

section line

variable (cfg : LaunchConfig)

theorem fullLine_eq :
    fullLine cfg = unwords (kernelWords cfg) ++ ' ' :: (' ' ::
      (unwords ["KRUN_INIT=/init".toList, "KRUN_WORKDIR=/".toList] ++ ' ' ::
        (unwords (initEnv cfg) ++ ' ' :: (unwords ["KRUN_DHCP=1".toList] ++ ' ' :: (' ' ::
          unwords ["--".toList, "--init".toList]))))) := by
  have hempty : (unwords (kernelWords cfg)).isEmpty = false := by
    rfl
  have hpush : ∀ line slug : Text, line.isEmpty = false →
      pushSlug line slug = line ++ ' ' :: slug := by
    intro line slug h
    rw [pushSlug, h]
    rfl
  have happend : ∀ line rest : Text, line.isEmpty = false → (line ++ rest).isEmpty = false := by
    intro line rest h
    cases line with
    | nil => cases h
    | cons c cs => rfl
  have hfirst : pushSlug [] (unwords (kernelWords cfg)) = unwords (kernelWords cfg) := rfl
  rw [fullLine, cmdlineSlugs, foldl_cons, foldl_cons, foldl_cons, foldl_cons,
    foldl_nil, hfirst, hpush _ _ hempty, hpush _ _ (happend _ _ hempty),
    hpush _ _ (happend _ _ (happend _ _ hempty)), krunEnv]
  simp only [append_assoc, cons_append]
  rfl

theorem closed_kernelWords : ∀ w ∈ kernelWords cfg, Closed w ∧ w ≠ [] := by
  unfold kernelWords
  cases cfg.aarch64 <;> cases cfg.nestedKvm <;> decide

theorem closed_krunWords :
    ∀ w ∈ ["KRUN_INIT=/init".toList, "KRUN_WORKDIR=/".toList], Closed w ∧ w ≠ [] := by
  decide

theorem words_fullLine (h : ∀ w ∈ initEnv cfg, Closed w ∧ w ≠ []) :
    words (fullLine cfg) = intendedWords cfg := by
  have hdhcp : ∀ w ∈ ["KRUN_DHCP=1".toList], Closed w ∧ w ≠ [] := by decide
  have hinit : ∀ w ∈ ["--".toList, "--init".toList], Closed w ∧ w ≠ [] := by decide
  rw [fullLine_eq, Words.words_unwords_append (closed_kernelWords cfg), Words.words_blank,
    Words.words_unwords_append closed_krunWords, Words.words_unwords_append h,
    Words.words_unwords_append hdhcp, Words.words_blank, Words.words_unwords hinit]
  simp only [intendedWords, append_assoc]
  rfl

end line

/-- A name without quotes and blanks does not matter for a value. -/
theorem closed_envWord {name value : Text} (h : quoteAfter false (name ++ ['=']) = some false) :
    Closed (envWord name value) ↔ Closed value := by
  have heq : envWord name value = (name ++ ['=']) ++ value := by simp [envWord]
  rw [Closed, heq, Words.quoteAfter_append h]
  rfl

theorem closed_showU64 (n : UInt64) : Closed (showU64 n) := by
  refine Words.closed_of_plain ?_
  intro c hc
  have hdigit := Lines.isDigit_of_mem_showU64 hc
  constructor <;> (rintro rfl; exact absurd hdigit (by decide))

theorem closed_fixedEnv (cfg : LaunchConfig) : ∀ w ∈ fixedEnv cfg, Closed w ∧ w ≠ [] := by
  intro w hw
  simp only [fixedEnv, mem_cons, not_mem_nil, or_false] at hw
  rcases hw with rfl | rfl | rfl | rfl | rfl | rfl
  · decide
  · decide
  · exact ⟨(closed_envWord (by decide)).2 (closed_showU64 _), by simp [envWord]⟩
  · decide
  · decide
  · decide

/-! ## What init finds -/

theorem ne_dashes_of_mem {w : Text} (h : '=' ∈ w) : (w != "--".toList) = true := by
  rw [bne_iff_ne]
  rintro rfl
  exact absurd h (by decide)

theorem eq_mem_envWord (name value : Text) : '=' ∈ envWord name value := by
  simp [envWord]

/-- The words before the three. -/
def leadingWords (cfg : LaunchConfig) : List Text :=
  (kernelWords cfg ++ ["KRUN_INIT=/init".toList, "KRUN_WORKDIR=/".toList]) ++ fixedEnv cfg

theorem intendedWords_eq (cfg : LaunchConfig) : intendedWords cfg =
    leadingWords cfg ++ envWord virtiofsHome (guestHome cfg) :: envWord virtiofsCwd (guestCwd cfg) ::
      envWord vhostUserFsName (vhostUserFsGuestEnv cfg.vhostUserFs) ::
        ["KRUN_DHCP=1".toList, "--".toList, "--init".toList] := by
  simp only [intendedWords, leadingWords, initEnv, append_assoc]
  rfl

theorem ne_dashes_leadingWords (cfg : LaunchConfig) : ∀ w ∈ leadingWords cfg, (w != "--".toList) = true := by
  have hfirst : ∀ w ∈ kernelWords cfg ++ ["KRUN_INIT=/init".toList, "KRUN_WORKDIR=/".toList],
      (w != "--".toList) = true := by
    unfold kernelWords
    cases cfg.aarch64 <;> cases cfg.nestedKvm <;> decide
  intro w hw
  rcases mem_append.1 hw with hw | hw
  · exact hfirst w hw
  · refine ne_dashes_of_mem ?_
    simp only [fixedEnv, mem_cons, not_mem_nil, or_false] at hw
    rcases hw with rfl | rfl | rfl | rfl | rfl | rfl
    case inr.inr.inr.inl => exact eq_mem_envWord _ _
    all_goals decide

/-- The words before `--`. -/
theorem takeWhile_intendedWords (cfg : LaunchConfig) :
    (intendedWords cfg).takeWhile (· != "--".toList) = leadingWords cfg ++
      [envWord virtiofsHome (guestHome cfg), envWord virtiofsCwd (guestCwd cfg),
        envWord vhostUserFsName (vhostUserFsGuestEnv cfg.vhostUserFs), "KRUN_DHCP=1".toList] := by
  have hword : ∀ name value : Text, (envWord name value != "--".toList) = true := fun name value =>
    ne_dashes_of_mem (eq_mem_envWord name value)
  rw [intendedWords_eq, takeWhile_append_of_pos (ne_dashes_leadingWords cfg)]
  simp only [takeWhile_cons, hword, if_true]
  rfl

/-- If the kernel finds the words that were put there, the three variables have their values. -/
theorem kernelEnv_of_words (h : words line = intendedWords cfg) :
    kernelEnv line virtiofsHome = some (guestHome cfg) ∧
      kernelEnv line virtiofsCwd = some (guestCwd cfg) ∧
      kernelEnv line vhostUserFsName = some (vhostUserFsGuestEnv cfg.vhostUserFs) := by
  have hword : ∀ name value : Text, '=' ∉ name →
      splitOnce '=' (envWord name value) = some (name, value) :=
    fun name value hname => Lines.splitOnce_append hname
  have hdhcp : splitOnce '=' "KRUN_DHCP=1".toList = some ("KRUN_DHCP".toList, "1".toList) := rfl
  have hfields : ∀ name, kernelEnv line name = lookupLast
      ((leadingWords cfg).filterMap (splitOnce '=') ++
      [(virtiofsHome, guestHome cfg), (virtiofsCwd, guestCwd cfg),
        (vhostUserFsName, vhostUserFsGuestEnv cfg.vhostUserFs),
        ("KRUN_DHCP".toList, "1".toList)]) name := by
    intro name
    rw [kernelEnv, h, takeWhile_intendedWords, filterMap_append,
      filterMap_cons_some (hword _ _ (by decide)),
      filterMap_cons_some (hword _ _ (by decide)),
      filterMap_cons_some (hword _ _ (by decide)), filterMap_cons_some hdhcp,
      filterMap_nil]
  -- the last fields come first in the reversed list
  refine ⟨?_, ?_, ?_⟩ <;>
  · rw [hfields, lookupLast, reverse_append]
    rfl

theorem mountVirtiofs_eq {tag path : Text} (htag : tag ≠ []) :
    mountVirtiofs tag path false =
      if path.head? = some '/' then [⟨tag, path, false, true⟩] else [] := by
  cases path with
  | nil => simp
  | cons c cs =>
    by_cases hc : c = '/'
    · simp [htag, hc]
    · simp [htag, hc]

/-! ## Characters -/

theorem all_intercalate {sep : Char} (hsep : validChar sep = true) (ls : List Text) :
    ([sep].intercalate ls).all validChar = true ↔ ∀ l ∈ ls, l.all validChar = true := by
  induction ls with
  | nil => simp
  | cons l ls ih =>
    cases ls with
    | nil => simp
    | cons l' ls =>
      rw [intercalate_cons_cons, all_append, all_append, Bool.and_eq_true,
        Bool.and_eq_true, ih, forall_mem_cons (a := l)]
      simp [hsep]

theorem isAlphanum_of_isDigit (h : c.isDigit = true) : c.isAlphanum = true := by
  change (c.isAlpha || c.isDigit) = true
  rw [h, Bool.or_true]

theorem validChar_of_isAlphanum (h : c.isAlphanum = true) : validChar c = true := by
  have := Strings.isAlphanum_toNat h
  simp only [validChar, Bool.and_eq_true, decide_eq_true_eq]
  omega

theorem validChar_of_tagCharacter (h : tagCharacter c = true) : validChar c = true := by
  simp only [tagCharacter, Bool.or_eq_true, Bool.and_eq_true, beq_iff_eq] at h
  rcases h with ((⟨-, h⟩ | rfl) | rfl) | rfl
  · exact validChar_of_isAlphanum h
  · decide
  · decide
  · decide

theorem all_guestEnv (h : ∀ m ∈ mounts, AcceptedMount m) :
    (vhostUserFsGuestEnv mounts).all validChar = true ↔
      ∀ m ∈ mounts, m.mountpoint.all validChar = true := by
  have hentry : ∀ m ∈ mounts,
      ((vhostUserFsEntry m).all validChar = true ↔ m.mountpoint.all validChar = true) := by
    intro m hm
    have htag : m.tag.all validChar = true :=
      all_eq_true.2 fun c hc => validChar_of_tagCharacter ((h m hm).tagChars c hc)
    have hcolon : validChar ':' = true := by decide
    have hro : ("ro".toList).all validChar = true := by decide
    simp only [vhostUserFsEntry, (h m hm).readOnly, if_true, all_append, all_cons, htag,
      hcolon, hro, Bool.true_and, Bool.and_true]
  rw [vhostUserFsGuestEnv, all_intercalate (by decide), forall_mem_map]
  exact forall₂_congr hentry

theorem toNat_byteChar (b : UInt8) : (Char.ofNat b.toNat).toNat = b.toNat := by
  have hlt := b.toNat_lt
  exact Utf8.toNat_ofNat (.inl (by omega))

theorem validChar_byteChar (b : UInt8) :
    validChar (Char.ofNat b.toNat) = true ↔ 32 ≤ b ∧ b ≤ 126 := by
  rw [validChar, toNat_byteChar, UInt8.le_iff_toNat_le, UInt8.le_iff_toNat_le]
  simp

theorem all_byteText (p : List UInt8) :
    (byteText p).all validChar = true ↔ ∀ b ∈ p, 32 ≤ b ∧ b ≤ 126 := by
  rw [byteText, all_map, all_eq_true]
  exact forall₂_congr fun b _ => validChar_byteChar b

theorem lossy_of_printable (h : ∀ b ∈ p, 32 ≤ b ∧ b ≤ 126) : lossy p = byteText p :=
  Utf8.lossy_of_ascii fun b hb =>
    Nat.lt_of_le_of_lt (UInt8.le_iff_toNat_le.1 (h b hb).2) (by decide : 126 < 0x80)

/-- What is printable came from printable bytes. -/
theorem lossy_of_valid (h : (lossy p).all validChar = true) :
    lossy p = byteText p ∧ ∀ b ∈ p, 32 ≤ b ∧ b ≤ 126 := by
  have hascii : ∀ b ∈ p, b.toNat < 0x80 := by
    refine Utf8.ascii_of_lossy fun c hc => ?_
    have hvalid := all_eq_true.1 h c hc
    simp only [validChar, Bool.and_eq_true, decide_eq_true_eq] at hvalid
    omega
  have heq : lossy p = byteText p := Utf8.lossy_of_ascii hascii
  rw [heq] at h
  exact ⟨heq, (all_byteText p).1 h⟩

theorem head_byteText (p : List UInt8) :
    (byteText p).head? = some '/' ↔ p.head? = some 47 := by
  cases p with
  | nil => simp [byteText]
  | cons b p =>
    simp only [byteText, map_cons, List.head?_cons, Option.some.injEq]
    constructor
    · intro h
      have := congrArg Char.toNat h
      rw [toNat_byteChar] at this
      exact UInt8.toNat_inj.1 this
    · rintro rfl
      rfl

theorem all_slugs (h : ∀ m ∈ cfg.vhostUserFs, AcceptedMount m) :
    (∀ s ∈ cmdlineSlugs cfg, s.all validChar = true) ↔
      (guestHome cfg).all validChar = true ∧ (guestCwd cfg).all validChar = true ∧
        ∀ m ∈ cfg.vhostUserFs, m.mountpoint.all validChar = true := by
  have hkernel : (unwords (kernelWords cfg)).all validChar = true := by
    unfold kernelWords
    cases cfg.aarch64 <;> cases cfg.nestedKvm <;> decide
  have hsecs : (showU64 cfg.initUnixSecs).all validChar = true := by
    exact all_eq_true.2 fun c hc =>
      validChar_of_isAlphanum (isAlphanum_of_isDigit (Lines.isDigit_of_mem_showU64 hc))
  have hfixed : ∀ w ∈ fixedEnv cfg, w.all validChar = true := by
    intro w hw
    simp only [fixedEnv, mem_cons, not_mem_nil, or_false] at hw
    rcases hw with rfl | rfl | rfl | rfl | rfl | rfl
    case inr.inr.inl =>
      rw [envWord, all_append, all_cons, hsecs]
      decide
    all_goals decide
  have hword : ∀ name value : Text, name.all validChar = true →
      ((envWord name value).all validChar = true ↔ value.all validChar = true) := by
    intro name value hname
    have heq : validChar '=' = true := by decide
    rw [envWord, all_append, all_cons, hname, heq, Bool.true_and, Bool.true_and]
  have hkrun : (krunEnv cfg).all validChar = true ↔
      ∀ w ∈ initEnv cfg, w.all validChar = true := by
    have hblank : validChar ' ' = true := by decide
    have hadd : (unwords ["KRUN_INIT=/init".toList, "KRUN_WORKDIR=/".toList]).all validChar =
        true := by decide
    rw [krunEnv, all_cons, all_append, all_cons, hblank, hadd, Bool.true_and,
      Bool.true_and, Bool.true_and, unwords, all_intercalate (by decide)]
  have hdhcp : "KRUN_DHCP=1".toList.all validChar = true := by decide
  have hinit : " -- --init".toList.all validChar = true := by decide
  rw [cmdlineSlugs, forall_mem_cons, forall_mem_cons, forall_mem_cons,
    forall_mem_singleton, and_iff_right hkernel, hkrun, and_iff_left ⟨hdhcp, hinit⟩, initEnv,
    forall_mem_append, and_iff_right hfixed, forall_mem_cons, forall_mem_cons,
    forall_mem_singleton, hword _ _ (by decide), hword _ _ (by decide),
    hword _ _ (by decide), all_guestEnv h]

/-! ## The two directions -/

theorem mountHostShares_eq {home cwd : Text} (hhome : env virtiofsHome = some home)
    (hcwd : env virtiofsCwd = some cwd) :
    mountHostShares env =
      (if home.head? = some '/' then [⟨"home".toList, home, false, true⟩] else []) ++
        (if cwd.head? = some '/' then [⟨"cwd".toList, cwd, false, true⟩] else []) := by
  rw [mountHostShares, hhome, hcwd, Option.elim_some, Option.elim_some,
    mountVirtiofs_eq (by decide), mountVirtiofs_eq (by decide)]

section directions

variable {cfg : LaunchConfig}

theorem CanReach.guestHome_eq (hc : CanReach cfg) :
    guestHome cfg = shareHome cfg ∧ (shareHome cfg).all validChar = true ∧
      Closed (shareHome cfg) := by
  unfold guestHome shareHome
  cases hs : cfg.noHostShares with
  | true => exact ⟨rfl, rfl, rfl⟩
  | false =>
    have hp := hc.home hs
    exact ⟨lossy_of_printable hp.printable, (all_byteText _).2 hp.printable, hp.closed⟩

theorem CanReach.guestCwd_eq (hc : CanReach cfg) :
    guestCwd cfg = shareCwd cfg ∧ (shareCwd cfg).all validChar = true ∧
      Closed (shareCwd cfg) := by
  unfold guestCwd shareCwd
  cases hs : cfg.noHostShares with
  | true => exact ⟨rfl, rfl, rfl⟩
  | false =>
    cases hcwd : cfg.outsideHomeCwd with
    | none => exact ⟨rfl, rfl, rfl⟩
    | some cwd =>
      have hp := hc.cwd hs cwd hcwd
      exact ⟨lossy_of_printable hp.printable, (all_byteText _).2 hp.printable, hp.closed⟩

/-- The host shares that are mounted are the intended ones. -/
theorem CanReach.hostShares (hc : CanReach cfg) (hhome : env virtiofsHome = some (shareHome cfg))
    (hcwd : env virtiofsCwd = some (shareCwd cfg)) :
    mountHostShares env = if cfg.noHostShares then [] else
      ⟨"home".toList, byteText cfg.hostHome, false, true⟩ ::
        (cfg.outsideHomeCwd.map fun cwd => ⟨"cwd".toList, byteText cwd, false, true⟩).toList := by
  rw [mountHostShares_eq hhome hcwd]
  unfold shareHome shareCwd
  cases hs : cfg.noHostShares with
  | true => rfl
  | false =>
    have hslash := (head_byteText _).2 (hc.home hs).absolute
    cases hcwd : cfg.outsideHomeCwd with
    | none => simp [hslash]
    | some cwd =>
      have hslash' := (head_byteText _).2 (hc.cwd hs cwd hcwd).absolute
      simp [hslash, hslash']

theorem CanReach.reachGuest (h : ∀ m ∈ cfg.vhostUserFs, AcceptedMount m)
    (hc : CanReach cfg) : ReachGuest cfg := by
  obtain ⟨hhome, hhomeValid, hhomeClosed⟩ := hc.guestHome_eq
  obtain ⟨hcwd, hcwdValid, hcwdClosed⟩ := hc.guestCwd_eq
  have hline : cmdline cfg = some (fullLine cfg) := by
    refine cmdline_eq_some.2 ⟨(all_slugs h).2 ?_, rfl, hc.fits⟩
    rw [hhome, hcwd]
    exact ⟨hhomeValid, hcwdValid, hc.mountpoints⟩
  have hclosed : ∀ w ∈ initEnv cfg, Closed w ∧ w ≠ [] := by
    intro w hw
    rcases mem_append.1 hw with hw | hw
    · exact closed_fixedEnv cfg w hw
    · simp only [mem_cons, not_mem_nil, or_false] at hw
      rcases hw with rfl | rfl | rfl
      · exact ⟨(closed_envWord (by decide)).2 (hhome ▸ hhomeClosed), by simp [envWord]⟩
      · exact ⟨(closed_envWord (by decide)).2 (hcwd ▸ hcwdClosed), by simp [envWord]⟩
      · exact ⟨(closed_envWord (by decide)).2 hc.closed, by simp [envWord]⟩
  have hwords := words_fullLine cfg hclosed
  obtain ⟨henvHome, henvCwd, henvMounts⟩ := kernelEnv_of_words hwords
  rw [hhome] at henvHome
  rw [hcwd] at henvCwd
  refine ⟨_, hline, hwords, henvHome, henvCwd, henvMounts, ?_⟩
  rw [hc.hostShares henvHome henvCwd, mountVhostUserFs_guestEnv h henvMounts, intendedMounts]

theorem ReachGuest.canReach (h : ∀ m ∈ cfg.vhostUserFs, AcceptedMount m)
    (hr : ReachGuest cfg) : CanReach cfg := by
  obtain ⟨line, hline, hwords, hhome, hcwd, hmounts, hall⟩ := hr
  obtain ⟨hslugs, hfull, hfits⟩ := cmdline_eq_some.1 hline
  obtain ⟨hhomeValid, hcwdValid, hmountValid⟩ := (all_slugs h).1 hslugs
  -- the three words come out of the line with others after them
  rw [intendedWords_eq] at hwords
  have hhomeClosed : Closed (guestHome cfg) :=
    (closed_envWord (by decide)).1 (Words.closed_of_words_eq hwords (by simp))
  have hcwdClosed : Closed (guestCwd cfg) := by
    rw [append_cons] at hwords
    exact (closed_envWord (by decide)).1 (Words.closed_of_words_eq hwords (by simp))
  have hmountsClosed : Closed (vhostUserFsGuestEnv cfg.vhostUserFs) := by
    rw [append_cons, append_cons] at hwords
    exact (closed_envWord (by decide)).1 (Words.closed_of_words_eq hwords (by simp))
  rw [mountHostShares_eq hhome hcwd, mountVhostUserFs_guestEnv h hmounts, intendedMounts,
    append_cancel_right_eq] at hall
  -- one mount is intended for each share, and each share gives at most one
  have habsolute : cfg.noHostShares = false → (byteText cfg.hostHome).head? = some '/' ∧
      ∀ cwd ∈ cfg.outsideHomeCwd, (byteText cwd).head? = some '/' := by
    intro hs
    have hlen := congrArg List.length hall
    simp only [shareHome, shareCwd, hs, Bool.false_eq_true, if_false, length_append,
      length_cons] at hlen
    cases hcwd : cfg.outsideHomeCwd with
    | none =>
      rw [hcwd] at hlen
      refine ⟨?_, by simp⟩
      by_contra hno
      simp [hno] at hlen
    | some cwd =>
      rw [hcwd] at hlen
      simp only [Option.map_some, Option.getD_some, Option.toList_some, length_cons,
        length_nil] at hlen
      have h₁ : (byteText cfg.hostHome).head? = some '/' := by
        by_contra hno
        rw [if_neg hno] at hlen
        split at hlen <;> simp at hlen
      have h₂ : (byteText cwd).head? = some '/' := by
        by_contra hno
        split at hlen <;> simp at hlen
      refine ⟨h₁, ?_⟩
      intro x hx
      cases hx
      exact h₂
  refine ⟨?_, ?_, hmountValid, hmountsClosed, hfull ▸ hfits⟩
  · intro hs
    rw [guestHome, hs] at hhomeValid hhomeClosed
    obtain ⟨heq, hprintable⟩ := lossy_of_valid hhomeValid
    exact ⟨(head_byteText _).1 (habsolute hs).1, hprintable, heq ▸ hhomeClosed⟩
  · intro hs cwd hcwd
    rw [guestCwd, hs, Option.mem_def.1 hcwd] at hcwdValid hcwdClosed
    obtain ⟨heq, hprintable⟩ := lossy_of_valid hcwdValid
    exact ⟨(head_byteText _).1 ((habsolute hs).2 cwd hcwd), hprintable, heq ▸ hcwdClosed⟩

end directions

/-- The mounts of a command line that is accepted. -/
def Accepted (args : List Text) (mounts : List VhostUserFsMount) : Prop :=
  args.mapM parseVhostUserFsMount = .ok mounts ∧ validateVhostUserFsMounts [] mounts = .ok ()

theorem validate_of_validateAll {tags : List Text}
    (h : validateVhostUserFsMounts tags mounts = .ok ()) :
    ∀ m ∈ mounts, validateVhostUserFsMount m = .ok () := by
  induction mounts generalizing tags with
  | nil => simp
  | cons m ms ih =>
    simp only [validateVhostUserFsMounts, bind, Except.bind] at h
    split at h
    · cases h
    · next hm =>
      split at h
      · cases h
      · intro x hx
        rcases mem_cons.1 hx with rfl | hx
        · exact hm
        · exact ih h x hx

/-- For every host home directory, working directory outside it and list of mounts that the
    command line accepts: the launch parameters reach the guest unchanged if and only if the
    paths are absolute, printable ASCII, have blanks only inside double quotes and no open
    quote, the list of mounts likewise, and the kernel command line is not too long. -/
theorem launch_parameters_iff (cfg : LaunchConfig) (args : List Text)
    (hargs : Accepted args cfg.vhostUserFs) : ReachGuest cfg ↔ CanReach cfg := by
  have h := fun m hm => acceptedMount_of_validate (validate_of_validateAll hargs.2 m hm)
  exact ⟨fun hr => hr.canReach h, fun hc => hc.reachGuest h⟩

/-- `/home/me`, with one mount. -/
def plainLaunch : LaunchConfig where
  aarch64 := true
  nestedKvm := false
  initUnixSecs := 0
  noHostShares := false
  hostHome := [47, 104, 111, 109, 101, 47, 109, 101]
  outsideHomeCwd := none
  vhostUserFs := [⟨"src".toList, "/mnt".toList, "/s".toList, true⟩]

theorem launch_parameters_plain : ReachGuest plainLaunch :=
  (launch_parameters_iff plainLaunch ["tag=src,mount=/mnt,socket=/s".toList]
    ⟨by rfl, by rfl⟩).2
    { home := fun _ => ⟨by decide +kernel, by decide +kernel, by decide +kernel⟩
      cwd := by
        intro _ cwd h
        cases h
      mountpoints := by decide
      closed := by decide
      fits := by decide +kernel }

/-- `/home/J D`. -/
def blankLaunch : LaunchConfig :=
  { plainLaunch with hostHome := [47, 104, 111, 109, 101, 47, 74, 32, 68] }

/-- The guest mounts the home share at `/home/J`. -/
theorem blank_in_home :
    (∃ line, cmdline blankLaunch = some line ∧
      mountHostShares (kernelEnv line) =
        [⟨"home".toList, "/home/J".toList, false, true⟩]) ∧
      ¬ ReachGuest blankLaunch := by
  have hrun : (cmdline blankLaunch).any (fun line =>
      decide (kernelEnv line virtiofsHome = some "/home/J".toList ∧
        mountHostShares (kernelEnv line) =
          [⟨"home".toList, "/home/J".toList, false, true⟩])) = true := by
    decide +kernel
  obtain ⟨line, hline, hcut⟩ := (Option.any_eq_true _ _).1 hrun
  obtain ⟨hhome, hmounts⟩ := of_decide_eq_true hcut
  refine ⟨⟨line, hline, hmounts⟩, ?_⟩
  rintro ⟨line', hline', -, hhome', -⟩
  rw [hline] at hline'
  cases hline'
  rw [hhome] at hhome'
  exact absurd hhome' (by decide)

end Lnx
