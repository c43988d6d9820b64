import Lnx.Launch.Params
import Lnx.Lib.Prog
import Lnx.Lib.Strings

/-!
# Forwards and mounts as arguments

`spawn_owner_process` (`src/runner.rs` lines 2443–2495) passes the owner its port forwards and
mounts as arguments, which the owner parses as its own command line (`parse_port_forward`,
`parse_vhost_user_fs_mount`, `src/cli.rs` lines 2540–2612).

* `launch_specs_survive`: what was accepted once is printed so that it is read back.
-/

namespace Lnx.Launch

open List
open Lines (Text splitOnce splitOnce_append)
open Strings (parseDec parseDec_digits IsDecimal not_mem_of_mem_splitOn)

/-! ## Forwards -/

structure PortForward where
  listenHost : Text
  listenPort : UInt16
  guestHost : Text
  guestPort : UInt16
  deriving DecidableEq

def parsePort (value : Text) : Except Text UInt16 :=
  match parseDec (2 ^ 16) value with
  | some n => .ok (UInt16.ofNat n)
  | none => .error ("invalid port: ".toList ++ value)

def localhost : Text := "127.0.0.1".toList

def parsePortForward (value : Text) : Except Text PortForward :=
  match value.splitOn ':' with
  | [listenPort, guestPort] => do
    return ⟨localhost, ← parsePort listenPort, localhost, ← parsePort guestPort⟩
  | [listenHost, listenPort, guestHost, guestPort] => do
    return ⟨listenHost, ← parsePort listenPort, guestHost, ← parsePort guestPort⟩
  | _ => .error "expected HOSTPORT:GUESTPORT or LISTEN_HOST:HOSTPORT:GUEST_HOST:GUESTPORT".toList

def showPort (port : UInt16) : Text := Nat.toDigits 10 port.toNat

def forwardSpec (f : PortForward) : Text :=
  f.listenHost ++ ':' :: (showPort f.listenPort ++ ':' :: (f.guestHost ++ ':' :: showPort f.guestPort))

variable {f : PortForward} {m : VhostUserFsMount} {mounts : List VhostUserFsMount}

theorem isDigit_of_mem_showPort {port : UInt16} {c : Char} (h : c ∈ showPort port) : c.isDigit = true :=
  Nat.isDigit_of_mem_toDigits (by decide) (by decide) h

theorem parsePort_showPort (port : UInt16) : parsePort (showPort port) = .ok port := by
  have hdec : IsDecimal (showPort port) port.toNat :=
    ⟨Nat.toDigits_ne_nil, fun _ => isDigit_of_mem_showPort, Nat.ofDigitChars_ten_toDigits⟩
  rw [parsePort, parseDec_digits hdec port.toNat_lt]
  exact congrArg Except.ok port.ofNat_toNat

/-- The hosts are parts between colons. -/
theorem not_mem_hosts {value : Text} (h : parsePortForward value = .ok f) :
    ':' ∉ f.listenHost ∧ ':' ∉ f.guestHost := by
  have hparts : ∀ part ∈ value.splitOn ':', ':' ∉ part := fun _ => not_mem_of_mem_splitOn
  unfold parsePortForward at h
  split at h
  · obtain ⟨l, -, h⟩ := bind_eq_ok.1 h
    obtain ⟨g, -, h⟩ := bind_eq_ok.1 h
    cases h
    have hlocal : ':' ∉ localhost := by decide
    exact ⟨hlocal, hlocal⟩
  · next hsplit =>
    obtain ⟨l, -, h⟩ := bind_eq_ok.1 h
    obtain ⟨g, -, h⟩ := bind_eq_ok.1 h
    cases h
    rw [hsplit] at hparts
    exact ⟨hparts _ (by simp), hparts _ (by simp)⟩
  · cases h

theorem parsePortForward_forwardSpec (h : ':' ∉ f.listenHost ∧ ':' ∉ f.guestHost) :
    parsePortForward (forwardSpec f) = .ok f := by
  have hport : ∀ port, ':' ∉ showPort port := fun port hmem =>
    absurd (isDigit_of_mem_showPort hmem) (by decide)
  have heq : forwardSpec f =
      [':'].intercalate [f.listenHost, showPort f.listenPort, f.guestHost, showPort f.guestPort] := by
    simp [forwardSpec, intercalate_cons_cons]
  have hsplit : (forwardSpec f).splitOn ':' =
      [f.listenHost, showPort f.listenPort, f.guestHost, showPort f.guestPort] := by
    rw [heq, splitOn_intercalate]
    · simp [h, hport]
    · simp
  rw [parsePortForward, hsplit]
  simp only [parsePort_showPort]
  rfl

/-! ## Mounts -/

/-- `vhost_user_fs_arg` -/
def vhostUserFsArg (m : VhostUserFsMount) : Text :=
  "tag=".toList ++ m.tag ++ ",mount=".toList ++ m.mountpoint ++ ",socket=".toList ++ m.socket ++
    (if m.readOnly then ",ro".toList else [])

theorem vhostUserFsArg_eq (hro : m.readOnly = true) : vhostUserFsArg m = [','].intercalate
    ["tag".toList ++ '=' :: m.tag, "mount".toList ++ '=' :: m.mountpoint,
      "socket".toList ++ '=' :: m.socket, "ro".toList] := by
  unfold vhostUserFsArg
  simp only [if_pos hro, append_assoc, intercalate_cons_cons, intercalate_singleton]
  rfl

theorem parseMountOption_pair {o : MountOptions} {k value : Text} (hk : '=' ∉ k) :
    parseMountOption o (k ++ '=' :: value) =
      if k = "tag".toList then .ok { o with tag := some value }
      else if k = "mount".toList then .ok { o with mountpoint := some value }
      else if k = "socket".toList then .ok { o with socket := some value }
      else .error (.invalidKey k) := by
  have hword : ∀ word : Text, '=' ∉ word → k ++ '=' :: value ≠ word := by
    rintro word hword rfl
    simp at hword
  rw [parseMountOption, if_neg (by simp [hword]), if_neg (hword _ (by decide)), splitOnce_append hk]

theorem parse_vhostUserFsArg (h : validateVhostUserFsMount m = .ok ()) :
    parseVhostUserFsMount (vhostUserFsArg m) = .ok m := by
  obtain ⟨hro, -, -, ⟨-, -, -, hmount⟩, hsocket⟩ := validate_eq_ok h
  have htag : ',' ∉ m.tag := not_mem_tag (acceptedMount_of_validate h) (by decide)
  have hsplit : ((vhostUserFsArg m).splitOn ',').filter (fun part => !part.isEmpty) =
      ["tag".toList ++ '=' :: m.tag, "mount".toList ++ '=' :: m.mountpoint,
        "socket".toList ++ '=' :: m.socket, "ro".toList] := by
    rw [vhostUserFsArg_eq hro, splitOn_intercalate]
    · simp
    · simp [htag, hmount, hsocket]
    · simp
  have hmk : (⟨m.tag, m.mountpoint, m.socket, true⟩ : VhostUserFsMount) = m := by rw [← hro]
  rw [parseVhostUserFsMount, hsplit]
  simp only [foldlM_cons, foldlM_nil, parseMountOption_pair (k := "tag".toList) (by decide),
    parseMountOption_pair (k := "mount".toList) (by decide),
    parseMountOption_pair (k := "socket".toList) (by decide)]
  change (do validateVhostUserFsMount ⟨m.tag, m.mountpoint, m.socket, true⟩; pure _) = _
  rw [hmk, h]
  rfl

/-! ## Lists of them -/

theorem mapM_parse_print {α ε : Type} {print : α → Text} {parse : Text → Except ε α} {xs : List α}
    (h : ∀ x ∈ xs, parse (print x) = .ok x) : (xs.map print).mapM parse = .ok xs := by
  induction xs with
  | nil => rfl
  | cons x xs ih =>
    rw [map_cons, mapM_cons, h x mem_cons_self, ih fun y hy => h y (mem_cons_of_mem x hy)]
    rfl

theorem accepted_again {args : List Text} (h : Accepted args mounts) :
    Accepted (mounts.map vhostUserFsArg) mounts :=
  ⟨mapM_parse_print fun m hm => parse_vhostUserFsArg (validate_of_validateAll h.2 m hm), h.2⟩

/-- For every list of accepted forwards and every accepted list of mounts: the owner reads from
    the arguments it is given the same forwards and mounts, and accepts them; another accepted
    list of mounts has other arguments. -/
theorem launch_specs_survive (forwards : List PortForward) (args : List Text)
    (mounts : List VhostUserFsMount)
    (hforwards : ∀ f ∈ forwards, ∃ value, parsePortForward value = .ok f)
    (hmounts : Accepted args mounts) :
    (forwards.map forwardSpec).mapM parsePortForward = .ok forwards ∧
      Accepted (mounts.map vhostUserFsArg) mounts ∧
      ∀ args' mounts', Accepted args' mounts' → mounts' ≠ mounts →
        mounts'.map vhostUserFsArg ≠ mounts.map vhostUserFsArg := by
  refine ⟨mapM_parse_print fun f hf => ?_, accepted_again hmounts, fun args' mounts' h' hne heq => hne ?_⟩
  · obtain ⟨value, h⟩ := hforwards f hf
    exact parsePortForward_forwardSpec (not_mem_hosts h)
  · have h := (accepted_again h').1
    rw [heq, (accepted_again hmounts).1] at h
    exact (Except.ok.inj h).symm

def flagMount : VhostUserFsMount := ⟨"rw".toList, "/ro".toList, "/a=b".toList, true⟩

/-- A forward of two ports, and a mount with values that contain `=` or look like flags. -/
theorem launch_specs_survive_flags :
    [forwardSpec ⟨localhost, 8080, localhost, 80⟩].mapM parsePortForward =
        .ok [⟨localhost, 8080, localhost, 80⟩] ∧ Accepted [vhostUserFsArg flagMount] [flagMount] := by
  obtain ⟨hf, hm, -⟩ := launch_specs_survive [⟨localhost, 8080, localhost, 80⟩]
    ["ro,socket=/a=b,mount=/ro,tag=rw".toList] [flagMount]
    (fun f hf => ⟨"8080:80".toList, by rw [mem_singleton.1 hf]; decide⟩) ⟨by rfl, by rfl⟩
  exact ⟨hf, hm⟩

end Lnx.Launch
