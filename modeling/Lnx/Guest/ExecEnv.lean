import Mathlib.Data.Nat.Notation
import Mathlib.Logic.Function.Basic
import Lnx.Guest.Table

/-!
# The environment of a command, with and without a terminal

The agent starts a command in two ways. With a terminal, `run_channel_pty`
(`guest-agent/src/main.rs` lines 2348–2377) forks, sets variables in the child with
`setenv` and calls `execvp`, which looks the program up in the `PATH` the child then
has. Without one, `make_child_exec` (lines 2117–2165) builds an `execve` environment
before the fork, and `make_exec_paths` the list of files to try, always from
`DEFAULT_PATH`.

Both set the same defaults, the two control variables `LNX_REQUEST_ID` and
`LNX_CONTROL_SOCKET`, and the variables the host forwards, but not in the same order:
with a terminal the control variables come last, without one the forwarded ones do.
`argv` is what `resolve_login_shell` returns. Which files are tried is modelled, not what
becomes of one: `execvp` runs a file that is no program (`ENOEXEC`) with the shell.

* `setAll_apply`: what a sequence of `setenv` calls leaves behind.
* `bindings_pushEnv`: an `execve` environment built by `push_env` binds what the same
  `setenv` calls would.
* `command_means_same_iff`: the two ways agree on every variable and on the files tried
  for `argv[0]` if and only if the host forwards no other value of a control variable
  and, for a command named without a slash, no other `PATH`.
-/

namespace Lnx

open List

variable {name : String} {storage : List String}

/-! ## Texts of the agent -/

def execUser : String := "lnxuser"
def execHome : String := "/home/lnxuser"
def xdgOpenPath : String := "/usr/local/bin/xdg-open"
def defaultBrowser : String := xdgOpenPath
def controlSocketEnv : String := "LNX_CONTROL_SOCKET"

def defaultPath : String :=
  "/home/lnxuser/.local/bin:/home/lnxuser/go/bin:/home/lnxuser/.cargo/bin:" ++
    "/usr/local/sbin:/usr/local/bin:/usr/sbin:/usr/bin:/sbin:/bin:/snap/bin"

/-- The socket of one channel, `format!("/run/lnx-agent-{channel_id:016x}.sock")`. -/
def controlSocketPath (c : ChannelId) : String :=
  "/run/lnx-agent-" ++ hex16 c ++ ".sock"

/-- What makes `CString::new` fail. -/
def hasNul (s : String) : Bool := s.toList.contains '\x00'

def isEnvName (name : String) : Bool :=
  !name.isEmpty && !name.toList.contains '=' && !hasNul name

/-- Variables and their values, in the order they are set. -/
abbrev Vars := List (String × String)

/-- The variables both ways set first. -/
def defaultExecEnvironment : Vars :=
  [("PATH", defaultPath), ("HOME", execHome), ("USER", execUser), ("LOGNAME", execUser),
    ("BROWSER", defaultBrowser)]

/-! ## With a terminal -/

/-- The environment of a process, as a partial map. -/
abbrev Env := String → Option String

/-- `set_env`: `setenv` with overwriting, unless a text does not fit a C string. -/
def setEnv (e : Env) (name value : String) : Env :=
  if hasNul name || hasNul value then e else Function.update e name (some value)

def setDefaultExecEnvironment (e : Env) : Env :=
  defaultExecEnvironment.foldl (fun e b => setEnv e b.1 b.2) e

def setForwardedEnvironment (e : Env) (env : Vars) : Env :=
  env.foldl (fun e b => if isEnvName b.1 then setEnv e b.1 b.2 else e) e

def setLnxRequestId (e : Env) (requestId : ChannelId) : Env :=
  setEnv e "LNX_REQUEST_ID" (hex16 requestId)

def setLnxControlSocket (e : Env) (path : String) : Env :=
  setEnv e controlSocketEnv path

/-- The environment at the `execvp` of `run_channel_pty`, in an agent whose own
    environment is `inherited`. -/
def ptyEnv (inherited : Env) (term colorterm : String) (env : Vars) (c : ChannelId) : Env :=
  let e := setEnv inherited "TERM" term
  let e := if colorterm.isEmpty then e else setEnv e "COLORTERM" colorterm
  let e := setDefaultExecEnvironment e
  let e := setForwardedEnvironment e env
  let e := setLnxRequestId e c
  setLnxControlSocket e (controlSocketPath c)

def dirsOf (path : String) : List (List Char) := path.toList.splitOn ':'

/-- The file `execvp` tries in one directory of `PATH`; an empty one is the working
    directory. -/
def execvpFile (file : String) (dir : List Char) : String :=
  if dir = [] then file else String.ofList (dir ++ '/' :: file.toList)

/-- The files `execvp` tries, in order. -/
def execvpFiles (path file : String) : List String :=
  if file.isEmpty then []
  else if file.toList.contains '/' then [file]
  else (dirsOf path).map (execvpFile file)

/-- The argument vector's first text as `make_argv` gives it to `execvp`. -/
def makeArgv0 (argv : List String) : String :=
  let argv0 := argv.headD ""
  if hasNul argv0 then "" else argv0

/-- The files the child of `run_channel_pty` tries for `argv[0]`. Without a `PATH` libc
    would search its own default, but `PATH` is always set by then. -/
def ptyExecPaths (e : Env) (argv : List String) : List String :=
  execvpFiles ((e "PATH").getD "/bin:/usr/bin") (makeArgv0 argv)

/-! ## Without a terminal -/

/-- Replaces the first entry that `p` holds of, or appends one. -/
def setFirst (p : String → Bool) (entry : String) : List String → List String
  | [] => [entry]
  | x :: xs => if p x then entry :: xs else x :: setFirst p entry xs

/-- Whether an entry starts with `name=`. -/
def startsWithName (name entry : String) : Bool :=
  (name.toList ++ ['=']).isPrefixOf entry.toList

def pushEnv (storage : List String) (name value : String) : List String :=
  let entry := name ++ "=" ++ value
  if hasNul entry then storage else setFirst (startsWithName name) entry storage

/-- `env_storage` of `make_child_exec`. -/
def childEnv (env : Vars) (c : ChannelId) : List String :=
  let storage := defaultExecEnvironment.foldl (fun st b => pushEnv st b.1 b.2) []
  let storage := pushEnv storage "LNX_REQUEST_ID" (hex16 c)
  let storage := pushEnv storage controlSocketEnv (controlSocketPath c)
  env.foldl (fun st b => if isEnvName b.1 then pushEnv st b.1 b.2 else st) storage

def makeExecPaths (argv0 : String) : List String :=
  if argv0.toList.contains '/' then if hasNul argv0 then [""] else [argv0]
  else ((dirsOf defaultPath).map fun dir => String.ofList (dir ++ '/' :: argv0.toList)).filter
    fun path => !hasNul path

/-- `exec_paths` of `make_child_exec`. -/
def childExecPaths (argv : List String) : List String :=
  makeExecPaths (argv.headD "")

def entryName (entry : String) : String :=
  String.ofList (entry.toList.takeWhile (· != '='))

def entryValue (entry : String) : String :=
  String.ofList ((entry.toList.dropWhile (· != '=')).drop 1)

/-- What an `execve` environment binds: a program reads the text of an entry up to the
    first `=` as the name, and the first entry of a name counts. -/
def bindings (storage : List String) : Env := fun name =>
  (storage.find? fun e => entryName e == name).map entryValue

/-! ## What the host's list comes to -/

/-- The value the last assignment that takes effect gives `name`. -/
def lastSet (bs : Vars) (name : String) : Option String :=
  (bs.filter fun b => !hasNul b.1 && !hasNul b.2 && b.1 == name).getLast?.map Prod.snd

/-- The value the host forwards for `name`: later entries win, and those that are no
    environment entry do not count. -/
def forwarded (env : Vars) (name : String) : Option String :=
  lastSet (env.filter fun b => isEnvName b.1) name

/-- A path that ends in a slash names no program file, and neither does the empty one. -/
def programs (paths : List String) : List String :=
  paths.filter fun p => p.toList.getLast?.any (· != '/')

/-- The property: whatever the agent's own environment and the terminal are, the two
    environments bind the same variables to the same values, apart from `TERM`,
    `COLORTERM` and what is only inherited, and the same files are tried for `argv[0]`. -/
def MeansSame (argv : List String) (env : Vars) (c : ChannelId) : Prop :=
  ∀ (inherited : Env) (term colorterm : String),
    (∀ name, name ≠ "TERM" → name ≠ "COLORTERM" →
      ptyEnv inherited term colorterm env c name =
        (bindings (childEnv env c) name).or (inherited name)) ∧
    programs (ptyExecPaths (ptyEnv inherited term colorterm env c) argv) =
      programs (childExecPaths argv)

/-- The condition: no other value is forwarded for a control variable, and none for
    `PATH` where `argv[0]` is looked up in it. -/
def ForwardsNoOther (argv : List String) (env : Vars) (c : ChannelId) : Prop :=
  (∀ v ∈ forwarded env "LNX_REQUEST_ID", v = hex16 c) ∧
  (∀ v ∈ forwarded env controlSocketEnv, v = controlSocketPath c) ∧
  (argv.headD "" = "" ∨ '/' ∈ (argv.headD "").toList ∨ hasNul (argv.headD "") = true ∨
    ∀ v ∈ forwarded env "PATH", v = defaultPath)

/-! ## Sequences of assignments -/

section Assignments

/-- A sequence of `set_env` calls. -/
def setAll (e : Env) (bs : Vars) : Env :=
  bs.foldl (fun e b => setEnv e b.1 b.2) e

theorem setAll_append (e : Env) (as bs : Vars) :
    setAll e (as ++ bs) = setAll (setAll e as) bs :=
  foldl_append

theorem lastSet_append (as bs : Vars) (name : String) :
    lastSet (as ++ bs) name = (lastSet bs name).or (lastSet as name) := by
  simp only [lastSet, filter_append, List.getLast?_append, Option.map_or]

theorem setEnv_apply (e : Env) (b : String × String) (name : String) :
    setEnv e b.1 b.2 name = (lastSet [b] name).or (e name) := by
  unfold setEnv lastSet
  cases h₁ : hasNul b.1 <;> cases h₂ : hasNul b.2 <;> simp [h₁, h₂]
  by_cases hn : b.1 = name
  · simp [hn]
  · simp [hn, Function.update_of_ne (Ne.symm hn)]

/-- After a sequence of `set_env` calls a variable has the value of the last call that
    took effect, or the one it had. -/
theorem setAll_apply (e : Env) (bs : Vars) (name : String) :
    setAll e bs name = (lastSet bs name).or (e name) := by
  induction bs generalizing e with
  | nil => rfl
  | cons b bs ih =>
    have hcons : lastSet (b :: bs) name = (lastSet bs name).or (lastSet [b] name) :=
      lastSet_append [b] bs name
    calc setAll e (b :: bs) name = setAll (setEnv e b.1 b.2) bs name := rfl
      _ = (lastSet bs name).or ((lastSet [b] name).or (e name)) := by
        rw [ih, setEnv_apply]
      _ = (lastSet (b :: bs) name).or (e name) := by rw [hcons, Option.or_assoc]

theorem setForwardedEnvironment_eq (e : Env) (env : Vars) :
    setForwardedEnvironment e env = setAll e (env.filter fun b => isEnvName b.1) := by
  rw [setAll, foldl_filter]
  rfl

/-- The two assignments of `run_channel_pty` from the terminal. -/
def terminalAssignments (term colorterm : String) : Vars :=
  ("TERM", term) :: if colorterm.isEmpty then [] else [("COLORTERM", colorterm)]

/-- The two control variables. -/
@[simp] def controlAssignments (c : ChannelId) : Vars :=
  [("LNX_REQUEST_ID", hex16 c), (controlSocketEnv, controlSocketPath c)]

theorem ptyEnv_eq (inherited : Env) (term colorterm : String) (env : Vars) (c : ChannelId) :
    ptyEnv inherited term colorterm env c =
      setAll inherited (terminalAssignments term colorterm ++ defaultExecEnvironment ++
        (env.filter fun b => isEnvName b.1) ++ controlAssignments c) := by
  have hterm : setAll inherited (terminalAssignments term colorterm) =
      if colorterm.isEmpty then setEnv inherited "TERM" term
      else setEnv (setEnv inherited "TERM" term) "COLORTERM" colorterm := by
    unfold terminalAssignments
    split <;> rfl
  rw [setAll_append, setAll_append, setAll_append, hterm, ← setForwardedEnvironment_eq]
  rfl

end Assignments

/-! ## An `execve` environment -/

variable {value : List Char}

theorem bne_of_not_mem {name : List Char} (hn : '=' ∉ name) : ∀ x ∈ name, (x != '=') = true := by
  intro x hx
  exact bne_iff_ne.2 fun h => hn (h ▸ hx)

theorem takeWhile_entry {name : List Char} (hn : '=' ∉ name) :
    (name ++ '=' :: value).takeWhile (· != '=') = name := by
  rw [takeWhile_append_of_pos (bne_of_not_mem hn)]
  simp

theorem dropWhile_entry {name : List Char} (hn : '=' ∉ name) :
    (name ++ '=' :: value).dropWhile (· != '=') = '=' :: value := by
  rw [dropWhile_append_of_pos (bne_of_not_mem hn)]
  simp

/-- For entries that hold a `=`, starting with `name=` is having that name. -/
theorem isPrefixOf_name_iff {name l : List Char} (hn : '=' ∉ name) (hl : '=' ∈ l) :
    (name ++ ['=']).isPrefixOf l = true ↔ l.takeWhile (· != '=') = name := by
  obtain ⟨x, y, rfl, hx⟩ := eq_append_cons_of_mem hl
  rw [ isPrefixOf_iff_prefix, takeWhile_entry hx]
  constructor
  · rintro ⟨r, hr⟩
    rw [append_assoc, singleton_append] at hr
    rw [← takeWhile_entry hx, ← hr, takeWhile_entry hn]
  · rintro rfl
    exact ⟨y, by simp⟩

/-- A name the agent may set. -/
structure EnvName (name : String) : Prop where
  noEq : '=' ∉ name.toList
  noNul : hasNul name = false

theorem envName_of_isEnvName (h : isEnvName name = true) : EnvName name := by
  unfold isEnvName at h
  simp only [Bool.and_eq_true, Bool.not_eq_true'] at h
  exact ⟨by simpa using h.1.2, h.2⟩

theorem toList_entry (name value : String) :
    (name ++ "=" ++ value).toList = name.toList ++ '=' :: value.toList := by
  simp

theorem entryName_entry {value : String} (hn : EnvName name) : entryName (name ++ "=" ++ value) = name := by
  rw [entryName, toList_entry, takeWhile_entry hn.noEq, String.ofList_toList]

theorem entryValue_entry {value : String} (hn : EnvName name) : entryValue (name ++ "=" ++ value) = value := by
  rw [entryValue, toList_entry, dropWhile_entry hn.noEq, drop_one, tail_cons,
    String.ofList_toList]

/-- Every entry holds a `=`. -/
def AllEntries (storage : List String) : Prop :=
  ∀ e ∈ storage, '=' ∈ e.toList

theorem startsWithName_iff {e : String} (hn : EnvName name) (he : '=' ∈ e.toList) :
    startsWithName name e = true ↔ entryName e = name := by
  rw [startsWithName, isPrefixOf_name_iff hn.noEq he, entryName, ← String.toList_inj,
    String.toList_ofList]

theorem hasNul_entry (name value : String) :
    hasNul (name ++ "=" ++ value) = (hasNul name || hasNul value) := by
  simp only [hasNul, toList_entry, contains_append, contains_cons]
  rfl

theorem mem_setFirst {p : String → Bool} {entry x : String}
    (h : x ∈ setFirst p entry storage) : x = entry ∨ x ∈ storage := by
  induction storage with
  | nil => exact .inl (mem_singleton.1 h)
  | cons y ys ih =>
    unfold setFirst at h
    split at h
    · rcases mem_cons.1 h with h | h
      · exact .inl h
      · exact .inr (mem_cons_of_mem _ h)
    · rcases mem_cons.1 h with h | h
      · exact .inr (h ▸ mem_cons_self)
      · exact (ih h).imp_right (mem_cons_of_mem _)

theorem AllEntries.pushEnv (h : AllEntries storage)
    (name value : String) : AllEntries (pushEnv storage name value) := by
  simp only [Lnx.pushEnv]
  split
  · exact h
  · intro e he
    rcases mem_setFirst he with rfl | he
    · rw [toList_entry]
      simp
    · exact h e he

theorem bindings_cons (x : String) (xs : List String) :
    bindings (x :: xs) = Function.update (bindings xs) (entryName x) (some (entryValue x)) := by
  funext name
  unfold bindings
  by_cases h : entryName x = name
  · simp [h]
  · simp [h, Function.update_of_ne (Ne.symm h)]

/-- Replacing or appending the entry of a name rebinds that name only. -/
theorem bindings_setFirst (hall : AllEntries storage) (hn : EnvName name) (value : String) :
    bindings (setFirst (startsWithName name) (name ++ "=" ++ value) storage) =
      Function.update (bindings storage) name (some value) := by
  induction storage with
  | nil => rw [setFirst, bindings_cons, entryName_entry hn, entryValue_entry hn]
  | cons x xs ih =>
    have hx : startsWithName name x = true ↔ entryName x = name :=
      startsWithName_iff hn (hall x mem_cons_self)
    have ih := ih fun e he => hall e (mem_cons_of_mem _ he)
    unfold setFirst
    by_cases hp : entryName x = name
    · rw [if_pos (hx.2 hp), bindings_cons, bindings_cons, entryName_entry hn, entryValue_entry hn, hp,
        Function.update_idem]
    · rw [if_neg (fun h => hp (hx.1 h)), bindings_cons, bindings_cons, ih, Function.update_comm hp]

/-- `push_env` on an `execve` environment is `set_env` on what it binds. -/
theorem bindings_pushEnv (hall : AllEntries storage) (hn : EnvName name) (value : String) :
    bindings (pushEnv storage name value) = setEnv (bindings storage) name value := by
  unfold pushEnv setEnv
  simp only [hasNul_entry]
  split
  · rfl
  · exact bindings_setFirst hall hn value

/-- A sequence of `push_env` calls. -/
def pushAll (storage : List String) (bs : Vars) : List String :=
  bs.foldl (fun st b => pushEnv st b.1 b.2) storage

theorem bindings_pushAll (hall : AllEntries storage)
    {bs : Vars} (hbs : ∀ b ∈ bs, EnvName b.1) :
    bindings (pushAll storage bs) = setAll (bindings storage) bs := by
  induction bs generalizing storage with
  | nil => rfl
  | cons b bs ih =>
    calc bindings (pushAll storage (b :: bs))
        = bindings (pushAll (pushEnv storage b.1 b.2) bs) := rfl
      _ = setAll (bindings (pushEnv storage b.1 b.2)) bs :=
        ih (hall.pushEnv _ _) fun x hx => hbs x (mem_cons_of_mem _ hx)
      _ = setAll (bindings storage) (b :: bs) := by
        rw [bindings_pushEnv hall (hbs b mem_cons_self)]
        rfl

theorem childEnv_eq (env : Vars) (c : ChannelId) :
    childEnv env c = pushAll [] (defaultExecEnvironment ++ controlAssignments c ++
      env.filter fun b => isEnvName b.1) := by
  rw [pushAll, foldl_append, foldl_append, foldl_filter]
  rfl

theorem envName_fixed (c : ChannelId) :
    ∀ b ∈ defaultExecEnvironment ++ controlAssignments c, EnvName b.1 := by
  intro b hb
  have hnames : ∀ n ∈ ["PATH", "HOME", "USER", "LOGNAME", "BROWSER", "LNX_REQUEST_ID",
      controlSocketEnv], isEnvName n = true := by decide
  exact envName_of_isEnvName (hnames b.1 (mem_map_of_mem hb))

theorem bindings_childEnv (env : Vars) (c : ChannelId) :
    bindings (childEnv env c) =
      setAll (fun _ => none) (defaultExecEnvironment ++ controlAssignments c ++
        env.filter fun b => isEnvName b.1) := by
  rw [childEnv_eq, bindings_pushAll]
  · rfl
  · intro e he
    cases he
  · intro b hb
    rcases mem_append.1 hb with hb | hb
    · exact envName_fixed c b hb
    · exact envName_of_isEnvName (mem_filter.1 hb).2

/-! ## The environments compared -/

theorem digitChar_ne_nul : ∀ n < 16, Nat.digitChar n ≠ '\x00' := by
  decide

theorem not_mem_toDigitsCore (fuel n : ℕ) (acc : List Char) (h : '\x00' ∉ acc) :
    '\x00' ∉ Nat.toDigitsCore 16 fuel n acc := by
  induction fuel generalizing n acc with
  | zero => exact h
  | succ fuel ih =>
    have hacc : '\x00' ∉ (n % 16).digitChar :: acc := by
      rw [mem_cons, not_or]
      exact ⟨(digitChar_ne_nul _ (Nat.mod_lt _ (by decide))).symm, h⟩
    simp only [Nat.toDigitsCore]
    split
    · exact hacc
    · exact ih _ _ hacc

theorem hasNul_hex16 (c : ChannelId) : hasNul (hex16 c) = false := by
  have hdigits : '\x00' ∉ Nat.toDigits 16 c.toNat :=
    not_mem_toDigitsCore _ _ _ (by simp)
  simp only [hasNul, hex16, String.toList_ofList, List.leftpad, contains_append]
  simp [hdigits]

theorem hasNul_controlSocketPath (c : ChannelId) : hasNul (controlSocketPath c) = false := by
  have h := hasNul_hex16 c
  simp only [hasNul, controlSocketPath, String.toList_append, contains_append] at h ⊢
  rw [h]
  decide

/-- What the control assignments give. -/
theorem lastSet_control (c : ChannelId) (name : String) :
    lastSet (controlAssignments c) name =
      if name = controlSocketEnv then some (controlSocketPath c)
      else if name = "LNX_REQUEST_ID" then some (hex16 c) else none := by
  have h₁ : hasNul "LNX_REQUEST_ID" = false := by decide
  have h₂ : hasNul controlSocketEnv = false := by decide
  have hne : "LNX_REQUEST_ID" ≠ controlSocketEnv := by decide
  by_cases hs : name = controlSocketEnv
  · subst hs
    simp [lastSet, h₁, h₂, hasNul_hex16, hasNul_controlSocketPath, hne]
  · by_cases hr : name = "LNX_REQUEST_ID"
    · subst hr
      simp [lastSet, h₁, h₂, hasNul_hex16, hasNul_controlSocketPath, hs, Ne.symm hs]
    · simp [lastSet, Ne.symm hs, Ne.symm hr, hs, hr]

theorem lastSet_terminal {term colorterm : String} (ht : name ≠ "TERM")
    (hc : name ≠ "COLORTERM") : lastSet (terminalAssignments term colorterm) name = none := by
  unfold lastSet terminalAssignments
  split <;> simp [Ne.symm ht, Ne.symm hc]

/-- With a terminal the control variables win over the forwarded ones. -/
theorem ptyEnv_apply (inherited : Env) (term colorterm : String)
    (env : Vars) (c : ChannelId) (ht : name ≠ "TERM") (hc : name ≠ "COLORTERM") :
    ptyEnv inherited term colorterm env c name =
      (((lastSet (controlAssignments c) name).or (forwarded env name)).or
        (lastSet defaultExecEnvironment name)).or (inherited name) := by
  rw [ptyEnv_eq, setAll_apply, lastSet_append, lastSet_append, lastSet_append,
    lastSet_terminal ht hc, Option.or_none]
  simp only [forwarded, Option.or_assoc]

/-- Without one the forwarded ones win. -/
theorem bindings_childEnv_apply (env : Vars) (c : ChannelId)
    (name : String) :
    bindings (childEnv env c) name =
      ((forwarded env name).or (lastSet (controlAssignments c) name)).or
        (lastSet defaultExecEnvironment name) := by
  rw [bindings_childEnv, setAll_apply, lastSet_append, lastSet_append, Option.or_none,
    Option.or_assoc]
  rfl

/-- The two orders give one value where both lists set the variable alike. -/
theorem or_comm_iff {α : Type} (a b : Option α) :
    a.or b = b.or a ↔ ∀ v ∈ a, ∀ w ∈ b, w = v := by
  cases a <;> cases b <;> simp [eq_comm]

theorem sameBindings_iff (env : Vars) (c : ChannelId) :
    (∀ (inherited : Env) (term colorterm name : String), name ≠ "TERM" → name ≠ "COLORTERM" →
      ptyEnv inherited term colorterm env c name =
        (bindings (childEnv env c) name).or (inherited name)) ↔
    (∀ v ∈ forwarded env "LNX_REQUEST_ID", v = hex16 c) ∧
      ∀ v ∈ forwarded env controlSocketEnv, v = controlSocketPath c := by
  have hreq : lastSet (controlAssignments c) "LNX_REQUEST_ID" = some (hex16 c) :=
    lastSet_control c _
  have hsock : lastSet (controlAssignments c) controlSocketEnv = some (controlSocketPath c) :=
    lastSet_control c _
  constructor
  · intro h
    -- in an agent without an environment of its own the two are compared as they are
    have hname : ∀ name u, name ≠ "TERM" → name ≠ "COLORTERM" →
        lastSet (controlAssignments c) name = some u → ∀ v ∈ forwarded env name, v = u := by
      intro name u ht hc hu v hv
      have heq := h (fun _ => none) "" "" name ht hc
      rw [ptyEnv_apply _ _ _ _ _ ht hc, bindings_childEnv_apply, hu, Option.mem_def.1 hv] at heq
      simpa using heq.symm
    exact ⟨hname _ _ (by decide) (by decide) hreq, hname _ _ (by decide) (by decide) hsock⟩
  · rintro ⟨h₁, h₂⟩ inherited term colorterm name ht hc
    have hcomm : (lastSet (controlAssignments c) name).or (forwarded env name) =
        (forwarded env name).or (lastSet (controlAssignments c) name) := by
      rw [or_comm_iff]
      intro v hv w hw
      rw [lastSet_control] at hv
      split at hv
      · next hs =>
        subst hs
        rw [h₂ w hw, ← Option.some.inj hv]
      · split at hv
        · next hr =>
          subst hr
          rw [h₁ w hw, ← Option.some.inj hv]
        · cases hv
    rw [ptyEnv_apply _ _ _ _ _ ht hc, bindings_childEnv_apply, hcomm]

/-! ## The files tried -/

theorem ptyEnv_path (inherited : Env) (term colorterm : String)
    (env : Vars) (c : ChannelId) :
    ptyEnv inherited term colorterm env c "PATH" =
      some ((forwarded env "PATH").getD defaultPath) := by
  have hctl : lastSet (controlAssignments c) "PATH" = none := lastSet_control c _
  have hdef : lastSet defaultExecEnvironment "PATH" = some defaultPath := by
    decide +kernel
  rw [ptyEnv_apply _ _ _ _ _ (by decide) (by decide), hctl, hdef]
  cases forwarded env "PATH" <;> rfl

theorem dirsOf_inj {p q : String} (h : dirsOf p = dirsOf q) : p = q := by
  have hjoin := congrArg (List.intercalate [':']) h
  rw [dirsOf, dirsOf, intercalate_splitOn, intercalate_splitOn] at hjoin
  exact String.toList_inj.1 hjoin

theorem execvpFile_injective (file : String) : Function.Injective (execvpFile file) := by
  intro d d' h
  unfold execvpFile at h
  have hlen : ∀ e : List Char, file ≠ String.ofList (e ++ '/' :: file.toList) := by
    intro e he
    have := congrArg (fun s : String => s.toList.length) he
    simp at this
    omega
  split at h
  · next hd =>
    split at h
    · next hd' => rw [hd, hd']
    · exact absurd h (hlen d')
  · split at h
    · exact absurd h.symm (hlen d)
    · have := congrArg String.toList h
      simpa using this

/-- In `DEFAULT_PATH` no directory is empty, so `execvp` would try what
    `make_exec_paths` lists. -/
theorem dirsOf_defaultPath : ∀ d ∈ dirsOf defaultPath, d ≠ [] ∧ '\x00' ∉ d := by
  decide +kernel

/-- A file name that is looked up in a path. -/
structure LookedUp (file : String) : Prop where
  nonempty : file ≠ ""
  noSlash : '/' ∉ file.toList
  noNul : hasNul file = false

section LookedUp

variable {file : String} (hf : LookedUp file)
include hf

theorem LookedUp.programs_map (dirs : List (List Char)) :
    programs (dirs.map (execvpFile file)) = dirs.map (execvpFile file) := by
  have hlast : file.toList.getLast?.any (· != '/') = true := by
    have hne : file.toList ≠ [] := fun h => hf.nonempty (String.toList_eq_nil_iff.1 h)
    rw [List.getLast?_eq_some_getLast hne]
    simp only [Option.any_some, bne_iff_ne, ne_eq]
    intro h
    exact hf.noSlash (h ▸ getLast_mem hne)
  refine filter_eq_self.2 ?_
  intro p hp
  obtain ⟨d, -, rfl⟩ := mem_map.1 hp
  unfold execvpFile
  split
  · exact hlast
  · obtain ⟨x, hx, hslash⟩ := (Option.any_eq_true _ _).1 hlast
    simpa [List.getLast?_append, List.getLast?_cons, hx] using hslash

theorem LookedUp.execvpFiles_eq (path : String) :
    execvpFiles path file = (dirsOf path).map (execvpFile file) := by
  have hne : file.isEmpty = false := by simpa using hf.nonempty
  simp [execvpFiles, hne, hf.noSlash]

theorem LookedUp.makeExecPaths_eq :
    makeExecPaths file = (dirsOf defaultPath).map (execvpFile file) := by
  have hs : file.toList.contains '/' = false := by simpa using hf.noSlash
  have hnul : '\x00' ∉ file.toList := by simpa [hasNul] using hf.noNul
  have hmap : ((dirsOf defaultPath).map fun dir => String.ofList (dir ++ '/' :: file.toList)) =
      (dirsOf defaultPath).map (execvpFile file) := by
    refine map_congr_left ?_
    intro d hd
    rw [execvpFile, if_neg (dirsOf_defaultPath d hd).1]
  rw [makeExecPaths, hs, if_neg (by simp), ← hmap]
  refine filter_eq_self.2 ?_
  intro p hp
  obtain ⟨d, hd, rfl⟩ := mem_map.1 hp
  have hd := (dirsOf_defaultPath d hd).2
  simp [hasNul, hd, hnul]

/-- Two paths give the same files only if they are one path. -/
theorem LookedUp.programs_iff (path : String) :
    programs (execvpFiles path file) = programs (makeExecPaths file) ↔ path = defaultPath := by
  rw [hf.execvpFiles_eq, hf.makeExecPaths_eq, hf.programs_map, hf.programs_map]
  constructor
  · intro h
    exact dirsOf_inj ((List.map_inj_right fun _ _ he => execvpFile_injective file he).1 h)
  · rintro rfl
    rfl

end LookedUp

/-- A command that is not looked up is one file in both ways, or none. -/
theorem programs_direct {file : String} (path : String)
    (h : file = "" ∨ '/' ∈ file.toList ∨ hasNul file = true) :
    programs (execvpFiles path (if hasNul file then "" else file)) =
      programs (makeExecPaths file) := by
  cases hnul : hasNul file with
  | true =>
    -- `make_argv` gives `execvp` an empty name, and no listed path is a C string
    have hempty : programs (makeExecPaths file) = [] := by
      unfold makeExecPaths
      split
      · rfl
      · have hmem : '\x00' ∈ file.toList := by simpa [hasNul] using hnul
        have hnone : ∀ dir : List Char,
            hasNul (String.ofList (dir ++ '/' :: file.toList)) = true := by
          intro dir
          simp [hasNul, hmem]
        have hfilter : ((dirsOf defaultPath).map fun dir =>
            String.ofList (dir ++ '/' :: file.toList)).filter (fun p => !hasNul p) = [] := by
          refine filter_eq_nil_iff.2 ?_
          intro p hp
          obtain ⟨dir, -, rfl⟩ := mem_map.1 hp
          rw [hnone]
          decide
        rw [hfilter]
        rfl
    rw [hempty]
    rfl
  | false =>
    rw [if_neg (by simp)]
    rcases h with rfl | h | h
    · have hempty : programs (makeExecPaths "") = [] := by decide +kernel
      rw [hempty]
      rfl
    · have hs : file.toList.contains '/' = true := by simpa using h
      have hne : file.isEmpty = false := by
        cases he : file.isEmpty with
        | false => rfl
        | true =>
          rw [String.isEmpty_iff] at he
          subst he
          simp at h
      rw [execvpFiles, makeExecPaths, hs, hne, hnul]
      rfl
    · rw [hnul] at h
      cases h

theorem samePrograms_iff (argv : List String) (env : Vars) (c : ChannelId)
    (inherited : Env) (term colorterm : String) :
    programs (ptyExecPaths (ptyEnv inherited term colorterm env c) argv) =
        programs (childExecPaths argv) ↔
      (argv.headD "" = "" ∨ '/' ∈ (argv.headD "").toList ∨ hasNul (argv.headD "") = true ∨
        ∀ v ∈ forwarded env "PATH", v = defaultPath) := by
  simp only [ptyExecPaths, ptyEnv_path, Option.getD_some, childExecPaths, makeArgv0]
  by_cases hd : argv.headD "" = "" ∨ '/' ∈ (argv.headD "").toList ∨
      hasNul (argv.headD "") = true
  · refine iff_of_true (programs_direct _ hd) ?_
    rcases hd with h | h | h
    · exact .inl h
    · exact .inr (.inl h)
    · exact .inr (.inr (.inl h))
  · simp only [not_or, Bool.not_eq_true] at hd
    obtain ⟨hne, hs, hnul⟩ := hd
    have hf : LookedUp (argv.headD "") := ⟨hne, hs, hnul⟩
    have hpath : (forwarded env "PATH").getD defaultPath = defaultPath ↔
        ∀ v ∈ forwarded env "PATH", v = defaultPath := by
      cases forwarded env "PATH" <;> simp
    rw [hnul, if_neg (by simp), hf.programs_iff, hpath, or_iff_right hne, or_iff_right hs,
      or_iff_right (by simp)]

/-- A command means the same with and without a terminal if and only if the host forwards
    no other value of `LNX_REQUEST_ID` and `LNX_CONTROL_SOCKET` than the agent's own and,
    where `argv[0]` is looked up in a path, no other `PATH` than the default. -/
theorem command_means_same_iff (argv : List String) (env : Vars) (c : ChannelId) : MeansSame argv env c ↔ ForwardsNoOther argv env c := by
  constructor
  · intro h
    have hb := (sameBindings_iff env c).1 fun inh term ct => (h inh term ct).1
    exact ⟨hb.1, hb.2,
      (samePrograms_iff argv env c _ _ _).1 (h (fun _ => none) "" "").2⟩
  · rintro ⟨hreq, hsock, hpath⟩ inherited term colorterm
    exact ⟨(sameBindings_iff env c).2 ⟨hreq, hsock⟩ inherited term colorterm,
      (samePrograms_iff argv env c _ _ _).2 hpath⟩

/-- `lnx --env PATH=/opt/bin tool`: with a terminal `/opt/bin/tool` is run, without one the
    default directories are searched. -/
theorem forwarded_path_decides_in_one : ¬ MeansSame ["tool"] [("PATH", "/opt/bin")] 1 := by
  intro h
  have hpty : programs (ptyExecPaths
      (ptyEnv (fun _ => none) "xterm" "" [("PATH", "/opt/bin")] 1) ["tool"]) =
        ["/opt/bin/tool"] := by
    decide +kernel
  have hpipe : "/bin/tool" ∈ programs (childExecPaths ["tool"]) := by decide +kernel
  rw [← (h (fun _ => none) "xterm" "").2, hpty] at hpipe
  exact absurd hpipe (by decide)

end Lnx
