import Lnx.Broker.State
import Lnx.Lib.Machine

/-!
# The write allowlist of the home share

When a client opens a command, its handler sets the list of paths that the guest may
write to in the home share to the command's working directory
(`replace_home_write_allowlist`, `runner.rs` lines 3272–3281, called by
`BrokerState::open_channel` once admission is certain). There is one list for the share
(`Fs::set_write_allowlist`), which the next command replaces.

Paths are lists of components. `allow` is the list in force; `commands` are the commands
whose channels are open, with their working directories.

* `AllowlistState.step`: one operation of the broker.
* `command_keeps_writes_iff`: the commands under the shared home may write to their
  working directories all along just when no command is opened from a directory that does
  not contain those of all of them.
-/

namespace Lnx

open List

/-! ## Allowlists -/

section paths

variable {κ : Type} [DecidableEq κ]

/-- `path.strip_prefix(base)`, as lists of components. -/
def stripBase : List κ → List κ → Option (List κ)
  | [], path => some path
  | b :: base, c :: path => if b = c then stripBase base path else none
  | _ :: _, [] => none

/-- An entry of an allowlist. -/
inductive Allowed (κ : Type)
  /-- `"."`, for all of the share -/
  | dot
  | path (p : List κ)
  deriving DecidableEq

def homeWriteAllowlist (cwd hostHome : List κ) : List (Allowed κ) :=
  match stripBase hostHome cwd with
  | none => []
  | some [] => [.dot]
  | some relative => [.path relative]

/-- `write_allowed_path` -/
def writeAllowedPath (allowlist : List (Allowed κ)) (path : List κ) : Bool :=
  allowlist.any fun allowed =>
    match allowed with
    | .dot => true
    | .path p => path = p || p.isPrefixOf path

theorem writeAllowedPath_append {allowlist : List (Allowed κ)} {path : List κ}
    (h : writeAllowedPath allowlist path = true) (rest : List κ) :
    writeAllowedPath allowlist (path ++ rest) = true := by
  obtain ⟨allowed, hmem, h⟩ := any_eq_true.1 h
  refine any_eq_true.2 ⟨allowed, hmem, ?_⟩
  cases allowed with
  | dot => rfl
  | path p =>
    have hp : p <+: path := by
      rcases Bool.or_eq_true_iff.1 h with h | h
      · exact of_decide_eq_true h ▸ prefix_rfl
      · exact List.isPrefixOf_iff_prefix.1 h
    exact Bool.or_eq_true_iff.2 (.inr (List.isPrefixOf_iff_prefix.2 (hp.trans (prefix_append path rest))))

/-- A command's own list lets it write to its working directory. -/
theorem writeAllowedPath_homeWriteAllowlist {cwd hostHome relative : List κ}
    (h : stripBase hostHome cwd = some relative) :
    writeAllowedPath (homeWriteAllowlist cwd hostHome) relative = true := by
  unfold homeWriteAllowlist
  rw [h]
  cases relative with
  | nil => rfl
  | cons c relative => simp [writeAllowedPath]

end paths

/-! ## The broker -/

/-- The broker, the list in force and the commands that run. -/
structure AllowlistState (κ : Type) where
  broker : Broker
  allow : List (Allowed κ)
  commands : List (ChannelId × List κ)

inductive AllowlistAct (κ : Type)
  /-- `open_channel` for a command; `prepare` is what setting the list returns -/
  | openExec (c : ChannelId) (channel : BrokerChannel) (cwd : List κ) (prepare dispatch : Except String Unit)
  /-- any other operation -/
  | other (op : BrokerOp)

/-- The operation opens a channel for a command. -/
def BrokerOp.opensExec : BrokerOp → Bool
  | .openChannel _ tcp _ _ _ => !tcp
  | _ => false

namespace AllowlistState

variable {κ : Type} [DecidableEq κ] (hostHome : List κ)

/-- `open_channel` gets to the list, and sets it. -/
def Replaces (s : AllowlistState κ) (c : ChannelId) (prepare : Except String Unit) : Prop :=
  s.broker.stopping = false ∧ c ∉ s.broker.ids ∧ prepare = .ok ()

instance (s : AllowlistState κ) (c : ChannelId) : (prepare : Except String Unit) → Decidable (s.Replaces c prepare)
  | .ok () => decidable_of_iff (s.broker.stopping = false ∧ c ∉ s.broker.ids) (by simp [Replaces])
  | .error _ => .isFalse fun h => nomatch h.2.2

def step (s : AllowlistState κ) : AllowlistAct κ → Option (AllowlistState κ)
  | .openExec c channel cwd prepare dispatch =>
    let r := s.broker.openChannel c channel (.openExec c) prepare dispatch
    some
      { broker := r.1
        allow := if s.Replaces c prepare then homeWriteAllowlist cwd hostHome else s.allow
        commands :=
          match r.2 with
          | .ok .opened => (c, cwd) :: s.commands
          | _ => s.commands }
  | .other op =>
    if op.opensExec then none
    else
      some { s with
        broker := s.broker.apply op
        commands := s.commands.filter fun e => e.1 ∈ (s.broker.apply op).ids }

/-- Every command that runs from under the shared home may write to every path under its
    working directory. -/
def Writable (s : AllowlistState κ) : Prop :=
  ∀ e ∈ s.commands, ∀ relative, stripBase hostHome e.2 = some relative →
    ∀ rest, writeAllowedPath s.allow (relative ++ rest) = true

/-- A command is opened from a directory that does not contain that of another one which
    runs from under the home. -/
def Revokes (s : AllowlistState κ) : AllowlistAct κ → Prop
  | .openExec c _ cwd prepare _ =>
    s.Replaces c prepare ∧ ∃ e ∈ s.commands, ∃ relative, stripBase hostHome e.2 = some relative ∧
      writeAllowedPath (homeWriteAllowlist cwd hostHome) relative = false
  | .other _ => False

variable {hostHome} {s s' : AllowlistState κ}

theorem writable_step {a : AllowlistAct κ} (hs : s.Writable hostHome) (h : s.step hostHome a = some s') :
    s'.Writable hostHome ↔ ¬ s.Revokes hostHome a := by
  cases a with
  | other op =>
    refine iff_of_true ?_ id
    simp only [step] at h
    split_ifs at h
    cases h
    exact fun e he => hs e (mem_filter.1 he).1
  | openExec c channel cwd prepare dispatch =>
    cases h
    by_cases hrep : s.Replaces c prepare
    · simp only [Writable, Revokes, if_pos hrep]
      constructor
      · rintro h ⟨-, e, he, relative, hrel, hno⟩
        have hmem : e ∈ (match (s.broker.openChannel c channel (.openExec c) prepare dispatch).2 with
            | .ok .opened => (c, cwd) :: s.commands
            | _ => s.commands) := by
          split
          · exact mem_cons_of_mem _ he
          · exact he
        have := h e hmem relative hrel []
        rw [append_nil, hno] at this
        cases this
      · intro h e he relative hrel rest
        refine writeAllowedPath_append ?_ rest
        by_contra hno
        -- the new command may write; an old one would have lost its paths
        have hold : e ∈ s.commands → False := fun hold =>
          h ⟨hrep, e, hold, relative, hrel, Bool.eq_false_iff.2 hno⟩
        split at he
        · rcases mem_cons.1 he with rfl | he
          · exact hno (writeAllowedPath_homeWriteAllowlist hrel)
          · exact hold he
        · exact hold he
    · refine iff_of_true ?_ fun hb => hrep hb.1
      simp only [Writable, if_neg hrep]
      -- no command is admitted
      have hnot : (s.broker.openChannel c channel (.openExec c) prepare dispatch).2 ≠ .ok .opened := by
        intro hopened
        apply hrep
        unfold Broker.openChannel at hopened
        split at hopened
        · cases hopened
        split at hopened
        · cases hopened
        · next hstop hid =>
          split at hopened
          · cases hopened
          · cases hopened
          · exact ⟨Bool.eq_false_iff.2 hstop, hid, rfl⟩
      split
      · next hopened => exact absurd hopened hnot
      · exact hs

end AllowlistState

open AllowlistState in
theorem command_keeps_writes_iff {κ : Type} [DecidableEq κ] (hostHome : List κ) (b : Broker)
    (allow : List (Allowed κ)) (as : List (AllowlistAct κ)) :
    Along (step hostHome) (Writable hostHome) ⟨b, allow, []⟩ as ↔
      Avoids (step hostHome) (Revokes hostHome) ⟨b, allow, []⟩ as :=
  along_iff_avoids (I := fun _ => True) (fun _ _ _ _ _ => trivial) (fun _ _ _ _ hs h => writable_step hs h)
    trivial (fun _ he => absurd he not_mem_nil) as

open AllowlistState in
/-- Two commands in two directories of the home: the first may not write any more. -/
theorem command_may_lose_writes :
    ((List.foldlM (step ["Users", "me"]) ⟨⟨[], false, 0, false, none, false, [], []⟩, [], []⟩
      [.openExec 1 ⟨1, true⟩ ["Users", "me", "a"] (.ok ()) (.ok ()),
       .openExec 2 ⟨2, true⟩ ["Users", "me", "b"] (.ok ()) (.ok ())]).map fun s =>
        (s.broker.ids, s.commands, writeAllowedPath s.allow ["a", "x"])) =
      some ([1, 2], [(2, ["Users", "me", "b"]), (1, ["Users", "me", "a"])], false) := by
  decide

end Lnx
