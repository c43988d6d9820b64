import Lnx.Store.Ops

/-!
# Running the store's programs

`FsOp.answer` picks, for every operation in every world, one of the answers
`FsSem` allows: no fault, and for a new generation a name longer than any in
`generations/`. So every program of the store has a run (`runs_exec`), and a run on
a given instance directory can be computed.
-/

namespace Lnx

open List

/-- The length of the longest name. -/
def longest : List Name → ℕ
  | [] => 0
  | n :: names => max n.toList.length (longest names)

variable {n : Name}

theorem length_le_longest {names : List Name} (h : n ∈ names) :
    n.toList.length ≤ longest names := by
  induction names with
  | nil => cases h
  | cons m names ih =>
    rcases mem_cons.1 h with rfl | h
    · exact le_max_left _ _
    · exact (ih h).trans (le_max_right _ _)

/-- An id made of `n + 1` times the letter `g`. -/
def generationIdOf (n : ℕ) : GenerationId where
  asStr := String.ofList (List.replicate (n + 1) 'g')
  valid := by
    have hg : componentChar 'g' = true := by decide
    simp [validComponent, startsWith, replicate_succ, List.isPrefixOf, hg]

/-- A name no directory under `generations/` bears any part of. -/
def freshGenerationId (w : World) : GenerationId :=
  generationIdOf (longest (Store.listing (w.look [GENERATIONS_DIR])))

/-- A directory lists what stands in it. -/
theorem mem_listing_iff {w : World} {p : Path} (hp : p ≠ []) :
    n ∈ Store.listing (w.look p) ↔ w.peek (p ++ [n]) ≠ none := by
  rw [ne_eq, World.peek_eq_none, World.get_append hp]
  cases hg : w.get p with
  | none =>
    cases hl : w.look p with
    | ok t => rw [World.look_eq_ok.1 hl] at hg; cases hg
    | error e => simp [Store.listing]
  | some t =>
    rw [World.look_eq_ok.2 hg]
    cases t with
    | leaf a => simp [Store.listing]
    | node es =>
      rw [Option.bind_some, Tree.get_node_cons, Store.listing, ← Assoc.get_isSome_iff]
      cases Assoc.get n es <;> simp

theorem mem_listing {w : World} {t : Dir} (h : w.get [GENERATIONS_DIR, n] = some t) :
    n ∈ Store.listing (w.look [GENERATIONS_DIR]) :=
  (mem_listing_iff (p := [GENERATIONS_DIR]) (by simp)).2 (by simp [World.peek, h])

theorem freshGenerationId_unused (w : World) : w.Unused (freshGenerationId w) := by
  have hlong : ∀ n, w.get [GENERATIONS_DIR, n] ≠ none →
      n.toList.length < (freshGenerationId w).asStr.toList.length := by
    intro n hn
    obtain ⟨t, ht⟩ := Option.ne_none_iff_exists'.1 hn
    have := length_le_longest (mem_listing ht)
    simp only [freshGenerationId, generationIdOf, String.toList_ofList, length_replicate]
    omega
  refine ⟨fun pre => ?_, fun pre suf => ?_⟩
  · by_contra hne
    have := hlong _ hne
    simp only [String.toList_append, length_append] at this
    omega
  · by_contra hne
    have := hlong _ hne
    simp only [String.toList_append, length_append] at this
    omega

/-- One allowed answer to every operation. -/
def FsOp.answer : ∀ β : Type, FsOp β → World → β × World
  | _, .look p, w => (w.look p, w)
  | _, .edit e, w =>
    match e.apply w with
    | .ok w' => (.ok (), w'.withDisk (e.persist w))
    | .error x => (.error x, w)
  | _, .tryLock n, w => (!w.held n, { w with examined := (n, w.held n) :: w.examined })
  | _, .newGenerationId, w => (freshGenerationId w, w)
  | _, .newRunId, w => (⟨"r", by decide⟩, w)
  | _, .newTempId, w => ("0", w)
  | _, .now, w => (0, w)
  | _, .pause run g, w =>
    ((), { w with paused := true, captured := ⟨run, g, w.runs.get [run.asStr]⟩ :: w.captured })
  | _, .resume, w => ((), { w with paused := false })

theorem answer_sem (faults : Bool) (β : Type) (o : FsOp β) (w : World) :
    FsSem faults β o w (FsOp.answer β o w).1 (FsOp.answer β o w).2 := by
  cases o with
  | look p | tryLock n => exact ⟨rfl, rfl⟩
  | edit e =>
    simp only [FsSem, FsOp.answer]
    split
    · next w' h => exact .done h
    · next x h => exact .refused h
  | newGenerationId =>
    refine ⟨?_, freshGenerationId_unused w, rfl⟩
    simp [FsOp.answer, freshGenerationId, generationIdOf, startsWith, replicate_succ]
  | newRunId =>
    have hr : startsWith "r" "r" = true := by decide
    exact ⟨hr, rfl⟩
  | newTempId => exact ⟨by simp [FsOp.answer], rfl⟩
  | now | pause run g | resume => exact rfl

/-- The run `FsOp.answer` picks out. -/
def Prog.execFs {α : Type} (p : Prog FsOp α) (w : World) : α × World := p.exec FsOp.answer w

/-- Every program of the store can run to its end. -/
theorem runs_exec {α : Type} (faults : Bool) (p : Prog FsOp α) (w : World) :
    Prog.Runs (FsSem faults) p w (p.execFs w).1 (p.execFs w).2 :=
  Prog.exec_runs (answer_sem faults) p w

end Lnx
