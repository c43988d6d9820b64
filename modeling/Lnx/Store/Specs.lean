import Lnx.Store.Invariant

/-!
# What the store's functions do, step by step

For every helper the store's operations are made of: which steps its file system
calls are, whatever faults occur and whatever the guest writes meanwhile, what it
returns with, and what is left when it fails. `K` is what the caller has to know
of the steps so far, from a world `w₀` on.

Results: `createDirAll_does`, `cloneOrCopyFile_does`, `copyTree_does`,
`copyShares_does`, `syncTree_does`, `writeFile_does`.
-/

namespace Lnx

open Assoc Prog List World

variable {dir dst p path q src : Path} {a b c w w' : World} {e : Edit} {doing : String}

/-- `p`, run in `w` with the environment at work, takes only the steps it is held
    to, returns only with `post`, and leaves what it should when it fails. -/
abbrev Does (E : Setting) {α : Type} (post : α → World → Prop) (p : Io α) (w : World) : Prop :=
  Prog.Ensures (FsSem E.faults) (Guest E.still) E.step post E.fail p w

section rules

variable {E : Setting} {α : Type}

theorem does_look {post : Except IoError Dir → World → Prop}
    (h : ∀ w₁, Guest E.still w w₁ → post (w₁.look p) w₁) : Does E post (perform (.look p)) w := by
  rintro w₁ h₁ r w₂ ⟨rfl, rfl⟩
  exact ⟨E.refl _, h _ h₁⟩

theorem does_edit {post : Except IoError Unit → World → Prop}
    (h : ∀ w₁ r w₂, Guest E.still w w₁ → EditSem E.faults e w₁ r w₂ →
      E.step w₁ w₂ ∧ post r w₂) : Does E post (perform (.edit e)) w :=
  fun w₁ h₁ r w₂ h₂ => h w₁ r w₂ h₁ h₂

theorem does_attempt_edit {post : Unit → World → Prop}
    (h : ∀ w₁ r w₂, Guest E.still w w₁ → EditSem E.faults e w₁ r w₂ →
      E.step w₁ w₂ ∧ (r = .ok () → post () w₂) ∧ (∀ x, r = .error x → E.fail w₂)) :
    Does E post (attempt doing path (.edit e)) w := by
  intro w₁ h₁ r w₂ h₂
  obtain ⟨hs, hok, herr⟩ := h w₁ r w₂ h₁ h₂
  refine ⟨hs, ?_⟩
  cases r with
  | error x => exact herr x rfl
  | ok u => exact hok rfl

theorem does_attempt_look {post : Dir → World → Prop} (hf : ∀ w₁, Guest E.still w w₁ → E.fail w₁)
    (h : ∀ w₁ t, Guest E.still w w₁ → w₁.get p = some t → post t w₁) :
    Does E post (attempt doing path (.look p)) w := by
  rintro w₁ h₁ r w₂ ⟨hr, rfl⟩
  refine ⟨E.refl _, ?_⟩
  cases r with
  | error x => exact hf _ h₁
  | ok t => exact h _ _ h₁ (look_eq_ok.1 hr.symm)

variable {post : α → World → Prop}

theorem does_ofExcept {r : Except StoreError α} (hf : E.fail w) (h : ∀ a, r = .ok a → post a w) :
    Does E post (ofExcept r) w := by
  cases r with
  | error x => exact hf
  | ok a => exact h a rfl

theorem does_pure {a : α} (h : post a w) : Does E post (pure a : Io α) w := ensures_pure h

theorem does_throw {e : StoreError} (h : E.fail w) :
    Does E post (throw e : Io α) w := ensures_throw h

theorem does_bind {β : Type} {post : β → World → Prop} {Q : α → World → Prop} {p : Io α}
    {f : α → Io β} (h : Does E Q p w) (hf : ∀ a w', Q a w' → Does E post (f a) w') :
    Does E post (p >>= f) w := ensures_bind h hf

theorem does_post {post' : α → World → Prop} {p : Io α} (h : Does E post p w)
    (hp : ∀ a w', post a w' → post' a w') : Does E post' p w :=
  ensures_post h hp

theorem does_tryCatch {p : Io α} {handler : StoreError → Io α} (h : Does E post p w)
    (hh : ∀ e w', E.fail w' → Does E post (handler e) w') :
    Does E post (tryCatch p handler) w := by
  refine meets_bind (meets_post h fun r w' hr => ?_)
  cases r with
  | ok a => exact hr
  | error e => exact hh e w' hr

end rules

/-! ## Directories and files -/

/-- Outside `dst` and outside run directories, nothing is different. -/
def Elsewhere (dst : Path) (w w' : World) : Prop :=
  ∀ q, ¬ dst <+: q → q.head? ≠ some RUNS_DIR → w'.peek q = w.peek q

theorem Elsewhere.refl (dst : Path) (w : World) : Elsewhere dst w w := fun _ _ _ => rfl

theorem Elsewhere.trans (h₁ : Elsewhere dst a b) (h₂ : Elsewhere dst b c) : Elsewhere dst a c :=
  fun q hq hr => (h₂ q hq hr).trans (h₁ q hq hr)

variable {still : Bool} {n : Name}

theorem Elsewhere.of_guest (h : Guest still w w') (dst : Path) :
    Elsewhere dst w w' := fun _ _ hr => h.peek hr

theorem Elsewhere.of_edit {faults : Bool} {r : Except IoError Unit}
    (h : EditSem faults e w r w') (he : ∀ p ∈ e.footprint, dst <+: p) : Elsewhere dst w w' :=
  fun _ hq _ => h.peek_eq fun p hp hpq => hq ((he p hp).trans hpq)

theorem Elsewhere.mono {dst' : Path} (h : Elsewhere dst' w w') (hd : dst <+: dst') : Elsewhere dst w w' :=
  fun q hq hr => h q (fun hp => hq (hd.trans hp)) hr

/-- Outside run directories, nothing is different. -/
def Undisturbed (w w' : World) : Prop := ∀ q, q.head? ≠ some RUNS_DIR → w'.peek q = w.peek q

theorem Undisturbed.refl (w : World) : Undisturbed w w := fun _ _ => rfl

theorem Undisturbed.trans (h₁ : Undisturbed a b) (h₂ : Undisturbed b c) : Undisturbed a c := fun q hr => (h₂ q hr).trans (h₁ q hr)

theorem Undisturbed.of_guest (h : Guest still w w') : Undisturbed w w' := fun _ hr => h.peek hr

/-- Nothing that is not on the way to `p` is different. -/
def Beside (p : Path) (w w' : World) : Prop :=
  ∀ q, ¬ q <+: p → q.head? ≠ some RUNS_DIR → w'.peek q = w.peek q

theorem World.get_append_of_head (h : p ≠ [] ∨ q.head? ≠ some RUNS_DIR) :
    w.get (p ++ q) = (w.get p).bind fun t => t.get q := by
  cases p with
  | cons n p => exact get_append (by simp) q
  | nil =>
    have hq : q.head? ≠ some RUNS_DIR := h.resolve_left (by simp)
    cases q with
    | nil => simp [get]
    | cons n q =>
      have hn : n ≠ RUNS_DIR := by simpa using hq
      simp [get, hn]

/-- An ancestor of something that exists is a directory. -/
theorem World.peek_ancestor {l : Option Leaf} (h : w.peek p = some l)
    (hq : q <+: p) (hne : q ≠ p) (hr : p.head? ≠ some RUNS_DIR) : w.peek q = some none := by
  obtain ⟨s, rfl⟩ := hq
  have hs : q ≠ [] ∨ s.head? ≠ some RUNS_DIR := by
    cases q with
    | nil => exact .inr hr
    | cons n q => exact .inl (by simp)
  rw [peek, get_append_of_head hs] at h
  cases hg : w.get q with
  | none => rw [hg] at h; cases h
  | some t =>
    cases t with
    | node es => simp [peek, hg]
    | leaf a =>
      cases s with
      | nil => simp at hne
      | cons n s => rw [hg] at h; cases h

section files

variable {E : Setting} {free : Path → Prop} {K : World → World → Prop} (hK : Closed E free K)
  {w₀ : World} (hf : E.fail w₀)

include hK hf

/-- A call below free paths: the environment may have stepped before it. -/
theorem does_free_edit (he : ∀ p ∈ e.footprint, free p) (h₀ : K w₀ w) : Does E
      (fun _ w' => K w₀ w' ∧ ∃ w₁, Guest E.still w w₁ ∧ EditSem E.faults e w₁ (.ok ()) w')
      (attempt doing path (.edit e)) w := by
  refine does_attempt_edit fun w₁ r w₂ hg h => ?_
  have hk : K w₁ w₂ := hK.edit h he
  have hk₂ : K w₀ w₂ := hK.trans h₀ (hK.trans (hK.guest hg) hk)
  refine ⟨hK.step hk, ?_, fun _ _ => hK.fail hk₂ hf⟩
  rintro rfl
  exact ⟨hk₂, w₁, hg, h⟩

/-- Reading what must be there. -/
theorem look_does (h₀ : K w₀ w) : Does E (fun t w' => K w₀ w' ∧ Guest E.still w w' ∧ w'.get p = some t)
      (attempt doing path (.look p)) w :=
  does_attempt_look (fun _ hg => hK.fail (hK.trans h₀ (hK.guest hg)) hf)
    fun _ _ hg ht => ⟨hK.trans h₀ (hK.guest hg), hg, ht⟩

theorem ensureDir_does (hp : free p) (hq : q <+: p) (hne : q ≠ []) (h₀ : K w₀ w) : Does E
      (fun _ w' => K w₀ w' ∧ (q.head? ≠ some RUNS_DIR → w'.peek q = some none) ∧ Beside q w w')
      (ensureDir q) w := by
  refine does_bind (Q := fun r w' => K w₀ w' ∧ Beside q w w' ∧
    (r = .ok () → w'.peek q = some none)) (does_edit fun w₁ r w₂ hg h => ?_) ?_
  · have hk : K w₁ w₂ := hK.mkdir h hp hq hne
    refine ⟨hK.step hk, hK.trans h₀ (hK.trans (hK.guest hg) hk), ?_, ?_⟩
    · intro x hx hr
      rw [peek, h.get_of_mkdir hx, hg.get hr]
      rfl
    · rintro rfl
      cases h with
      | done h => simp [peek, get_put_self (add_eq_ok h).2]
  · rintro r w' ⟨hk, hb, hok⟩
    split
    · exact does_pure ⟨hk, fun _ => hok rfl, hb⟩
    · refine does_bind (Q := fun r w'' => K w₀ w'' ∧ Beside q w w'' ∧
        ∀ es, r = .ok (.node es) → w''.peek q = some none) (does_look fun w₁ hg => ?_) ?_
      · refine ⟨hK.trans hk (hK.guest hg), fun x hx hr => ?_, fun es hr => ?_⟩
        · rw [hg.peek hr, hb x hx hr]
        · simp [peek, look_eq_ok.1 hr]
      · rintro r w'' ⟨hk, hb, hn⟩
        split
        · next es => exact does_pure ⟨hk, fun _ => hn es rfl, hb⟩
        · exact does_throw (hK.fail hk hf)
    · exact does_throw (hK.fail hk hf)

theorem makeDirs_does {parent : Path} {names : List Name} (hp : free p) (hpar : parent ++ names = p)
    (hdir : parent ≠ [] → p.head? ≠ some RUNS_DIR → w.peek parent = some none) (h₀ : K w₀ w) : Does E
      (fun _ w' => K w₀ w' ∧ (p ≠ [] → p.head? ≠ some RUNS_DIR → w'.peek p = some none) ∧
        Beside p w w')
      (makeDirs parent names) w := by
  induction names generalizing parent w with
  | nil =>
    rw [append_nil] at hpar
    exact does_pure ⟨h₀, hpar ▸ hdir, fun _ _ _ => rfl⟩
  | cons n names ih =>
    have hpre : parent ++ [n] <+: p := ⟨names, by simpa using hpar⟩
    have hne : parent ++ [n] ≠ [] := by simp
    have hhead : (parent ++ [n]).head? = p.head? := by
      obtain ⟨s, rfl⟩ := hpre
      exact (head?_append_of_ne_nil _ hne).symm
    refine does_bind (ensureDir_does hK hf hp hpre hne h₀) fun _ w₁ h₁ => ?_
    obtain ⟨hk₁, hdir₁, hb₁⟩ := h₁
    refine does_post (ih (by simpa using hpar : parent ++ [n] ++ names = p)
      (fun _ hr => hdir₁ (by rwa [hhead])) hk₁) fun _ w₂ h₂ => ?_
    obtain ⟨hk₂, hdir₂, hb₂⟩ := h₂
    refine ⟨hk₂, hdir₂, fun x hx hr => ?_⟩
    rw [hb₂ x hx hr, hb₁ x (fun h => hx (h.trans hpre)) hr]

/-- `create_dir_all` leaves a directory at `p` and changes nothing but what is on
    the way to it. -/
theorem createDirAll_does (hp : free p) (h₀ : K w₀ w) : Does E
      (fun _ w' => K w₀ w' ∧ (p ≠ [] → p.head? ≠ some RUNS_DIR → w'.peek p = some none) ∧
        Beside p w w')
      (createDirAll p) w :=
  makeDirs_does hK hf hp rfl (fun h => absurd rfl h) h₀

/-- Where the directory is there already, `create_dir_all` changes nothing. -/
theorem createDirAll_same (hp : free p)
    (hr : p.head? ≠ some RUNS_DIR) (hne : p ≠ []) (hdir : w.peek p = some none) (h₀ : K w₀ w) :
    Does E (fun _ w' => K w₀ w' ∧ Elsewhere dst w w') (createDirAll p) w := by
  refine does_post (createDirAll_does hK hf hp h₀) fun _ w' h => ⟨h.1, fun q _ hq => ?_⟩
  obtain ⟨-, hdir', hb⟩ := h
  by_cases hqp : q <+: p
  · by_cases heq : q = p
    · rw [heq, hdir, hdir' hne hr]
    · rw [peek_ancestor (hdir' hne hr) hqp heq hr, peek_ancestor hdir hqp heq hr]
  · exact hb q hqp hq

omit hf in
/-- Removing a file, if there is one. -/
theorem removeFileIfAny_does (hd : free dst) (h₀ : K w₀ w) :
    Does E (fun _ w' => K w₀ w' ∧ Elsewhere dst w w')
      (removeFileIfAny dst) w := by
  refine does_bind (Q := fun _ w' => K w₀ w' ∧ Elsewhere dst w w')
    (does_edit fun w₁ r w₂ hg h => ?_) fun _ _ h => does_pure h
  have hk : K w₁ w₂ := hK.edit h (by simpa using hd)
  exact ⟨hK.step hk, hK.trans h₀ (hK.trans (hK.guest hg) hk),
    (Elsewhere.of_guest hg dst).trans (Elsewhere.of_edit h (by simp))⟩

/-- A new leaf at `dst`. -/
theorem place_does {l : Leaf} (hd : free dst) (h₀ : K w₀ w) : Does E
      (fun _ w' => K w₀ w' ∧ Elsewhere dst w w' ∧ w'.peek dst = some (some l))
      (attempt doing path (.edit (.place dst l))) w := by
  refine does_post (does_free_edit hK hf (by simpa using hd) h₀)
    fun _ w' h => ?_
  obtain ⟨hk, w₁, hg, he⟩ := h
  refine ⟨hk, (Elsewhere.of_guest hg dst).trans (Elsewhere.of_edit he (by simp)), ?_⟩
  cases he with
  | done h => simp [peek, get_put_self (add_eq_ok h).2]

theorem installFile_does {b : Bytes} (hd : free dst) (h₀ : K w₀ w) : Does E
      (fun _ w' => K w₀ w' ∧ Elsewhere dst w w' ∧ w'.peek dst = some (some (.file b)))
      (installFile dst b) w := by
  refine does_bind (removeFileIfAny_does hK hd h₀) fun _ w₁ h₁ => ?_
  refine does_post (place_does hK hf hd h₁.1) fun _ w₂ h₂ => ?_
  exact ⟨h₂.1, h₁.2.trans h₂.2.1, h₂.2.2⟩

/-- `clone_or_copy_file` into the directory `dir`: the copy holds what the source
    held when it was read, and where `dir` was there nothing else changed. -/
theorem cloneOrCopyFile_does (hd : free dir) (hne : dir ≠ []) (h₀ : K w₀ w) : Does E
      (fun _ w' => K w₀ w' ∧
        (∃ w₁ b, K w₀ w₁ ∧ w₁.get src = some (.leaf (.file b)) ∧
          w'.peek (dir ++ [n]) = some (some (.file b))) ∧
        (dir.head? ≠ some RUNS_DIR → w.peek dir = some none → Elsewhere (dir ++ [n]) w w'))
      (cloneOrCopyFile src (dir ++ [n])) w := by
  unfold cloneOrCopyFile
  rw [dropLast_concat]
  refine does_bind (Q := fun _ w₁ => K w₀ w₁ ∧
      (dir.head? ≠ some RUNS_DIR → w.peek dir = some none → Elsewhere (dir ++ [n]) w w₁))
    ?_ fun _ w₁ h₁ => ?_
  · by_cases hex : dir.head? ≠ some RUNS_DIR ∧ w.peek dir = some none
    · exact does_post (createDirAll_same hK hf hd hex.1 hne hex.2 h₀) fun _ w' h =>
        ⟨h.1, fun _ _ => h.2⟩
    · exact does_post (createDirAll_does hK hf hd h₀) fun _ w' h =>
        ⟨h.1, fun hr hdir => absurd ⟨hr, hdir⟩ hex⟩
  · refine does_bind (Q := fun t w₂ => K w₀ w₂ ∧ w₂.get src = some t ∧
        (dir.head? ≠ some RUNS_DIR → w.peek dir = some none → Elsewhere (dir ++ [n]) w w₂))
      (does_post (look_does hK hf h₁.1) fun t w₂ h₂ => ⟨h₂.1, h₂.2.2, fun hr hdir =>
        (h₁.2 hr hdir).trans (Elsewhere.of_guest h₂.2.1 _)⟩) fun t w₂ h₂ => ?_
    split
    · next b =>
      refine does_post (installFile_does hK hf (hK.append hd [n]) h₂.1) fun _ w₃ h₃ => ?_
      exact ⟨h₃.1, ⟨w₂, b, h₂.1, h₂.2.1, h₃.2.2⟩, fun hr hdir => (h₂.2.2 hr hdir).trans h₃.2.1⟩
    · exact does_throw (hK.fail h₂.1 hf)

end files

/-! ## Directory trees -/

/-- The tree `t` stands at `p`. -/
def Holds (w : World) (p : Path) (t : Dir) : Prop := ∀ q, w.peek (p ++ q) = t.peek q

/-- Below something that is not there, nothing is. -/
theorem World.peek_below_none (hp : p ≠ []) (h : w.peek p = none) : w.peek (p ++ q) = none := by
  rw [peek, get_append hp, peek_eq_none.1 h]
  rfl

/-- Where a leaf stands, a leaf stands. -/
theorem holds_leaf {a : Leaf} (hp : p ≠ []) (h : w.peek p = some (some a)) : Holds w p (.leaf a) := by
  intro q
  rw [peek_append hp (peek_eq_leaf.1 h)]

theorem prefix_of_prefix_concat (h : q <+: p ++ [n]) (hne : q ≠ p ++ [n]) : q <+: p := by
  rcases prefix_concat_iff.1 h with h | h
  · exact absurd h hne
  · exact h

theorem not_prefix_of_concat (p : Path) (n : Name) : ¬ p ++ [n] <+: p := fun h => by
  have := h.length_le
  simp only [length_append, length_cons, length_nil] at this
  omega

section trees

variable {E : Setting} {free : Path → Prop} {K : World → World → Prop} (hK : Closed E free K)
  {w₀ : World} (hf : E.fail w₀)

/-- What copying `t` to the new entry `n` of the directory `dir` achieves. -/
def Copied (dir : Path) (n : Name) (t : Dir) (w w' : World) : Prop :=
  dir.head? ≠ some RUNS_DIR → t.Distinct → w.peek dir = some none →
    (∀ m q, w.peek (dir ++ [n] ++ m :: q) = none) →
    Elsewhere (dir ++ [n]) w w' ∧ Holds w' (dir ++ [n]) t

/-- The loop of `clone_or_copy_tree`, given what it does for each entry. -/
theorem copyEntries_does {es : List (Name × Dir)} (hne : dst ≠ []) (ih : ∀ e ∈ es, ∀ w, K w₀ w → Does E
      (fun _ w' => K w₀ w' ∧ Copied dst e.1 e.2 w w') (copyTree (dst ++ [e.1]) e.2) w) (h₀ : K w₀ w) :
    Does E
      (fun _ w' => K w₀ w' ∧ (dst.head? ≠ some RUNS_DIR → (Assoc.names es).Nodup →
        (∀ e ∈ es, e.2.Distinct) → w.peek dst = some none →
        (∀ e ∈ es, ∀ m q, w.peek (dst ++ [e.1] ++ m :: q) = none) →
        (∀ q, (∀ e ∈ es, ¬ dst ++ [e.1] <+: q) → q.head? ≠ some RUNS_DIR → w'.peek q = w.peek q) ∧
          ∀ e ∈ es, Holds w' (dst ++ [e.1]) e.2))
      (copyEntries dst es) w := by
  induction es generalizing w with
  | nil => exact does_pure ⟨h₀, fun _ _ _ _ _ => ⟨fun _ _ _ => rfl, by simp⟩⟩
  | cons e es ihes =>
    refine does_bind (ih e (by simp) w h₀) fun _ w₁ h₁ => ?_
    refine does_post (ihes (fun x hx => ih x (mem_cons_of_mem _ hx)) h₁.1) fun _ w₂ h₂ => ?_
    refine ⟨h₂.1, fun hr hnd hdist hdir hnone => ?_⟩
    obtain ⟨hn, hnd'⟩ : e.1 ∉ names es ∧ (names es).Nodup := by
      simpa using hnd
    have hother : ∀ x ∈ es, x.1 ≠ e.1 := fun x hx he =>
      hn (he ▸ mem_map_of_mem (f := Prod.fst) hx)
    have hapart : ∀ x ∈ es, ∀ q, ¬ dst ++ [e.1] <+: dst ++ [x.1] ++ q := by
      intro x hx q hp
      exact hother x hx (by simpa [eq_comm] using hp)
    have hhead : ∀ q, (dst ++ q).head? ≠ some RUNS_DIR := fun q => by
      rwa [head?_append_of_ne_nil _ hne]
    obtain ⟨he₁, hh₁⟩ := h₁.2 hr (hdist e (by simp)) hdir (hnone e (by simp))
    obtain ⟨he₂, hh₂⟩ := h₂.2 hr hnd' (fun x hx => hdist x (mem_cons_of_mem _ hx))
      (by rw [he₁ dst (not_prefix_of_concat _ _) hr]; exact hdir)
      (fun x hx m q => by
        rw [he₁ _ (hapart x hx _) (by rw [append_assoc]; exact hhead _)]
        exact hnone x (mem_cons_of_mem _ hx) m q)
    refine ⟨fun q hq hqr => ?_, fun x hx => ?_⟩
    · rw [he₂ q (fun x hx => hq x (mem_cons_of_mem _ hx)) hqr,
        he₁ q (hq e (by simp)) hqr]
    · rcases mem_cons.1 hx with rfl | hx
      · intro q
        rw [he₂ _ (fun y hy hp => ?_) (by rw [append_assoc]; exact hhead _)]
        · exact hh₁ q
        · rw [append_assoc, prefix_append_right_inj] at hp
          exact hother y hy (by simpa using hp)
      · exact hh₂ x hx

include hK hf

variable {t : Dir}

/-- `clone_or_copy_tree`: where nothing was, the tree stands afterwards. -/
theorem copyTree_does (hd : free dir) (hne : dir ≠ []) (h₀ : K w₀ w) :
    Does E (fun _ w' => K w₀ w' ∧ Copied dir n t w w')
      (copyTree (dir ++ [n]) t) w := by
  have hdst : dir ++ [n] ≠ [] := by simp
  induction t using Tree.induct generalizing dir n w with
  | leaf a =>
    have hparent : Does E (fun _ w' => K w₀ w' ∧
        (dir.head? ≠ some RUNS_DIR → w.peek dir = some none → Elsewhere (dir ++ [n]) w w'))
        (createDirAll dir) w := by
      by_cases hex : dir.head? ≠ some RUNS_DIR ∧ w.peek dir = some none
      · exact does_post (createDirAll_same hK hf hd hex.1 hne hex.2 h₀) fun _ w' h =>
          ⟨h.1, fun _ _ => h.2⟩
      · exact does_post (createDirAll_does hK hf hd h₀) fun _ w' h =>
          ⟨h.1, fun hr hdir => absurd ⟨hr, hdir⟩ hex⟩
    cases a with
    | file b =>
      simp only [copyTree, dropLast_concat]
      refine does_bind hparent fun _ w₁ h₁ => ?_
      refine does_post (installFile_does hK hf (hK.append hd [n]) h₁.1) fun _ w₂ h₂ => ?_
      exact ⟨h₂.1, fun hr _ hdir _ => ⟨(h₁.2 hr hdir).trans h₂.2.1, holds_leaf hdst h₂.2.2⟩⟩
    | symlink target =>
      simp only [copyTree, dropLast_concat]
      refine does_bind hparent fun _ w₁ h₁ => ?_
      refine does_post (place_does hK hf (hK.append hd [n]) h₁.1) fun _ w₂ h₂ => ?_
      exact ⟨h₂.1, fun hr _ hdir _ => ⟨(h₁.2 hr hdir).trans h₂.2.1, holds_leaf hdst h₂.2.2⟩⟩
  | node es ih =>
    refine does_bind (createDirAll_does hK hf (hK.append hd [n]) h₀) fun _ w₁ h₁ => ?_
    obtain ⟨hk₁, hmade, hb⟩ := h₁
    refine does_post (copyEntries_does hdst (fun e he w hw =>
      ih e he (hK.append hd [n]) hdst hw (by simp)) hk₁) fun _ w₂ h₂ => ?_
    refine ⟨h₂.1, fun hr hdist hdir hnone => ?_⟩
    have hhead : ∀ q, (dir ++ [n] ++ q).head? ≠ some RUNS_DIR := fun q => by
      rwa [head?_append_of_ne_nil _ hdst, head?_append_of_ne_nil _ hne]
    have hr' : (dir ++ [n]).head? ≠ some RUNS_DIR := by simpa using hhead []
    cases hdist with
    | node hnd hes =>
    have hbelow : ∀ x q, w₁.peek (dir ++ [n] ++ x :: q) = none := by
      intro x q
      rw [hb _ (fun hp => ?_) (hhead _)]
      · exact hnone x q
      · have := hp.length_le
        simp at this
    obtain ⟨he₂, hh₂⟩ := h₂.2 hr' hnd hes (hmade hdst hr')
      (fun e _ m q => by simpa using hbelow e.1 (m :: q))
    refine ⟨fun q hq hqr => ?_, fun q => ?_⟩
    · rw [he₂ q (fun e _ hp => hq ((prefix_append _ _).trans hp)) hqr]
      by_cases hqd : q <+: dir ++ [n]
      · -- on the way to the copy there were directories before and there are after
        have hqne : q ≠ dir ++ [n] := fun he => hq (he ▸ prefix_refl _)
        have hqdir := prefix_of_prefix_concat hqd hqne
        rw [peek_ancestor (hmade hdst hr') hqd hqne hr']
        by_cases hqq : q = dir
        · rw [hqq, hdir]
        · rw [peek_ancestor hdir hqdir hqq hr]
      · exact hb q hqd hqr
    · cases q with
      | nil =>
        rw [append_nil, he₂ _ (fun e _ hp => not_prefix_of_concat _ _ hp) hr', hmade hdst hr']
        rfl
      | cons x q =>
        rw [Tree.peek_node_cons]
        cases hx : Assoc.get x es with
        | some c =>
          have := hh₂ _ (mem_of_get hx) q
          simpa using this
        | none =>
          rw [he₂ _ (fun e he hp => ?_) (hhead _), hbelow]
          · rfl
          · rw [prefix_append_right_inj] at hp
            have hex : e.1 = x := by simpa using hp
            exact get_eq_none_iff.1 hx (hex ▸ mem_map_of_mem (f := Prod.fst) he)

/-- `if shares.exists() { clone_or_copy_tree(..)? }`: at one time the source was
    not there, or at one time it was the tree that was copied. -/
theorem copyShares_does (hd : free dir) (hne : dir ≠ []) (h₀ : K w₀ w) : Does E
      (fun _ w' => K w₀ w' ∧
        ((∃ w₁, K w₀ w₁ ∧ w₁.get src = none ∧ Undisturbed w w') ∨
         (∃ w₁ t, K w₀ w₁ ∧ w₁.get src = some t ∧ Undisturbed w w₁ ∧ Copied dir n t w₁ w')))
      (copyShares src (dir ++ [n])) w := by
  refine does_bind (Q := fun r w₁ => K w₀ w₁ ∧ Undisturbed w w₁ ∧
    ∀ e, r = .error e → w₁.get src = none) (does_look fun w₁ hg => ?_) fun r w₁ h₁ => ?_
  · exact ⟨hK.trans h₀ (hK.guest hg), Undisturbed.of_guest hg, fun e he =>
      get_of_look_error he⟩
  obtain ⟨hk₁, hu₁, hnone⟩ := h₁
  split
  · refine does_bind (Q := fun t w₂ => K w₀ w₂ ∧ Undisturbed w w₂ ∧ w₂.get src = some t)
      (does_post (look_does hK hf hk₁) fun t w₂ h₂ => ⟨h₂.1,
        hu₁.trans (Undisturbed.of_guest h₂.2.1), h₂.2.2⟩) fun t w₂ h₂ => ?_
    refine does_post (copyTree_does hK hf hd hne h₂.1) fun _ w₃ h₃ => ?_
    exact ⟨h₃.1, .inr ⟨w₂, t, h₂.1, h₂.2.2, h₂.2.1, h₃.2⟩⟩
  · next e => exact does_pure ⟨hk₁, .inl ⟨w₁, hk₁, hnone e rfl, hu₁⟩⟩

/-- Nothing is different, and nothing has left stable storage. -/
structure Firmer (w w' : World) : Prop where
  same : Undisturbed w w'
  disk : ∀ q, Disk.Keeps w.disk w'.disk q

omit hf hK in
theorem Firmer.trans (h₁ : Firmer a b) (h₂ : Firmer b c) : Firmer a c :=
  ⟨h₁.same.trans h₂.same, fun q => (h₁.disk q).trans (h₂.disk q)⟩

omit hf hK in
theorem Firmer.of_guest (h : Guest still w w') : Firmer w w' := by
  refine ⟨Undisturbed.of_guest h, fun q => ?_⟩
  obtain ⟨rs, held, -, rfl⟩ := h
  exact .refl _ _

/-- A `sync_file` or `sync_dir`. -/
theorem sync_does (he : e.footprint = []) (h₀ : K w₀ w) :
    Does E (fun _ w' => K w₀ w' ∧ Firmer w w' ∧ ∃ w₁, Guest E.still w w₁ ∧ w'.disk = e.persist w₁)
      (attempt doing path (.edit e)) w := by
  have hnone (P : Path → Prop) : ∀ p ∈ e.footprint, P p := he ▸ forall_mem_nil P
  refine does_post (does_free_edit hK hf (hnone _) h₀) fun _ w' h => ⟨h.1, ?_⟩
  obtain ⟨-, w₁, hg, h⟩ := h
  refine ⟨(Firmer.of_guest hg).trans ⟨fun q _ => h.peek_eq (hnone _), fun q => h.keeps (hnone _)⟩,
    w₁, hg, ?_⟩
  cases h with
  | done h => rfl
  | shrunk _ _ _ => cases he

/-- What syncing the tree `t` at `p` achieves. -/
structure TreeSynced (p : Path) (t : Dir) (w : World) : Prop where
  entries : ∀ q n, t.peek q = some none → w.disk.old (p ++ q ++ [n]) = []
  data : ∀ q b, t.peek q = some (some (.file b)) → w.disk.data (p ++ q) = true

omit hf hK in
theorem TreeSynced.mono (h : TreeSynced p t w) (hf : Firmer w w') : TreeSynced p t w' where
  entries q n hq := (hf.disk _).synced (h.entries q n hq)
  data q b hq := (hf.disk _).data (h.data q b hq)

theorem syncDirTree_does (h₀ : K w₀ w) :
    Does E (fun _ w' => K w₀ w' ∧ Firmer w w' ∧ TreeSynced p t w') (syncDirTree p t) w := by
  induction t using Tree.induct generalizing p w with
  | leaf a =>
    cases a with
    | file b =>
      refine does_post (sync_does hK hf rfl h₀) fun _ w' h => ⟨h.1, h.2.1, ⟨?_, ?_⟩⟩
      · intro q n hq
        cases q <;> simp [Tree.peek] at hq
      · intro q b' hq
        obtain ⟨-, -, w₁, -, hd⟩ := h
        cases q with
        | nil => simp [hd]
        | cons n q => simp [Tree.peek] at hq
    | symlink target =>
      refine does_pure ⟨h₀, Firmer.of_guest (guest_refl true w), ⟨?_, ?_⟩⟩
      · intro q n hq
        cases q <;> simp [Tree.peek] at hq
      · intro q b' hq
        cases q <;> simp [Tree.peek] at hq
  | node es ih =>
    have hentries : Does E (fun _ w' => K w₀ w' ∧ Firmer w w' ∧
        ∀ e ∈ es, TreeSynced (p ++ [e.1]) e.2 w') (syncEntries p es) w := by
      induction es generalizing w with
      | nil => exact does_pure ⟨h₀, Firmer.of_guest (guest_refl true w), by simp⟩
      | cons e es ihes =>
        refine does_bind (ih e (by simp) h₀) fun _ w₁ h₁ => ?_
        refine does_post (ihes (fun x hx => ih x (mem_cons_of_mem _ hx)) h₁.1) fun _ w₂ h₂ => ?_
        refine ⟨h₂.1, h₁.2.1.trans h₂.2.1, fun x hx => ?_⟩
        rcases mem_cons.1 hx with rfl | hx
        · exact h₁.2.2.mono h₂.2.1
        · exact h₂.2.2 x hx
    refine does_bind hentries fun _ w₁ h₁ => ?_
    refine does_post (sync_does hK hf rfl h₁.1) fun _ w₂ h₂ => ?_
    obtain ⟨hk₂, hfirm, x, -, hd⟩ := h₂
    have hbelow {m q l} (hq : (Tree.node es).peek (m :: q) = some l) :
        ∃ c, c.peek q = some l ∧ TreeSynced (p ++ [m]) c w₂ := by
      rw [Tree.peek_node_cons] at hq
      obtain ⟨c, hc, hcq⟩ := Option.bind_eq_some_iff.1 hq
      exact ⟨c, hcq, (h₁.2.2 _ (Assoc.mem_of_get hc)).mono hfirm⟩
    refine ⟨hk₂, h₁.2.1.trans hfirm, ⟨fun q n hq => ?_, fun q b hq => ?_⟩⟩
    · cases q with
      | nil => simp [hd]
      | cons m q =>
        obtain ⟨c, hcq, hs⟩ := hbelow hq
        simpa using hs.entries q n hcq
    · cases q with
      | nil => simp [Tree.peek] at hq
      | cons m q =>
        obtain ⟨c, hcq, hs⟩ := hbelow hq
        simpa using hs.data q b hcq

/-- `sync_tree` changes nothing and brings all below `p` to stable storage. -/
theorem syncTree_does (h₀ : K w₀ w) : Does E (fun _ w' => K w₀ w' ∧ Undisturbed w w' ∧
      (p ≠ [] → p.head? ≠ some RUNS_DIR → Synced w' p)) (syncTree p) w := by
  refine does_bind (look_does hK hf h₀) fun t w₁ h₁ => ?_
  obtain ⟨hk₁, hg, ht⟩ := h₁
  split
  · refine does_post (syncDirTree_does hK hf hk₁) fun _ w₂ h₂ => ?_
    obtain ⟨hk₂, hfirm, hs⟩ := h₂
    refine ⟨hk₂, (Undisturbed.of_guest hg).trans hfirm.same, fun hp hr =>
      ⟨fun q n hq => ?_, fun q b hq => ?_⟩⟩
    · rw [hfirm.same _ (by rwa [head?_append_of_ne_nil _ hp]), peek_append hp ht] at hq
      exact hs.entries q n hq
    · rw [hfirm.same _ (by rwa [head?_append_of_ne_nil _ hp]), peek_append hp ht] at hq
      exact hs.data q b hq
  · exact does_throw (hK.fail hk₁ hf)

/-- `File::create`: an empty file. -/
theorem create_does (hp : free p) (h₀ : K w₀ w) : Does E (fun _ w' => K w₀ w' ∧ Elsewhere p w w')
      (attempt doing path (.edit (.create p))) w := by
  refine does_post (does_free_edit hK hf (by simpa using hp) h₀) fun _ w' h => ?_
  obtain ⟨hk, w₁, hg, he⟩ := h
  exact ⟨hk, (Elsewhere.of_guest hg p).trans (Elsewhere.of_edit he (by simp))⟩

/-- `fs::write`. -/
theorem writeFile_does {b : Bytes} (hp : free p) (h₀ : K w₀ w) : Does E
      (fun _ w' => K w₀ w' ∧ Elsewhere p w w' ∧ w'.peek p = some (some (.file b)))
      (writeFile p b) w := by
  refine does_bind (create_does hK hf hp h₀) fun _ w₁ h₁ => ?_
  refine does_post (does_free_edit hK hf (by simpa using hp) h₁.1) fun _ w₂ h₂ => ?_
  obtain ⟨hk, w₃, hg, he⟩ := h₂
  refine ⟨hk, h₁.2.trans ((Elsewhere.of_guest hg p).trans
    (Elsewhere.of_edit he (by simp))), ?_⟩
  cases he with
  | done h =>
    simp only [Edit.apply] at h
    split at h
    · simp [peek, get_put_self (overwrite_eq_ok h)]
    · cases h
    · cases h

/-- `for name in manifest.files.keys() { clone_or_copy_file(..)? }`. -/
theorem copyFiles_does {files : List (Name × ℕ)} (hd : free dir) (hne : dir ≠ []) (h₀ : K w₀ w) :
    Does E (fun _ w' => K w₀ w') (Store.copyFiles src dir files) w := by
  induction files generalizing w with
  | nil => exact does_pure h₀
  | cons e files ih =>
    exact does_bind (cloneOrCopyFile_does hK hf hd hne h₀) fun _ w₁ h₁ => ih h₁.1

end trees

end Lnx
