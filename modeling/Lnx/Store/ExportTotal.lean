import Lnx.Store.Export

/-!
# An export that nothing disturbs succeeds

Without faults, `Store::export` of a complete generation into an empty directory
returns `Ok`: every directory it needs is there when it needs it, and nothing
stands in its way.

* `Works`: `p` succeeds, whatever answers the operations give.
* `export_works`: `export` does.
-/

namespace Lnx

open Prog List World

variable {dir p : Path} {n name : Name}

/-- `p`, run alone and without faults, returns a value, with `post`. -/
def Works {α : Type} (post : α → World → Prop) (p : Io α) (w : World) : Prop :=
  Prog.Answers (FsSem false) (fun w w' => w' = w) (fun _ _ => True)
    (fun r w' => ∃ a, r = .ok a ∧ post a w') p w

/-- No fault occurs, and nothing is asked of the steps. -/
def loose : Setting where
  faults := false
  still := true
  step _ _ := True
  fail _ := True
  refl _ := trivial

/-- `w'` may come after `w`: nothing is known. -/
def Anyhow (_ _ : World) : Prop := True

theorem closed_loose : Closed loose (fun _ => True) Anyhow where
  refl _ := trivial
  trans _ _ := trivial
  guest _ := trivial
  edit _ _ := trivial
  mkdir _ _ _ _ := trivial
  append _ _ := trivial
  step _ := trivial
  fail _ _ := trivial

section rules

variable {α β : Type} {w : World} {Q post : α → World → Prop}

theorem works_pure {a : α} (h : post a w) : Works post (pure a) w :=
  ⟨a, rfl, h⟩

theorem works_bind {post : β → World → Prop} {p : Io α} {f : α → Io β} (h : Works Q p w)
    (hf : ∀ a w', Q a w' → Works post (f a) w') : Works post (p >>= f) w := by
  refine answers_bind h (fun a w' hq => ?_) fun e w' hq => ?_
  · obtain ⟨_, ⟨⟩, hq⟩ := hq
    exact hf a w' hq
  · obtain ⟨_, h, -⟩ := hq
    cases h

theorem works_post {post' : α → World → Prop} {p : Io α} (h : Works post p w)
    (hp : ∀ a w', post a w' → post' a w') : Works post' p w :=
  meets_post h fun _ _ ⟨a, ha, hq⟩ => ⟨a, ha, hp _ _ hq⟩

theorem works_tryCatch {p : Io α} {handler : StoreError → Io α} (h : Works post p w) :
    Works post (tryCatch p handler) w := by
  refine meets_bind (meets_post h ?_)
  rintro _ w' ⟨a, rfl, ha⟩
  exact ⟨a, rfl, ha⟩

/-- Without faults, a call that can be done is done. -/
theorem EditSem.eq_of_apply {e : Edit} {w' x : World} {r : Except IoError Unit}
    (h : EditSem false e w r w') (hx : e.apply w = .ok x) (he : ∀ p, e ≠ .shrink p) :
    r = .ok () ∧ w' = x.withDisk (e.persist w) := by
  cases h with
  | done h =>
    cases h.symm.trans hx
    exact ⟨rfl, rfl⟩
  | refused h => cases h.symm.trans hx
  | fault h => cases h
  | partialWrite hf h => cases hf
  | shrunk => exact absurd rfl (he _)

theorem works_attempt {doing : String} {path : Path} {e : Edit} {post : Unit → World → Prop}
    {x : World} (hx : e.apply w = .ok x) (he : ∀ p, e ≠ .shrink p)
    (h : post () (x.withDisk (e.persist w))) : Works post (attempt doing path (.edit e)) w := by
  rintro w₁ rfl r w₂ hsem
  obtain ⟨rfl, rfl⟩ := hsem.eq_of_apply hx he
  exact ⟨trivial, (), rfl, h⟩

/-- What `p` does when it returns, it does here. -/
theorem works_both {E : Setting} {p : Io α} (h : Works Q p w) (hd : Does E post p w)
    (hE : E.faults = false) : Works (fun a w' => Q a w' ∧ post a w') p w := by
  have hd' : Prog.Answers (FsSem false) (fun w w' => w' = w) E.step (Prog.Ends post E.fail) p w := by
    rw [← hE]
    refine meets_mono (fun w w' he => ?_) (fun _ _ h => h) (fun _ _ h => h) hd
    rw [he]
    exact guest_refl E.still w
  refine meets_post (meets_and h hd') ?_
  rintro _ w' ⟨⟨a, rfl, hq⟩, hp⟩
  exact ⟨a, rfl, hq, hp⟩

theorem works_and {E : Setting} {p : Io α} (h : Works (fun _ _ => True) p w) (hd : Does E post p w)
    (hE : E.faults = false) :
    Works post p w :=
  works_post (works_both h hd hE) fun _ _ h => h.2

end rules

/-! ## Making directories and files -/

section

variable {w : World}

section

variable (hp : p = [] → n ≠ RUNS_DIR) (h : w.peek p = some none)

include hp h

theorem World.look_of_absent (hn : w.peek (p ++ [n]) = none) :
    w.look (p ++ [n]) = .error .notFound := by
  rcases look_of_parent hp h with ⟨t, ht⟩ | h
  · rw [peek_eq_none, look_eq_ok.1 ht] at hn
    cases hn
  · exact h

theorem World.add_of_absent (hn : w.peek (p ++ [n]) = none) (t : Dir) :
    ∃ x, w.add (p ++ [n]) t = .ok x ∧ w.put (p ++ [n]) t = some x := by
  obtain ⟨x, hx⟩ := put_of_parent hp h t
  refine ⟨x, ?_, hx⟩
  simp only [add, look_of_absent hp h hn, hx]

theorem ensureDir_works (hleaf : ∀ a, w.peek (p ++ [n]) ≠ some (some a)) :
    Works (fun _ _ => True) (ensureDir (p ++ [n])) w := by
  cases hn : w.peek (p ++ [n]) with
  | none =>
    obtain ⟨x, hadd, -⟩ := add_of_absent hp h hn (.node [])
    rintro w₁ rfl r w₂ hsem
    obtain ⟨rfl, rfl⟩ := hsem.eq_of_apply (e := .mkdir (p ++ [n])) hadd nofun
    exact ⟨trivial, (), rfl, trivial⟩
  | some l =>
    cases l with
    | some a => exact absurd hn (hleaf a)
    | none =>
      obtain ⟨es, hes⟩ := peek_eq_node.1 hn
      have hlook := look_eq_ok.2 hes
      rintro w₁ rfl r w₂ hsem
      cases hsem with
      | done h => simp [Edit.apply, add, hlook] at h
      | fault h => cases h
      | refused h =>
        simp only [Edit.apply, add, hlook] at h
        cases h
        refine ⟨trivial, ?_⟩
        rintro w₂ rfl r w₃ ⟨rfl, rfl⟩
        refine ⟨trivial, ?_⟩
        rw [hlook]
        exact ⟨(), rfl, trivial⟩

end

theorem makeDirs_works {names : List Name} {parent : Path}
    (hr : (parent ++ names).head? ≠ some RUNS_DIR) (h : w.peek parent = some none)
    (hleaf : ∀ q, q <+: parent ++ names → ∀ a, w.peek q ≠ some (some a)) :
    Works (fun _ _ => True) (makeDirs parent names) w := by
  induction names generalizing parent w with
  | nil => exact works_pure trivial
  | cons n names ih =>
    have hassoc : parent ++ n :: names = (parent ++ [n]) ++ names := by simp
    rw [hassoc] at hr hleaf
    have hr₁ : (parent ++ [n]).head? ≠ some RUNS_DIR := by
      rwa [head?_append_of_ne_nil _ (by simp)] at hr
    refine works_bind (works_and (ensureDir_works (fun hnil hn => hr₁ (by simp [hnil, hn])) h
        (hleaf _ (prefix_append _ _)))
      (ensureDir_does closed_loose trivial trivial (prefix_refl _) (by simp)
        (closed_loose.refl w)) rfl)
      fun _ w₁ h₁ => ?_
    obtain ⟨-, hdir, hb⟩ := h₁
    refine ih hr (hdir hr₁) fun q hq a => ?_
    -- on the way to the new directory there are directories, elsewhere nothing changed
    by_cases hqp : q <+: parent ++ [n]
    · by_cases heq : q = parent ++ [n]
      · simp [heq, hdir hr₁]
      · simp [peek_ancestor (hdir hr₁) hqp heq hr₁]
    · rw [hb q hqp]
      · exact hleaf q hq a
      · have hq : q ≠ [] := fun h => hqp (h ▸ nil_prefix)
        obtain ⟨s, hs⟩ := ‹q <+: _›
        rwa [← hs, head?_append_of_ne_nil _ hq] at hr

/-- `create_dir_all` works where no file is in the way. -/
theorem createDirAll_works (hr : p.head? ≠ some RUNS_DIR) (h : w.peek [] = some none)
    (hleaf : ∀ q, q <+: p → ∀ a, w.peek q ≠ some (some a)) : Works (fun _ _ => True) (createDirAll p) w :=
  makeDirs_works hr h hleaf

/-- It works, and changes nothing, where the directory is there. -/
theorem createDirAll_again (hr : p.head? ≠ some RUNS_DIR) (hne : p ≠ []) (h : w.peek p = some none) :
    Works (fun _ w' => Undisturbed w w') (createDirAll p) w := by
  have habove : ∀ q, q <+: p → w.peek q = some none := fun q hq => by
    by_cases heq : q = p
    · rwa [heq]
    · exact peek_ancestor h hq heq hr
  refine works_post (works_and (createDirAll_works hr (habove _ nil_prefix) fun q hq a => ?_)
    (createDirAll_does closed_loose trivial trivial (closed_loose.refl w)) rfl) ?_
  · rw [habove q hq]
    simp
  · rintro _ w' ⟨-, hdir, hb⟩ q hqr
    by_cases hq : q <+: p
    · rw [habove q hq]
      by_cases heq : q = p
      · rw [heq, hdir hne hr]
      · exact peek_ancestor (hdir hne hr) hq heq hr
    · exact hb q hq hqr

theorem place_works {doing : String} {path : Path} {l : Leaf}
    (hp : dir = [] → n ≠ RUNS_DIR) (hdir : w.peek dir = some none) (hn : w.peek (dir ++ [n]) = none) :
    Works (fun _ _ => True) (attempt doing path (.edit (.place (dir ++ [n]) l))) w := by
  obtain ⟨x, hadd, -⟩ := add_of_absent hp hdir hn (.leaf l)
  exact works_attempt (e := .place (dir ++ [n]) l) hadd nofun trivial

/-- Once `unlink` has been tried, only a directory can be there. -/
theorem removeFileIfAny_works (hp : p ≠ []) (hr : p.head? ≠ some RUNS_DIR) (h : w.peek p ≠ some none) :
    Works (fun _ w' => w'.peek p = none) (removeFileIfAny p) w := by
  have hp' : p ≠ [] ∧ p ≠ [RUNS_DIR] := ⟨hp, fun h => hr (by rw [h]; rfl)⟩
  rintro w₁ rfl r w₂ hsem
  refine ⟨trivial, (), rfl, ?_⟩
  cases hsem with
  | fault h => cases h
  | done hd =>
    simp only [Edit.apply] at hd
    split at hd <;> cases hd
    rw [peek_withDisk, peek_eq_none]
    exact get_del_self hp'
  | refused hd =>
    simp only [Edit.apply] at hd
    split at hd
    · cases hd
    · next es hes => exact absurd (peek_eq_node.2 ⟨_, look_eq_ok.1 hes⟩) h
    · next e he => exact peek_eq_none.2 (get_of_look_error he)

/-- A file is installed in a directory that is there, unless a directory is in its
    place. -/
theorem installFile_works {b : Bytes}
    (hr : (dir ++ [n]).head? ≠ some RUNS_DIR) (hdir : w.peek dir = some none)
    (hn : w.peek (dir ++ [n]) ≠ some none) : Works (fun _ _ => True) (installFile (dir ++ [n]) b) w := by
  have hdr : dir.head? ≠ some RUNS_DIR := by
    cases dir with
    | nil => simp
    | cons m dir => simpa using hr
  refine works_bind (works_both (removeFileIfAny_works (by simp) hr hn)
    (removeFileIfAny_does closed_loose trivial (closed_loose.refl w)) rfl) fun _ w₁ h₁ => ?_
  obtain ⟨hnone, -, helse⟩ := h₁
  refine place_works (fun hnil hrun => hr (by simp [hnil, hrun])) ?_ hnone
  rw [helse dir (not_prefix_of_concat _ _) hdr]
  exact hdir

/-- Whether `t` can be copied to where `old` is. -/
def Fits (t : Dir) (old : Option (Option Leaf)) : Prop :=
  old = none ∨ (∃ b, t = .leaf (.file b)) ∧ old ≠ some none

theorem copyTree_works {t : Dir} (hne : dir ≠ []) (hr : dir.head? ≠ some RUNS_DIR) (ht : t.Distinct)
    (hdir : w.peek dir = some none) (hfit : Fits t (w.peek (dir ++ [n]))) :
    Works (fun _ _ => True) (copyTree (dir ++ [n]) t) w := by
  induction t using Tree.induct generalizing dir n w with
  | leaf a =>
    have hr' : (dir ++ [n]).head? ≠ some RUNS_DIR := by rwa [head?_append_of_ne_nil _ hne]
    cases a with
    | file b =>
      simp only [copyTree, dropLast_concat]
      refine works_bind (createDirAll_again hr hne hdir) fun _ w₁ h₁ => ?_
      refine installFile_works hr' ((h₁ _ hr).trans hdir) ?_
      rw [h₁ _ hr']
      rcases hfit with h | h
      · simp [h]
      · exact h.2
    | symlink target =>
      simp only [copyTree, dropLast_concat]
      refine works_bind (createDirAll_again hr hne hdir) fun _ w₁ h₁ => ?_
      refine place_works (fun h => absurd h hne) ((h₁ _ hr).trans hdir) ?_
      rw [h₁ _ hr']
      rcases hfit with h | ⟨⟨b, hb⟩, -⟩
      · exact h
      · cases hb
  | node es ih =>
    have hdst : dir ++ [n] ≠ [] := by simp
    have hhead : ∀ q, (dir ++ [n] ++ q).head? ≠ some RUNS_DIR := fun q => by
      rwa [head?_append_of_ne_nil _ hdst, head?_append_of_ne_nil _ hne]
    have hr' : (dir ++ [n]).head? ≠ some RUNS_DIR := by simpa using hhead []
    have hnone : w.peek (dir ++ [n]) = none := by
      rcases hfit with h | ⟨⟨b, hb⟩, -⟩
      · exact h
      · cases hb
    refine works_bind (works_and (createDirAll_works hr' ?_ fun q hq a => ?_)
      (createDirAll_does closed_loose trivial trivial (closed_loose.refl w)) rfl) fun _ w₁ h₁ => ?_
    · exact peek_ancestor hdir nil_prefix (Ne.symm hne) hr
    · by_cases heq : q = dir ++ [n]
      · simp [heq, hnone]
      · by_cases hqd : q = dir
        · simp [hqd, hdir]
        · simp [peek_ancestor hdir (prefix_of_prefix_concat hq heq) hqd hr]
    obtain ⟨-, hmade, hb⟩ := h₁
    cases ht with
    | node hnd hes =>
    have hbelow : ∀ x, w₁.peek (dir ++ [n] ++ [x]) = none := fun x => by
      rw [hb _ (not_prefix_of_concat _ _) (hhead _)]
      exact peek_below_none hdst hnone
    -- the entries still to come are absent
    have hentries : ∀ es' w₂, List.Sublist es' es → w₂.peek (dir ++ [n]) = some none →
        (∀ e ∈ es', ∀ q, w₂.peek (dir ++ [n] ++ [e.1] ++ q) = none) →
        Works (fun _ _ => True) (copyEntries (dir ++ [n]) es') w₂ := by
      intro es'
      induction es' with
      | nil => exact fun _ _ _ _ => works_pure trivial
      | cons e es' ihes =>
        intro w₂ hsub hd hn
        have he : e ∈ es := hsub.subset mem_cons_self
        have hnames : (Assoc.names (e :: es')).Nodup := hnd.sublist (hsub.map Prod.fst)
        refine works_bind (works_and (ih e he hdst hr' (hes e he) hd
          (.inl (by simpa using hn e mem_cons_self [])))
          (copyTree_does closed_loose trivial trivial hdst (closed_loose.refl w₂)) rfl) fun _ w₃ h₃ => ?_
        obtain ⟨helse, -⟩ := h₃.2 hr' (hes e he) hd fun m q => hn e mem_cons_self (m :: q)
        refine ihes w₃ ((sublist_cons_self _ _).trans hsub)
          (by rw [helse _ (not_prefix_of_concat _ _) hr']; exact hd) fun x hx q => ?_
        have hxe : x.1 ≠ e.1 := fun h => (nodup_cons.1 hnames).1
          (h ▸ mem_map_of_mem (f := Prod.fst) hx)
        rw [helse _ (fun hp => hxe ?_) (by rw [append_assoc]; exact hhead _)]
        · exact hn x (mem_cons_of_mem _ hx) q
        · rw [append_assoc (dir ++ [n]), prefix_append_right_inj] at hp
          simpa [eq_comm] using hp
    exact hentries es w₁ (List.Sublist.refl _) (hmade hdst hr') fun e _ q =>
      peek_below_none (by simp) (hbelow e.1)

/-! ## Syncing and committing -/

theorem syncDirTree_works {t : Dir} (hne : p ≠ []) (hr : p.head? ≠ some RUNS_DIR) (ht : t.Distinct)
    (h : Holds w p t) :
    Works (fun _ _ => True) (syncDirTree p t) w := by
  induction t using Tree.induct generalizing p w with
  | leaf a =>
    have hget : w.get p = some (.leaf a) := peek_eq_leaf.1
      (by simpa [Tree.peek] using h [])
    cases a with
    | symlink target => exact works_pure trivial
    | file b =>
      refine works_attempt (e := .syncFile p) (x := w) ?_ (by simp) trivial
      simp [Edit.apply, look_eq_ok.2 hget]
  | node es ih =>
    cases ht with
    | node hnd hes =>
    have hentries : ∀ es' w₁, (∀ e ∈ es', e ∈ es) → Undisturbed w w₁ →
        Works (fun _ w' => Undisturbed w w') (syncEntries p es') w₁ := by
      intro es'
      induction es' with
      | nil => exact fun w₁ _ hu => works_pure hu
      | cons e es' ihes =>
        intro w₁ hsub hu
        have he := hsub e mem_cons_self
        have hr' : ∀ q, (p ++ [e.1] ++ q).head? ≠ some RUNS_DIR := fun q => by
          rwa [append_assoc, head?_append_of_ne_nil _ hne]
        refine works_bind (works_and (ih e he (by simp) (by simpa using hr' []) (hes e he) fun q => ?_)
          (syncDirTree_does closed_loose trivial (closed_loose.refl w₁)) rfl) fun _ w₂ h₂ => ?_
        · rw [hu _ (hr' q), append_assoc, h ([e.1] ++ q)]
          simp [Tree.peek_node_cons, Assoc.get_of_mem hnd he]
        · exact ihes w₂ (fun x hx => hsub x (mem_cons_of_mem _ hx)) (hu.trans h₂.2.1.same)
    refine works_bind (hentries es w (fun _ h => h) (Undisturbed.refl w)) fun _ w₁ hu => ?_
    obtain ⟨es', hes'⟩ := peek_eq_node.1
      ((hu p hr).trans (by simpa [Tree.peek] using h []))
    refine works_attempt (e := .syncDir p) (x := w₁) ?_ (by simp) trivial
    simp [Edit.apply, look_eq_ok.2 hes']

theorem syncTree_works (hne : p ≠ []) (hr : p.head? ≠ some RUNS_DIR) (hw : w.Wf)
    (h : w.peek p = some none) : Works (fun _ _ => True) (syncTree p) w := by
  obtain ⟨es, hes⟩ := peek_eq_node.1 h
  refine works_bind (Q := fun u w' => w' = w ∧ u = .node es) ?_ ?_
  · rintro w₁ rfl r w₂ ⟨rfl, rfl⟩
    rw [look_eq_ok.2 hes]
    exact ⟨trivial, _, rfl, rfl, rfl⟩
  · rintro _ _ ⟨rfl, rfl⟩
    exact syncDirTree_works hne hr (get_distinct hw.distinct hes)
      fun q => peek_append hne hes q

/-- While the contents `b` of a new file `name` are in `temp`. -/
structure Pending (temp name : Name) (b : Bytes) (w : World) : Prop where
  temp : w.get [temp] = some (.leaf (.file b))
  root : w.peek [] = some none
  name : w.peek [name] = none

theorem writeTemp_works {temp : Name} {contents : Bytes} (hr : temp ≠ RUNS_DIR)
    (hne : temp ≠ name) (hroot : w.peek [] = some none) (hname : w.peek [name] = none)
    (htemp : w.peek [temp] = none) :
    Works (fun _ w' => Pending temp name contents w') (writeTemp [temp] contents) w := by
  have hpending : ∀ {b : Bytes} {w x : World}, w.peek [] = some none → w.peek [name] = none →
      w.put [temp] (.leaf (.file b)) = some x → ∀ d, Pending temp name b (x.withDisk d) := by
    intro b w x hroot hname hx d
    refine ⟨(get_withDisk _ _ _).trans (get_put_self hx), ?_, ?_⟩
    · exact (peek_put hx (by simp)).trans hroot
    · exact (peek_put hx (by simpa using hne)).trans hname
  refine works_bind (Q := fun _ w' => Pending temp name [] w') ?_ fun _ w₁ h₁ => ?_
  · obtain ⟨x, hadd, hput⟩ := add_of_absent (p := []) (fun _ => hr) hroot htemp
      (.leaf (.file []))
    exact works_attempt (e := .createNew [temp]) hadd (by simp) (hpending hroot hname hput _)
  refine works_bind (Q := fun _ w' => Pending temp name contents w') ?_ fun _ w₂ h₂ => ?_
  · obtain ⟨x, hx⟩ := put_of_parent (p := []) (n := temp) (fun _ => hr) h₁.root
      (.leaf (.file contents))
    rw [nil_append] at hx
    refine works_attempt (e := .write [temp] contents) (x := x) ?_ (by simp)
      (hpending h₁.root h₁.name hx _)
    simp only [Edit.apply, look_eq_ok.2 h₁.temp, overwrite, hx]
  · refine works_attempt (e := .syncFile [temp]) (x := w₂) ?_ (by simp) ⟨h₂.temp, h₂.root, h₂.name⟩
    simp only [Edit.apply, look_eq_ok.2 h₂.temp]

/-- `commit_file` of a new file works. -/
theorem commitFile_works {contents : Bytes} (hr : name ≠ RUNS_DIR)
    (hroot : w.peek [] = some none) (hname : w.peek [name] = none)
    (htemp : ∀ id, name ++ ".tmp-" ++ id ≠ RUNS_DIR ∧ name ++ ".tmp-" ++ id ≠ name ∧
      w.peek [name ++ ".tmp-" ++ id] = none) : Works (fun _ _ => True) (commitFile [] name contents) w := by
  refine works_bind (Q := fun _ w' => w = w') ?_ ?_
  · rintro w₁ rfl id w₂ ⟨-, rfl⟩
    exact ⟨trivial, id, rfl, rfl⟩
  rintro id _ rfl
  obtain ⟨hrun, hne, hnone⟩ := htemp id
  generalize name ++ ".tmp-" ++ id = temp at *
  refine works_tryCatch (works_bind (writeTemp_works hrun hne hroot hname hnone) fun _ w₁ h₁ => ?_)
  refine works_bind (Q := fun _ w' => w'.peek [] = some none) ?_ fun _ w₂ h₂ => ?_
  · -- the target is absent, so `rename` moves the temporary file there
    have hdel : (w₁.del [temp]).peek [] = some none := (peek_del (by simp)).trans h₁.root
    obtain ⟨x, hx⟩ := put_of_parent (p := []) (n := name) (fun _ => hr) hdel
      (.leaf (.file contents))
    have hlook := look_of_absent (p := []) (fun _ => hr) h₁.root h₁.name
    rw [nil_append] at hx hlook
    refine works_attempt (e := .rename [temp] [name])
      (x := { x with moved := ([name], .leaf (.file contents)) :: w₁.moved }) ?_ (by simp) ?_
    · simp only [Edit.apply, look_eq_ok.2 h₁.temp, hlook, move, hx]
    · exact (peek_put hx (by simp)).trans hdel
  · obtain ⟨es, hes⟩ := peek_eq_node.1 h₂
    refine works_attempt (e := .syncDir []) (x := w₂) ?_ (by simp) trivial
    simp only [Edit.apply, look_eq_ok.2 hes]

/-! ## The export -/

variable {t : Dir} {id : GenerationId} {S : Store} {G : Generation}

/-- Reading what is there. -/
theorem stat_works {u : Dir} (h : t.get p = some u) :
    Works (fun u' w' => u = u' ∧ w = w') ((fixed t).stat p) w := by
  show Works _ (pure (resolve t p) >>= _) w
  rw [resolve_eq_ok.2 h]
  exact ⟨u, rfl, rfl, rfl⟩

theorem exportFile_works {b : Bytes} (hdir : w.peek (generationDir id) = some none)
    (hname : w.peek (generationDir id ++ [name]) ≠ some none)
    (hb : t.get [name] = some (.leaf (.file b))) :
    Works (fun _ _ => True) ((fixed t).exportFile (generationDir id) name) w := by
  have hne := generationDir_ne_nil id
  have hr := generationDir_head id
  have hr' : (generationDir id ++ [name]).head? ≠ some RUNS_DIR := by
    rwa [head?_append_of_ne_nil _ hne]
  refine works_bind (createDirAll_again hr hne hdir) fun _ w₁ h₁ => ?_
  refine works_bind (stat_works hb) ?_
  rintro _ _ ⟨rfl, rfl⟩
  refine installFile_works hr' ((h₁ _ hr).trans hdir) ?_
  rwa [h₁ _ hr']

/-- While files are copied, no directory stands among them. -/
theorem exportFiles_works {left : List Name} (hdir : w.peek (generationDir id) = some none)
    (hflat : ∀ name, w.peek (generationDir id ++ [name]) ≠ some none)
    (hfiles : ∀ name ∈ left, ∃ b, t.get [name] = some (.leaf (.file b))) :
    Works (fun _ _ => True) ((fixed t).exportFiles (generationDir id) left) w := by
  have hne := generationDir_ne_nil id
  have hr := generationDir_head id
  induction left generalizing w with
  | nil => exact works_pure trivial
  | cons name left ih =>
    obtain ⟨b, hb⟩ := hfiles name mem_cons_self
    refine works_bind (works_and (exportFile_works hdir (hflat name) hb)
      (exportFile_does hdir ((Quiet.refl w).sameBut id)) rfl) ?_
    rintro _ w₁ ⟨-, helse, hentry, -⟩
    refine ih ?_ (fun x => ?_) fun x hx => hfiles x (mem_cons_of_mem _ hx)
    · rwa [helse _ (not_prefix_of_concat _ _) hr]
    · by_cases hx : x = name
      · rw [hx, hentry [], Tree.peek, hb]
        simp
      · rw [helse.peek_entry hx hne hr]
        exact hflat x

theorem exportShares_works {names : List Name} (hd : t.Distinct) (hfill : Filling t id names [] w) :
    Works (fun _ _ => True) ((fixed t).exportShares (generationDir id)) w := by
  show Works _ (pure (resolve t [HOST_SHARE_STATE]) >>= _) w
  cases hres : resolve t [HOST_SHARE_STATE] with
  | error e => exact works_pure trivial
  | ok u =>
    have hu := resolve_eq_ok.1 hres
    show Works _ ((fixed t).stat [HOST_SHARE_STATE] >>= _) w
    refine works_bind (stat_works hu) ?_
    rintro _ _ ⟨rfl, rfl⟩
    rw [exportTree_fixed hd hu]
    refine copyTree_works (generationDir_ne_nil id) (generationDir_head id) (hd.get hu) hfill.dir ?_
    by_cases hin : HOST_SHARE_STATE ∈ names
    · -- a file of that name has been copied already
      obtain ⟨hentry, b, hb⟩ := hfill.done _ hin (by simp)
      cases hu.symm.trans hb
      refine .inr ⟨⟨b, rfl⟩, ?_⟩
      rw [hentry [], Tree.peek, hb]
      simp
    · exact .inl (hfill.blank _ hin [])

/-- Without faults, `export` of a complete generation that has a pin into an empty
    directory succeeds. -/
theorem export_works (hG : S.checkGeneration id (.ok t) = .ok G)
    (hpin : ∃ b, t.get [PIN] = some (.leaf (.file b))) (hd : t.Distinct) (h₀ : w.Empty) :
    Works (fun _ _ => True) ((fixed t).export S G) w := by
  obtain ⟨_, b, m, ⟨⟩, hm, -, hid, hfiles, -, rfl⟩ := Store.checkGeneration_eq_ok.1 hG
  set id := m.id
  set names := m.files.map Prod.fst ++ [MANIFEST, PIN]
  have hK := closed_sameBut id false
  have hne := generationDir_ne_nil id
  have hr := generationDir_head id
  have habsent : ∀ q, q ≠ [] → q.head? ≠ some RUNS_DIR → w.peek q = none := by
    intro q hq hqr
    cases q with
    | nil => exact absurd rfl hq
    | cons n q => exact peek_eq_none.2 (h₀.get (by simpa using hqr) _)
  have hroot : w.peek [] = some none := by simp [World.peek, World.get, h₀.top]
  have hfile : ∀ name ∈ names, ∃ b, t.get [name] = some (.leaf (.file b)) := by
    intro name hname
    rcases mem_append.1 hname with hname | hname
    · obtain ⟨e, he, rfl⟩ := mem_map.1 hname
      obtain ⟨b, hb, -⟩ := hfiles e he
      exact ⟨b, hb⟩
    · simp only [mem_cons, not_mem_nil, or_false] at hname
      rcases hname with rfl | rfl
      · exact ⟨b, hm⟩
      · exact hpin
  -- the directory, its files and its host-share state
  refine works_bind (works_and (createDirAll_works hr hroot fun q hq a => ?_)
    (createDirAll_does hK trivial (prefix_refl _) (hK.refl w)) rfl) fun _ w₁ h₁ => ?_
  · by_cases hnil : q = []
    · simp [hnil, hroot]
    · obtain ⟨s, hs⟩ := hq
      rw [habsent q hnil (by rwa [← hs, head?_append_of_ne_nil _ hnil] at hr)]
      simp
  obtain ⟨hk₁, hdir₁, hb₁⟩ := h₁
  have hblank := fun name => blank_of_made h₀ hb₁ name
  have hfill₁ : Filling t id names names w₁ := ⟨hdir₁ hne hr, fun name hn hnot => absurd hn hnot,
    fun name _ => hblank name⟩
  refine works_bind (works_and (exportFiles_works hfill₁.dir (fun name => by simp [hblank name []])
    hfile) (exportFiles_does (fun _ h => h) hfill₁ hk₁) rfl) fun _ w₂ h₂ => ?_
  obtain ⟨hk₂, hfill₂, helse₂⟩ := h₂
  refine works_bind (works_and (exportShares_works hd hfill₂) (exportShares_does hd hfill₂ hk₂) rfl)
    fun _ w₃ h₃ => ?_
  obtain ⟨hk₃, hcopy₃, helse₃⟩ := h₃
  -- the syncs
  refine works_bind (works_and (syncTree_works hne hr (hk₃.wf h₀.wf) hcopy₃.dir)
    (syncTree_does hK trivial hk₃) rfl) fun _ w₄ h₄ => ?_
  obtain ⟨hk₄, hsame₄, -⟩ := h₄
  have hdir₄ := (hsame₄ _ hr).trans hcopy₃.dir
  have hgens : w₄.peek [GENERATIONS_DIR] = some none :=
    peek_ancestor hdir₄ (by simp [generationDir]) (by simp [generationDir]) hr
  obtain ⟨es, hes⟩ := peek_eq_node.1 hgens
  refine works_bind (Q := fun _ w₅ => ∀ q, w₅.peek q = w₄.peek q)
    (works_attempt (e := .syncDir [GENERATIONS_DIR]) (x := w₄)
      (by simp only [Edit.apply, look_eq_ok.2 hes]) (by simp) fun q => peek_withDisk _ _ _)
    fun _ w₅ h₅ => ?_
  -- the record: its directory is there, and neither it nor a temporary file is
  have hother : ∀ n, n ≠ GENERATIONS_DIR → n ≠ RUNS_DIR → w₅.peek [n] = none := by
    intro n hn hnr
    have hnr' : [n].head? ≠ some RUNS_DIR := by simpa using hnr
    have hnot : ¬ generationDir id <+: [n] := fun h => by
      have := h.length_le
      simp [generationDir] at this
    rw [h₅, hsame₄ _ hnr', helse₃ _ hnot hnr', helse₂ _ hnot hnr',
      hb₁ _ (by simpa [generationDir] using hn) hnr']
    exact habsent _ (by simp) hnr'
  refine commitFile_works (by decide) ?_ (hother _ (by decide) (by decide)) fun tmp => ?_
  · rw [h₅]
    exact peek_ancestor hdir₄ nil_prefix (Ne.symm hne) hr
  · have ht := inert_temp tmp
    have hruns : STATE_FILE ++ ".tmp-" ++ tmp ≠ RUNS_DIR := by simpa using ht.runs
    refine ⟨hruns, fun h => ht.state.1 (by rw [h]), hother _ (fun h => (ht.gens id).1 ?_) hruns⟩
    rw [h]
    exact ⟨[id.asStr], rfl⟩

end

end Lnx
