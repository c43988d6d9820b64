import Lnx.Store.Publish

/-!
# Exporting a generation into a new instance

`Store::export` (`store.rs` lines 679–708) reads a pinned generation file by file
and builds a new instance directory from it. The two sides are different
directories: the source belongs to an instance others work on, the target is
new and private to the caller.

* `Via.export`: the function, over any way to read the source and to work on the
  target; `stepwise` is the one the program uses, `fixed` reads a tree that does
  not change.
* `export_actsAs`: as long as the source stays in place, both are the same.
* `export_answers`: what it does to the new directory.
-/

namespace Lnx

open List Prog

/-! ## The function -/

/-- How `export` reads the generation's directory and works on the new one. -/
structure Via (m : Type → Type 1) where
  read : Path → m (Except IoError Dir)
  dest : ∀ {α : Type}, Io α → m α

namespace Via

variable {m : Type → Type 1} [Monad m] [MonadExceptOf StoreError m] (v : Via m)

/-- Read what must be there. -/
def stat (p : Path) : m Dir := do
  match ← v.read p with
  | .ok t => pure t
  | .error e => throw (.io "stat" p e)

/-- `clone_or_copy_file(&generation.dir.join(name), &dest_dir.join(name))`. -/
def exportFile (dir : Path) (name : Name) : m Unit := do
  v.dest (createDirAll dir)
  match ← v.stat [name] with
  | .leaf (.file bytes) => v.dest (installFile (dir ++ [name]) bytes)
  | _ => throw (.unsupported [name])

/-- The loop over the manifest's files, the manifest and the pin. -/
def exportFiles (dir : Path) : List Name → m Unit
  | [] => pure ()
  | name :: names => do
    v.exportFile dir name
    exportFiles dir names

mutual

/-- `clone_or_copy_tree` of what was listed at `src`, each file read when its turn
    comes. -/
def exportTree (src dst : Path) : Dir → m Unit
  | .node es => do
    v.dest (createDirAll dst)
    exportEntries src dst es
  | .leaf _ => do
    v.dest (createDirAll dst.dropLast)
    match ← v.stat src with
    | .leaf (.file bytes) => v.dest (installFile dst bytes)
    | .leaf (.symlink target) =>
      v.dest (attempt "symlink" dst (.edit (.place dst (.symlink target))))
    | .node _ => throw (.unsupported src)

/-- Its loop over the entries of a directory. -/
def exportEntries (src dst : Path) : List (Name × Dir) → m Unit
  | [] => pure ()
  | (n, t) :: es => do
    exportTree (src ++ [n]) (dst ++ [n]) t
    exportEntries src dst es

end

/-- `if shares.exists() { clone_or_copy_tree(..)? }`. -/
def exportShares (dir : Path) : m Unit := do
  match ← v.read [HOST_SHARE_STATE] with
  | .ok _ =>
    let t ← v.stat [HOST_SHARE_STATE]
    v.exportTree [HOST_SHARE_STATE] (dir ++ [HOST_SHARE_STATE]) t
  | .error _ => pure ()

/-- `Store::export`, into a directory that is not there yet. -/
def «export» (S : Store) (G : Generation) : m Unit := do
  let dir := generationDir G.manifest.id
  v.dest (createDirAll dir)
  v.exportFiles dir (G.manifest.files.map Prod.fst ++ [MANIFEST, PIN])
  v.exportShares dir
  v.dest do
    syncTree dir
    attempt "sync" [GENERATIONS_DIR] (.edit (.syncDir [GENERATIONS_DIR]))
    S.commitRecord (some G.manifest.id) .stopped

end Via

/-- Reading below the directory of a generation. -/
inductive SourceOp : Type → Type
  | look (p : Path) : SourceOp (Except IoError Dir)

/-- The operations of `export`. -/
inductive CopyOp (β : Type) : Type
  | source (o : SourceOp β)
  | dest (o : FsOp β)

abbrev Copy (α : Type) := ExceptT StoreError (Prog CopyOp) α

/-- Read below what stands at the generation's directory, if anything. -/
def lookBelow : Option Dir → Path → Except IoError Dir
  | none, _ => .error .notFound
  | some t, p => resolve t p

/-- What the operations do to what stands at the generation's directory and to the
    new instance directory. -/
def CopySem (faults : Bool) : Sem CopyOp (Option Dir × World)
  | _, .source (.look p), s, r, s' => r = lookBelow s.1 p ∧ s' = s
  | _, .dest o, s, r, s' => s'.1 = s.1 ∧ FsSem faults _ o s.2 r s'.2

/-- Every read of the source is a step of its own. -/
def stepwise : Via Copy where
  read p := ExceptT.mk (.op (.source (.look p)) fun r => .ret (.ok r))
  dest q := ExceptT.mk (lift (fun _ => .dest) q)

/-- The source is the tree `t`. -/
def fixed (t : Dir) : Via Io where
  read p := pure (resolve t p)
  dest q := q

/-! ## While the source stays in place -/

/-- While the generation's directory stays `t`, what `q` does to the new instance
    directory `p` does. -/
def ActsAs {α : Type} (t : Dir) (p : Copy α) (q : Io α) : Prop :=
  ∀ {faults : Bool} {R : World → World → Prop} {post : Except StoreError α → World → Prop}
    {w : World}, (∀ w, R w w) →
    Prog.Answers (FsSem faults) (fun w w' => w' = w) R post q w →
    Prog.Answers (CopySem faults) (fun s s' => s' = s) (fun s s' => s'.1 = s.1 ∧ R s.2 s'.2)
      (fun r s => s.1 = some t ∧ post r s.2) p (some t, w)

section

variable {t : Dir} {α β : Type}

theorem actsAs_pure (a : α) : ActsAs t (pure a) (pure a) := fun _ h => ⟨rfl, h⟩

theorem actsAs_throw (e : StoreError) : ActsAs (α := α) t (throw e) (throw e) := fun _ h => ⟨rfl, h⟩

theorem actsAs_bind {p : Copy α} {q : Io α} {f : α → Copy β} {g : α → Io β} (h : ActsAs t p q)
    (hf : ∀ a, ActsAs t (f a) (g a)) : ActsAs t (p >>= f) (q >>= g) := by
  intro faults guar post w hrefl hq
  refine meets_bind (meets_post (h hrefl (meets_of_bind hq)) ?_)
  rintro r ⟨source, w'⟩ ⟨rfl, hr⟩
  cases r with
  | ok a => exact hf a hrefl hr
  | error e => exact ⟨rfl, hr⟩

theorem actsAs_dest (q : Io α) : ActsAs t (stepwise.dest q) q := by
  intro faults guar post w hrefl hq
  have hlift : ∀ (q : Prog FsOp (Except StoreError α)) w,
      q.Meets (FsSem faults) (fun w w' => w' = w) guar post w →
      (lift (fun _ => CopyOp.dest) q).Meets (CopySem faults) (fun s s' => s' = s)
        (fun s s' => s'.1 = s.1 ∧ guar s.2 s'.2) (fun r s => s.1 = some t ∧ post r s.2) (some t, w) := by
    intro q
    induction q with
    | ret r => exact fun w h => ⟨rfl, h⟩
    | op o k ih =>
      rintro w h s₁ rfl r ⟨source, w₂⟩ ⟨rfl, hsem⟩
      obtain ⟨hg, hk⟩ := h w rfl r w₂ hsem
      exact ⟨⟨rfl, hg⟩, ih r w₂ hk⟩
  exact hlift q w hq

theorem actsAs_read (p : Path) : ActsAs t (stepwise.read p) ((fixed t).read p) := by
  intro faults guar post w hrefl hq
  rintro s₁ rfl r s₂ ⟨rfl, rfl⟩
  exact ⟨⟨rfl, hrefl w⟩, rfl, hq⟩

theorem actsAs_stat (p : Path) : ActsAs t (stepwise.stat p) ((fixed t).stat p) := by
  refine actsAs_bind (actsAs_read p) fun r => ?_
  cases r with
  | ok u => exact actsAs_pure u
  | error e => exact actsAs_throw _

theorem exportFile_actsAs (dir : Path) (name : Name) :
    ActsAs t (stepwise.exportFile dir name) ((fixed t).exportFile dir name) := by
  refine actsAs_bind (actsAs_dest _) fun _ => actsAs_bind (actsAs_stat _) fun u => ?_
  cases u with
  | node es => exact actsAs_throw _
  | leaf a =>
    cases a with
    | file b => exact actsAs_dest _
    | symlink target => exact actsAs_throw _

theorem exportFiles_actsAs (dir : Path) (names : List Name) :
    ActsAs t (stepwise.exportFiles dir names) ((fixed t).exportFiles dir names) := by
  induction names with
  | nil => exact actsAs_pure ()
  | cons name names ih => exact actsAs_bind (exportFile_actsAs dir name) fun _ => ih

theorem exportTree_actsAs (src dst : Path) (u : Dir) :
    ActsAs t (stepwise.exportTree src dst u) ((fixed t).exportTree src dst u) := by
  induction u using Tree.induct generalizing src dst with
  | leaf a =>
    refine actsAs_bind (actsAs_dest _) fun _ => actsAs_bind (actsAs_stat _) fun u => ?_
    cases u with
    | node es => exact actsAs_throw _
    | leaf a => cases a <;> exact actsAs_dest _
  | node es ih =>
    refine actsAs_bind (actsAs_dest _) fun _ => ?_
    induction es with
    | nil => exact actsAs_pure ()
    | cons e es ihes =>
      exact actsAs_bind (ih e (by simp) _ _) fun _ =>
        ihes fun x hx => ih x (mem_cons_of_mem _ hx)

theorem exportShares_actsAs (dir : Path) :
    ActsAs t (stepwise.exportShares dir) ((fixed t).exportShares dir) := by
  refine actsAs_bind (actsAs_read _) fun r => ?_
  cases r with
  | error e => exact actsAs_pure ()
  | ok u => exact actsAs_bind (actsAs_stat _) fun u => exportTree_actsAs _ _ u

/-- While the generation stays in place, `export` copies one and the same tree. -/
theorem export_actsAs (S : Store) (G : Generation) :
    ActsAs t (stepwise.export S G) ((fixed t).export S G) :=
  actsAs_bind (actsAs_dest _) fun _ => actsAs_bind (exportFiles_actsAs _ _) fun _ =>
    actsAs_bind (exportShares_actsAs _) fun _ => actsAs_dest _

/-- A tree that does not change is copied as if it had been read at once. -/
theorem exportTree_fixed {src dst : Path} {u : Dir} (hd : t.Distinct) (h : t.get src = some u) :
    (fixed t).exportTree src dst u = copyTree dst u := by
  have hstat : ∀ {src u}, t.get src = some u → (fixed t).stat src = pure u := by
    intro src u h
    show (pure (resolve t src) >>= _ : Io Dir) = _
    rw [resolve_eq_ok.2 h]
    rfl
  induction u using Tree.induct generalizing src dst with
  | leaf a =>
    rw [Via.exportTree, hstat h]
    cases a with
    | file b | symlink target => rfl
  | node es ih =>
    rw [Via.exportTree, copyTree]
    have hentries : ∀ es', (∀ e ∈ es', e ∈ es) → (fixed t).exportEntries src dst es' =
        copyEntries dst es' := by
      intro es' hsub
      induction es' with
      | nil => rfl
      | cons e es' ihes =>
        have he := hsub e mem_cons_self
        have hget : t.get (src ++ [e.1]) = some e.2 := by
          have hnode := hd.get h
          cases hnode with
          | node hnd _ =>
          rw [Tree.get_append, h]
          show (Tree.node es).get [e.1] = some e.2
          rw [Tree.get_node_cons, Assoc.get_of_mem hnd he]
          rfl
        rw [Via.exportEntries, copyEntries, ih e he hget,
          ihes fun x hx => hsub x (mem_cons_of_mem _ hx)]
    rw [hentries es fun _ h => h]
    rfl

end

/-! ## The new directory -/

/-- How `export` builds the directory of generation `id`. -/
def exportSetting (id : GenerationId) (faults : Bool) : Setting where
  faults := faults
  still := true
  step := SameBut id
  fail _ := True
  refl w := (Quiet.refl w).sameBut id

/-- Below a generation's directory there is neither the record nor another
    generation. -/
theorem apart_of_below {id : GenerationId} {p : Path} (h : generationDir id <+: p) :
    Tree.Apart p [STATE_FILE] ∧ ∀ g, g ≠ id → Tree.Apart p (generationDir g) := by
  obtain ⟨s, rfl⟩ := h
  exact ⟨(state_apart_generationDir id).symm.append_left s, fun g hg =>
    (generationDir_apart hg.symm).append_left s⟩

theorem closed_sameBut (id : GenerationId) (faults : Bool) :
    Closed (exportSetting id faults) (fun p => generationDir id <+: p) (SameBut id) where
  refl w := (Quiet.refl w).sameBut id
  trans := SameBut.trans
  guest h := (Kept.of_guest h).toQuiet.sameBut id
  edit {e w r w'} h he :=
    { state := h.get_apart fun p hp => (apart_of_below (he p hp)).1
      gens := fun g hg => h.get_apart fun p hp => (apart_of_below (he p hp)).2 g hg
      moved := fun g hg => h.moved_get fun p hp => (apart_of_below (he p hp)).2 g hg
      captured := fun c hc => by rw [h.rest.2.2.1]; exact hc
      diskState := h.keeps fun p hp => (apart_of_below (he p hp)).1.1
      diskGens := fun g hg q => h.keeps fun p hp =>
        (((apart_of_below (he p hp)).2 g hg).append_right q).1
      wf := h.wf fun p hp hpre => by
        have := ((he p hp).trans hpre).length_le
        simp [generationDir] at this }
  mkdir {p q w r w'} h hp hq _ :=
    have hap := apart_of_below hp
    { state := h.get_of_mkdir fun hs => hap.1.2 (hs.trans hq)
      gens := fun g hg => h.get_of_mkdir fun hs => (hap.2 g hg).2 (hs.trans hq)
      moved := fun g _ => by rw [h.moved_eq (by simp)]
      captured := fun c hc => by rw [h.rest.2.2.1]; exact hc
      diskState := h.keeps_of_mkdir fun he => hap.1.2 (he ▸ hq)
      diskGens := fun g hg x => h.keeps_of_mkdir fun he =>
        (hap.2 g hg).2 ((prefix_append _ x).trans (he ▸ hq))
      wf := h.wf_of_mkdir }
  append h q := h.trans (prefix_append _ q)
  step h := h
  fail _ _ := trivial

/-- The entry `name` of the new generation is the source's. -/
def Entry (t : Dir) (dir : Path) (name : Name) (w : World) : Prop :=
  ∀ q, w.peek (dir ++ name :: q) = t.peek (name :: q)

/-- The new generation has no entry `name`. -/
def Blank (dir : Path) (name : Name) (w : World) : Prop := ∀ q, w.peek (dir ++ name :: q) = none

/-- Everything but the entry `name` of `dir` is as it was. -/
theorem Elsewhere.peek_entry {dir : Path} {name other : Name} {w w' : World}
    (h : Elsewhere (dir ++ [name]) w w') (hne : other ≠ name) (hdir : dir ≠ [])
    (hr : dir.head? ≠ some RUNS_DIR) (q : Path) :
    w'.peek (dir ++ other :: q) = w.peek (dir ++ other :: q) := by
  refine h _ (fun hp => hne ?_) (by rwa [head?_append_of_ne_nil _ hdir])
  simpa [eq_comm] using hp

variable {names : List Name}

section

variable {t : Dir} {id : GenerationId} {faults : Bool} {w₀ w : World}

theorem stat_does {p : Path} {post : Dir → World → Prop}
    (h : ∀ u, t.get p = some u → post u w) :
    Does (exportSetting id faults) post ((fixed t).stat p) w := by
  show Does (exportSetting id faults) post (pure (resolve t p) >>= _) w
  cases hr : resolve t p with
  | error e => exact trivial
  | ok u => exact h u (resolve_eq_ok.1 hr)

theorem exportFile_does {name : Name} (hdir : w.peek (generationDir id) = some none)
    (h₀ : SameBut id w₀ w) :
    Does (exportSetting id faults) (fun _ w' => SameBut id w₀ w' ∧
        Elsewhere (generationDir id ++ [name]) w w' ∧ Entry t (generationDir id) name w' ∧
        ∃ b, t.get [name] = some (.leaf (.file b)))
      ((fixed t).exportFile (generationDir id) name) w := by
  have hK := closed_sameBut id faults
  have hne := generationDir_ne_nil id
  refine does_bind (Q := fun _ w₁ => SameBut id w₀ w₁ ∧ Elsewhere (generationDir id ++ [name]) w w₁)
    (createDirAll_same hK trivial (prefix_refl _) (generationDir_head id) hne hdir h₀)
    fun _ w₁ h₁ => ?_
  refine does_bind (Q := fun u w₂ => w₂ = w₁ ∧ t.get [name] = some u)
    (stat_does fun u hu => ⟨rfl, hu⟩) ?_
  rintro u w₂ ⟨rfl, hu⟩
  cases u with
  | node es => exact does_throw trivial
  | leaf a =>
    cases a with
    | symlink target => exact does_throw trivial
    | file b =>
      refine does_post (installFile_does hK trivial (prefix_append _ _) h₁.1) fun _ w₃ h₃ => ?_
      refine ⟨h₃.1, h₁.2.trans h₃.2.1, fun q => ?_, b, hu⟩
      have hnew := holds_leaf (by simp) h₃.2.2 q
      rw [append_assoc] at hnew
      rw [show generationDir id ++ name :: q = generationDir id ++ ([name] ++ q) from rfl, hnew]
      have happ : t.get (name :: q) = (t.get [name]).bind fun u => u.get q :=
        Tree.get_append t [name] q
      rw [Tree.peek, Tree.peek, happ, hu]
      rfl

/-- The generation's directory while its files are copied: those in `names` are to
    be copied, those in `left` are still to come. -/
structure Filling (t : Dir) (id : GenerationId) (names left : List Name) (w : World) : Prop where
  dir : w.peek (generationDir id) = some none
  done : ∀ name ∈ names, name ∉ left → Entry t (generationDir id) name w ∧
    ∃ b, t.get [name] = some (.leaf (.file b))
  blank : ∀ name, name ∉ names → Blank (generationDir id) name w

/-- A new directory is empty. -/
theorem blank_of_made (h₀ : w₀.Empty) (hb : Beside (generationDir id) w₀ w) (name : Name) :
    Blank (generationDir id) name w := by
  intro q
  rw [hb _ (fun hp => ?_) (by
    exact generationDir_head id)]
  · exact World.peek_eq_none.2 (h₀.get (by decide) _)
  · have hlen := hp.length_le
    simp only [generationDir, length_append, length_cons, length_nil] at hlen
    omega

theorem exportFiles_does {left : List Name} (hsub : ∀ name ∈ left, name ∈ names)
    (hfill : Filling t id names left w) (h₀ : SameBut id w₀ w) :
    Does (exportSetting id faults) (fun _ w' => SameBut id w₀ w' ∧ Filling t id names [] w' ∧
        Elsewhere (generationDir id) w w')
      ((fixed t).exportFiles (generationDir id) left) w := by
  have hne := generationDir_ne_nil id
  have hr := generationDir_head id
  induction left generalizing w with
  | nil => exact does_pure ⟨h₀, hfill, Elsewhere.refl _ w⟩
  | cons name left ih =>
    refine does_bind (exportFile_does hfill.dir h₀) fun _ w₁ h₁ => ?_
    obtain ⟨hk, helse, hentry, hb⟩ := h₁
    refine does_post (ih (fun x hx => hsub x (mem_cons_of_mem _ hx)) ⟨?_, fun x hx hnx => ?_,
      fun x hx q => ?_⟩ hk) fun _ w₂ h₂ => ⟨h₂.1, h₂.2.1,
        (helse.mono (prefix_append _ _)).trans h₂.2.2⟩
    · rw [helse _ (not_prefix_of_concat _ _) hr]
      exact hfill.dir
    · by_cases hxn : x = name
      · rw [hxn]
        exact ⟨hentry, hb⟩
      · obtain ⟨hx', hbx⟩ := hfill.done x hx (by simp [hxn, hnx])
        exact ⟨fun q => (helse.peek_entry hxn hne hr q).trans (hx' q), hbx⟩
    · have hxn : x ≠ name := fun he => hx (he ▸ hsub name mem_cons_self)
      rw [helse.peek_entry hxn hne hr]
      exact hfill.blank x hx q

/-- The new generation holds the files `names` and the host-share state of the
    source, and nothing else. -/
structure CopyOf (t : Dir) (id : GenerationId) (names : List Name) (w : World) : Prop where
  dir : w.peek (generationDir id) = some none
  entry : ∀ name, name ∈ names ∨ name = HOST_SHARE_STATE → Entry t (generationDir id) name w
  blank : ∀ name, name ∉ names → name ≠ HOST_SHARE_STATE → Blank (generationDir id) name w

theorem CopyOf.undisturbed {w' : World} (h : CopyOf t id names w) (hu : Undisturbed w w') :
    CopyOf t id names w' := by
  have hhead : ∀ q, (generationDir id ++ q).head? ≠ some RUNS_DIR := fun q => by
    exact generationDir_head id
  exact ⟨(hu _ (generationDir_head id)).trans h.dir,
    fun name hn q => (hu _ (hhead _)).trans (h.entry name hn q),
    fun name hn hne q => (hu _ (hhead _)).trans (h.blank name hn hne q)⟩

theorem exportShares_does (hd : t.Distinct) (hfill : Filling t id names [] w) (h₀ : SameBut id w₀ w) :
    Does (exportSetting id faults) (fun _ w' => SameBut id w₀ w' ∧ CopyOf t id names w' ∧
        Elsewhere (generationDir id) w w')
      ((fixed t).exportShares (generationDir id)) w := by
  have hK := closed_sameBut id faults
  have hne := generationDir_ne_nil id
  have hr := generationDir_head id
  show Does (exportSetting id faults) _ (pure (resolve t [HOST_SHARE_STATE]) >>= _) w
  cases hres : resolve t [HOST_SHARE_STATE] with
  | error e =>
    have hnone : t.get [HOST_SHARE_STATE] = none := by
      cases hg : t.get [HOST_SHARE_STATE] with
      | none => rfl
      | some u => rw [resolve_eq_ok.2 hg] at hres; cases hres
    refine ⟨h₀, ⟨hfill.dir, fun name hname q => ?_, fun name hn _ => hfill.blank name hn⟩,
      Elsewhere.refl _ w⟩
    by_cases hin : name ∈ names
    · exact (hfill.done name hin (by simp)).1 q
    · obtain rfl : name = HOST_SHARE_STATE := hname.resolve_left hin
      have happ : t.get (HOST_SHARE_STATE :: q) =
          (t.get [HOST_SHARE_STATE]).bind fun u => u.get q := Tree.get_append t [_] q
      rw [hfill.blank _ hin q, Tree.peek, happ, hnone]
      rfl
  | ok u =>
    refine does_bind (Q := fun u w₁ => w₁ = w ∧ t.get [HOST_SHARE_STATE] = some u)
      (stat_does fun u hu => ⟨rfl, hu⟩) ?_
    rintro u w₁ ⟨rfl, hu⟩
    have happ : ∀ q, t.peek (HOST_SHARE_STATE :: q) = u.peek q := fun q => by
      have hget : t.get (HOST_SHARE_STATE :: q) =
          (t.get [HOST_SHARE_STATE]).bind fun u => u.get q := Tree.get_append t [_] q
      rw [Tree.peek, hget, hu]
      rfl
    rw [exportTree_fixed hd hu]
    refine does_post (copyTree_does hK trivial (prefix_refl _) hne h₀) fun _ w₂ h₂ => ?_
    obtain ⟨helse, hholds⟩ := h₂.2 hr (hd.get hu) hfill.dir fun x q => by
      -- nothing stands below: the entry is blank, or a file copied before
      rw [append_assoc]
      by_cases hin : HOST_SHARE_STATE ∈ names
      · obtain ⟨hentry, b, hb⟩ := hfill.done _ hin (by simp)
        rw [hu] at hb
        cases hb
        rw [show generationDir id ++ ([HOST_SHARE_STATE] ++ x :: q) =
          generationDir id ++ HOST_SHARE_STATE :: x :: q from rfl, hentry (x :: q), happ]
        rfl
      · exact hfill.blank _ hin (x :: q)
    refine ⟨h₂.1, ⟨?_, fun name hname q => ?_, fun name hn hne' q => ?_⟩,
      helse.mono (prefix_append _ _)⟩
    · rw [helse _ (not_prefix_of_concat _ _) hr]
      exact hfill.dir
    · by_cases hname' : name = HOST_SHARE_STATE
      · rw [hname', happ, ← hholds q, append_assoc]
        rfl
      · rw [helse.peek_entry hname' hne hr]
        exact (hfill.done name (hname.resolve_right hname') (by simp)).1 q
    · rw [helse.peek_entry hne' hne hr]
      exact hfill.blank name hn q

end

/-! ## The commit -/

/-- What the end of `export` is held to; without faults, the generation is there for
    good before the record names it. -/
def exportRules (faults : Bool) : Rules := ⟨⟨False, faults = false, False⟩, fun _ _ => True⟩

/-- There is no record, nor may a power loss leave one. -/
structure Unborn (w : World) : Prop where
  state : w.get [STATE_FILE] = none
  old : w.disk.old [STATE_FILE] = []

/-- A step of `export`: there is no record yet and the generation is built, or it is
    complete and the record is committed. -/
def ExportStep (S : Store) (faults : Bool) (id : GenerationId) (w w' : World) : Prop :=
  (Unborn w ∧ SameBut id w w') ∨
    (Inv S (exportRules faults).toMode w ∧ StoreStep S (exportRules faults) w w')

/-- What `export` leaves when it returns. -/
structure Exported (S : Store) (faults : Bool) (t : Dir) (G : Generation) (w : World) : Prop where
  record : S.recordOf w = some ⟨RECORD_VERSION, some G.manifest.id, .stopped⟩
  copy : CopyOf t G.manifest.id (G.manifest.files.map Prod.fst ++ [MANIFEST, PIN]) w
  others : ∀ g, g ≠ G.manifest.id → w.get (generationDir g) = none
  inv : Inv S (exportRules faults).toMode w
  rest : (exportRules faults).Resting w

section

variable {S : Store} {t : Dir} {id : GenerationId} {faults : Bool} {w w' : World}

theorem Unborn.sameBut (h : Unborn w) (hs : SameBut id w w') : Unborn w' :=
  ⟨hs.state.trans h.state, hs.diskState.synced h.old⟩

/-- Building the generation, as steps of `export`. -/
theorem build_answers {α : Type} {p : Io α} {post : α → World → Prop}
    (h : Does (exportSetting id faults) post p w) (hu : Unborn w) :
    Prog.Answers (FsSem faults) (fun w w' => w' = w) (ExportStep S faults id)
      (fun r w' => Unborn w' ∧ ∀ a, r = .ok a → post a w') p w := by
  have hguest : ∀ w, Guest true w w := guest_refl true
  refine meets_mono (fun w w' he => he ▸ hguest w) (fun _ _ hg => Or.inl hg) ?_
    (meets_inv h (fun w w' hu hg => hu.sameBut ((Kept.of_guest hg).toQuiet.sameBut id))
      (fun w w' hu hs => hu.sameBut hs) hu)
  rintro r w' ⟨hend, hu'⟩
  refine ⟨hu', ?_⟩
  rintro a rfl
  exact hend

/-- The commit, as steps of `export`. -/
theorem commit_answers {α : Type} {p : Io α} {post : α → World → Prop}
    (h : Does ((exportRules faults).setting S faults true) post p w)
    (hi : Inv S (exportRules faults).toMode w) :
    Prog.Answers (FsSem faults) (fun w w' => w' = w) (ExportStep S faults id)
      (fun r w' => Inv S (exportRules faults).toMode w' ∧ ∀ a, r = .ok a → post a w') p w := by
  refine meets_mono (fun w w' he => he ▸ guest_refl true w) (fun _ _ hg => Or.inr hg) ?_
    (meets_inv h (fun w w' hi hg => hi.quiet (Kept.of_guest hg).toQuiet)
      (fun w w' hi hs => StoreStep.inv hi hs) hi)
  rintro r w' ⟨hend, hi'⟩
  refine ⟨hi', ?_⟩
  rintro a rfl
  exact hend

variable {G : Generation}

/-- A copy of a complete generation is complete. -/
theorem CopyOf.complete {t' : Dir}
    (h : CopyOf t id (G.manifest.files.map Prod.fst ++ [MANIFEST, PIN]) w)
    (hG : S.checkGeneration id (.ok t) = .ok G) (ht' : w.get (generationDir id) = some t') :
    S.checkGeneration id (.ok t') = .ok G := by
  refine Store.checkGeneration_congr hG fun name hname => ?_
  have hin : name ∈ G.manifest.files.map Prod.fst ++ [MANIFEST, PIN] := by
    rcases mem_cons.1 hname with rfl | hname
    · simp
    · exact mem_append_left _ hname
  rw [← h.entry name (.inl hin) [], World.peek_append (generationDir_ne_nil id) ht']

theorem CopyOf.congr (h : CopyOf t id names w)
    (hg : w'.get (generationDir id) = w.get (generationDir id)) : CopyOf t id names w' := by
  have hpeek : ∀ q, w'.peek (generationDir id ++ q) = w.peek (generationDir id ++ q) := fun q => by
    rw [World.peek, World.peek, World.get_append (generationDir_ne_nil id),
      World.get_append (generationDir_ne_nil id), hg]
  refine ⟨?_, fun name hn q => (hpeek _).trans (h.entry name hn q),
    fun name hn hne q => (hpeek _).trans (h.blank name hn hne q)⟩
  have := hpeek []
  exact this.trans h.dir

/-- The directory once the generation is built and synced is sound. -/
theorem Inv.of_built (faults : Bool) {w₀ : World} (h₀ : w₀.Empty)
    (hG : S.checkGeneration id (.ok t) = .ok G) (hs : SameBut id w₀ w) (hu : Unborn w)
    (hcopy : CopyOf t id (G.manifest.files.map Prod.fst ++ [MANIFEST, PIN]) w)
    (hsynced : Synced w (generationDir id)) :
    Inv S (exportRules faults).toMode w ∧ ∀ g, g ≠ id → w.get (generationDir g) = none := by
  have hothers : ∀ g, g ≠ id → w.get (generationDir g) = none := fun g hg =>
    (hs.gens g hg).trans (h₀.get (by decide) _)
  refine ⟨⟨fun u hu' => ?_, fun {g u} hg => ?_, fun _ o ho => ?_, hs.wf h₀.wf⟩, hothers⟩
  · rw [hu.state] at hu'
    cases hu'
  · by_cases hgi : g = id
    · subst hgi
      exact ⟨hg, fun h => h.elim, ⟨G, hcopy.complete hG hg⟩, hsynced, fun h => h.elim⟩
    · rw [hothers g hgi] at hg
      cases hg
  · rw [World.candidates, hu.old, mem_singleton] at ho
    rw [ho, World.binding, hu.state]
    trivial

/-- `export` of a complete generation into an empty directory: no record is there
    before the copy is complete, and when it returns the copy is the new
    instance's latest generation. -/
theorem export_answers (hG : S.checkGeneration id (.ok t) = .ok G) (hd : t.Distinct) (h₀ : w.Empty) :
    Prog.Answers (FsSem faults) (fun w w' => w' = w) (ExportStep S faults id)
      (fun r w' => r = .ok () → Exported S faults t G w') ((fixed t).export S G) w := by
  obtain rfl := Store.checkGeneration_id hG
  set id := G.manifest.id
  set names := G.manifest.files.map Prod.fst ++ [MANIFEST, PIN]
  have hK := closed_sameBut id faults
  have hne := generationDir_ne_nil id
  have hr := generationDir_head id
  have hu₀ : Unborn w := ⟨h₀.get (by decide) _, h₀.disk _⟩
  refine answers_bind (build_answers (createDirAll_does hK trivial (prefix_refl _)
    (hK.refl w)) hu₀) ?_ (fun _ _ _ => nofun)
  rintro ⟨⟩ w₁ ⟨hu₁, h₁⟩
  obtain ⟨hk₁, hdir₁, hb₁⟩ := h₁ () rfl
  have hfill₁ : Filling t id names names w₁ := ⟨hdir₁ hne hr, fun name hn hnot => absurd hn hnot,
    fun name _ => blank_of_made h₀ hb₁ name⟩
  refine answers_bind (build_answers (exportFiles_does (fun _ h => h) hfill₁ hk₁) hu₁) ?_
    (fun _ _ _ => nofun)
  rintro ⟨⟩ w₂ ⟨hu₂, h₂⟩
  obtain ⟨hk₂, hfill₂, -⟩ := h₂ () rfl
  refine answers_bind (build_answers (exportShares_does hd hfill₂ hk₂) hu₂) ?_
    (fun _ _ _ => nofun)
  rintro ⟨⟩ w₃ ⟨hu₃, h₃⟩
  obtain ⟨hk₃, hcopy₃, -⟩ := h₃ () rfl
  refine answers_bind (build_answers (syncTree_does hK trivial hk₃) hu₃) ?_
    (fun _ _ _ => nofun)
  rintro ⟨⟩ w₄ ⟨hu₄, h₄⟩
  obtain ⟨hk₄, hsame₄, hsynced₄⟩ := h₄ () rfl
  refine answers_bind (build_answers (sync_does hK trivial rfl hk₄) hu₄) ?_
    (fun _ _ _ => nofun)
  rintro ⟨⟩ w₅ ⟨hu₅, h₅⟩
  obtain ⟨hk₅, hfirm, x, -, hdisk⟩ := h₅ () rfl
  have hcopy₅ := (hcopy₃.undisturbed hsame₄).undisturbed hfirm.same
  have hsynced₅ := (hsynced₄ hne hr).mono (fun q => hfirm.same _ (by
    rwa [head?_append_of_ne_nil _ hne])) fun q => hfirm.disk _
  obtain ⟨hi₅, hothers⟩ := Inv.of_built faults h₀ hG hk₅ hu₅ hcopy₅ hsynced₅
  have hentry : w₅.disk.old (generationDir id) = [] := by
    simp [hdisk, generationDir]
  have hrest : (exportRules faults).Resting w₅ := fun _ => ⟨fun g u hg => ?_, hu₅.old⟩
  · refine meets_post (commit_answers (commitRecord_does (closed_kept _ S faults true) hrest
      (fun h => h) (fun _ h => h) (fun h => h.toQuiet) (Kept.refl true w₅) (fun _ _ => trivial) ?_)
      hi₅) ?_
    · rintro g ⟨⟩
      obtain ⟨u, hu, -⟩ := Option.map_eq_some_iff.1 hcopy₅.dir
      exact ⟨⟨u, hu⟩, fun _ => hentry⟩
    · rintro r w₆ ⟨hi₆, h₆⟩ rfl
      obtain ⟨hrec, hrest₆, hgens⟩ := h₆ () rfl
      exact ⟨hrec, hcopy₅.congr (hgens id), fun g hg => (hgens g).trans (hothers g hg), hi₆, hrest₆⟩
  · by_cases hgi : g = id
    · rw [hgi]
      exact hentry
    · rw [hothers g hgi] at hg
      cases hg

end

end Lnx
