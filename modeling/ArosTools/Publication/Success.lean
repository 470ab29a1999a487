import ArosTools.Program.Except
import ArosTools.Publication.Atomicity
import ArosTools.Publication.Outcome

/-!
# What a successful commit has done

The successful runs of `commit`, without any assumption on the names of the targets.  Names that
clash are refused, by a primitive that does not replace or by the check of a snapshot, so that the
commit does not answer `Ok`.  The one exception is a target with the name of the journal stage:
the last journal write removes it again.

A `Task` is a change in the course of a commit.  `Staging` collects what is known once all files
are staged, `Progress` what holds after some tasks have been applied, `Cleaning` what holds while
the auxiliary files are removed; `commit_yields` puts them together.
-/

namespace ArosTools

open Sys

/-- A change in the course of a commit: its number, the identity of the directory of its target,
and the identity of its staged file once there is one. -/
structure Task where
  change : PlannedChange
  index : ℕ
  parentIdentity : FileIdentity
  inst : Option FileIdentity

namespace Task

/-- The target. -/
def target (e : Task) : Path := e.change.target

/-- The contents to be staged. -/
def contents (e : Task) : Option Bytes :=
  match e.change.desired with
  | .write contents _ => some contents
  | .remove => none

section

variable (ext : Externals) (nonce : ℕ) (e : Task)

/-- The stage file. -/
def stage : Path := e.change.stage ext.sha256Bytes nonce e.index

/-- The backup file. -/
def backup : Path := e.change.backup ext.sha256Bytes nonce e.index

/-- The journalled operation. -/
def operation : JournalOperation where
  target := e.change.path
  stage := match e.change.desired with
    | .write _ _ => some (.ofPath (e.stage ext nonce))
    | .remove => none
  backup := e.change.original.map fun _ => .ofPath (e.backup ext nonce)
  parentIdentity := e.parentIdentity
  original := e.change.original
  originalDigest := e.change.originalDigest
  originalMode := e.change.originalMode
  desiredDigest := match e.change.desired with
    | .write contents _ => some (ext.sha256Bytes contents)
    | .remove => none
  desiredMode := match e.change.desired with
    | .write _ mode => some mode
    | .remove => none
  installed := e.inst

end

end Task

section

variable {ext : Externals} {nonce : ℕ} {fs : Fs}

/-! ### Building the operations -/

/-- A directory above a target. -/
def AboveTarget (changes : List PlannedChange) (q : Path) : Prop :=
  ∃ c ∈ changes, q <+: c.target.dropLast

theorem buildOperation_yields {all : List PlannedChange} {c : PlannedChange} {index : ℕ}
    (hc : c ∈ all) (hpath : c.path = .ofPath c.target) :
    Yields (fun r s => ∃ e : Task, r = (e.operation ext nonce, e.contents) ∧ e.change = c ∧
        e.inst = none ∧ s.Dirs c.target.dropLast ∧ Grown (AboveTarget all) fs s)
      (buildOperation ext nonce index c) fs := by
  have hD : ∀ names : Path, names ≠ [] → names.map .normal <+:
      ((PathBuf.ofPath fs.cwd).joinPath c.path).components.dropLast → AboveTarget all names := by
    intro names _ hp
    have hcomp : ((PathBuf.ofPath fs.cwd).joinPath c.path).components = c.target.map .normal := by
      rw [hpath]
      simp [PathBuf.joinPath, PathBuf.ofPath]
    rw [hcomp, ← List.map_dropLast] at hp
    exact ⟨c, hc, (List.prefix_map_iff_of_injective fun _ _ h => Component.normal.inj h).1 hp⟩
  have hopen : Yields (fun h s => Grown (AboveTarget all) fs s ∧ Opened s c.path h)
      (openParent c.path true) fs :=
    openParent_create_safe hD (fun s _ => ⟨quietOk_true s, fun _ => trivial⟩)
      (fun _ _ hg ho _ ha => Except.ok.inj ha ▸ ⟨hg, ho⟩) fun _ _ _ _ h => by cases h
  refine .bind hopen ?_
  rintro h s ⟨hg, ho⟩
  rw [hpath] at ho
  have hdir := ho.dir_eq
  have hleaf : c.leaf = h.leaf := by
    rw [PlannedChange.leaf, ← ho.file_eq, ParentHandle.file, List.getLast?_concat, Option.getD_some]
  refine IoSafe.bind (fstat_safe (quietOk_true s) ?_ fun _ _ h => by cases h)
  have hds : s.Dirs c.target.dropLast := hdir ▸ ho.dirs
  have haux : ∀ purpose, h.dir ++ [siblingName ext.sha256Bytes h.leaf purpose
      (addU64 nonce index)] = c.auxiliary ext.sha256Bytes nonce index purpose := by
    intro purpose
    rw [PlannedChange.auxiliary, hdir, hleaf]
  rw [haux, haux]
  let e : Task := ⟨c, index, h.fd, none⟩
  cases hd : c.desired with
  | write contents mode =>
    refine Yields.pure ⟨e, ?_, rfl, rfl, hds, hg⟩
    simp only [Task.operation, Task.contents, e, hd]
    rfl
  | remove =>
    refine Yields.pure ⟨e, ?_, rfl, rfl, hds, hg⟩
    simp only [Task.operation, Task.contents, e, hd]
    rfl

theorem buildOperations_yields {all changes : List PlannedChange} {index : ℕ}
    (hsub : ∀ c ∈ changes, c ∈ all) (hpath : ∀ c ∈ changes, c.path = .ofPath c.target) :
    Yields (fun r s => ∃ es : List Task, r = es.map (fun e => (e.operation ext nonce, e.contents)) ∧
        es.map Task.change = changes ∧ (∀ e ∈ es, e.inst = none ∧ s.Dirs e.target.dropLast) ∧
        Grown (AboveTarget all) fs s)
      (buildOperations ext nonce index changes) fs := by
  induction changes generalizing index fs with
  | nil => exact .pure ⟨[], rfl, rfl, (fun _ h => by cases h), .refl _ _⟩
  | cons c changes ih =>
    obtain ⟨hc, hrest⟩ := List.forall_mem_cons.1 hsub
    obtain ⟨hp, hpaths⟩ := List.forall_mem_cons.1 hpath
    refine .bind (buildOperation_yields hc hp) ?_
    rintro r s ⟨e, rfl, rfl, hinst, hdirs, hg⟩
    refine .bind (ih hrest hpaths) ?_
    rintro r s' ⟨es, rfl, rfl, hes, hg'⟩
    refine .pure ⟨e :: es, rfl, rfl, ?_, hg.trans hg'⟩
    exact List.forall_mem_cons.2 ⟨⟨hinst, hg'.dirs hdirs⟩, hes⟩

/-! ### Staging the files -/

/-- The task before its file is staged. -/
def Task.unstaged (e : Task) : Task := { e with inst := none }

/-- The staged file of a task was created at a free name, under an identity not in use, and is
complete; a removal has none. -/
def Task.StagedAt (ext : Externals) (nonce : ℕ) (fs : Fs) (e : Task) (s : Fs) : Prop :=
  match e.change.desired with
  | .write contents mode => ∃ i, e.inst = some i ∧ fs.get (e.stage ext nonce) = none ∧
      fs.Unused i ∧ s.get (e.stage ext nonce) = some (.file ⟨i, contents, mode⟩)
  | .remove => e.inst = none

/-- The two tasks have not staged files with the same identity. -/
def Task.Distinct (e e' : Task) : Prop := ∀ i, e.inst = some i → e'.inst ≠ some i

/-- The stage names of the writes. -/
def stageNames (ext : Externals) (nonce : ℕ) (es : List Task) : List Path :=
  (es.filter fun e => e.contents.isSome).map (Task.stage ext nonce)

theorem mem_stageNames {es : List Task} {q : Path} :
    q ∈ stageNames ext nonce es ↔ ∃ e ∈ es, e.contents.isSome = true ∧ e.stage ext nonce = q := by
  simp [stageNames, and_assoc]

theorem Task.located_stage {e : Task} {s : Fs} (h : s.Dirs e.target.dropLast) :
    Located s (e.stage ext nonce) := located_snoc h _

theorem Task.located_backup {e : Task} {s : Fs} (h : s.Dirs e.target.dropLast) :
    Located s (e.backup ext nonce) := located_snoc h _

theorem Task.StagedAt.stage_free {e : Task} {s : Fs} (h : e.StagedAt ext nonce fs s)
    (hw : e.contents.isSome = true) : fs.get (e.stage ext nonce) = none := by
  unfold Task.StagedAt Task.contents at *
  cases hd : e.change.desired with
  | remove => rw [hd] at hw; cases hw
  | write contents mode =>
    rw [hd] at h
    exact h.choose_spec.2.1

theorem Task.StagedAt.unused {e : Task} {s : Fs} {i : FileIdentity}
    (h : e.StagedAt ext nonce fs s) (hi : e.inst = some i) : fs.Unused i := by
  unfold Task.StagedAt at h
  cases hd : e.change.desired with
  | remove => rw [hd] at h; rw [h] at hi; cases hi
  | write contents mode =>
    rw [hd] at h
    obtain ⟨j, hj, -, hun, -⟩ := h
    rw [hi, Option.some.injEq] at hj
    exact hj ▸ hun

/-- What was staged after a new file appeared was staged apart from it. -/
theorem Task.StagedAt.before {e : Task} {p : Path} {f : File} {s s₁ : Fs}
    (h : e.StagedAt ext nonce s₁ s) (hp : fs.get p = none) (hw : Written fs p f s₁) :
    e.StagedAt ext nonce fs s := by
  unfold Task.StagedAt at *
  cases hd : e.change.desired with
  | remove => rw [hd] at h; exact h
  | write contents mode =>
    rw [hd] at h
    obtain ⟨i, hi, hfree, hun, hget⟩ := h
    have hsame : ∀ q, q ≠ p → s₁.get q = fs.get q := fun q hq =>
      hw.same.get q (by simpa using hq)
    refine ⟨i, hi, ?_, fun q n hq => hun q n ?_, hget⟩
    · rw [← hsame _ fun hq => ?_, hfree]
      rw [hq, hw.get] at hfree
      cases hfree
    · rw [hsame q fun hqp => ?_, hq]
      rw [hqp, hp] at hq
      cases hq

theorem stageFiles_yields {es : List Task}
    (hes : ∀ e ∈ es, e.inst = none ∧ fs.Dirs e.target.dropLast) :
    Yields (fun r s => r.2 = none → ∃ es' : List Task,
        r.1 = es'.map (Task.operation ext nonce) ∧ es'.map Task.unstaged = es ∧
        Fs.SameOff (stageNames ext nonce es') fs s ∧ fs.DirsLe s ∧
        (∀ e ∈ es', e.StagedAt ext nonce fs s) ∧ es'.Pairwise Task.Distinct)
      (stageFiles ext (es.map fun e => (e.operation ext nonce, e.contents))) fs := by
  induction es generalizing fs with
  | nil =>
    exact .pure fun _ => ⟨[], rfl, rfl, .refl _ _, .refl _, (fun _ h => by cases h), .nil⟩
  | cons e es ih =>
    obtain ⟨⟨hinst, hdirs⟩, hrest⟩ := List.forall_mem_cons.1 hes
    cases hd : e.change.desired with
    | remove =>
      have hc : e.contents = none := by rw [Task.contents, hd]
      rw [List.map_cons, hc]
      refine .bind (ih hrest) ?_
      rintro ⟨ops, error⟩ s hs
      refine .pure fun herr => ?_
      obtain ⟨es', rfl, hes', hsame, hle, hst, hdis⟩ := hs herr
      refine ⟨e :: es', rfl, ?_, ?_, hle, List.forall_mem_cons.2 ⟨?_, hst⟩,
        List.pairwise_cons.2 ⟨fun e' _ i hi => ?_, hdis⟩⟩
      · rw [List.map_cons, hes', Task.unstaged, ← hinst]
      · refine hsame.mono fun q hq => ?_
        obtain ⟨e', he', h⟩ := mem_stageNames.1 hq
        exact mem_stageNames.2 ⟨e', List.mem_cons_of_mem e he', h⟩
      · rw [Task.StagedAt, hd]
        exact hinst
      · rw [hinst] at hi
        cases hi
    | write contents mode =>
      have hc : e.contents = some contents := by rw [Task.contents, hd]
      have hstage : (e.operation ext nonce).stage = some (.ofPath (e.stage ext nonce)) := by
        rw [Task.operation, hd]
      have hmode : (e.operation ext nonce).desiredMode = some mode := by rw [Task.operation, hd]
      rw [List.map_cons, hc, stageFiles]
      refine .bind (.okOr _ _) ?_
      rintro _ s₀ ⟨hs, rfl⟩
      cases hstage.symm.trans hs
      refine .bind (.okOr _ _) ?_
      rintro _ s₀ ⟨hm, rfl⟩
      cases hmode.symm.trans hm
      refine .bind (.attempt (writeNewFileMode_yields (Task.located_stage hdirs))) fun r s₁ hr => ?_
      cases r with
      | error error => exact .pure fun h => by cases h
      | ok i =>
        obtain ⟨hfree, hw⟩ := hr i rfl
        have hle₁ := hw.dirsLe hfree
        refine .bind (ih fun e' he' => ⟨(hrest e' he').1, hle₁.dirs (hrest e' he').2⟩) ?_
        rintro ⟨ops, error⟩ s hs
        refine .pure fun herr => ?_
        obtain ⟨es', rfl, hes', hsame, hle, hst, hdis⟩ := hs herr
        have hnot : e.stage ext nonce ∉ stageNames ext nonce es' := by
          intro hq
          obtain ⟨e', he', hw', heq⟩ := mem_stageNames.1 hq
          have := (hst e' he').stage_free hw'
          rw [heq, hw.get] at this
          cases this
        let e₁ : Task := { e with inst := some i }
        refine ⟨e₁ :: es', rfl, ?_, ?_, hle₁.trans hle, List.forall_mem_cons.2
          ⟨?_, fun e' he' => (hst e' he').before hfree hw⟩,
          List.pairwise_cons.2 ⟨fun e' he' j hj hj' => ?_, hdis⟩⟩
        · rw [List.map_cons, hes']
          congr 1
          change { e with inst := none } = e
          rw [← hinst]
        · refine (hw.same.mono fun q hq => ?_).trans (hsame.mono fun q hq => ?_)
          · rw [List.mem_singleton.1 hq]
            exact mem_stageNames.2 ⟨e₁, List.mem_cons_self, by rw [Task.contents, hd]; rfl, rfl⟩
          · obtain ⟨e', he', h⟩ := mem_stageNames.1 hq
            exact mem_stageNames.2 ⟨e', List.mem_cons_of_mem _ he', h⟩
        · have hget : s.get (e.stage ext nonce) = some (.file ⟨i, contents, mode⟩) := by
            rw [hsame.get _ hnot, hw.get]
          change Task.StagedAt ext nonce _ e₁ s
          unfold Task.StagedAt
          rw [hd]
          exact ⟨i, rfl, hfree, hw.unused, hget⟩
        · cases hj
          exact (hst e' he').unused hj' _ _ hw.get rfl

/-! ### Applying one operation -/

/-- The original of the task was moved aside, if there is one. -/
def Task.Aside (ext : Externals) (nonce : ℕ) (e : Task) (s s' : Fs) : Prop :=
  (e.change.original = none ∧ s.get e.target = none ∧ s' = s) ∨
    ∃ f, e.change.original = some f.identity ∧ s.get e.target = some (.file f) ∧
      s.get (e.backup ext nonce) = none ∧
      s' = (s.del e.target).set (e.backup ext nonce) (.file f)

/-- The staged file of the task was moved to its target, if there is one. -/
def Task.Install (ext : Externals) (nonce : ℕ) (e : Task) (s s' : Fs) : Prop :=
  (e.change.desired = .remove ∧ s' = s) ∨
    ∃ f, e.change.desired ≠ .remove ∧ e.inst = some f.identity ∧
      s.get (e.stage ext nonce) = some (.file f) ∧ s.get e.target = none ∧
      s' = (s.del (e.stage ext nonce)).set e.target (.file f)

theorem original_of_matches {o : JournalOperation} {r : Option File}
    (h : o.matchesOriginal ext.sha256Bytes r = true) : o.original = r.map File.identity := by
  cases r with
  | none =>
    simp only [JournalOperation.matchesOriginal, snapshotMatches, Bool.and_eq_true,
      Option.isNone_iff_eq_none] at h
    exact h.1.1
  | some f =>
    simp only [JournalOperation.matchesOriginal, snapshotMatches, Bool.and_eq_true,
      decide_eq_true_eq] at h
    exact h.1.1.symm

theorem installed_of_matches {o : JournalOperation} {r : Option File}
    (h : o.matchesInstalled ext.sha256Bytes r = true) (hd : o.desiredDigest.isSome = true) :
    ∃ f, r = some f ∧ o.installed = some f.identity := by
  cases r with
  | none =>
    simp only [JournalOperation.matchesInstalled, snapshotMatches, Bool.and_eq_true,
      Option.isNone_iff_eq_none] at h
    rw [h.1.2] at hd
    cases hd
  | some f =>
    simp only [JournalOperation.matchesInstalled, snapshotMatches, Bool.and_eq_true,
      decide_eq_true_eq] at h
    exact ⟨f, rfl, h.1.1.symm⟩

theorem renameNoclobber_yields {source target : ParentHandle} {f : File}
    (hsrc : fs.get source.file = some (.file f)) :
    Yields (fun _ s => fs.get target.file = none ∧
        s = (fs.del source.file).set target.file (.file f)) (renameNoclobber source target) fs :=
  renameNoReplace_yields hsrc

theorem moveAside_yields {e : Task} {parent : ParentHandle} {f : File}
    (hparent : parent.file = e.target) (hdirs : fs.Dirs e.target.dropLast)
    (hf : fs.get e.target = some (.file f)) :
    Yields (fun _ s => fs.get (e.backup ext nonce) = none ∧
        s = (fs.del e.target).set (e.backup ext nonce) (.file f))
      (moveAside ext (e.operation ext nonce) parent (.ofPath (e.backup ext nonce))) fs := by
  refine .bind (openParent_located_yields (Task.located_backup hdirs) false) ?_
  rintro backup s ⟨rfl, hbackup⟩
  refine .bind (renameNoclobber_yields (by rw [hparent, hf])) ?_
  rintro _ s' ⟨hfree, rfl⟩
  rw [hbackup] at hfree
  rw [hparent, hbackup]
  refine .bind (readRegularWithMode_same _) ?_
  rintro moved s' rfl
  refine .ite (fun _ => (syncParent_yields _).weaken ?_) fun _ => ?_
  · rintro _ s' rfl
    exact ⟨hfree, rfl⟩
  · exact .bind (.trivial _) fun _ _ _ => .throw _

theorem installStage_yields {e : Task} {parent : ParentHandle} (hw : e.change.desired ≠ .remove)
    (hparent : parent.file = e.target) (hdirs : fs.Dirs e.target.dropLast) :
    Yields (fun _ s => e.Install ext nonce fs s)
      (installStage ext (e.operation ext nonce) parent (.ofPath (e.stage ext nonce))) fs := by
  refine .bind (readRegularWithMode_yields (Task.located_stage hdirs)) ?_
  rintro staged s ⟨rfl, hstaged⟩
  refine .ite (fun hm => ?_) fun _ => .throw _
  have hdigest : (e.operation ext nonce).desiredDigest.isSome = true := by
    unfold Task.operation
    cases hd : e.change.desired with
    | write contents mode => rfl
    | remove => exact absurd hd hw
  obtain ⟨f, rfl, hinst⟩ := installed_of_matches hm hdigest
  refine .bind (openParent_located_yields (Task.located_stage hdirs) false) ?_
  rintro stage s ⟨rfl, hstage⟩
  refine .bind (renameNoclobber_yields (f := f) (by rw [hstage, hstaged]; rfl)) ?_
  rintro _ s' ⟨hfree, rfl⟩
  refine .bind (readRegularWithMode_same _) ?_
  rintro installed s' rfl
  refine .ite (fun _ => (syncParent_yields _).weaken ?_) fun _ => .throw _
  rintro _ s' rfl
  rw [hparent] at hfree ⊢
  rw [hstage]
  exact .inr ⟨f, hw, hinst, hstaged, hfree, rfl⟩

/-- The second half of an operation, from wherever the first half ends. -/
theorem installOperation_yields {e : Task} {parent : ParentHandle} {s₁ : Fs}
    (hparent : parent.file = e.target) (haside : e.Aside ext nonce fs s₁)
    (hdirs₁ : s₁.Dirs e.target.dropLast) :
    Yields (fun _ s' => ∃ s₁, e.Aside ext nonce fs s₁ ∧ e.Install ext nonce s₁ s')
      (match (e.operation ext nonce).stage with
        | some stagePath => installStage ext (e.operation ext nonce) parent stagePath
        | none => pure ()) s₁ := by
  cases hd : e.change.desired with
  | write contents mode =>
    have hw : e.change.desired ≠ .remove := by rw [hd]; exact fun h => by cases h
    have hstage : (e.operation ext nonce).stage = some (.ofPath (e.stage ext nonce)) := by
      rw [Task.operation, hd]
    rw [hstage]
    exact (installStage_yields hw hparent hdirs₁).weaken fun _ s' h => ⟨s₁, haside, h⟩
  | remove =>
    have hstage : (e.operation ext nonce).stage = none := by rw [Task.operation, hd]
    rw [hstage]
    exact .pure ⟨s₁, haside, .inl ⟨hd, rfl⟩⟩

theorem applyOperation_yields {e : Task} (hpath : e.change.path = .ofPath e.target)
    (hne : e.target ≠ []) (hdirs : fs.Dirs e.target.dropLast) :
    Yields (fun _ s => ∃ s₁, e.Aside ext nonce fs s₁ ∧ e.Install ext nonce s₁ s)
      (applyOperation ext (e.operation ext nonce)) fs := by
  have hloc : Located fs e.target := ⟨hne, hdirs⟩
  have htarget : (e.operation ext nonce).target = .ofPath e.target := hpath
  unfold applyOperation
  rw [htarget]
  refine .bind (openParent_located_yields hloc false) ?_
  rintro parent s ⟨rfl, hparent⟩
  refine IoSafe.bind (fstat_safe (quietOk_true s) ?_ fun _ _ h => by cases h)
  refine Yields.ite (fun _ => .throw _) fun _ => ?_
  refine .bind (readRegularWithMode_yields hloc) ?_
  rintro current s ⟨rfl, hcurrent⟩
  refine .ite (fun hm => ?_) fun _ => .throw _
  have horig : e.change.original = current.map File.identity := original_of_matches hm
  cases current with
  | none =>
    have hbackup : (e.operation ext nonce).backup = none := by
      simp only [Task.operation, horig, Option.map_none]
    rw [hbackup]
    exact installOperation_yields hparent (.inl ⟨horig, hcurrent, rfl⟩) hdirs
  | some f =>
    have hbackup : (e.operation ext nonce).backup = some (.ofPath (e.backup ext nonce)) := by
      simp only [Task.operation, horig, Option.map_some]
    rw [hbackup]
    refine .bind (moveAside_yields hparent hdirs hcurrent) ?_
    rintro _ s' ⟨hfree, rfl⟩
    refine installOperation_yields hparent (.inr ⟨f, horig, hcurrent, hfree, rfl⟩) ?_
    have hle : s.DirsLe ((s.del e.target).set (e.backup ext nonce) (.file f)) :=
      (Fs.dirsLe_del (by rw [Fs.isDir, hcurrent]; rfl)).trans
        (Fs.dirsLe_set (isDir_del (by rw [Fs.isDir, hfree])))
    exact hle.dirs hdirs

/-! ### All files are staged -/

/-- What is known once all files are staged.  `base` is the filesystem just before the first of
them was. -/
structure Staging (ext : Externals) (nonce : ℕ) (jd : Path) (jl : Name) (base : Fs)
    (es : List Task) : Prop where
  path : ∀ e ∈ es, e.change.path = .ofPath e.target ∧ e.target ≠ []
  targets : (es.map Task.target).Nodup
  removals : ∀ e ∈ es, e.change.desired = .remove → e.change.original.isSome = true
  /-- An original is at its target, unless its name is that of the journal stage. -/
  originals : ∀ e ∈ es, ∀ i, e.change.original = some i →
    e.target ≠ jd ++ [jl] ∧ (e.target ≠ journalStage ext jd jl →
      ∃ f, base.get e.target = some (.file f) ∧ f.identity = i)
  journal : ∃ f, base.get (jd ++ [jl]) = some (.file f)
  inst : ∀ e ∈ es, e.change.desired ≠ .remove → ∃ i, e.inst = some i
  /-- The staged files are new. -/
  staged : ∀ e ∈ es, ∀ i, e.inst = some i → base.Unused i
  stage_free : ∀ e ∈ es, e.change.desired ≠ .remove → base.get (e.stage ext nonce) = none
  distinct : es.Pairwise Task.Distinct

namespace Staging

variable {jd : Path} {jl : Name} {base : Fs} {es : List Task}

theorem eq_of_target (h : Staging ext nonce jd jl base es) {e e' : Task} (he : e ∈ es)
    (he' : e' ∈ es) (ht : e.target = e'.target) : e = e' :=
  List.inj_on_of_nodup_map h.targets he he' ht

theorem eq_of_inst (h : Staging ext nonce jd jl base es) {e e' : Task} (he : e ∈ es)
    (he' : e' ∈ es) {i : FileIdentity} (hi : e.inst = some i) (hi' : e'.inst = some i) : e = e' := by
  let R : Task → Task → Prop := fun e e' => ∀ i, e.inst = some i → e'.inst = some i → e = e'
  have hsymm : Std.Symm R := ⟨fun _ _ h i hi hi' => (h i hi' hi).symm⟩
  have hpair : es.Pairwise R := h.distinct.imp fun {a b} h i hi hi' => absurd hi' (h i hi)
  exact hpair.forall_of_forall (fun _ _ _ _ _ => rfl) he he' i hi hi'

theorem stage_ne_journal (h : Staging ext nonce jd jl base es) {e : Task} (he : e ∈ es)
    (hw : e.change.desired ≠ .remove) : e.stage ext nonce ≠ jd ++ [jl] := by
  intro heq
  obtain ⟨f, hf⟩ := h.journal
  rw [← heq, h.stage_free e he hw] at hf
  cases hf

/-- A new identity is not that of an original. -/
theorem original_ne (h : Staging ext nonce jd jl base es) {e e' : Task} (he : e ∈ es)
    (he' : e' ∈ es) {i : FileIdentity} (ho : e.change.original = some i)
    (hJS : e.target ≠ journalStage ext jd jl) : e'.inst ≠ some i := by
  intro hi
  obtain ⟨f, hf, rfl⟩ := (h.originals e he i ho).2 hJS
  exact h.staged e' he' _ hi _ _ hf rfl

end Staging

theorem Task.stage_ne_journalStage (e : Task) (jd : Path) (jl : Name) :
    e.stage ext nonce ≠ journalStage ext jd jl := by
  intro h
  exact siblingName_ne_journalStage _ _ _ (.inl rfl) _ _
    (List.singleton_inj.1 (List.append_inj' h rfl).2)

theorem Task.backup_ne_journalStage (e : Task) (jd : Path) (jl : Name) :
    e.backup ext nonce ≠ journalStage ext jd jl := by
  intro h
  exact siblingName_ne_journalStage _ _ _ (.inr rfl) _ _
    (List.singleton_inj.1 (List.append_inj' h rfl).2)

/-- The names that the task uses. -/
def Task.names (ext : Externals) (nonce : ℕ) (e : Task) : List Path :=
  e.target :: ((if e.change.desired ≠ .remove then [e.stage ext nonce] else []) ++
    if e.change.original.isSome then [e.backup ext nonce] else [])

theorem Task.mem_names {e : Task} {q : Path} : q ∈ e.names ext nonce ↔ q = e.target ∨
    (e.change.desired ≠ .remove ∧ q = e.stage ext nonce) ∨
    (e.change.original.isSome = true ∧ q = e.backup ext nonce) := by
  unfold Task.names
  by_cases hw : e.change.desired ≠ .remove <;> by_cases ho : e.change.original.isSome = true <;>
    simp [hw, ho]

/-- The names that the tasks and the journal use. -/
def allNames (ext : Externals) (nonce : ℕ) (jd : Path) (jl : Name) (es : List Task) : List Path :=
  es.flatMap (Task.names ext nonce) ++ [jd ++ [jl], journalStage ext jd jl]

theorem mem_allNames {jd : Path} {jl : Name} {es : List Task} {q : Path} :
    q ∈ allNames ext nonce jd jl es ↔ (∃ e ∈ es, q ∈ e.names ext nonce) ∨ q = jd ++ [jl] ∨
      q = journalStage ext jd jl := by
  simp [allNames]

/-! ### Applying all operations -/

/-- The name `q` is not for the commit to touch: it is bound in `base` and neither a target nor a
name of the journal. -/
structure Foreign (ext : Externals) (jd : Path) (jl : Name) (base : Fs) (es : List Task) (q : Path)
    (n : Node) : Prop where
  bound : base.get q = some n
  target : ∀ e ∈ es, q ≠ e.target
  journal : q ≠ jd ++ [jl]
  stage : q ≠ journalStage ext jd jl

/-- The tasks `done` were applied, the others not yet. -/
structure Progress (ext : Externals) (nonce : ℕ) (jd : Path) (jl : Name) (base : Fs)
    (es done rest : List Task) (s : Fs) : Prop where
  scope : s.Dirs jd
  dirs : ∀ e ∈ es, s.Dirs e.target.dropLast
  same : Fs.SameOff (allNames ext nonce jd jl es) base s
  foreign : ∀ q n, Foreign ext jd jl base es q n → s.get q = some n
  journal : ∃ f, s.get (jd ++ [jl]) = some (.file f)
  stage : journalStage ext jd jl ≠ jd ++ [jl] → s.get (journalStage ext jd jl) = none ∨
    ∃ e ∈ done, e.target = journalStage ext jd jl
  written : ∀ e ∈ done, ∀ contents mode, e.change.desired = .write contents mode →
    ∃ i, e.inst = some i ∧ s.get e.target = some (.file ⟨i, contents, mode⟩)
  removed : ∀ e ∈ done, e.change.desired = .remove → s.get e.target = none ∨
    ∃ e' ∈ done, e'.change.original.isSome = true ∧ e.target = e'.backup ext nonce
  staged : ∀ e ∈ rest, ∀ contents mode, e.change.desired = .write contents mode →
    ∃ i, e.inst = some i ∧ s.get (e.stage ext nonce) = some (.file ⟨i, contents, mode⟩)
  /-- The names of what was applied do not clash. -/
  target_ne : ∀ e ∈ done, e.target ≠ jd ++ [jl] ∧
    (e.change.desired ≠ .remove → e.target ≠ e.stage ext nonce)
  original_ne : ∀ e ∈ done, e.change.original.isSome = true →
    e.target ≠ journalStage ext jd jl ∧ e.backup ext nonce ≠ jd ++ [jl] ∧
      ∀ q n, Foreign ext jd jl base es q n → q ≠ e.backup ext nonce

namespace Task

variable {e : Task} {s s' : Fs} {q : Path} {n : Node}

theorem Aside.get_of_some (h : e.Aside ext nonce s s') (hn : s.get q = some n)
    (hq : q ≠ e.target) : s'.get q = some n := by
  rcases h with ⟨-, -, rfl⟩ | ⟨f, -, -, hfree, rfl⟩
  · exact hn
  · rw [Fs.get_set_of_ne, Fs.get_del_of_ne hq, hn]
    rintro rfl
    rw [hfree] at hn
    cases hn

theorem Aside.get_of_ne (h : e.Aside ext nonce s s') (hq : q ≠ e.target)
    (hb : e.change.original.isSome = true → q ≠ e.backup ext nonce) : s'.get q = s.get q := by
  rcases h with ⟨-, -, rfl⟩ | ⟨f, ho, -, -, rfl⟩
  · rfl
  · rw [Fs.get_set_of_ne (hb (by rw [ho]; rfl)), Fs.get_del_of_ne hq]

theorem Aside.ne_backup (h : e.Aside ext nonce s s') (hn : s.get q = some n)
    (ho : e.change.original.isSome = true) : q ≠ e.backup ext nonce := by
  rintro rfl
  rcases h with ⟨hno, -⟩ | ⟨f, -, -, hfree, -⟩
  · rw [hno] at ho
    cases ho
  · rw [hfree] at hn
    cases hn

theorem Aside.target (h : e.Aside ext nonce s s') : s'.get e.target = none := by
  rcases h with ⟨-, hfree, rfl⟩ | ⟨f, -, hf, hfree, rfl⟩
  · exact hfree
  · rw [Fs.get_set_of_ne, Fs.get_del_self]
    intro heq
    rw [heq, hfree] at hf
    cases hf

theorem Aside.sameOff (h : e.Aside ext nonce s s') : Fs.SameOff (e.names ext nonce) s s' := by
  rcases h with ⟨-, -, rfl⟩ | ⟨f, ho, -, -, rfl⟩
  · exact .refl _ _
  · exact (Fs.SameOff.del (mem_names.2 (.inl rfl))).trans
      (.set _ (mem_names.2 (.inr (.inr ⟨by rw [ho]; rfl, rfl⟩))))

theorem Aside.dirsLe (h : e.Aside ext nonce s s') : s.DirsLe s' := by
  rcases h with ⟨-, -, rfl⟩ | ⟨f, -, hf, hfree, rfl⟩
  · exact .refl _
  · exact (Fs.dirsLe_del (by rw [Fs.isDir, hf])).trans
      (Fs.dirsLe_set (isDir_del (by rw [Fs.isDir, hfree])))

theorem Install.get_of_some (h : e.Install ext nonce s s') (hn : s.get q = some n)
    (hq : e.change.desired ≠ .remove → q ≠ e.stage ext nonce) : s'.get q = some n := by
  rcases h with ⟨-, rfl⟩ | ⟨f, hw, -, -, hfree, rfl⟩
  · exact hn
  · rw [Fs.get_set_of_ne, Fs.get_del_of_ne (hq hw), hn]
    rintro rfl
    rw [hfree] at hn
    cases hn

theorem Install.get_of_ne (h : e.Install ext nonce s s') (hq : q ≠ e.target)
    (hs : e.change.desired ≠ .remove → q ≠ e.stage ext nonce) : s'.get q = s.get q := by
  rcases h with ⟨-, rfl⟩ | ⟨f, hw, -, -, -, rfl⟩
  · rfl
  · rw [Fs.get_set_of_ne hq, Fs.get_del_of_ne (hs hw)]

theorem Install.sameOff (h : e.Install ext nonce s s') : Fs.SameOff (e.names ext nonce) s s' := by
  rcases h with ⟨-, rfl⟩ | ⟨f, hw, -, -, -, rfl⟩
  · exact .refl _ _
  · exact (Fs.SameOff.del (mem_names.2 (.inr (.inl ⟨hw, rfl⟩)))).trans
      (.set _ (mem_names.2 (.inl rfl)))

theorem Install.dirsLe (h : e.Install ext nonce s s') : s.DirsLe s' := by
  rcases h with ⟨-, rfl⟩ | ⟨f, -, -, hf, hfree, rfl⟩
  · exact .refl _
  · exact (Fs.dirsLe_del (by rw [Fs.isDir, hf])).trans
      (Fs.dirsLe_set (isDir_del (by rw [Fs.isDir, hfree])))

end Task

namespace Progress

variable {jd : Path} {jl : Name} {base : Fs} {done rest : List Task} {e : Task} {s s₁ s' : Fs}

section

variable (hst : Staging ext nonce jd jl base (done ++ e :: rest))
  (hp : Progress ext nonce jd jl base (done ++ e :: rest) done (e :: rest) s)
  (ha : e.Aside ext nonce s s₁)

include hst

theorem ne_of_mem {e' : Task} (he' : e' ∈ done ∨ e' ∈ rest) : e' ≠ e := by
  rintro rfl
  have hn := hst.targets
  rw [List.map_append, List.map_cons] at hn
  rcases he' with h | h
  · exact (List.nodup_append.1 hn).2.2 _ (List.mem_map_of_mem h) _ List.mem_cons_self rfl
  · exact (List.nodup_cons.1 (List.nodup_append.1 hn).2.1).1 (List.mem_map_of_mem h)

include hp ha

theorem target_ne_journal : e.target ≠ jd ++ [jl] := by
  intro heq
  obtain ⟨f, hf⟩ := hp.journal
  rcases ha with ⟨-, hfree, -⟩ | ⟨g, ho, -⟩
  · rw [heq, hf] at hfree
    cases hfree
  · exact (hst.originals e (by simp) _ ho).1 heq

theorem target_ne_journalStage (ho : e.change.original.isSome = true) :
    e.target ≠ journalStage ext jd jl := by
  intro heq
  have hne : journalStage ext jd jl ≠ jd ++ [jl] := heq ▸ target_ne_journal hst hp ha
  rcases ha with ⟨hn, -⟩ | ⟨g, -, hg, -⟩
  · rw [hn] at ho
    cases ho
  · rcases hp.stage hne with hfree | ⟨e', he', ht⟩
    · rw [heq, hfree] at hg
      cases hg
    · exact ne_of_mem hst (.inl he') (hst.eq_of_target (List.mem_append_left _ he') (by simp)
        (ht.trans heq.symm))

theorem original_ne_inst {e' : Task} (he' : e' ∈ done ++ e :: rest) {i : FileIdentity}
    (ho : e.change.original = some i) : e'.inst ≠ some i :=
  hst.original_ne (by simp) he' ho (target_ne_journalStage hst hp ha (by rw [ho]; rfl))

/-- A file with the identity of another staged file stays where it is. -/
theorem other_staged (hi : e.Install ext nonce s₁ s') {e' : Task} (he' : e' ∈ done ∨ e' ∈ rest)
    {f : File} (hf : e'.inst = some f.identity) {q : Path} (hq : s.get q = some (.file f)) :
    s'.get q = some (.file f) := by
  have hmem : e' ∈ done ++ e :: rest := by
    rcases he' with h | h <;> simp [h]
  have hid : ∀ i, e.change.original = some i → e'.inst ≠ some i :=
    fun i ho => original_ne_inst hst hp ha hmem ho
  have hne : q ≠ e.target := by
    rintro rfl
    rcases ha with ⟨-, hfree, -⟩ | ⟨g, ho, hg, -, -⟩
    · rw [hfree] at hq
      cases hq
    · rw [hg] at hq
      cases hq
      exact hid _ ho hf
  refine hi.get_of_some (ha.get_of_some hq hne) fun hw hqs => ?_
  cases hd : e.change.desired with
  | remove => exact hw hd
  | write contents mode =>
    obtain ⟨i, hinst, hget⟩ := hp.staged e List.mem_cons_self contents mode hd
    rw [← hqs, hq] at hget
    cases hget
    exact ne_of_mem hst he' (hst.eq_of_inst hmem (by simp) hf hinst)

theorem target_ne_stage (hw : e.change.desired ≠ .remove) : e.target ≠ e.stage ext nonce := by
  intro heq
  cases hd : e.change.desired with
  | remove => exact hw hd
  | write contents mode =>
    obtain ⟨i, hinst, hget⟩ := hp.staged e List.mem_cons_self contents mode hd
    have hid : ∀ j, e.change.original = some j → e.inst ≠ some j :=
      fun j ho => original_ne_inst hst hp ha (by simp) ho
    rw [← heq] at hget
    rcases ha with ⟨-, hfree, -⟩ | ⟨g, ho, hg, -, -⟩
    · rw [hfree] at hget
      cases hget
    · rw [hg] at hget
      cases hget
      exact hid _ ho hinst

/-- What the task itself wrote. -/
theorem installed (hi : e.Install ext nonce s₁ s') {contents : Bytes} {mode : ℕ}
    (hd : e.change.desired = .write contents mode) :
    ∃ i, e.inst = some i ∧ s'.get e.target = some (.file ⟨i, contents, mode⟩) := by
  have hw : e.change.desired ≠ .remove := by rw [hd]; exact fun h => by cases h
  obtain ⟨i, hinst, hget⟩ := hp.staged e List.mem_cons_self contents mode hd
  have hstage : s₁.get (e.stage ext nonce) = some (.file ⟨i, contents, mode⟩) :=
    ha.get_of_some hget (target_ne_stage hst hp ha hw).symm
  rcases hi with ⟨hr, -⟩ | ⟨f, -, -, hf, -, rfl⟩
  · exact absurd hr hw
  · rw [hstage] at hf
    cases hf
    exact ⟨i, hinst, Fs.get_set_self _ _ _⟩

/-- **One more operation was applied.** -/
theorem step (hi : e.Install ext nonce s₁ s') :
    Progress ext nonce jd jl base (done ++ e :: rest) (done ++ [e]) rest s' := by
  have hself : e ∈ done ++ e :: rest := by simp
  have hJ := target_ne_journal hst hp ha
  have hsub : ∀ q ∈ e.names ext nonce, q ∈ allNames ext nonce jd jl (done ++ e :: rest) :=
    fun q hq => mem_allNames.2 (.inl ⟨e, hself, hq⟩)
  have hforeign : ∀ q n, Foreign ext jd jl base (done ++ e :: rest) q n → s'.get q = some n := by
    intro q n hq
    refine hi.get_of_some (ha.get_of_some (hp.foreign q n hq) (hq.target e hself)) fun hw heq => ?_
    have hb := hq.bound
    rw [heq, hst.stage_free e hself hw] at hb
    cases hb
  obtain ⟨f, hf⟩ := hp.journal
  have hremoved : ∀ e' ∈ done, e'.change.desired = .remove → s.get e'.target = none →
      s'.get e'.target = none ∨
        e.change.original.isSome = true ∧ e'.target = e.backup ext nonce := by
    intro e' he' hd hn
    by_cases hb : e.change.original.isSome = true ∧ e'.target = e.backup ext nonce
    · exact .inr hb
    · have hne : e'.target ≠ e.target := fun h => ne_of_mem hst (.inl he')
        (hst.eq_of_target (List.mem_append_left _ he') hself h)
      refine .inl ?_
      rw [hi.get_of_ne hne, ha.get_of_ne hne (fun ho h => hb ⟨ho, h⟩), hn]
      intro hw heq
      cases hd' : e.change.desired with
      | remove => exact hw hd'
      | write contents mode =>
        obtain ⟨i, -, hget⟩ := hp.staged e List.mem_cons_self contents mode hd'
        rw [← heq, hn] at hget
        cases hget
  refine ⟨(ha.dirsLe.trans hi.dirsLe).dirs hp.scope,
    fun e' he' => (ha.dirsLe.trans hi.dirsLe).dirs (hp.dirs e' he'),
    hp.same.trans ((ha.sameOff.mono hsub).trans (hi.sameOff.mono hsub)), hforeign,
    ⟨f, hi.get_of_some (ha.get_of_some hf hJ.symm)
      fun hw h => hst.stage_ne_journal hself hw h.symm⟩,
    fun hne => ?_, fun e' he' contents mode hd => ?_, fun e' he' hd => ?_,
    fun e' he' contents mode hd => ?_, fun e' he' => ?_, fun e' he' ho => ?_⟩
  · rcases hp.stage hne with hfree | ⟨e', he', ht⟩
    · by_cases heq : e.target = journalStage ext jd jl
      · exact .inr ⟨e, by simp, heq⟩
      · refine .inl ?_
        rw [hi.get_of_ne (Ne.symm heq) fun _ => (e.stage_ne_journalStage jd jl).symm,
          ha.get_of_ne (Ne.symm heq) fun _ => (e.backup_ne_journalStage jd jl).symm, hfree]
    · exact .inr ⟨e', List.mem_append_left _ he', ht⟩
  · rcases List.mem_append.1 he' with he' | he'
    · obtain ⟨i, hinst, hget⟩ := hp.written e' he' contents mode hd
      exact ⟨i, hinst, other_staged hst hp ha hi (.inl he') (f := ⟨i, contents, mode⟩) hinst hget⟩
    · obtain rfl := List.mem_singleton.1 he'
      exact installed hst hp ha hi hd
  · rcases List.mem_append.1 he' with he' | he'
    · rcases hp.removed e' he' hd with hn | ⟨e'', he'', h⟩
      · exact (hremoved e' he' hd hn).imp id fun h => ⟨e, by simp, h⟩
      · exact .inr ⟨e'', List.mem_append_left _ he'', h⟩
    · obtain rfl := List.mem_singleton.1 he'
      refine .inl ?_
      rcases hi with ⟨-, rfl⟩ | ⟨_, hw, -⟩
      · exact ha.target
      · exact absurd hd hw
  · obtain ⟨i, hinst, hget⟩ := hp.staged e' (List.mem_cons_of_mem e he') contents mode hd
    exact ⟨i, hinst, other_staged hst hp ha hi (.inr he') (f := ⟨i, contents, mode⟩) hinst hget⟩
  · rcases List.mem_append.1 he' with he' | he'
    · exact hp.target_ne e' he'
    · obtain rfl := List.mem_singleton.1 he'
      exact ⟨hJ, target_ne_stage hst hp ha⟩
  · rcases List.mem_append.1 he' with he' | he'
    · exact hp.original_ne e' he' ho
    · obtain rfl := List.mem_singleton.1 he'
      exact ⟨target_ne_journalStage hst hp ha ho, (ha.ne_backup hf ho).symm,
        fun q n hq => ha.ne_backup (hp.foreign q n hq) ho⟩

end

end Progress

theorem applyOperations_yields {jd : Path} {jl : Name} {base : Fs} {done rest : List Task} {s : Fs}
    (hst : Staging ext nonce jd jl base (done ++ rest))
    (hp : Progress ext nonce jd jl base (done ++ rest) done rest s) :
    Yields (fun _ s' => Progress ext nonce jd jl base (done ++ rest) (done ++ rest) [] s')
      (applyOperations ext (rest.map (Task.operation ext nonce))) s := by
  induction rest generalizing done s with
  | nil =>
    rw [List.append_nil] at *
    exact .pure hp
  | cons e rest ih =>
    have hself : e ∈ done ++ e :: rest := by simp
    have hsplit : done ++ e :: rest = done ++ [e] ++ rest := by simp
    obtain ⟨hpath, hne⟩ := hst.path e hself
    refine .bind (applyOperation_yields hpath hne (hp.dirs e hself)) ?_
    rintro _ s' ⟨s₁, ha, hi⟩
    have hnext := Progress.step hst hp ha hi
    rw [hsplit] at hst hnext ⊢
    exact ih hst hnext

/-! ### Cleaning up -/

/-- The committed journal is written and some auxiliary files are removed: those at the names
`gone`. -/
structure Cleaning (ext : Externals) (nonce : ℕ) (jd : Path) (jl : Name) (base : Fs)
    (es : List Task) (gone : List Path) (s : Fs) : Prop where
  scope : s.Dirs jd
  dirs : ∀ e ∈ es, s.Dirs e.target.dropLast
  same : Fs.SameOff (allNames ext nonce jd jl es) base s
  foreign : ∀ q n, Foreign ext jd jl base es q n → s.get q = some n
  journal : ∃ f, s.get (jd ++ [jl]) = some (.file f)
  stage : journalStage ext jd jl ≠ jd ++ [jl] → s.get (journalStage ext jd jl) = none
  written : ∀ e ∈ es, ∀ contents mode, e.change.desired = .write contents mode →
    e.target ≠ journalStage ext jd jl →
    ∃ i, e.inst = some i ∧ s.get e.target = some (.file ⟨i, contents, mode⟩)
  removed : ∀ e ∈ es, e.change.desired = .remove → s.get e.target = none ∨
    ∃ e' ∈ es, e'.change.original.isSome = true ∧ e.target = e'.backup ext nonce
  gone : ∀ q ∈ gone, s.get q = none
  target_ne : ∀ e ∈ es, e.target ≠ jd ++ [jl] ∧
    (e.change.desired ≠ .remove → e.target ≠ e.stage ext nonce)
  original_ne : ∀ e ∈ es, e.change.original.isSome = true →
    e.target ≠ journalStage ext jd jl ∧ e.backup ext nonce ≠ jd ++ [jl] ∧
      ∀ q n, Foreign ext jd jl base es q n → q ≠ e.backup ext nonce

namespace Cleaning

variable {jd : Path} {jl : Name} {base : Fs} {es : List Task} {gone : List Path} {s s' : Fs}

theorem of_progress (hst : Staging ext nonce jd jl base es)
    (h : Progress ext nonce jd jl base es es [] s) (hw : JournalWritten ext jd jl s s') :
    Cleaning ext nonce jd jl base es [] s' := by
  have hget : ∀ q, q ≠ jd ++ [jl] → q ≠ journalStage ext jd jl → s'.get q = s.get q :=
    fun q h₁ h₂ => hw.same.get q (by simp [h₁, h₂])
  refine ⟨hw.dirs.dirs h.scope, fun e he => hw.dirs.dirs (h.dirs e he),
    h.same.trans (hw.same.mono fun q hq => List.mem_append_right _ hq), fun q n hq => ?_, hw.journal, hw.stage,
    fun e he contents mode hd hJS => ?_, fun e he hd => ?_, (fun _ h => by cases h), h.target_ne,
    h.original_ne⟩
  · rw [hget q hq.journal hq.stage, h.foreign q n hq]
  · obtain ⟨i, hi, hget'⟩ := h.written e he contents mode hd
    exact ⟨i, hi, by rw [hget _ (h.target_ne e he).1 hJS, hget']⟩
  · have ho := hst.removals e he hd
    rw [hget _ (h.target_ne e he).1 (h.original_ne e he ho).1]
    exact h.removed e he hd

/-- Removing one auxiliary file: the staged file of a task or its original, by identity. -/
theorem remove (h : Cleaning ext nonce jd jl base es gone s) (hst : Staging ext nonce jd jl base es)
    {e : Task} (he : e ∈ es) {p : Path} {i : FileIdentity}
    (hpi : (p = e.stage ext nonce ∧ e.change.desired ≠ .remove ∧ e.inst = some i) ∨
      (p = e.backup ext nonce ∧ e.change.original = some i))
    (hr : Removed (fun f => f.identity = i) p s s') :
    Cleaning ext nonce jd jl base es (p :: gone) s' := by
  have hmem : p ∈ allNames ext nonce jd jl es := by
    refine mem_allNames.2 (.inl ⟨e, he, Task.mem_names.2 (.inr ?_)⟩)
    exact hpi.imp (fun h => ⟨h.2.1, h.1⟩) fun h => ⟨by rw [h.2]; rfl, h.1⟩
  have hkeep : ∀ q n, s.get q = some n → q ≠ p → s'.get q = some n := by
    intro q n hq hqp
    rw [hr.sameOff.get q (by simpa using hqp), hq]
  have hdel : ∀ q, s.get q = none → s'.get q = none := by
    intro q hq
    by_cases hqp : q = p
    · rw [hqp, hr.get]
    · rw [hr.sameOff.get q (by simpa using hqp), hq]
  have hforeign : ∀ q n, Foreign ext jd jl base es q n → q ≠ p := by
    rintro q n hq rfl
    rcases hpi with ⟨rfl, hw, -⟩ | ⟨rfl, ho⟩
    · have hb := hq.bound
      rw [hst.stage_free e he hw] at hb
      cases hb
    · exact (h.original_ne e he (by rw [ho]; rfl)).2.2 _ n hq rfl
  have hJ : jd ++ [jl] ≠ p := by
    rcases hpi with ⟨rfl, hw, -⟩ | ⟨rfl, ho⟩
    · exact (hst.stage_ne_journal he hw).symm
    · exact (h.original_ne e he (by rw [ho]; rfl)).2.1.symm
  obtain ⟨f, hf⟩ := h.journal
  refine ⟨hr.dirsLe.dirs h.scope, fun e' he' => hr.dirsLe.dirs (h.dirs e' he'),
    h.same.trans (hr.sameOff.mono ?_),
    fun q n hq => hkeep q n (h.foreign q n hq) (hforeign q n hq), ⟨f, hkeep _ _ hf hJ⟩,
    fun hne => hdel _ (h.stage hne), fun e' he' contents mode hd hJS => ?_,
    fun e' he' hd => (h.removed e' he' hd).imp (hdel _) id, ?_, h.target_ne, h.original_ne⟩
  · intro q hq
    rwa [List.mem_singleton.1 hq]
  · -- the file at the target of a write has another identity than the one removed
    obtain ⟨j, hj, hget⟩ := h.written e' he' contents mode hd hJS
    refine ⟨j, hj, ?_⟩
    rcases hr with ⟨rfl, -⟩ | ⟨g, hg, rfl, rfl⟩
    · exact hget
    · rw [Fs.get_del_of_ne, hget]
      intro heq
      rw [heq, hg] at hget
      cases hget
      rcases hpi with ⟨rfl, hw, hinst⟩ | ⟨rfl, ho⟩
      · obtain rfl := hst.eq_of_inst he he' hinst hj
        exact (h.target_ne e he).2 hw heq
      · exact hst.original_ne he he' ho (h.original_ne e he (by rw [ho]; rfl)).1 hj
  · intro q hq
    rcases List.mem_cons.1 hq with rfl | hq
    · exact hr.get
    · exact hdel q (h.gone q hq)

end Cleaning

theorem collectErrors_yields {label : JournalOperation → String} {act : JournalOperation → Io Unit}
    {I : List Path → Fs → Prop} {names : Task → List Path} {es : List Task}
    (hact : ∀ e ∈ es, ∀ gone s, I gone s →
      Yields (fun _ s' => I (names e ++ gone) s') (act (e.operation ext nonce)) s)
    {gone : List Path} {s : Fs} (h : I gone s) :
    Yields (fun errors s' => errors = [] → ∃ gone', (∀ q ∈ gone, q ∈ gone') ∧
        (∀ e ∈ es, ∀ q ∈ names e, q ∈ gone') ∧ I gone' s')
      (collectErrors label act (es.map (Task.operation ext nonce))) s := by
  induction es generalizing gone s with
  | nil => exact .pure fun _ => ⟨gone, (fun _ hq => hq), (fun _ h => by cases h), h⟩
  | cons e es ih =>
    obtain ⟨hhead, htail⟩ := List.forall_mem_cons.1 hact
    refine .bind (.attempt (hhead gone s h)) fun r s₁ hr => ?_
    cases r with
    | error error => exact .bind (.trivial _) fun _ _ _ => .pure fun h => by cases h
    | ok u =>
      refine .bind (ih htail (hr u rfl)) fun errors s₂ hs₂ => .pure fun hnil => ?_
      obtain ⟨gone', hsub, hnames, hI⟩ := hs₂ hnil
      refine ⟨gone', fun q hq => hsub q (List.mem_append_right _ hq),
        List.forall_mem_cons.2 ⟨fun q hq => hsub q (List.mem_append_left _ hq), hnames⟩, hI⟩

section

variable {jd : Path} {jl : Name} {base : Fs} {es : List Task} {gone : List Path} {s : Fs} {e : Task}

theorem cleanupStage_yields (h : Cleaning ext nonce jd jl base es gone s)
    (hst : Staging ext nonce jd jl base es) (he : e ∈ es) :
    Yields (fun _ s' => Cleaning ext nonce jd jl base es
        ((if e.change.desired ≠ .remove then [e.stage ext nonce] else []) ++ gone) s')
      (cleanupStage ext.sha256Bytes (e.operation ext nonce)) s := by
  unfold cleanupStage
  cases hd : e.change.desired with
  | remove =>
    have hstage : (e.operation ext nonce).stage = none := by rw [Task.operation, hd]
    rw [hstage, if_neg (fun hn => hn rfl)]
    exact .pure h
  | write contents mode =>
    have hw : e.change.desired ≠ .remove := by rw [hd]; exact fun h => by cases h
    have hstage : (e.operation ext nonce).stage = some (.ofPath (e.stage ext nonce)) := by
      rw [Task.operation, hd]
    have hdigest : (e.operation ext nonce).desiredDigest = some (ext.sha256Bytes contents) := by
      rw [Task.operation, hd]
    obtain ⟨i, hi⟩ := hst.inst e he hw
    have hinst : (e.operation ext nonce).installed = some i := hi
    rw [hstage, if_pos (fun hn => nomatch hn)]
    dsimp only
    rw [removeOwnedStage, hinst, hdigest]
    exact (removeOperationAuxExact_yields (Task.located_stage (h.dirs e he))).weaken
      fun _ s' hr => h.remove hst he (.inl ⟨rfl, hw, hi⟩) hr

theorem cleanupBackup_yields (h : Cleaning ext nonce jd jl base es gone s)
    (hst : Staging ext nonce jd jl base es) (he : e ∈ es) :
    Yields (fun _ s' => Cleaning ext nonce jd jl base es
        ((if e.change.original.isSome then [e.backup ext nonce] else []) ++ gone) s')
      (cleanupBackup ext.sha256Bytes (e.operation ext nonce)) s := by
  unfold cleanupBackup
  cases ho : e.change.original with
  | none =>
    have hbackup : (e.operation ext nonce).backup = none := by rw [Task.operation, ho]; rfl
    rw [hbackup]
    exact .pure h
  | some i =>
    have hbackup : (e.operation ext nonce).backup = some (.ofPath (e.backup ext nonce)) := by
      rw [Task.operation, ho]
      rfl
    have horig : (e.operation ext nonce).original = some i := ho
    rw [hbackup, horig]
    cases (e.operation ext nonce).originalDigest with
    | none => exact .throw _
    | some digest =>
      exact (removeOperationAuxExact_yields (Task.located_backup (h.dirs e he))).weaken
        fun _ s' hr => h.remove hst he (.inr ⟨rfl, ho⟩) hr

/-- Everything auxiliary was removed. -/
theorem cleanupCommitted_yields (h : Cleaning ext nonce jd jl base es [] s)
    (hst : Staging ext nonce jd jl base es) :
    Yields (fun errors s' => errors = [] → ∃ gone, Cleaning ext nonce jd jl base es gone s' ∧
        (∀ e ∈ es, e.change.desired ≠ .remove → e.stage ext nonce ∈ gone) ∧
        ∀ e ∈ es, e.change.original.isSome = true → e.backup ext nonce ∈ gone)
      (cleanupCommitted ext.sha256Bytes (es.map (Task.operation ext nonce))) s := by
  refine .bind (collectErrors_yields (fun e he gone s hs => cleanupStage_yields hs hst he) h)
    fun stages s₁ hs₁ => ?_
  by_cases hnil : stages = []
  · obtain ⟨gone₁, -, hstages, h₁⟩ := hs₁ hnil
    refine .bind (collectErrors_yields (fun e he gone s hs => cleanupBackup_yields hs hst he) h₁)
      fun backups s₂ hs₂ => .pure fun hall => ?_
    obtain ⟨gone₂, hsub, hbackups, h₂⟩ := hs₂ (List.append_eq_nil_iff.1 hall).2
    refine ⟨gone₂, h₂, fun e he hw => hsub _ (hstages e he _ ?_),
      fun e he ho => hbackups e he _ ?_⟩
    · rw [if_pos hw]
      exact List.mem_singleton.2 rfl
    · rw [if_pos ho]
      exact List.mem_singleton.2 rfl
  · exact .bind (.trivial _) fun _ _ _ => .pure fun hall =>
      absurd (List.append_eq_nil_iff.1 hall).1 hnil

end

/-! ### The whole commit -/

/-- What a successful commit has done. -/
structure Committed (ext : Externals) (jd : Path) (jl : Name) (changes : List PlannedChange)
    (fs s : Fs) : Prop where
  written : ∀ c ∈ changes, ∀ contents mode, c.desired = .write contents mode →
    c.target ≠ journalStage ext jd jl → ∃ i, s.get c.target = some (.file ⟨i, contents, mode⟩)
  removed : ∀ c ∈ changes, c.desired = .remove → s.get c.target = none
  stage : s.get (journalStage ext jd jl) = none
  kept : ∀ q n, fs.get q = some n → (∀ c ∈ changes, q ≠ c.target) → q ≠ journalStage ext jd jl →
    s.get q = some n
  absent : ∀ q, fs.get q = none → (∀ c ∈ changes, q ≠ c.target) → ¬ AboveTarget changes q →
    s.get q = none
  dirs : ∀ c ∈ changes, s.Dirs c.target.dropLast

section

variable {jd : Path} {jl : Name} {base : Fs} {es : List Task} {s : Fs}

theorem rollbackTransaction_yields {journalPath : PathBuf} {operations : List JournalOperation}
    {primary : IoError} {Q : Unit → Fs → Prop} :
    Yields Q (rollbackTransaction ext journalPath operations primary) fs := by
  refine .bind (.trivial _) fun rollback s _ => ?_
  unfold finishFailedTransaction
  refine .ite (fun _ => .throw _) fun _ => ?_
  refine .bind (.trivial _) fun _ _ _ => .bind (.trivial _) fun current _ _ => ?_
  cases current with
  | none => exact .throw _
  | some r => exact .bind (.trivial _) fun _ _ _ => .throw _

/-- The journal was removed last; nothing auxiliary is left. -/
structure Finished (ext : Externals) (nonce : ℕ) (jd : Path) (jl : Name) (base : Fs)
    (es : List Task) (s : Fs) : Prop where
  cleaned : ∃ s₁ gone, Cleaning ext nonce jd jl base es gone s₁ ∧
    (∀ e ∈ es, e.change.desired ≠ .remove → e.stage ext nonce ∈ gone) ∧
    (∀ e ∈ es, e.change.original.isSome = true → e.backup ext nonce ∈ gone) ∧
    Fs.SameOff [jd ++ [jl]] s₁ s ∧ s₁.DirsLe s
  journal : s.get (jd ++ [jl]) = none

theorem finishCommitted_yields (hst : Staging ext nonce jd jl base es)
    (h : Cleaning ext nonce jd jl base es [] s) :
    Yields (fun _ s' => Finished ext nonce jd jl base es s')
      (finishCommitted ext (.ofPath (jd ++ [jl])) (es.map (Task.operation ext nonce))) s := by
  refine .bind (cleanupCommitted_yields h hst) fun cleanup s₁ hs₁ => ?_
  refine .ite (fun _ => .throw _) fun hnil => ?_
  obtain ⟨gone, hc, hstages, hbackups⟩ := hs₁ (not_not.1 hnil)
  refine .bind (readRegular_yields (located_snoc hc.scope jl)) ?_
  rintro r s₂ ⟨rfl, o, -, rfl⟩
  refine .bind (.okOr _ _) ?_
  rintro ⟨identity, bytes⟩ s₂ ⟨-, rfl⟩
  refine .mapErr _ ((removeJournal_yields hc.scope).weaken fun _ s' hr => ?_)
  exact ⟨⟨s₂, gone, hc, hstages, hbackups, hr.sameOff, hr.dirsLe⟩, hr.get⟩

theorem commitJournal_yields {journal : Journal} (hst : Staging ext nonce jd jl base es)
    (h : Progress ext nonce jd jl base es es [] s)
    (hops : journal.operations = es.map (Task.operation ext nonce)) :
    Yields (fun _ s' => Finished ext nonce jd jl base es s')
      (commitJournal ext (.ofPath (jd ++ [jl])) journal) s := by
  refine .bind (.attempt (writeJournal_yields _ h.scope)) fun r s₁ hs₁ => ?_
  cases r with
  | error error =>
    refine .bind (.trivial _) fun current s₂ _ => ?_
    exact .ite (fun _ => .throw _) fun _ => rollbackTransaction_yields
  | ok u =>
    rw [hops]
    exact finishCommitted_yields hst (.of_progress hst h (hs₁ u rfl))

theorem applyJournal_yields {journal : Journal} {fs₃ : Fs}
    (hst : Staging ext nonce jd jl base es) (hscope : fs₃.Dirs jd)
    (hops : journal.operations = es.map (Task.operation ext nonce))
    (hp : ∀ s, JournalWritten ext jd jl fs₃ s → Progress ext nonce jd jl base es [] es s) :
    Yields (fun _ s' => Finished ext nonce jd jl base es s')
      (applyJournal ext (.ofPath (jd ++ [jl])) journal) fs₃ := by
  refine .bind (.attempt (writeJournal_yields _ hscope)) fun r s₁ hs₁ => ?_
  cases r with
  | error error => exact rollbackTransaction_yields
  | ok u =>
    have happly : Yields (fun _ s' => Progress ext nonce jd jl base es es [] s')
        (applyOperations ext journal.operations) s₁ := by
      rw [hops]
      exact applyOperations_yields (show Staging ext nonce jd jl base ([] ++ es) from hst)
        (hp s₁ (hs₁ u rfl))
    refine .bind (.attempt happly) fun r s₂ hs₂ => ?_
    cases r with
    | error error => exact rollbackTransaction_yields
    | ok v => exact commitJournal_yields hst (hs₂ v rfl) hops

end

section

variable {jd : Path} {jl : Name} {changes : List PlannedChange} {es : List Task}

/-- The staging is complete. -/
theorem Staging.of_staged {fs₁ base fs₃ : Fs} (hm : ∀ c ∈ changes, c.Measured ext.sha256Bytes fs)
    (htargets : (changes.map PlannedChange.target).Nodup)
    (hremove : ∀ c ∈ changes, c.desired = .remove → c.original.isSome = true)
    (hJ : fs.get (jd ++ [jl]) = none) (hes : es.map Task.change = changes)
    (hg : Grown (AboveTarget changes) fs fs₁) (hw : JournalWritten ext jd jl fs₁ base)
    (hst : ∀ e ∈ es, e.StagedAt ext nonce base fs₃) (hdis : es.Pairwise Task.Distinct) :
    Staging ext nonce jd jl base es := by
  have hmem : ∀ e ∈ es, e.change ∈ changes := fun e he => hes ▸ List.mem_map_of_mem he
  refine ⟨fun e he => ⟨(hm _ (hmem e he)).path, (hm _ (hmem e he)).ne_nil⟩, ?_,
    fun e he => hremove _ (hmem e he), fun e he i hi => ?_, hw.journal, fun e he hd => ?_,
    fun e he i hi => (hst e he).unused hi, fun e he hd => (hst e he).stage_free ?_, hdis⟩
  · rw [← hes, List.map_map] at htargets
    exact htargets
  · have hc := hm _ (hmem e he)
    have ho := hc.original
    rw [hi] at ho
    obtain ⟨f, hf, hid⟩ := Option.map_eq_some_iff.1 ho.symm
    have hget : fs.get e.target = some (.file f) := Fs.file?_eq_some.1 hf
    refine ⟨fun heq => ?_, fun hne => ⟨f, ?_, hid⟩⟩
    · rw [heq, hJ] at hget
      cases hget
    · rw [hw.same.get, hg.get_of_some hget]
      intro hX
      rcases List.mem_pair.1 hX with heq | heq
      · rw [heq, hJ] at hget
        cases hget
      · exact hne heq
  · have := hst e he
    unfold Task.StagedAt at this
    cases hd' : e.change.desired with
    | remove => exact absurd hd' hd
    | write contents mode =>
      rw [hd'] at this
      exact ⟨_, this.choose_spec.1⟩
  · unfold Task.contents
    cases hd' : e.change.desired with
    | remove => exact absurd hd' hd
    | write contents mode => rfl

/-- Nothing was applied yet. -/
theorem Progress.of_staged {base fs₃ s : Fs} (hst : Staging ext nonce jd jl base es)
    (hscope : base.Dirs jd) (hdirs : ∀ e ∈ es, base.Dirs e.target.dropLast)
    (hsame : Fs.SameOff (stageNames ext nonce es) base fs₃) (hle : base.DirsLe fs₃)
    (hstaged : ∀ e ∈ es, e.StagedAt ext nonce base fs₃) (hw : JournalWritten ext jd jl fs₃ s) :
    Progress ext nonce jd jl base es [] es s := by
  have hwrites : ∀ e : Task, e.contents.isSome = true → e.change.desired ≠ .remove := by
    intro e hc hd
    rw [Task.contents, hd] at hc
    cases hc
  have hle' := hle.trans hw.dirs
  refine ⟨hle'.dirs hscope, fun e he => hle'.dirs (hdirs e he), ?_, fun q n hq => ?_, hw.journal,
    fun hne => .inl (hw.stage hne), (fun _ h => by cases h), (fun _ h => by cases h),
    fun e he contents mode hd => ?_, (fun _ h => by cases h), fun _ h => nomatch h⟩
  · refine (hsame.mono fun q hq => ?_).trans (hw.same.mono fun q hq => ?_)
    · obtain ⟨e, he, hc, rfl⟩ := mem_stageNames.1 hq
      exact mem_allNames.2 (.inl ⟨e, he, Task.mem_names.2 (.inr (.inl ⟨hwrites e hc, rfl⟩))⟩)
    · exact mem_allNames.2 (.inr (List.mem_pair.1 hq))
  · rw [hw.same.get q (by simp [hq.journal, hq.stage]), hsame.get q, hq.bound]
    intro hmem
    obtain ⟨e, he, hc, rfl⟩ := mem_stageNames.1 hmem
    have hb := hq.bound
    rw [hst.stage_free e he (hwrites e hc)] at hb
    cases hb
  · have hd' : e.change.desired ≠ .remove := by rw [hd]; exact fun h => by cases h
    have h := hstaged e he
    unfold Task.StagedAt at h
    rw [hd] at h
    obtain ⟨i, hi, -, -, hget⟩ := h
    refine ⟨i, hi, ?_⟩
    rw [hw.same.get, hget]
    simp [hst.stage_ne_journal he hd', e.stage_ne_journalStage jd jl]

/-- What is left at the end. -/
theorem Finished.committed {fs₁ base s : Fs}
    (hes : es.map Task.change = changes) (hJ : fs.get (jd ++ [jl]) = none)
    (hg : Grown (AboveTarget changes) fs fs₁) (hw : JournalWritten ext jd jl fs₁ base)
    (h : Finished ext nonce jd jl base es s) : Committed ext jd jl changes fs s := by
  obtain ⟨⟨s₁, gone, hc, hstages, hbackups, hsame, hle⟩, hjournal⟩ := h
  have hmem : ∀ c ∈ changes, ∃ e ∈ es, e.change = c := fun c hc => by
    rw [← hes] at hc
    exact List.mem_map.1 hc
  have hkeep : ∀ q, q ≠ jd ++ [jl] → s.get q = s₁.get q := fun q hq =>
    hsame.get q (by simpa using hq)
  have hdel : ∀ q, s₁.get q = none → s.get q = none := by
    intro q hq
    by_cases heq : q = jd ++ [jl]
    · rw [heq, hjournal]
    · rw [hkeep q heq, hq]
  have hstage : s.get (journalStage ext jd jl) = none := by
    by_cases heq : journalStage ext jd jl = jd ++ [jl]
    · rw [heq, hjournal]
    · exact hdel _ (hc.stage heq)
  refine ⟨fun c hcm contents mode hd hJS => ?_, fun c hcm hd => ?_, hstage,
    fun q n hq htarget hJS => ?_, fun q hq htarget habove => ?_, fun c hcm => ?_⟩
  · obtain ⟨e, he, rfl⟩ := hmem c hcm
    obtain ⟨i, -, hget⟩ := hc.written e he contents mode hd hJS
    exact ⟨i, (hkeep _ (hc.target_ne e he).1).trans hget⟩
  · obtain ⟨e, he, rfl⟩ := hmem c hcm
    rcases hc.removed e he hd with hn | ⟨e', he', ho, heq⟩
    · exact hdel _ hn
    · refine hdel _ ?_
      change s₁.get e.target = none
      rw [heq]
      exact hc.gone _ (hbackups e' he' ho)
  · have hqJ : q ≠ jd ++ [jl] := by
      rintro rfl
      rw [hJ] at hq
      cases hq
    rw [hkeep q hqJ]
    refine hc.foreign q n ⟨?_, fun e he => htarget _ (hes ▸ List.mem_map_of_mem he), hqJ, hJS⟩
    rw [hw.same.get q (by simp [hqJ, hJS]), hg.get_of_some hq]
  · by_cases hqJ : q = jd ++ [jl]
    · rw [hqJ, hjournal]
    by_cases hqJS : q = journalStage ext jd jl
    · rw [hqJS, hstage]
    refine hdel q ?_
    by_cases hnames : ∃ e ∈ es, q ∈ e.names ext nonce
    · obtain ⟨e, he, hqe⟩ := hnames
      rcases Task.mem_names.1 hqe with rfl | ⟨hw', rfl⟩ | ⟨ho, rfl⟩
      · exact absurd rfl (htarget _ (hes ▸ List.mem_map_of_mem he))
      · exact hc.gone _ (hstages e he hw')
      · exact hc.gone _ (hbackups e he ho)
    · rw [hc.same.get q, hw.same.get q (by simp [hqJ, hqJS]), hg.get_of_not habove, hq]
      intro hX
      rcases mem_allNames.1 hX with h | h | h
      · exact hnames h
      · exact hqJ h
      · exact hqJS h
  · obtain ⟨e, he, rfl⟩ := hmem c hcm
    exact hle.dirs (hc.dirs e he)

/-- **A successful commit.**  The snapshots of the changes are true and their targets different;
nothing else is assumed. -/
theorem commit_yields (hm : ∀ c ∈ changes, c.Measured ext.sha256Bytes fs)
    (htargets : (changes.map PlannedChange.target).Nodup)
    (hremove : ∀ c ∈ changes, c.desired = .remove → c.original.isSome = true)
    (hscope : fs.Dirs jd) (hJ : fs.get (jd ++ [jl]) = none) :
    Yields (fun _ s => Committed ext jd jl changes fs s)
      (commit ext (.ofPath (jd ++ [jl])) nonce changes) fs := by
  refine .bind (buildOperations_yields (fun _ hc => hc) fun c hc => (hm c hc).path) ?_
  rintro _ fs₁ ⟨es, rfl, hes, hbuilt, hg⟩
  have hscope₁ := hg.dirs hscope
  refine .bind (writeJournal_yields _ hscope₁) fun _ base hw => ?_
  have hdirs : ∀ e ∈ es, base.Dirs e.target.dropLast := fun e he => hw.dirs.dirs (hbuilt e he).2
  refine .bind (stageFiles_yields fun e he => ⟨(hbuilt e he).1, hdirs e he⟩) ?_
  rintro ⟨operations, failed⟩ fs₃ hfs₃
  cases failed with
  | some error => exact rollbackTransaction_yields
  | none =>
    obtain ⟨es', hops, hun, hsame, hle, hstaged, hdis⟩ := hfs₃ rfl
    have hes' : es'.map Task.change = changes := by
      rw [← hes, ← hun, List.map_map]
      rfl
    have hdirs' : ∀ e ∈ es', base.Dirs e.target.dropLast := by
      intro e he
      exact hdirs e.unstaged (hun ▸ List.mem_map_of_mem he)
    have hst := Staging.of_staged hm htargets hremove hJ hes' hg hw hstaged hdis
    have hscope' : base.Dirs jd := hw.dirs.dirs hscope₁
    refine (applyJournal_yields hst (hle.dirs hscope') hops fun s hs =>
      Progress.of_staged hst hscope' hdirs' hsame hle hstaged hs).weaken fun _ s h => ?_
    exact h.committed hes' hJ hg hw

end

end

open Sample in
theorem commit_yields_create : ∃ s,
    machine.exec (commit externals (.ofPath [leaf]) nonce [create]).run quiet empty = (.ok (), s) ∧
      Committed externals [] leaf [create] empty s := by
  have h : Yields (fun _ s => Committed externals [] leaf [create] empty s)
      (commit externals (.ofPath ([] ++ [leaf])) nonce [create]) empty :=
    commit_yields (fun c hc => (create_planned.snapshots c hc).toMeasured) (by decide)
      create_planned.removals create_planned.dirs create_planned.journal
  have hok : (machine.exec (commit externals (.ofPath [leaf]) nonce [create]).run quiet
      empty).1.isOk = true := by decide +kernel
  generalize hrun : machine.exec (commit externals (.ofPath [leaf]) nonce [create]).run quiet
    empty = result at hok ⊢
  obtain ⟨r, s⟩ := result
  obtain ⟨⟨⟩, rfl⟩ := Except.exists_of_isOk hok
  exact ⟨s, rfl, h.exec hrun⟩

end ArosTools
