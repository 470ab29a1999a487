import ArosTools.Publication.Rules
import ArosTools.Publication.Commit

/-!
# One operation on disk

A `Slot` is one change of a transaction with the three names it uses: the target, the stage file
and the backup file, siblings in one directory.  While a transaction runs, the files at these
names are in one of few combinations (`Slot.Stable`): the original untouched, moved aside, or
replaced by the installed file.  Undoing an operation keeps to these combinations and ends with
the original at its target (`Slot.rollbackOperation_safe`), whatever the combination it starts
from; applying one walks through them (`Slot.applyOperation_safe`).

All the rules are local: nothing but the three names changes.
-/

namespace ArosTools

open Sys

/-- One change of a transaction and the names it uses. -/
structure Slot where
  /-- The directory of the target and of its auxiliary files. -/
  dir : Path
  leaf : Name
  stageLeaf : Name
  backupLeaf : Name
  /-- The file at the target when the change was staged. -/
  original : Option File
  desired : DesiredState
  /-- What is at the backup name when the transaction starts. -/
  occupant : Option Node
  leaf_ne_stage : leaf ≠ stageLeaf
  leaf_ne_backup : leaf ≠ backupLeaf
  stage_ne_backup : stageLeaf ≠ backupLeaf
  /-- Only an existing file is removed. -/
  original_of_remove : desired = .remove → original.isSome = true
  /-- A change without an original has no use for a backup name. -/
  occupant_of_create : original = none → occupant = none

namespace Slot

/-- The target. -/
def target (sl : Slot) : Path := sl.dir ++ [sl.leaf]

/-- The stage file. -/
def stage (sl : Slot) : Path := sl.dir ++ [sl.stageLeaf]

/-- The backup file. -/
def backup (sl : Slot) : Path := sl.dir ++ [sl.backupLeaf]

/-- The change is a write. -/
def writes (sl : Slot) : Bool :=
  match sl.desired with
  | .write _ _ => true
  | .remove => false

/-- The names the change uses. -/
def names (sl : Slot) : List Path :=
  sl.target :: (if sl.writes then [sl.stage] else []) ++
    (if sl.original.isSome then [sl.backup] else [])

/-- The original as a node. -/
def originalNode (sl : Slot) : Option Node := sl.original.map .file

/-- The file that the change installs under the identity `i`. -/
def installed (sl : Slot) (i : FileIdentity) : Option File :=
  match sl.desired with
  | .write contents mode => some ⟨i, contents, mode⟩
  | .remove => none

variable (sha256Bytes : Bytes → Sha256Digest)

/-- The journalled operation of the change. -/
def operation (sl : Slot) (parentIdentity : FileIdentity) (inst : Option FileIdentity) :
    JournalOperation where
  target := .ofPath sl.target
  stage := if sl.writes then some (.ofPath sl.stage) else none
  backup := sl.original.map fun _ => .ofPath sl.backup
  parentIdentity := parentIdentity
  original := sl.original.map File.identity
  originalDigest := sl.original.map fun f => sha256Bytes f.bytes
  originalMode := sl.original.map File.mode
  desiredDigest := match sl.desired with
    | .write contents _ => some (sha256Bytes contents)
    | .remove => none
  desiredMode := match sl.desired with
    | .write _ mode => some mode
    | .remove => none
  installed := inst

/-- The files at the three names.  A name that the change does not use is not mentioned. -/
structure At (sl : Slot) (parentIdentity : FileIdentity) (t : Option File) (s b : Option Node)
    (fs : Fs) : Prop where
  dirs : fs.Dirs sl.dir
  dir : fs.get sl.dir = some (.dir parentIdentity)
  target : fs.get sl.target = t.map .file
  stage : sl.writes = true → fs.get sl.stage = s
  backup : sl.original.isSome = true → fs.get sl.backup = b

/-- The combinations that occur once the identity `i` of the staged file is known: untouched,
moved aside, installed.  An original is moved aside only to a free backup name. -/
def Midway (sl : Slot) (i : FileIdentity) (t : Option File) (s b : Option Node) : Prop :=
  (t = sl.original ∧ b = sl.occupant ∧ (s = none ∨ s = (sl.installed i).map .file)) ∨
    (sl.occupant = none ∧ t = none ∧ b = sl.originalNode ∧
      (s = none ∨ s = (sl.installed i).map .file)) ∨
    (sl.occupant = none ∧ t = sl.installed i ∧ b = sl.originalNode ∧ s = none)

/-- The combinations that occur before the committed journal.  As long as the identity of the
staged file is not recorded, the stage may hold anything and the target is untouched. -/
def Stable (sl : Slot) (inst : Option FileIdentity) (t : Option File) (s b : Option Node) : Prop :=
  match sl.desired, inst with
  | .write _ _, none => t = sl.original ∧ b = sl.occupant
  | .write _ _, some i => (∀ o ∈ sl.original, o.identity ≠ i) ∧ sl.Midway i t s b
  | .remove, none => s = none ∧ (t = sl.original ∧ b = sl.occupant ∨
      sl.occupant = none ∧ t = none ∧ b = sl.originalNode)
  | .remove, some _ => False

/-- The change is a removal whose original has been moved aside. -/
def MovedRemoval (sl : Slot) (t : Option File) : Prop := sl.desired = .remove ∧ t = none

/-! ### Snapshots -/

variable {sl : Slot} {pid : FileIdentity} {inst : Option FileIdentity} {t : Option File}
  {s b : Option Node} {fs : Fs} {sha256Bytes}

theorem matchesOriginal_none :
    (sl.operation sha256Bytes pid inst).matchesOriginal sha256Bytes none = true ↔
      sl.original = none := by
  unfold JournalOperation.matchesOriginal snapshotMatches operation
  cases sl.original <;> simp

theorem matchesOriginal_self :
    (sl.operation sha256Bytes pid inst).matchesOriginal sha256Bytes sl.original = true := by
  unfold JournalOperation.matchesOriginal snapshotMatches operation
  cases sl.original <;> simp

theorem matchesInstalled_none :
    (sl.operation sha256Bytes pid inst).matchesInstalled sha256Bytes none = true ↔
      inst = none ∧ sl.desired = .remove := by
  unfold JournalOperation.matchesInstalled snapshotMatches operation
  cases sl.desired <;> simp

theorem matchesInstalled_some {f : File} :
    (sl.operation sha256Bytes pid inst).matchesInstalled sha256Bytes (some f) = true ↔
      ∃ contents mode, sl.desired = .write contents mode ∧ some f.identity = inst ∧
        sha256Bytes f.bytes = sha256Bytes contents ∧ mode = f.mode := by
  unfold JournalOperation.matchesInstalled snapshotMatches operation
  cases sl.desired with
  | write contents mode => simp [and_comm]
  | remove => simp

/-! ### Moves -/

theorem target_ne_stage (sl : Slot) : sl.target ≠ sl.stage := by
  simp [target, stage, sl.leaf_ne_stage]

theorem target_ne_backup (sl : Slot) : sl.target ≠ sl.backup := by
  simp [target, backup, sl.leaf_ne_backup]

theorem stage_ne_backup_path (sl : Slot) : sl.stage ≠ sl.backup := by
  simp [stage, backup, sl.stage_ne_backup]

theorem mem_names {sl : Slot} {p : Path} : p ∈ sl.names ↔
    p = sl.target ∨ (sl.writes = true ∧ p = sl.stage) ∨
      (sl.original.isSome = true ∧ p = sl.backup) := by
  unfold names
  cases sl.writes <;> cases sl.original.isSome <;> simp

theorem not_mem_names_of_above {q : Path} (hq : q <+: sl.dir) : q ∉ sl.names := by
  intro h
  rcases mem_names.1 h with rfl | ⟨-, rfl⟩ | ⟨-, rfl⟩
  · exact not_snoc_prefix hq
  · exact not_snoc_prefix hq
  · exact not_snoc_prefix hq

theorem target_mem (sl : Slot) : sl.target ∈ sl.names := mem_names.2 (.inl rfl)

theorem stage_mem (h : sl.writes = true) : sl.stage ∈ sl.names := mem_names.2 (.inr (.inl ⟨h, rfl⟩))

theorem backup_mem (h : sl.original.isSome = true) : sl.backup ∈ sl.names :=
  mem_names.2 (.inr (.inr ⟨h, rfl⟩))

namespace At

variable {pid : FileIdentity}

theorem holds_target (h : sl.At pid t s b fs) : Holds fs sl.target t :=
  ⟨⟨by simp [Slot.target], by simpa [Slot.target] using h.dirs⟩, h.target⟩

theorem located_stage (h : sl.At pid t s b fs) : Located fs sl.stage :=
  ⟨by simp [Slot.stage], by simpa [Slot.stage] using h.dirs⟩

theorem located_backup (h : sl.At pid t s b fs) : Located fs sl.backup :=
  ⟨by simp [Slot.backup], by simpa [Slot.backup] using h.dirs⟩

theorem holds_stage {f : Option File} (h : sl.At pid t (f.map .file) b fs)
    (hw : sl.writes = true) : Holds fs sl.stage f := ⟨h.located_stage, h.stage hw⟩

theorem holds_backup {f : Option File} (h : sl.At pid t s (f.map .file) fs)
    (ho : sl.original.isSome = true) : Holds fs sl.backup f := ⟨h.located_backup, h.backup ho⟩

/-- A change at the three names, described by what they hold afterwards. -/
theorem of_sameOff {fs' : Fs} {t' : Option File} {s' b' : Option Node} (h : sl.At pid t s b fs)
    (hs : Fs.SameOff sl.names fs fs') (ht : fs'.get sl.target = t'.map .file)
    (hst : sl.writes = true → fs'.get sl.stage = s')
    (hb : sl.original.isSome = true → fs'.get sl.backup = b') :
    sl.At pid t' s' b' fs' :=
  ⟨hs.dirs h.dirs fun _ hq => not_mem_names_of_above hq,
    (hs.get _ (not_mem_names_of_above (List.prefix_refl _))).trans h.dir, ht, hst, hb⟩

theorem del_target (h : sl.At pid t s b fs) : sl.At pid none s b (fs.del sl.target) := by
  refine h.of_sameOff (.del sl.target_mem) (by simp) (fun hw => ?_) fun ho => ?_
  · rw [Fs.get_del_of_ne sl.target_ne_stage.symm, h.stage hw]
  · rw [Fs.get_del_of_ne sl.target_ne_backup.symm, h.backup ho]

theorem del_stage (h : sl.At pid t s b fs) (hw : sl.writes = true) :
    sl.At pid t none b (fs.del sl.stage) := by
  refine h.of_sameOff (.del (stage_mem hw)) ?_ (fun hw => by simp) fun ho => ?_
  · rw [Fs.get_del_of_ne sl.target_ne_stage, h.target]
  · rw [Fs.get_del_of_ne sl.stage_ne_backup_path.symm, h.backup ho]

theorem del_backup (h : sl.At pid t s b fs) (ho : sl.original.isSome = true) :
    sl.At pid t s none (fs.del sl.backup) := by
  refine h.of_sameOff (.del (backup_mem ho)) ?_ (fun hw => ?_) fun ho => by simp
  · rw [Fs.get_del_of_ne sl.target_ne_backup, h.target]
  · rw [Fs.get_del_of_ne sl.stage_ne_backup_path, h.stage hw]

theorem restore {o : File} (h : sl.At pid t s (some (.file o)) fs)
    (ho : sl.original.isSome = true) :
    sl.At pid (some o) s none ((fs.del sl.backup).set sl.target (.file o)) := by
  refine h.of_sameOff ((Fs.SameOff.del (backup_mem ho)).trans (.set _ sl.target_mem)) (by simp)
    (fun hw => ?_) fun ho => ?_
  · rw [Fs.get_set_of_ne sl.target_ne_stage.symm, Fs.get_del_of_ne sl.stage_ne_backup_path,
      h.stage hw]
  · rw [Fs.get_set_of_ne sl.target_ne_backup.symm, Fs.get_del_self]

theorem moveAside {o : File} (h : sl.At pid (some o) s b fs) (ho : sl.original.isSome = true) :
    sl.At pid none s (some (.file o)) ((fs.del sl.target).set sl.backup (.file o)) := by
  refine h.of_sameOff ((Fs.SameOff.del sl.target_mem).trans (.set _ (backup_mem ho))) ?_
    (fun hw => ?_) fun ho => by simp
  · rw [Fs.get_set_of_ne sl.target_ne_backup, Fs.get_del_self]; rfl
  · rw [Fs.get_set_of_ne sl.stage_ne_backup_path, Fs.get_del_of_ne sl.target_ne_stage.symm,
      h.stage hw]

theorem install {f : File} (h : sl.At pid t (some (.file f)) b fs) (hw : sl.writes = true) :
    sl.At pid (some f) none b ((fs.del sl.stage).set sl.target (.file f)) := by
  refine h.of_sameOff ((Fs.SameOff.del (stage_mem hw)).trans (.set _ sl.target_mem)) (by simp)
    (fun hw => ?_) fun ho => ?_
  · rw [Fs.get_set_of_ne sl.target_ne_stage.symm, Fs.get_del_self]
  · rw [Fs.get_set_of_ne sl.target_ne_backup.symm, Fs.get_del_of_ne sl.stage_ne_backup_path.symm,
      h.backup ho]

end At

/-- Only the names of the slot differ from `fs`, and they are in a combination satisfying `K`. -/
def Inv (sl : Slot) (pid : FileIdentity) (K : Option File → Option Node → Option Node → Prop)
    (fs fs' : Fs) : Prop :=
  Fs.SameOff sl.names fs fs' ∧ ∃ t s b, sl.At pid t s b fs' ∧ K t s b

/-! ### Undoing an operation -/

section Rollback

variable {fail : Bool} {U : Fs → Prop} {G : ∀ ⦃β : Type⦄, Sys β → Fs → Prop} {fs₀ : Fs}

theorem Stable.cases (h : sl.Stable inst t s b) : (t = sl.original ∧ b = sl.occupant) ∨
    (sl.occupant = none ∧ t = none ∧ b = sl.originalNode) ∨
    ∃ contents mode i, sl.desired = .write contents mode ∧ inst = some i ∧
      sl.occupant = none ∧ t = some ⟨i, contents, mode⟩ ∧ b = sl.originalNode ∧ s = none := by
  unfold Stable at h
  split at h
  · exact .inl h
  · rename_i contents mode i hd
    obtain ⟨-, ⟨ht, hb, -⟩ | ⟨hocc, ht, hb, -⟩ | ⟨hocc, ht, hb, hs⟩⟩ := h
    · exact .inl ⟨ht, hb⟩
    · exact .inr (.inl ⟨hocc, ht, hb⟩)
    · exact .inr (.inr ⟨contents, mode, i, hd, rfl, hocc, by rw [ht, installed, hd], hb, hs⟩)
  · exact h.2.imp id .inl
  · exact h.elim

theorem Stable.stage_cases (h : sl.Stable inst t s b) : sl.writes = true ∧ inst = none ∨
    s = none ∨ ∃ contents mode i, sl.desired = .write contents mode ∧ inst = some i ∧
      s = some (.file ⟨i, contents, mode⟩) := by
  unfold Stable at h
  split at h
  · rename_i hd
    exact .inl ⟨by simp [writes, hd], rfl⟩
  · rename_i contents mode i hd
    have hi : (sl.installed i).map Node.file = some (.file ⟨i, contents, mode⟩) := by
      rw [installed, hd]; rfl
    obtain ⟨-, ⟨-, -, hs⟩ | ⟨-, -, -, hs⟩ | ⟨-, -, -, hs⟩⟩ := h
    · exact .inr (hs.imp id fun hs => ⟨contents, mode, i, hd, rfl, hs.trans hi⟩)
    · exact .inr (hs.imp id fun hs => ⟨contents, mode, i, hd, rfl, hs.trans hi⟩)
    · exact .inr (.inl hs)
  · exact .inr (.inl h.1)
  · exact h.elim

/-- A write whose staged identity `i` is known. -/
theorem stable_write {contents : Bytes} {mode : ℕ} {i : FileIdentity}
    (hd : sl.desired = .write contents mode) : sl.Stable (some i) t s b ↔
      (∀ o ∈ sl.original, o.identity ≠ i) ∧ sl.Midway i t s b := by
  unfold Stable
  rw [hd]

theorem stable_staging {contents : Bytes} {mode : ℕ} (hd : sl.desired = .write contents mode) :
    sl.Stable none t s b ↔ t = sl.original ∧ b = sl.occupant := by
  unfold Stable
  rw [hd]

theorem Stable.inst_of_remove (h : sl.Stable inst t s b) (hd : sl.desired = .remove) :
    inst = none := by
  unfold Stable at h
  rw [hd] at h
  cases inst with
  | none => rfl
  | some i => exact h.elim

/-- A target that looks installed is the installed file, or the absent target of a removal. -/
theorem Stable.of_matchesInstalled (h : sl.Stable inst t s b)
    (hm : (sl.operation sha256Bytes pid inst).matchesInstalled sha256Bytes t = true) :
    (inst = none ∧ sl.MovedRemoval t) ∨
      ∃ contents mode i, sl.desired = .write contents mode ∧ inst = some i ∧
        t = some ⟨i, contents, mode⟩ := by
  cases t with
  | none =>
    obtain ⟨rfl, hr⟩ := matchesInstalled_none.1 hm
    exact .inl ⟨rfl, hr, rfl⟩
  | some f =>
    obtain ⟨contents, mode, hd, hinst, -, -⟩ := matchesInstalled_some.1 hm
    subst hinst
    obtain ⟨hne, -⟩ := (stable_write hd).1 h
    rcases h.cases with ⟨ht, -⟩ | ⟨-, ht, -⟩ | ⟨contents, mode, i, hd, hi, -, ht, -⟩
    · exact absurd rfl (hne f ht.symm)
    · cases ht
    · exact .inr ⟨contents, mode, i, hd, hi, ht⟩

theorem Stable.del_target {contents : Bytes} {mode : ℕ} {i : FileIdentity}
    (h : sl.Stable (some i) (some ⟨i, contents, mode⟩) s b)
    (hd : sl.desired = .write contents mode) : sl.Stable (some i) none s b := by
  rcases h.cases with ⟨ht, -⟩ | ⟨-, ht, -⟩ | ⟨_, _, _, -, -, hocc, -, hb, hs⟩
  · exact absurd rfl (((stable_write hd).1 h).1 _ ht.symm)
  · cases ht
  · rw [stable_write hd] at h ⊢
    exact ⟨h.1, .inr (.inl ⟨hocc, rfl, hb, .inl hs⟩)⟩

theorem Stable.restore {o : File} (h : sl.Stable inst none s b) (ho : sl.original = some o) :
    sl.Stable inst sl.original s none ∧ b = some (.file o) := by
  have hnode : sl.originalNode = some (.file o) := by rw [originalNode, ho]; rfl
  unfold Stable at h ⊢
  split at h
  · rw [ho] at h; cases h.1
  · obtain ⟨hne, ⟨ht, -, -⟩ | ⟨hocc, -, hb, hs⟩ | ⟨hocc, -, hb, hs⟩⟩ := h
    · rw [ho] at ht; cases ht
    · exact ⟨⟨hne, .inl ⟨rfl, hocc.symm, hs⟩⟩, hb.trans hnode⟩
    · exact ⟨⟨hne, .inl ⟨rfl, hocc.symm, .inl hs⟩⟩, hb.trans hnode⟩
  · obtain ⟨hs, ⟨ht, -⟩ | ⟨hocc, -, hb⟩⟩ := h
    · rw [ho] at ht; cases ht
    · exact ⟨⟨hs, .inl ⟨rfl, hocc.symm⟩⟩, hb.trans hnode⟩
  · exact h.elim

theorem Stable.del_stage (h : sl.Stable inst t s b) : sl.Stable inst t none b := by
  unfold Stable at h ⊢
  split at h
  · exact h
  · obtain ⟨hne, ⟨ht, hb, -⟩ | ⟨hocc, ht, hb, -⟩ | ⟨hocc, ht, hb, -⟩⟩ := h
    · exact ⟨hne, .inl ⟨ht, hb, .inl rfl⟩⟩
    · exact ⟨hne, .inr (.inl ⟨hocc, ht, hb, .inl rfl⟩)⟩
    · exact ⟨hne, .inr (.inr ⟨hocc, ht, hb, rfl⟩)⟩
  · exact ⟨rfl, h.2⟩
  · exact h

/-- The backup name was free and the stage holds a regular file or nothing. -/
def Tidy (sl : Slot) (s : Option Node) : Prop := sl.occupant = none ∧ ∀ n ∈ s, ∃ f, n = .file f

/-- A kind of stable combinations that the steps of a rollback do not leave; under `C` nothing
foreign is in their way. -/
structure Undoable (sl : Slot) (C : Prop) (inst : Option FileIdentity)
    (K : Option File → Option Node → Option Node → Prop) : Prop where
  stable : ∀ {t s b}, K t s b → sl.Stable inst t s b
  tidy : ∀ {t s b}, K t s b → C → sl.Tidy s
  del_target : ∀ {contents mode i s b}, sl.desired = .write contents mode → inst = some i →
    K (some ⟨i, contents, mode⟩) s b → K none s b
  restore : ∀ {o s b}, sl.original = some o → K none s b → K sl.original s none
  del_stage : ∀ {t s b}, K t s b → K t none b

/-- The stable combinations. -/
def Kept (sl : Slot) (C : Prop) (inst : Option FileIdentity) (t : Option File)
    (s b : Option Node) : Prop :=
  sl.Stable inst t s b ∧ (C → sl.Tidy s)

/-- The stable combinations with the target untouched. -/
def Untouched (sl : Slot) (C : Prop) (inst : Option FileIdentity) (t : Option File)
    (s b : Option Node) : Prop :=
  sl.Kept C inst t s b ∧ t = sl.original ∧ b = sl.occupant

theorem Tidy.none (h : sl.Tidy s) : sl.Tidy none := ⟨h.1, fun _ hn => nomatch hn⟩

theorem undoable_kept (sl : Slot) (C : Prop) (inst : Option FileIdentity) :
    sl.Undoable C inst (sl.Kept C inst) where
  stable h := h.1
  tidy h := h.2
  del_target hd hi h := by
    subst hi
    exact ⟨h.1.del_target hd, h.2⟩
  restore ho h := ⟨(h.1.restore ho).1, h.2⟩
  del_stage h := ⟨h.1.del_stage, fun hC => (h.2 hC).none⟩

theorem undoable_untouched (sl : Slot) (C : Prop) (inst : Option FileIdentity) :
    sl.Undoable C inst (sl.Untouched C inst) where
  stable h := h.1.1
  tidy h := h.1.2
  del_target hd hi h := by
    subst hi
    exact absurd rfl (((stable_write hd).1 h.1.1).1 _ h.2.1.symm)
  restore ho h := by
    have := h.2.1
    rw [ho] at this
    cases this
  del_stage h := ⟨⟨h.1.1.del_stage, fun hC => (h.1.2 hC).none⟩, h.2⟩

variable {C : Prop} {K : Option File → Option Node → Option Node → Prop}

theorem rollbackTarget_safe {parent : ParentHandle} {Q : Except IoError (List String) → Fs → Prop}
    (hC : C → fail = false) (hfile : parent.file = sl.target)
    (hsame : Fs.SameOff sl.names fs₀ fs) (hat : sl.At pid t s b fs) (hst : K t s b)
    (hK : sl.Undoable C inst K) (hG : ∀ fs', sl.Inv pid K fs₀ fs' → AllOk G fs')
    (hQ : ∀ errors t' fs', Fs.SameOff sl.names fs₀ fs' → sl.At pid t' s b fs' → K t' s b →
      (errors = [] ∨ fail = false → t' = sl.original ∨ t' = none) →
      (errors = [] → ¬ sl.MovedRemoval t) → (C → ¬ sl.MovedRemoval t → errors = []) →
      Q (.ok errors) fs') :
    IoSafe fail U G Q
      (rollbackTarget sha256Bytes (sl.operation sha256Bytes pid inst) parent) fs := by
  have hall := hG fs ⟨hsame, t, s, b, hat, hst⟩
  have hnC : fail = true → ¬ C := fun hfail hc => by rw [hC hc] at hfail; cases hfail
  unfold rollbackTarget
  refine IoSafe.bind (IoSafe.attempt (readRegularWithMode_holds hat.holds_target hall.quiet ?_
    fun hfail e => IoSafe.pure (hQ _ t fs hsame hat hst (by simp [hfail]) (by simp)
      fun hc => absurd hc (hnC hfail))))
  refine IoSafe.ite (fun hm => ?_) fun hm => ?_
  · rcases (hK.stable hst).of_matchesInstalled hm with ⟨rfl, hmr⟩ | ⟨contents, mode, i, hd, rfl, rfl⟩
    · -- the removal's target is absent, and so is the proof of an installed file
      refine IoSafe.pure (hQ _ t fs hsame hat hst (fun _ => .inr hmr.2) (by simp) ?_)
      exact fun _ h => absurd hmr h
    · have hop : (sl.operation sha256Bytes pid (some i)).desiredDigest =
          some (sha256Bytes contents) := by simp [operation, hd]
      have hmode : (sl.operation sha256Bytes pid (some i)).desiredMode = some mode := by
        simp [operation, hd]
      have hnr : ¬ sl.MovedRemoval (some ⟨i, contents, mode⟩) := fun h => nomatch h.2
      have hsame' := hsame.trans (Fs.SameOff.del sl.target_mem : Fs.SameOff _ fs _)
      have hst' := hK.del_target hd rfl hst
      have hdone : ∀ errors, (errors = [] ∨ fail = true) → Q (.ok errors) (fs.del sl.target) :=
        fun errors herr => hQ errors none _ hsame' hat.del_target hst' (fun _ => .inr rfl)
          (fun _ => hnr) fun hc _ => herr.resolve_right fun hfail => hnC hfail hc
      rw [hop]
      refine IoSafe.bind (IoSafe.attempt (removeAtExactMode_holds
        (o := some ⟨i, contents, mode⟩) (hfile ▸ hat.holds_target) hall.quiet (fun h => nomatch h)
        (fun f hf hex => ?_) (fun f hf hex => absurd ?_ hex) fun hfail e => ?_))
      · rw [hfile]
        exact ⟨hall _, (hG _ ⟨hsame', none, s, b, hat.del_target, hst'⟩).quiet,
          IoSafe.pure (hdone _ (.inl rfl)), fun hfail e => IoSafe.pure (hdone _ (.inr hfail))⟩
      · cases hf
        exact ⟨rfl, rfl, by simp [hmode]⟩
      · exact IoSafe.pure (hQ _ _ fs hsame hat hst (by simp [hfail, labelled, errorTexts])
          (fun _ => hnr) fun hc => absurd hc (hnC hfail))
  · have hnr : ¬ sl.MovedRemoval t := by
      rintro ⟨hr, rfl⟩
      exact hm (matchesInstalled_none.2 ⟨(hK.stable hst).inst_of_remove hr, hr⟩)
    have ht : t = sl.original ∨ t = none := by
      rcases (hK.stable hst).cases with ⟨ht, -⟩ | ⟨-, ht, -⟩ | ⟨contents, mode, i, hd, rfl, -, rfl, -⟩
      · exact .inl ht
      · exact .inr ht
      · exact absurd (matchesInstalled_some.2 ⟨contents, mode, hd, rfl, rfl, rfl⟩) hm
    refine IoSafe.ite (fun hbad => absurd hbad ?_) fun _ =>
      IoSafe.pure (hQ [] t fs hsame hat hst (fun _ => ht) (fun _ => hnr) fun _ _ => rfl)
    rcases ht with rfl | rfl
    · simp [matchesOriginal_self]
    · simp

theorem restoreBackup_safe {backupParent targetParent : ParentHandle} {o : File}
    {Q : Except IoError Unit → Fs → Prop} (hb : backupParent.file = sl.backup)
    (ht : targetParent.file = sl.target) (ho : sl.original = some o)
    (hsame : Fs.SameOff sl.names fs₀ fs) (hat : sl.At pid none s (some (.file o)) fs)
    (hst : K none s (some (.file o))) (hK : sl.Undoable C inst K)
    (hG : ∀ fs', sl.Inv pid K fs₀ fs' → AllOk G fs')
    (hok : ∀ fs', Fs.SameOff sl.names fs₀ fs' → sl.At pid sl.original s none fs' → Q (.ok ()) fs')
    (herr : fail = true → ∀ e fs', Fs.SameOff sl.names fs₀ fs' →
      (sl.At pid none s (some (.file o)) fs' ∨ sl.At pid sl.original s none fs') →
      Q (.error e) fs') :
    IoSafe fail U G Q (restoreBackup sha256Bytes (sl.operation sha256Bytes pid inst) backupParent
      targetParent) fs := by
  have hall := hG fs ⟨hsame, _, s, _, hat, hst⟩
  have hsome : sl.original.isSome = true := by rw [ho]; rfl
  have hsame' := (hsame.trans (Fs.SameOff.del (backup_mem hsome) : Fs.SameOff _ fs _)).trans
    (.set (.file o) sl.target_mem)
  have hat' : sl.At pid sl.original s none ((fs.del sl.backup).set sl.target (.file o)) :=
    ho ▸ hat.restore hsome
  have hq := (hG _ ⟨hsame', _, s, _, hat', hK.restore ho hst⟩).quiet
  have herr' := fun hfail e => herr hfail e _ hsame' (.inr hat')
  unfold restoreBackup renameNoclobber
  rw [hb, ht]
  refine IoSafe.bind (renameNoReplace_safe (f := o) (hat.backup hsome) hat.holds_target (hall _) ?_
    fun hfail e => herr hfail e fs hsame (.inl hat))
  refine IoSafe.bind (syncParent_holds hat'.holds_target hq ?_ herr')
  unfold verifyOriginalRestored
  refine IoSafe.bind (readRegularWithMode_holds hat'.holds_target hq ?_ herr')
  exact IoSafe.ite (fun _ => IoSafe.pure (hok _ hsame' hat')) fun h =>
    absurd matchesOriginal_self h

/-- What the second part of a rollback leaves. -/
structure BackupDone (sl : Slot) (C : Prop) (fail : Bool) (errors : List String)
    (t' : Option File) (b' : Option Node) : Prop where
  target : errors = [] ∨ fail = false → t' = sl.original
  backup : errors = [] ∨ C → b' = sl.occupant
  ok_of : C → errors = []

theorem rollbackBackupAt_safe {backupParent targetParent : ParentHandle} {o : File}
    {Q : Except IoError (List String) → Fs → Prop} (hC : C → fail = false)
    (hb : backupParent.file = sl.backup) (ht : targetParent.file = sl.target)
    (ho : sl.original = some o) (hsame : Fs.SameOff sl.names fs₀ fs) (hat : sl.At pid t s b fs)
    (hst : K t s b) (hK : sl.Undoable C inst K)
    (hG : ∀ fs', sl.Inv pid K fs₀ fs' → AllOk G fs')
    (hQ : ∀ errors t' b' fs', Fs.SameOff sl.names fs₀ fs' → sl.At pid t' s b' fs' →
      K t' s b' → (t = sl.original ∨ t = none → sl.BackupDone C fail errors t' b') →
      Q (.ok errors) fs') :
    IoSafe fail U G Q (rollbackBackupAt sha256Bytes (sl.operation sha256Bytes pid inst)
      (.ofPath sl.backup) backupParent targetParent) fs := by
  have hall := hG fs ⟨hsame, t, s, b, hat, hst⟩
  have hsome : sl.original.isSome = true := by rw [ho]; rfl
  have hself : (sl.operation sha256Bytes pid inst).matchesOriginal sha256Bytes (some o) = true :=
    ho ▸ matchesOriginal_self
  -- a failed measurement leaves everything as it was
  have hfailed : ∀ error : String, ¬ C → t = sl.original ∨ fail = true → Q (.ok [error]) fs :=
    fun error hnC htf => hQ [error] t b fs hsame hat hst fun _ =>
      ⟨fun h => htf.resolve_right fun hfail => by simp [hfail] at h, by simp [hnC],
        fun hc => absurd hc hnC⟩
  have hnC : fail = true → ¬ C := fun hfail hc => by rw [hC hc] at hfail; cases hfail
  have hget := hat.backup hsome
  unfold rollbackBackupAt
  rcases (hK.stable hst).cases with ⟨rfl, hbo⟩ | ⟨hocc, rfl, hbo⟩ |
    ⟨contents, mode, i, hd, rfl, hocc, rfl, hbo, hs⟩
  · -- untouched; whatever is at the backup name stays there
    have hdone : Q (.ok []) fs :=
      hQ [] _ b fs hsame hat hst fun _ => ⟨fun _ => rfl, fun _ => hbo, fun _ => rfl⟩
    have hforeign : b ≠ none → ¬ C := fun hne hc => hne (hbo.trans (hK.tidy hst hc).1)
    have htarget : ∀ (k : Except IoError (Option File) → Io (List String)),
        IoSafe fail U G Q (k (.ok sl.original)) fs → (fail = true → ∀ e,
          IoSafe fail U G Q (k (.error e)) fs) → IoSafe fail U G Q
            (attempt (readRegularWithMode (.ofPath sl.target)) >>= k) fs := fun k hk hf =>
      IoSafe.bind (IoSafe.attempt (readRegularWithMode_holds hat.holds_target hall.quiet hk hf))
    refine IoSafe.bind (IoSafe.attempt (readRegularWithMode_located hat.located_backup hall.quiet
      (fun hn => ?_) (fun f hf => ?_) (fun n hn hnf e => ?_)
      fun hfail e => IoSafe.pure (hfailed _ (hnC hfail) (.inl rfl))))
    · refine IoSafe.ite (fun h => absurd (matchesOriginal_none.1 h) (by simp [ho])) fun _ => ?_
      refine htarget _ ?_ fun hfail e => IoSafe.pure (hfailed _ (hnC hfail) (.inl rfl))
      exact IoSafe.ite (fun _ => IoSafe.pure hdone) fun h => absurd matchesOriginal_self h
    · have hne : ¬ C := hforeign (by rw [← hget, hf]; exact Option.some_ne_none _)
      refine IoSafe.ite (fun _ => ?_) fun _ => IoSafe.pure (hfailed _ hne (.inl rfl))
      refine htarget _ ?_ fun _ e => IoSafe.pure (hfailed _ hne (.inl rfl))
      rw [ho]
      exact IoSafe.ite (fun _ => IoSafe.pure hdone) fun h => absurd hself h
    · exact IoSafe.pure (hfailed _ (hforeign (by rw [← hget, hn]; exact Option.some_ne_none _))
        (.inl rfl))
  · -- moved aside
    obtain rfl : b = some (.file o) := hbo.trans (by rw [originalNode, ho]; rfl)
    refine IoSafe.bind (IoSafe.attempt (readRegularWithMode_holds (o := some o)
      (hat.holds_backup hsome) hall.quiet ?_ fun hfail e => IoSafe.pure (hfailed _ (hnC hfail) (.inr hfail))))
    refine IoSafe.ite (fun _ => ?_) fun h => absurd hself h
    refine IoSafe.bind (IoSafe.attempt (readRegularWithMode_holds hat.holds_target hall.quiet ?_
      fun hfail e => IoSafe.pure (hfailed _ (hnC hfail) (.inr hfail))))
    refine IoSafe.bind (IoSafe.attempt (restoreBackup_safe hb ht ho hsame hat hst hK hG
      (fun fs' hs' hat' => ?_) fun hfail e fs' hs' hat' => ?_))
    · exact IoSafe.pure (hQ _ _ none fs' hs' hat' (hK.restore ho hst) fun _ =>
        ⟨fun _ => rfl, fun _ => hocc.symm, fun _ => rfl⟩)
    · have hne := hnC hfail
      rcases hat' with hat' | hat'
      · exact IoSafe.pure (hQ _ none _ fs' hs' hat' hst fun _ =>
          ⟨by simp [hfail, labelled, errorTexts], by simp [hne, labelled, errorTexts],
            fun hc => absurd hc hne⟩)
      · exact IoSafe.pure (hQ _ _ none fs' hs' hat' (hK.restore ho hst) fun _ =>
          ⟨fun _ => rfl, by simp [hne, labelled, errorTexts], fun hc => absurd hc hne⟩)
  · -- installed: the target is in the way
    obtain rfl : b = some (.file o) := hbo.trans (by rw [originalNode, ho]; rfl)
    have hnew : ¬ (some ⟨i, contents, mode⟩ = sl.original ∨ (some ⟨i, contents, mode⟩ : Option File)
        = none) := by
      rintro (h | h)
      · exact ((stable_write hd).1 (hK.stable hst)).1 _ h.symm rfl
      · cases h
    refine IoSafe.bind (IoSafe.attempt (readRegularWithMode_holds (o := some o)
      (hat.holds_backup hsome) hall.quiet ?_ fun hfail e => IoSafe.pure (hfailed _ (hnC hfail) (.inr hfail))))
    refine IoSafe.ite (fun _ => ?_) fun h => absurd hself h
    refine IoSafe.bind (IoSafe.attempt (readRegularWithMode_holds hat.holds_target hall.quiet ?_
      fun hfail e => IoSafe.pure (hfailed _ (hnC hfail) (.inr hfail))))
    exact IoSafe.ite (fun _ => IoSafe.pure (hQ _ _ _ fs hsame hat hst fun h => absurd h hnew))
      fun _ => IoSafe.pure (hQ _ _ _ fs hsame hat hst fun h => absurd h hnew)

theorem rollbackBackup_safe {targetParent : Except IoError ParentHandle}
    {Q : Except IoError (List String) → Fs → Prop} (hC : C → fail = false)
    (ht : ∀ parent, targetParent = .ok parent → parent.file = sl.target)
    (hsame : Fs.SameOff sl.names fs₀ fs) (hat : sl.At pid t s b fs) (hst : K t s b)
    (hK : sl.Undoable C inst K) (hG : ∀ fs', sl.Inv pid K fs₀ fs' → AllOk G fs')
    (hQ : ∀ errors t' b' fs', Fs.SameOff sl.names fs₀ fs' → sl.At pid t' s b' fs' →
      K t' s b' → ((∃ parent, targetParent = .ok parent) → t = sl.original ∨ t = none →
        sl.BackupDone C fail errors t' b') → Q (.ok errors) fs') :
    IoSafe fail U G Q
      (rollbackBackup sha256Bytes (sl.operation sha256Bytes pid inst) targetParent) fs := by
  have hall := hG fs ⟨hsame, t, s, b, hat, hst⟩
  unfold rollbackBackup
  cases ho : sl.original with
  | none =>
    have hbackup : (sl.operation sha256Bytes pid inst).backup = none := by simp [operation, ho]
    have hnode : sl.originalNode = none := by rw [originalNode, ho]; rfl
    rw [hbackup]
    have hb : b = sl.occupant := by
      rcases (hK.stable hst).cases with ⟨-, hb⟩ | ⟨hocc, -, hb⟩ | ⟨_, _, _, -, -, hocc, -, hb, -⟩
      · exact hb
      · rw [hb, hnode, hocc]
      · rw [hb, hnode, hocc]
    refine IoSafe.pure (hQ [] t b fs hsame hat hst fun _ htc =>
      ⟨fun _ => ?_, fun _ => hb, fun _ => rfl⟩)
    exact htc.elim id fun h => h.trans ho.symm
  | some o =>
    have hbackup : (sl.operation sha256Bytes pid inst).backup = some (.ofPath sl.backup) := by
      simp [operation, ho]
    rw [hbackup]
    refine IoSafe.bind (IoSafe.attempt (openParent_located hat.located_backup hall.quiet
      (fun h _ hfile _ => ?_) fun hfail e => ?_))
    · cases targetParent with
      | ok parent =>
        exact rollbackBackupAt_safe hC hfile (ht parent rfl) ho hsame hat hst hK hG
          fun errors t' b' fs' hs' hat' hst' hd => hQ errors t' b' fs' hs' hat' hst' fun _ => hd
      | error e => exact IoSafe.pure (hQ _ t b fs hsame hat hst fun ⟨_, h⟩ => nomatch h)
    · refine IoSafe.pure (hQ _ t b fs hsame hat hst fun _ _ => ?_)
      have hnC : ¬ C := fun hc => by rw [hC hc] at hfail; cases hfail
      exact ⟨by simp [hfail], by simp [hnC], fun hc => absurd hc hnC⟩

theorem removeOwnedStage_safe {Q : Except IoError Unit → Fs → Prop} (hw : sl.writes = true)
    (hat : sl.At pid t s b fs)
    (hs : inst = none ∨ s = none ∨ ∃ contents mode i, sl.desired = .write contents mode ∧
      inst = some i ∧ s = some (.file ⟨i, contents, mode⟩))
    (hG : AllOk G fs) (hG' : s ≠ none → AllOk G (fs.del sl.stage))
    (hnone : s = none → Q (.ok ()) fs) (hok : s ≠ none → Q (.ok ()) (fs.del sl.stage))
    (hother : ∀ n, s = some n → (∀ f, n ≠ .file f) → ∀ e, Q (.error e) fs)
    (herr : fail = true → ∀ e, Q (.error e) fs)
    (herr' : s ≠ none → fail = true → ∀ e, Q (.error e) (fs.del sl.stage)) :
    IoSafe fail U G Q
      (removeOwnedStage sha256Bytes (sl.operation sha256Bytes pid inst) (.ofPath sl.stage)) fs := by
  have hid : fs.get sl.stage.dropLast = some (.dir pid) := by simpa [stage] using hat.dir
  have hdel : s ≠ none → G (.unlink sl.stage) fs ∧ QuietOk G (fs.del sl.stage) ∧
      Q (.ok ()) (fs.del sl.stage) ∧ (fail = true → ∀ e, Q (.error e) (fs.del sl.stage)) :=
    fun h => ⟨hG _, (hG' h).quiet, hok h, herr' h⟩
  have hget := hat.stage hw
  unfold removeOwnedStage
  cases hi : inst with
  | none =>
    refine removeOperationAuxUnidentified_located hat.located_stage hid hG.quiet
      (fun h => hnone (hget.symm.trans h)) (fun f hf => hdel ?_)
      (fun n hn hnf => hother n (hget.symm.trans hn) hnf) herr
    rw [← hget, hf]
    exact Option.some_ne_none _
  | some i =>
    have hdig : ∃ contents mode, sl.desired = .write contents mode := by
      unfold writes at hw
      split at hw
      · exact ⟨_, _, ‹_›⟩
      · cases hw
    obtain ⟨contents, mode, hd⟩ := hdig
    have hdigest : (sl.operation sha256Bytes pid (some i)).desiredDigest =
        some (sha256Bytes contents) := by simp [operation, hd]
    have hmode : (sl.operation sha256Bytes pid (some i)).desiredMode = some mode := by
      simp [operation, hd]
    rw [hdigest, hmode]
    obtain h | rfl | ⟨contents', mode', i', hd', hi', rfl⟩ := hs
    · rw [hi] at h; cases h
    · exact removeOperationAuxExact_holds (o := none) ⟨hat.located_stage, hget⟩ hid hG.quiet
        (fun _ => hnone rfl) (fun f hf => nomatch hf) (fun f hf => nomatch hf) herr
    · rw [hd, DesiredState.write.injEq] at hd'
      obtain ⟨rfl, rfl⟩ := hd'
      rw [hi, Option.some.injEq] at hi'
      subst hi'
      refine removeOperationAuxExact_holds (o := some ⟨i, contents, mode⟩)
        ⟨hat.located_stage, hget⟩ hid hG.quiet (fun h => nomatch h)
        (fun f hf _ => hdel (Option.some_ne_none _)) (fun f hf hex => absurd ?_ hex) herr
      cases hf
      exact ⟨rfl, rfl, by simp⟩

theorem rollbackStage_safe {Q : Except IoError (List String) → Fs → Prop} (hC : C → fail = false)
    (hsame : Fs.SameOff sl.names fs₀ fs) (hat : sl.At pid t s b fs) (hst : K t s b)
    (hK : sl.Undoable C inst K) (hG : ∀ fs', sl.Inv pid K fs₀ fs' → AllOk G fs')
    (hQ : ∀ errors s' fs', Fs.SameOff sl.names fs₀ fs' → sl.At pid t s' b fs' →
      K t s' b → (errors = [] ∨ C → s' = none) → (C → errors = []) → Q (.ok errors) fs') :
    IoSafe fail U G Q (rollbackStage sha256Bytes (sl.operation sha256Bytes pid inst)) fs := by
  have hall := hG fs ⟨hsame, t, s, b, hat, hst⟩
  have hstable := hK.stable hst
  unfold rollbackStage
  cases hw : sl.writes with
  | false =>
    have hstage : (sl.operation sha256Bytes pid inst).stage = none := by simp [operation, hw]
    rw [hstage]
    refine IoSafe.pure (hQ [] s fs hsame hat hst (fun _ => ?_) fun _ => rfl)
    rcases hstable.stage_cases with ⟨h, -⟩ | h | ⟨_, _, _, hd, -, -⟩
    · rw [hw] at h; cases h
    · exact h
    · simp [writes, hd] at hw
  | true =>
    have hstage : (sl.operation sha256Bytes pid inst).stage = some (.ofPath sl.stage) := by
      simp [operation, hw]
    have hnC : fail = true → ¬ C := fun hfail hc => by rw [hC hc] at hfail; cases hfail
    rw [hstage]
    have hsame' := hsame.trans (Fs.SameOff.del (stage_mem hw) : Fs.SameOff _ fs _)
    have hgone : ∀ errors, (errors = [] ∨ ¬ C) → Q (.ok errors) (fs.del sl.stage) :=
      fun errors herr => hQ errors none _ hsame' (hat.del_stage hw) (hK.del_stage hst)
        (fun _ => rfl) fun hc => herr.resolve_right fun h => h hc
    have hstay : ∀ e : IoError, ¬ C → Q (.ok (labelled "remove stage: " (.error e : Except IoError
        Unit))) fs := fun e hne =>
      hQ _ s fs hsame hat hst (by simp [hne, labelled, errorTexts]) fun hc => absurd hc hne
    refine IoSafe.bind (IoSafe.attempt (removeOwnedStage_safe hw hat
      (hstable.stage_cases.imp (fun h => h.2) id) hall
      (fun _ => hG _ ⟨hsame', t, none, b, hat.del_stage hw, hK.del_stage hst⟩)
      (fun hs => IoSafe.pure (hQ _ s fs hsame hat hst (fun _ => hs) fun _ => rfl))
      (fun _ => IoSafe.pure (hgone _ (.inl rfl)))
      (fun n hn hnf e => IoSafe.pure (hstay e fun hc => ?_))
      (fun hfail e => IoSafe.pure (hstay e (hnC hfail)))
      fun _ hfail e => IoSafe.pure (hgone _ (.inr (hnC hfail)))))
    obtain ⟨f, hf⟩ := (hK.tidy hst hc).2 n hn
    exact hnf f hf

/-- What undoing an operation leaves: `ok` only with the original back at its target and no stage
beside it, and under `C` always that, the answer being an error only for a removal whose original
had been moved aside.  Without failures the original is back in any case. -/
structure RolledBack (sl : Slot) (C : Prop) (fail : Bool) (t : Option File) (ok : Bool)
    (t' : Option File) (s' b' : Option Node) : Prop where
  target : fail = false → t' = sl.original
  clean : ok = true ∨ C → t' = sl.original ∧ s' = none ∧ b' = sl.occupant
  not_moved : ok = true → ¬ sl.MovedRemoval t
  ok_of : C → ¬ sl.MovedRemoval t → ok = true

/-- **Undoing one operation** from any stable combination. -/
theorem rollbackOperation_safe {Q : Except IoError Unit → Fs → Prop} (hC : C → fail = false)
    (hsame : Fs.SameOff sl.names fs₀ fs) (hat : sl.At pid t s b fs) (hst : K t s b)
    (hK : sl.Undoable C inst K) (hG : ∀ fs', sl.Inv pid K fs₀ fs' → AllOk G fs')
    (hQ : ∀ (r : Except IoError Unit) t' s' b' fs', Fs.SameOff sl.names fs₀ fs' →
      sl.At pid t' s' b' fs' → K t' s' b' → sl.RolledBack C fail t r.isOk t' s' b' → Q r fs') :
    IoSafe fail U G Q (rollbackOperation sha256Bytes (sl.operation sha256Bytes pid inst)) fs := by
  have hall := hG fs ⟨hsame, t, s, b, hat, hst⟩
  have herr : fail = true → ∀ (e : IoError) t' s' b' fs', Fs.SameOff sl.names fs₀ fs' →
      sl.At pid t' s' b' fs' → K t' s' b' → Q (.error e) fs' := by
    intro hfail e t' s' b' fs' hs' hat' hst'
    have hnC : ¬ C := fun hc => by rw [hC hc] at hfail; cases hfail
    exact hQ (.error e) t' s' b' fs' hs' hat' hst' ⟨by simp [hfail],
      by simp [hnC, Except.isOk, Except.toBool], by simp [Except.isOk, Except.toBool], fun hc => absurd hc hnC⟩
  unfold rollbackOperation
  refine IoSafe.bind (IoSafe.attempt (openParent_located hat.holds_target.toLocated hall.quiet
    (fun parent ho hfile hdir => ?_) fun hfail e => ?_))
  · -- the target's directory is the journalled one
    have hfd : parent.fd = pid := by
      have := ho.dir
      rw [hdir, target, List.dropLast_concat, hat.dir, Option.some.injEq, Node.dir.injEq] at this
      exact this.symm
    refine IoSafe.bind (IoSafe.bind (fstat_safe hall.quiet ?_
      fun hfail => herr hfail _ t s b fs hsame hat hst))
    refine IoSafe.ite (fun _ => IoSafe.pure ?_) fun hne => absurd hfd hne
    refine IoSafe.bind (rollbackTarget_safe hC hfile hsame hat hst hK hG
      fun errors₁ t₁ fs₁ hs₁ hat₁ hst₁ ht₁ hnr hok₁ => ?_)
    refine IoSafe.bind (rollbackBackup_safe hC (fun p hp => by cases hp; exact hfile) hs₁ hat₁ hst₁
      hK hG fun errors₂ t₂ b₂ fs₂ hs₂ hat₂ hst₂ hd₂ => ?_)
    replace hd₂ := hd₂ ⟨parent, rfl⟩
    refine IoSafe.bind (rollbackStage_safe hC hs₂ hat₂ hst₂ hK hG
      fun errors₃ s₃ fs₃ hs₃ hat₃ hst₃ hd₃ hok₃ => ?_)
    have htarget : fail = false → t₂ = sl.original := fun hfail =>
      (hd₂ (ht₁ (.inr hfail))).target (.inr hfail)
    have hclean : (errors₁ = [] ∧ errors₂ = [] ∧ errors₃ = []) ∨ C →
        t₂ = sl.original ∧ s₃ = none ∧ b₂ = sl.occupant := by
      intro h
      have hb := hd₂ (ht₁ (h.imp (fun h => h.1) hC))
      exact ⟨hb.target (h.imp (fun h => h.2.1) hC), hd₃ (h.imp (fun h => h.2.2) id),
        hb.backup (h.imp (fun h => h.2.1) id)⟩
    refine IoSafe.ite (fun hnil => IoSafe.pure ?_) fun hnil => IoSafe.throw ?_
    · simp only [labelled, errorTexts, List.map_nil, List.nil_append, List.append_eq_nil_iff,
        and_assoc] at hnil
      exact hQ _ t₂ s₃ b₂ fs₃ hs₃ hat₃ hst₃ ⟨htarget, fun _ => hclean (.inl hnil),
        fun _ => hnr hnil.1, fun _ _ => rfl⟩
    · refine hQ _ t₂ s₃ b₂ fs₃ hs₃ hat₃ hst₃ ⟨htarget,
        fun h => hclean (.inr (h.resolve_left ?_)), (fun h => nomatch h), fun hc hmr => absurd ?_ hnil⟩
      · exact fun h => nomatch h
      · have h₁ := hok₁ hc hmr
        have h₂ := (hd₂ (ht₁ (.inl h₁))).ok_of hc
        simp [labelled, errorTexts, h₁, h₂, hok₃ hc]
  · -- without the target's directory only the stage is dealt with, and the answer is an error
    refine IoSafe.bind (IoSafe.pure (IoSafe.bind (IoSafe.pure ?_)))
    refine IoSafe.bind (rollbackBackup_safe hC (fun p hp => nomatch hp) hsame hat hst hK hG
      fun errors₂ t₂ b₂ fs₂ hs₂ hat₂ hst₂ _ => ?_)
    refine IoSafe.bind (rollbackStage_safe hC hs₂ hat₂ hst₂ hK hG
      fun errors₃ s₃ fs₃ hs₃ hat₃ hst₃ _ _ => ?_)
    refine IoSafe.ite (fun hnil => ?_) fun _ => IoSafe.throw (herr hfail _ t₂ s₃ b₂ fs₃ hs₃ hat₃ hst₃)
    simp [labelled, errorTexts] at hnil

end Rollback

/-! ### Applying an operation -/

section Apply

variable {ext : Externals} {fail : Bool} {U : Fs → Prop}
  {G : ∀ ⦃β : Type⦄, Sys β → Fs → Prop} {fs₀ : Fs} {C : Prop}

/-- The target once the change is applied; `inst` is the identity of the staged file. -/
def final (sl : Slot) (inst : Option FileIdentity) : Option File := inst.bind sl.installed

/-- The complete stage of the change. -/
def staged (sl : Slot) (inst : Option FileIdentity) : Option Node := (sl.final inst).map .file

/-- The recorded identity belongs to a staged write, and to nothing else. -/
structure Recorded (sl : Slot) (inst : Option FileIdentity) : Prop where
  isSome : inst.isSome = sl.writes
  fresh : ∀ o ∈ sl.original, inst ≠ some o.identity

theorem Kept.moveAside (h : sl.Kept C inst sl.original s sl.occupant) (hr : sl.Recorded inst)
    (hocc : sl.occupant = none) : sl.Kept C inst none s sl.originalNode := by
  refine ⟨?_, h.2⟩
  obtain ⟨h, -⟩ := h
  replace hr := hr.isSome
  unfold writes at hr
  unfold Stable at h ⊢
  split at h
  · simp_all
  · obtain ⟨hne, ⟨-, -, hs⟩ | ⟨-, -, -, hs⟩ | ⟨-, -, -, hs⟩⟩ := h
    · exact ⟨hne, .inr (.inl ⟨hocc, rfl, rfl, hs⟩)⟩
    · exact ⟨hne, .inr (.inl ⟨hocc, rfl, rfl, hs⟩)⟩
    · exact ⟨hne, .inr (.inl ⟨hocc, rfl, rfl, .inl hs⟩)⟩
  · exact ⟨h.1, .inr ⟨hocc, rfl, rfl⟩⟩
  · exact h

theorem moveAside_safe {parent : ParentHandle} {o : File} {Q : Except IoError Unit → Fs → Prop}
    (hC : C → fail = false) (hfile : parent.file = sl.target) (ho : sl.original = some o)
    (hsame : Fs.SameOff sl.names fs₀ fs) (hat : sl.At pid sl.original s sl.occupant fs)
    (hst : sl.Kept C inst sl.original s sl.occupant) (hr : sl.Recorded inst)
    (hG : ∀ fs', sl.Inv pid (sl.Kept C inst) fs₀ fs' → AllOk G fs')
    (hok : sl.occupant = none → ∀ fs', Fs.SameOff sl.names fs₀ fs' →
      sl.At pid none s sl.originalNode fs' → Q (.ok ()) fs')
    (herr : ¬ C → ∀ e t' b' fs', Fs.SameOff sl.names fs₀ fs' → sl.At pid t' s b' fs' →
      sl.Kept C inst t' s b' → Q (.error e) fs') :
    IoSafe fail U G Q (ArosTools.moveAside ext (sl.operation ext.sha256Bytes pid inst) parent
      (.ofPath sl.backup)) fs := by
  have hall := hG fs ⟨hsame, _, s, _, hat, hst⟩
  have hsome : sl.original.isSome = true := by rw [ho]; rfl
  have hnode : sl.originalNode = some (.file o) := by rw [originalNode, ho]; rfl
  have hnC : fail = true → ¬ C := fun hfail hc => by rw [hC hc] at hfail; cases hfail
  have hsame' := (hsame.trans (Fs.SameOff.del sl.target_mem : Fs.SameOff _ fs _)).trans
    (.set (.file o) (backup_mem hsome))
  have hat' : sl.At pid none s (some (.file o)) ((fs.del sl.target).set sl.backup (.file o)) :=
    (ho ▸ hat : sl.At pid (some o) s sl.occupant fs).moveAside hsome
  have herr₀ := fun hfail e => herr (hnC hfail) e _ _ fs hsame hat hst
  unfold ArosTools.moveAside renameNoclobber
  refine IoSafe.bind (openParent_located hat.located_backup hall.quiet
    (fun backup _ hbackup _ => ?_) herr₀)
  refine IoSafe.bind (?_ : IoSafe fail U G _ (sys (.renameNoReplace parent.file backup.file)) fs)
  rw [hfile, hbackup]
  refine renameNoReplace_located (f := o) (by rw [hat.target, ho]; rfl) hat.located_backup
    (hall _) (fun hfree => ?_) (fun hbound e => ?_) herr₀
  · have hocc : sl.occupant = none := (hat.backup hsome).symm.trans hfree
    have hst' : sl.Kept C inst none s (some (.file o)) := hnode ▸ hst.moveAside hr hocc
    have hq := (hG _ ⟨hsame', _, s, _, hat', hst'⟩).quiet
    have herr' := fun hfail e => herr (hnC hfail) e _ _ _ hsame' hat' hst'
    refine IoSafe.bind (readRegularWithMode_holds (o := some o) (hat'.holds_backup hsome) hq ?_
      herr')
    refine IoSafe.ite (fun _ => ?_) fun h => absurd (ho ▸ matchesOriginal_self) h
    exact syncParent_holds hat'.holds_target hq (hok hocc _ hsame' (hnode ▸ hat')) herr'
  · -- the backup name is taken
    refine herr (fun hc => hbound ?_) e _ _ fs hsame hat hst
    exact (hat.backup hsome).trans (hst.2 hc).1

theorem installStage_safe {parent : ParentHandle} {contents : Bytes} {mode : ℕ} {i : FileIdentity}
    {Q : Except IoError Unit → Fs → Prop} (hC : C → fail = false) (hfile : parent.file = sl.target)
    (hd : sl.desired = .write contents mode) (hocc : sl.occupant = none)
    (hsame : Fs.SameOff sl.names fs₀ fs)
    (hat : sl.At pid none (some (.file ⟨i, contents, mode⟩)) sl.originalNode fs)
    (hst : sl.Kept C (some i) none (some (.file ⟨i, contents, mode⟩)) sl.originalNode)
    (hG : ∀ fs', sl.Inv pid (sl.Kept C (some i)) fs₀ fs' → AllOk G fs')
    (hok : ∀ fs', Fs.SameOff sl.names fs₀ fs' →
      sl.At pid (some ⟨i, contents, mode⟩) none sl.originalNode fs' →
      sl.Kept C (some i) (some ⟨i, contents, mode⟩) none sl.originalNode → Q (.ok ()) fs')
    (herr : ¬ C → ∀ e t' s' b' fs', Fs.SameOff sl.names fs₀ fs' → sl.At pid t' s' b' fs' →
      sl.Kept C (some i) t' s' b' → Q (.error e) fs') :
    IoSafe fail U G Q (installStage ext (sl.operation ext.sha256Bytes pid (some i)) parent
      (.ofPath sl.stage)) fs := by
  have hall := hG fs ⟨hsame, _, _, _, hat, hst⟩
  have hw : sl.writes = true := by simp [writes, hd]
  have hnC : fail = true → ¬ C := fun hfail hc => by rw [hC hc] at hfail; cases hfail
  have hsame' := (hsame.trans (Fs.SameOff.del (stage_mem hw) : Fs.SameOff _ fs _)).trans
    (.set (.file ⟨i, contents, mode⟩) sl.target_mem)
  have hat' := hat.install hw
  have hst' : sl.Kept C (some i) (some ⟨i, contents, mode⟩) none sl.originalNode := by
    refine ⟨?_, fun hc => (hst.2 hc).none⟩
    have := hst.1
    rw [stable_write hd] at this ⊢
    exact ⟨this.1, .inr (.inr ⟨hocc, by rw [installed, hd], rfl, rfl⟩)⟩
  have hq := (hG _ ⟨hsame', _, _, _, hat', hst'⟩).quiet
  have herr' := fun hfail e => herr (hnC hfail) e _ _ _ _ hsame' hat' hst'
  have herr₀ := fun hfail e => herr (hnC hfail) e _ _ _ fs hsame hat hst
  have hmatch : (sl.operation ext.sha256Bytes pid (some i)).matchesInstalled ext.sha256Bytes
      (some ⟨i, contents, mode⟩) = true :=
    matchesInstalled_some.2 ⟨contents, mode, hd, rfl, rfl, rfl⟩
  unfold installStage renameNoclobber
  refine IoSafe.bind (readRegularWithMode_holds (o := some ⟨i, contents, mode⟩)
    (hat.holds_stage hw) hall.quiet ?_ herr₀)
  refine IoSafe.ite (fun _ => ?_) fun h => absurd hmatch h
  refine IoSafe.bind (openParent_located hat.located_stage hall.quiet
    (fun stage _ hstage _ => ?_) herr₀)
  refine IoSafe.bind (?_ : IoSafe fail U G _ (sys (.renameNoReplace stage.file parent.file)) fs)
  rw [hfile, hstage]
  refine renameNoReplace_safe (f := ⟨i, contents, mode⟩) (hat.stage hw) hat.holds_target (hall _)
    ?_ herr₀
  refine IoSafe.bind (readRegularWithMode_holds hat'.holds_target hq ?_ herr')
  refine IoSafe.ite (fun _ => ?_) fun h => absurd hmatch h
  exact syncParent_holds hat'.holds_target hq (hok _ hsame' hat' hst') herr'

/-- The stage of an operation, once the original is out of the way. -/
theorem installOperation_safe {Q : Except IoError Unit → Fs → Prop} (hC : C → fail = false)
    (hr : sl.Recorded inst) (hG : ∀ fs', sl.Inv pid (sl.Kept C inst) fs₀ fs' → AllOk G fs')
    (hok : ∀ fs', Fs.SameOff sl.names fs₀ fs' →
      sl.At pid (sl.final inst) none sl.originalNode fs' →
      sl.Kept C inst (sl.final inst) none sl.originalNode → Q (.ok ()) fs')
    (herr : ¬ C → ∀ e t' s' b' fs', Fs.SameOff sl.names fs₀ fs' → sl.At pid t' s' b' fs' →
      sl.Kept C inst t' s' b' → Q (.error e) fs')
    {parent : ParentHandle} (hfile : parent.file = sl.target) (hocc : sl.occupant = none) {fs' : Fs}
    (hs' : Fs.SameOff sl.names fs₀ fs')
    (hat' : sl.At pid none (sl.staged inst) sl.originalNode fs')
    (hst' : sl.Kept C inst none (sl.staged inst) sl.originalNode) :
    IoSafe fail U G Q (match (sl.operation ext.sha256Bytes pid inst).stage with
      | some stagePath => installStage ext (sl.operation ext.sha256Bytes pid inst) parent stagePath
      | none => pure ()) fs' := by
  cases hd : sl.desired with
  | write contents mode =>
    have hw : sl.writes = true := by simp [writes, hd]
    obtain ⟨i, rfl⟩ := Option.isSome_iff_exists.1 (hr.isSome.trans hw)
    have hfin : sl.final (some i) = some ⟨i, contents, mode⟩ := by simp [final, installed, hd]
    have hstaged : sl.staged (some i) = some (.file ⟨i, contents, mode⟩) := by
      rw [staged, hfin]; rfl
    have hstage : (sl.operation ext.sha256Bytes pid (some i)).stage =
        some (.ofPath sl.stage) := by simp [operation, hw]
    rw [hstage]
    rw [hstaged] at hat' hst'
    rw [hfin] at hok
    exact installStage_safe hC hfile hd hocc hs' hat' hst' hG hok herr
  | remove =>
    have hw : sl.writes = false := by simp [writes, hd]
    have hstage : (sl.operation ext.sha256Bytes pid inst).stage = none := by simp [operation, hw]
    have hfin : sl.final inst = none := by
      cases inst <;> simp [final, installed, hd]
    have hstaged : sl.staged inst = none := by rw [staged, hfin]; rfl
    rw [hstage]
    rw [hstaged] at hat' hst'
    rw [hfin] at hok
    exact IoSafe.pure (hok fs' hs' hat' hst')

/-- **Applying one operation** whose file is staged and whose target is untouched. -/
theorem applyOperation_safe {Q : Except IoError Unit → Fs → Prop} (hC : C → fail = false)
    (hsame : Fs.SameOff sl.names fs₀ fs)
    (hat : sl.At pid sl.original (sl.staged inst) sl.occupant fs)
    (hst : sl.Kept C inst sl.original (sl.staged inst) sl.occupant) (hr : sl.Recorded inst)
    (hG : ∀ fs', sl.Inv pid (sl.Kept C inst) fs₀ fs' → AllOk G fs')
    (hok : ∀ fs', Fs.SameOff sl.names fs₀ fs' →
      sl.At pid (sl.final inst) none sl.originalNode fs' →
      sl.Kept C inst (sl.final inst) none sl.originalNode → Q (.ok ()) fs')
    (herr : ¬ C → ∀ e t' s' b' fs', Fs.SameOff sl.names fs₀ fs' → sl.At pid t' s' b' fs' →
      sl.Kept C inst t' s' b' → Q (.error e) fs') :
    IoSafe fail U G Q (applyOperation ext (sl.operation ext.sha256Bytes pid inst)) fs := by
  have hall := hG fs ⟨hsame, _, _, _, hat, hst⟩
  have hnC : fail = true → ¬ C := fun hfail hc => by rw [hC hc] at hfail; cases hfail
  have herr₀ := fun hfail e => herr (hnC hfail) e _ _ _ fs hsame hat hst
  unfold applyOperation
  refine IoSafe.bind (openParent_located hat.holds_target.toLocated hall.quiet
    (fun parent ho hfile hdir => ?_) herr₀)
  have hfd : parent.fd = pid := by
    have := ho.dir
    rw [hdir, target, List.dropLast_concat, hat.dir, Option.some.injEq, Node.dir.injEq] at this
    exact this.symm
  refine IoSafe.bind (fstat_safe hall.quiet ?_ fun hfail => herr₀ hfail _)
  refine IoSafe.ite (fun hne => absurd hfd hne) fun _ => ?_
  refine IoSafe.bind (readRegularWithMode_holds hat.holds_target hall.quiet ?_ herr₀)
  refine IoSafe.ite (fun _ => ?_) fun h => absurd matchesOriginal_self h
  cases ho : sl.original with
  | none =>
    have hbackup : (sl.operation ext.sha256Bytes pid inst).backup = none := by simp [operation, ho]
    have hocc := sl.occupant_of_create ho
    have hnode : sl.originalNode = none := by rw [originalNode, ho]; rfl
    rw [hbackup]
    rw [ho, hocc, ← hnode] at hat hst
    exact installOperation_safe hC hr hG hok herr hfile hocc hsame hat hst
  | some o =>
    have hbackup : (sl.operation ext.sha256Bytes pid inst).backup = some (.ofPath sl.backup) := by
      simp [operation, ho]
    rw [hbackup]
    exact IoSafe.bind (moveAside_safe hC hfile ho hsame hat hst hr hG
      (fun hocc fs' hs' hat' => installOperation_safe hC hr hG hok herr hfile hocc hs' hat'
        (hst.moveAside hr hocc))
      fun hne e t' b' fs' hs' hat' hst' => herr hne e t' _ b' fs' hs' hat' hst')

end Apply

/-! ### Cleaning up after the commit -/

section Cleanup

variable {fail : Bool} {U : Fs → Prop} {G : ∀ ⦃β : Type⦄, Sys β → Fs → Prop}
  {Q : Except IoError Unit → Fs → Prop}

theorem cleanupStage_safe (hat : sl.At pid t none b fs) (hG : AllOk G fs) (hok : Q (.ok ()) fs)
    (herr : fail = true → ∀ e, Q (.error e) fs) :
    IoSafe fail U G Q (cleanupStage sha256Bytes (sl.operation sha256Bytes pid inst)) fs := by
  unfold cleanupStage
  cases hw : sl.writes with
  | false =>
    have hstage : (sl.operation sha256Bytes pid inst).stage = none := by simp [operation, hw]
    rw [hstage]
    exact IoSafe.pure hok
  | true =>
    have hstage : (sl.operation sha256Bytes pid inst).stage = some (.ofPath sl.stage) := by
      simp [operation, hw]
    rw [hstage]
    exact removeOwnedStage_safe hw hat (.inr (.inl rfl)) hG (fun h => absurd rfl h) (fun _ => hok)
      (fun h => absurd rfl h) (fun _ h => nomatch h) herr fun h => absurd rfl h

theorem cleanupBackup_safe (hat : sl.At pid t s b fs) (hb : b = sl.originalNode ∨ b = none)
    (hG : AllOk G fs) (hG' : b ≠ none → AllOk G (fs.del sl.backup))
    (hok : ∀ fs', Fs.SameOff sl.names fs fs' → sl.At pid t s none fs' → Q (.ok ()) fs')
    (herr : fail = true → ∀ e fs', Fs.SameOff sl.names fs fs' →
      (sl.At pid t s b fs' ∨ sl.At pid t s none fs') → Q (.error e) fs') :
    IoSafe fail U G Q (cleanupBackup sha256Bytes (sl.operation sha256Bytes pid inst)) fs := by
  have hsame := Fs.SameOff.refl sl.names fs
  unfold cleanupBackup
  cases ho : sl.original with
  | none =>
    have hbackup : (sl.operation sha256Bytes pid inst).backup = none := by simp [operation, ho]
    rw [hbackup]
    exact IoSafe.pure (hok fs hsame ⟨hat.dirs, hat.dir, hat.target, hat.stage,
      fun h => by rw [ho] at h; cases h⟩)
  | some o =>
    have hsome : sl.original.isSome = true := by rw [ho]; rfl
    have hbackup : (sl.operation sha256Bytes pid inst).backup = some (.ofPath sl.backup) := by
      simp [operation, ho]
    have horig : (sl.operation sha256Bytes pid inst).original = some o.identity := by
      simp [operation, ho]
    have hdigest : (sl.operation sha256Bytes pid inst).originalDigest =
        some (sha256Bytes o.bytes) := by simp [operation, ho]
    have hmode : (sl.operation sha256Bytes pid inst).originalMode = some o.mode := by
      simp [operation, ho]
    have hid : fs.get sl.backup.dropLast = some (.dir pid) := by simpa [backup] using hat.dir
    have hsame' : Fs.SameOff sl.names fs (fs.del sl.backup) := .del (backup_mem hsome)
    have hat' := hat.del_backup hsome
    rw [hbackup, horig, hdigest, hmode]
    have hdel : b ≠ none → G (.unlink sl.backup) fs ∧ QuietOk G (fs.del sl.backup) ∧
        Q (.ok ()) (fs.del sl.backup) ∧ (fail = true → ∀ e, Q (.error e) (fs.del sl.backup)) :=
      fun hne => ⟨hG _, (hG' hne).quiet, hok _ hsame' hat',
        fun hfail e => herr hfail e _ hsame' (.inr hat')⟩
    have herr₀ := fun hfail e => herr hfail e fs hsame (.inl hat)
    rcases hb with rfl | rfl
    · have hnode : sl.originalNode = some (.file o) := by rw [originalNode, ho]; rfl
      rw [hnode] at hat hdel
      refine removeOperationAuxExact_holds (o := some o) (hat.holds_backup hsome) hid hG.quiet
        (fun h => nomatch h) (fun f hf _ => hdel (Option.some_ne_none _))
        (fun f hf hex => absurd ?_ hex) herr₀
      cases hf
      exact ⟨rfl, rfl, by simp⟩
    · exact removeOperationAuxExact_holds (o := none) (hat.holds_backup hsome) hid hG.quiet
        (fun _ => hok fs hsame hat) (fun _ h => nomatch h) (fun _ h => nomatch h) herr₀

end Cleanup

/-- What happens at names that are not, and do not contain, names of the slot leaves the slot as
it is. -/
theorem At.frame {X : List Path} {fs' : Fs} (h : sl.At pid t s b fs) (hs : Fs.SameOff X fs fs')
    (hX : ∀ p ∈ X, ∀ q ∈ sl.names, ¬ p <+: q) : sl.At pid t s b fs' := by
  have hdir : ∀ q, q <+: sl.dir → q ∉ X := fun q hq hqX =>
    hX q hqX _ sl.target_mem (hq.trans (List.prefix_append _ _))
  have hname : ∀ q ∈ sl.names, q ∉ X := fun q hq hqX => hX q hqX q hq (List.prefix_refl q)
  refine ⟨hs.dirs h.dirs hdir, ?_, ?_, fun hw => ?_, fun ho => ?_⟩
  · rw [hs.get _ (hdir _ (List.prefix_refl _)), h.dir]
  · rw [hs.get _ (hname _ sl.target_mem), h.target]
  · rw [hs.get _ (hname _ (stage_mem hw)), h.stage hw]
  · rw [hs.get _ (hname _ (backup_mem ho)), h.backup ho]

end Slot

end ArosTools
