import ArosTools.Program.Except
import ArosTools.Publication.JournalRules
import ArosTools.Publication.Recovery
import ArosTools.Publication.Json

/-!
# What recovery may touch

Recovery believes its journal only as far as the filesystem bears it out.  `Confined` lists the
calls it may issue, for any bytes in the journal and any files on disk: it removes a target, a
stage or a backup that has the journalled snapshot, a stage that no snapshot was journalled for,
an owned journal stage, and the journal; it renames a backup with the journalled snapshot onto its
target, without replacing anything; and it changes nothing else.

* `validateJournal_ok` : what a journal that passes validation looks like.
* `recovery_confined` : every call of every recovery is one of these.
-/

namespace ArosTools

open Sys

/-! ### Journals that pass validation -/

/-- The name derived from a target for a purpose. -/
def derivedName (sha256Bytes : Bytes → Sha256Digest) (target : Path) (purpose : String)
    (number : ℕ) : Path :=
  target.dropLast ++ [siblingName sha256Bytes (target.getLast?.getD []) purpose number]

/-- The older schema, which does not record permission bits. -/
def Journal.Modeless (journal : Journal) : Prop := journal.schema = "aros-publication-journal-v2"

/-- The operation with number `index` of a journal in the directory `dir`, and its target. -/
structure ValidOperation (sha256Bytes : Bytes → Sha256Digest) (dir : Path) (journal : Journal)
    (index : ℕ) (o : JournalOperation) (target : Path) : Prop where
  operation : journal.operations[index]? = some o
  target_eq : o.target = .ofPath target
  below : dir <+: target
  ne_dir : target ≠ dir
  stage : ∀ p ∈ o.stage,
    p = .ofPath (derivedName sha256Bytes target "stage" (addU64 journal.nonce index))
  backup : ∀ p ∈ o.backup,
    p = .ofPath (derivedName sha256Bytes target "backup" (addU64 journal.nonce index))
  backup_original : o.backup.isSome = o.original.isSome
  stage_desired : o.stage.isSome = o.desiredDigest.isSome
  installed_stage : o.installed.isSome = true → o.stage.isSome = true
  /-- Only the older schema leaves out the permission bits. -/
  modes : (o.originalMode.isSome = o.original.isSome ∧ o.desiredMode.isSome = o.stage.isSome) ∨
    journal.Modeless ∧ o.originalMode = none ∧ o.desiredMode = none

/-- The components of a path that has a collision key are names. -/
theorem casefoldPathKey_names {path : PathBuf} {key : Bytes} (h : casefoldPathKey path = .ok key) :
    ∃ names : Path, names ≠ [] ∧ path.components = names.map .normal := by
  unfold casefoldPathKey at h
  obtain ⟨-, h⟩ := ite_throw_ok h
  obtain ⟨folded, hf, h⟩ := Except.bind_ok h
  obtain ⟨hne, -⟩ := ite_error_ok h
  generalize path.components = cs at hf
  suffices hall : ∃ names : Path, names.length = folded.length ∧ cs = names.map .normal by
    obtain ⟨names, hlen, rfl⟩ := hall
    refine ⟨names, fun hnil => hne ?_, rfl⟩
    subst hnil
    exact List.length_eq_zero_iff.1 hlen.symm
  clear h hne
  induction cs generalizing folded with
  | nil =>
    rw [List.mapM_nil] at hf
    cases hf
    exact ⟨[], rfl, rfl⟩
  | cons c cs ih =>
    rw [List.mapM_cons] at hf
    obtain ⟨f, hc, hf⟩ := Except.bind_ok hf
    obtain ⟨fs, hfs, hf⟩ := Except.bind_ok hf
    cases hf
    obtain ⟨names, hlen, rfl⟩ := ih fs hfs
    cases c with
    | normal n => exact ⟨n :: names, by simp [hlen], rfl⟩
    | parentDir => cases hc
    | curDir => cases hc

theorem stripPrefix_components {p base rel : PathBuf} (h : p.stripPrefix base = some rel) :
    p.absolute = base.absolute ∧ p.components = base.components ++ rel.components := by
  unfold PathBuf.stripPrefix at h
  split at h
  · next hc =>
    cases h
    refine ⟨hc.1, ?_⟩
    obtain ⟨rest, hrest⟩ := List.isPrefixOf_iff_prefix.1 hc.2
    rw [← hrest, List.drop_left]
  · cases h

section

variable {sha256Bytes : Bytes → Sha256Digest}

theorem validateOperation_ok {modeAware : Bool} {scope : PathBuf} {dir : Path} {journal : Journal}
    {index : ℕ} {targets : List PathBuf} {keys : List Bytes} {o : JournalOperation} {key : Bytes}
    (hscope : scope.absolute = true → scope.components = dir.map .normal)
    (ho : journal.operations[index]? = some o)
    (hschema : modeAware = false → journal.Modeless)
    (h : validateOperation sha256Bytes modeAware scope journal.nonce index targets keys o =
      .ok key) :
    scope.absolute = true ∧ ∃ target, ValidOperation sha256Bytes dir journal index o target := by
  unfold validateOperation at h
  obtain ⟨hrange, h⟩ := ite_throw_ok h
  obtain ⟨rel, hrel, h⟩ := Except.bind_ok h
  obtain ⟨k, hkey, h⟩ := Except.bind_ok h
  obtain ⟨-, h⟩ := ite_throw_ok h
  obtain ⟨hproof, h⟩ := ite_throw_ok h
  obtain ⟨-, h⟩ := ite_throw_ok h
  obtain ⟨parent, hparent, h⟩ := Except.bind_ok h
  obtain ⟨leaf, hleaf, h⟩ := Except.bind_ok h
  obtain ⟨haux, -⟩ := ite_error_ok h
  have habs : o.target.absolute = true := by
    cases ha : o.target.absolute with
    | true => rfl
    | false => simp [ha] at hrange
  obtain ⟨names, hnames, hcomp⟩ := casefoldPathKey_names (mapError_ok hkey)
  obtain ⟨hsame, hsplit⟩ := stripPrefix_components (elim_error_ok hrel)
  rw [hscope (hsame ▸ habs), hcomp, ← List.map_append] at hsplit
  have htarget : o.target = .ofPath (dir ++ names) := by
    rw [PathBuf.ofPath, ← hsplit, ← habs]
  have hne : dir ++ names ≠ [] := by simp [hnames]
  have hparent := elim_error_ok hparent
  have hleaf := elim_error_ok hleaf
  rw [htarget, PathBuf.parent_ofPath hne, Option.some.injEq] at hparent
  rw [htarget, PathBuf.fileName_ofPath] at hleaf
  subst hparent
  have hderived : ∀ purpose, (PathBuf.ofPath (dir ++ names).dropLast).join
      (siblingName sha256Bytes leaf purpose (addU64 journal.nonce index)) =
        .ofPath (derivedName sha256Bytes (dir ++ names) purpose
          (addU64 journal.nonce index)) := by
    intro purpose
    rw [PathBuf.join_ofPath, derivedName, hleaf, Option.getD_some]
  rw [hderived, hderived] at haux
  simp only [originalProofIncomplete, Bool.or_eq_true, Bool.and_eq_true, bne_iff_ne, ne_eq,
    Bool.not_eq_true', not_or, not_and, not_not, Bool.not_eq_true, Option.isSome_eq_false_iff,
    Option.isNone_iff_eq_none] at hproof
  simp only [auxiliaryInconsistent, Bool.or_eq_true, Bool.and_eq_true, bne_iff_ne, ne_eq,
    Bool.not_eq_true', not_or, not_and, not_not, Bool.not_eq_true, Option.isSome_eq_false_iff,
    Option.isNone_iff_eq_none, Option.any_eq_true, decide_eq_true_eq, not_exists] at haux
  obtain ⟨⟨⟨⟨⟨⟨⟨hstage, hbackup⟩, hdesired⟩, hmode⟩, hmodeless⟩, -⟩, hinst⟩, hboth⟩ := haux
  refine ⟨hsame ▸ habs, dir ++ names, ho, htarget, List.prefix_append _ _, by simpa using hnames,
    fun p hp => hstage p hp, fun p hp => hbackup p hp, hboth, hdesired, fun hi => ?_, ?_⟩
  · cases hs : o.stage with
    | some _ => rfl
    | none => exact absurd hs (hinst hi)
  · cases hm : modeAware with
    | true => exact .inl ⟨(hproof.1.2 hm).symm, (hmode hm).symm⟩
    | false => exact .inr ⟨hschema hm, hproof.2 hm, hmodeless hm⟩

theorem validateOperations_ok {modeAware : Bool} {scope : PathBuf} {dir : Path} {journal : Journal}
    (hscope : scope.absolute = true → scope.components = dir.map .normal)
    (hschema : modeAware = false → journal.Modeless)
    {pre rest : List JournalOperation} {targets : List PathBuf} {keys : List Bytes}
    (hops : journal.operations = pre ++ rest)
    (h : validateOperations sha256Bytes modeAware scope journal.nonce pre.length targets keys
      rest = .ok ()) :
    ∀ (i : ℕ) (o : JournalOperation), rest[i]? = some o → scope.absolute = true ∧
      ∃ target, ValidOperation sha256Bytes dir journal (pre.length + i) o target := by
  induction rest generalizing pre targets keys with
  | nil => intro i o hi; cases hi
  | cons o rest ih =>
    obtain ⟨key, hkey, h⟩ := Except.bind_ok h
    intro i o' hi
    cases i with
    | zero =>
      cases hi
      exact validateOperation_ok hscope (by simp [hops]) hschema hkey
    | succ i =>
      have hlen : (pre ++ [o]).length = pre.length + 1 := by simp
      have hnext := ih (show journal.operations = (pre ++ [o]) ++ rest by simp [hops])
        (by rwa [hlen]) i o' hi
      rwa [hlen, Nat.add_assoc, Nat.add_comm 1 i] at hnext

theorem validateJournal_scope {journal : Journal} {journalPath : PathBuf}
    (h : validateJournal sha256Bytes journal journalPath = .ok ()) :
    ∃ modeAware scope, (modeAware = false → journal.Modeless) ∧
      journalPath.parent = some scope ∧
      validateOperations sha256Bytes modeAware scope journal.nonce 0 [] [] journal.operations =
        .ok () := by
  unfold validateJournal at h
  split at h
  · obtain ⟨_, ⟨⟩, h⟩ := Except.bind_ok h
    obtain ⟨scope, hscope, h⟩ := Except.bind_ok h
    exact ⟨false, scope, fun _ => ‹_›, elim_error_ok hscope, h⟩
  · split at h
    · obtain ⟨_, ⟨⟩, h⟩ := Except.bind_ok h
      obtain ⟨scope, hscope, h⟩ := Except.bind_ok h
      exact ⟨true, scope, (fun h => nomatch h), elim_error_ok hscope, h⟩
    · cases h

/-- **What validation accepts.**  Every operation of a valid journal has its target below the
directory of the journal and its auxiliary files at the derived names. -/
theorem validateJournal_ok {journal : Journal} {journalPath : PathBuf} {cwd p : Path}
    (hpath : journalPath.resolve cwd = some p)
    (h : validateJournal sha256Bytes journal journalPath = .ok ()) {i : ℕ} {o : JournalOperation}
    (hi : journal.operations[i]? = some o) :
    ∃ dir leaf target, p = dir ++ [leaf] ∧
      ValidOperation sha256Bytes dir journal i o target := by
  obtain ⟨modeAware, scope, hschema, hparent, h⟩ := validateJournal_scope h
  have hscope : journalPath.components ≠ [] ∧
      scope = ⟨journalPath.absolute, journalPath.components.dropLast⟩ := by
    unfold PathBuf.parent at hparent
    split at hparent
    · cases hparent
    · exact ⟨‹_›, (Option.some.inj hparent).symm⟩
  have hcomp : scope.absolute = true → journalPath.components = p.map .normal := by
    intro habs
    rw [hscope.2] at habs
    have := PathBuf.names?_eq_some.1 hpath
    rwa [PathBuf.joinPath, if_pos habs] at this
  have hdir : scope.absolute = true → scope.components = p.dropLast.map .normal := by
    intro habs
    rw [hscope.2, hcomp habs, List.map_dropLast]
  have hval := validateOperations_ok hdir hschema
    (show journal.operations = [] ++ journal.operations from rfl) h i o hi
  rw [List.length_nil, Nat.zero_add] at hval
  obtain ⟨habs, target, hvalid⟩ := hval
  have hne : p ≠ [] := by
    rintro rfl
    exact hscope.1 (hcomp habs)
  exact ⟨p.dropLast, p.getLast hne, target, (List.dropLast_append_getLast hne).symm, hvalid⟩

end

/-! ### The calls of recovery -/

/-- A file has the recorded snapshot.  `modeless` says when the permission bits may be missing
from it. -/
structure IsSnapshot (sha256Bytes : Bytes → Sha256Digest) (modeless : Prop) (f : File)
    (identity : Option FileIdentity) (digest : Option Sha256Digest) (mode : Option ℕ) : Prop where
  identity_eq : identity = some f.identity
  digest_eq : digest = some (sha256Bytes f.bytes)
  mode_eq : mode = some f.mode ∨ modeless ∧ mode = none

section

variable (ext : Externals) (owned : Bytes → Bool) (modeless : Journal → Prop)
  (journalPath : PathBuf) (fs : Fs)

/-- The operation `o` with the given target has number `index` in the journal at `journalPath`. -/
structure Journalled (journal : Journal) (index : ℕ) (o : JournalOperation) (target : Path) :
    Prop where
  journal : ∃ dir leaf f, journalPath.resolve fs.cwd = some (dir ++ [leaf]) ∧
    fs.get (dir ++ [leaf]) = some (.file f) ∧ parseJournal ext f.bytes = .ok journal ∧
    ValidOperation ext.sha256Bytes dir journal index o target

/-- Recovery started in `fs` may remove the file `f` from a name.  `owned` says which contents mark
a journal stage. -/
inductive Removable : Path → File → Prop
  | journalStage {dir : Path} {leaf : Name} {f : File} :
      journalPath.resolve fs.cwd = some (dir ++ [leaf]) → owned f.bytes = true →
      Removable (journalStage ext dir leaf) f
  | journal {p : Path} {f f₀ : File} :
      journalPath.resolve fs.cwd = some p → fs.get p = some (.file f₀) →
      f.identity = f₀.identity → Removable p f
  | target {journal : Journal} {i : ℕ} {o : JournalOperation} {t : Path} {f : File} :
      Journalled ext journalPath fs journal i o t →
      IsSnapshot ext.sha256Bytes (modeless journal) f o.installed o.desiredDigest o.desiredMode →
      Removable t f
  | stage {journal : Journal} {i : ℕ} {o : JournalOperation} {t : Path} {f : File} :
      Journalled ext journalPath fs journal i o t → o.stage.isSome = true →
      o.installed = none ∨
        IsSnapshot ext.sha256Bytes (modeless journal) f o.installed o.desiredDigest
          o.desiredMode →
      Removable (derivedName ext.sha256Bytes t "stage" (addU64 journal.nonce i)) f
  | backup {journal : Journal} {i : ℕ} {o : JournalOperation} {t : Path} {f : File} :
      Journalled ext journalPath fs journal i o t →
      IsSnapshot ext.sha256Bytes (modeless journal) f o.original o.originalDigest o.originalMode →
      Removable (derivedName ext.sha256Bytes t "backup" (addU64 journal.nonce i)) f

/-- Recovery started in `fs` may move the file `f` from the first name to the second. -/
inductive Movable : Path → File → Path → Prop
  | backup {journal : Journal} {i : ℕ} {o : JournalOperation} {t : Path} {f : File} :
      Journalled ext journalPath fs journal i o t →
      IsSnapshot ext.sha256Bytes (modeless journal) f o.original o.originalDigest o.originalMode →
      Movable (derivedName ext.sha256Bytes t "backup" (addU64 journal.nonce i)) f t

/-- The calls that recovery started in `fs` may issue in a state `s`.  A rename never replaces
anything. -/
def Confined : ∀ ⦃β : Type⦄, Sys β → Fs → Prop
  | _, .unlink p, s =>
    ∃ f, s.get p = some (.file f) ∧ Removable ext owned modeless journalPath fs p f
  | _, .renameNoReplace src dst, s =>
    (∃ f, s.get src = some (.file f) ∧ Movable ext modeless journalPath fs src f dst) ∧
      (s.get dst ≠ none → ∀ c, (Sys.step (.renameNoReplace src dst) c s).2 = s)
  | _, .mkdir _, _ => True
  | _, op, _ => op.Quiet

end

theorem confined_quiet (ext : Externals) (owned : Bytes → Bool) (modeless : Journal → Prop)
    (journalPath : PathBuf) (fs s : Fs) :
    QuietOk (Confined ext owned modeless journalPath fs) s := by
  intro β op h
  cases op <;> first | exact h.elim | exact h

theorem step_renameNoReplace_bound {src dst : Path} {s : Fs} (h : s.get dst ≠ none) (c : Choice) :
    (Sys.step (.renameNoReplace src dst) c s).2 = s := by
  have hr : ∀ a fs', (do
      let n ← present s src
      vacant s dst
      pure ((), s.move src dst n)) ≠ (.ok (a, fs') : Except Errno (Unit × Fs)) := by
    intro a fs' hok
    obtain ⟨n, -, hok⟩ := Except.bind_ok hok
    obtain ⟨_, hv, _⟩ := Except.bind_ok hok
    exact h (vacant_ok hv).2
  rcases alter_cases (permits_true c) s _ with
    ⟨a, fs', hok, -⟩ | ⟨e, -, he⟩ | ⟨-, he⟩
  · exact absurd hok (hr a fs')
  · exact congrArg Prod.snd he
  · exact congrArg Prod.snd he

/-! ### No call changes the current directory -/

theorem alter_cwd {γ : Type} {c : Choice} {fs : Fs} {r : Except Errno (γ × Fs)}
    (h : ∀ a fs', r = .ok (a, fs') → fs'.cwd = fs.cwd) : (alter c fs r).2.cwd = fs.cwd := by
  rcases alter_cases (permits_true c) fs r with
    ⟨a, fs', hr, h'⟩ | ⟨e, -, h'⟩ | ⟨-, h'⟩
  · rw [h']; exact h a fs' hr
  · rw [h']
  · rw [h']

theorem move_cwd (fs : Fs) (src dst : Path) (n : Node) : (fs.move src dst n).cwd = fs.cwd := by
  cases n <;> rfl

theorem step_cwd {β : Type} (op : Sys β) (c : Choice) (fs : Fs) :
    (Sys.step op c fs).2.cwd = fs.cwd := by
  cases op with
  | mkdir p | createExcl p mode =>
    refine alter_cwd fun a fs' h => ?_
    obtain ⟨_, -, h⟩ := Except.bind_ok h
    cases h
    rfl
  | openCreate p mode =>
    refine alter_cwd fun a fs' h => ?_
    split at h
    · cases h; rfl
    · cases h
    · obtain ⟨_, -, h⟩ := Except.bind_ok h
      cases h
      rfl
  | fchmod p mode | write p bytes =>
    refine alter_cwd fun a fs' h => ?_
    split at h <;> cases h
    rfl
  | unlink p =>
    refine alter_cwd fun a fs' h => ?_
    split at h <;> cases h
    rfl
  | rmdir p =>
    refine alter_cwd fun a fs' h => ?_
    split at h
    · split at h <;> cases h
      rfl
    · cases h
    · cases h
  | renameNoReplace src dst =>
    refine alter_cwd fun a fs' h => ?_
    obtain ⟨n, -, h⟩ := Except.bind_ok h
    obtain ⟨_, -, h⟩ := Except.bind_ok h
    cases h
    exact move_cwd fs src dst n
  | rename src dst =>
    refine alter_cwd fun a fs' h => ?_
    obtain ⟨n, -, h⟩ := Except.bind_ok h
    split at h
    · cases h
    · split at h <;> cases h
      exact move_cwd fs src dst n
  | _ => rfl

section

variable {α β : Type} {G : ∀ ⦃β : Type⦄, Sys β → Fs → Prop} {cwd : Path}

/-- From every state with the current directory `cwd`, the program issues only allowed calls. -/
def Within (G : ∀ ⦃β : Type⦄, Sys β → Fs → Prop) (cwd : Path) (p : Io α) : Prop :=
  ∀ s : Fs, s.cwd = cwd → IoSafe true (fun _ => False) G (fun _ s' => s'.cwd = cwd) p s

namespace Within

theorem bind {p : Io β} {f : β → Io α} (hp : Within G cwd p) (hf : ∀ b, Within G cwd (f b)) :
    Within G cwd (p >>= f) := by
  intro s hs
  refine IoSafe.bind ((hp s hs).weaken ?_)
  rintro (e | b) s' hs'
  · exact hs'
  · exact hf b s' hs'

theorem attempt {p : Io α} (hp : Within G cwd p) : Within G cwd (ArosTools.attempt p) :=
  fun s hs => IoSafe.attempt (hp s hs)

theorem mapErr {p : Io α} (f : IoError → IoError) (hp : Within G cwd p) :
    Within G cwd (ArosTools.mapErr f p) := by
  intro s hs
  refine IoSafe.mapErr ((hp s hs).weaken ?_)
  rintro (e | a) s' hs'
  · exact hs'
  · exact hs'

theorem pure (a : α) : Within G cwd (Pure.pure a : Io α) := fun _ hs => IoSafe.pure hs

theorem throw (e : IoError) : Within G cwd (MonadExcept.throw e : Io α) :=
  fun _ hs => IoSafe.throw hs

theorem sys {op : Sys (Except Errno α)} (hG : ∀ s, G op s) : Within G cwd (ArosTools.sys op) := by
  intro s hs
  refine Machine.Safe.call (hG s) fun c _ => ?_
  have hcwd : (Sys.machine.step op c s).2.cwd = cwd := (step_cwd op c s).trans hs
  cases (Sys.machine.step op c s).1 <;> exact .inr hcwd

end Within

end

/-! ### Removals and renames from any state -/

section

variable {G : ∀ ⦃β : Type⦄, Sys β → Fs → Prop} {cwd : Path} {fs : Fs}
  {sha256Bytes : Bytes → Sha256Digest} {Q : Except IoError Unit → Fs → Prop}

theorem removeAtExactMode_any {parent : ParentHandle} {expected : FileIdentity}
    {digest : Sha256Digest} {mode : Option ℕ} (hq : ∀ s, QuietOk G s)
    (hdel : ∀ f, fs.get parent.file = some (.file f) → ExactFile sha256Bytes f expected digest mode →
      G (.unlink parent.file) fs) (hQ : ∀ r, Q r fs) (hQ' : ∀ r, Q r (fs.del parent.file)) :
    IoSafe true (fun _ => False) G Q
      (removeAtExactMode sha256Bytes parent expected digest mode) fs := by
  unfold removeAtExactMode
  refine IoSafe.bind (readRegularWithMode_safe (hq fs) (fun f p hr hp => ?_)
    (IoSafe.pure (hQ _)) fun _ => hQ _)
  rw [ParentHandle.path, PathBuf.resolve_ofPath, Option.some.injEq] at hr
  subst hr
  refine IoSafe.ite (fun _ => IoSafe.throw (hQ _)) fun hgood => ?_
  exact IoSafe.bind (unlink_safe hp (hdel f hp (exactFile_iff.2 hgood))
    (fsync_safe (hq _) (hQ' _) fun _ => hQ' _) fun _ _ => hQ _)

theorem removeRegularExact_any {path : PathBuf} {expected : FileIdentity} {digest : Sha256Digest}
    (hq : ∀ s, QuietOk G s)
    (hdel : ∀ f p, path.resolve fs.cwd = some p → fs.get p = some (.file f) →
      f.identity = expected → sha256Bytes f.bytes = digest → G (.unlink p) fs)
    (hQ : ∀ r, Q r fs) (hQ' : ∀ r p, path.resolve fs.cwd = some p → Q r (fs.del p)) :
    IoSafe true (fun _ => False) G Q (removeRegularExact sha256Bytes path expected digest) fs :=
  IoSafe.bind (openParent_safe (hq fs) (fun h => nomatch h)
    (fun h ho => removeAtExactMode_any hq
      (fun f hf hex => hdel f h.file ho.resolve hf hex.1 hex.2.1) hQ fun r => hQ' r _ ho.resolve)
    (fun _ _ => hQ _) fun _ _ _ => hQ _)

theorem readRegularWithMode_within (hq : ∀ s, QuietOk G s) (path : PathBuf) :
    Within G cwd (readRegularWithMode path) :=
  fun s hs => readRegularWithMode_safe (hq s) (fun _ _ _ _ => hs) hs fun _ => hs

theorem openAuxParent_any {operation : JournalOperation} {p : Path}
    {Q : Except IoError ParentHandle → Fs → Prop} (hq : ∀ s, QuietOk G s)
    (hok : ∀ h : ParentHandle, h.file = p → Q (.ok h) fs) (herr : ∀ e, Q (.error e) fs) :
    IoSafe true (fun _ => False) G Q (openAuxParent operation (.ofPath p)) fs := by
  refine IoSafe.bind (openParent_safe (hq fs) (fun h => nomatch h) (fun h ho => ?_)
    (fun _ _ => herr _) fun _ _ _ => herr _)
  refine IoSafe.bind (fstat_safe (hq fs) ?_ fun _ => herr _)
  exact IoSafe.ite (fun _ => IoSafe.throw (herr _)) fun _ => IoSafe.pure (hok h ho.file_eq)

theorem removeOperationAuxExact_within {operation : JournalOperation} {p : Path}
    {expected : FileIdentity} {digest : Sha256Digest} {mode : Option ℕ}
    (hq : ∀ s, QuietOk G s)
    (hdel : ∀ s f, s.get p = some (.file f) → ExactFile sha256Bytes f expected digest mode →
      G (.unlink p) s) :
    Within G cwd
      (removeOperationAuxExact sha256Bytes operation (.ofPath p) expected digest mode) := by
  intro s hs
  refine IoSafe.bind (openAuxParent_any hq (fun h hfile => ?_) fun _ => hs)
  subst hfile
  exact removeAtExactMode_any hq (hdel s) (fun _ => hs) fun _ => hs

theorem removeOperationAuxUnidentified_within {operation : JournalOperation} {p : Path}
    (hq : ∀ s, QuietOk G s) (hdel : ∀ s f, s.get p = some (.file f) → G (.unlink p) s) :
    Within G cwd (removeOperationAuxUnidentified sha256Bytes operation (.ofPath p)) := by
  intro s hs
  refine IoSafe.bind (openAuxParent_any hq (fun h hfile => ?_) fun _ => hs)
  subst hfile
  exact IoSafe.bind (readRegular_safe (hq s) (fun f p _ _ => removeAtExactMode_any hq
    (fun f hf _ => hdel s f hf) (fun _ => hs) fun _ => hs) (IoSafe.pure hs) fun _ => hs)

end

/-! ### Rollback and cleanup -/

theorem exactFile_of_snapshotMatches {sha256Bytes : Bytes → Sha256Digest} {f : File}
    {identity : Option FileIdentity} {digest : Option Sha256Digest} {mode : Option ℕ}
    (h : snapshotMatches sha256Bytes (some f) identity digest mode = true) :
    identity = some f.identity ∧ digest = some (sha256Bytes f.bytes) ∧
      ExactFile sha256Bytes f f.identity (sha256Bytes f.bytes) mode := by
  simp only [snapshotMatches, Bool.and_eq_true, decide_eq_true_eq] at h
  refine ⟨h.1.1.symm, h.1.2.symm, rfl, rfl, fun m hm => ?_⟩
  have := h.2
  rw [Option.mem_def.1 hm] at this
  simpa using this

namespace ValidOperation

variable {sha256Bytes : Bytes → Sha256Digest} {dir : Path} {journal : Journal} {index : ℕ}
  {o : JournalOperation} {t : Path} {f : File} {i : FileIdentity} {d : Sha256Digest}

theorem isSnapshot_of_exact {modeless : Prop} {mode : Option ℕ}
    (hmode : mode.isSome = true ∨ modeless ∧ mode = none)
    (hex : ExactFile sha256Bytes f i d mode) :
    IsSnapshot sha256Bytes modeless f (some i) (some d) mode := by
  obtain ⟨rfl, rfl, hm⟩ := hex
  refine ⟨rfl, rfl, hmode.imp (fun h => ?_) id⟩
  obtain ⟨m, rfl⟩ := Option.isSome_iff_exists.1 h
  rw [hm m rfl]

theorem desired_snapshot (h : ValidOperation sha256Bytes dir journal index o t)
    (hi : o.installed = some i) (hd : o.desiredDigest = some d)
    (hex : ExactFile sha256Bytes f i d o.desiredMode) :
    IsSnapshot sha256Bytes journal.Modeless f o.installed o.desiredDigest o.desiredMode := by
  rw [hi, hd]
  refine isSnapshot_of_exact ?_ hex
  refine h.modes.imp (fun hm => ?_) fun hm => ⟨hm.1, hm.2.2⟩
  rw [hm.2]
  exact h.installed_stage (by rw [hi]; rfl)

theorem original_snapshot (h : ValidOperation sha256Bytes dir journal index o t)
    (hi : o.original = some i) (hd : o.originalDigest = some d)
    (hex : ExactFile sha256Bytes f i d o.originalMode) :
    IsSnapshot sha256Bytes journal.Modeless f o.original o.originalDigest o.originalMode := by
  rw [hi, hd]
  refine isSnapshot_of_exact ?_ hex
  refine h.modes.imp (fun hm => ?_) fun hm => ⟨hm.1, hm.2.1⟩
  rw [hm.1, hi]
  rfl

end ValidOperation

section

variable {ext : Externals} {journalPath : PathBuf} {fs : Fs} {journal : Journal} {i : ℕ}
  {o : JournalOperation} {t : Path} {cwd : Path}

theorem Journalled.valid (h : Journalled ext journalPath fs journal i o t) :
    ∃ dir, ValidOperation ext.sha256Bytes dir journal i o t := by
  obtain ⟨dir, _, _, -, -, -, hv⟩ := h.journal
  exact ⟨dir, hv⟩

/-- What recovery started in `fs` may do. -/
abbrev Recovers (ext : Externals) (journalPath : PathBuf) (fs : Fs) :
    ∀ ⦃β : Type⦄, Sys β → Fs → Prop :=
  Confined ext ownedJournalStage Journal.Modeless journalPath fs

theorem recovers_quiet (ext : Externals) (journalPath : PathBuf) (fs s : Fs) :
    QuietOk (Recovers ext journalPath fs) s := confined_quiet _ _ _ _ _ _

theorem removeOwnedStage_within (h : Journalled ext journalPath fs journal i o t) {stage : PathBuf}
    (hs : o.stage = some stage) :
    Within (Recovers ext journalPath fs) cwd (removeOwnedStage ext.sha256Bytes o stage) := by
  obtain ⟨dir, hv⟩ := h.valid
  have hq := recovers_quiet ext journalPath fs
  have hsome : o.stage.isSome = true := by rw [hs]; rfl
  rw [hv.stage stage hs]
  unfold removeOwnedStage
  split
  · next identity digest hi hd =>
    exact removeOperationAuxExact_within hq fun s f hf hex =>
      ⟨f, hf, .stage h hsome (.inr (hv.desired_snapshot hi hd hex))⟩
  · next hno =>
    -- the stage comes with a digest, so it is the identity that is not recorded
    have hnone : o.installed = none := by
      cases hi : o.installed with
      | none => rfl
      | some identity =>
        obtain ⟨digest, hd⟩ := Option.isSome_iff_exists.1 (hv.stage_desired ▸ hsome)
        exact (hno identity digest hi hd).elim
    exact removeOperationAuxUnidentified_within hq fun s f hf =>
      ⟨f, hf, .stage h hsome (.inl hnone)⟩

theorem rollbackTarget_within (h : Journalled ext journalPath fs journal i o t)
    {parent : ParentHandle} (hparent : parent.file = t) :
    Within (Recovers ext journalPath fs) cwd (rollbackTarget ext.sha256Bytes o parent) := by
  obtain ⟨dir, hv⟩ := h.valid
  have hq := recovers_quiet ext journalPath fs
  refine .bind (.attempt (readRegularWithMode_within hq _)) fun r => ?_
  cases r with
  | error e => exact .pure _
  | ok current =>
    dsimp only
    split
    · split
      · next identity digest hi hd =>
        refine .bind (.attempt fun s hs => ?_) fun _ => .pure _
        refine removeAtExactMode_any hq (fun f hf hex => ?_) (fun _ => hs) fun _ => hs
        rw [hparent] at hf ⊢
        exact ⟨f, hf, .target h (hv.desired_snapshot hi hd hex)⟩
      · exact .pure _
    · split
      · exact .pure _
      · exact .pure _

theorem restoreBackup_safe (h : Journalled ext journalPath fs journal i o t)
    {backupParent targetParent : ParentHandle} {s : Fs} {f : File} (hs : s.cwd = cwd)
    (hbackup : backupParent.file =
      derivedName ext.sha256Bytes t "backup" (addU64 journal.nonce i))
    (htarget : targetParent.file = t) (hf : s.get backupParent.file = some (.file f))
    (hm : o.matchesOriginal ext.sha256Bytes (some f) = true) :
    IoSafe true (fun _ => False) (Recovers ext journalPath fs) (fun _ s' => s'.cwd = cwd)
      (restoreBackup ext.sha256Bytes o backupParent targetParent) s := by
  obtain ⟨dir, hv⟩ := h.valid
  have hq := recovers_quiet ext journalPath fs
  obtain ⟨hi, hd, hex⟩ := exactFile_of_snapshotMatches hm
  have hG : Recovers ext journalPath fs
      (.renameNoReplace backupParent.file targetParent.file) s := by
    refine ⟨⟨f, hf, ?_⟩, fun hne => step_renameNoReplace_bound hne⟩
    rw [hbackup, htarget]
    exact .backup h (hv.original_snapshot hi hd hex)
  have hrest : ∀ s' : Fs, s'.cwd = cwd → IoSafe true (fun _ => False)
      (Recovers ext journalPath fs) (fun _ s' => s'.cwd = cwd) (do
        syncParent o.target
        verifyOriginalRestored ext.sha256Bytes o) s' := by
    refine Within.bind (fun s' hs' => syncParent_safe (hq s') fun _ => hs') fun _ => ?_
    refine Within.bind (readRegularWithMode_within hq _) fun restored => ?_
    split
    · exact .pure _
    · exact .throw _
  refine IoSafe.bind (Machine.Safe.call hG fun c _ => ?_)
  have hcwd : (Sys.machine.step (.renameNoReplace backupParent.file targetParent.file) c s).2.cwd =
      cwd := (step_cwd _ c s).trans hs
  cases (Sys.machine.step (.renameNoReplace backupParent.file targetParent.file) c s).1 with
  | error e => exact .inr hcwd
  | ok u => exact .inr (hrest _ hcwd)

theorem rollbackBackupAt_within (h : Journalled ext journalPath fs journal i o t)
    {backupPath : PathBuf} {backupParent targetParent : ParentHandle}
    (hpath : o.backup = some backupPath)
    (hbackup : backupParent.file =
      derivedName ext.sha256Bytes t "backup" (addU64 journal.nonce i))
    (htarget : targetParent.file = t) :
    Within (Recovers ext journalPath fs) cwd
      (rollbackBackupAt ext.sha256Bytes o backupPath backupParent targetParent) := by
  obtain ⟨dir, hv⟩ := h.valid
  have hq := recovers_quiet ext journalPath fs
  have hread : ∀ path, Within (Recovers ext journalPath fs) cwd (readRegularWithMode path) :=
    readRegularWithMode_within hq
  intro s hs
  refine IoSafe.bind (IoSafe.attempt (readRegularWithMode_safe (hq s) (fun f p hr hp => ?_) ?_
    fun _ => IoSafe.pure hs))
  · rw [hv.backup backupPath hpath, PathBuf.resolve_ofPath, Option.some.injEq, ← hbackup] at hr
    subst hr
    refine IoSafe.ite (fun hm => ?_) fun _ => ?_
    · refine IoSafe.bind (IoSafe.attempt (readRegularWithMode_safe (hq s) (fun g q _ _ => ?_) ?_
        fun _ => IoSafe.pure hs))
      · exact IoSafe.ite (fun _ => IoSafe.pure hs) fun _ => IoSafe.pure hs
      · refine IoSafe.bind (IoSafe.attempt ?_)
        exact (restoreBackup_safe h hs hbackup htarget hp hm).weaken fun _ _ h => IoSafe.pure h
    · exact IoSafe.pure hs
  · -- a backup that is journalled belongs to an original, so a missing one does not match
    have hno : o.matchesOriginal ext.sha256Bytes none = false := by
      obtain ⟨original, ho⟩ := Option.isSome_iff_exists.1
        (hv.backup_original ▸ (by rw [hpath]; rfl : o.backup.isSome = true))
      simp [JournalOperation.matchesOriginal, snapshotMatches, ho]
    refine IoSafe.ite (fun hm => absurd hm (by rw [hno]; decide)) fun _ => ?_
    refine Within.bind (.attempt (hread _)) (fun r => ?_) s hs
    cases r with
    | error e => exact .pure _
    | ok current =>
      dsimp only
      split
      · exact .pure _
      · split
        · exact .pure _
        · exact .pure _

theorem openParent_attempt_safe {Q : Except IoError (Except IoError ParentHandle) → Fs → Prop}
    {p : Path} {s : Fs} (hok : ∀ h : ParentHandle, h.file = p → Q (.ok (.ok h)) s)
    (herr : ∀ e, Q (.ok (.error e)) s) :
    IoSafe true (fun _ => False) (Recovers ext journalPath fs) Q
      (attempt (openParent (.ofPath p) false)) s :=
  IoSafe.attempt (openParent_safe (recovers_quiet ext journalPath fs s) (fun h => nomatch h)
    (fun h ho => hok h ho.file_eq) (fun _ _ => herr _) fun _ _ _ => herr _)

theorem rollbackBackup_within (h : Journalled ext journalPath fs journal i o t)
    {targetParent : Except IoError ParentHandle}
    (htarget : ∀ parent, targetParent = .ok parent → parent.file = t) :
    Within (Recovers ext journalPath fs) cwd
      (rollbackBackup ext.sha256Bytes o targetParent) := by
  obtain ⟨dir, hv⟩ := h.valid
  unfold rollbackBackup
  cases hb : o.backup with
  | none => exact .pure _
  | some backupPath =>
    intro s hs
    refine IoSafe.bind (?_ : IoSafe true _ _ _ (attempt (openParent backupPath false)) s)
    rw [hv.backup backupPath hb]
    refine openParent_attempt_safe (fun backupParent hfile => ?_) fun e => IoSafe.pure hs
    cases htp : targetParent with
    | error e => exact IoSafe.pure hs
    | ok parent =>
      rw [← hv.backup backupPath hb]
      exact rollbackBackupAt_within h hb hfile (htarget parent htp) s hs

theorem rollbackStage_within (h : Journalled ext journalPath fs journal i o t) :
    Within (Recovers ext journalPath fs) cwd (rollbackStage ext.sha256Bytes o) := by
  unfold rollbackStage
  cases hs : o.stage with
  | none => exact .pure _
  | some stage => exact .bind (.attempt (removeOwnedStage_within h hs)) fun _ => .pure _

/-- What follows, once the parent of the target is open or could not be opened. -/
theorem rollbackOpened_within (h : Journalled ext journalPath fs journal i o t)
    {targetParent : Except IoError ParentHandle}
    (htarget : ∀ parent, targetParent = .ok parent → parent.file = t) :
    Within (Recovers ext journalPath fs) cwd (do
      checkTargetParent o targetParent
      let target ← match targetParent with
        | .ok parent => rollbackTarget ext.sha256Bytes o parent
        | .error _ => pure []
      let backup ← rollbackBackup ext.sha256Bytes o targetParent
      let stage ← rollbackStage ext.sha256Bytes o
      let errors := labelled "open target parent: " targetParent ++ target ++ backup ++ stage
      if errors = [] then pure ()
      else throw (.ofMessage ("; ".intercalate errors))) := by
  have hq := recovers_quiet ext journalPath fs
  have hend : ∀ target, Within (Recovers ext journalPath fs) cwd (do
      let backup ← rollbackBackup ext.sha256Bytes o targetParent
      let stage ← rollbackStage ext.sha256Bytes o
      let errors := labelled "open target parent: " targetParent ++ target ++ backup ++ stage
      if errors = [] then pure ()
      else throw (.ofMessage ("; ".intercalate errors))) := by
    intro target
    refine .bind (rollbackBackup_within h htarget) fun backup =>
      .bind (rollbackStage_within h) fun stage => ?_
    by_cases herrors : labelled "open target parent: " targetParent ++ target ++ backup ++ stage = []
    · simp only [if_pos herrors]
      exact .pure _
    · simp only [if_neg herrors]
      exact .throw _
  cases targetParent with
  | error e => exact .bind (.pure _) fun _ => .bind (.pure _) hend
  | ok parent =>
    refine .bind (.bind (.sys fun s => hq s _ trivial) fun identity => ?_) fun _ =>
      .bind (rollbackTarget_within h (htarget parent rfl)) hend
    split_ifs
    · exact .pure _
    · exact .throw _

theorem rollbackOperation_within (h : Journalled ext journalPath fs journal i o t) :
    Within (Recovers ext journalPath fs) cwd (rollbackOperation ext.sha256Bytes o) := by
  obtain ⟨dir, hv⟩ := h.valid
  intro s hs
  refine IoSafe.bind (?_ : IoSafe true _ _ _ (attempt (openParent o.target false)) s)
  rw [hv.target_eq]
  refine openParent_attempt_safe (fun parent hfile => ?_) fun e => ?_
  · exact rollbackOpened_within h (fun p hp => by cases hp; exact hfile) s hs
  · exact rollbackOpened_within h (fun p hp => by cases hp) s hs

theorem collectErrors_within {G : ∀ ⦃β : Type⦄, Sys β → Fs → Prop}
    {label : JournalOperation → String} {act : JournalOperation → Io Unit}
    {operations : List JournalOperation} (h : ∀ o ∈ operations, Within G cwd (act o)) :
    Within G cwd (collectErrors label act operations) := by
  induction operations with
  | nil => exact .pure _
  | cons o rest ih =>
    refine .bind (.attempt (h o List.mem_cons_self)) fun _ => ?_
    exact .bind (ih fun o' ho' => h o' (List.mem_cons_of_mem o ho')) fun _ => .pure _

theorem cleanupBackup_within (h : Journalled ext journalPath fs journal i o t) :
    Within (Recovers ext journalPath fs) cwd (cleanupBackup ext.sha256Bytes o) := by
  obtain ⟨dir, hv⟩ := h.valid
  unfold cleanupBackup
  cases hb : o.backup with
  | none => exact .pure _
  | some backup =>
    dsimp only
    split
    · next identity digest hi hd =>
      rw [hv.backup backup hb]
      exact removeOperationAuxExact_within (recovers_quiet ext journalPath fs) fun s f hf hex =>
        ⟨f, hf, .backup h (hv.original_snapshot hi hd hex)⟩
    · exact .throw _

theorem cleanupStage_within (h : Journalled ext journalPath fs journal i o t) :
    Within (Recovers ext journalPath fs) cwd (cleanupStage ext.sha256Bytes o) := by
  unfold cleanupStage
  cases hs : o.stage with
  | none => exact .pure _
  | some stage => exact removeOwnedStage_within h hs

/-- Undoing or completing a journal whose operations are all valid. -/
theorem recoverOperations_within
    (h : ∀ o ∈ journal.operations, ∃ i t, Journalled ext journalPath fs journal i o t) :
    Within (Recovers ext journalPath fs) cwd (recoverOperations ext journal) := by
  unfold recoverOperations
  cases journal.state with
  | committed =>
    refine .bind (.bind (collectErrors_within fun o ho => ?_) fun stages => .bind
      (collectErrors_within fun o ho => ?_) fun backups => .pure _) fun errors => .pure _
    · obtain ⟨i, t, hj⟩ := h o ho
      exact cleanupStage_within hj
    · obtain ⟨i, t, hj⟩ := h o ho
      exact cleanupBackup_within hj
  | prepared =>
    refine .bind (collectErrors_within fun o ho => ?_) fun errors => .pure _
    obtain ⟨i, t, hj⟩ := h o (List.mem_reverse.1 ho)
    exact rollbackOperation_within hj

/-! ### Whole recoveries -/

/-- Every file of `s` is in `fs`, at the same name. -/
structure Shrunk (fs s : Fs) : Prop where
  cwd : s.cwd = fs.cwd
  file : ∀ q f, s.get q = some (.file f) → fs.get q = some (.file f)

theorem Shrunk.of_grown {D : Path → Prop} {s : Fs} (h : Grown D fs s) : Shrunk fs s := by
  refine ⟨h.cwd, fun q f hq => ?_⟩
  rcases h.get q with hg | ⟨-, -, hd⟩
  · rw [← hg, hq]
  · rw [Fs.isDir, hq] at hd
    cases hd

theorem Shrunk.del {s : Fs} (h : Shrunk fs s) (p : Path) : Shrunk fs (s.del p) := by
  refine ⟨h.cwd, fun q f hq => h.file q f ?_⟩
  rw [Fs.get_del] at hq
  split at hq
  · cases hq
  · exact hq

theorem cleanupJournalStage_confined :
    IoSafe true (fun _ => False) (Recovers ext journalPath fs) (fun _ s => Shrunk fs s)
      (cleanupJournalStage ext journalPath) fs := by
  have hq := recovers_quiet ext journalPath fs
  have hwalk : ∀ s, Grown (fun _ => True) fs s → WalkOk (Recovers ext journalPath fs) s :=
    fun s _ => ⟨hq s, fun _ => trivial⟩
  refine IoSafe.bind (IoSafe.bind (openParent_create_safe (fun _ _ _ => trivial) hwalk
    (fun h s hs ho => IoSafe.pure ?_) fun _ s hs => Shrunk.of_grown hs))
  have hshrunk : Shrunk fs s := .of_grown hs
  refine IoSafe.bind (readRegular_safe (hq s) (fun f p hr hp => ?_) (IoSafe.pure hshrunk)
    fun _ => hshrunk)
  refine IoSafe.ite (fun howned => ?_) fun _ => IoSafe.throw hshrunk
  rw [PathBuf.resolve_ofPath, Option.some.injEq] at hr
  subst hr
  refine removeRegularExact_any hq (fun g q hq' hg hi hd => ?_) (fun _ => hshrunk)
    fun _ q _ => hshrunk.del q
  rw [PathBuf.resolve_ofPath, Option.some.injEq] at hq'
  subst hq'
  rw [hp] at hg
  cases hg
  have hres := ho.resolve
  rw [hshrunk.cwd, ParentHandle.file] at hres
  exact ⟨f, hp, .journalStage hres howned⟩

theorem removeJournal_within {p : Path} {f₀ : File}
    (hp : journalPath.resolve fs.cwd = some p) (hf₀ : fs.get p = some (.file f₀)) :
    Within (Recovers ext journalPath fs) fs.cwd (removeJournal ext journalPath f₀.identity) := by
  have hq := recovers_quiet ext journalPath fs
  intro s hs
  refine IoSafe.bind (readRegular_safe (hq s) (fun f q _ _ => ?_) (IoSafe.throw hs) fun _ => hs)
  refine removeRegularExact_any hq (fun g q hr hg hi _ => ?_) (fun _ => hs) fun _ _ _ => hs
  rw [hs, hp, Option.some.injEq] at hr
  subst hr
  exact ⟨g, hg, .journal hp hf₀ hi⟩

theorem recoverJournal_within {p : Path} {f : File}
    (hp : journalPath.resolve fs.cwd = some p) (hf : fs.get p = some (.file f)) :
    Within (Recovers ext journalPath fs) fs.cwd
      (recoverJournal ext journalPath f.identity f.bytes) := by
  intro s hs
  refine IoSafe.bind (IoSafe.mapErr (IoSafe.liftExcept ?_))
  cases hparse : parseJournal ext f.bytes with
  | error e => exact hs
  | ok journal =>
    refine IoSafe.bind (IoSafe.liftExcept ?_)
    cases hvalid : validateJournal ext.sha256Bytes journal journalPath with
    | error e => exact hs
    | ok u =>
      have hjournalled : ∀ o ∈ journal.operations,
          ∃ i t, Journalled ext journalPath fs journal i o t := by
        intro o ho
        obtain ⟨i, hi⟩ := List.mem_iff_getElem?.1 ho
        obtain ⟨dir, leaf, t, hpeq, ht⟩ := validateJournal_ok hp hvalid hi
        exact ⟨i, t, dir, leaf, f, hpeq ▸ hp, hpeq ▸ hf, hparse, ht⟩
      refine Within.bind (recoverOperations_within hjournalled) (fun r => ?_) s hs
      dsimp only
      split
      · exact .throw _
      · exact .bind (.mapErr _ (removeJournal_within hp hf)) fun _ => .pure _

theorem recoverIfNeeded_confined :
    IoSafe true (fun _ => False) (Recovers ext journalPath fs) (fun _ s => s.cwd = fs.cwd)
      (recoverIfNeeded ext journalPath) fs := by
  refine IoSafe.bind (cleanupJournalStage_confined.weaken ?_)
  rintro (e | u) s hs
  · exact hs.cwd
  · refine IoSafe.bind (readRegular_safe (recovers_quiet ext journalPath fs s) (fun f p hp hf => ?_)
      (IoSafe.pure hs.cwd) fun _ => hs.cwd)
    exact recoverJournal_within (hs.cwd ▸ hp) (hs.file p f hf) s hs.cwd

/-- **Recovery is confined.**  Whatever the filesystem and the journal hold, and whatever calls
fail, every call of a recovery is one that `Confined` allows. -/
theorem recovery_confined (ext : Externals) (journalPath : PathBuf) (fs : Fs) {env : ℕ → Choice}
    {β : Type} {op : Sys β} {s : Fs}
    (h : machine.Performs (recoverIfNeeded ext journalPath).run env fs op s) :
    Confined ext ownedJournalStage Journal.Modeless journalPath fs op s :=
  Machine.Safe.performs recoverIfNeeded_confined (fun _ _ => rfl) h

end

/-! ### Sample recoveries -/

/-- The call removes the file `f` from `p`. -/
def removes (p : Path) (f : File) : ∀ ⦃β : Type⦄, Sys β → Fs → Bool
  | _, .unlink q, s => decide (q = p ∧ s.get q = some (.file f))
  | _, _, _ => false

theorem exists_unlink {α : Type} {prog : Prog Sys α} {env : ℕ → Choice} {fs : Fs} {p : Path}
    {f : File} (h : machine.issues (removes p f) prog env fs = true) :
    ∃ s, machine.Performs prog env fs (.unlink p) s ∧ s.get p = some (.file f) := by
  obtain ⟨β, op, s, hp, h⟩ := machine.exists_performs h
  cases op <;> try cases h
  obtain ⟨rfl, hf⟩ := of_decide_eq_true h
  exact ⟨s, hp, hf⟩

theorem not_confined_unlink {ext : Externals} {owned : Bytes → Bool} {modeless : Journal → Prop}
    {dir p : Path} {leaf : Name} {fs s : Fs} {f : File} (hf : s.get p = some (.file f))
    (hstage : p = journalStage ext dir leaf → owned f.bytes = false) (hjournal : p ≠ dir ++ [leaf])
    (hop : ∀ journal i o t, Journalled ext (.ofPath (dir ++ [leaf])) fs journal i o t →
      p ≠ t ∧ o.stage = none ∧ ¬ IsSnapshot ext.sha256Bytes (modeless journal) f o.original
        o.originalDigest o.originalMode) :
    ¬ Confined ext owned modeless (.ofPath (dir ++ [leaf])) fs (.unlink p) s := by
  rintro ⟨g, hg, hr⟩
  rw [hf] at hg
  cases hg
  cases hr with
  | journalStage hres howned =>
    rw [PathBuf.resolve_ofPath, Option.some.injEq] at hres
    obtain ⟨rfl, h⟩ := List.append_inj' hres rfl
    rw [hstage (by rw [List.singleton_inj.1 h])] at howned
    cases howned
  | journal hres _ _ =>
    rw [PathBuf.resolve_ofPath, Option.some.injEq] at hres
    exact hjournal hres.symm
  | target hj _ => exact (hop _ _ _ _ hj).1 rfl
  | stage hj hs _ =>
    rw [(hop _ _ _ _ hj).2.1] at hs
    cases hs
  | backup hj hsnap => exact (hop _ _ _ _ hj).2.2 hsnap

namespace Sample

/-- A committed journal of the older schema for the removal of `b`. -/
def older : Journal where
  schema := "aros-publication-journal-v2"
  nonce := 0x700000000
  state := .committed
  operations := [{
    target := .ofPath [ascii "b"]
    stage := none
    backup := some (.ofPath [ascii ".aros-backup-3e23e8160039594a-0000000700000000"])
    parentIdentity := ⟨1, 2⟩
    original := some ⟨1, 11⟩
    originalDigest := some digestOld
    originalMode := none
    desiredDigest := none
    desiredMode := none
    installed := none }]

/-- The external functions on this journal. -/
def olderExternals : Externals := .known
  [(ascii "b", ascii "3e23e8160039594a33894f6564e1b1348bbd7a0088d42c4acb73eeaed59c009d"),
    (ascii "old\n", digestOld),
    ([], ascii "e3b0c44298fc1c149afbf4c8996fb92427ae41e4649b934ca495991b7852b855"),
    (leaf, ascii "189f40034be7a199f1fa9891668ee3ab6049f82d38c68be70f596eab2e1857b7"),
    (journalStageMagic ++ Json.journal older,
      ascii "c873519b1a6891174d76f83df0c525ce2681dcc41e925c010aa7094c016707b6")]
  [(older, Json.journal older)] []

/-- The journal with its backup, whose permission bits somebody changed. -/
def withBackup : Fs :=
  (empty.set [leaf] (.file ⟨⟨1, 12⟩, journalStageMagic ++ Json.journal older, 0o600⟩)).set
    [ascii ".aros-backup-3e23e8160039594a-0000000700000000"]
    (.file ⟨⟨1, 11⟩, ascii "old\n", 0o600⟩)

/-- An empty journal stage and no journal. -/
def withStage : Fs := empty.set (journalStage olderExternals [] leaf) (.file ⟨⟨1, 13⟩, [], 0o644⟩)

end Sample

open Sample in
theorem recovery_confined_backup :
    ∃ s, Confined olderExternals ownedJournalStage Journal.Modeless (.ofPath [leaf]) withBackup
      (.unlink [ascii ".aros-backup-3e23e8160039594a-0000000700000000"]) s := by
  have h : machine.issues (removes [ascii ".aros-backup-3e23e8160039594a-0000000700000000"]
      ⟨⟨1, 11⟩, ascii "old\n", 0o600⟩) (recoverIfNeeded olderExternals (.ofPath [leaf])).run quiet
      withBackup = true := by decide +kernel
  obtain ⟨s, hs, -⟩ := exists_unlink h
  exact ⟨s, recovery_confined olderExternals (.ofPath [leaf]) withBackup hs⟩

open Sample in
/-- Recovery also removes an empty journal stage, and with a journal of the older schema it removes
a backup whatever its permission bits are. -/
theorem recovery_exceptions :
    (∃ s, machine.Performs (recoverIfNeeded olderExternals (.ofPath [leaf])).run quiet withStage
        (.unlink (journalStage olderExternals [] leaf)) s ∧
      ¬ Confined olderExternals journalStageMagic.isPrefixOf Journal.Modeless (.ofPath [leaf])
        withStage (.unlink (journalStage olderExternals [] leaf)) s) ∧
    ∃ s, machine.Performs (recoverIfNeeded olderExternals (.ofPath [leaf])).run quiet withBackup
        (.unlink [ascii ".aros-backup-3e23e8160039594a-0000000700000000"]) s ∧
      ¬ Confined olderExternals ownedJournalStage (fun _ => False) (.ofPath [leaf]) withBackup
        (.unlink [ascii ".aros-backup-3e23e8160039594a-0000000700000000"]) s := by
  constructor
  · have h : machine.issues (removes (journalStage olderExternals [] leaf) ⟨⟨1, 13⟩, [], 0o644⟩)
        (recoverIfNeeded olderExternals (.ofPath [leaf])).run quiet withStage = true := by
      decide
    obtain ⟨s, hs, hf⟩ := exists_unlink h
    refine ⟨s, hs, @not_confined_unlink _ _ _ [] _ _ _ _ _ hf (fun _ => rfl) (by decide) ?_⟩
    rintro journal i o t ⟨dir, leaf', f, hres, hget, -⟩
    rw [PathBuf.resolve_ofPath, Option.some.injEq] at hres
    rw [← hres, (by decide : withStage.get ([] ++ [leaf]) = none)] at hget
    cases hget
  · have h : machine.issues (removes [ascii ".aros-backup-3e23e8160039594a-0000000700000000"]
        ⟨⟨1, 11⟩, ascii "old\n", 0o600⟩) (recoverIfNeeded olderExternals (.ofPath [leaf])).run quiet
        withBackup = true := by decide +kernel
    obtain ⟨s, hs, hf⟩ := exists_unlink h
    refine ⟨s, hs, @not_confined_unlink _ _ _ [] _ _ _ _ _ hf (fun h => absurd h (by decide +kernel))
      (by decide +kernel) ?_⟩
    rintro journal i o t ⟨dir, leaf', f, hres, hget, hparse, hv⟩
    rw [PathBuf.resolve_ofPath, Option.some.injEq] at hres
    rw [← hres, (by decide +kernel : withBackup.get ([] ++ [leaf]) =
      some (.file ⟨⟨1, 12⟩, journalStageMagic ++ Json.journal older, 0o600⟩))] at hget
    cases hget
    have hjournal : parseJournal olderExternals (journalStageMagic ++ Json.journal older) =
      .ok older := by decide +kernel
    cases hjournal.symm.trans hparse
    cases i with
    | succ i => cases hv.operation
    | zero =>
      cases hv.operation
      refine ⟨fun ht => ?_, rfl, fun hsnap => ?_⟩
      · have := hv.target_eq
        rw [← ht] at this
        exact absurd this (by decide)
      · rcases hsnap.mode_eq with hm | ⟨hm, -⟩
        · cases hm
        · exact hm

end ArosTools
