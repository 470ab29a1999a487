import ArosTools.Publication.JournalRules
import ArosTools.Publication.Commit

/-!
# Successful runs

`Yields Q p fs` says that every run of `p` from `fs` that answers `Ok` ends as `Q` says, whatever
calls failed on the way.  There is one rule for each helper of the publication code.
-/

namespace ArosTools

open Sys

/-- Every run of `p` from `fs` that answers `Ok` ends as `Q` says. -/
def Yields {α : Type} (Q : α → Fs → Prop) (p : Io α) (fs : Fs) : Prop :=
  IoSafe true (fun _ => False) (fun _ _ _ => True) (fun r s => ∀ a, r = .ok a → Q a s) p fs

namespace Yields

variable {α β : Type} {Q Q' : α → Fs → Prop} {fs : Fs}

theorem weaken {p : Io α} (h : Yields Q p fs) (hQ : ∀ a s, Q a s → Q' a s) : Yields Q' p fs :=
  IoSafe.weaken h fun _ s hr a ha => hQ a s (hr a ha)

theorem bind {p : Io β} {f : β → Io α} {R : β → Fs → Prop} (h : Yields R p fs)
    (hf : ∀ b s, R b s → Yields Q (f b) s) : Yields Q (p >>= f) fs := by
  refine IoSafe.bind (IoSafe.weaken h ?_)
  rintro (e | b) s hr
  · exact fun _ h => by cases h
  · exact hf b s (hr b rfl)

theorem pure {a : α} (h : Q a fs) : Yields Q (Pure.pure a : Io α) fs :=
  IoSafe.pure fun _ ha => Except.ok.inj ha ▸ h

theorem trivial (p : Io α) : Yields (fun _ _ => True) p fs :=
  IoSafe.weaken (Machine.Safe.trivial p.run fs) fun _ _ _ _ _ => True.intro

theorem throw (e : IoError) : Yields Q (MonadExcept.throw e : Io α) fs :=
  IoSafe.throw fun _ h => by cases h

theorem attempt {p : Io α} (h : Yields Q p fs) :
    Yields (fun r s => ∀ a, r = .ok a → Q a s) (ArosTools.attempt p) fs :=
  IoSafe.attempt (IoSafe.weaken h fun _ _ hr _ ha => Except.ok.inj ha ▸ hr)

theorem mapErr {p : Io α} (f : IoError → IoError) (h : Yields Q p fs) :
    Yields Q (ArosTools.mapErr f p) fs := by
  refine IoSafe.mapErr (IoSafe.weaken h ?_)
  rintro (e | a) s hr
  · exact fun _ h => by cases h
  · exact hr

theorem liftExcept (x : Except IoError α) :
    Yields (fun a s => x = .ok a ∧ s = fs) (ArosTools.liftExcept x) fs :=
  IoSafe.liftExcept fun _ ha => ⟨ha, rfl⟩

theorem okOr (o : Option α) (e : IoError) :
    Yields (fun a s => o = some a ∧ s = fs) (ArosTools.okOr o e) fs :=
  IoSafe.okOr (fun _ h _ hb => Except.ok.inj hb ▸ ⟨h, rfl⟩) fun _ _ h => nomatch h

theorem ite {c : Prop} [Decidable c] {p q : Io α} (hp : c → Yields Q p fs)
    (hq : ¬ c → Yields Q q fs) : Yields Q (if c then p else q) fs := IoSafe.ite hp hq

theorem exec {p : Io α} (h : Yields Q p fs) {env : ℕ → Choice} {a : α} {s : Fs}
    (he : machine.exec p.run env fs = (.ok a, s)) : Q a s := by
  have := Machine.Safe.exec h fun n => permits_true (env n)
  rw [he] at this
  exact this a rfl

end Yields

/-! ### The helpers -/

section

variable {fs : Fs} {sha256Bytes : Bytes → Sha256Digest}

theorem quietOk_true (fs : Fs) : QuietOk (fun _ _ _ => True) fs := fun _ _ _ => trivial

theorem allOk_true (fs : Fs) : AllOk (fun _ _ _ => True) fs := fun _ _ => trivial

theorem openParent_located_yields {p : Path} (hp : Located fs p) (create : Bool) :
    Yields (fun h s => s = fs ∧ h.file = p) (openParent (.ofPath p) create) fs :=
  openParent_located hp (quietOk_true fs)
    (fun _ _ hf _ _ ha => Except.ok.inj ha ▸ ⟨rfl, hf⟩) fun _ _ _ h => nomatch h

theorem fsync_yields (p : Path) : Yields (fun _ s => s = fs) (sys (.fsync p)) fs :=
  fsync_safe (quietOk_true fs) (fun _ _ => rfl) fun _ _ h => nomatch h

theorem syncParent_yields (path : PathBuf) : Yields (fun _ s => s = fs) (syncParent path) fs :=
  syncParent_safe (quietOk_true fs) fun _ _ _ => rfl

theorem readRegularWithMode_yields {p : Path} (hp : Located fs p) :
    Yields (fun r s => s = fs ∧ fs.get p = r.map .file) (readRegularWithMode (.ofPath p)) fs :=
  readRegularWithMode_located hp (quietOk_true fs)
    (fun h _ ha => Except.ok.inj ha ▸ ⟨rfl, h⟩) (fun _ h _ ha => Except.ok.inj ha ▸ ⟨rfl, h⟩)
    (fun _ _ _ _ _ h => nomatch h) fun _ _ _ h => nomatch h

theorem readRegularWithMode_same (path : PathBuf) :
    Yields (fun _ s => s = fs) (readRegularWithMode path) fs :=
  readRegularWithMode_safe (quietOk_true fs) (fun _ _ _ _ _ _ => rfl) (fun _ _ => rfl)
    fun _ _ _ => rfl

theorem readRegular_yields {p : Path} (hp : Located fs p) :
    Yields (fun r s => s = fs ∧ ∃ o : Option File, fs.get p = o.map .file ∧
      r = o.map fun f => (f.identity, f.bytes)) (readRegular (.ofPath p)) fs := by
  refine .bind (readRegularWithMode_yields hp) ?_
  rintro o s ⟨rfl, ho⟩
  exact .pure ⟨rfl, o, ho, rfl⟩

theorem renameNoReplace_yields {src dst : Path} {f : File} (hsrc : fs.get src = some (.file f)) :
    Yields (fun _ s => fs.get dst = none ∧ s = (fs.del src).set dst (.file f))
      (sys (.renameNoReplace src dst)) fs := by
  refine IoSafe.sys_alter (r := fun _ => do
    let n ← present fs src
    vacant fs dst
    pure ((), fs.move src dst n)) (fun _ => rfl) trivial (fun c a fs' h _ _ => ?_)
    (fun _ _ _ _ h => nomatch h) fun _ _ h => nomatch h
  rw [present_ok.2 hsrc] at h
  cases hv : Sys.vacant fs dst with
  | error e => rw [hv] at h; cases h
  | ok u =>
    rw [hv] at h
    cases h
    exact ⟨(vacant_ok hv).2, rfl⟩

/-- The name `p` was unbound, or a file satisfying `P` was removed from it. -/
def Removed (P : File → Prop) (p : Path) (fs s : Fs) : Prop :=
  (s = fs ∧ fs.get p = none) ∨ ∃ f, fs.get p = some (.file f) ∧ P f ∧ s = fs.del p

theorem Removed.get {P : File → Prop} {p : Path} {s : Fs} (h : Removed P p fs s) :
    s.get p = none := by
  rcases h with ⟨rfl, h⟩ | ⟨f, -, -, rfl⟩
  · exact h
  · exact Fs.get_del_self fs p

theorem removeAtExactMode_yields {parent : ParentHandle} {expected : FileIdentity}
    {digest : Sha256Digest} {mode : Option ℕ} (hp : Located fs parent.file) :
    Yields (fun _ s => Removed (fun f => f.identity = expected) parent.file fs s)
      (removeAtExactMode sha256Bytes parent expected digest mode) fs := by
  refine .bind (readRegularWithMode_yields hp) ?_
  rintro (_ | f) s ⟨rfl, hf⟩
  · exact .pure (.inl ⟨rfl, hf⟩)
  · refine .ite (fun _ => .throw _) fun hgood => ?_
    have hdel : Removed (fun f => f.identity = expected) parent.file s (s.del parent.file) :=
      .inr ⟨f, hf, (exactFile_iff.2 hgood).1, rfl⟩
    exact IoSafe.bind (unlink_safe hf trivial (fsync_safe (quietOk_true _) (fun _ _ => hdel)
      fun _ _ h => nomatch h) fun _ _ _ h => nomatch h)

theorem removeRegularExact_yields {p : Path} {expected : FileIdentity} {digest : Sha256Digest}
    (hp : Located fs p) :
    Yields (fun _ s => Removed (fun f => f.identity = expected) p fs s)
      (removeRegularExact sha256Bytes (.ofPath p) expected digest) fs := by
  refine .bind (openParent_located_yields hp false) ?_
  rintro h s ⟨rfl, rfl⟩
  exact removeAtExactMode_yields hp

theorem openAuxParent_yields {operation : JournalOperation} {p : Path} (hp : Located fs p) :
    Yields (fun h s => s = fs ∧ h.file = p) (openAuxParent operation (.ofPath p)) fs := by
  refine .bind (openParent_located_yields hp false) fun h s hs => ?_
  refine IoSafe.bind (fstat_safe (quietOk_true s) ?_ fun _ _ h => nomatch h)
  exact Yields.ite (fun _ => .throw _) fun _ => .pure hs

theorem removeOperationAuxExact_yields {operation : JournalOperation} {p : Path}
    {expected : FileIdentity} {digest : Sha256Digest} {mode : Option ℕ} (hp : Located fs p) :
    Yields (fun _ s => Removed (fun f => f.identity = expected) p fs s)
      (removeOperationAuxExact sha256Bytes operation (.ofPath p) expected digest mode) fs := by
  refine .bind (openAuxParent_yields hp) ?_
  rintro h s ⟨rfl, rfl⟩
  exact removeAtExactMode_yields hp

theorem writeNewFileMode_yields {p : Path} {contents : Bytes} {mode : ℕ} (hp : Located fs p) :
    Yields (fun i s => fs.get p = none ∧ Written fs p ⟨i, contents, mode⟩ s)
      (writeNewFileMode sha256Bytes (.ofPath p) contents mode) fs :=
  writeNewFileMode_located hp (allOk_true fs) (fun _ s _ => allOk_true s)
    (fun hn _ _ hs _ ha => Except.ok.inj ha ▸ ⟨hn, hs⟩) (fun _ _ _ _ _ _ h => nomatch h)
    fun _ _ _ h => nomatch h

/-! ### The journal -/

section

variable {ext : Externals} {jd : Path} {jl : Name}

theorem located_snoc {d : Path} (hd : fs.Dirs d) (n : Name) : Located fs (d ++ [n]) :=
  ⟨by simp, by simpa using hd⟩

theorem Removed.sameOff {P : File → Prop} {p : Path} {s : Fs} (h : Removed P p fs s) :
    Fs.SameOff [p] fs s := by
  rcases h with ⟨rfl, -⟩ | ⟨f, -, -, rfl⟩
  · exact .refl _ _
  · exact .del (List.mem_singleton.2 rfl)

theorem isDir_del {p q : Path} (h : fs.isDir q = false) : (fs.del p).isDir q = false := by
  unfold Fs.isDir at h ⊢
  rw [Fs.get_del]
  by_cases hq : q = p
  · rw [if_pos hq]
  · rw [if_neg hq]
    exact h

theorem Removed.dirsLe {P : File → Prop} {p : Path} {s : Fs} (h : Removed P p fs s) :
    fs.DirsLe s := by
  rcases h with ⟨rfl, -⟩ | ⟨f, hf, -, rfl⟩
  · exact .refl _
  · exact Fs.dirsLe_del (by rw [Fs.isDir, hf])

theorem Written.dirsLe {p : Path} {f : File} {s : Fs} (h : Written fs p f s)
    (hp : fs.get p = none) : fs.DirsLe s := by
  intro q i hq
  rw [h.same.get]
  · exact hq
  · intro hqp
    rw [List.mem_singleton.1 hqp, hp] at hq
    cases hq

theorem journalStagePath_yields (hd : fs.Dirs jd) :
    Yields (fun r s => s = fs ∧ r = .ofPath (journalStage ext jd jl))
      (journalStagePath ext (.ofPath (jd ++ [jl]))) fs := by
  refine .bind (openParent_located_yields (located_snoc hd jl) true) ?_
  rintro h s ⟨rfl, hf⟩
  obtain ⟨hdir, hleaf⟩ := handle_eq hf
  exact .pure ⟨rfl, by rw [hdir, hleaf]; rfl⟩

theorem cleanupJournalStage_yields (hd : fs.Dirs jd) :
    Yields (fun _ s => Removed (fun _ => True) (journalStage ext jd jl) fs s)
      (cleanupJournalStage ext (.ofPath (jd ++ [jl]))) fs := by
  have hjs : Located fs (journalStage ext jd jl) := located_snoc hd _
  refine .bind (journalStagePath_yields hd) ?_
  rintro _ s ⟨rfl, rfl⟩
  refine .bind (readRegular_yields hjs) ?_
  rintro r s ⟨rfl, o, ho, rfl⟩
  cases o with
  | none => exact .pure (.inl ⟨rfl, ho⟩)
  | some f =>
    refine .ite (fun _ => ?_) fun _ => .throw _
    refine (removeRegularExact_yields hjs).weaken fun _ s' h => h.imp id ?_
    rintro ⟨g, hg, -, hs⟩
    exact ⟨g, hg, trivial, hs⟩

theorem identityAt_yields (parent : ParentHandle) (leaf : Name) :
    Yields (fun r s => s = fs ∧ ∃ o : Option File, fs.get (parent.dir ++ [leaf]) = o.map .file ∧
      r = o.map File.identity) (identityAt parent leaf) fs := by
  refine IoSafe.bind (IoSafe.sysResult_peek (fun _ => rfl) trivial ?_
    fun _ => IoSafe.throw fun _ h => by cases h)
  cases hn : fs.get (parent.dir ++ [leaf]) with
  | none =>
    rw [present, hn]
    exact IoSafe.pure fun _ ha => Except.ok.inj ha ▸ ⟨rfl, none, rfl, rfl⟩
  | some n =>
    rw [present_ok.2 hn]
    cases n with
    | file f => exact IoSafe.pure fun _ ha => Except.ok.inj ha ▸ ⟨rfl, some f, rfl, rfl⟩
    | dir i => exact IoSafe.throw fun _ h => by cases h
    | other i => exact IoSafe.throw fun _ h => by cases h

/-- A journal was written: nothing but its two names changed, and its stage is gone. -/
structure JournalWritten (ext : Externals) (jd : Path) (jl : Name) (fs s : Fs) : Prop where
  same : Fs.SameOff [jd ++ [jl], journalStage ext jd jl] fs s
  journal : ∃ f, s.get (jd ++ [jl]) = some (.file f)
  stage : journalStage ext jd jl ≠ jd ++ [jl] → s.get (journalStage ext jd jl) = none
  dirs : fs.DirsLe s

theorem installJournal_yields {parent : ParentHandle} {f : File} (hd : fs.Dirs jd)
    (hparent : parent.file = jd ++ [jl]) (hf : fs.get (journalStage ext jd jl) = some (.file f)) :
    Yields (fun _ s => fs.isDir (jd ++ [jl]) = false ∧
        s = (fs.del (journalStage ext jd jl)).set (jd ++ [jl]) (.file f))
      (installJournal parent (.ofPath (journalStage ext jd jl))) fs := by
  refine .bind (openParent_located_yields (located_snoc hd _) false) ?_
  rintro staged s ⟨rfl, hstaged⟩
  refine .bind (identityAt_yields parent parent.leaf) ?_
  rintro r s ⟨rfl, o, ho, rfl⟩
  have hj : Holds s (jd ++ [jl]) o := ⟨located_snoc hd jl, by rw [← hparent]; exact ho⟩
  have hend : ∀ s' : Fs, Yields (fun _ s'' => s.isDir (jd ++ [jl]) = false ∧ s'' = s')
      (sys (.fsync parent.dir)) s' := fun s' => (fsync_yields _).weaken fun _ _ h => ⟨hj.isDir, h⟩
  change s.get (journalStage ext jd jl) = _ at hf
  split
  · refine IoSafe.bind (?_ : IoSafe true _ _ _ (sys (.rename staged.file parent.file)) s)
    rw [hstaged, hparent]
    exact rename_safe hf hj trivial (hend _) fun _ _ _ h => nomatch h
  · refine Yields.bind (?_ : Yields (fun _ s' =>
        s' = (s.del (journalStage ext jd jl)).set (jd ++ [jl]) (.file f))
      (renameNoclobber staged parent) s) ?_
    · rw [renameNoclobber, hstaged, hparent]
      exact (renameNoReplace_yields hf).weaken fun _ _ h => h.2
    · rintro _ s' rfl
      exact hend _

theorem writeJournal_yields (journal : Journal) (hd : fs.Dirs jd) :
    Yields (fun _ s => JournalWritten ext jd jl fs s)
      (writeJournal ext (.ofPath (jd ++ [jl])) journal) fs := by
  have hnot : ∀ q, q <+: jd → q ∉ [journalStage ext jd jl] := by
    intro q hq hqX
    rw [List.mem_singleton] at hqX
    subst hqX
    exact not_snoc_prefix hq
  refine .bind (.liftExcept _) ?_
  rintro bytes s ⟨-, rfl⟩
  refine .bind (openParent_located_yields (located_snoc hd jl) true) ?_
  rintro parent s ⟨rfl, hparent⟩
  refine .bind (journalStagePath_yields hd) ?_
  rintro _ s ⟨rfl, rfl⟩
  refine .bind (cleanupJournalStage_yields hd) fun _ s₁ hs₁ => ?_
  have hd₁ := hs₁.sameOff.dirs hd hnot
  refine .bind (writeNewFileMode_yields (located_snoc hd₁ _)) ?_
  rintro i s₂ ⟨hfree, hs₂⟩
  have hd₂ := hs₂.same.dirs hd₁ hnot
  refine .bind (.attempt (installJournal_yields hd₂ hparent hs₂.get)) fun r s₃ hs₃ => ?_
  cases r with
  | error e => exact .bind (.attempt (.trivial _)) fun _ _ _ => .throw _
  | ok u =>
    obtain ⟨hdir, rfl⟩ := hs₃ u rfl
    refine .pure ⟨?_, ⟨_, by simp; rfl⟩, fun hne => ?_, ?_⟩
    · have hsub : ∀ q ∈ [journalStage ext jd jl], q ∈ [jd ++ [jl], journalStage ext jd jl] :=
        fun q hq => List.mem_cons_of_mem _ hq
      exact ((hs₁.sameOff.mono hsub).trans (hs₂.same.mono hsub)).trans
        ((Fs.SameOff.del (by simp)).trans (.set _ (by simp)))
    · rw [Fs.get_set_of_ne hne, Fs.get_del_self]
    · refine (hs₁.dirsLe.trans (hs₂.dirsLe hfree)).trans ((Fs.dirsLe_del ?_).trans (Fs.dirsLe_set ?_))
      · rw [Fs.isDir, hs₂.get]
      · exact isDir_del hdir

theorem removeJournal_yields {identity : FileIdentity} {s : Fs} (hd : s.Dirs jd) :
    Yields (fun _ s' => Removed (fun f => f.identity = identity) (jd ++ [jl]) s s')
      (removeJournal ext (.ofPath (jd ++ [jl])) identity) s := by
  refine .bind (readRegular_yields (located_snoc hd jl)) ?_
  rintro r s' ⟨rfl, o, -, rfl⟩
  cases o with
  | none => exact .throw _
  | some f => exact removeRegularExact_yields (located_snoc hd jl)

end

end

end ArosTools
