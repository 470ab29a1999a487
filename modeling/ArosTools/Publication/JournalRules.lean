import ArosTools.Publication.Rules
import ArosTools.Publication.Journal

/-!
# Rules for the journal

What writing, replacing and removing a journal does to the two names it uses: the journal itself,
`jd ++ [jl]`, and its stage, `journalStage`.  A reader sees the previous journal or the new one
(`writeJournal_safe`), and the stage holds nothing or a prefix of the new one.
-/

namespace ArosTools

open Sys

/-- The name at which a journal is staged. -/
def journalStage (ext : Externals) (jd : Path) (jl : Name) : Path :=
  jd ++ [siblingName ext.sha256Bytes jl "journal-stage" 0]

/-- The journal was replaced: it is the new file `f`, and its stage is gone. -/
structure Replaced (fs : Fs) (J JS : Path) (f : File) (s : Fs) : Prop where
  same : Fs.SameOff [J, JS] fs s
  journal : s.get J = some (.file f)
  stage : s.get JS = none
  unused : fs.Unused f.identity

section

variable {ext : Externals} {fail : Bool} {U : Fs → Prop}
  {G : ∀ ⦃β : Type⦄, Sys β → Fs → Prop} {fs : Fs} {jd : Path} {jl : Name} {o : Option File}

theorem rename_result {src dst : Path} {f : File} {o : Option File}
    (hsrc : fs.get src = some (.file f)) (hdst : Holds fs dst o) :
    (do
      let n ← present fs src
      match fs.get dst with
      | some (.dir _) => .error .isdir
      | _ => if fs.isDir dst.dropLast then pure ((), fs.move src dst n) else .error .noent) =
      (.ok ((), (fs.del src).set dst (.file f)) : Except Errno (Unit × Fs)) := by
  rw [present_ok.2 hsrc, hdst.get, hdst.dirs.isDir]
  cases o <;> rfl

theorem rename_safe {src dst : Path} {f : File} {o : Option File}
    {Q : Except IoError Unit → Fs → Prop} (hsrc : fs.get src = some (.file f))
    (hdst : Holds fs dst o) (hG : G (.rename src dst) fs)
    (hok : Q (.ok ()) ((fs.del src).set dst (.file f)))
    (hf : fail = true → ∀ e, Q (.error e) fs) :
    IoSafe fail U G Q (sys (.rename src dst)) fs := by
  have hr := rename_result hsrc hdst
  refine IoSafe.sys_alter (fun _ => rfl) hG (fun c a fs' h => ?_) (fun c e h => ?_)
    fun h => hf h _
  · cases hr.symm.trans h
    exact hok
  · cases hr.symm.trans h

theorem removeRegularExact_holds {p : Path} {expected : FileIdentity} {digest : Sha256Digest}
    {Q : Except IoError Unit → Fs → Prop} (hp : Holds fs p o) (hG : QuietOk G fs)
    (hnone : o = none → Q (.ok ()) fs)
    (hdel : ∀ f, o = some f → f.identity = expected → ext.sha256Bytes f.bytes = digest →
      G (.unlink p) fs ∧ QuietOk G (fs.del p) ∧ Q (.ok ()) (fs.del p) ∧
        (fail = true → ∀ e, Q (.error e) (fs.del p)))
    (hmis : ∀ f, o = some f → ¬ (f.identity = expected ∧ ext.sha256Bytes f.bytes = digest) →
      ∀ e, Q (.error e) fs)
    (hf : fail = true → ∀ e, Q (.error e) fs) :
    IoSafe fail U G Q (removeRegularExact ext.sha256Bytes (.ofPath p) expected digest) fs := by
  refine IoSafe.bind (openParent_located hp.toLocated hG (fun h _ hfile _ => ?_) hf)
  subst hfile
  refine removeAtExactMode_holds hp hG hnone (fun f hf hex => hdel f hf hex.1 hex.2.1)
    (fun f hf hne => hmis f hf fun h => hne ⟨h.1, h.2, fun m hm => nomatch hm⟩) hf

theorem handle_eq {h : ParentHandle} {d : Path} {n : Name} (hf : h.file = d ++ [n]) :
    h.dir = d ∧ h.leaf = n := by
  have := List.append_inj' hf rfl
  exact ⟨this.1, List.singleton_inj.1 this.2⟩

theorem journalStagePath_holds {Q : Except IoError PathBuf → Fs → Prop}
    (hj : Holds fs (jd ++ [jl]) o) (hG : QuietOk G fs)
    (hok : Q (.ok (.ofPath (journalStage ext jd jl))) fs) (hf : fail = true → ∀ e, Q (.error e) fs) :
    IoSafe fail U G Q (journalStagePath ext (.ofPath (jd ++ [jl]))) fs := by
  refine IoSafe.bind (openParent_located hj.toLocated hG (fun h _ hfile _ => ?_) hf)
  obtain ⟨hd, hl⟩ := handle_eq hfile
  refine IoSafe.pure ?_
  rw [hd, hl]
  exact hok

/-- The stage of a journal holds nothing, or what an interrupted write can have left there. -/
def StageOwned (js : Option File) : Prop := ∀ f ∈ js, ownedJournalStage f.bytes = true

theorem cleanupJournalStage_safe {js : Option File} {Q : Except IoError Unit → Fs → Prop}
    (hj : Holds fs (jd ++ [jl]) o) (hjs : Holds fs (journalStage ext jd jl) js)
    (howned : StageOwned js) (hG : AllOk G fs)
    (hG' : js ≠ none → AllOk G (fs.del (journalStage ext jd jl)))
    (hnone : js = none → Q (.ok ()) fs)
    (hok : js ≠ none → Q (.ok ()) (fs.del (journalStage ext jd jl)))
    (hf : fail = true → ∀ e, Q (.error e) fs)
    (hf' : js ≠ none → fail = true → ∀ e, Q (.error e) (fs.del (journalStage ext jd jl))) :
    IoSafe fail U G Q (cleanupJournalStage ext (.ofPath (jd ++ [jl]))) fs := by
  refine IoSafe.bind (journalStagePath_holds hj hG.quiet ?_ hf)
  refine IoSafe.bind (readRegular_holds hjs hG.quiet ?_ hf)
  cases js with
  | none => exact IoSafe.pure (hnone rfl)
  | some f =>
    have hne : some f ≠ none := Option.some_ne_none f
    refine IoSafe.ite (fun _ => ?_) fun h => absurd (howned f rfl) h
    exact removeRegularExact_holds hjs hG.quiet (fun h => nomatch h)
      (fun g _ _ _ => ⟨hG _, (hG' hne).quiet, hok hne, hf' hne⟩)
      (fun g hg hne => absurd (by cases hg; exact ⟨rfl, rfl⟩) hne) hf

/-- Renaming the staged journal into place. -/
theorem installJournal_safe {fs₀ : Fs} {parent : ParentHandle} {f : File}
    {Q : Except IoError Unit → Fs → Prop} (hne : jd ++ [jl] ≠ journalStage ext jd jl)
    (hparent : parent.file = jd ++ [jl]) (hj₀ : Holds fs₀ (jd ++ [jl]) o)
    (hjs₀ : Holds fs₀ (journalStage ext jd jl) none)
    (hw : Written fs₀ (journalStage ext jd jl) f fs) (hG : AllOk G fs)
    (hG' : ∀ s, Replaced fs₀ (jd ++ [jl]) (journalStage ext jd jl) f s → QuietOk G s)
    (hok : ∀ s, Replaced fs₀ (jd ++ [jl]) (journalStage ext jd jl) f s → Q (.ok ()) s)
    (hf : fail = true → ∀ e, Q (.error e) fs)
    (hf' : fail = true → ∀ e s, Replaced fs₀ (jd ++ [jl]) (journalStage ext jd jl) f s →
      Q (.error e) s) :
    IoSafe fail U G Q (installJournal parent (.ofPath (journalStage ext jd jl))) fs := by
  have hjs := hw.holds hjs₀.toLocated
  have hj : Holds fs (jd ++ [jl]) o := by
    refine hj₀.sameOff hw.same (fun q hq hqp => ?_) ?_
    · rw [List.mem_singleton] at hqp
      subst hqp
      exact not_snoc_prefix (by simpa [journalStage] using hq)
    · rw [hw.same.get _ (by simpa using hne), hj₀.get]
  have hrep : Replaced fs₀ (jd ++ [jl]) (journalStage ext jd jl) f
      ((fs.del (journalStage ext jd jl)).set (jd ++ [jl]) (.file f)) := by
    refine ⟨?_, by simp, ?_, hw.unused⟩
    · exact ((hw.same.mono (by simp)).trans (.del (by simp))).trans (.set _ (by simp))
    · rw [Fs.get_set_of_ne hne.symm, Fs.get_del_self]
  have hsync := fsync_safe (U := U) (p := parent.dir) (hG' _ hrep) (hok _ hrep)
    fun h => hf' h _ _ hrep
  have hget : fs.get (journalStage ext jd jl) = some (.file f) := hw.get
  unfold installJournal renameNoclobber
  refine IoSafe.bind (openParent_located hjs.toLocated hG.quiet (fun staged _ hstaged _ => ?_) hf)
  refine IoSafe.bind (identityAt_holds (by rw [← hj.get, ← hparent]; rfl) hG.quiet ?_ hf)
  refine IoSafe.ite (fun _ => ?_) fun hno => ?_
  · refine IoSafe.bind (?_ : IoSafe fail U G _ (sys (.rename staged.file parent.file)) fs)
    rw [hstaged, hparent]
    exact rename_safe hget hj (hG _) hsync hf
  · refine IoSafe.bind (?_ :
      IoSafe fail U G _ (sys (.renameNoReplace staged.file parent.file)) fs)
    rw [hstaged, hparent]
    cases o with
    | none => exact renameNoReplace_safe hget hj (hG _) hsync hf
    | some g => simp at hno

/-- **Writing a journal** whose stage is free: the journal stays the old one until it is the new
one, and without failures it becomes the new one unless it cannot be encoded. -/
theorem writeJournal_safe {journal : Journal} {Q : Except IoError Unit → Fs → Prop}
    (hne : jd ++ [jl] ≠ journalStage ext jd jl) (hj : Holds fs (jd ++ [jl]) o)
    (hjs : Holds fs (journalStage ext jd jl) none) (hG₀ : AllOk G fs)
    (hG : ∀ bytes s, encodeJournal ext journal = .ok bytes →
      Writing fs (journalStage ext jd jl) bytes s → AllOk G s)
    (hG' : ∀ f s, encodeJournal ext journal = .ok f.bytes →
      Replaced fs (jd ++ [jl]) (journalStage ext jd jl) f s → QuietOk G s)
    (hok : ∀ f s, encodeJournal ext journal = .ok f.bytes →
      Replaced fs (jd ++ [jl]) (journalStage ext jd jl) f s → Q (.ok ()) s)
    (hbad : ∀ e, encodeJournal ext journal = .error e → Q (.error e) fs)
    (hf : fail = true → ∀ bytes e s, encodeJournal ext journal = .ok bytes →
      Writing fs (journalStage ext jd jl) bytes s → Q (.error e) s)
    (hf' : fail = true → ∀ f e s, encodeJournal ext journal = .ok f.bytes →
      Replaced fs (jd ++ [jl]) (journalStage ext jd jl) f s → Q (.error e) s) :
    IoSafe fail U G Q (writeJournal ext (.ofPath (jd ++ [jl])) journal) fs := by
  unfold writeJournal
  cases henc : encodeJournal ext journal with
  | error e => exact IoSafe.bind (IoSafe.throw (hbad e henc))
  | ok bytes =>
    have hrefl : Writing fs (journalStage ext jd jl) bytes fs := ⟨.refl _ _, .inl hjs.get⟩
    have hf₀ := fun hfail e => hf hfail bytes e fs henc hrefl
    refine IoSafe.bind (IoSafe.pure ?_)
    refine IoSafe.bind (openParent_located hj.toLocated hG₀.quiet (fun parent _ hparent _ => ?_) hf₀)
    refine IoSafe.bind (journalStagePath_holds hj hG₀.quiet ?_ hf₀)
    refine IoSafe.bind (cleanupJournalStage_safe hj hjs (fun f hf => nomatch hf) hG₀
      (fun h => absurd rfl h) (fun _ => ?_) (fun h => absurd rfl h) hf₀ fun h => absurd rfl h)
    refine IoSafe.bind (writeNewFileMode_located hjs.toLocated hG₀ (fun _ s hs => hG bytes s henc hs)
      (fun _ i s hs => ?_) (fun _ hfail e s hs => hf hfail bytes e s henc hs)
      fun e h => hf₀ (h.resolve_left fun h => h hjs.get) e)
    have hall := hG bytes s henc (hs.writing (List.prefix_refl _))
    refine IoSafe.bind (IoSafe.attempt (installJournal_safe hne hparent hj hjs hs hall
      (fun s hs => hG' _ s henc hs) (fun s hs => IoSafe.pure (hok _ s henc hs)) (fun hfail e => ?_)
      fun hfail e s' hs' => ?_))
    · -- the rename did not happen: the stage is removed again, as far as that succeeds
      have hdel : Writing fs (journalStage ext jd jl) bytes (s.del (journalStage ext jd jl)) :=
        hs.del
      refine IoSafe.bind (IoSafe.attempt (removeRegularExact_holds (hs.holds hjs.toLocated) hall.quiet
        (fun h => nomatch h) (fun g hg _ _ => ?_)
        (fun g hg hne => absurd (by cases hg; exact ⟨rfl, rfl⟩) hne)
        fun _ e => IoSafe.throw (hf hfail bytes _ s henc (hs.writing (List.prefix_refl _)))))
      exact ⟨hall _, (hG bytes _ henc hdel).quiet, IoSafe.throw (hf hfail bytes _ _ henc hdel),
        fun _ e => IoSafe.throw (hf hfail bytes _ _ henc hdel)⟩
    · -- the rename did happen: there is no stage to remove
      have hjs' : Holds s' (journalStage ext jd jl) none := by
        refine hjs.sameOff hs'.same (fun q hq hqX => ?_) (by rw [hs'.stage]; rfl)
        rw [journalStage, List.dropLast_concat] at hq
        rcases List.mem_pair.1 hqX with rfl | rfl
        · exact not_snoc_prefix hq
        · exact not_snoc_prefix hq
      exact IoSafe.bind (IoSafe.attempt (removeRegularExact_holds hjs' (hG' _ s' henc hs')
        (fun _ => IoSafe.throw (hf' hfail _ _ s' henc hs')) (fun _ h => nomatch h)
        (fun _ h => nomatch h) fun _ e => IoSafe.throw (hf' hfail _ _ s' henc hs')))

theorem removeJournal_safe {f : File} {Q : Except IoError Unit → Fs → Prop}
    (hj : Holds fs (jd ++ [jl]) (some f)) (hG : AllOk G fs) (hG' : AllOk G (fs.del (jd ++ [jl])))
    (hok : Q (.ok ()) (fs.del (jd ++ [jl]))) (hf : fail = true → ∀ e, Q (.error e) fs)
    (hf' : fail = true → ∀ e, Q (.error e) (fs.del (jd ++ [jl]))) :
    IoSafe fail U G Q (removeJournal ext (.ofPath (jd ++ [jl])) f.identity) fs := by
  refine IoSafe.bind (readRegular_holds hj hG.quiet ?_ hf)
  exact removeRegularExact_holds hj hG.quiet (fun h => nomatch h)
    (fun _ _ _ _ => ⟨hG _, hG'.quiet, hok, hf'⟩)
    (fun g hg hne => absurd (by cases hg; exact ⟨rfl, rfl⟩) hne) hf

end

end ArosTools
