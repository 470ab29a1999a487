import ArosTools.Transpiler.MakeBudget

/-!
# Where an evaluation panics

Every slice of the evaluator is taken between boundaries, but for one: to show a reference that it
refuses, `reject_unsupported_references` takes two bytes from the dollar on.

* `panics_iff_dangling` : it panics exactly on the dangling texts, no other scanner panics, and an
  evaluation panics only there; once its text is expanded it panics exactly if the value dangles.
* `evaluateMakeExpr_panics` : two characters that make it panic.
-/

namespace ArosTools

namespace MakeExpr

open Str Eval Scoped

/-- The result is a panic. -/
def Panics {α : Type} (r : Except Halt α) : Prop := ∃ h, r = .error h ∧ h.isPanic = true

variable {ev : Evaluator} {files : Filesystem} {raw : Text}

theorem rejectUnsupportedReferences_panics_iff (text : Text) :
    Panics (rejectUnsupportedReferences text) ↔ Dangling text :=
  ⟨fun ⟨_, hresult, hpanic⟩ => (rejectUnsupportedReferences_panic hresult hpanic).1,
    rejectUnsupportedReferences_dangling⟩

theorem referenceEnd_noPanic (pre tail : Text) :
    NoPanic (referenceEnd (pre ++ '$' :: '(' :: tail) (len pre)) := by
  intro h hr
  rw [referenceEnd_eq] at hr
  split at hr
  · cases hr
  · cases hr
    rfl

/-- No budget is refused with a panic. -/
theorem refusal_noPanic (c : Charge) : (evaluator.refusal c).isPanic = false := by
  cases c <;> rfl

/-- A panic of a program that halts as expected is the slice of a dangling text. -/
theorem expected_of_run {α : Type} {p : Eval α} (hp : Fine 0 p) {h : Halt}
    (hrun : (evaluator.run p start).1 = .error h) (hpanic : h.isPanic = true) :
    ∃ text first last, h = .slice text first last ∧ Dangling text := by
  rcases (hp start.env rfl).run with ⟨a, ha, -⟩ | ⟨x, hx, hexpected⟩ | ⟨c, hc⟩
  · rw [hrun] at ha
    cases ha
  · obtain rfl : x = h := Except.error.inj (hx.symm.trans hrun)
    exact hexpected hpanic
  · obtain rfl : h = evaluator.refusal c := Except.error.inj (hrun.symm.trans hc)
    rw [refusal_noPanic] at hpanic
    cases hpanic

/-- A panic of an evaluation is a panic of its program. -/
theorem evaluate_panic {α : Type} {context : MakeExprContext} {program : Evaluator → Eval α}
    {h : Halt} (hresult : evaluate context program = .error h) (hpanic : h.isPanic = true) :
    ∃ ev, Evaluator.new context = .ok ev ∧ (evaluator.run (program ev) start).1 = .error h := by
  unfold evaluate at hresult
  cases hnew : Evaluator.new context with
  | ok ev =>
    rw [hnew] at hresult
    exact ⟨ev, rfl, hresult⟩
  | error e =>
    -- The evaluator itself is refused with an error only.
    rw [hnew] at hresult
    obtain rfl : e = h := Except.error.inj hresult
    have hno : e.isPanic = false := by
      unfold Evaluator.new at hnew
      split_ifs at hnew
      · cases hnew
        rfl
      · cases hsource : pathText context.sourceDir (lit "source directory") with
        | error e' =>
          rw [hsource] at hnew
          cases hnew
          exact pathText_noPanic _ _ _ hsource
        | ok source =>
          rw [hsource, Except.ok_bind] at hnew
          cases hrelative : pathText context.relativeDir (lit "relative mmakefile directory") with
          | error e' =>
            rw [hrelative] at hnew
            cases hnew
            exact pathText_noPanic _ _ _ hrelative
          | ok relative =>
            rw [hrelative] at hnew
            cases hnew
    rw [hno] at hpanic
    cases hpanic

/-- What follows the last check cannot panic. -/
theorem restoreDollars_noPanic (value : Text) (s : Interp.State Frames EvaluationBudget) :
    ¬Panics (evaluator.run (restoreDollars value) s).1 := by
  have hsafe : evaluator.Safe (fun _ => True) (fun h => h.isPanic = false) (fun _ => True)
      (restoreDollars value) s.env := by
    unfold restoreDollars
    split_ifs
    · exact trivial
    · exact fun _ _ _ => trivial
  rintro ⟨h, hresult, hpanic⟩
  rcases hsafe.run with ⟨a, ha, -⟩ | ⟨x, hx, hno⟩ | ⟨c, hc⟩
  · rw [ha] at hresult
    cases hresult
  · obtain rfl : x = h := Except.error.inj (hx.symm.trans hresult)
    rw [hno] at hpanic
    cases hpanic
  · obtain rfl : h = evaluator.refusal c := Except.error.inj (hresult.symm.trans hc)
    rw [refusal_noPanic] at hpanic
    cases hpanic

/-- `finish_value` panics exactly on a dangling value, if the budget lets it look at the value. -/
theorem finishValue_panics_iff {value : Text} {s : Interp.State Frames EvaluationBudget}
    (hscan : s.budget.scannedBytes + len value ≤ maxScannedBytes) :
    Panics (evaluator.run (finishValue value) s).1 ↔ Dangling value := by
  have hspend : evaluator.spend (.scanned (len value)) s.budget =
      some { s.budget with scannedBytes := s.budget.scannedBytes + len value } :=
    congrArg (Option.map _) (if_pos hscan)
  have hrun : evaluator.run (finishValue value) s =
      evaluator.run (ofExcept (rejectUnsupportedReferences value) >>= fun _ => restoreDollars value)
        ⟨s.env, _⟩ := evaluator.run_charge_some hspend _
  rw [hrun, ← rejectUnsupportedReferences_panics_iff]
  cases rejectUnsupportedReferences value with
  | error h =>
    refine ⟨?_, ?_⟩
    · rintro ⟨x, hx, hpanic⟩
      obtain rfl : h = x := Except.error.inj hx
      exact ⟨h, rfl, hpanic⟩
    · rintro ⟨x, hx, hpanic⟩
      obtain rfl : h = x := Except.error.inj hx
      exact ⟨h, rfl, hpanic⟩
  | ok u =>
    refine ⟨fun hpanics => absurd hpanics (restoreDollars_noPanic value _), ?_⟩
    rintro ⟨h, hresult, -⟩
    cases hresult

/-- **Where an evaluation panics.** The last check of a value panics exactly on the dangling texts.
No other scanner panics on any text, an evaluation panics only where that check does, and once its
text is expanded it panics exactly if the value it came to dangles. -/
theorem panics_iff_dangling (files : Filesystem) (raw : Text) (context : MakeExprContext) :
    (∀ text, Panics (rejectUnsupportedReferences text) ↔ Dangling text) ∧
    ((∀ pre tail, NoPanic (referenceEnd (pre ++ '$' :: '(' :: tail) (len pre))) ∧
      (∀ raw, NoPanic (splitTopLevel raw ',')) ∧
      (∀ body, NoPanic (splitSubstitutionReference body)) ∧
      (∀ raw headEnd, topLevelWhitespace raw = some headEnd →
        NoPanic (slicedTo raw headEnd) ∧ NoPanic (slicedFrom raw headEnd)) ∧
      ∀ pattern word, NoPanic (patternStem pattern word)) ∧
    (∀ h, evaluateMakeExpr files raw context = .error h ∨
        evaluateMakeList files raw context = .error h →
      h.isPanic = true → ∃ text first last, h = .slice text first last ∧ Dangling text) ∧
    (∀ ev value s, Evaluator.new context = .ok ev →
      evaluator.run (expandText ev files maxExpansionDepth raw) start = (.ok value, s) →
      s.budget.scannedBytes + len value ≤ maxScannedBytes →
      (Panics (evaluateMakeExpr files raw context) ↔ Dangling value)) := by
  refine ⟨rejectUnsupportedReferences_panics_iff, ⟨referenceEnd_noPanic,
    fun raw => splitTopLevel_noPanic raw (by decide), splitSubstitutionReference_noPanic,
    fun raw headEnd hhead => ?_, patternStem_noPanic⟩, ?_, ?_⟩
  · have hcut := topLevelWhitespace_boundary hhead
    exact ⟨noPanic_of_ok hcut.slicedTo, noPanic_of_ok hcut.slicedFrom⟩
  · rintro h (hresult | hresult) hpanic
    · obtain ⟨ev, -, hrun⟩ := evaluate_panic hresult hpanic
      exact expected_of_run (expressionProgram_spec ev files raw).fine hrun hpanic
    · obtain ⟨ev, -, hrun⟩ := evaluate_panic hresult hpanic
      exact expected_of_run (listProgram_fine ev files raw) hrun hpanic
  · intro ev value s hnew hexpand hscan
    have hresult : evaluateMakeExpr files raw context =
        (evaluator.run (finishValue value) s).1 := by
      rw [evaluateMakeExpr, evaluate, hnew, Except.ok_bind, expressionProgram]
      exact congrArg Prod.fst (evaluator.run_bind_ok hexpand _)
    rw [hresult]
    exact finishValue_panics_iff hscan

/-- A context with nothing in it. -/
def emptyContext : MakeExprContext where
  scope := { rawAt := fun _ => none, conditionallyAssignedBefore := fun _ => false }
  dirs := { resolved := fun _ => none, materializedPath := fun _ => none }
  sourceDir := .valid (lit "/src")
  relativeDir := .valid (lit "rom")

/-- A file system with no files. -/
def noFiles : Filesystem := ⟨fun _ => .ok []⟩

/-- A dollar before a character of two bytes. -/
theorem evaluateMakeExpr_panics :
    evaluateMakeExpr noFiles (lit "$é") emptyContext = .error (.slice (lit "$é") 0 2) := by
  decide

end MakeExpr

end ArosTools
