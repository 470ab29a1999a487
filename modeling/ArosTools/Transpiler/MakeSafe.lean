import ArosTools.Transpiler.MakeReject
import ArosTools.Transpiler.MakeText

/-!
# What an evaluation can come to

One specification for every function of the evaluator: the depth of open expansions stays within its
limit, and a panic, if there is one, is the slice of a dangling text. `expand_text` returns values
within the size limit.

* `Spec k P p` : what holds of a program that runs inside `k` open expansions.
* `expandText_spec` : the specification of `expand_text`, by induction on the depth that is left.
-/

namespace ArosTools

namespace MakeExpr

open Str Eval Scoped

/-- The open expansions stay within the limit. -/
def WithinDepth (e : Frames) : Prop := e.depth ≤ maxExpansionDepth

/-- A halt that is no panic, or the slice of a dangling text. -/
def Expected (h : Halt) : Prop :=
  h.isPanic = true → ∃ text start stop, h = .slice text start stop ∧ Dangling text

/-- A program inside `k` open expansions keeps the depth within its limit, halts as expected and
returns values that satisfy `P`. -/
def Spec {α : Type} (k : ℕ) (P : α → Prop) (p : Eval α) : Prop :=
  ∀ e : Frames, e.depth = k → evaluator.Safe WithinDepth Expected P p e

/-- A program of which only the depth and the halts matter. -/
abbrev Fine {α : Type} (k : ℕ) (p : Eval α) : Prop := Spec k (fun _ => True) p

variable {α β : Type} {k : ℕ} {P P' : α → Prop}

theorem expected_of_noPanic {h : Halt} (hno : h.isPanic = false) : Expected h := fun hpanic => by
  rw [hno] at hpanic
  cases hpanic

/-! ### Rules -/

namespace Spec

theorem ret {a : α} (h : P a) : Spec k P (.ret a) := fun _ _ => h

theorem pure {a : α} (h : P a) : Spec k P (Pure.pure a) := fun _ _ => h

theorem bind {p : Eval β} {R : β → Prop} {f : β → Eval α} (hp : Spec k R p)
    (hf : ∀ b, R b → Spec k P (f b)) : Spec k P (p >>= f) := fun e he =>
  (hp e he).seq fun b hb => hf b hb e he

theorem weaken {p : Eval α} (h : Spec k P p) (hP : ∀ a, P a → P' a) : Spec k P' p :=
  fun e he => (h e he).weaken hP

theorem fine {p : Eval α} (h : Spec k P p) : Fine k p := h.weaken fun _ _ => trivial

theorem fail {e : MakeExprError} : Spec k P (Eval.fail e) := fun _ _ => expected_of_noPanic rfl

theorem pay {c : Charge} {P : Unit → Prop} (h : (∃ b b', evaluator.spend c b = some b') → P ()) :
    Spec k P (Eval.pay c) := fun _ _ => h

theorem ofExcept {r : Except Halt α} (hr : NoPanic r) (hP : ∀ a, r = .ok a → P a) :
    Spec k P (Scoped.ofExcept r) := fun _ _ =>
  Interp.Safe.ofExcept hP fun h hh => expected_of_noPanic (hr h hh)

theorem ask {q : Query β} {f : β → Eval α} (h : ∀ b, Spec k P (f b)) : Spec k P (.ask q f) :=
  fun e he => h _ e he

/-- A program inside the frame of a variable or of bindings. -/
theorem scope {f : Frame} {p : Eval α} (hk : k ≤ maxExpansionDepth) (hf : f ≠ .text)
    (h : Spec k P p) : Spec k P (.scope f p .ret) := by
  intro e he
  have hdepth : (evaluator.push f e).depth = k := by
    cases f with
    | text => exact absurd rfl hf
    | expanding name => exact he
    | loopVars bindings => exact he
  exact ⟨Nat.le_trans (Nat.le_of_eq hdepth) hk, h _ hdepth⟩

end Spec

theorem fine_pay (c : Charge) : Fine k (pay c) := Spec.pay fun _ => trivial

theorem fine_ok {r : Except Halt α} (hr : NoPanic r) : Fine k (ofExcept r) :=
  Spec.ofExcept hr fun _ _ => trivial

theorem noPanic_of_ok {r : Except Halt α} (h : ∃ a, r = .ok a) : NoPanic r := by
  obtain ⟨a, rfl⟩ := h
  intro h hr
  cases hr

/-- Charge, then go on. -/
theorem Spec.paid {c : Charge} {f : Unit → Eval α} (h : Spec k P (f ())) :
    Spec k P (Eval.pay c >>= f) := (fine_pay c).bind fun _ _ => h

/-! ### Building values -/

theorem valueSize_le {n : ℕ} (h : ∃ b b', evaluator.spend (.valueSize n) b = some b') :
    n ≤ maxValueBytes := by
  obtain ⟨b, b', h⟩ := h
  by_contra hn
  have : evaluator.spend (.valueSize n) b = none := if_neg hn
  rw [this] at h
  cases h

theorem checkValueSize_spec (n : ℕ) : Spec k (fun _ => n ≤ maxValueBytes) (checkValueSize n) :=
  Spec.pay valueSize_le

theorem appendOutput_spec (out piece : Text) :
    Spec k (fun t => len t ≤ maxValueBytes) (appendOutput out piece) := by
  refine (checkValueSize_spec _).bind fun _ hsize => ?_
  refine Spec.paid (Spec.paid (Spec.pure ?_))
  rwa [len_append]

theorem appendChar_spec (out : Text) (c : Char) :
    Spec k (fun t => len t ≤ maxValueBytes) (appendChar out c) := by
  refine (checkValueSize_spec _).bind fun _ hsize => ?_
  refine Spec.paid (Spec.paid (Spec.pure ?_))
  rwa [len_append, len_cons, len_nil]

theorem appendWord_fine (out : Text) (pieces : List Text) : Fine k (appendWord out pieces) := by
  refine Spec.paid ?_
  by_cases hword : pieces.flatten = []
  · rw [if_pos hword]
    exact Spec.pure trivial
  · rw [if_neg hword]
    exact Spec.paid (Spec.paid (Spec.paid (Spec.pure trivial)))

theorem takeWords_fine (words : List Text) : Fine k (takeWords words) := by
  induction words with
  | nil => exact Spec.pure trivial
  | cons word rest ih => exact Spec.paid (Spec.paid (Spec.paid ih))

theorem makeWords_fine (raw : Text) : Fine k (makeWords raw) :=
  Spec.paid ((takeWords_fine _).bind fun _ _ => Spec.pure trivial)

theorem joinWords_fine (words : List Text) : Fine k (joinWords words) :=
  Spec.paid (Spec.paid (Spec.paid (Spec.pure trivial)))

theorem functionArgumentsBetween_spec (function raw : Text) (minimum maximum : ℕ) :
    Spec k (fun args => minimum ≤ args.length ∧ args.length ≤ maximum)
      (functionArgumentsBetween function raw minimum maximum) := by
  refine Spec.paid ((fine_ok (splitTopLevel_noPanic raw (show ','.toNat < 0x80 by decide))).bind fun args _ => ?_)
  split_ifs with hcount
  · exact Spec.fail
  · refine Spec.paid (Spec.pure ?_)
    simp only [Bool.or_eq_true, decide_eq_true_eq, not_or, Nat.not_lt] at hcount
    exact hcount

theorem functionArguments_spec (function raw : Text) (expected : ℕ) :
    Spec k (fun args => args.length = expected) (functionArguments function raw expected) :=
  (functionArgumentsBetween_spec function raw expected expected).weaken
    fun _ h => Nat.le_antisymm h.2 h.1

theorem functionArgumentsAtLeast_spec (function raw : Text) (minimum : ℕ) :
    Spec k (fun args => minimum ≤ args.length) (functionArgumentsAtLeast function raw minimum) := by
  refine Spec.paid ((fine_ok (splitTopLevel_noPanic raw (show ','.toNat < 0x80 by decide))).bind fun args _ => ?_)
  split_ifs with hcount
  · exact Spec.fail
  · exact Spec.paid (Spec.pure (Nat.not_lt.mp hcount))

/-- A loop over words. -/
theorem foldlM_fine {f : Text → Text → Eval Text} (hf : ∀ out word, Fine k (f out word))
    (words : List Text) (out : Text) : Fine k (words.foldlM f out) := by
  induction words generalizing out with
  | nil => exact Spec.pure trivial
  | cons word rest ih =>
    rw [List.foldlM_cons]
    exact (hf out word).bind fun out _ => ih out

theorem matchesAny_fine (word : Text) (patterns : List Text) :
    Fine k (matchesAny word patterns) := by
  induction patterns with
  | nil => exact Spec.pure trivial
  | cons pattern rest ih =>
    refine Spec.paid (Spec.paid ((fine_ok (patternStem_noPanic pattern word)).bind fun stem _ => ?_))
    split_ifs
    · exact Spec.pure trivial
    · exact ih

theorem filterWords_fine (patterns words : List Text) (keepMatches : Bool) :
    Fine k (filterWords patterns words keepMatches) := by
  refine Spec.paid (foldlM_fine (fun out word => ?_) words [])
  refine (matchesAny_fine word patterns).bind fun matched _ => ?_
  split_ifs
  · exact appendWord_fine out [word]
  · exact Spec.pure trivial

theorem patsubstWords_fine (pattern replacement : Text) (words : List Text) :
    Fine k (patsubstWords pattern replacement words) := by
  refine foldlM_fine (fun out word => ?_) words []
  refine Spec.paid (Spec.paid ((fine_ok (patternStem_noPanic pattern word)).bind fun stem _ => ?_))
  cases stem with
  | none => exact appendWord_fine out [word]
  | some stem =>
    simp only
    cases hfind : find '%' replacement with
    | none => exact appendWord_fine out [replacement]
    | some percent =>
      obtain ⟨a, b, rfl, ha, rfl⟩ := exists_of_find hfind
      have hstop : slicedFrom (a ++ '%' :: b) (len a + 1) = .ok b := by
        have := slicedFrom_append (a ++ ['%']) b
        rwa [List.append_assoc, len_append] at this
      simp only [slicedTo_append, hstop, ofExcept_ok, ret_bind]
      exact appendWord_fine out [a, stem, b]

theorem suffixSubstituteWords_fine (words : List Text) (source target : Text) :
    Fine k (suffixSubstituteWords words source target) := by
  refine foldlM_fine (fun out word => ?_) words []
  refine Spec.paid (Spec.paid ?_)
  split
  · exact appendWord_fine out _
  · exact appendWord_fine out _

/-! ### Variables -/

theorem pathText_noPanic (path : OsText) (purpose : Text) : NoPanic (pathText path purpose) := by
  intro h hr
  cases path with
  | valid text => cases hr
  | invalid display =>
    cases hr
    rfl

variable {ev : Evaluator} {files : Filesystem}

theorem resolveDirectory_noPanic (chain : List Text) (name : Text) :
    NoPanic (resolveDirectory ev chain name) := by
  intro h hr
  simp only [resolveDirectory] at hr
  split at hr
  · cases hr
  · split at hr
    · cases hr
      rfl
    · cases hr
    · cases hr
      rfl

theorem resolveUnbound_noPanic (chain : List Text) (name : Text) :
    NoPanic (resolveUnbound ev chain name) := by
  intro h hr
  unfold resolveUnbound at hr
  split at hr
  · cases hr
  · split at hr
    · cases hr
      rfl
    · split at hr
      · cases hr
      · exact resolveDirectory_noPanic chain name h hr

theorem resolveVariable_fine (name : Text) : Fine k (resolveVariable ev name) := by
  refine Spec.ask fun bound => ?_
  cases bound with
  | some value => exact Spec.ret trivial
  | none => exact Spec.ask fun chain => fine_ok (resolveUnbound_noPanic chain name)

theorem checkCycle_fine (name : Text) : Fine k (checkCycle name) := by
  refine Spec.ask fun chain => Spec.paid (Spec.paid ?_)
  split_ifs
  · exact Spec.paid (Spec.paid Spec.fail)
  · exact Spec.pure trivial

section Expanding

variable {expand : Text → Eval Text} (hk : k ≤ maxExpansionDepth)
  (hexpand : ∀ raw, Fine k (expand raw))
include hk hexpand

theorem expandVariable_fine (name : Text) : Fine k (expandVariable ev expand name) :=
  (checkCycle_fine name).bind fun _ _ => (resolveVariable_fine name).bind fun value _ =>
    Spec.scope hk (by simp) (hexpand value)

omit hk in
theorem variableName_fine (body rawName : Text) : Fine k (variableName expand body rawName) := by
  refine (hexpand rawName).bind fun _ _ => Spec.paid (Spec.paid (Spec.paid ?_))
  split_ifs
  · exact Spec.fail
  · exact Spec.pure trivial

theorem evaluateVariable_fine (body : Text) : Fine k (evaluateVariable ev expand body) := by
  refine Spec.paid ((fine_ok (splitSubstitutionReference_noPanic body)).bind fun parts _ => ?_)
  obtain ⟨rawName, substitution⟩ := parts
  refine (variableName_fine hexpand body rawName).bind fun name _ => ?_
  refine (expandVariable_fine hk hexpand name).bind fun expanded _ => ?_
  cases substitution with
  | none => exact Spec.pure trivial
  | some sides =>
    obtain ⟨rawSource, rawTarget⟩ := sides
    refine (hexpand rawSource).bind fun source _ => (hexpand rawTarget).bind fun target _ => ?_
    refine (makeWords_fine expanded).bind fun words _ => ?_
    split_ifs
    · exact patsubstWords_fine _ _ words
    · exact suffixSubstituteWords_fine words _ _

end Expanding

/-! ### Wildcards -/

theorem materializePattern_noPanic (original : Text) : NoPanic (materializePattern ev original) := by
  intro h hr
  simp only [materializePattern] at hr
  split at hr
  · split_ifs at hr
    cases hr
    rfl
  · split at hr
    · split_ifs at hr
      · cases hr
        rfl
      · split at hr
        · cases hr
          rfl
        · rename_i root _
          cases hroot : pathText root (lit "Ports directory") with
          | ok text =>
            rw [hroot] at hr
            cases hr
          | error e =>
            rw [hroot] at hr
            cases hr
            exact pathText_noPanic _ _ _ hroot
    · split_ifs at hr
      cases hr
      rfl

theorem shownPath_noPanic (original : Text) (absolute : Bool) (backing : Backing)
    (found : GlobPath) : NoPanic (shownPath ev original absolute backing found) := by
  intro h hr
  unfold shownPath at hr
  split at hr
  · split at hr
    · cases hr
      rfl
    · rename_i relative _
      cases htext : pathText relative (lit "materialized wildcard result") with
      | ok text =>
        rw [htext] at hr
        cases hr
      | error e =>
        rw [htext] at hr
        cases hr
        exact pathText_noPanic _ _ _ htext
  · exact pathText_noPanic _ _ _ hr

theorem collectMatches_fine (original : Text) (absolute : Bool) (backing : Backing)
    (regularFilesOnly : Bool) (paths : List (Except Text GlobPath)) (found : List Text)
    (bytes : ℕ) :
    Fine k (collectMatches ev original absolute backing regularFilesOnly paths found bytes) := by
  induction paths generalizing found bytes with
  | nil => exact Spec.pure trivial
  | cons path rest ih =>
    cases path with
    | error e => exact Spec.fail
    | ok path =>
      refine Spec.paid (Spec.paid ?_)
      split_ifs
      · exact ih found bytes
      · refine (fine_ok (shownPath_noPanic original absolute backing path)).bind fun shown _ => ?_
        refine Spec.paid ?_
        split_ifs
        · exact Spec.fail
        · exact ih _ _

theorem wildcardPattern_fine (regularFilesOnly : Bool) (output : List Text) (outputBytes : ℕ)
    (original : Text) :
    Fine k (wildcardPattern ev files regularFilesOnly output outputBytes original) := by
  refine Spec.paid ((fine_ok (materializePattern_noPanic original)).bind fun parts _ => ?_)
  obtain ⟨materialized, pattern, backing⟩ := parts
  simp only
  split_ifs
  · exact Spec.fail
  · split
    · exact Spec.fail
    · refine (collectMatches_fine original _ backing regularFilesOnly _ [] 0).bind fun found _ => ?_
      obtain ⟨found, bytes⟩ := found
      simp only
      split_ifs
      · exact Spec.fail
      · exact Spec.paid Spec.fail
      · exact Spec.paid (Spec.pure trivial)
      · exact Spec.fail
      · exact Spec.paid Spec.fail
      · exact Spec.paid (Spec.pure trivial)

theorem wildcardPatterns_fine (regularFilesOnly : Bool) (patterns output : List Text)
    (outputBytes : ℕ) :
    Fine k (wildcardPatterns ev files regularFilesOnly patterns output outputBytes) := by
  induction patterns generalizing output outputBytes with
  | nil => exact Spec.pure trivial
  | cons original rest ih =>
    refine (wildcardPattern_fine regularFilesOnly output outputBytes original).bind fun found _ => ?_
    exact ih _ _

/-- The last check of a value halts as expected. -/
theorem rejectUnsupportedReferences_fine (text : Text) :
    Fine k (ofExcept (rejectUnsupportedReferences text)) := fun _ _ =>
  Interp.Safe.ofExcept (fun _ _ => trivial) fun h hh hpanic => by
    obtain ⟨hdangling, start, hslice⟩ := rejectUnsupportedReferences_panic hh hpanic
    exact ⟨text, start, start + 2, hslice, hdangling⟩

theorem wildcard_fine (expandedPatterns : Text) (regularFilesOnly : Bool) :
    Fine k (wildcard ev files expandedPatterns regularFilesOnly) := by
  unfold wildcard
  split_ifs
  · exact Spec.fail
  · exact Spec.fail
  · refine Spec.paid ((rejectUnsupportedReferences_fine expandedPatterns).bind fun _ _ => ?_)
    exact (makeWords_fine expandedPatterns).bind fun patterns _ =>
      wildcardPatterns_fine regularFilesOnly patterns [] 0

/-! ### Functions -/

section Functions

variable {expand : Text → Eval Text} (hk : k ≤ maxExpansionDepth)
  (hexpand : ∀ raw, Fine k (expand raw))
include hexpand

include hk in
theorem foreachBody_fine (loopVariable body word : Text) :
    Fine k (foreachBody expand loopVariable body word) :=
  Spec.paid (Spec.paid (Spec.paid (Spec.scope hk (by simp) (hexpand body))))

include hk in
theorem foreachRest_fine (loopVariable body : Text) (words : List Text) (output : Text) :
    Fine k (foreachRest expand loopVariable body words output) := by
  induction words generalizing output with
  | nil => exact Spec.pure trivial
  | cons word rest ih =>
    exact (foreachBody_fine hk hexpand loopVariable body word).bind fun _ _ =>
      (appendChar_spec output ' ').bind fun _ _ => (appendOutput_spec _ _).bind fun _ _ => ih _

include hk in
theorem evaluateForeach_fine (name rawArgs : Text) :
    Fine k (evaluateForeach expand name rawArgs) := by
  refine (functionArguments_spec name rawArgs 3).bind fun args hargs => ?_
  obtain ⟨rawVariable, rawList, body, rfl⟩ := List.length_eq_three.mp hargs
  refine (hexpand _).bind fun loopVariable _ => ?_
  split_ifs
  · exact Spec.fail
  · refine (hexpand _).bind fun list _ => (makeWords_fine list).bind fun words _ => ?_
    cases words with
    | nil => exact Spec.pure trivial
    | cons word rest =>
      exact (foreachBody_fine hk hexpand _ body word).bind fun _ _ =>
        (appendOutput_spec _ _).bind fun _ _ => foreachRest_fine hk hexpand _ body rest _

theorem affixArguments_fine (name rawArgs : Text) : Fine k (affixArguments expand name rawArgs) := by
  refine (functionArguments_spec name rawArgs 2).bind fun args hargs => ?_
  obtain ⟨rawFirst, rawWords, rfl⟩ := List.length_eq_two.mp hargs
  exact (hexpand _).bind fun _ _ => (hexpand _).bind fun words _ =>
    (makeWords_fine words).bind fun _ _ => Spec.pure trivial

theorem evaluatePatsubst_fine (name rawArgs : Text) :
    Fine k (evaluatePatsubst expand name rawArgs) := by
  refine (functionArguments_spec name rawArgs 3).bind fun args hargs => ?_
  obtain ⟨rawPattern, rawReplacement, rawWords, rfl⟩ := List.length_eq_three.mp hargs
  exact (hexpand _).bind fun _ _ => (hexpand _).bind fun _ _ => (hexpand _).bind fun words _ =>
    (makeWords_fine words).bind fun _ _ => patsubstWords_fine _ _ _

theorem evaluateSubst_fine (name rawArgs : Text) : Fine k (evaluateSubst expand name rawArgs) := by
  refine (functionArguments_spec name rawArgs 3).bind fun args hargs => ?_
  obtain ⟨rawSource, rawTarget, rawText, rfl⟩ := List.length_eq_three.mp hargs
  refine (hexpand _).bind fun source _ => ?_
  split_ifs
  · exact Spec.fail
  · exact (hexpand _).bind fun _ _ => (hexpand _).bind fun _ _ =>
      Spec.paid (Spec.paid (Spec.paid (Spec.paid (Spec.pure trivial))))

theorem evaluateFindstring_fine (name rawArgs : Text) :
    Fine k (evaluateFindstring expand name rawArgs) := by
  refine (functionArguments_spec name rawArgs 2).bind fun args hargs => ?_
  obtain ⟨rawNeedle, rawHaystack, rfl⟩ := List.length_eq_two.mp hargs
  exact (hexpand _).bind fun _ _ => (hexpand _).bind fun _ _ =>
    Spec.paid (Spec.paid (Spec.pure trivial))

omit hexpand in
theorem parseWordIndex_fine (name value rawArgs : Text) :
    Fine k (ofExcept (parseWordIndex name value rawArgs)) := by
  refine fine_ok fun h hr => ?_
  unfold parseWordIndex at hr
  split at hr
  · cases hr
  · cases hr
    rfl

theorem selectWords_fine (first last : ℕ) (rawText : Text) :
    Fine k (selectWords expand first last rawText) := by
  refine (hexpand rawText).bind fun words _ => (makeWords_fine words).bind fun words _ => ?_
  split_ifs
  · exact Spec.pure trivial
  · exact joinWords_fine _

theorem evaluateWord_fine (name rawArgs : Text) : Fine k (evaluateWord expand name rawArgs) := by
  refine (functionArguments_spec name rawArgs 2).bind fun args hargs => ?_
  obtain ⟨rawIndex, rawText, rfl⟩ := List.length_eq_two.mp hargs
  exact (hexpand _).bind fun value _ => (parseWordIndex_fine name value rawArgs).bind
    fun _ _ => selectWords_fine hexpand _ _ rawText

theorem evaluateWordlist_fine (name rawArgs : Text) :
    Fine k (evaluateWordlist expand name rawArgs) := by
  refine (functionArguments_spec name rawArgs 3).bind fun args hargs => ?_
  obtain ⟨rawFirst, rawLast, rawText, rfl⟩ := List.length_eq_three.mp hargs
  exact (hexpand _).bind fun value _ => (parseWordIndex_fine name value rawArgs).bind
    fun _ _ => (hexpand _).bind fun value _ =>
      (parseWordIndex_fine name value rawArgs).bind fun _ _ =>
        selectWords_fine hexpand _ _ rawText

omit hexpand in
theorem joinPairs_fine (left right : List Text) (output : Text) :
    Fine k (joinPairs left right output) := by
  fun_induction joinPairs left right output with
  | case1 output => exact Spec.pure trivial
  | case2 output left lefts ih => exact (appendWord_fine _ _).bind fun _ _ => ih _
  | case3 output right rights ih => exact (appendWord_fine _ _).bind fun _ _ => ih _
  | case4 output left lefts right rights ih => exact (appendWord_fine _ _).bind fun _ _ => ih _

theorem evaluateJoin_fine (name rawArgs : Text) : Fine k (evaluateJoin expand name rawArgs) := by
  refine (functionArguments_spec name rawArgs 2).bind fun args hargs => ?_
  obtain ⟨rawLeft, rawRight, rfl⟩ := List.length_eq_two.mp hargs
  exact (hexpand _).bind fun left _ => (makeWords_fine left).bind fun _ _ =>
    (hexpand _).bind fun right _ => (makeWords_fine right).bind fun _ _ => joinPairs_fine _ _ []

theorem evaluateIf_fine (name rawArgs : Text) : Fine k (evaluateIf expand name rawArgs) := by
  refine (functionArgumentsBetween_spec name rawArgs 2 3).bind fun args hargs => ?_
  match args, hargs with
  | rawCondition :: rawThen :: rest, _ =>
    refine (hexpand _).bind fun condition _ => ?_
    split_ifs
    · exact hexpand _
    · exact hexpand _

theorem firstNonempty_fine (args : List Text) : Fine k (firstNonempty expand args) := by
  induction args with
  | nil => exact Spec.pure trivial
  | cons argument rest ih =>
    refine (hexpand argument).bind fun value _ => ?_
    split_ifs
    · exact Spec.pure trivial
    · exact ih

theorem lastNonempty_fine (args : List Text) (last : Text) :
    Fine k (lastNonempty expand args last) := by
  induction args generalizing last with
  | nil => exact Spec.pure trivial
  | cons argument rest ih =>
    refine (hexpand argument).bind fun value _ => ?_
    split_ifs
    · exact Spec.pure trivial
    · exact ih value

theorem trimmedArgument_fine (name rawArgs : Text) :
    Fine k (trimmedArgument expand name rawArgs) := by
  refine (functionArguments_spec name rawArgs 1).bind fun args hargs => ?_
  obtain ⟨argument, rfl⟩ := List.length_eq_one_iff.mp hargs
  exact hexpand _

theorem evaluateNames_fine (name rawArgs : Text) {transform : Text → Except Halt (Option Text)}
    (htransform : ∀ word, NoPanic (transform word)) :
    Fine k (evaluateNames expand name rawArgs transform) := by
  refine (trimmedArgument_fine hexpand name rawArgs).bind fun expanded _ => ?_
  refine (makeWords_fine expanded).bind fun words _ => foldlM_fine (fun out word => ?_) words []
  refine Spec.paid ((fine_ok (htransform word)).bind fun transformed _ => ?_)
  cases transformed with
  | some transformed => exact appendWord_fine out [transformed]
  | none => exact Spec.pure trivial

theorem evaluateWords_fine (name rawArgs : Text) (read : List Text → Text) :
    Fine k (evaluateWords expand name rawArgs read) := by
  refine (functionArguments_spec name rawArgs 1).bind fun args hargs => ?_
  obtain ⟨argument, rfl⟩ := List.length_eq_one_iff.mp hargs
  exact (hexpand _).bind fun expanded _ => (makeWords_fine expanded).bind fun _ _ =>
    Spec.pure trivial

omit hexpand in
theorem evaluateValue_fine (name rawArgs : Text) : Fine k (evaluateValue ev name rawArgs) := by
  refine (functionArguments_spec name rawArgs 1).bind fun args hargs => ?_
  obtain ⟨argument, rfl⟩ := List.length_eq_one_iff.mp hargs
  simp only
  split_ifs
  · exact Spec.fail
  · exact (resolveVariable_fine _).bind fun _ _ =>
      Spec.paid (Spec.paid (Spec.paid (Spec.pure trivial)))

theorem bindArguments_fine (index : ℕ) (args : List Text) :
    Fine k (bindArguments expand index args) := by
  induction args generalizing index with
  | nil => exact Spec.pure trivial
  | cons argument rest ih =>
    exact (hexpand argument).bind fun _ _ => (ih (index + 1)).bind fun _ _ => Spec.pure trivial

include hk in
theorem callVariable_fine (callee : Text) (args : List Text) :
    Fine k (callVariable ev expand callee args) :=
  (resolveVariable_fine callee).bind fun body _ => (bindArguments_fine hexpand 1 args).bind
    fun _ _ => Spec.paid (Spec.scope hk (by simp) (hexpand body))

include hk in
theorem evaluateCall_fine (name rawArgs : Text) :
    Fine k (evaluateCall ev files expand name rawArgs) := by
  refine (functionArgumentsAtLeast_spec name rawArgs 1).bind fun args hargs => ?_
  match args, hargs with
  | rawCallee :: args, _ =>
    refine (hexpand _).bind fun callee _ => ?_
    split_ifs
    · split
      · exact (hexpand _).bind fun patterns _ => (wildcard_fine patterns true).bind fun words _ =>
          joinWords_fine words
      · exact Spec.fail
    · exact callVariable_fine hk hexpand _ args

include hk in
/-- **Every function of the safe subset halts as expected.** -/
theorem evaluateFunction_fine (name rawArgs : Text) :
    Fine k (evaluateFunction ev files expand name rawArgs) := by
  unfold evaluateFunction
  split
  · exact evaluateForeach_fine hk hexpand name rawArgs
  · exact (affixArguments_fine hexpand name rawArgs).bind fun _ _ =>
      foldlM_fine (fun _ _ => appendWord_fine _ _) _ []
  · exact (affixArguments_fine hexpand name rawArgs).bind fun _ _ =>
      foldlM_fine (fun _ _ => appendWord_fine _ _) _ []
  · exact (affixArguments_fine hexpand name rawArgs).bind fun first _ =>
      (makeWords_fine first.1).bind fun _ _ => filterWords_fine _ _ _
  · exact (affixArguments_fine hexpand name rawArgs).bind fun first _ =>
      (makeWords_fine first.1).bind fun _ _ => filterWords_fine _ _ _
  · exact evaluatePatsubst_fine hexpand name rawArgs
  · exact evaluateSubst_fine hexpand name rawArgs
  · exact evaluateFindstring_fine hexpand name rawArgs
  · exact evaluateWord_fine hexpand name rawArgs
  · exact evaluateWordlist_fine hexpand name rawArgs
  · exact evaluateJoin_fine hexpand name rawArgs
  · exact evaluateIf_fine hexpand name rawArgs
  · exact (functionArgumentsAtLeast_spec name rawArgs 1).bind fun args _ =>
      firstNonempty_fine hexpand args
  · exact (functionArgumentsAtLeast_spec name rawArgs 1).bind fun args _ =>
      lastNonempty_fine hexpand args []
  · exact evaluateNames_fine hexpand name rawArgs fun word => noPanic_of_ok ⟨_, rfl⟩
  · refine evaluateNames_fine hexpand name rawArgs fun word => noPanic_of_ok ?_
    obtain ⟨part, hpart⟩ := directoryPart_ok word
    exact ⟨some part, by rw [hpart]; rfl⟩
  · exact evaluateNames_fine hexpand name rawArgs fun word => noPanic_of_ok (basename_ok word)
  · exact evaluateNames_fine hexpand name rawArgs fun word => noPanic_of_ok (suffix_ok word)
  · exact (trimmedArgument_fine hexpand name rawArgs).bind fun expanded _ =>
      (makeWords_fine expanded).bind fun _ _ => Spec.paid (joinWords_fine _)
  · exact (trimmedArgument_fine hexpand name rawArgs).bind fun expanded _ =>
      (makeWords_fine expanded).bind fun _ _ => joinWords_fine _
  · exact (trimmedArgument_fine hexpand name rawArgs).bind fun expanded _ =>
      (wildcard_fine expanded false).bind fun _ _ => joinWords_fine _
  · exact evaluateWords_fine hexpand name rawArgs _
  · exact evaluateWords_fine hexpand name rawArgs _
  · exact evaluateWords_fine hexpand name rawArgs _
  · exact evaluateValue_fine name rawArgs
  · exact evaluateCall_fine hk hexpand name rawArgs
  · exact Spec.fail

include hk in
theorem evaluateReference_fine (body : Text) :
    Fine k (evaluateReference ev files expand body) := by
  refine Spec.paid ?_
  split_ifs
  · exact Spec.fail
  · split
    · rename_i headEnd hhead
      have hcut := topLevelWhitespace_boundary hhead
      exact (fine_ok (noPanic_of_ok hcut.slicedTo)).bind fun _ _ =>
        (fine_ok (noPanic_of_ok hcut.slicedFrom)).bind fun _ _ =>
          evaluateFunction_fine hk hexpand _ _
    · exact evaluateVariable_fine hk hexpand _

end Functions

/-! ### Texts -/

section Texts

variable {reference : Text → Eval Text} (hreference : ∀ body, Fine k (reference body))
include hreference

theorem expandAfter_spec (after out : Text) :
    Spec k (fun left => len left.2 ≤ maxValueBytes) (expandAfter reference after out) := by
  unfold expandAfter
  split
  · exact (appendChar_spec out _).bind fun _ hsize => Spec.pure hsize
  · refine Spec.paid ?_
    split
    · exact (hreference _).bind fun _ _ => (appendOutput_spec out _).bind fun _ hsize =>
        Spec.pure hsize
    · exact Spec.fail
  · refine Spec.paid ?_
    rename_i tail
    by_cases hmem : '\x7d' ∈ tail
    · rw [if_pos hmem]
      dsimp only
      split_ifs
      · exact (appendOutput_spec out _).bind fun _ hsize => Spec.pure hsize
      · exact (hreference _).bind fun _ _ => (appendOutput_spec out _).bind fun _ hsize =>
          Spec.pure hsize
    · rw [if_neg hmem]
      exact Spec.fail
  · exact (appendChar_spec out _).bind fun _ hsize => Spec.pure hsize

theorem expandRest_spec (fuel : ℕ) (rest out : Text) (hout : len out ≤ maxValueBytes) :
    Spec k (fun t => len t ≤ maxValueBytes) (expandRest reference fuel rest out) := by
  induction fuel generalizing rest out with
  | zero => exact Spec.pure hout
  | succ fuel ih =>
    unfold expandRest
    split_ifs
    · exact Spec.pure hout
    · exact (appendOutput_spec out _).bind fun out _ =>
        (expandAfter_spec hreference _ out).bind fun left hleft => ih left.1 left.2 hleft
    · exact appendOutput_spec out rest

end Texts

/-- **`expand_text` halts as expected** at every depth, and its values are within the limit. -/
theorem expandText_spec (depth k : ℕ) (hk : k + depth ≤ maxExpansionDepth) (raw : Text) :
    Spec k (fun t => len t ≤ maxValueBytes) (expandText ev files depth raw) := by
  induction depth generalizing k raw with
  | zero => exact Spec.fail
  | succ depth ih =>
    rw [expandText_succ]
    have hle : k + 1 ≤ maxExpansionDepth := by omega
    have hreference : ∀ body,
        Fine (k + 1) (evaluateReference ev files (expandText ev files depth) body) :=
      evaluateReference_fine hle fun raw => (ih (k + 1) (by omega) raw).fine
    intro e he
    have hdepth : (evaluator.push .text e).depth = k + 1 := by rw [← he]; rfl
    refine ⟨Nat.le_trans (Nat.le_of_eq hdepth) hle, ?_⟩
    exact (Spec.paid (expandRest_spec hreference raw.length raw [] (Nat.zero_le _))) _ hdepth

end MakeExpr

end ArosTools
