import ArosTools.Transpiler.VarGrowth
import Mathlib.Data.List.Find

/-!
# Unsettled variables

A variable is unsettled at a line after an opaque definition or a frozen uncertain value that no
replacement superseded. The queries of a scope read the path texts and the uncertain paths only
through this one predicate, so scopes that agree on it answer alike.

* `VarScope.unsettled_noteReset`, `VarScope.unsettled_notePath` — what an assignment does to it;
* `VarScope.SameUnsettled` — other paths that leave the same variables unsettled, with the queries
  and the notes of the collector that do not see the difference.
-/

namespace ArosTools

namespace MakeVars

open Str

/-! ### Unsettled variables -/

theorem lastBefore_snoc {α : Type} (line at_ : ℕ) (value : α) (entries : List (ℕ × α)) :
    lastBefore line (entries ++ [(at_, value)]) =
      if at_ < line then some (at_, value) else lastBefore line entries := by
  simp only [lastBefore, List.reverse_append, List.reverse_singleton, List.singleton_append,
    List.find?_cons]
  split_ifs with h <;> simp [h]

theorem lastBefore_some {α : Type} {line : ℕ} {entries : List (ℕ × α)} {e : ℕ × α}
    (h : lastBefore line entries = some e) : e ∈ entries ∧ e.1 < line :=
  ⟨List.mem_reverse.mp (List.mem_of_find?_eq_some h), by simpa using List.find?_some h⟩

theorem lastBefore_of_below {α : Type} {bound at_ : ℕ} {entries : List (ℕ × α)}
    (h : ∀ e ∈ entries, e.1 < bound) (hle : bound ≤ at_) :
    lastBefore at_ entries = lastBefore bound entries := by
  refine List.find?_congr fun e he => ?_
  have := h e (List.mem_reverse.mp he)
  rw [decide_eq_decide]
  omega

/-- The entries that make a variable unsettled are of earlier lines. -/
structure VarScope.Below (line : ℕ) (s : VarScope) : Prop where
  opaqueAssignments : ∀ name, ∀ e ∈ s.opaqueAssignments.history name, e.1 < line
  opaqueAllAssignments : ∀ e ∈ s.opaqueAllAssignments, e.1 < line
  pathReplacements : ∀ name, ∀ e ∈ s.pathReplacements.history name, e.1 < line
  uncertainPathValues : ∀ name, ∀ e ∈ s.uncertainPathValues.history name, e.1 < line

theorem VarScope.Below.mono {line line' : ℕ} {s : VarScope} (h : s.Below line) (hle : line ≤ line') :
    s.Below line' where
  opaqueAssignments name e he := (h.opaqueAssignments name e he).trans_le hle
  opaqueAllAssignments e he := (h.opaqueAllAssignments e he).trans_le hle
  pathReplacements name e he := (h.pathReplacements name e he).trans_le hle
  uncertainPathValues name e he := (h.uncertainPathValues name e he).trans_le hle

theorem VarScope.Extends.below {lo hi : ℕ} {s t : VarScope} (h : s.Extends lo hi t)
    (hs : s.Below hi) : t.Below hi where
  opaqueAssignments name := (h.opaqueAssignments name).below (hs.opaqueAssignments name)
  opaqueAllAssignments := h.opaqueAllAssignments.below hs.opaqueAllAssignments
  pathReplacements name := (h.pathReplacements name).below (hs.pathReplacements name)
  uncertainPathValues name := (h.uncertainPathValues name).below (hs.uncertainPathValues name)

namespace VarScope

variable {s : VarScope} {line : ℕ}

theorem resetBefore_some {name : Text} {at_ reset : ℕ} (h : s.resetBefore name at_ = some reset) :
    ∃ e ∈ s.pathReplacements.history name, e.1 = reset := by
  obtain ⟨e, he, rfl⟩ := Option.map_eq_some_iff.mp h
  exact ⟨e, (lastBefore_some he).1, rfl⟩

theorem hasOpaqueAssignmentBefore_iff {name : Text} {at_ : ℕ} :
    s.hasOpaqueAssignmentBefore name at_ = true ↔
      ∃ opened, (lastBefore at_ (s.opaqueAssignments.history name) = some (opened, ()) ∨
          lastBefore at_ s.opaqueAllAssignments = some (opened, ())) ∧
        ∀ reset, s.resetBefore name at_ = some reset → reset < opened := by
  rw [hasOpaqueAssignmentBefore]
  generalize lastBefore at_ (s.opaqueAssignments.history name) = own
  generalize lastBefore at_ s.opaqueAllAssignments = every
  generalize s.resetBefore name at_ = reset
  rcases own with - | ⟨own, ⟨⟩⟩ <;> rcases every with - | ⟨every, ⟨⟩⟩ <;>
    rcases reset with - | reset <;> simp

theorem hasOpaqueAssignmentBefore_noteHeader (hs : s.Below line) {name : Text} {at_ : ℕ}
    (branch : ConditionalTruth) (header : Option DefineBinding)
    (h : s.hasOpaqueAssignmentBefore name at_ = true) :
    (s.noteHeader line branch header).hasOpaqueAssignmentBefore name at_ = true := by
  obtain ⟨opened, hopened, hreset⟩ := hasOpaqueAssignmentBefore_iff.mp h
  -- A new header is later than every reset, and than the headers before it.
  have hbelow : ∀ reset, s.resetBefore name at_ = some reset → reset < line := fun reset hr => by
    obtain ⟨e, he, rfl⟩ := resetBefore_some hr
    exact hs.pathReplacements name e he
  rcases header with - | (opaqueName | -)
  · exact h
  · rw [noteHeader]
    split_ifs
    · exact h
    simp only [hasOpaqueAssignmentBefore_iff, Histories.history_push]
    by_cases hnew : name = opaqueName ∧ line < at_
    · refine ⟨line, .inl ?_, hbelow⟩
      rw [if_pos hnew.1, lastBefore_snoc, if_pos hnew.2]
    · refine ⟨opened, hopened.imp_left fun hown => ?_, hreset⟩
      split_ifs with hname
      · rw [lastBefore_snoc, if_neg fun hlt => hnew ⟨hname, hlt⟩, hown]
      · rw [List.append_nil, hown]
  · rw [noteHeader]
    split_ifs
    · exact h
    simp only [hasOpaqueAssignmentBefore_iff]
    by_cases hnew : line < at_
    · refine ⟨line, .inr ?_, hbelow⟩
      rw [lastBefore_snoc, if_pos hnew]
    · refine ⟨opened, hopened.imp_right fun hevery => ?_, hreset⟩
      rw [lastBefore_snoc, if_neg hnew, hevery]

theorem resetBefore_noteReset (branch : ConditionalTruth) (name other : Text)
    (kind : AssignmentKind) (at_ : ℕ) :
    (s.noteReset line branch name kind).resetBefore other at_ =
      if resets branch kind ∧ other = name ∧ line < at_ then some line
      else s.resetBefore other at_ := by
  by_cases hkind : resets branch kind = true
  · simp only [resetBefore, noteReset, hkind, if_true, true_and, Histories.history_push]
    by_cases hname : other = name
    · simp only [hname, if_true, true_and, lastBefore_snoc]
      split_ifs <;> rfl
    · simp [hname]
  · simp [resetBefore, noteReset, hkind]

theorem unsettled_noteReset (hheaders : ∀ name, ∀ e ∈ s.opaqueAssignments.history name, e.1 ≤ line)
    (hall : ∀ e ∈ s.opaqueAllAssignments, e.1 ≤ line)
    (huncertain : ∀ name, ∀ e ∈ s.uncertainPathValues.history name, e.1 < line)
    (branch : ConditionalTruth) (name other : Text) (kind : AssignmentKind) (at_ : ℕ) :
    (s.noteReset line branch name kind).unsettled other at_ =
      if resets branch kind ∧ other = name ∧ line < at_ then false else s.unsettled other at_ := by
  have hreset : (s.noteReset line branch name kind).resetBefore other at_ = _ :=
    s.resetBefore_noteReset branch name other kind at_
  split_ifs at hreset ⊢ with hnew
  · rw [unsettled, Bool.or_eq_false_iff]
    constructor
    · rw [Bool.eq_false_iff, Ne, hasOpaqueAssignmentBefore_iff]
      rintro ⟨opened, hopened, hlater⟩
      have hlt := hlater line hreset
      rcases hopened with hown | hevery
      · exact absurd (hheaders other _ (lastBefore_some hown).1) (by simpa using hlt)
      · exact absurd (hall _ (lastBefore_some hevery).1) (by simpa using hlt)
    · rw [Bool.eq_false_iff, Ne, hasUncertainPathValueBefore, hreset, List.any_eq_true]
      rintro ⟨e, he, hlater⟩
      have hlt := huncertain other e he
      simp only [Option.all_some, Bool.and_eq_true, decide_eq_true_eq] at hlater
      omega
  · rw [unsettled, hasOpaqueAssignmentBefore, hasUncertainPathValueBefore, hreset]
    rfl

theorem unsettled_notePath (hreset : ∀ name, ∀ e ∈ s.pathReplacements.history name, e.1 ≤ line)
    (name other : Text) (uncertain : Bool) (at_ : ℕ) :
    (s.notePath line name uncertain).unsettled other at_ =
      (s.unsettled other at_ || (uncertain && other = name && line < at_)) := by
  cases uncertain with
  | false => simp [notePath]
  | true =>
    have hpath : (s.notePath line name true).hasUncertainPathValueBefore other at_ =
        (s.hasUncertainPathValueBefore other at_ || (other = name && line < at_)) := by
      have hall : (s.resetBefore other at_).all (· ≤ line) = true := by
        rw [Option.all_eq_true]
        intro reset hr
        obtain ⟨e, he, rfl⟩ := resetBefore_some hr
        exact decide_eq_true (hreset other e he)
      simp only [notePath, if_true, hasUncertainPathValueBefore, Histories.history_push]
      by_cases hname : other = name
      · rw [if_pos hname, List.any_append, List.any_cons, List.any_nil, Bool.or_false]
        simp only [hname, decide_true, Bool.true_and]
        congr 1
        rw [← hname]
        exact Bool.and_eq_left_iff_imp.mpr fun _ => hall
      · simp [hname, resetBefore]
    rw [unsettled, hpath, Bool.true_and, ← Bool.or_assoc]
    rfl

/-- Once all entries are of earlier lines, the line of a query does not matter. -/
theorem Below.unsettled (hs : s.Below line) {at_ : ℕ} (hle : line ≤ at_) (name : Text) :
    s.unsettled name at_ = s.unsettled name line := by
  have hreset : s.resetBefore name at_ = s.resetBefore name line := by
    rw [resetBefore, lastBefore_of_below (hs.pathReplacements name) hle, resetBefore]
  have hpath : s.hasUncertainPathValueBefore name at_ = s.hasUncertainPathValueBefore name line := by
    rw [hasUncertainPathValueBefore, hasUncertainPathValueBefore, hreset, Bool.eq_iff_iff,
      List.any_eq_true, List.any_eq_true]
    refine exists_congr fun e => and_congr_right fun he => ?_
    have := hs.uncertainPathValues name e he
    have hlt : e.1 < at_ := by omega
    simp [this, hlt]
  rw [VarScope.unsettled, hasOpaqueAssignmentBefore, lastBefore_of_below (hs.opaqueAssignments name) hle,
    lastBefore_of_below hs.opaqueAllAssignments hle, hreset, hpath]
  rfl

/-! ### Scopes that differ in their paths -/

/-- The scope with other path texts and other uncertain paths. -/
def withPaths (s : VarScope) (texts : Histories Text) (uncertain : Histories Unit) : VarScope :=
  { s with pathRaw := texts, uncertainPathValues := uncertain }

/-- Other paths leave the same variables unsettled. -/
def SameUnsettled (s : VarScope) (texts : Histories Text) (uncertain : Histories Unit) : Prop :=
  ∀ name line, (s.withPaths texts uncertain).unsettled name line = s.unsettled name line

namespace SameUnsettled

variable {texts : Histories Text} {uncertain : Histories Unit}
  (h : s.SameUnsettled texts uncertain)
include h

theorem pathIsConditionalAt (name : Text) (line : ℕ) :
    (s.withPaths texts uncertain).pathIsConditionalAt name line =
      s.pathIsConditionalAt name line := by
  have hsame := h name line
  simp only [unsettled] at hsame
  simp only [VarScope.pathIsConditionalAt, Bool.or_right_comm _ _ (hasUncertainPathValueBefore ..),
    hsame]
  rfl

theorem rawAt (name : Text) (line : ℕ) :
    (s.withPaths texts uncertain).rawAt name line = s.rawAt name line := by
  rw [VarScope.rawAt, h name line]
  rfl

theorem snapshot (line : ℕ) :
    (s.withPaths texts uncertain).snapshot line = s.snapshot line := by
  simp only [VarScope.snapshot, h _ line]
  rfl

theorem latestRaw (name : Text) :
    (s.withPaths texts uncertain).latestRaw name = s.latestRaw name := by
  rw [VarScope.latestRaw, h name usizeMax]
  rfl

theorem flavorUncertaintyReasonInner (line depth : ℕ) (visiting : List Text) (name : Text) :
    (s.withPaths texts uncertain).flavorUncertaintyReasonInner line depth visiting name =
      s.flavorUncertaintyReasonInner line depth visiting name := by
  induction depth generalizing visiting name with
  | zero =>
    unfold VarScope.flavorUncertaintyReasonInner
    rfl
  | succ depth ih =>
    unfold VarScope.flavorUncertaintyReasonInner
    simp only [h.rawAt, ih]
    rfl

theorem flavorUncertainty (line : ℕ) (name value : Text) (kind : AssignmentKind)
    (flavor : VariableFlavor) :
    (s.withPaths texts uncertain).flavorUncertainty line name value kind flavor =
      s.flavorUncertainty line name value kind flavor := by
  simp only [VarScope.flavorUncertainty, flavorUncertaintyReasonAt, h.flavorUncertaintyReasonInner]

theorem expandImmediateLocals (depth : ℕ) (raw : Text) :
    MakeVars.expandImmediateLocals (s.withPaths texts uncertain) depth raw =
      MakeVars.expandImmediateLocals s depth raw := by
  simp only [MakeVars.expandImmediateLocals]
  induction depth generalizing raw with
  | zero => rfl
  | succ depth ih => simp only [expandImmediateLocalsImpl, immediateValue, h.latestRaw, ih]

theorem expandConditionReference (context : TargetContext) (line : ℕ)
    (operand : Text → Option Text) :
    MakeVars.expandConditionReference (s.withPaths texts uncertain) context line operand =
      MakeVars.expandConditionReference s context line operand := by
  funext raw
  simp only [MakeVars.expandConditionReference, h.pathIsConditionalAt, h.rawAt]
  rfl

theorem conditionPiece (context : TargetContext) (line : ℕ) (operand : Text → Option Text) :
    MakeVars.conditionPiece (s.withPaths texts uncertain) context line operand =
      MakeVars.conditionPiece s context line operand := by
  funext piece
  cases piece <;> simp only [MakeVars.conditionPiece, h.expandConditionReference]

theorem expandConditionOperand (context : TargetContext) (line depth : ℕ) :
    MakeVars.expandConditionOperand (s.withPaths texts uncertain) context line depth =
      MakeVars.expandConditionOperand s context line depth := by
  induction depth using Nat.twoStepInduction with
  | zero => rfl
  | one =>
    funext raw
    simp only [MakeVars.expandConditionOperand, h.conditionPiece]
  | more depth ih _ =>
    funext raw
    simp only [MakeVars.expandConditionOperand, h.conditionPiece, ih]

theorem evaluateConditional (directive args : Text) (context : TargetContext) (line : ℕ) :
    MakeVars.evaluateConditional directive args (s.withPaths texts uncertain) context line =
      MakeVars.evaluateConditional directive args s context line := by
  simp only [MakeVars.evaluateConditional, h.expandConditionOperand, h.pathIsConditionalAt, h.rawAt]

theorem rawValue (name value : Text) (kind : AssignmentKind) (flavor : VariableFlavor) :
    (s.withPaths texts uncertain).rawValue name value kind flavor =
      s.rawValue name value kind flavor := by
  simp only [VarScope.rawValue, h.expandImmediateLocals]
  rfl

end SameUnsettled

section Notes

variable {texts : Histories Text} {uncertain : Histories Unit}
  (branch : ConditionalTruth) (name value : Text) (kind : AssignmentKind) (flavor : VariableFlavor)

theorem noteHeader_withPaths (header : Option DefineBinding) :
    (s.withPaths texts uncertain).noteHeader line branch header =
      (s.noteHeader line branch header).withPaths texts uncertain := by
  rcases header with - | (- | -) <;> simp only [noteHeader] <;> split_ifs <;> rfl

theorem noteComment_withPaths (context : Option TargetContext) (rawLine : Text) :
    (s.withPaths texts uncertain).noteComment context rawLine =
      (s.noteComment context rawLine).withPaths texts uncertain := by
  unfold noteComment
  split <;> rfl

theorem noteFlavor_withPaths (reason : Option Text) :
    (s.withPaths texts uncertain).noteFlavor line name kind reason =
      (s.noteFlavor line name kind reason).withPaths texts uncertain := by
  simp only [noteFlavor]
  split_ifs <;> rfl

theorem notePath_withPaths (uncertainHere uncertainThere : Bool) :
    ∃ uncertain', (s.withPaths texts uncertain).notePath line name uncertainThere =
      (s.notePath line name uncertainHere).withPaths texts uncertain' := by
  cases uncertainHere <;> cases uncertainThere
  · exact ⟨uncertain, rfl⟩
  · exact ⟨uncertain.push name line (), rfl⟩
  · exact ⟨uncertain, rfl⟩
  · exact ⟨uncertain.push name line (), rfl⟩

theorem pushPath_withPaths (s : VarScope) (line : ℕ) (texts : Histories Text)
    (uncertain : Histories Unit) (names names' : HashSet Text) :
    ∃ texts', (s.withPaths texts uncertain).pushPath line names' name value kind flavor =
      (s.pushPath line names name value kind flavor).withPaths texts' uncertain := ⟨_, rfl⟩

theorem pushValue_withPaths (h : s.SameUnsettled texts uncertain) :
    (s.withPaths texts uncertain).pushValue line name value kind flavor =
      (s.pushValue line name value kind flavor).withPaths texts uncertain := by
  simp only [pushValue, h.rawValue]
  rfl

namespace SameUnsettled

variable (h : s.SameUnsettled texts uncertain)
include h

theorem noteHeader (hs : s.Below line) (header : Option DefineBinding) :
    (s.noteHeader line branch header).SameUnsettled texts uncertain := by
  intro name at_
  have hheaders : ((s.noteHeader line branch header).withPaths texts uncertain).hasOpaqueAssignmentBefore
      name at_ = (s.noteHeader line branch header).hasOpaqueAssignmentBefore name at_ := rfl
  have hpath : ∀ t : VarScope, (t.noteHeader line branch header).hasUncertainPathValueBefore name at_ =
      t.hasUncertainPathValueBefore name at_ := fun t => by
    rcases header with - | (- | -) <;> simp only [VarScope.noteHeader] <;> split_ifs <;> rfl
  rw [unsettled, unsettled, hheaders]
  by_cases hnew : (s.noteHeader line branch header).hasOpaqueAssignmentBefore name at_ = true
  · rw [hnew, Bool.true_or, Bool.true_or]
  -- Without a header before the line, only the uncertain paths count, as they did before.
  have hold : s.hasOpaqueAssignmentBefore name at_ = false := by
    rw [← Bool.not_eq_true]
    exact fun hold => hnew (hasOpaqueAssignmentBefore_noteHeader hs branch header hold)
  have hsame := h name at_
  rw [unsettled, unsettled, hold, Bool.false_or,
    show (s.withPaths texts uncertain).hasOpaqueAssignmentBefore name at_ = false from hold,
    Bool.false_or] at hsame
  rw [← noteHeader_withPaths, hpath, hpath, hsame]

theorem noteComment (context : Option TargetContext) (rawLine : Text) :
    (s.noteComment context rawLine).SameUnsettled texts uncertain := by
  unfold VarScope.noteComment
  split <;> exact h

theorem noteWrite : (s.noteWrite line branch name kind).SameUnsettled texts uncertain := h

theorem noteReset (hheaders : ∀ name, ∀ e ∈ s.opaqueAssignments.history name, e.1 ≤ line)
    (hall : ∀ e ∈ s.opaqueAllAssignments, e.1 ≤ line)
    (huncertain : ∀ name, ∀ e ∈ s.uncertainPathValues.history name, e.1 < line)
    (huncertain' : ∀ name, ∀ e ∈ uncertain.history name, e.1 < line) :
    (s.noteReset line branch name kind).SameUnsettled texts uncertain := by
  intro other at_
  have hcommute : (s.noteReset line branch name kind).withPaths texts uncertain =
      (s.withPaths texts uncertain).noteReset line branch name kind := rfl
  rw [hcommute, unsettled_noteReset (s := s.withPaths texts uncertain) hheaders hall huncertain',
    unsettled_noteReset hheaders hall huncertain, h other at_]

theorem noteFlavor (reason : Option Text) :
    (s.noteFlavor line name kind reason).SameUnsettled texts uncertain := by
  unfold VarScope.noteFlavor
  split_ifs <;> exact h

theorem pushPath (names : HashSet Text) (texts' : Histories Text) :
    (s.pushPath line names name value kind flavor).SameUnsettled texts' uncertain := h

theorem pushValue : (s.pushValue line name value kind flavor).SameUnsettled texts uncertain := h

/-- The uncertain paths of two scopes stay alike, if the line marks its variable in both or in
neither, or the variable is unsettled anyway. -/
theorem notePath (hbelow : s.Below (line + 1)) {uncertainHere uncertainThere : Bool} {uncertain' : Histories Unit}
    (heq : (s.withPaths texts uncertain).notePath line name uncertainThere =
      (s.notePath line name uncertainHere).withPaths texts uncertain')
    (hsame : (!s.unsettled name (line + 1) && uncertainHere) =
      (!s.unsettled name (line + 1) && uncertainThere)) :
    (s.notePath line name uncertainHere).SameUnsettled texts uncertain' := by
  intro other at_
  have hreset : ∀ name, ∀ e ∈ s.pathReplacements.history name, e.1 ≤ line :=
    fun name e he => Nat.le_of_lt_succ (hbelow.pathReplacements name e he)
  rw [← heq, unsettled_notePath (s := s.withPaths texts uncertain) hreset, unsettled_notePath hreset,
    h other at_]
  by_cases hhere : other = name ∧ line < at_
  · obtain ⟨rfl, hlt⟩ := hhere
    rw [hbelow.unsettled hlt]
    cases hold : s.unsettled other (line + 1)
    · simpa [hold, hlt, eq_comm] using hsame
    · simp
  · have hno : (decide (other = name) && decide (line < at_)) = false := by
      rw [← Bool.decide_and]
      exact decide_eq_false hhere
    simp only [Bool.and_assoc, hno, Bool.and_false]

end SameUnsettled

end Notes

end VarScope

end MakeVars

end ArosTools
