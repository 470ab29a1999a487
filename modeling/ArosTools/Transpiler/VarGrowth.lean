import ArosTools.Transpiler.VarCollect

/-!
# Histories only grow

Every round of the collector adds entries for its own line and changes none of the earlier ones, so
a query for a line is answered alike in all scopes from that line on.

* `Grows`, `VarScope.Extends` — the new entries are of a range of lines;
* `Collector.step_extends`, `Collector.run_extends` — one round, and a whole run;
* `Collector.run_append`, `Collector.run_lineStates` — a run over more lines;
* `VarScope.Extends.rawAt` and its kin — the queries do not see the new entries.
-/

namespace ArosTools

namespace MakeVars

open Str

/-! ### Entries -/

/-- The second list is the first and new entries of the lines from `lo` to before `hi`. -/
def Grows {α : Type} (lo hi : ℕ) (old entries : List (ℕ × α)) : Prop :=
  ∃ new, entries = old ++ new ∧ ∀ e ∈ new, lo ≤ e.1 ∧ e.1 < hi

namespace Grows

variable {α : Type} {lo hi line : ℕ} {a b c : List (ℕ × α)}

theorem refl (lo hi : ℕ) (a : List (ℕ × α)) : Grows lo hi a a := ⟨[], by simp, by simp⟩

theorem trans (h : Grows lo hi a b) (h' : Grows lo hi b c) : Grows lo hi a c := by
  obtain ⟨new, rfl, hnew⟩ := h
  obtain ⟨newer, rfl, hnewer⟩ := h'
  refine ⟨new ++ newer, List.append_assoc .., fun e he => ?_⟩
  exact (List.mem_append.mp he).elim (hnew e) (hnewer e)

theorem mono (h : Grows lo hi a b) {lo' hi' : ℕ} (hlo : lo' ≤ lo) (hhi : hi ≤ hi') :
    Grows lo' hi' a b := by
  obtain ⟨new, rfl, hnew⟩ := h
  refine ⟨new, rfl, fun e he => ?_⟩
  have := hnew e he
  omega

theorem snoc (a : List (ℕ × α)) (line : ℕ) (value : α) :
    Grows line (line + 1) a (a ++ [(line, value)]) :=
  ⟨[(line, value)], rfl, by simp⟩

theorem lastBefore (h : Grows lo hi a b) (hline : line ≤ lo) :
    MakeVars.lastBefore line b = MakeVars.lastBefore line a := by
  obtain ⟨new, rfl, hnew⟩ := h
  have hnone : new.reverse.find? (fun e => e.1 < line) = none := by
    rw [List.find?_eq_none]
    intro e he
    have := hnew e (List.mem_reverse.mp he)
    simp only [decide_eq_true_eq]
    omega
  rw [MakeVars.lastBefore, List.reverse_append, List.find?_append, hnone, Option.none_or,
    MakeVars.lastBefore]

theorem any (h : Grows lo hi a b) (hline : line ≤ lo) (p : ℕ × α → Bool) :
    (b.any fun e => e.1 < line && p e) = a.any fun e => e.1 < line && p e := by
  obtain ⟨new, rfl, hnew⟩ := h
  rw [List.any_append, Bool.or_eq_left_iff_imp]
  intro hany
  obtain ⟨e, he, hlt⟩ := List.any_eq_true.mp hany
  have := hnew e he
  simp only [Bool.and_eq_true, decide_eq_true_eq] at hlt
  omega

theorem below (h : Grows lo hi a b) (ha : ∀ e ∈ a, e.1 < hi) : ∀ e ∈ b, e.1 < hi := by
  obtain ⟨new, rfl, hnew⟩ := h
  intro e he
  exact (List.mem_append.mp he).elim (ha e) fun he => (hnew e he).2

end Grows

theorem Histories.grows_push {α : Type} (h : Histories α) (name : Text) (line : ℕ) (value : α)
    (other : Text) :
    Grows line (line + 1) (h.history other) ((h.push name line value).history other) := by
  rw [history_push]
  split_ifs with hname
  · exact .snoc ..
  · rw [List.append_nil]
    exact .refl ..

/-! ### Scopes -/

/-- The second scope is the first with new entries of the lines from `lo` to before `hi`. -/
structure VarScope.Extends (lo hi : ℕ) (s t : VarScope) : Prop where
  configuration : t.configuration = s.configuration
  assignments : ∀ name, Grows lo hi (s.assignments.history name) (t.assignments.history name)
  raw : ∀ name, Grows lo hi (s.raw.history name) (t.raw.history name)
  undefinitions : ∀ name, Grows lo hi (s.undefinitions.history name) (t.undefinitions.history name)
  opaqueAssignments : ∀ name,
    Grows lo hi (s.opaqueAssignments.history name) (t.opaqueAssignments.history name)
  opaqueAllAssignments : Grows lo hi s.opaqueAllAssignments t.opaqueAllAssignments
  pathReplacements : ∀ name,
    Grows lo hi (s.pathReplacements.history name) (t.pathReplacements.history name)
  uncertainPathValues : ∀ name,
    Grows lo hi (s.uncertainPathValues.history name) (t.uncertainPathValues.history name)

namespace VarScope

namespace Extends

variable {lo hi line : ℕ} {s t u : VarScope}

theorem refl (lo hi : ℕ) (s : VarScope) : Extends lo hi s s :=
  ⟨rfl, fun _ => .refl .., fun _ => .refl .., fun _ => .refl .., fun _ => .refl .., .refl ..,
    fun _ => .refl .., fun _ => .refl ..⟩

theorem trans (h : Extends lo hi s t) (h' : Extends lo hi t u) : Extends lo hi s u where
  configuration := h'.configuration.trans h.configuration
  assignments name := (h.assignments name).trans (h'.assignments name)
  raw name := (h.raw name).trans (h'.raw name)
  undefinitions name := (h.undefinitions name).trans (h'.undefinitions name)
  opaqueAssignments name := (h.opaqueAssignments name).trans (h'.opaqueAssignments name)
  opaqueAllAssignments := h.opaqueAllAssignments.trans h'.opaqueAllAssignments
  pathReplacements name := (h.pathReplacements name).trans (h'.pathReplacements name)
  uncertainPathValues name := (h.uncertainPathValues name).trans (h'.uncertainPathValues name)

theorem mono (h : Extends lo hi s t) {lo' hi' : ℕ} (hlo : lo' ≤ lo) (hhi : hi ≤ hi') :
    Extends lo' hi' s t where
  configuration := h.configuration
  assignments name := (h.assignments name).mono hlo hhi
  raw name := (h.raw name).mono hlo hhi
  undefinitions name := (h.undefinitions name).mono hlo hhi
  opaqueAssignments name := (h.opaqueAssignments name).mono hlo hhi
  opaqueAllAssignments := h.opaqueAllAssignments.mono hlo hhi
  pathReplacements name := (h.pathReplacements name).mono hlo hhi
  uncertainPathValues name := (h.uncertainPathValues name).mono hlo hhi

/-! ### Queries -/

section Queries

variable (h : Extends lo hi s t) (hline : line ≤ lo) (name : Text)
include h hline

theorem resetBefore : t.resetBefore name line = s.resetBefore name line := by
  rw [VarScope.resetBefore, (h.pathReplacements name).lastBefore hline, VarScope.resetBefore]

theorem hasOpaqueAssignmentBefore :
    t.hasOpaqueAssignmentBefore name line = s.hasOpaqueAssignmentBefore name line := by
  simp only [VarScope.hasOpaqueAssignmentBefore, (h.opaqueAssignments name).lastBefore hline,
    h.opaqueAllAssignments.lastBefore hline, h.resetBefore hline name]

theorem hasUncertainPathValueBefore :
    t.hasUncertainPathValueBefore name line = s.hasUncertainPathValueBefore name line := by
  rw [VarScope.hasUncertainPathValueBefore, (h.uncertainPathValues name).any hline,
    h.resetBefore hline name, VarScope.hasUncertainPathValueBefore]

theorem unsettled : t.unsettled name line = s.unsettled name line := by
  rw [VarScope.unsettled, h.hasOpaqueAssignmentBefore hline, h.hasUncertainPathValueBefore hline,
    VarScope.unsettled]

theorem rawAt : t.rawAt name line = s.rawAt name line := by
  rw [VarScope.rawAt, h.unsettled hline, (h.raw name).lastBefore hline, h.configuration,
    VarScope.rawAt]

theorem isDefinedBefore : t.isDefinedBefore name line = s.isDefinedBefore name line := by
  rw [VarScope.isDefinedBefore, h.hasOpaqueAssignmentBefore hline, (h.raw name).lastBefore hline,
    (h.undefinitions name).lastBefore hline, h.configuration, VarScope.isDefinedBefore]

end Queries

end Extends

/-- The list that a snapshot has for a name. -/
theorem get_snapshot (s : VarScope) (line : ℕ) (name : Text) :
    (s.snapshot line).get name =
      if s.isDefinedBefore name line && !s.unsettled name line then
        ((lastBefore line (s.assignments.history name)).map (·.2)).or
          ((s.configuration.entries.foldl (fun m e => m.insert e.1 (splitWhitespace e.2))
            (HashMap.new : HashMap Text (List Text))).get name)
      else none := by
  have hassigned : (s.assignments.get name).bind (fun entries => (lastBefore line entries).map (·.2)) =
      (lastBefore line (s.assignments.history name)).map (·.2) := by
    rw [Histories.history]
    cases s.assignments.get name <;> rfl
  rw [snapshot, HashMap.get_retain, HashMap.get_extend, HashMap.get_filterMapValues, hassigned]

theorem Extends.snapshot {lo hi line : ℕ} {s t : VarScope} (h : Extends lo hi s t)
    (hline : line ≤ lo) (name : Text) :
    (t.snapshot line).get name = (s.snapshot line).get name := by
  rw [get_snapshot, h.isDefinedBefore hline, h.unsettled hline, (h.assignments name).lastBefore hline,
    h.configuration, get_snapshot]

/-! ### One assignment -/

section Notes

variable (s : VarScope) (line : ℕ) (branch : ConditionalTruth) (name value : Text)
  (kind : AssignmentKind) (flavor : VariableFlavor)

theorem noteHeader_extends (header : Option DefineBinding) :
    Extends line (line + 1) s (s.noteHeader line branch header) := by
  rcases header with - | (known | -)
  · exact .refl ..
  · rw [noteHeader]
    split_ifs
    · exact .refl ..
    · exact { Extends.refl line (line + 1) s with
        opaqueAssignments := s.opaqueAssignments.grows_push known line () }
  · rw [noteHeader]
    split_ifs
    · exact .refl ..
    · exact { Extends.refl line (line + 1) s with
        opaqueAllAssignments := .snoc .. }

theorem noteComment_extends (context : Option TargetContext) (rawLine : Text) :
    Extends line (line + 1) s (s.noteComment context rawLine) := by
  unfold noteComment
  split
  · exact { Extends.refl line (line + 1) s with }
  · exact .refl ..

theorem noteWrite_extends : Extends line (line + 1) s (s.noteWrite line branch name kind) :=
  { Extends.refl line (line + 1) s with }

theorem noteReset_extends : Extends line (line + 1) s (s.noteReset line branch name kind) :=
  { Extends.refl line (line + 1) s with
    undefinitions := fun other => by
      simp only [noteReset]
      split_ifs
      · exact s.undefinitions.grows_push name line () other
      · exact .refl ..
    pathReplacements := fun other => by
      simp only [noteReset]
      split_ifs
      · exact s.pathReplacements.grows_push name line () other
      · exact .refl .. }

theorem noteFlavor_extends (reason : Option Text) :
    Extends line (line + 1) s (s.noteFlavor line name kind reason) := by
  rw [noteFlavor]
  split_ifs
  · exact .refl ..
  · exact { Extends.refl line (line + 1) s with }

theorem notePath_extends (uncertain : Bool) :
    Extends line (line + 1) s (s.notePath line name uncertain) := by
  rw [notePath]
  split_ifs
  · exact { Extends.refl line (line + 1) s with
      uncertainPathValues := s.uncertainPathValues.grows_push name line () }
  · exact .refl ..

theorem pushPath_extends (names : HashSet Text) :
    Extends line (line + 1) s (s.pushPath line names name value kind flavor) :=
  { Extends.refl line (line + 1) s with }

theorem pushValue_extends : Extends line (line + 1) s (s.pushValue line name value kind flavor) :=
  { Extends.refl line (line + 1) s with
    raw := s.raw.grows_push name line _
    assignments := s.assignments.grows_push name line _ }

end Notes

end VarScope

/-! ### One round and a whole run -/

namespace Collector

variable (context : Option TargetContext) (names : HashSet Text) (c : Collector) (line : ℕ)

theorem assignmentScope_extends (branch : ConditionalTruth) (name : Text) (kind : AssignmentKind) :
    c.scope.Extends line (line + 1) (c.assignmentScope line branch name kind) :=
  (VarScope.noteWrite_extends ..).trans (VarScope.noteReset_extends ..)

theorem pathScope_extends (branch : ConditionalTruth) (name value : Text) (kind : AssignmentKind) :
    c.scope.Extends line (line + 1) (c.pathScope line branch name value kind) :=
  (c.assignmentScope_extends line branch name kind).trans (VarScope.noteFlavor_extends ..)

theorem record_extends (branch : ConditionalTruth) (name value : Text) (kind : AssignmentKind) :
    c.scope.Extends line (line + 1) (c.record names line branch name value kind).scope :=
  (((c.pathScope_extends line branch name value kind).trans (VarScope.notePath_extends ..)).trans
    (VarScope.pushPath_extends ..)).trans (VarScope.pushValue_extends ..)

theorem assign_extends (branch : ConditionalTruth) (name value : Text) (kind : AssignmentKind) :
    c.scope.Extends line (line + 1) (c.assign context names line branch name value kind).scope := by
  rw [assign]
  split_ifs
  · exact record_extends ..
  · exact VarScope.noteWrite_extends ..

@[simp] theorem openConditional_scope (directive args : Text) :
    (c.openConditional context line directive args).scope = c.scope := by
  cases context <;> rfl

@[simp] theorem closeConditional_scope : (c.closeConditional context).scope = c.scope := by
  cases context <;> rfl

@[simp] theorem alternative_scope (tail : Text) :
    (c.alternative context line tail).scope = c.scope := by
  unfold alternative
  split <;> rfl

theorem obey_extends (branch : ConditionalTruth) (directive : Directive) :
    c.scope.Extends line (line + 1) (c.obey context names line branch directive).scope := by
  cases directive with
  | nothing => exact .refl ..
  | error => exact .refl ..
  | conditional directive args =>
    rw [obey, openConditional_scope]
    exact .refl ..
  | endif =>
    rw [obey, closeConditional_scope]
    exact .refl ..
  | alternative tail =>
    rw [obey, alternative_scope]
    exact .refl ..
  | write name value kind => exact assign_extends ..

theorem ready_extends (rawLine : Text) (mark : DefineMark) :
    c.scope.Extends line (line + 1) (c.ready context line rawLine mark).scope :=
  (VarScope.noteHeader_extends ..).trans (VarScope.noteComment_extends ..)

theorem step_extends (rawLine : Text) (mark : DefineMark) :
    c.scope.Extends line (line + 1) (c.step context names line rawLine mark).scope := by
  rw [step]
  split_ifs
  · exact VarScope.noteHeader_extends ..
  · exact (c.ready_extends context line rawLine mark).trans (obey_extends ..)

/-- **A run only adds entries of its own lines.** -/
theorem run_extends (lines : List (Text × DefineMark)) :
    c.scope.Extends line (line + lines.length) (c.run context names line lines).scope := by
  induction lines generalizing c line with
  | nil => exact .refl ..
  | cons marked rest ih =>
    obtain ⟨rawLine, mark⟩ := marked
    have hstep := c.step_extends context names line rawLine mark
    have hrest := ih (c.step context names line rawLine mark) (line + 1)
    rw [run, List.length_cons]
    exact (hstep.mono le_rfl (by omega)).trans (hrest.mono (by omega) (by omega))

/-! ### Line states -/

theorem run_append (a b : List (Text × DefineMark)) :
    c.run context names line (a ++ b) =
      (c.run context names line a).run context names (line + a.length) b := by
  induction a generalizing c line with
  | nil => rfl
  | cons marked rest ih =>
    rw [List.cons_append, run, run, ih, List.length_cons, Nat.add_right_comm, Nat.add_assoc]

theorem obey_lineStates (branch : ConditionalTruth) (directive : Directive) :
    (c.obey context names line branch directive).lineStates = c.lineStates := by
  cases directive with
  | nothing => rfl
  | error => rfl
  | conditional directive args => cases context <;> rfl
  | endif => cases context <;> rfl
  | alternative tail =>
    unfold obey alternative
    simp only
    split <;> rfl
  | write name value kind =>
    rw [obey, assign]
    split_ifs <;> rfl

theorem step_lineStates (rawLine : Text) (mark : DefineMark) :
    (c.step context names line rawLine mark).lineStates =
      c.lineStates ++ [c.branchState context] := by
  rw [step]
  split_ifs
  · rfl
  · rw [obey_lineStates]
    rfl

theorem run_lineStates (lines : List (Text × DefineMark)) :
    ∃ states, (c.run context names line lines).lineStates = c.lineStates ++ states ∧
      states.length = lines.length := by
  induction lines generalizing c line with
  | nil => exact ⟨[], by simp [run], rfl⟩
  | cons marked rest ih =>
    obtain ⟨states, hstates, hlength⟩ := ih (c.step context names line marked.1 marked.2) (line + 1)
    refine ⟨c.branchState context :: states, ?_, by rw [List.length_cons, hlength, List.length_cons]⟩
    rw [run, hstates, step_lineStates, List.append_assoc]
    rfl

end Collector

end MakeVars

end ArosTools
