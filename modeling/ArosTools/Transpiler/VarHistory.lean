import ArosTools.Transpiler.VarPaths

/-!
# What earlier lines see

The collector looks at the whole file before its loop: the names that any line assigns decide which
references of a path text become empty. The path texts are used again when a later line asks
whether its references lead to an unresolved variable, and the answer decides what the queries say
about that line's variable. So a query can see lines after its own.

* `Alike.step`, `alike_of_sameReadings` — two collections of the same lines stay alike while that
  question has one answer;
* `history_causal_iff` — two texts with the same first lines have the same history for these lines
  exactly if each of the lines gets the same answer in both;
* `history_sees_later_line` — a file whose fifth line changes what its fourth line left behind.
-/

namespace ArosTools

namespace MakeVars

open Str

/-! ### Two collections -/

namespace Collector

/-- The collector with other paths. -/
def withPaths (c : Collector) (texts : Histories Text) (uncertain : Histories Unit) : Collector :=
  { c with scope := c.scope.withPaths texts uncertain }

/-- An assignment freezes a value that leads to an unresolved variable, and its own variable is
settled otherwise. -/
def freezes (c : Collector) (line : ℕ) (branch : ConditionalTruth) (name value : Text)
    (kind : AssignmentKind) : Bool :=
  !(c.pathScope line branch name value kind).unsettled name (line + 1) &&
    (c.pathScope line branch name value kind).readsUnresolved line value
      (c.assignmentFlavor line branch name kind)

/-- A directive carries out an assignment that freezes such a value. -/
def freezesBy (context : Option TargetContext) (c : Collector) (line : ℕ)
    (branch : ConditionalTruth) : Directive → Bool
  | .write name value kind =>
    c.carriesOut context line branch name kind && c.freezes line branch name value kind
  | _ => false

/-- The line carries out an assignment that freezes a value which leads to an unresolved variable. -/
def freezesUnresolved (context : Option TargetContext) (c : Collector) (line : ℕ) (rawLine : Text)
    (mark : DefineMark) : Bool :=
  if skips rawLine mark then false
  else (c.ready context line rawLine mark).freezesBy context line (c.branchState context)
    (readLine context (c.branchState context) rawLine)

end Collector

namespace Collector

variable (context : Option TargetContext) (names names' : HashSet Text) (c : Collector) (line : ℕ)
  (branch : ConditionalTruth) (name value : Text) (kind : AssignmentKind)
  {texts : Histories Text} {uncertain : Histories Unit}

theorem ready_uncertainPathValues (rawLine : Text) (mark : DefineMark) :
    (c.ready context line rawLine mark).scope.uncertainPathValues = c.scope.uncertainPathValues := by
  have hcomment : ∀ s : VarScope,
      (s.noteComment context rawLine).uncertainPathValues = s.uncertainPathValues := fun s => by
    unfold VarScope.noteComment
    split <;> rfl
  have hheader : ∀ branch, (c.scope.noteHeader line branch mark.header).uncertainPathValues =
      c.scope.uncertainPathValues := fun branch => by
    rcases mark.header with - | (- | -) <;> simp only [VarScope.noteHeader] <;> split_ifs <;> rfl
  simp only [ready, begin, hcomment, hheader]

section

variable {c line} (hsame : c.scope.SameUnsettled texts uncertain) (hbelow : c.scope.Below (line + 1))
  (hpaths : ∀ name, ∀ e ∈ c.scope.uncertainPathValues.history name, e.1 < line)
  (hpaths' : ∀ name, ∀ e ∈ uncertain.history name, e.1 < line)
include hsame hbelow hpaths hpaths'

theorem assignmentScope_sameUnsettled :
    (c.assignmentScope line branch name kind).SameUnsettled texts uncertain :=
  (hsame.noteWrite branch name kind).noteReset branch name kind
    (fun name e he => Nat.le_of_lt_succ (hbelow.opaqueAssignments name e he))
    (fun e he => Nat.le_of_lt_succ (hbelow.opaqueAllAssignments e he)) hpaths hpaths'

theorem pathScope_sameUnsettled :
    (c.pathScope line branch name value kind).SameUnsettled texts uncertain :=
  (assignmentScope_sameUnsettled branch name kind hsame hbelow hpaths hpaths').noteFlavor name kind _

theorem pathScope_withPaths :
    (c.withPaths texts uncertain).pathScope line branch name value kind =
      (c.pathScope line branch name value kind).withPaths texts uncertain := by
  have hscope := assignmentScope_sameUnsettled branch name kind hsame hbelow hpaths hpaths'
  have hcommute : (c.withPaths texts uncertain).assignmentScope line branch name kind =
      (c.assignmentScope line branch name kind).withPaths texts uncertain := rfl
  simp only [pathScope, hcommute, hscope.flavorUncertainty, VarScope.noteFlavor_withPaths]
  rfl

/-- Recording an assignment keeps two collectors alike, if both freeze an unresolved path or
neither does. -/
theorem record_withPaths
    (hflag : (c.withPaths texts uncertain).freezes line branch name value kind =
      c.freezes line branch name value kind) :
    ∃ texts' uncertain',
      (c.withPaths texts uncertain).record names' line branch name value kind =
        (c.record names line branch name value kind).withPaths texts' uncertain' ∧
      (c.record names line branch name value kind).scope.SameUnsettled texts' uncertain' := by
  have hscope := pathScope_sameUnsettled branch name value kind hsame hbelow hpaths hpaths'
  have hcommute := pathScope_withPaths branch name value kind hsame hbelow hpaths hpaths'
  have hbelow' := (c.pathScope_extends line branch name value kind).below hbelow
  rw [freezes, freezes, hcommute, hscope] at hflag
  obtain ⟨uncertain', hnote⟩ := VarScope.notePath_withPaths name
    ((c.pathScope line branch name value kind).readsUnresolved line value
      (c.assignmentFlavor line branch name kind))
    (((c.pathScope line branch name value kind).withPaths texts uncertain).readsUnresolved line value
      (c.assignmentFlavor line branch name kind))
  have hnoted := hscope.notePath name hbelow' hnote hflag.symm
  obtain ⟨texts', hpush⟩ := VarScope.pushPath_withPaths name value kind
    (c.assignmentFlavor line branch name kind)
    ((c.pathScope line branch name value kind).notePath line name
      ((c.pathScope line branch name value kind).readsUnresolved line value
        (c.assignmentFlavor line branch name kind))) line texts uncertain' names names'
  have hpath : (VarScope.pushPath _ line names name value kind _).SameUnsettled texts' uncertain' :=
    hnoted.pushPath name value kind (c.assignmentFlavor line branch name kind) names texts'
  refine ⟨texts', uncertain', ?_, hpath.pushValue name value kind _⟩
  have hflavor : (c.withPaths texts uncertain).assignmentFlavor line branch name kind =
      c.assignmentFlavor line branch name kind := rfl
  simp only [record, hcommute, hflavor, hnote, hpush, VarScope.pushValue_withPaths _ _ _ _ hpath]
  rfl

end

/-- After an assignment its variable has a raw value, unless it is unsettled. -/
theorem isNone_rawAt_record (hbelow : c.scope.Below (line + 1)) :
    ((c.record names line branch name value kind).scope.rawAt name (line + 1)).isNone =
      ((c.pathScope line branch name value kind).unsettled name (line + 1) ||
        (c.pathScope line branch name value kind).readsUnresolved line value
          (c.assignmentFlavor line branch name kind)) := by
  have hbelow' := (c.pathScope_extends line branch name value kind).below hbelow
  have hunsettled : (c.record names line branch name value kind).scope.unsettled name (line + 1) =
      ((c.pathScope line branch name value kind).unsettled name (line + 1) ||
        (c.pathScope line branch name value kind).readsUnresolved line value
          (c.assignmentFlavor line branch name kind)) := by
    have hnote := VarScope.unsettled_notePath
      (fun name e he => Nat.le_of_lt_succ (hbelow'.pathReplacements name e he)) name name
      ((c.pathScope line branch name value kind).readsUnresolved line value
        (c.assignmentFlavor line branch name kind)) (line + 1)
    rw [decide_eq_true (rfl : name = name), Bool.and_true, decide_eq_true (Nat.lt_succ_self line),
      Bool.and_true] at hnote
    exact hnote
  have hraw : ∃ raw, lastBefore (line + 1)
      ((c.record names line branch name value kind).scope.raw.history name) = some (line, raw) := by
    simp only [record, VarScope.pushValue, Histories.history_push, if_true, lastBefore_snoc,
      Nat.lt_succ_self]
    exact ⟨_, rfl⟩
  obtain ⟨raw, hraw⟩ := hraw
  rw [VarScope.rawAt, hunsettled, hraw]
  split_ifs with h
  · rw [h]
    rfl
  · rw [Bool.eq_false_of_not_eq_true h]
    rfl

end Collector

/-- Two collectors that differ in their paths only, and agree on which variables are unsettled. -/
def Alike (c d : Collector) : Prop :=
  ∃ texts uncertain, d = c.withPaths texts uncertain ∧ c.scope.SameUnsettled texts uncertain

namespace Alike

open Collector

variable {context : Option TargetContext} {names names' : HashSet Text} {c d : Collector} {line : ℕ}

theorem refl (c : Collector) : Alike c c :=
  ⟨c.scope.pathRaw, c.scope.uncertainPathValues, rfl, fun _ _ => rfl⟩

theorem branchState (h : Alike c d) : d.branchState context = c.branchState context := by
  obtain ⟨texts, uncertain, rfl, -⟩ := h
  rfl

theorem begin (h : Alike c d) (hc : c.scope.Below line) (mark : DefineMark) :
    Alike (c.begin context line mark) (d.begin context line mark) := by
  obtain ⟨texts, uncertain, rfl, hsame⟩ := h
  refine ⟨texts, uncertain, ?_, hsame.noteHeader _ hc mark.header⟩
  simp only [Collector.begin, Collector.withPaths, VarScope.noteHeader_withPaths]
  rfl

theorem ready (h : Alike c d) (hc : c.scope.Below line) (rawLine : Text) (mark : DefineMark) :
    Alike (c.ready context line rawLine mark) (d.ready context line rawLine mark) := by
  have hbegin : Alike (c.begin context line mark) (d.begin context line mark) := h.begin hc mark
  obtain ⟨texts, uncertain, heq, hsame⟩ := hbegin
  refine ⟨texts, uncertain, ?_, hsame.noteComment context rawLine⟩
  simp only [Collector.ready, heq, Collector.withPaths, VarScope.noteComment_withPaths]

theorem openConditional (h : Alike c d) (directive args : Text) :
    Alike (c.openConditional context line directive args)
      (d.openConditional context line directive args) := by
  obtain ⟨texts, uncertain, rfl, hsame⟩ := h
  refine ⟨texts, uncertain, ?_, by rwa [openConditional_scope]⟩
  cases context with
  | none => rfl
  | some context =>
    simp only [Collector.openConditional, Collector.withPaths, hsame.evaluateConditional]

theorem closeConditional (h : Alike c d) :
    Alike (c.closeConditional context) (d.closeConditional context) := by
  obtain ⟨texts, uncertain, rfl, hsame⟩ := h
  refine ⟨texts, uncertain, ?_, by rwa [closeConditional_scope]⟩
  cases context <;> rfl

theorem alternative (h : Alike c d) (tail : Text) :
    Alike (c.alternative context line tail) (d.alternative context line tail) := by
  obtain ⟨texts, uncertain, rfl, hsame⟩ := h
  refine ⟨texts, uncertain, ?_, by rwa [alternative_scope]⟩
  have hframe : ∀ target frame, (c.withPaths texts uncertain).elseFrame line target tail frame =
      c.elseFrame line target tail frame := fun target frame => by
    simp only [elseFrame, Collector.withPaths, hsame.evaluateConditional]
  unfold Collector.alternative
  rw [show (c.withPaths texts uncertain).conditionalStack = c.conditionalStack from rfl]
  split
  · rw [hframe]
    rfl
  · rfl

theorem carriesOut (h : Alike c d) (branch : ConditionalTruth) (name : Text) (kind : AssignmentKind) :
    d.carriesOut context line branch name kind = c.carriesOut context line branch name kind := by
  obtain ⟨texts, uncertain, rfl, -⟩ := h
  rfl

section

variable (h : Alike c d) (hbelow : c.scope.Below (line + 1))
  (hpaths : ∀ name, ∀ e ∈ c.scope.uncertainPathValues.history name, e.1 < line)
  (hpaths' : ∀ name, ∀ e ∈ d.scope.uncertainPathValues.history name, e.1 < line)
include h hbelow hpaths hpaths'

theorem record {branch : ConditionalTruth} {name value : Text} {kind : AssignmentKind}
    (hflag : d.freezes line branch name value kind = c.freezes line branch name value kind) :
    Alike (c.record names line branch name value kind)
      (d.record names' line branch name value kind) := by
  obtain ⟨texts, uncertain, rfl, hsame⟩ := h
  exact record_withPaths names names' branch name value kind hsame hbelow hpaths hpaths' hflag

theorem assign {branch : ConditionalTruth} {name value : Text} {kind : AssignmentKind}
    (hflag : (c.carriesOut context line branch name kind &&
        d.freezes line branch name value kind) =
      (c.carriesOut context line branch name kind && c.freezes line branch name value kind)) :
    Alike (c.assign context names line branch name value kind)
      (d.assign context names' line branch name value kind) := by
  rw [Collector.assign, Collector.assign, h.carriesOut]
  split_ifs with hcarries
  · rw [hcarries, Bool.true_and, Bool.true_and] at hflag
    exact h.record hbelow hpaths hpaths' hflag
  · obtain ⟨texts, uncertain, rfl, hsame⟩ := h
    exact ⟨texts, uncertain, rfl, hsame.noteWrite branch name kind⟩

/-- An assignment that freezes an unresolved path in only one of two collectors shows. -/
theorem rawAt_record_ne {branch : ConditionalTruth} {name value : Text} {kind : AssignmentKind}
    (hflag : d.freezes line branch name value kind ≠ c.freezes line branch name value kind) :
    (d.record names' line branch name value kind).scope.rawAt name (line + 1) ≠
      (c.record names line branch name value kind).scope.rawAt name (line + 1) := by
  obtain ⟨texts, uncertain, rfl, hsame⟩ := h
  have hscope := pathScope_sameUnsettled branch name value kind hsame hbelow hpaths hpaths'
  have hcommute := pathScope_withPaths branch name value kind hsame hbelow hpaths hpaths'
  have hbelow' : (c.withPaths texts uncertain).scope.Below (line + 1) :=
    { hbelow with uncertainPathValues := fun name e he => (hpaths' name e he).trans (Nat.lt_succ_self _) }
  intro heq
  apply hflag
  have hnone := congrArg Option.isNone heq
  have hflavor : (c.withPaths texts uncertain).assignmentFlavor line branch name kind =
      c.assignmentFlavor line branch name kind := rfl
  rw [isNone_rawAt_record _ _ _ _ _ _ _ hbelow', isNone_rawAt_record _ _ _ _ _ _ _ hbelow, hcommute,
    hscope, hflavor] at hnone
  rw [freezes, freezes, hcommute, hscope, hflavor]
  cases hold : (c.pathScope line branch name value kind).unsettled name (line + 1) with
  | false => rwa [hold, Bool.false_or, Bool.false_or] at hnone
  | true => rw [Bool.not_true, Bool.false_and, Bool.false_and]

end

section Step

variable (h : Alike c d) (hc : c.scope.Below line) (hd : d.scope.Below line) {rawLine : Text}
  {mark : DefineMark}
include h hc hd

/-- **One round.** Two collectors stay alike over a line that freezes an unresolved path in both or
in neither. -/
theorem step (hflag : d.freezesUnresolved context line rawLine mark =
      c.freezesUnresolved context line rawLine mark) :
    Alike (c.step context names line rawLine mark) (d.step context names' line rawLine mark) := by
  rw [freezesUnresolved, freezesUnresolved, h.branchState] at hflag
  rw [Collector.step, Collector.step, h.branchState]
  split_ifs at hflag ⊢ with hskip
  · exact h.begin hc mark
  have hready : Alike (c.ready context line rawLine mark) (d.ready context line rawLine mark) :=
    h.ready hc rawLine mark
  generalize readLine context (c.branchState context) rawLine = directive at hflag ⊢
  cases directive with
  | nothing => exact hready
  | error =>
    obtain ⟨texts, uncertain, heq, hsame⟩ := hready
    exact ⟨texts, uncertain, by rw [heq]; rfl, hsame⟩
  | conditional directive args => exact hready.openConditional directive args
  | endif => exact hready.closeConditional
  | alternative tail => exact hready.alternative tail
  | write name value kind =>
    rw [freezesBy, freezesBy, hready.carriesOut] at hflag
    refine hready.assign ?_ ?_ ?_ hflag
    · exact (c.ready_extends context line rawLine mark).below (hc.mono (Nat.le_succ line))
    · rw [ready_uncertainPathValues]
      exact hc.uncertainPathValues
    · rw [ready_uncertainPathValues]
      exact hd.uncertainPathValues

/-- A line that freezes an unresolved path in only one of two collectors shows. -/
theorem rawAt_step_ne (hflag : d.freezesUnresolved context line rawLine mark ≠
      c.freezesUnresolved context line rawLine mark) :
    ∃ name, (d.step context names' line rawLine mark).scope.rawAt name (line + 1) ≠
      (c.step context names line rawLine mark).scope.rawAt name (line + 1) := by
  rw [freezesUnresolved, freezesUnresolved, h.branchState] at hflag
  rw [Collector.step, Collector.step, h.branchState]
  split_ifs at hflag ⊢ with hskip
  · exact absurd rfl hflag
  have hready : Alike (c.ready context line rawLine mark) (d.ready context line rawLine mark) :=
    h.ready hc rawLine mark
  generalize readLine context (c.branchState context) rawLine = directive at hflag ⊢
  cases directive with
  | write name value kind =>
    rw [freezesBy, freezesBy, hready.carriesOut] at hflag
    refine ⟨name, ?_⟩
    have hcarries : (c.ready context line rawLine mark).carriesOut context line
        (c.branchState context) name kind = true := by
      rw [← Bool.not_eq_false]
      intro hno
      exact hflag (by rw [hno, Bool.false_and, Bool.false_and])
    rw [hcarries, Bool.true_and, Bool.true_and] at hflag
    rw [obey, obey, Collector.assign, Collector.assign, hready.carriesOut, if_pos hcarries,
      if_pos hcarries]
    refine hready.rawAt_record_ne ?_ ?_ ?_ hflag
    · exact (c.ready_extends context line rawLine mark).below (hc.mono (Nat.le_succ line))
    · rw [ready_uncertainPathValues]
      exact hc.uncertainPathValues
    · rw [ready_uncertainPathValues]
      exact hd.uncertainPathValues
  | _ => exact absurd rfl hflag

end Step

end Alike

/-! ### Whole collections -/

theorem take_scanDefineBodies (depth n : ℕ) (lines : List Text) :
    (scanDefineBodies depth lines).take n = scanDefineBodies depth (lines.take n) := by
  induction lines generalizing depth n with
  | nil => simp [scanDefineBodies]
  | cons line rest ih =>
    cases n with
    | zero => rfl
    | succ n => simp [scanDefineBodies, ih]

theorem length_scanDefineBodies (depth : ℕ) (lines : List Text) :
    (scanDefineBodies depth lines).length = lines.length := by
  induction lines generalizing depth with
  | nil => rfl
  | cons line rest ih => rw [scanDefineBodies, List.length_cons, ih, List.length_cons]

theorem take_markedLines (n : ℕ) (lines : List Text) :
    (markedLines lines).take n = markedLines (lines.take n) := by
  rw [markedLines, List.zip, List.take_zipWith, take_scanDefineBodies, markedLines, List.zip]

theorem length_markedLines (lines : List Text) : (markedLines lines).length = lines.length := by
  rw [markedLines, List.length_zip, length_scanDefineBodies, min_self]

/-- The collector before a line of a text. -/
def collectorBefore (joined : Text) (context : Option TargetContext) (line : ℕ) : Collector :=
  (initialCollector (lines joined) context false).run context (pathNames (lines joined)) 0
    ((markedLines (lines joined)).take line)

section

variable (joined : Text) (context : Option TargetContext) (line : ℕ)

theorem initialCollector_eq (joinedLines : List Text) :
    initialCollector joinedLines context false =
      { scope := { configuration := initialMakeConfiguration context } } := by
  simp [initialCollector]

theorem collectorBefore_below : (collectorBefore joined context line).scope.Below line := by
  have hrun := (initialCollector (lines joined) context false).run_extends context
    (pathNames (lines joined)) 0 ((markedLines (lines joined)).take line)
  have hinitial : (initialCollector (lines joined) context false).scope.Below
      (0 + ((markedLines (lines joined)).take line).length) := by
    rw [initialCollector_eq]
    exact ⟨by simp, by simp, by simp, by simp⟩
  refine (hrun.below hinitial).mono ?_
  rw [Nat.zero_add, List.length_take]
  exact min_le_left ..

/-- The scope of the text has what the collector had before a line, and entries from that line on. -/
theorem collectorBefore_extends :
    ∃ bound, (collectorBefore joined context line).scope.Extends line bound
      (collectVarsImpl joined context).1 := by
  have hsplit : (collectVarsImpl joined context).1 =
      ((collectorBefore joined context line).run context (pathNames (lines joined))
        (0 + ((markedLines (lines joined)).take line).length)
        ((markedLines (lines joined)).drop line)).scope := by
    rw [collectorBefore, ← Collector.run_append, List.take_append_drop]
    rfl
  rw [hsplit]
  by_cases hshort : (markedLines (lines joined)).length ≤ line
  · rw [List.drop_eq_nil_of_le hshort]
    exact ⟨line, .refl ..⟩
  · rw [List.length_take, min_eq_left (by omega), Nat.zero_add]
    exact ⟨_, Collector.run_extends ..⟩

variable {line}

theorem collectorBefore_succ {rawLine : Text} {mark : DefineMark}
    (h : (markedLines (lines joined))[line]? = some (rawLine, mark)) :
    collectorBefore joined context (line + 1) =
      (collectorBefore joined context line).step context (pathNames (lines joined)) line rawLine
        mark := by
  obtain ⟨hlt, -⟩ := List.getElem?_eq_some_iff.mp h
  rw [collectorBefore, List.take_add_one, h, Collector.run_append, List.length_take,
    min_eq_left hlt.le, Nat.zero_add]
  rfl

theorem collectorBefore_end (h : (markedLines (lines joined))[line]? = none) :
    collectorBefore joined context (line + 1) = collectorBefore joined context line := by
  rw [collectorBefore, List.take_add_one, h, Option.toList_none, List.append_nil]
  rfl

/-- The state of a line is the branch state of the collector before it. -/
theorem getElem?_lineStates (h : line < (lines joined).length) :
    (collectVarsImpl joined context).2[line]? =
      some ((collectorBefore joined context line).branchState context) := by
  rw [← length_markedLines] at h
  have hsplit : (collectVarsImpl joined context).2 =
      ((collectorBefore joined context line).run context (pathNames (lines joined))
        (0 + ((markedLines (lines joined)).take line).length)
        ((markedLines (lines joined)).drop line)).lineStates := by
    rw [collectorBefore, ← Collector.run_append, List.take_append_drop]
    rfl
  obtain ⟨before, hbefore, hlength⟩ := (initialCollector (lines joined) context false).run_lineStates
    context (pathNames (lines joined)) 0 ((markedLines (lines joined)).take line)
  rw [initialCollector_eq, List.nil_append] at hbefore
  rw [List.length_take, min_eq_left h.le] at hlength
  have hstates : (collectorBefore joined context line).lineStates.length = line := by
    rw [collectorBefore, initialCollector_eq, hbefore, hlength]
  rw [hsplit, List.drop_eq_getElem_cons h, Collector.run]
  obtain ⟨after, hafter, -⟩ := Collector.run_lineStates context (pathNames (lines joined))
    ((collectorBefore joined context line).step context (pathNames (lines joined))
      (0 + ((markedLines (lines joined)).take line).length) _ _)
    (0 + ((markedLines (lines joined)).take line).length + 1) _
  rw [hafter, Collector.step_lineStates, List.append_assoc,
    List.getElem?_append_right hstates.le, hstates, Nat.sub_self]
  rfl

end

section Causal

variable (context : Option TargetContext) (t₁ t₂ : Text) (n : ℕ)

/-- The scopes and line states of two texts answer alike for the lines up to the given one. -/
structure SameHistory : Prop where
  rawAt : ∀ name, ∀ line ≤ n, (collectVarsImpl t₁ context).1.rawAt name line =
    (collectVarsImpl t₂ context).1.rawAt name line
  snapshot : ∀ name, ∀ line ≤ n, ((collectVarsImpl t₁ context).1.snapshot line).get name =
    ((collectVarsImpl t₂ context).1.snapshot line).get name
  isDefinedBefore : ∀ name, ∀ line ≤ n, (collectVarsImpl t₁ context).1.isDefinedBefore name line =
    (collectVarsImpl t₂ context).1.isDefinedBefore name line
  hasOpaqueAssignmentBefore : ∀ name, ∀ line ≤ n,
    (collectVarsImpl t₁ context).1.hasOpaqueAssignmentBefore name line =
      (collectVarsImpl t₂ context).1.hasOpaqueAssignmentBefore name line
  lineStates : ∀ line ≤ n, line < (lines t₁).length → line < (lines t₂).length →
    (collectVarsImpl t₁ context).2[line]? = (collectVarsImpl t₂ context).2[line]?

/-- Each of the first lines freezes an unresolved path in both texts or in neither. -/
def SameReadings : Prop :=
  ∀ line < n, ∀ rawLine mark, (markedLines (lines t₁))[line]? = some (rawLine, mark) →
    (collectorBefore t₂ context line).freezesUnresolved context line rawLine mark =
      (collectorBefore t₁ context line).freezesUnresolved context line rawLine mark

instance : Decidable (SameReadings context t₁ t₂ n) :=
  decidable_of_iff (∀ line < n, ∀ marked ∈ (markedLines (lines t₁))[line]?,
    (collectorBefore t₂ context line).freezesUnresolved context line marked.1 marked.2 =
      (collectorBefore t₁ context line).freezesUnresolved context line marked.1 marked.2)
    ⟨fun h line hline rawLine mark hmarked => h line hline (rawLine, mark) hmarked,
      fun h line hline marked hmarked => h line hline marked.1 marked.2 hmarked⟩

variable {context t₁ t₂ n}

theorem getElem?_markedLines (h : (lines t₁).take n = (lines t₂).take n) {line : ℕ} (hline : line < n) :
    (markedLines (lines t₁))[line]? = (markedLines (lines t₂))[line]? := by
  rw [← List.getElem?_take_of_lt hline, take_markedLines, h, ← take_markedLines,
    List.getElem?_take_of_lt hline]

theorem SameReadings.mono (h : SameReadings context t₁ t₂ n) {m : ℕ} (hle : m ≤ n) :
    SameReadings context t₁ t₂ m :=
  fun line hline => h line (hline.trans_le hle)

/-- **A run over the shared lines.** While the lines read alike, the collectors stay alike. -/
theorem alike_of_sameReadings (h : (lines t₁).take n = (lines t₂).take n) {m : ℕ} (hle : m ≤ n)
    (hread : SameReadings context t₁ t₂ m) :
    Alike (collectorBefore t₁ context m) (collectorBefore t₂ context m) := by
  induction m with
  | zero =>
    rw [collectorBefore, collectorBefore, List.take_zero, List.take_zero, initialCollector_eq,
      initialCollector_eq]
    exact .refl _
  | succ m ih =>
    have halike := ih (by omega) (hread.mono (Nat.le_succ m))
    have hmarked := getElem?_markedLines h (show m < n by omega)
    cases hline : (markedLines (lines t₁))[m]? with
    | none =>
      rw [collectorBefore_end _ _ hline, collectorBefore_end _ _ (hmarked ▸ hline)]
      exact halike
    | some marked =>
      obtain ⟨rawLine, mark⟩ := marked
      rw [collectorBefore_succ _ _ hline, collectorBefore_succ _ _ (hmarked ▸ hline)]
      exact halike.step (collectorBefore_below ..) (collectorBefore_below ..)
        (hread m (Nat.lt_succ_self m) rawLine mark hline)

theorem sameHistory_of_sameReadings (h : (lines t₁).take n = (lines t₂).take n)
    (hread : SameReadings context t₁ t₂ n) : SameHistory context t₁ t₂ n := by
  obtain ⟨texts, uncertain, heq, hsame⟩ := alike_of_sameReadings h le_rfl hread
  obtain ⟨bound₁, hext₁⟩ := collectorBefore_extends t₁ context n
  obtain ⟨bound₂, hext₂⟩ := collectorBefore_extends t₂ context n
  rw [heq] at hext₂
  refine ⟨fun name line hle => ?_, fun name line hle => ?_, fun name line hle => ?_,
    fun name line hle => ?_, fun line hle h₁ h₂ => ?_⟩
  · rw [hext₁.rawAt hle, hext₂.rawAt hle]
    exact (hsame.rawAt name line).symm
  · rw [hext₁.snapshot hle, hext₂.snapshot hle]
    exact congrArg (·.get name) (hsame.snapshot line).symm
  · rw [hext₁.isDefinedBefore hle, hext₂.isDefinedBefore hle]
    rfl
  · rw [hext₁.hasOpaqueAssignmentBefore hle, hext₂.hasOpaqueAssignmentBefore hle]
    rfl
  · rw [getElem?_lineStates _ _ h₁, getElem?_lineStates _ _ h₂,
      (alike_of_sameReadings h hle (hread.mono hle)).branchState]

/-- **Variable history is causal exactly where paths are.** Two texts with the same first `n` lines
have the same history up to line `n` if and only if each of these lines freezes a value that leads
to an unresolved variable in both texts or in neither. -/
theorem history_causal_iff (h : (lines t₁).take n = (lines t₂).take n) :
    SameHistory context t₁ t₂ n ↔ SameReadings context t₁ t₂ n := by
  refine ⟨fun hsame => ?_, sameHistory_of_sameReadings h⟩
  -- The first line that reads differently would show in the raw value of its own variable.
  have hread : ∀ m ≤ n, SameReadings context t₁ t₂ m := by
    intro m
    induction m with
    | zero => exact fun _ line hline => absurd hline (Nat.not_lt_zero line)
    | succ m ih =>
      intro hle line hline rawLine mark hmarked
      rcases Nat.lt_succ_iff_lt_or_eq.mp hline with hline | rfl
      · exact ih (by omega) line hline rawLine mark hmarked
      by_contra hne
      have halike := alike_of_sameReadings h (by omega) (ih (by omega))
      have hmarked₂ : (markedLines (lines t₂))[line]? = some (rawLine, mark) :=
        getElem?_markedLines h (show line < n by omega) ▸ hmarked
      obtain ⟨name, hname⟩ := halike.rawAt_step_ne (collectorBefore_below ..)
        (collectorBefore_below ..) hne
      obtain ⟨bound₁, hext₁⟩ := collectorBefore_extends t₁ context (line + 1)
      obtain ⟨bound₂, hext₂⟩ := collectorBefore_extends t₂ context (line + 1)
      apply hname
      rw [← collectorBefore_succ _ _ hmarked, ← collectorBefore_succ _ _ hmarked₂,
        ← hext₁.rawAt le_rfl, ← hext₂.rawAt le_rfl]
      exact (hsame.rawAt name (line + 1) hle).symm
  exact hread n le_rfl

end Causal

/-- A file that freezes a reference before the name of the reference is defined. -/
def frozenText : Text := lit "P := $(L)\ndefine L\nendef\nQ := $(P)\n"

/-- The same file with a line that assigns the name. -/
def assignedText : Text := frozenText ++ lit "L = x\n"

/-- The last line of `assignedText` decides what the line before it left in `Q`. -/
theorem history_sees_later_line :
    (lines frozenText).take 4 = (lines assignedText).take 4 ∧
      (collectVarsImpl frozenText none).1.rawAt (lit "Q") 4 = none ∧
      (collectVarsImpl assignedText none).1.rawAt (lit "Q") 4 = some (lit "$(L)") := by
  decide

/-- Another last line leaves the history of the lines before it alone. -/
theorem history_causal_iff_frozen :
    (lines frozenText).take 4 = (lines (frozenText ++ lit "M = x\n")).take 4 ∧
      SameHistory none frozenText (frozenText ++ lit "M = x\n") 4 := by
  have hlines : (lines frozenText).take 4 = (lines (frozenText ++ lit "M = x\n")).take 4 := by
    decide
  have hread : SameReadings none frozenText (frozenText ++ lit "M = x\n") 4 := by
    decide
  exact ⟨hlines, (history_causal_iff hlines).mpr hread⟩

end MakeVars

end ArosTools
