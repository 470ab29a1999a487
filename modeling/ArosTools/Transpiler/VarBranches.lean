import ArosTools.Transpiler.VarGrowth
import Mathlib.Data.List.Forall2

/-!
# Branch states

GNU Make keeps one of three states for every open conditional: its current branch is taken, no
branch was taken yet, or an earlier branch was. A line is taken if all open conditionals take their
current branch. The collector cannot decide every condition and keeps truth values with a third,
unknown one instead. Whatever the undecided conditions are, the truth values it records do not
contradict Make.

* `Level`, `takenLines` — Make's reading, for a choice of the undecided conditions;
* `FrameRel`, `StackRel` — what a frame of the collector knows about the level of Make;
* `Collector.step_stackRel` — one round keeps the relation;
* `line_states_sound` — a state that is not unknown is Make's.
-/

namespace ArosTools

namespace MakeVars

open Str Collector

/-! ### Make's reading -/

/-- The state of an open conditional. -/
inductive Level where
  /-- the current branch is taken -/
  | taking
  /-- no branch was taken yet -/
  | waiting
  /-- an earlier branch was taken -/
  | done
  deriving DecidableEq, Repr

/-- All open conditionals take their current branch. -/
def allTaking (levels : List Level) : Bool := levels.all (· = .taking)

/-- The value of a condition; the choice decides an unknown one. -/
def decided (choice : Bool) : ConditionalTruth → Bool
  | .true => true
  | .false => false
  | .unknown => choice

/-- The level after an `else`, or after an `else if` with the given condition. -/
def Level.alternative (condition : Bool) : Level → Level
  | .waiting => if condition then .taking else .waiting
  | _ => .done

/-- The condition that an `else` with the given text behind it stands for. -/
def elseCondition (value : Text → Text → ConditionalTruth) (tail : Text) : ConditionalTruth :=
  if tail = [] then .true
  else match conditionalDirective tail with
    | some (directive, args) => value directive args
    | none => .unknown

/-- The open conditionals after a line. -/
def readLevels (value : Text → Text → ConditionalTruth) (choice : Bool) (levels : List Level) :
    Directive → List Level
  | .conditional directive args =>
    (if allTaking levels && decided choice (value directive args) then .taking else .waiting) ::
      levels
  | .endif => levels.tail
  | .alternative tail =>
    match levels with
    | [] => []
    | level :: outer => level.alternative (decided choice (elseCondition value tail)) :: outer
  | _ => levels

/-- The conditionals that are open after a line of the collection. -/
def levelsAfter (context : TargetContext) (choice : Bool) (c : Collector) (line : ℕ)
    (rawLine : Text) (mark : DefineMark) (levels : List Level) : List Level :=
  if skips rawLine mark then levels
  else readLevels
    (fun directive args => evaluateConditional directive args
      (c.ready (some context) line rawLine mark).scope context line)
    choice levels (readLine (some context) (c.branchState (some context)) rawLine)

/-- For every line, whether Make takes it. A choice for each line decides the condition on it, if
the collector does not. -/
def takenLines (context : TargetContext) (names : HashSet Text) (choices : ℕ → Bool) :
    Collector → ℕ → List Level → List (Text × DefineMark) → List Bool
  | _, _, _, [] => []
  | c, line, levels, (rawLine, mark) :: rest =>
    allTaking levels :: takenLines context names choices
      (c.step (some context) names line rawLine mark) (line + 1)
      (levelsAfter context (choices line) c line rawLine mark levels) rest

/-! ### Truth values -/

/-- A truth value that is not unknown is the right one. -/
def Abstracts : ConditionalTruth → Bool → Prop
  | .unknown, _ => True
  | .true, b => b = true
  | .false, b => b = false

namespace Abstracts

variable {t u : ConditionalTruth} {a b : Bool}

theorem decided (choice : Bool) (t : ConditionalTruth) : Abstracts t (decided choice t) := by
  cases t <;> trivial

theorem not (h : Abstracts t a) : Abstracts t.not !a := by
  cases t <;> simp_all [Abstracts, ConditionalTruth.not]

theorem and (h : Abstracts t a) (h' : Abstracts u b) : Abstracts (t.and u) (a && b) := by
  cases t <;> cases u <;> simp_all [Abstracts, ConditionalTruth.and]

theorem or (h : Abstracts t a) (h' : Abstracts u b) : Abstracts (t.or u) (a || b) := by
  cases t <;> cases u <;> simp_all [Abstracts, ConditionalTruth.or]

end Abstracts

/-! ### Frames and levels -/

/-- What a frame knows about a level, with whether the conditionals around it all take their
branch. Inside a branch that is not taken Make does not look at conditions, so what the frame has
matched is only meaningful outside of it. -/
structure FrameRel (frame : ConditionalFrame) (level : Level) (outer : Bool) : Prop where
  parent : Abstracts frame.parent outer
  current : Abstracts frame.current (outer && decide (level = .taking))
  matched : outer = true → Abstracts frame.matched (decide (level ≠ .waiting))

/-- The frames of the collector and the levels of Make, from the innermost on. -/
inductive StackRel : List ConditionalFrame → List Level → Prop
  | nil : StackRel [] []
  | cons {frame level frames levels} : FrameRel frame level (allTaking levels) →
      StackRel frames levels → StackRel (frame :: frames) (level :: levels)

theorem FrameRel.new {parent condition : ConditionalTruth} {outer value : Bool}
    (hparent : Abstracts parent outer) (hcondition : Abstracts condition value) :
    FrameRel (.new parent condition) (if outer && value then .taking else .waiting) outer where
  parent := hparent
  current := by
    have hlevel : (outer && decide ((if outer && value then Level.taking else .waiting) = .taking)) =
        (outer && value) := by cases outer <;> cases value <;> rfl
    rw [hlevel]
    exact hparent.and hcondition
  matched houter := by
    subst houter
    cases value <;> exact hcondition

theorem FrameRel.elseIf {frame : ConditionalFrame} {level : Level} {outer value : Bool}
    {condition : ConditionalTruth} (h : FrameRel frame level outer)
    (hcondition : Abstracts condition value) :
    FrameRel (frame.elseIf condition) (level.alternative value) outer where
  parent := h.parent
  current := by
    cases outer with
    | false =>
      -- The conditionals around the frame are not all taken, so its parent is not true.
      have hfalse : ∀ t : ConditionalTruth, Abstracts (frame.parent.and t) false := fun t => by
        have hparent := h.parent
        cases hp : frame.parent <;> rw [hp] at hparent <;> cases t <;>
          simp_all [Abstracts, ConditionalTruth.and]
      have hassoc : (frame.elseIf condition).current =
          frame.parent.and (frame.matched.not.and condition) := by
        simp only [ConditionalFrame.elseIf]
        cases frame.parent <;> cases frame.matched.not <;> cases condition <;> rfl
      rw [Bool.false_and, hassoc]
      exact hfalse _
    | true =>
      have hlevel : (true && decide (level.alternative value = .taking)) =
          ((true && !decide (level ≠ .waiting)) && value) := by
        cases level <;> cases value <;> rfl
      rw [hlevel]
      exact (h.parent.and (h.matched rfl).not).and hcondition
  matched houter := by
    have hlevel : decide (level.alternative value ≠ .waiting) =
        (decide (level ≠ .waiting) || value) := by
      cases level <;> cases value <;> rfl
    rw [hlevel]
    exact (h.matched houter).or hcondition

/-- A plain `else` is an `else if` with a true condition. -/
theorem ConditionalFrame.otherwise_eq (frame : ConditionalFrame) :
    frame.otherwise = frame.elseIf .true := by
  obtain ⟨parent, matched, current⟩ := frame
  cases parent <;> cases matched <;> rfl

theorem Collector.elseFrame_eq (c : Collector) (line : ℕ) (context : TargetContext) (tail : Text)
    (frame : ConditionalFrame) :
    c.elseFrame line context tail frame = frame.elseIf (elseCondition
      (fun directive args => evaluateConditional directive args c.scope context line) tail) := by
  rw [elseFrame, elseCondition]
  split_ifs
  · exact frame.otherwise_eq
  · split <;> simp_all

/-! ### The loop -/

namespace Collector

variable {context : TargetContext} {names : HashSet Text} {c : Collector} {line : ℕ}
  {levels : List Level}

theorem stack_abstracts (h : StackRel c.conditionalStack levels) :
    Abstracts ((c.conditionalStack.head?.map fun frame => frame.current).getD .true)
      (allTaking levels) := by
  generalize c.conditionalStack = frames at h
  cases h with
  | nil => rfl
  | cons hframe hrest =>
    have hcurrent := hframe.current
    rwa [Bool.and_comm] at hcurrent

theorem branchState_abstracts (h : StackRel c.conditionalStack levels) :
    Abstracts (c.branchState (some context)) (allTaking levels) := by
  simp only [branchState]
  split_ifs
  · trivial
  · exact stack_abstracts h

theorem obey_stackRel (h : StackRel c.conditionalStack levels) (branch : ConditionalTruth)
    (choice : Bool) (directive : Directive) :
    StackRel (c.obey (some context) names line branch directive).conditionalStack
      (readLevels (fun directive args => evaluateConditional directive args c.scope context line)
        choice levels directive) := by
  cases directive with
  | nothing => exact h
  | error => exact h
  | conditional directive args =>
    exact .cons (.new (stack_abstracts h) (.decided choice _)) h
  | endif =>
    rw [obey, closeConditional, readLevels]
    generalize c.conditionalStack = frames at h ⊢
    cases h with
    | nil => exact .nil
    | cons hframe hrest => exact hrest
  | alternative tail =>
    cases hstack : c.conditionalStack with
    | nil =>
      rw [hstack] at h
      cases h
      simp only [obey, alternative, hstack, readLevels]
      exact .nil
    | cons frame frames =>
      rw [hstack] at h
      cases h with
      | cons hframe hrest =>
        simp only [obey, alternative, hstack, elseFrame_eq]
        exact .cons (hframe.elseIf (.decided choice _)) hrest
  | write name value kind =>
    rw [obey, assign]
    split_ifs <;> exact h

/-- **One round** of the collector and of Make. -/
theorem step_stackRel (h : StackRel c.conditionalStack levels) (choice : Bool) (rawLine : Text)
    (mark : DefineMark) :
    StackRel (c.step (some context) names line rawLine mark).conditionalStack
      (levelsAfter context choice c line rawLine mark levels) := by
  rw [step, levelsAfter]
  split_ifs
  · exact h
  · have hready : StackRel (c.ready (some context) line rawLine mark).conditionalStack levels := h
    exact obey_stackRel hready _ choice _

theorem run_sound (h : StackRel c.conditionalStack levels) (choices : ℕ → Bool)
    (lines : List (Text × DefineMark)) :
    ∃ states, (c.run (some context) names line lines).lineStates = c.lineStates ++ states ∧
      List.Forall₂ Abstracts states (takenLines context names choices c line levels lines) := by
  induction lines generalizing c line levels with
  | nil => exact ⟨[], by simp [run], .nil⟩
  | cons marked rest ih =>
    obtain ⟨rawLine, mark⟩ := marked
    obtain ⟨states, hstates, hsound⟩ := ih (step_stackRel h (choices line) rawLine mark)
    refine ⟨c.branchState (some context) :: states, ?_, .cons (branchState_abstracts h) hsound⟩
    rw [run, hstates, step_lineStates, List.append_assoc]
    rfl

end Collector

/-- **Branch states are sound.** Whatever the conditions are that the collector leaves unknown, a
line in the state true is taken by Make and a line in the state false is not. -/
theorem line_states_sound (joined : Text) (context : TargetContext) (forwardLocals : Bool)
    (choices : ℕ → Bool) :
    List.Forall₂ Abstracts (collectVarsImplWithForwardLocals joined (some context) forwardLocals).2
      (takenLines context (pathNames (lines joined)) choices
        (initialCollector (lines joined) (some context) forwardLocals) 0 []
        (markedLines (lines joined))) := by
  have hinitial : StackRel
      (initialCollector (lines joined) (some context) forwardLocals).conditionalStack [] := .nil
  obtain ⟨states, hstates, hsound⟩ := Collector.run_sound hinitial choices
    (markedLines (lines joined))
  rw [collectVarsImplWithForwardLocals, hstates]
  exact hsound

end MakeVars

end ArosTools
