import ArosTools.Transpiler.VarScope

/-!
# The variable collector

`collect_vars_impl` goes over the lines of a makefile once, after a scan for the bodies of `define`
and one for the names that any line assigns. It keeps the branch state of every line and records
each active assignment in the scope.

* `expandImmediateLocals` — what a simple assignment freezes;
* `evaluateConditional` — the three-valued conditions;
* `scanDefineBodies`, `pathNames` — the scans before the loop;
* `Collector.step`, `collectVarsImpl` — the loop.
-/

namespace ArosTools

namespace MakeVars

open Str

/-! ### Immediate expansion -/

/-- `MAX_DEPTH_FOR_IMMEDIATE_EXPANSION`. -/
def maxDepthForImmediateExpansion : ℕ := 16

/-- `is_deferred_path_var`. -/
def isDeferredPathVar (name : Text) : Bool :=
  ["OBJDIR", "SRCDIR", "TOP", "GENINCDIR", "PORTSDIR", "PORTSSOURCEDIR", "GENDIR", "AROS_INCLUDES",
    "CPU", "ARCH", "FAMILY"].any fun known => name = lit known

/-- The value that replaces a reference: path expansion reads the path texts, the general one the
raw values. -/
def immediateValue (s : VarScope) (pathNames : Option (HashSet Text)) (name : Text) : Option Text :=
  if name = lit "CURDIR" || name = lit "OBJDIR" then none
  else match pathNames with
    | none => s.latestRaw name
    | some _ => if isDeferredPathVar name then none else s.latestPathRaw name

/-- A file-local name without a value is empty in a path. -/
def isEmptyPath (pathNames : Option (HashSet Text)) (name : Text) : Bool :=
  name ≠ lit "CURDIR" && !isDeferredPathVar name && pathNames.any fun names => name ∈ names

/-- `expand_immediate_locals_impl`. -/
def expandImmediateLocalsImpl (s : VarScope) (pathNames : Option (HashSet Text)) :
    ℕ → Text → Text
  | 0, raw => raw
  | depth + 1, raw =>
    (pieces raw).flatMap fun
      | .char c => [c]
      | .escape => ['$']
      | .stray => ['$']
      | .unclosed rest => '$' :: rest
      | .reference opener body =>
        let simpleName := isScopedVariableName body
        match if simpleName then immediateValue s pathNames body else none with
        | some value => expandImmediateLocalsImpl s pathNames depth value
        | none =>
          if simpleName && isEmptyPath pathNames body then []
          else '$' :: opener :: expandImmediateLocalsImpl s pathNames depth body ++
            (closerOf opener).toList

/-- `expand_immediate_locals`. -/
def expandImmediateLocals (s : VarScope) (depth : ℕ) (raw : Text) : Text :=
  expandImmediateLocalsImpl s none depth raw

/-! ### Conditions -/

inductive ConditionalTruth where
  | false
  | true
  | unknown
  deriving DecidableEq, Repr

namespace ConditionalTruth

def not : ConditionalTruth → ConditionalTruth
  | false => true
  | true => false
  | unknown => unknown

def and : ConditionalTruth → ConditionalTruth → ConditionalTruth
  | false, _ => false
  | _, false => false
  | true, true => true
  | _, _ => unknown

def or : ConditionalTruth → ConditionalTruth → ConditionalTruth
  | true, _ => true
  | _, true => true
  | false, false => false
  | _, _ => unknown

end ConditionalTruth

structure ConditionalFrame where
  parent : ConditionalTruth
  matched : ConditionalTruth
  current : ConditionalTruth
  deriving DecidableEq, Repr

namespace ConditionalFrame

def new (parent condition : ConditionalTruth) : ConditionalFrame :=
  { parent := parent, matched := condition, current := parent.and condition }

def elseIf (frame : ConditionalFrame) (condition : ConditionalTruth) : ConditionalFrame :=
  { frame with
    current := (frame.parent.and frame.matched.not).and condition
    matched := frame.matched.or condition }

def otherwise (frame : ConditionalFrame) : ConditionalFrame :=
  { frame with current := frame.parent.and frame.matched.not, matched := .true }

end ConditionalFrame

section Operands

variable (s : VarScope) (context : TargetContext) (line : ℕ) (operand : Text → Option Text)

/-- `expand_condition_function`, for the expansion of its arguments. -/
def expandConditionFunction (body : Text) : Option Text :=
  if body.any isWhitespace then
    let name := body.takeWhile fun c => !isWhitespace c
    let args := trim (body.dropWhile fun c => !isWhitespace c)
    let words (text : Text) : Text := [' '].intercalate (splitWhitespace text)
    if name = lit "strip" then (operand args).map words
    else if name = lit "findstring" then do
      let (needle, haystack) ← splitTopLevelComma args
      let needle ← operand needle
      let haystack ← operand haystack
      some (if (cutAt needle haystack).isSome then needle else [])
    else if name = lit "filter" || name = lit "filter-out" then do
      let (patterns, text) ← splitTopLevelComma args
      let patterns ← operand patterns
      let text ← operand text
      some ([' '].intercalate ((splitWhitespace text).filter fun word =>
        (splitWhitespace patterns).any (conditionPatternMatches · word) == (name = lit "filter")))
    else none
  else none

/-- `expand_condition_reference`, for the expansion of values and arguments. -/
def expandConditionReference (raw : Text) : Option Text :=
  let body := trim raw
  if isScopedVariableName body then
    if s.pathIsConditionalAt body line then none
    else match s.rawAt body line with
      | some value => operand value
      | none =>
        match context.value body with
        | some value => some value
        | none => if body ∈ s.localNames then some [] else none
  else expandConditionFunction operand body

/-- What a piece of an operand contributes. -/
def conditionPiece : Piece → Option Text
  | .char c => some [c]
  | .escape => some ['$']
  | .stray => none
  | .unclosed _ => none
  | .reference _ body => expandConditionReference s context line operand body

/-- `expand_condition_operand`. An operand and the reference in it take one unit of depth each. -/
def expandConditionOperand : ℕ → Text → Option Text
  | 0, _ => none
  | 1, raw => ((pieces raw).mapM (conditionPiece s context line fun _ => none)).map
      fun parts => trim parts.flatten
  | depth + 2, raw =>
    ((pieces raw).mapM (conditionPiece s context line (expandConditionOperand depth))).map
      fun parts => trim parts.flatten

end Operands

/-- `evaluate_conditional`. -/
def evaluateConditional (directive args : Text) (s : VarScope) (context : TargetContext)
    (line : ℕ) : ConditionalTruth :=
  let expand := expandConditionOperand s context line maxDepthForImmediateExpansion
  let value : Option Bool :=
    if directive = lit "ifeq" || directive = lit "ifneq" then do
      let (left, right) ← equalityOperands args
      let left ← expand left
      let right ← expand right
      some (left = right)
    else if directive = lit "ifdef" || directive = lit "ifndef" then
      let name := trim args
      if s.pathIsConditionalAt name line then none
      else ((s.rawAt name line).or (context.value name)).map fun value => value ≠ []
    else none
  match value with
  | none => .unknown
  | some value =>
    if (directive = lit "ifneq" || directive = lit "ifndef") != value then .true else .false

/-! ### The scans before the loop -/

inductive DefineBinding where
  | known (name : Text)
  | unknown
  deriving DecidableEq, Repr

/-- What `scan_define_bodies` says about a line. -/
structure DefineMark where
  suppressed : Bool
  header : Option DefineBinding
  deriving DecidableEq, Repr

/-- The mark of a line, and the open definitions after it. -/
def defineStep (depth : ℕ) (line : Text) : DefineMark × ℕ :=
  if line.head? = some '\t' then (⟨0 < depth, none⟩, depth)
  else match makeDefineDirective line with
    | some (true, arguments) =>
      (⟨true, if 0 < depth then none
        else some ((defineVariableName arguments).elim .unknown .known)⟩, depth + 1)
    | some (false, arguments) => (⟨true, none⟩, if arguments = [] then depth - 1 else depth)
    | none => (⟨0 < depth, none⟩, depth)

/-- `scan_define_bodies`, from the given number of open definitions. -/
def scanDefineBodies : ℕ → List Text → List DefineMark
  | _, [] => []
  | depth, line :: rest =>
    (defineStep depth line).1 :: scanDefineBodies (defineStep depth line).2 rest

/-- The names that a line assigns, commented out or not. -/
def assignedName (line : Text) : Option Text :=
  let line := match stripPrefix ['#'] (trimStart line) with
    | some commented => trimStart commented
    | none => line
  (variableAssignment (stripMakeComment line)).map (·.1)

/-- The lines with their marks. -/
def markedLines (lines : List Text) : List (Text × DefineMark) := lines.zip (scanDefineBodies 0 lines)

/-- The names that any line outside a definition assigns. -/
def pathNames (lines : List Text) : HashSet Text :=
  .collect ((markedLines lines).filterMap fun (line, mark) =>
    if mark.suppressed || line.head? = some '\t' then none else assignedName line)

/-! ### The loop -/

inductive VariableFlavor where
  | simple
  | recursive
  | unknown
  deriving DecidableEq, Repr

/-- The variables of the loop. The innermost conditional is at the head of the stack. -/
structure Collector where
  scope : VarScope
  conditionalDepth : ℕ := 0
  conditionalStack : List ConditionalFrame := []
  flavors : HashMap Text VariableFlavor := .new
  lineStates : List ConditionalTruth := []
  halted : Bool := false

/-- The conditional directive at the start of a text. -/
def conditionalDirective (text : Text) : Option (Text × Text) :=
  ["ifeq", "ifneq", "ifdef", "ifndef"].findSome? fun word =>
    (directiveTail text (lit word)).map fun tail => (lit word, tail)

/-- The commented-out assignment of a line. -/
def commentedName (line : Text) : Option Text :=
  (stripPrefix ['#'] (trimStart line)).bind fun commented =>
    (variableAssignment (trimStart commented)).map (·.1)

/-- The assignment or `undefine` of a line without its comment. -/
def sourceWrite (line : Text) : Option (Text × Text × AssignmentKind) :=
  match variableAssignment line with
  | some assignment => some assignment
  | none =>
    match undefineDirective line with
    | .ok (some name) => some (name, [], .undefine)
    | _ => none

namespace VarScope

variable (s : VarScope)

/-- A header of `define` in a branch that may be taken makes its name opaque. -/
def noteHeader (line : ℕ) (branch : ConditionalTruth) : Option DefineBinding → VarScope
  | none => s
  | some binding =>
    if branch = .false then s
    else match binding with
      | .known name => { s with opaqueAssignments := s.opaqueAssignments.push name line () }
      | .unknown => { s with opaqueAllAssignments := s.opaqueAllAssignments ++ [(line, ())] }

/-- With a target, a commented-out assignment makes its name a local one. -/
def noteComment (context : Option TargetContext) (rawLine : Text) : VarScope :=
  match context, commentedName rawLine with
  | some _, some name => { s with localNames := s.localNames.insert name }
  | _, _ => s

/-- A name is local, and an assignment in an undecided branch is noted as such. -/
def noteWrite (line : ℕ) (branch : ConditionalTruth) (name : Text) (kind : AssignmentKind) :
    VarScope :=
  { s with
    localNames := s.localNames.insert name
    conditionalAssignments :=
      if branch = .unknown then s.conditionalAssignments.push name line kind
      else s.conditionalAssignments }

/-- The assignment is a proven replacement. -/
def resets (branch : ConditionalTruth) (kind : AssignmentKind) : Bool :=
  branch = .true && (kind = .simpleSet || kind = .recursiveSet || kind = .undefine)

/-- An `undefine` is noted, and a proven replacement resets the paths of the name. -/
def noteReset (line : ℕ) (branch : ConditionalTruth) (name : Text) (kind : AssignmentKind) :
    VarScope :=
  { s with
    undefinitions := if kind = .undefine then s.undefinitions.push name line () else s.undefinitions
    pathReplacements :=
      if resets branch kind then s.pathReplacements.push name line () else s.pathReplacements }

/-- The flavor that a variable has after an assignment. -/
def flavorOf (flavors : HashMap Text VariableFlavor) (name : Text) : AssignmentKind → VariableFlavor
  | .simpleSet => .simple
  | .append =>
    (flavors.get name).getD (if (s.configuration.get name).isSome then .unknown else .recursive)
  | _ => .recursive

/-- Why the flavor of the assigned value is uncertain. -/
def flavorUncertainty (line : ℕ) (name value : Text) (kind : AssignmentKind)
    (flavor : VariableFlavor) : Option Text :=
  if kind = .append && flavor = .unknown && value.contains '$' then
    some (name ++ lit " appends Make references to a configuration value whose " ++
      lit "recursive/simple flavor is unknown")
  else if (kind = .simpleSet || kind = .append) && flavor = .simple then
    (BTreeSet.collect (collectReferences 16 value)).elems.findSome? fun dependency =>
      (s.flavorUncertaintyReasonAt dependency line).map fun reason =>
        name ++ lit " freezes a value from " ++ dependency ++ lit " with uncertain Make flavor: " ++
          reason
  else none

/-- Records why the flavor is uncertain; an append without a reason leaves the history alone. -/
def noteFlavor (line : ℕ) (name : Text) (kind : AssignmentKind) (reason : Option Text) : VarScope :=
  if kind = .append && reason.isNone then s
  else { s with flavorUncertainties := s.flavorUncertainties.push name line reason }

/-- The references of a simply expanded value lead to an unresolved variable. -/
def readsUnresolved (line : ℕ) (value : Text) (flavor : VariableFlavor) : Bool :=
  flavor = .simple && (scalarReferences value).any
    (s.pathDependsOnConditionalAt line maxDepthForImmediateExpansion [])

/-- Records that a frozen value is uncertain. -/
def notePath (line : ℕ) (name : Text) (uncertain : Bool) : VarScope :=
  if uncertain then { s with uncertainPathValues := s.uncertainPathValues.push name line () } else s

/-- Records the path text of an assignment. -/
def pushPath (line : ℕ) (names : HashSet Text) (name value : Text) (kind : AssignmentKind)
    (flavor : VariableFlavor) : VarScope :=
  let rhs := if flavor = .simple then
      expandImmediateLocalsImpl s (some names) maxDepthForImmediateExpansion value
    else value
  let text := if kind = .append then trim ((s.latestPathRaw name).getD [] ++ ' ' :: rhs) else rhs
  { s with pathRaw := s.pathRaw.push name line text }

/-- The raw value after an assignment. -/
def rawValue (name value : Text) (kind : AssignmentKind) (flavor : VariableFlavor) : Text :=
  let rhs := if flavor = .simple then expandImmediateLocals s maxDepthForImmediateExpansion value
    else value
  if kind = .append then
    match s.latestRawForAppend name with
    | some old => if old = [] then rhs else if rhs = [] then old else old ++ ' ' :: rhs
    | none => rhs
  else rhs

/-- Records the raw value and the list of an assignment. -/
def pushValue (line : ℕ) (name value : Text) (kind : AssignmentKind) (flavor : VariableFlavor) :
    VarScope :=
  let expanded := s.rawValue name value kind flavor
  { s with
    raw := s.raw.push name line (trim expanded)
    assignments := s.assignments.push name line (listValues expanded) }

end VarScope

namespace Collector

section

variable (context : Option TargetContext) (names : HashSet Text) (c : Collector) (line : ℕ)

/-- The branch state of the next line. -/
def branchState : ConditionalTruth :=
  match context with
  | none => if 0 < c.conditionalDepth then .unknown else .true
  | some _ =>
    if c.halted then .unknown else (c.conditionalStack.head?.map (·.current)).getD .true

/-- `ifeq` and its kin. -/
def openConditional (directive args : Text) : Collector :=
  match context with
  | none => { c with conditionalDepth := c.conditionalDepth + 1 }
  | some context =>
    let parent := (c.conditionalStack.head?.map (·.current)).getD .true
    let condition := evaluateConditional directive args c.scope context line
    { c with conditionalStack := .new parent condition :: c.conditionalStack }

/-- `endif`. -/
def closeConditional : Collector :=
  match context with
  | none => { c with conditionalDepth := c.conditionalDepth - 1 }
  | some _ => { c with conditionalStack := c.conditionalStack.tail }

/-- The frame after an `else` with the given text behind it. -/
def elseFrame (context : TargetContext) (tail : Text) (frame : ConditionalFrame) : ConditionalFrame :=
  if tail = [] then frame.otherwise
  else match conditionalDirective tail with
    | some (directive, args) =>
      frame.elseIf (evaluateConditional directive args c.scope context line)
    | none => frame.elseIf .unknown

/-- `else`. -/
def alternative (tail : Text) : Collector :=
  match context, c.conditionalStack with
  | some context, frame :: rest =>
    { c with conditionalStack := c.elseFrame line context tail frame :: rest }
  | _, _ => c

/-- The scope in which an assignment that is carried out is recorded. -/
def assignmentScope (branch : ConditionalTruth) (name : Text) (kind : AssignmentKind) : VarScope :=
  (c.scope.noteWrite line branch name kind).noteReset line branch name kind

/-- The flavor that a variable gets from an assignment. -/
def assignmentFlavor (branch : ConditionalTruth) (name : Text) (kind : AssignmentKind) :
    VariableFlavor :=
  (c.assignmentScope line branch name kind).flavorOf c.flavors name kind

/-- The scope before the path of an assignment is looked at. -/
def pathScope (branch : ConditionalTruth) (name value : Text) (kind : AssignmentKind) : VarScope :=
  let s := c.assignmentScope line branch name kind
  let flavor := c.assignmentFlavor line branch name kind
  s.noteFlavor line name kind (s.flavorUncertainty line name value kind flavor)

/-- Records an assignment that is carried out. -/
def record (branch : ConditionalTruth) (name value : Text) (kind : AssignmentKind) : Collector :=
  let s := c.pathScope line branch name value kind
  let flavor := c.assignmentFlavor line branch name kind
  let s := s.notePath line name (s.readsUnresolved line value flavor)
  let s := s.pushPath line names name value kind flavor
  let s := s.pushValue line name value kind flavor
  { c with scope := s, flavors := c.flavors.insert name flavor }

/-- The assignment is carried out: its branch is active, and `?=` finds no value. -/
def carriesOut (branch : ConditionalTruth) (name : Text) (kind : AssignmentKind) : Bool :=
  (context.isNone || branch = .true) &&
    !(kind = .setIfUnset && (c.scope.noteWrite line branch name kind).isDefinedBefore name line)

/-- An assignment. -/
def assign (branch : ConditionalTruth) (name value : Text) (kind : AssignmentKind) : Collector :=
  if c.carriesOut context line branch name kind then c.record names line branch name value kind
  else { c with scope := c.scope.noteWrite line branch name kind }

/-- What a line outside definitions and recipes is for the collector. -/
inductive Directive where
  | nothing
  | error
  | conditional (directive args : Text)
  | endif
  | alternative (tail : Text)
  | write (name value : Text) (kind : AssignmentKind)
  deriving DecidableEq, Repr

/-- Reads a line, in a branch with the given state. -/
def readLine (context : Option TargetContext) (branch : ConditionalTruth) (rawLine : Text) :
    Directive :=
  let line := stripMakeComment rawLine
  let trimmed := trim line
  if startsWith ['#'] trimmed || startsWith ['%'] trimmed then .nothing
  else if context.isSome && branch ≠ .false && isMakeErrorDirective trimmed then .error
  else match conditionalDirective trimmed with
    | some (directive, args) => .conditional directive args
    | none =>
      if trimmed = lit "endif" then .endif
      else if trimmed = lit "else" || startsWith (lit "else ") trimmed then
        .alternative (trim (trimmed.drop 4))
      else match sourceWrite line with
        | some (name, value, kind) => .write name value kind
        | none => .nothing

/-- Carries out a line. -/
def obey (branch : ConditionalTruth) : Directive → Collector
  | .nothing => c
  | .error => { c with halted := true }
  | .conditional directive args => c.openConditional context line directive args
  | .endif => c.closeConditional context
  | .alternative tail => c.alternative context line tail
  | .write name value kind => c.assign context names line branch name value kind

/-- The line is left alone: it belongs to a definition or a recipe. -/
def skips (rawLine : Text) (mark : DefineMark) : Bool := mark.suppressed || rawLine.head? = some '\t'

/-- The branch state is kept, and a header of `define` noted. -/
def begin (mark : DefineMark) : Collector :=
  { c with
    lineStates := c.lineStates ++ [c.branchState context]
    scope := c.scope.noteHeader line (c.branchState context) mark.header }

/-- The collector when a line that is not left alone is read. -/
def ready (rawLine : Text) (mark : DefineMark) : Collector :=
  let c := c.begin context line mark
  { c with scope := c.scope.noteComment context rawLine }

/-- One round of the loop. -/
def step (rawLine : Text) (mark : DefineMark) : Collector :=
  if skips rawLine mark then c.begin context line mark
  else (c.ready context line rawLine mark).obey context names line (c.branchState context)
    (readLine context (c.branchState context) rawLine)

/-- The loop, from the given line on. -/
def run : Collector → ℕ → List (Text × DefineMark) → Collector
  | c, _, [] => c
  | c, line, (rawLine, mark) :: rest => run (c.step context names line rawLine mark) (line + 1) rest

end

end Collector

/-- The local names known beforehand when later assignments count. -/
def forwardLocalNames (lines : List Text) : HashSet Text :=
  .collect ((markedLines lines).filterMap fun (line, mark) =>
    if mark.suppressed || line.head? = some '\t' then none
    else (commentedName line).or ((variableAssignment (stripMakeComment line)).map (·.1)))

/-- The collector before the first line. -/
def initialCollector (lines : List Text) (context : Option TargetContext) (forwardLocals : Bool) :
    Collector where
  scope :=
    { configuration := initialMakeConfiguration context
      localNames := if context.isSome && forwardLocals then forwardLocalNames lines else .new }

/-- `collect_vars_impl_with_forward_locals`. -/
def collectVarsImplWithForwardLocals (joined : Text) (context : Option TargetContext)
    (forwardLocals : Bool) : VarScope × List ConditionalTruth :=
  let lines := lines joined
  let c := (initialCollector lines context forwardLocals).run context (pathNames lines) 0
    (markedLines lines)
  (c.scope, c.lineStates)

/-- `collect_vars_impl`. -/
def collectVarsImpl (joined : Text) (context : Option TargetContext) :
    VarScope × List ConditionalTruth :=
  collectVarsImplWithForwardLocals joined context false

end MakeVars

end ArosTools
