import ArosTools.Program.Scoped
import ArosTools.Transpiler.DirVars
import ArosTools.Transpiler.MakeScan

/-!
# Evaluating Make expressions

The bounded evaluator of GNU Make list expressions, as a program over its budget and its two
stacks: the names whose values are being expanded, and the bindings of `foreach` and `call`.

* `Eval` : evaluator programs; `evaluator` says what their charges, questions and frames mean.
* `expandText` : `expand_text`, by recursion on the depth that is left. The functions that it calls
  take the expansion at the next depth as an argument.
* `evaluateMakeExpr`, `evaluateMakeList` : the two entry points.

The file system enters through `Filesystem`, what the `glob` crate finds for a pattern.
-/

namespace ArosTools

namespace MakeExpr

open Str

/-! ### Programs of the evaluator -/

/-- A charge to the budget, and the check of the size of a value. -/
inductive Charge where
  | scanned (amount : ℕ)
  | emitted (amount : ℕ)
  | work (amount : ℕ)
  | items (amount : ℕ)
  | valueSize (size : ℕ)
  deriving DecidableEq, Repr

/-- What the evaluator looks up on its stacks. -/
inductive Query : Type → Type
  /-- The names whose values are being expanded. -/
  | expansionChain : Query (List Text)
  /-- The innermost binding of a name. -/
  | loopVar (name : Text) : Query (Option Text)

/-- What the evaluator puts on its stacks. -/
inductive Frame where
  /-- A call of `expand_text`; only the depth is counted. -/
  | text
  /-- A variable whose value is being expanded. -/
  | expanding (name : Text)
  /-- Bindings of `foreach` or `call`. -/
  | loopVars (bindings : List (Text × Text))
  deriving DecidableEq, Repr

/-- The stacks of the evaluator, innermost last, and the number of open `expand_text` calls. -/
structure Frames where
  depth : ℕ := 0
  expansionChain : List Text := []
  loopVars : List (Text × Text) := []
  deriving DecidableEq, Repr

structure EvaluationBudget where
  scannedBytes : ℕ := 0
  emittedBytes : ℕ := 0
  workUnits : ℕ := 0
  listItems : ℕ := 0
  deriving DecidableEq, Repr

/-- Programs of the evaluator. -/
abbrev Eval := Scoped Charge Query Frame Halt

/-- `charge`: the counter after it, if it stays within the limit. -/
def spendUpTo (current amount limit : ℕ) : Option ℕ :=
  if current + amount ≤ limit then some (current + amount) else none

/-- The budget after a charge. -/
def EvaluationBudget.spend (b : EvaluationBudget) : Charge → Option EvaluationBudget
  | .scanned n => (spendUpTo b.scannedBytes n maxScannedBytes).map ({ b with scannedBytes := · })
  | .emitted n => (spendUpTo b.emittedBytes n maxEmittedBytes).map ({ b with emittedBytes := · })
  | .work n => (spendUpTo b.workUnits n maxWorkUnits).map ({ b with workUnits := · })
  | .items n => (spendUpTo b.listItems n maxListItems).map ({ b with listItems := · })
  | .valueSize n => if n ≤ maxValueBytes then some b else none

/-- The error of a charge that does not fit. -/
def Charge.refusal : Charge → Halt
  | .scanned _ => .error (.resourceLimit .scannedBytes maxScannedBytes)
  | .emitted _ => .error (.resourceLimit .emittedBytes maxEmittedBytes)
  | .work _ => .error (.resourceLimit .workUnits maxWorkUnits)
  | .items _ => .error (.resourceLimit .listItems maxListItems)
  | .valueSize _ => .error (.resourceLimit .valueBytes maxValueBytes)

/-- `loop_vars.iter().rev().find(..)`: the innermost binding of a name. -/
def lookupBinding (name : Text) (bindings : List (Text × Text)) : Option Text :=
  (bindings.reverse.find? (·.1 = name)).map (·.2)

/-- The answers of the stacks. -/
def Frames.answer (e : Frames) : {β : Type} → Query β → β
  | _, .expansionChain => e.expansionChain
  | _, .loopVar name => lookupBinding name e.loopVars

/-- Enter a frame. -/
def Frames.push (e : Frames) : Frame → Frames
  | .text => { e with depth := e.depth + 1 }
  | .expanding name => { e with expansionChain := e.expansionChain ++ [name] }
  | .loopVars bindings => { e with loopVars := e.loopVars ++ bindings }

/-- Leave a frame. -/
def Frames.pop (e : Frames) : Frame → Frames
  | .text => { e with depth := e.depth - 1 }
  | .expanding _ => { e with expansionChain := e.expansionChain.dropLast }
  | .loopVars bindings =>
    { e with loopVars := e.loopVars.take (e.loopVars.length - bindings.length) }

/-- The meaning of evaluator programs. -/
def evaluator : Interp Charge Query Frame Halt Frames EvaluationBudget where
  spend c b := b.spend c
  refusal := Charge.refusal
  answer q e := e.answer q
  push f e := e.push f
  pop f e := e.pop f
  pop_push f e := by cases f <;> simp [Frames.push, Frames.pop]

namespace Eval

/-- Charge the budget. -/
def pay (c : Charge) : Eval Unit := .charge c (.ret ())

/-- Return an error. -/
def fail {α : Type} (e : MakeExprError) : Eval α := .halt (.error e)

/-- An index that is out of range. -/
def outOfRange {α : Type} (length position : ℕ) : Eval α := .halt (.index length position)

end Eval

open Eval Scoped

/-! ### Building values -/

def checkValueSize (size : ℕ) : Eval Unit := pay (.valueSize size)
def chargeScanned (amount : ℕ) : Eval Unit := pay (.scanned amount)
def chargeEmitted (amount : ℕ) : Eval Unit := pay (.emitted amount)
def chargeWork (amount : ℕ) : Eval Unit := pay (.work amount)
def chargeItems (amount : ℕ) : Eval Unit := pay (.items amount)

/-- `append_output`. -/
def appendOutput (output piece : Text) : Eval Text := do
  checkValueSize (len output + len piece)
  chargeWork 1
  chargeEmitted (len piece)
  return output ++ piece

/-- `append_char`. -/
def appendChar (output : Text) (character : Char) : Eval Text := do
  checkValueSize (len output + character.utf8Size)
  chargeWork 1
  chargeEmitted character.utf8Size
  return output ++ [character]

/-- `append_word`. -/
def appendWord (output : Text) (pieces : List Text) : Eval Text := do
  let word := pieces.flatten
  chargeWork 1
  if word = [] then return output
  else do
    let separator : Text := if output = [] then [] else [' ']
    checkValueSize (len output + len separator + len word)
    chargeItems 1
    chargeEmitted (len separator + len word)
    return output ++ separator ++ word

/-- The loop of `make_words`. -/
def takeWords : List Text → Eval Unit
  | [] => return ()
  | word :: rest => do
    chargeItems 1
    chargeEmitted (len word)
    chargeWork 1
    takeWords rest

/-- `make_words`. -/
def makeWords (raw : Text) : Eval (List Text) := do
  chargeScanned (len raw)
  takeWords (splitWhitespace raw)
  return splitWhitespace raw

/-- Words with a space between them. -/
def spaced : List Text → Text
  | [] => []
  | [word] => word
  | word :: rest => word ++ ' ' :: spaced rest

/-- `join_words`. -/
def joinWords (words : List Text) : Eval Text := do
  let bytes := len words.flatten + (words.length - 1)
  checkValueSize bytes
  chargeEmitted bytes
  chargeWork words.length
  return spaced words

/-- The error for a wrong number of arguments. -/
def argumentError {α : Type} (function raw expected : Text) (count : ℕ) : Eval α :=
  fail (.invalidSyntax (boundedPreview raw)
    (lit "function `" ++ function ++ lit "` expects " ++ expected ++ lit " argument(s), got " ++
      decimal count))

/-- `function_arguments_between`. -/
def functionArgumentsBetween (function raw : Text) (minimum maximum : ℕ) : Eval (List Text) := do
  chargeScanned (len raw)
  let args ← ofExcept (splitTopLevel raw ',')
  if args.length < minimum || maximum < args.length then
    argumentError function raw (decimal minimum ++ lit "..=" ++ decimal maximum) args.length
  else do
    chargeItems args.length
    return args

/-- `function_arguments`. -/
def functionArguments (function raw : Text) (expected : ℕ) : Eval (List Text) :=
  functionArgumentsBetween function raw expected expected

/-- `function_arguments_at_least`. -/
def functionArgumentsAtLeast (function raw : Text) (minimum : ℕ) : Eval (List Text) := do
  chargeScanned (len raw)
  let args ← ofExcept (splitTopLevel raw ',')
  if args.length < minimum then
    argumentError function raw (lit "at least " ++ decimal minimum) args.length
  else do
    chargeItems args.length
    return args

/-! ### Words and patterns -/

/-- The loop of `filter_words` over the patterns for one word. -/
def matchesAny (word : Text) : List Text → Eval Bool
  | [] => return false
  | pattern :: rest => do
    chargeScanned (len pattern + len word)
    chargeWork (len pattern + len word)
    let stem ← ofExcept (patternStem pattern word)
    if stem.isSome then return true else matchesAny word rest

/-- `filter_words`. -/
def filterWords (patterns words : List Text) (keepMatches : Bool) : Eval Text := do
  chargeWork (patterns.length * words.length)
  words.foldlM (fun output word => do
    let matched ← matchesAny word patterns
    if matched = keepMatches then appendWord output [word] else return output) []

/-- The replacement of one word by `patsubst_words`. -/
def patsubstWord (pattern replacement output word : Text) : Eval Text := do
  chargeScanned (len word + len pattern)
  chargeWork (len word + len pattern)
  match ← ofExcept (patternStem pattern word) with
  | none => appendWord output [word]
  | some stem =>
    match find '%' replacement with
    | none => appendWord output [replacement]
    | some percent => do
      let start ← ofExcept (slicedTo replacement percent)
      let stop ← ofExcept (slicedFrom replacement (percent + 1))
      appendWord output [start, stem, stop]

/-- `patsubst_words`. -/
def patsubstWords (pattern replacement : Text) (words : List Text) : Eval Text :=
  words.foldlM (patsubstWord pattern replacement) []

/-- The replacement of one word by `suffix_substitute_words`. -/
def suffixSubstituteWord (source target output word : Text) : Eval Text := do
  chargeScanned (len word + len source)
  chargeWork (len word + len source)
  match stripSuffix source word with
  | some stem => appendWord output [stem, target]
  | none => appendWord output [word]

/-- `suffix_substitute_words`. -/
def suffixSubstituteWords (words : List Text) (source target : Text) : Eval Text :=
  words.foldlM (suffixSubstituteWord source target) []

/-! ### The context -/

/-- A path of the operating system: a text, or what is shown of it if it is not valid UTF-8. -/
inductive OsText where
  | valid (text : Text)
  | invalid (display : Text)
  deriving DecidableEq, Repr

/-- The text that `display` shows. -/
def OsText.display : OsText → Text
  | .valid text => text
  | .invalid display => display

/-- `path_text`. -/
def pathText (path : OsText) (purpose : Text) : Except Halt Text :=
  match path with
  | .valid text => .ok text
  | .invalid display =>
    .error (.error (.invalidSyntax display (purpose ++ lit " is not valid UTF-8")))

/-- `Path::is_absolute`. -/
def isAbsolute (path : Text) : Bool := path.head? = some '/'

/-- `Path::join` with a relative path. -/
def joinPath (path relative : Text) : Text :=
  if path = [] || path.getLast? = some '/' then path ++ relative else path ++ '/' :: relative

/-- A path that `glob` found: whether it is a file, its text, and what is left of it below a
directory. -/
structure GlobPath where
  isFile : Bool
  path : OsText
  stripPrefix : Text → Option OsText

/-- What `glob_with` finds for a pattern. -/
structure Filesystem where
  globWith : Text → Except Text (List (Except Text GlobPath))

/-- The variables of an mmakefile at the line of the expression. -/
structure VarScope where
  rawAt : Text → Option Text
  conditionallyAssignedBefore : Text → Bool

/-- The inputs of an evaluation. -/
structure MakeExprContext where
  scope : VarScope
  dirs : DirVars OsText
  sourceDir : OsText
  relativeDir : OsText
  lookup : Text → Option Text := fun _ => none
  guard : Text → Option Text := fun _ => none
  filesystemEnabled : Bool := true

/-- The fields of the evaluator that an evaluation does not change. -/
structure Evaluator where
  scope : VarScope
  dirs : DirVars OsText
  sourceText : Text
  relativeText : Text
  wildcardRoot : Text
  lookup : Text → Option Text
  guard : Text → Option Text
  filesystemEnabled : Bool

/-- `Evaluator::new`. -/
def Evaluator.new (context : MakeExprContext) : Except Halt Evaluator :=
  if isAbsolute context.relativeDir.display then
    .error (.error (.invalidSyntax context.relativeDir.display
      (lit "the mmakefile directory must be relative to the source tree")))
  else do
    let sourceText ← pathText context.sourceDir (lit "source directory")
    let relative ← pathText context.relativeDir (lit "relative mmakefile directory")
    .ok
      { scope := context.scope
        dirs := context.dirs
        sourceText := sourceText
        relativeText := if relative = [] then ['.'] else relative
        wildcardRoot := joinPath sourceText relative
        lookup := context.lookup
        guard := context.guard
        filesystemEnabled := context.filesystemEnabled }

/-! ### Variables -/

variable (ev : Evaluator)

/-- `context_value`. -/
def contextValue (name : Text) : Option Text :=
  if name = lit "SRCDIR" then some (lit "$\x7bAROS_SOURCE_DIR\x7d")
  else if name = lit "TOP" then some (lit "$\x7bAROS_BUILD_DIR\x7d")
  else if name = lit "CURDIR" then some ev.relativeText
  else none

/-- `guard_reason`. -/
def guardReason (name : Text) : Option Text :=
  if ev.scope.conditionallyAssignedBefore name then
    some (lit "assigned inside an unevaluated Make conditional")
  else ev.guard name

/-- The callback of `resolve_variable`, which notes the last name it had to refuse. -/
def nestedLocal (chain : List Text) : DirVars.Local (Option (Text × Text)) := fun nested =>
  match contextValue ev nested with
  | some value => pure (some value)
  | none =>
    match guardReason ev nested with
    | some detail => do
      set (some (nested, detail))
      pure none
    | none =>
      pure ((ev.lookup nested).or (if chain.contains nested then none else ev.scope.rawAt nested))

/-- The part of `resolve_variable` that falls back to the directory table. -/
def resolveDirectory (chain : List Text) (name : Text) : Except Halt Text :=
  let reference := lit "$(" ++ name ++ lit ")"
  match ev.dirs.expand reference with
  | some expanded => .ok expanded
  | none =>
    match ev.dirs.expandWith reference (nestedLocal ev chain) none with
    | (_, some (guarded, detail)) => .error (.error (.unsafeVariable guarded detail chain))
    | (.ok expanded, none) => .ok expanded
    | (.error names, none) => .error (.error (.unresolvedVariables names chain))

/-- `resolve_variable` for a name that is not bound. -/
def resolveUnbound (chain : List Text) (name : Text) : Except Halt Text :=
  match contextValue ev name with
  | some value => .ok value
  | none =>
    match guardReason ev name with
    | some detail => .error (.error (.unsafeVariable name detail chain))
    | none =>
      match (ev.lookup name).or (ev.scope.rawAt name) with
      | some value => .ok value
      | none => resolveDirectory ev chain name

/-- `resolve_variable`. -/
def resolveVariable (name : Text) : Eval Text :=
  .ask (.loopVar name) fun
    | some value => .ret value
    | none => .ask .expansionChain fun chain => ofExcept (resolveUnbound ev chain name)

/-- The cycle check of `evaluate_variable`. -/
def checkCycle (name : Text) : Eval Unit :=
  .ask .expansionChain fun chain => do
    chargeWork chain.length
    chargeScanned (len name * chain.length + len chain.flatten)
    if chain.contains name then do
      let cycle := chain.dropWhile (· ≠ name)
      chargeEmitted (len cycle.flatten + len name)
      chargeWork (cycle.length + 1)
      fail (.variableCycle (cycle ++ [name]))
    else return ()

/-- The value of a name, expanded while the name is on the chain. -/
def expandVariable (expand : Text → Eval Text) (name : Text) : Eval Text := do
  checkCycle name
  let rawValue ← resolveVariable ev name
  .scope (.expanding name) (expand rawValue) .ret

/-- The name of a variable reference. -/
def variableName (expand : Text → Eval Text) (body rawName : Text) : Eval Text := do
  let expandedName ← expand rawName
  let name := trim expandedName
  checkValueSize (len name)
  chargeEmitted (len name)
  chargeWork 1
  if name = [] || name.any isWhitespace then
    fail (.invalidSyntax (boundedPreview body) (lit "invalid expanded variable name `" ++ name ++
      lit "`"))
  else return name

/-- `evaluate_variable`. -/
def evaluateVariable (expand : Text → Eval Text) (body : Text) : Eval Text := do
  chargeScanned (len body * 2)
  let (rawName, substitution) ← ofExcept (splitSubstitutionReference body)
  let name ← variableName expand body rawName
  let expanded ← expandVariable ev expand name
  match substitution with
  | none => return expanded
  | some (rawSource, rawTarget) => do
    let source ← expand rawSource
    let target ← expand rawTarget
    let words ← makeWords expanded
    if (trim source).contains '%' then patsubstWords (trim source) (trim target) words
    else suffixSubstituteWords words (trim source) (trim target)

end MakeExpr

end ArosTools
