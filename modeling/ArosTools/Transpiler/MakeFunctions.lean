import ArosTools.Transpiler.MakeEval
import Mathlib.Data.List.Lex

/-!
# The functions of Make expressions

`evaluateFunction`, one definition for each function or family of functions, the `wildcard`
enumeration, and on top of them `expandText` and the two entry points.
-/

namespace ArosTools

namespace MakeExpr

open Str Eval Scoped

/-! ### Wildcards -/

/-- The root of the physical directory a pattern lies in, and the CMake reference shown for it. -/
abbrev Backing := Option (Text × Text)

/-- `concatenate_path_prefix`. -/
def concatenatePathPrefix (start stop : Text) : Text :=
  if start.getLast? = some '/' && stop.head? = some '/' then start ++ stop.drop 1
  else if start.getLast? ≠ some '/' && stop.head? ≠ some '/' && start ≠ [] && stop ≠ [] then
    start ++ '/' :: stop
  else start ++ stop

/-- `Pattern::escape`. -/
def escapePattern (text : Text) : Text :=
  text.flatMap fun c => if c = '?' || c = '*' || c = '[' || c = ']' then ['[', c, ']'] else [c]

/-- The pattern holds the beginning of a CMake reference. -/
def hasReference (text : Text) : Bool := text.tails.any (startsWith (lit "$\x7b"))

variable (ev : Evaluator) (files : Filesystem)

/-- The pattern as it stands for the directories of this machine, the pattern for `glob`, and what
it is backed by. -/
def materializePattern (original : Text) : Except Halt (Text × Text × Backing) :=
  let deferred := Halt.error (.deferredWildcard (boundedPreview original))
  let sourceReference := lit "$\x7bAROS_SOURCE_DIR\x7d"
  let portsReference := lit "$\x7bAROS_PORTS_DIR\x7d"
  match stripPrefix sourceReference original with
  | some tail =>
    if hasReference tail then .error deferred
    else .ok (concatenatePathPrefix ev.sourceText tail,
      concatenatePathPrefix (escapePattern ev.sourceText) tail,
      some (ev.sourceText, sourceReference))
  | none =>
    match stripPrefix portsReference original with
    | some tail =>
      if hasReference tail then .error deferred
      else
        match ev.dirs.materializedPath (lit "AROS_PORTS_DIR") with
        | none => .error deferred
        | some root => do
          let portsText ← pathText root (lit "Ports directory")
          .ok (concatenatePathPrefix portsText tail,
            concatenatePathPrefix (escapePattern portsText) tail, some (portsText, portsReference))
    | none =>
      if hasReference original then .error deferred
      else
        let escapedRoot := escapePattern ev.wildcardRoot
        let pattern := if isAbsolute original || escapedRoot = [] then original
          else concatenatePathPrefix escapedRoot original
        .ok (original, pattern, none)

/-- What is shown of a path that was found. -/
def shownPath (original : Text) (absolute : Bool) (backing : Backing) (found : GlobPath) :
    Except Halt Text :=
  match backing with
  | some (physicalRoot, logicalRoot) =>
    match found.stripPrefix physicalRoot with
    | none => .error (.error (.wildcard (boundedPreview original)
        (lit "match escaped materialized directory `" ++ boundedPreview physicalRoot ++ lit "`")))
    | some relative => do
      let relative ← pathText relative (lit "materialized wildcard result")
      .ok (if relative = [] then logicalRoot else logicalRoot ++ '/' :: relative)
  | none =>
    let shown := if absolute then found.path
      else (found.stripPrefix ev.wildcardRoot).getD found.path
    pathText shown (lit "wildcard result")

/-- The loop over the results of one pattern. -/
def collectMatches (original : Text) (absolute : Bool) (backing : Backing)
    (regularFilesOnly : Bool) :
    List (Except Text GlobPath) → List Text → ℕ → Eval (List Text × ℕ)
  | [], found, bytes => return (found, bytes)
  | .error e :: _, _, _ => fail (.wildcard (boundedPreview original) (boundedPreview e))
  | .ok path :: rest, found, bytes => do
    chargeWork 1
    chargeItems 1
    if regularFilesOnly && !path.isFile then
      collectMatches original absolute backing regularFilesOnly rest found bytes
    else do
      let shown ← ofExcept (shownPath ev original absolute backing path)
      chargeEmitted (len shown)
      if maxValueBytes < bytes + len shown then fail (.resourceLimit .valueBytes maxValueBytes)
      else
        collectMatches original absolute backing regularFilesOnly rest (found ++ [shown])
          (bytes + len shown)

/-- The work charged for sorting words. -/
def sortWork (words : List Text) : ℕ :=
  words.length * (Nat.log2 (max words.length 1) + 1) *
    max ((words.map len).foldl max 0) 1

/-- One pattern of `wildcard`: the sorted matches and the size of the output with them. -/
def wildcardPattern (regularFilesOnly : Bool) (output : List Text) (outputBytes : ℕ)
    (original : Text) : Eval (List Text × ℕ) := do
  chargeWork (len original)
  let (materialized, pattern, backing) ← ofExcept (materializePattern ev original)
  if hasReference materialized then fail (.deferredWildcard (boundedPreview original))
  else
    match files.globWith pattern with
    | .error e => fail (.wildcard (boundedPreview original) (boundedPreview e))
    | .ok paths => do
      let (found, bytes) ←
        collectMatches ev original (isAbsolute materialized) backing regularFilesOnly paths [] 0
      let separators := (found.length - 1) + (if output ≠ [] ∧ found ≠ [] then 1 else 0)
      if maxValueBytes < outputBytes + bytes + separators then
        fail (.resourceLimit .valueBytes maxValueBytes)
      else do
        chargeWork (sortWork found)
        if found = [] ∧ backing.map (·.2) = some (lit "$\x7bAROS_PORTS_DIR\x7d") then
          fail (.deferredWildcard (boundedPreview original))
        else return (found.insertionSort (· ≤ ·), outputBytes + bytes + separators)

/-- The loop of `wildcard` over its patterns. -/
def wildcardPatterns (regularFilesOnly : Bool) :
    List Text → List Text → ℕ → Eval (List Text)
  | [], output, _ => return output
  | original :: rest, output, outputBytes => do
    let (found, bytes) ←
      wildcardPattern ev files regularFilesOnly output outputBytes original
    wildcardPatterns regularFilesOnly rest (output ++ found) bytes

/-- `wildcard`. -/
def wildcard (expandedPatterns : Text) (regularFilesOnly : Bool) : Eval (List Text) :=
  if !ev.filesystemEnabled then
    fail (.filesystemAccessDisabled
      (if regularFilesOnly then lit "call WILDCARD" else lit "wildcard"))
  else do
    chargeScanned (len expandedPatterns)
    ofExcept (rejectUnsupportedReferences expandedPatterns)
    let patterns ← makeWords expandedPatterns
    wildcardPatterns ev files regularFilesOnly patterns [] 0

/-! ### Functions -/

/-- The functions of the safe subset. -/
inductive Function where
  | foreach | addPrefix | addSuffix | filter | filterOut | patsubst | subst | findstring | word
  | wordlist | join | ifElse | or | and | notdir | dir | basename | suffix | sort | strip
  | wildcard | firstword | lastword | words | value | call
  deriving DecidableEq, Repr

/-- The names of the functions. -/
def functionNames : List (Text × Function) :=
  [(lit "foreach", .foreach), (lit "addprefix", .addPrefix), (lit "addsuffix", .addSuffix),
    (lit "filter", .filter), (lit "filter-out", .filterOut), (lit "patsubst", .patsubst),
    (lit "subst", .subst), (lit "findstring", .findstring), (lit "word", .word),
    (lit "wordlist", .wordlist), (lit "join", .join), (lit "if", .ifElse), (lit "or", .or),
    (lit "and", .and), (lit "notdir", .notdir), (lit "dir", .dir), (lit "basename", .basename),
    (lit "suffix", .suffix), (lit "sort", .sort), (lit "strip", .strip),
    (lit "wildcard", .wildcard), (lit "firstword", .firstword), (lit "lastword", .lastword),
    (lit "words", .words), (lit "value", .value), (lit "call", .call)]

/-- The function of a name. -/
def functionNamed (name : Text) : Option Function := functionNames.lookup name

/-- The expansion of the body of a `foreach` for one word. -/
def foreachBody (expand : Text → Eval Text) (loopVariable body word : Text) : Eval Text := do
  chargeItems 1
  chargeEmitted (len loopVariable)
  chargeWork 1
  .scope (.loopVars [(loopVariable, word)]) (expand body) .ret

/-- The loop of `foreach` over the words after the first. -/
def foreachRest (expand : Text → Eval Text) (loopVariable body : Text) :
    List Text → Text → Eval Text
  | [], output => return output
  | word :: rest, output => do
    let expanded ← foreachBody expand loopVariable body word
    let output ← appendChar output ' '
    let output ← appendOutput output expanded
    foreachRest expand loopVariable body rest output

/-- The loop of `foreach`: only the first word has no space before it. -/
def foreachWords (expand : Text → Eval Text) (loopVariable body : Text) : List Text → Eval Text
  | [] => return []
  | word :: rest => do
    let expanded ← foreachBody expand loopVariable body word
    let output ← appendOutput [] expanded
    foreachRest expand loopVariable body rest output

/-- `foreach`. -/
def evaluateForeach (expand : Text → Eval Text) (name rawArgs : Text) : Eval Text := do
  match ← functionArguments name rawArgs 3 with
  | [rawVariable, rawList, body] => do
    let loopVariable ← expand (trim rawVariable)
    if trim loopVariable = [] then
      fail (.invalidSyntax rawArgs (lit "foreach has an empty loop variable name"))
    else do
      let expandedList ← expand (trim rawList)
      let list ← makeWords expandedList
      foreachWords expand (trim loopVariable) body list
  | args => outOfRange args.length 0

/-- The first argument, and the words of the second. -/
def affixArguments (expand : Text → Eval Text) (name rawArgs : Text) :
    Eval (Text × List Text) := do
  match ← functionArguments name rawArgs 2 with
  | [rawFirst, rawWords] => do
    let first ← expand (trim rawFirst)
    let expandedWords ← expand (trim rawWords)
    let words ← makeWords expandedWords
    return (first, words)
  | args => outOfRange args.length 0

/-- `addprefix`. -/
def evaluateAddprefix (expand : Text → Eval Text) (name rawArgs : Text) : Eval Text := do
  let (first, words) ← affixArguments expand name rawArgs
  words.foldlM (fun output word => appendWord output [trim first, word]) []

/-- `addsuffix`. -/
def evaluateAddsuffix (expand : Text → Eval Text) (name rawArgs : Text) : Eval Text := do
  let (first, words) ← affixArguments expand name rawArgs
  words.foldlM (fun output word => appendWord output [word, trim first]) []

/-- `filter` and `filter-out`. -/
def evaluateFilter (expand : Text → Eval Text) (name rawArgs : Text) (keepMatches : Bool) :
    Eval Text := do
  let (first, words) ← affixArguments expand name rawArgs
  let patterns ← makeWords first
  filterWords patterns words keepMatches

/-- `patsubst`. -/
def evaluatePatsubst (expand : Text → Eval Text) (name rawArgs : Text) : Eval Text := do
  match ← functionArguments name rawArgs 3 with
  | [rawPattern, rawReplacement, rawWords] => do
    let pattern ← expand (trim rawPattern)
    let replacement ← expand (trim rawReplacement)
    let expandedWords ← expand (trim rawWords)
    let words ← makeWords expandedWords
    patsubstWords (trim pattern) (trim replacement) words
  | args => outOfRange args.length 0

/-- `str::match_indices(..).count()`; the next `skip` characters belong to a match. -/
def countMatches (source : Text) : ℕ → Text → ℕ
  | _, [] => 0
  | skip + 1, _ :: rest => countMatches source skip rest
  | 0, c :: rest =>
    if startsWith source (c :: rest) then 1 + countMatches source (source.length - 1) rest
    else countMatches source 0 rest

/-- `str::replace`; the next `skip` characters belong to a match. -/
def replaceMatches (source target : Text) : ℕ → Text → Text
  | _, [] => []
  | skip + 1, _ :: rest => replaceMatches source target skip rest
  | 0, c :: rest =>
    if startsWith source (c :: rest) then
      target ++ replaceMatches source target (source.length - 1) rest
    else c :: replaceMatches source target 0 rest

/-- `subst`. -/
def evaluateSubst (expand : Text → Eval Text) (name rawArgs : Text) : Eval Text := do
  match ← functionArguments name rawArgs 3 with
  | [rawSource, rawTarget, rawText] => do
    let source ← expand rawSource
    if source = [] then
      fail (.invalidSyntax (boundedPreview rawArgs)
        (lit "subst with an empty search string is not supported"))
    else do
      let target ← expand rawTarget
      let text ← expand rawText
      chargeScanned (len text)
      let count := countMatches source 0 text
      let outputLen := len text - count * len source + count * len target
      checkValueSize outputLen
      chargeWork count
      chargeEmitted outputLen
      return replaceMatches source target 0 text
  | args => outOfRange args.length 0

/-- `findstring`. -/
def evaluateFindstring (expand : Text → Eval Text) (name rawArgs : Text) : Eval Text := do
  match ← functionArguments name rawArgs 2 with
  | [rawNeedle, rawHaystack] => do
    let needle ← expand rawNeedle
    let haystack ← expand rawHaystack
    chargeScanned (len needle + len haystack)
    chargeWork 1
    return if haystack.tails.any (startsWith needle) then needle else []
  | args => outOfRange args.length 0

/-- The words `first` to `last` of a text. -/
def selectWords (expand : Text → Eval Text) (first last : ℕ) (rawText : Text) : Eval Text := do
  let expandedWords ← expand rawText
  let words ← makeWords expandedWords
  if first = 0 ∨ last < first ∨ words.length < first then return []
  else joinWords ((words.take (min last words.length)).drop (first - 1))

/-- `word`. -/
def evaluateWord (expand : Text → Eval Text) (name rawArgs : Text) : Eval Text := do
  match ← functionArguments name rawArgs 2 with
  | [rawIndex, rawText] => do
    let value ← expand (trim rawIndex)
    let index ← ofExcept (parseWordIndex name value rawArgs)
    selectWords expand index index rawText
  | args => outOfRange args.length 0

/-- `wordlist`. -/
def evaluateWordlist (expand : Text → Eval Text) (name rawArgs : Text) : Eval Text := do
  match ← functionArguments name rawArgs 3 with
  | [rawFirst, rawLast, rawText] => do
    let value ← expand (trim rawFirst)
    let first ← ofExcept (parseWordIndex name value rawArgs)
    let value ← expand (trim rawLast)
    let last ← ofExcept (parseWordIndex name value rawArgs)
    selectWords expand first last rawText
  | args => outOfRange args.length 0

/-- The loop of `join`: the pairs of words, with nothing where a list has ended. -/
def joinPairs : List Text → List Text → Text → Eval Text
  | [], [], output => return output
  | left :: lefts, [], output => do
    let output ← appendWord output [left, []]
    joinPairs lefts [] output
  | [], right :: rights, output => do
    let output ← appendWord output [[], right]
    joinPairs [] rights output
  | left :: lefts, right :: rights, output => do
    let output ← appendWord output [left, right]
    joinPairs lefts rights output

/-- `join`. -/
def evaluateJoin (expand : Text → Eval Text) (name rawArgs : Text) : Eval Text := do
  match ← functionArguments name rawArgs 2 with
  | [rawLeft, rawRight] => do
    let expandedLeft ← expand rawLeft
    let left ← makeWords expandedLeft
    let expandedRight ← expand rawRight
    let right ← makeWords expandedRight
    joinPairs left right []
  | args => outOfRange args.length 0

/-- `if`. -/
def evaluateIf (expand : Text → Eval Text) (name rawArgs : Text) : Eval Text := do
  match ← functionArgumentsBetween name rawArgs 2 3 with
  | rawCondition :: rawThen :: rest => do
    let condition ← expand rawCondition
    if trim condition = [] then expand (rest.head?.getD []) else expand rawThen
  | args => outOfRange args.length 0

/-- The loop of `or`. -/
def firstNonempty (expand : Text → Eval Text) : List Text → Eval Text
  | [] => return []
  | argument :: rest => do
    let value ← expand argument
    if value ≠ [] then return value else firstNonempty expand rest

/-- The loop of `and`. -/
def lastNonempty (expand : Text → Eval Text) : List Text → Text → Eval Text
  | [], last => return last
  | argument :: rest, _ => do
    let value ← expand argument
    if value = [] then return value else lastNonempty expand rest value

/-- `or`. -/
def evaluateOr (expand : Text → Eval Text) (name rawArgs : Text) : Eval Text := do
  let args ← functionArgumentsAtLeast name rawArgs 1
  firstNonempty expand args

/-- `and`. -/
def evaluateAnd (expand : Text → Eval Text) (name rawArgs : Text) : Eval Text := do
  let args ← functionArgumentsAtLeast name rawArgs 1
  lastNonempty expand args []

/-- The single argument of a function, expanded. -/
def trimmedArgument (expand : Text → Eval Text) (name rawArgs : Text) : Eval Text := do
  match ← functionArguments name rawArgs 1 with
  | [argument] => expand (trim argument)
  | args => outOfRange args.length 0

/-- `notdir`, `dir`, `basename` and `suffix`: each word changed by `transform`. -/
def evaluateNames (expand : Text → Eval Text) (name rawArgs : Text)
    (transform : Text → Except Halt (Option Text)) : Eval Text := do
  let expanded ← trimmedArgument expand name rawArgs
  let words ← makeWords expanded
  words.foldlM (fun output word => do
    chargeWork (len word)
    match ← ofExcept (transform word) with
    | some transformed => appendWord output [transformed]
    | none => return output) []

/-- `Vec::dedup`. -/
def dedupWords : List Text → List Text
  | [] => []
  | [word] => [word]
  | word :: next :: rest =>
    if word = next then dedupWords (next :: rest) else word :: dedupWords (next :: rest)

/-- `sort`. -/
def evaluateSort (expand : Text → Eval Text) (name rawArgs : Text) : Eval Text := do
  let expanded ← trimmedArgument expand name rawArgs
  let words ← makeWords expanded
  chargeWork (sortWork words)
  joinWords (dedupWords (words.insertionSort (· ≤ ·)))

/-- `strip`. -/
def evaluateStrip (expand : Text → Eval Text) (name rawArgs : Text) : Eval Text := do
  let expanded ← trimmedArgument expand name rawArgs
  let words ← makeWords expanded
  joinWords words

/-- `wildcard`. -/
def evaluateWildcard (expand : Text → Eval Text) (name rawArgs : Text) : Eval Text := do
  let expanded ← trimmedArgument expand name rawArgs
  let words ← wildcard ev files expanded false
  joinWords words

/-- `firstword`, `lastword` and `words`: a text read off the words of the argument. -/
def evaluateWords (expand : Text → Eval Text) (name rawArgs : Text) (read : List Text → Text) :
    Eval Text := do
  match ← functionArguments name rawArgs 1 with
  | [argument] => do
    let expanded ← expand argument
    let words ← makeWords expanded
    return read words
  | args => outOfRange args.length 0

/-- `value`. -/
def evaluateValue (name rawArgs : Text) : Eval Text := do
  match ← functionArguments name rawArgs 1 with
  | [argument] =>
    if trim argument = [] || (trim argument).any isWhitespace then
      fail (.invalidSyntax (boundedPreview rawArgs) (lit "value requires one variable name"))
    else do
      let value ← resolveVariable ev (trim argument)
      checkValueSize (len value)
      chargeEmitted (len value)
      chargeWork (len value)
      return value
  | args => outOfRange args.length 0

/-- The arguments of a call, expanded and bound to their numbers from `index` on. -/
def bindArguments (expand : Text → Eval Text) : ℕ → List Text → Eval (List (Text × Text))
  | _, [] => return []
  | index, argument :: rest => do
    let value ← expand argument
    let bindings ← bindArguments expand (index + 1) rest
    return (decimal index, value) :: bindings

/-- The body of a called variable, expanded with `0` bound to its name and the numbers to the
arguments. -/
def callVariable (expand : Text → Eval Text) (callee : Text) (rawArgs : List Text) :
    Eval Text := do
  let body ← resolveVariable ev callee
  let arguments ← bindArguments expand 1 rawArgs
  chargeItems (arguments.length + 1)
  .scope (.loopVars ((decimal 0, callee) :: arguments)) (expand body) .ret

/-- `call`. -/
def evaluateCall (expand : Text → Eval Text) (name rawArgs : Text) : Eval Text := do
  match ← functionArgumentsAtLeast name rawArgs 1 with
  | rawCallee :: args => do
    let callee ← expand (trim rawCallee)
    if trim callee = lit "WILDCARD" then
      match args with
      | [argument] => do
        let patterns ← expand (trim argument)
        let words ← wildcard ev files patterns true
        joinWords words
      | _ => fail (.invalidSyntax (boundedPreview rawArgs)
          (lit "AROS WILDCARD expects one argument"))
    else callVariable ev expand (trim callee) args
  | [] => outOfRange 0 0

/-- `evaluate_function`. -/
def evaluateFunction (expand : Text → Eval Text) (name rawArgs : Text) : Eval Text :=
  match functionNamed name with
  | some .foreach => evaluateForeach expand name rawArgs
  | some .addPrefix => evaluateAddprefix expand name rawArgs
  | some .addSuffix => evaluateAddsuffix expand name rawArgs
  | some .filter => evaluateFilter expand name rawArgs true
  | some .filterOut => evaluateFilter expand name rawArgs false
  | some .patsubst => evaluatePatsubst expand name rawArgs
  | some .subst => evaluateSubst expand name rawArgs
  | some .findstring => evaluateFindstring expand name rawArgs
  | some .word => evaluateWord expand name rawArgs
  | some .wordlist => evaluateWordlist expand name rawArgs
  | some .join => evaluateJoin expand name rawArgs
  | some .ifElse => evaluateIf expand name rawArgs
  | some .or => evaluateOr expand name rawArgs
  | some .and => evaluateAnd expand name rawArgs
  | some .notdir => evaluateNames expand name rawArgs fun word => .ok (MakeExpr.notdir word)
  | some .dir => evaluateNames expand name rawArgs fun word => some <$> directoryPart word
  | some .basename => evaluateNames expand name rawArgs MakeExpr.basename
  | some .suffix => evaluateNames expand name rawArgs MakeExpr.suffix
  | some .sort => evaluateSort expand name rawArgs
  | some .strip => evaluateStrip expand name rawArgs
  | some .wildcard => evaluateWildcard ev files expand name rawArgs
  | some .firstword => evaluateWords expand name rawArgs fun words => words.head?.getD []
  | some .lastword => evaluateWords expand name rawArgs fun words => words.getLast?.getD []
  | some .words => evaluateWords expand name rawArgs fun words => decimal words.length
  | some .value => evaluateValue ev name rawArgs
  | some .call => evaluateCall ev files expand name rawArgs
  | none => fail (.unsupportedFunction name)

/-! ### Texts -/

/-- `evaluate_reference`. -/
def evaluateReference (expand : Text → Eval Text) (body : Text) : Eval Text := do
  let trimmed := trimStart body
  chargeScanned (len trimmed)
  if trimmed = [] then fail (.invalidSyntax (lit "$()") (lit "empty variable name"))
  else
    match topLevelWhitespace trimmed with
    | some headEnd => do
      let name ← ofExcept (slicedTo trimmed headEnd)
      let args ← ofExcept (slicedFrom trimmed headEnd)
      evaluateFunction ev files expand name (trimStart args)
    | none => evaluateVariable ev expand (trimEnd trimmed)

/-- A reference `$(...)` whose dollar stands at `dollar`: the output and the next cursor. -/
def expandParenthesis (reference : Text → Eval Text) (raw out : Text) (dollar : ℕ) :
    Eval (ℕ × Text) := do
  chargeScanned (len raw - dollar)
  let stop ← ofExcept (referenceEnd raw dollar)
  let body ← ofExcept (sliced raw (dollar + 2) stop)
  let expanded ← reference body
  let out ← appendOutput out expanded
  return (stop + 1, out)

/-- A reference `${...}` whose dollar stands at `dollar`. -/
def expandBrace (reference : Text → Eval Text) (raw out : Text) (dollar : ℕ) :
    Eval (ℕ × Text) := do
  chargeScanned (len raw - dollar)
  let tail ← ofExcept (slicedFrom raw (dollar + 2))
  match find '\x7d' tail with
  | none => do
    let rest ← ofExcept (slicedFrom raw dollar)
    fail (.invalidSyntax (boundedPreview rest) (lit "unclosed `$\x7b...\x7d` reference"))
  | some relativeEnd => do
    let stop := dollar + 2 + relativeEnd
    let body ← ofExcept (sliced raw (dollar + 2) stop)
    if isDeferredCmakeReference body then do
      let whole ← ofExcept (sliced raw dollar (stop + 1))
      let out ← appendOutput out whole
      return (stop + 1, out)
    else do
      let expanded ← reference body
      let out ← appendOutput out expanded
      return (stop + 1, out)

/-- What stands at a dollar: the next cursor and the output. -/
def expandDollar (reference : Text → Eval Text) (raw out : Text) (dollar : ℕ) : Eval (ℕ × Text) :=
  match (bytes raw)[dollar + 1]? with
  | some next =>
    if next = byte '$' then do
      let out ← appendChar out escapedDollar
      return (dollar + 2, out)
    else if next = byte '(' then expandParenthesis reference raw out dollar
    else if next = byte '\x7b' then expandBrace reference raw out dollar
    else do
      let out ← appendChar out '$'
      return (dollar + 1, out)
  | none => do
    let out ← appendChar out '$'
    return (dollar + 1, out)

/-- The loop of `expand_text`. Every round moves the cursor on, so as many rounds as the text has
bytes are enough. -/
def expandLoop (reference : Text → Eval Text) (raw : Text) : ℕ → ℕ → Text → Eval Text
  | 0, _, out => return out
  | fuel + 1, cursor, out =>
    if cursor < len raw then do
      let rest ← ofExcept (slicedFrom raw cursor)
      match find '$' rest with
      | none => appendOutput out rest
      | some relativeDollar => do
        let plain ← ofExcept (sliced raw cursor (cursor + relativeDollar))
        let out ← appendOutput out plain
        let (cursor, out) ← expandDollar reference raw out (cursor + relativeDollar)
        expandLoop reference raw fuel cursor out
    else return out

/-- `expand_text`, by recursion on the depth that is left. -/
def expandText : ℕ → Text → Eval Text
  | 0, raw => fail (.expansionLimit (boundedPreview raw))
  | depth + 1, raw => .scope .text (do
      chargeScanned (len raw)
      expandLoop (evaluateReference ev files (expandText depth)) raw (len raw) 0 []) .ret

/-- The part of `finish_value` that makes the escaped dollars dollars. -/
def restoreDollars (value : Text) : Eval Text :=
  if !value.contains escapedDollar then return value
  else do
    let escapedCount := value.count escapedDollar
    let outputLen := len value - escapedCount * escapedDollar.utf8Size + escapedCount
    checkValueSize outputLen
    chargeEmitted outputLen
    chargeWork escapedCount
    return value.map fun c => if c = escapedDollar then '$' else c

/-- `finish_value`. -/
def finishValue (value : Text) : Eval Text := do
  chargeScanned (len value)
  ofExcept (rejectUnsupportedReferences value)
  restoreDollars value

/-- The evaluation of an expression. -/
def expressionProgram (raw : Text) : Eval Text := do
  let value ← expandText ev files maxExpansionDepth raw
  finishValue value

/-- The evaluation of an expression to words. -/
def listProgram (raw : Text) : Eval (List Text) := do
  let expanded ← expandText ev files maxExpansionDepth raw
  let value ← finishValue expanded
  makeWords value

/-- Run a program of a new evaluator. -/
def evaluate {α : Type} (context : MakeExprContext) (program : Evaluator → Eval α) :
    Except Halt α := do
  let ev ← Evaluator.new context
  (evaluator.run (program ev) ⟨{}, {}⟩).1

/-- `evaluate_make_expr`. -/
def evaluateMakeExpr (raw : Text) (context : MakeExprContext) : Except Halt Text :=
  evaluate context fun ev => expressionProgram ev files raw

/-- `evaluate_make_list`. -/
def evaluateMakeList (raw : Text) (context : MakeExprContext) : Except Halt (List Text) :=
  evaluate context fun ev => listProgram ev files raw

end MakeExpr

end ArosTools
