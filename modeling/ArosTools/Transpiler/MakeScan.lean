import ArosTools.Program.Utf8Text

/-!
# Scanning Make expressions

The scanners of the expression evaluator. They go through the bytes of a text, follow the nesting
of `$(`, and cut the text at the byte positions they stop at. A cut that does not fall on a
character boundary ends the evaluation with a panic; `Halt` keeps panics apart from the errors the
evaluator returns.
-/

namespace ArosTools

namespace MakeExpr

open Str

/-! ### Errors -/

/-- The budgets of one evaluation, by the name their error gives them. -/
inductive Resource where
  /-- `scanned bytes` -/
  | scannedBytes
  /-- `aggregate emitted bytes` -/
  | emittedBytes
  /-- `work units` -/
  | workUnits
  /-- `list items` -/
  | listItems
  /-- `value bytes` -/
  | valueBytes
  deriving DecidableEq, Repr

/-- Why an expression could not be evaluated. -/
inductive MakeExprError where
  | invalidSyntax (expression detail : Text)
  | unresolvedVariables (names expansionChain : List Text)
  | variableCycle (expansionChain : List Text)
  | unsafeVariable (name detail : Text) (expansionChain : List Text)
  | expansionLimit (expression : Text)
  | resourceLimit (resource : Resource) (limit : ℕ)
  | unsupportedFunction (name : Text)
  | unsupportedReference (reference : Text)
  | deferredWildcard (pattern : Text)
  | wildcard (pattern detail : Text)
  | filesystemAccessDisabled (function : Text)
  deriving DecidableEq, Repr

/-- What ends an evaluation without a value. -/
inductive Halt where
  /-- An error that the evaluator returns. -/
  | error (e : MakeExprError)
  /-- The panic of a string slice that is out of range or splits a character. -/
  | slice (text : Text) (start stop : ℕ)
  /-- The panic of an index that is out of range. -/
  | index (length position : ℕ)
  deriving DecidableEq, Repr

/-- The evaluation panicked. -/
def Halt.isPanic : Halt → Bool
  | .error _ => false
  | .slice .. => true
  | .index .. => true

def maxExpansionDepth : ℕ := 32
def maxValueBytes : ℕ := 4 * 1024 * 1024
def maxEmittedBytes : ℕ := 16 * 1024 * 1024
def maxScannedBytes : ℕ := 64 * 1024 * 1024
def maxWorkUnits : ℕ := 1048576
def maxListItems : ℕ := 65536
def maxErrorPreviewBytes : ℕ := 128

/-- The character that stands for an escaped dollar during an evaluation. -/
def escapedDollar : Char := '\uE000'

/-! ### Slices that panic -/

/-- `&text[start..stop]`. -/
def sliced (text : Text) (start stop : ℕ) : Except Halt Text :=
  match slice text start stop with
  | some part => .ok part
  | none => .error (.slice text start stop)

/-- `&text[start..]`. -/
def slicedFrom (text : Text) (start : ℕ) : Except Halt Text :=
  match sliceFrom text start with
  | some part => .ok part
  | none => .error (.slice text start (len text))

/-- `&text[..stop]`. -/
def slicedTo (text : Text) (stop : ℕ) : Except Halt Text :=
  match sliceTo text stop with
  | some part => .ok part
  | none => .error (.slice text 0 stop)

/-- The slice up to the last character boundary at or before `stop`. -/
def previewTo (value : Text) : ℕ → Text
  | 0 => []
  | stop + 1 => (sliceTo value (stop + 1)).getD (previewTo value stop)

/-- `bounded_preview`. -/
def boundedPreview (value : Text) : Text :=
  if len value ≤ maxErrorPreviewBytes then value
  else previewTo value maxErrorPreviewBytes ++ ['…']

/-! ### References -/

/-- The loop of `reference_end`, at `cursor` before the bytes that are left. -/
def referenceEndFrom : ℕ → ℕ → List UInt8 → Option ℕ
  | _, _, [] => none
  | depth, cursor, [b] => if b = byte ')' && depth = 1 then some cursor else none
  | depth, cursor, b :: c :: rest =>
    if b = byte '$' && c = byte '(' then referenceEndFrom (depth + 1) (cursor + 2) rest
    else if b = byte ')' then
      if depth = 1 then some cursor else referenceEndFrom (depth - 1) (cursor + 1) (c :: rest)
    else referenceEndFrom depth (cursor + 1) (c :: rest)

/-- `reference_end`. -/
def referenceEnd (raw : Text) (start : ℕ) : Except Halt ℕ :=
  match referenceEndFrom 1 (start + 2) ((bytes raw).drop (start + 2)) with
  | some stop => .ok stop
  | none => do
    let rest ← slicedFrom raw start
    .error (.error (.invalidSyntax (boundedPreview rest) (lit "unclosed `$(...)` reference")))

/-- The loop of `top_level_byte` and `top_level_whitespace`: the first byte outside references that
satisfies `p`. -/
def topLevelFrom (p : UInt8 → Bool) : ℕ → ℕ → List UInt8 → Option ℕ
  | _, _, [] => none
  | depth, cursor, [b] => if b = byte ')' && 0 < depth then none
    else if p b && depth = 0 then some cursor else none
  | depth, cursor, b :: c :: rest =>
    if b = byte '$' && c = byte '(' then topLevelFrom p (depth + 1) (cursor + 2) rest
    else if b = byte ')' && 0 < depth then topLevelFrom p (depth - 1) (cursor + 1) (c :: rest)
    else if p b && depth = 0 then some cursor
    else topLevelFrom p depth (cursor + 1) (c :: rest)

/-- `top_level_byte`. -/
def topLevelByte (raw : Text) (needle : Char) : Option ℕ :=
  topLevelFrom (· = byte needle) 0 0 (bytes raw)

/-- `u8::is_ascii_whitespace`. -/
def isAsciiSpace (b : UInt8) : Bool := b = 32 || b = 9 || b = 10 || b = 12 || b = 13

/-- `top_level_whitespace`. -/
def topLevelWhitespace (raw : Text) : Option ℕ := topLevelFrom isAsciiSpace 0 0 (bytes raw)

/-- A variable name, and the two sides of a substitution. -/
abbrev SubstitutionReference := Text × Option (Text × Text)

/-- `split_substitution_reference`. -/
def splitSubstitutionReference (body : Text) : Except Halt SubstitutionReference :=
  match topLevelByte body ':' with
  | none => .ok (body, none)
  | some colon => do
    let remainder ← slicedFrom body (colon + 1)
    match topLevelByte remainder '=' with
    | none => .error (.error (.invalidSyntax (boundedPreview body)
        (lit "substitution reference has `:` but no `=`")))
    | some equal => do
      let name ← slicedTo body colon
      let source ← slicedTo remainder equal
      let target ← slicedFrom remainder (equal + 1)
      .ok (name, some (source, target))

/-- The error of a list with too many items. -/
def listItemsLimit : Halt := .error (.resourceLimit .listItems maxListItems)

/-- The loop of `split_top_level`: the pieces cut off, the start of the next one and the depth. -/
def splitTopLevelFrom (raw : Text) (separator : UInt8) (out : List Text) (start : ℕ) :
    ℕ → ℕ → List UInt8 → Except Halt (List Text × ℕ × ℕ)
  | depth, _, [] => .ok (out, start, depth)
  | depth, cursor, [b] =>
    if b = byte ')' && 0 < depth then .ok (out, start, depth - 1)
    else if b = separator && depth = 0 then
      if maxListItems ≤ out.length then .error listItemsLimit
      else do
        let piece ← sliced raw start cursor
        .ok (out ++ [piece], cursor + 1, depth)
    else .ok (out, start, depth)
  | depth, cursor, b :: c :: rest =>
    if b = byte '$' && c = byte '(' then
      splitTopLevelFrom raw separator out start (depth + 1) (cursor + 2) rest
    else if b = byte ')' && 0 < depth then
      splitTopLevelFrom raw separator out start (depth - 1) (cursor + 1) (c :: rest)
    else if b = separator && depth = 0 then
      if maxListItems ≤ out.length then .error listItemsLimit
      else do
        let piece ← sliced raw start cursor
        splitTopLevelFrom raw separator (out ++ [piece]) (cursor + 1) depth (cursor + 1) (c :: rest)
    else splitTopLevelFrom raw separator out start depth (cursor + 1) (c :: rest)

/-- `split_top_level`. -/
def splitTopLevel (raw : Text) (separator : Char) : Except Halt (List Text) := do
  let (out, start, depth) ← splitTopLevelFrom raw (byte separator) [] 0 0 0 (bytes raw)
  if depth ≠ 0 then
    .error (.error (.invalidSyntax (boundedPreview raw)
      (lit "unclosed nested reference in function arguments")))
  else if maxListItems ≤ out.length then .error listItemsLimit
  else do
    let last ← slicedFrom raw start
    .ok (out ++ [last])

/-- The loop of `reject_unsupported_references`, at `cursor` before the bytes that are left, of
which the next `skip` have been dealt with. -/
def rejectFrom (raw : Text) : ℕ → ℕ → List UInt8 → Except Halt Unit
  | _, _, [] => .ok ()
  | skip + 1, cursor, _ :: rest => rejectFrom raw skip (cursor + 1) rest
  | 0, cursor, b :: rest =>
    if b ≠ byte '$' then rejectFrom raw 0 (cursor + 1) rest
    else match rest.head? with
      | none => .error (.error (.unsupportedReference ['$']))
      | some next =>
        if next = byte '$' then rejectFrom raw 1 (cursor + 1) rest
        else if next = byte '\x7b' then do
          let tail ← slicedFrom raw (cursor + 2)
          match find '\x7d' tail with
          | none => do
            let reference ← slicedFrom raw cursor
            .error (.error (.unsupportedReference (boundedPreview reference)))
          | some relativeEnd => rejectFrom raw (relativeEnd + 2) (cursor + 1) rest
        else do
          let reference ← sliced raw cursor (min (cursor + 2) (len raw))
          .error (.error (.unsupportedReference reference))

/-- `reject_unsupported_references`. -/
def rejectUnsupportedReferences (raw : Text) : Except Halt Unit := rejectFrom raw 0 0 (bytes raw)

/-- The names of `is_deferred_cmake_reference`. -/
def deferredCmakeReferences : List Text :=
  [lit "AROS_SOURCE_DIR", lit "CMAKE_BINARY_DIR", lit "AROS_BUILD_DIR", lit "AROS_SYS_DIR",
    lit "AROS_BOOT_DIR", lit "AROS_BOOT_ARCH_DIR", lit "AROS_PORTS_DIR",
    lit "AROS_PORTS_SOURCE_DIR", lit "AROS_TARGET_CPU", lit "AROS_TARGET_CPU32",
    lit "AROS_TARGET_PLATFORM", lit "AROS_TARGET_LEGACY_PLATFORM", lit "AROS_TARGET_FAMILY",
    lit "AROS_TARGET_VARIANT", lit "AROS_TARGET_ICONSET", lit "AROS_BUILD_DATE_DMY",
    lit "AROS_BUILD_DATE_ISO"]

/-- `is_deferred_cmake_reference`. -/
def isDeferredCmakeReference (name : Text) : Bool := deferredCmakeReferences.contains name

/-! ### Words -/

/-- `pattern_stem`. -/
def patternStem (pattern word : Text) : Except Halt (Option Text) :=
  match find '%' pattern with
  | none => .ok (if pattern = word then some [] else none)
  | some percent => do
    let start ← slicedTo pattern percent
    let stop ← slicedFrom pattern (percent + 1)
    if len word < len start + len stop || !startsWith start word || !stop.isSuffixOf word then
      .ok none
    else do
      let stem ← sliced word (len start) (len word - len stop)
      .ok (some stem)

/-- `str::rfind` of a character: the byte position of its last occurrence. -/
def rfind (c : Char) (text : Text) : Option ℕ :=
  if c ∈ text then some (len (text.rdropWhile (· ≠ c)).dropLast) else none

/-- What follows the last slash. -/
def lastComponent (word : Text) : Text := word.rtakeWhile (· ≠ '/')

/-- A text that is not empty. -/
def nonempty (value : Text) : Option Text := if value = [] then none else some value

/-- `notdir`. -/
def notdir (word : Text) : Option Text := nonempty (lastComponent word)

/-- `directory_part`. -/
def directoryPart (word : Text) : Except Halt Text :=
  match rfind '/' word with
  | none => .ok (lit "./")
  | some slash => slicedTo word (slash + 1)

/-- `basename`. -/
def basename (word : Text) : Except Halt (Option Text) :=
  match rfind '.' (lastComponent word) with
  | none => .ok (nonempty word)
  | some dot => do
    let value ← slicedTo word (len word - len (lastComponent word) + dot)
    .ok (nonempty value)

/-- `suffix`. -/
def suffix (word : Text) : Except Halt (Option Text) :=
  match rfind '.' (lastComponent word) with
  | none => .ok none
  | some dot => do
    let value ← slicedFrom (lastComponent word) dot
    .ok (some value)

/-- `parse_word_index`. -/
def parseWordIndex (function value rawArgs : Text) : Except Halt ℕ :=
  match (Str.parseUnsigned (2 ^ 64) (trim value)).filter (0 < ·) with
  | some index => .ok index
  | none => .error (.error (.invalidSyntax (boundedPreview rawArgs)
      (lit "function `" ++ function ++ lit "` requires a positive word index, got `" ++ value ++
        lit "`")))

end MakeExpr

end ArosTools
