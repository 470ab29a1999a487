import ArosTools.Transpiler.GenmfText

/-!
# GenMF expansion

`expandText` loads a template file with everything it includes, and writes the lines of a source
text with every call replaced by the body of its template. Each piece that is written is recorded
with the bytes it covers, its line and where it comes from (`appendOutput`); with
`metadataProvenanceOnly` only pieces that begin with `#MM` are.

The files and the sizes of the records in memory are parameters: the first belong to the operating
system, the second to the compiler.
-/

namespace ArosTools

namespace Genmf

/-- The text of a path. -/
abbrev FilePath := Bytes

/-- The bounds of `Limits`. -/
structure Bounds where
  maxSourceBytes : ℕ
  maxTemplateBytes : ℕ
  maxTemplateFiles : ℕ
  maxDefinitions : ℕ
  maxLines : ℕ
  maxOutputBytes : ℕ
  maxWorkBytes : ℕ
  maxIncludeDepth : ℕ
  maxMacroDepth : ℕ
  deriving DecidableEq, Repr

/-- `Limits`. -/
structure Limits extends Bounds where
  metadataProvenanceOnly : Bool
  deriving DecidableEq, Repr

/-- `GenmfError`. -/
structure GenmfError where
  file : Option FilePath
  line : Option ℕ
  detail : String
  deriving DecidableEq, Repr

/-- `SourceLineLocation`. -/
structure SourceLineLocation where
  path : FilePath
  line : ℕ
  deriving DecidableEq, Repr

/-- `MacroExpansionFrame`. -/
structure MacroExpansionFrame where
  name : Text
  templatePath : FilePath
  definitionLine : ℕ
  invocation : Option SourceLineLocation
  arguments : BTreeMap Text (Option Text)
  resolvedArguments : BTreeMap Text Text

/-- `ExpandedLineProvenance`. -/
structure ExpandedLineProvenance where
  outputStartByte : ℕ
  outputEndByte : ℕ
  outputLine : ℕ
  sourcePath : Option FilePath
  sourceLine : Option ℕ
  templatePath : Option FilePath
  templateDefinitionLine : Option ℕ
  macroStack : List MacroExpansionFrame
  topLevelSourceInvocation : Option SourceLineLocation

/-- `TemplateSnapshot`. -/
structure TemplateSnapshot where
  path : FilePath
  bytes : Bytes
  deriving DecidableEq, Repr

/-- `ExpandedText`. -/
structure ExpandedText where
  text : Text
  templateSnapshots : List TemplateSnapshot
  provenance : List ExpandedLineProvenance

/-- `Template`. -/
structure Template where
  arguments : BTreeMap Text Argument
  multiArgument : Option Text
  body : List Text
  source : FilePath
  line : ℕ
  bodyStartLine : ℕ
  byteSize : ℕ

/-- The templates by name. -/
abbrev Templates := BTreeMap Text Template

/-- `Budget`. -/
structure Budget where
  templateBytes : ℕ
  templateFiles : ℕ
  definitions : ℕ
  workBytes : ℕ
  outputBytes : ℕ
  deriving DecidableEq, Repr

/-- What the expansion uses of the operating system and of the compiler. -/
structure Platform where
  /-- `reject_symlink_components` and `canonicalize`. -/
  canonical : FilePath → Except GenmfError FilePath
  /-- `read_limited`. -/
  read : FilePath → ℕ → Except GenmfError Bytes
  /-- The sizes of `ExpandedLineProvenance`, `SourceLineLocation` and `MacroExpansionFrame`. -/
  provenanceSize : ℕ
  locationSize : ℕ
  frameSize : ℕ

/-- A computation that fails with a `GenmfError`. -/
abbrev Expansion (α : Type) := Except GenmfError α

/-- The value, or an error. -/
def require {α : Type} (value : Option α) (e : GenmfError) : Expansion α :=
  match value with
  | some a => .ok a
  | none => .error e

/-- Fail unless the condition holds. -/
def check (condition : Bool) (e : GenmfError) : Expansion Unit :=
  if condition then .ok () else .error e

namespace Budget

/-- `charge_work`. -/
def chargeWork (budget : Budget) (amount : ℕ) (limits : Bounds) : Expansion Budget := do
  let next ← require (checkedAdd budget.workBytes amount)
    ⟨none, none, "GenMF work accounting overflow"⟩
  check (next ≤ limits.maxWorkBytes) ⟨none, none, "GenMF work budget exceeded"⟩
  pure { budget with workBytes := next }

/-- `charge_output`. -/
def chargeOutput (budget : Budget) (amount : ℕ) (limits : Bounds) : Expansion Budget := do
  let next ← require (checkedAdd budget.outputBytes amount)
    ⟨none, none, "GenMF output accounting overflow"⟩
  check (next ≤ limits.maxOutputBytes) ⟨none, none, "GenMF output budget exceeded"⟩
  pure { budget with outputBytes := next }

end Budget

/-! ### Loading templates -/

/-- `TemplateLoader`, its root and limits apart. -/
structure TemplateLoader where
  budget : Budget
  templates : Templates
  included : List FilePath
  snapshots : List TemplateSnapshot

/-- The directory of an absolute path. -/
def parentPath (path : FilePath) : FilePath := ((path.reverse.dropWhile (· ≠ 0x2f)).drop 1).reverse

/-- The UTF-8 encoding of a text. -/
def utf8 (text : Text) : Bytes := ascii (String.ofList text)

section

variable (platform : Platform) (limits : Bounds)

/-- `join_header_continuations`: the header, the lines after it and how many lines it takes beyond
its first. -/
def joinHeader (file : FilePath) (start : ℕ) :
    List Text → Text → Budget → Expansion (Text × List Text × ℕ × Budget)
  | rest, joined, budget =>
    if hasGenmfContinuation joined then
      match rest with
      | [] => .error ⟨some file, some start,
          "continued template definition reaches end of file"⟩
      | next :: rest => do
        let length ← require (checkedAdd (len joined - 2) (len next))
          ⟨some file, some start, "continued header byte accounting overflow"⟩
        check (length ≤ limits.maxTemplateBytes)
          ⟨some file, some start, "continued header exceeds template byte budget"⟩
        let budget ← budget.chargeWork (len next) limits
        let (header, rest, count, budget) ← joinHeader file start rest
          (joinContinuation joined next) budget
        pure (header, rest, count + 1, budget)
    else .ok (joined, rest, 0, budget)

/-- The lines of a body up to its `%end`, and the lines after it. -/
def readBody : List Text → Budget → Expansion (Option (List Text × List Text) × Budget)
  | [], budget => .ok (none, budget)
  | line :: rest, budget =>
    if (lit "%end").isPrefixOf line then .ok (some ([], rest), budget)
    else do
      let budget ← budget.chargeWork (len line) limits
      let (body, budget) ← readBody rest budget
      pure (body.map fun (body, rest) => (line :: body, rest), budget)

/-- A definition that begins at the line numbered `number`: the loader, and the lines after it with
the number of the first. -/
def readDefinition (file : FilePath) (line : Text) (rest : List Text) (number : ℕ)
    (loader : TemplateLoader) : Expansion (TemplateLoader × List Text × ℕ) := do
  let (header, rest, count, budget) ← joinHeader limits file number rest line loader.budget
  let (name, arguments, multiArgument) ←
    (parseDefinitionHeader (trim (header.drop 7))).mapError fun detail =>
      ⟨some file, some number, detail⟩
  let (body, budget) ← readBody limits rest budget
  let (body, rest) ← require body
    ⟨some file, some number, "end of template file inside definition"⟩
  let byteSize := (body.map len).sum
  check (byteSize < 2 ^ 64) ⟨some file, some number, "template body byte accounting overflow"⟩
  let definitions ← require (checkedAdd budget.definitions 1)
    ⟨some file, some number, "template definition accounting overflow"⟩
  check (definitions ≤ limits.maxDefinitions)
    ⟨some file, some number, "template definition budget exceeded"⟩
  let bodyStartLine := number + count + 1
  let template : Template :=
    ⟨arguments, multiArgument, body, file, number, bodyStartLine, byteSize⟩
  pure ({ loader with
      budget := { budget with definitions := definitions }
      templates := loader.templates.insert name template },
    rest, bodyStartLine + body.length + 1)

/-- The text after a directive, if the line is one. -/
def directive? (name : String) (line : Text) : Option Text :=
  if (lit name).isPrefixOf line && (line.drop name.length).head?.any isPythonWhitespace then
    some (line.drop name.length)
  else none

/-- The loop of `read_template_lines`; each round takes at least one line. `readFile` reads an
included file. -/
def readTemplateLines (readFile : FilePath → TemplateLoader → Expansion TemplateLoader)
    (file : FilePath) : ℕ → List Text → ℕ → TemplateLoader → Expansion TemplateLoader
  | _, [], _, loader => .ok loader
  | 0, _ :: _, _, loader => .ok loader
  | fuel + 1, line :: rest, number, loader => do
    let budget ← loader.budget.chargeWork (len line) limits
    let loader := { loader with budget := budget }
    match directive? "%include" line, directive? "%define" line with
    | some name, _ =>
      let includeName := unquotePath (trim name)
      check (includeName ≠ []) ⟨some file, some number, "%include requires a file name"⟩
      let path := utf8 includeName
      let resolved := if path.head? = some 0x2f then path else parentPath file ++ [0x2f] ++ path
      let loader ← readFile resolved loader
      readTemplateLines readFile file fuel rest (number + 1) loader
    | none, some _ =>
      let (loader, rest, number) ← readDefinition limits file line rest number loader
      readTemplateLines readFile file fuel rest number loader
    | none, none => readTemplateLines readFile file fuel rest (number + 1) loader

/-- `read_file`; `depth` is what is left of the include depth. -/
def readFile (root : FilePath) : ℕ → FilePath → TemplateLoader → Expansion TemplateLoader
  | depth, path, loader => do
    let canonical ← platform.canonical path
    check ((PathBuf.ofBytes canonical).startsWith (PathBuf.ofBytes root))
      ⟨some canonical, none, "included template resolves outside the template root"⟩
    if canonical ∈ loader.included then pure loader
    else
      match depth with
      | 0 => .error ⟨some canonical, none, "template include depth exceeded"⟩
      | depth + 1 => do
        let files ← require (checkedAdd loader.budget.templateFiles 1)
          ⟨some canonical, none, "template file accounting overflow"⟩
        check (files ≤ limits.maxTemplateFiles)
          ⟨some canonical, none, "template file-count budget exceeded"⟩
        check (loader.budget.templateBytes ≤ limits.maxTemplateBytes)
          ⟨some canonical, none, "template byte accounting overflow"⟩
        let bytes ← platform.read canonical (limits.maxTemplateBytes - loader.budget.templateBytes)
        let total ← require (checkedAdd loader.budget.templateBytes bytes.length)
          ⟨some canonical, none, "template byte accounting overflow"⟩
        check (total ≤ limits.maxTemplateBytes)
          ⟨some canonical, none, "template byte budget exceeded"⟩
        let lines := splitLines (normalizeNewlines (decodeIso885915 bytes))
        check (lines.length ≤ limits.maxLines)
          ⟨some canonical, none, "template exceeds line budget"⟩
        let budget := { loader.budget with templateBytes := total, templateFiles := files }
        let budget ← budget.chargeWork bytes.length limits
        let loader := { loader with
          budget := budget
          included := canonical :: loader.included
          snapshots := loader.snapshots ++ [⟨canonical, bytes⟩] }
        readTemplateLines limits (readFile root depth) canonical lines.length lines 1 loader

end

/-! ### Writing -/

/-- `TemplateDefinitionOrigin`. -/
structure TemplateDefinitionOrigin where
  path : FilePath
  definitionLine : ℕ
  deriving DecidableEq, Repr

/-- `LineOrigin`. -/
structure LineOrigin where
  path : Option FilePath
  line : Option ℕ
  template : Option TemplateDefinitionOrigin
  deriving DecidableEq, Repr

/-- `ExpansionRuntime`, with the output. -/
structure ExpansionRuntime where
  sawCommon : Bool
  stack : List MacroExpansionFrame
  budget : Budget
  provenance : List ExpandedLineProvenance
  outputLine : ℕ
  output : Text

/-- A sum of sizes, or an error once it overflows. -/
def addProvenanceCosts (costs : List ℕ) : Expansion ℕ :=
  costs.foldlM (fun total amount => require (checkedAdd total amount)
    ⟨none, none, "GenMF provenance accounting overflow"⟩) 0

/-- `path_storage_bytes`. -/
def pathStorageBytes (path : FilePath) : ℕ := (toStringLossy path).length

section

variable (platform : Platform) (limits : Limits)

/-- The costs of an invocation. -/
def locationCosts (location : Option SourceLineLocation) : List ℕ :=
  location.elim [] fun location => [platform.locationSize, pathStorageBytes location.path]

/-- The costs of a frame. -/
def frameCosts (frame : MacroExpansionFrame) : List ℕ :=
  [platform.frameSize, len frame.name, pathStorageBytes frame.templatePath] ++
    locationCosts platform frame.invocation ++
    frame.arguments.entries.flatMap (fun entry =>
      [len entry.1] ++ entry.2.elim [] fun value => [len value]) ++
    frame.resolvedArguments.entries.flatMap fun entry => [len entry.1, len entry.2]

/-- `provenance_work_cost`. -/
def provenanceWorkCost (sourcePath : Option FilePath) (template : Option TemplateDefinitionOrigin)
    (stack : List MacroExpansionFrame) (invocation : Option SourceLineLocation) : Expansion ℕ :=
  addProvenanceCosts ([platform.provenanceSize, sourcePath.elim 0 pathStorageBytes] ++
    template.elim [] (fun template => [pathStorageBytes template.path]) ++
    locationCosts platform invocation ++ stack.flatMap (frameCosts platform))

/-- The record of a segment that begins at the byte `start` of the output. -/
def segmentProvenance (origin : LineOrigin) (stack : List MacroExpansionFrame) (start outputLine : ℕ)
    (sourceLine : Option ℕ) (segment : Text) : ExpandedLineProvenance where
  outputStartByte := start
  outputEndByte := start + len segment
  outputLine := outputLine
  sourcePath := origin.path
  sourceLine := sourceLine
  templatePath := origin.template.map TemplateDefinitionOrigin.path
  templateDefinitionLine := origin.template.map TemplateDefinitionOrigin.definitionLine
  macroStack := stack
  topLevelSourceInvocation := stack.head?.bind MacroExpansionFrame.invocation

/-- The segment is recorded. -/
def recorded (segment : Text) : Bool :=
  !limits.metadataProvenanceOnly || (lit "#MM").isPrefixOf segment

/-- A segment that begins at the byte `start` is recorded, and its record paid for. -/
def recordSegment (origin : LineOrigin) (start : ℕ) (sourceLine : Option ℕ) (segment : Text)
    (runtime : ExpansionRuntime) : Expansion ExpansionRuntime :=
  if recorded limits segment then do
    let cost ← provenanceWorkCost platform origin.path origin.template runtime.stack
      (runtime.stack.head?.bind MacroExpansionFrame.invocation)
    let budget ← runtime.budget.chargeWork cost limits.toBounds
    pure { runtime with
      budget := budget
      provenance := runtime.provenance ++ [segmentProvenance origin runtime.stack start
        runtime.outputLine sourceLine segment] }
  else .ok runtime

/-- The loop of `append_output` over the segments, after `byteOffset` bytes and `lineOffset` lines
of the text. -/
def appendSegments (origin : LineOrigin) :
    List Text → ℕ → ℕ → ExpansionRuntime → Expansion ExpansionRuntime
  | [], _, _, runtime => .ok runtime
  | segment :: segments, byteOffset, lineOffset, runtime => do
    let overflow : GenmfError := ⟨none, none, "output byte accounting overflow"⟩
    check (origin.line.all fun line => (checkedAdd line lineOffset).isSome)
      ⟨origin.path, none, "source line accounting overflow"⟩
    let sourceLine := origin.line.map (· + lineOffset)
    let start ← require (checkedAdd (len runtime.output) byteOffset) overflow
    let _ ← require (checkedAdd start (len segment)) overflow
    let runtime ← recordSegment platform limits origin start sourceLine segment runtime
    let byteOffset ← require (checkedAdd byteOffset (len segment)) overflow
    if segment.getLast? = some '\n' then do
      let lineOffset ← require (checkedAdd lineOffset 1)
        ⟨none, none, "source line accounting overflow"⟩
      let outputLine ← require (checkedAdd runtime.outputLine 1)
        ⟨none, none, "output line accounting overflow"⟩
      appendSegments origin segments byteOffset lineOffset { runtime with outputLine := outputLine }
    else appendSegments origin segments byteOffset lineOffset runtime

/-- `append_output`. -/
def appendOutput (text : Text) (origin : LineOrigin) (runtime : ExpansionRuntime) :
    Expansion ExpansionRuntime := do
  let budget ← runtime.budget.chargeOutput (len text) limits.toBounds
  let budget ← budget.chargeWork (len text) limits.toBounds
  let runtime ← appendSegments platform limits origin (splitInclusive text) 0 0
    { runtime with budget := budget }
  pure { runtime with output := runtime.output ++ text }

end

/-! ### Calls -/

section

variable (limits : Bounds)

/-- `append_temporary`. -/
def appendTemporary (output text : Text) : Expansion Text := do
  let next ← require (checkedAdd (len output) (len text))
    ⟨none, none, "temporary output accounting overflow"⟩
  check (next ≤ limits.maxOutputBytes)
    ⟨none, none, "temporary expansion exceeds output budget"⟩
  pure (output ++ text)

/-- The value of a placeholder: the one given, or else the default. -/
def placeholderValue (template : Template) (values : BTreeMap Text (Option Text)) (name : Text) :
    Option Text :=
  ((values.get name).bind id).or ((template.arguments.get name).bind Argument.default)

/-- The pieces a placeholder stands for, in the order they are appended. -/
def placeholderPieces (reference : ArgumentReference) (value : Option Text) : List Text :=
  match value.elim [] splitPythonWhitespace with
  | [] => [reference.before, reference.after]
  | word :: words => [reference.before, word, reference.after] ++
      words.flatMap fun word => [lit " ", reference.before, word, reference.after]

/-- The pieces of a line with its placeholders replaced, from the character `position` on. -/
def substitutedPieces (line : Text) (template : Template) (values : BTreeMap Text (Option Text)) :
    List ArgumentReference → ℕ → List Text
  | [], position => if position < line.length then [line.drop position] else []
  | reference :: references, position =>
    (if position < reference.start then [slice line position reference.start] else []) ++
      placeholderPieces reference (placeholderValue template values reference.name) ++
      substitutedPieces line template values references reference.stop

/-- `substitute_arguments`. -/
def substituteArguments (line : Text) (template : Template)
    (values : BTreeMap Text (Option Text)) (budget : Budget) : Expansion (Text × Budget) := do
  let budget ← budget.chargeWork (len line) limits
  match findArgumentReferences line template.arguments with
  | [] => pure (line, budget)
  | references => do
    let output ← (substitutedPieces line template values references 0).foldlM
      (appendTemporary limits) []
    let budget ← budget.chargeWork (len output) limits
    pure (output, budget)

/-- The lines of a template body with their placeholders replaced. -/
def substituteBody (template : Template) (values : BTreeMap Text (Option Text)) :
    List Text → ℕ → Budget → Expansion (List Text × Budget)
  | [], _, budget => .ok ([], budget)
  | line :: lines, bytes, budget => do
    let (value, budget) ← substituteArguments limits line template values budget
    let next ← require (checkedAdd bytes (len value))
      ⟨some template.source, some template.line, "substituted body accounting overflow"⟩
    check (next ≤ limits.maxOutputBytes)
      ⟨some template.source, some template.line, "substituted template body exceeds output budget"⟩
    let (values, budget) ← substituteBody template values lines next budget
    pure (value :: values, budget)

/-- `TemplateReference`. -/
structure TemplateReference where
  lineIndex : ℕ
  name : Text
  endCharIndex : ℕ
  deriving DecidableEq, Repr

/-- `generate_template_references`. -/
def generateTemplateReferences (lines : List Text) (templates : Templates) :
    List TemplateReference :=
  lines.zipIdx.filterMap fun (line, index) =>
    (findTemplateReference (fun name => (templates.get name).isSome) line).map fun (name, stop) =>
      ⟨index, name, stop⟩

/-- Where the lines of a text come from. -/
structure Origin where
  source : Option FilePath
  sourceLineStart : ℕ
  template : Option TemplateDefinitionOrigin
  deriving DecidableEq, Repr

/-- A call with the lines that continue it, how many these are, and the budget. -/
def joinCall (origin : Origin) (callStartLine : ℕ) :
    List Text → Text → Budget → Expansion (Text × ℕ × Budget)
  | [], call, budget => .ok (call, 0, budget)
  | next :: rest, call, budget =>
    if hasGenmfContinuation call then do
      let length ← require (checkedAdd (len call - 2) (len next))
        ⟨origin.source, some callStartLine, "call line accounting overflow"⟩
      check (length ≤ limits.maxSourceBytes)
        ⟨origin.source, some callStartLine, "continued GenMF call exceeds source budget"⟩
      let budget ← budget.chargeWork (len next) limits
      let (call, count, budget) ← joinCall origin callStartLine rest (joinContinuation call next)
        budget
      pure (call, count + 1, budget)
    else .ok (call, 0, budget)

/-- What `write_lines` adds to an error of a call. -/
def atCall (origin : Origin) (callStartLine : ℕ) (e : GenmfError) : GenmfError :=
  { e with line := e.line.or (some callStartLine), file := e.file.or origin.source }

end

section

variable (platform : Platform) (limits : Limits)

/-- The lines without a call, each with its index. -/
def appendLines (origin : Origin) :
    List (Text × ℕ) → ExpansionRuntime → Expansion ExpansionRuntime
  | [], runtime => .ok runtime
  | (line, index) :: lines, runtime => do
    let sourceLine ← require (checkedAdd origin.sourceLineStart index)
      ⟨origin.source, none, "source line accounting overflow"⟩
    let runtime ← appendOutput platform limits line
      ⟨origin.source, origin.source.map fun _ => sourceLine, origin.template⟩ runtime
    appendLines origin lines runtime

/-- The loop of `write_lines` over the references, from the line `start` on; `expand` expands a
call. -/
def writeReferences
    (expand : Text → Text → Option SourceLineLocation → ExpansionRuntime →
      Expansion ExpansionRuntime)
    (origin : Origin) (lines : List Text) :
    List TemplateReference → ℕ → ExpansionRuntime → Expansion ExpansionRuntime
  | [], start, runtime => appendLines platform limits origin (lines.zipIdx.drop start) runtime
  | reference :: references, start, runtime => do
    let runtime ← appendLines platform limits origin
      ((lines.zipIdx.take reference.lineIndex).drop start) runtime
    let line := lines.getD reference.lineIndex []
    let budget ← runtime.budget.chargeWork (len line) limits.toBounds
    let callStartLine ← require (checkedAdd origin.sourceLineStart reference.lineIndex)
      ⟨origin.source, none, "call line accounting overflow"⟩
    let (call, count, budget) ← joinCall limits.toBounds origin callStartLine
      (lines.drop (reference.lineIndex + 1)) line budget
    let runtime := { runtime with
      budget := budget
      sawCommon := runtime.sawCommon || reference.name = lit "common" }
    let runtime ← (expand reference.name (trimStart (call.drop reference.endCharIndex))
      (origin.source.map fun path => ⟨path, callStartLine⟩) runtime).mapError
        (atCall origin callStartLine)
    writeReferences expand origin lines references (reference.lineIndex + 1 + count) runtime

/-- An error about a call, at the call or else at the definition. -/
def callError (template : Template) (invocation : Option SourceLineLocation) (detail : String) :
    GenmfError :=
  ⟨(invocation.map SourceLineLocation.path).or (some template.source),
    (invocation.map SourceLineLocation.line).or (some template.line), detail⟩

/-- The arguments of a call, every required one given. -/
def callValues (template : Template) (name argumentText : Text)
    (invocation : Option SourceLineLocation) : Expansion (BTreeMap Text (Option Text)) := do
  let values ← (parseInvocation template.arguments template.multiArgument argumentText).mapError
    fun detail => callError template invocation ("template `" ++ shown name ++ "`: " ++ detail)
  match template.arguments.entries.find? fun entry =>
      entry.2.required && ((values.get entry.1).bind id).isNone with
  | some (argumentName, _) => .error (callError template invocation ("template `" ++ shown name ++
      "`: required argument `" ++ shown argumentName ++ "` was not specified"))
  | none => pure values

/-- `expand_template`; `depth` is what is left of the macro depth. -/
def expandTemplate (templates : Templates) :
    ℕ → Text → Text → Option SourceLineLocation → ExpansionRuntime → Expansion ExpansionRuntime
  | depth, name, argumentText, invocation, runtime => do
    let template ← require (templates.get name) ⟨invocation.map SourceLineLocation.path,
      invocation.map SourceLineLocation.line, "unknown GenMF template `" ++ shown name ++ "`"⟩
    check (!runtime.stack.any fun active => active.name = name)
      ⟨some template.source, some template.line,
        "template `" ++ shown name ++ "` called recursively"⟩
    match depth with
    | 0 => .error ⟨some template.source, some template.line,
        "GenMF macro expansion depth exceeded"⟩
    | depth + 1 => do
      let budget ← runtime.budget.chargeWork template.byteSize limits.toBounds
      let values ← callValues template name argumentText invocation
      let bodyBytes := (template.body.map len).sum
      check (bodyBytes < 2 ^ 64) ⟨some template.source, some template.line,
        "expanded template body accounting overflow"⟩
      check (bodyBytes ≤ limits.maxOutputBytes) ⟨some template.source, some template.line,
        "single template body exceeds output budget"⟩
      let (substituted, budget) ← substituteBody limits.toBounds template values template.body 0 budget
      let resolved := BTreeMap.collect (template.arguments.entries.map fun entry =>
        (entry.1, (placeholderValue template values entry.1).getD []))
      let frame : MacroExpansionFrame :=
        ⟨name, template.source, template.line, invocation, values, resolved⟩
      let references := generateTemplateReferences template.body templates
      let runtime ← writeReferences platform limits (expandTemplate templates depth)
        ⟨some template.source, template.bodyStartLine, some ⟨template.source, template.line⟩⟩
        substituted references 0
        { runtime with budget := budget, stack := runtime.stack ++ [frame] }
      pure { runtime with stack := runtime.stack.dropLast }

/-- What follows the lines of a text that does not call `common`. -/
def appendCommon (templates : Templates) (runtime : ExpansionRuntime) :
    Expansion ExpansionRuntime :=
  if runtime.sawCommon then .ok runtime
  else do
    let runtime ← appendOutput platform limits (lit "\n") ⟨none, none, none⟩ runtime
    if (templates.get (lit "common")).isSome then
      expandTemplate platform limits templates limits.maxMacroDepth (lit "common") [] none runtime
    else pure runtime

/-- `expand_text`. -/
def expandText (source : Text) (sourceFile templateFile : FilePath) : Expansion ExpandedText := do
  check (len source ≤ limits.maxSourceBytes)
    ⟨some sourceFile, none, "source exceeds byte budget"⟩
  let lines := splitLines (normalizeNewlines source)
  check (lines.length ≤ limits.maxLines) ⟨some sourceFile, none, "source exceeds line budget"⟩
  let canonical ← platform.canonical templateFile
  let loader ← readFile platform limits.toBounds (parentPath canonical) (limits.maxIncludeDepth + 1)
    canonical ⟨⟨0, 0, 0, 0, 0⟩, .new, [], []⟩
  let runtime : ExpansionRuntime := ⟨false, [], loader.budget, [], 1, []⟩
  let runtime ← writeReferences platform limits
    (expandTemplate platform limits loader.templates limits.maxMacroDepth)
    ⟨some sourceFile, 1, none⟩ lines (generateTemplateReferences lines loader.templates) 0 runtime
  let runtime ← appendCommon platform limits loader.templates runtime
  pure ⟨runtime.output, loader.snapshots, runtime.provenance⟩

end

end Genmf

end ArosTools
