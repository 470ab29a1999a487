import ArosTools.Transpiler.OwnerGraph

/-!
# Reading `#MM` directives

`parse_expanded_files` reads the physical lines of every makefile (`parseFileLines`), joins a
directive with the lines it is continued on (`collectContinuations`), splits it into tokens
(`tokenizeMakeArgs`), replaces the project globals in them (`substituteIdentity`), records one
declaration for every target token and merges the target into the file's targets
(`mergeLocalTarget`). The files are merged into one graph (`mergeFile`).
-/

namespace ArosTools

namespace Transpiler

namespace OwnerGraph

/-! ### Bytes -/

/-- `u8::is_ascii_whitespace`. -/
def isAsciiWhitespace (b : UInt8) : Bool :=
  b = 0x20 || b = 0x09 || b = 0x0a || b = 0x0c || b = 0x0d

/-- `u8::is_ascii_graphic`. -/
def isAsciiGraphic (b : UInt8) : Bool := 0x21 ≤ b && b ≤ 0x7e

/-- The bytes start with the given text. -/
def startsWith (bytes : Bytes) (text : String) : Bool := (ascii text).isPrefixOf bytes

/-- `split_terminator('\n')`: the lines, without an empty one at the end. -/
def splitTerminator (contents : Bytes) : List Bytes :=
  let pieces := contents.splitOn 0x0a
  if pieces.getLast? = some [] then pieces.dropLast else pieces

/-- The text before the first colon. -/
def beforeColon (text : Bytes) : Bytes := text.takeWhile (· ≠ 0x3a)

/-- The text after the first colon. -/
def afterColon (text : Bytes) : Bytes := (text.dropWhile (· ≠ 0x3a)).drop 1

/-! ### One logical line -/

/-- The last byte that is not white space is a backslash. -/
def continued (logical : Bytes) : Bool :=
  (logical.reverse.find? fun b => !isAsciiWhitespace b) = some 0x5c

/-- A logical line, the number of further physical lines it takes, and the work done. -/
structure Collected where
  logical : Bytes
  taken : ℕ
  spent : Spent

/-- The loop of `collect_continuations`: `lines` are the physical lines not used yet, and `taken`
have been. -/
def joinContinuations (path : Bytes) (limits : Limits) :
    List Bytes → Bytes → ℕ → Spent → ParseResult Collected
  | [], logical, taken, spent => do
    let spent ← spent.bump limits "continuation work"
    if !continued logical then pure ⟨logical, taken, spent⟩
    else if limits.maxTotalLines < taken + 1 then
      Checked.fail (ascii "continuation limit exceeded in " ++ path)
    else Checked.fail (ascii "unterminated #MM continuation in " ++ path)
  | next :: lines, logical, taken, spent => do
    let spent ← spent.bump limits "continuation work"
    if !continued logical then pure ⟨logical, taken, spent⟩
    else if limits.maxTotalLines < taken + 1 then
      Checked.fail (ascii "continuation limit exceeded in " ++ path)
    else if startsWith next "##M" then
      -- only the last byte of a disabled line is used
      joinContinuations path limits lines (logical.dropLast ++ next.getLast?.toList)
        (taken + 1) spent
    else if !startsWith next "#MM" || next.length < 4 then
      Checked.fail (ascii "continuation must start with #MM in " ++ path ++ ascii ": " ++ next)
    else
      let logical := logical.dropLast ++ next.drop 4
      if limits.maxLineBytes < logical.length then
        Checked.fail (ascii "continued line byte limit exceeded in " ++ path)
      else joinContinuations path limits lines logical (taken + 1) spent

/-- `collect_continuations`: the directive `first` with the `lines` it is continued on. -/
def collectContinuations (first : Bytes) (lines : List Bytes) (path : Bytes) (limits : Limits)
    (spent : Spent) : ParseResult Collected := do
  let collected ← joinContinuations path limits lines first 0 spent
  if !isUtf8 collected.logical then
    Checked.fail (ascii "non-UTF-8 #MM directive in " ++ path)
  else pure collected

/-! ### Tokens -/

/-- The bytes of a token up to the next white space. -/
def tokenBytes (path : Bytes) : Bytes → ParseResult (Bytes × Bytes)
  | [] => .ok ([], [])
  | b :: bytes =>
    if isAsciiWhitespace b then .ok ([], b :: bytes)
    else if b = 0x22 then Checked.fail (ascii "unsupported quoted #MM token in " ++ path)
    else if !isAsciiGraphic b then Checked.fail (ascii "control byte in #MM identity in " ++ path)
    else do
      let (token, rest) ← tokenBytes path bytes
      pure (b :: token, rest)

/-- The loop of `tokenize_make_args`; every round takes at least one byte. -/
def tokenizeFrom (path : Bytes) : ℕ → Bytes → List Bytes → ParseResult (List Bytes)
  | 0, _, _ => .error .diverges
  | fuel + 1, bytes, tokens =>
    match bytes.dropWhile isAsciiWhitespace with
    | [] => .ok tokens
    | b :: bytes => do
      let (token, rest) ← tokenBytes path (b :: bytes)
      let tokens := tokens ++ [token]
      if 254 < tokens.length then
        Checked.fail (ascii "MetaMake getargs() token cap exceeded in " ++ path)
      else tokenizeFrom path fuel rest tokens

/-- `tokenize_make_args`. A token is made of graphic bytes, so it is always a text. -/
def tokenizeMakeArgs (bytes path : Bytes) : ParseResult (List Bytes) :=
  tokenizeFrom path (bytes.length + 1) bytes []

/-- `count_tokens`. -/
def countTokens (count seen : ℕ) (limits : Limits) : ParseResult ℕ :=
  checkedAdd seen count limits.maxTokens "token"

/-! ### Project globals -/

/-- `global_expansion`: the value of the reference that `bytes` starts with, and what follows it. -/
def globalExpansion (bytes : Bytes) (globals : BTreeMap Bytes Bytes) (path token : Bytes) :
    ParseResult (Bytes × Bytes) :=
  if (bytes.drop 1).head? ≠ some 0x28 then
    Checked.fail (ascii "unsupported $ identity in " ++ path ++ ascii ": " ++ token)
  else
    let name := (bytes.drop 2).takeWhile (· ≠ 0x29)
    if 0x29 ∉ bytes.drop 2 then
      Checked.fail (ascii "unterminated $(...) identity in " ++ path ++ ascii ": " ++ token)
    else if name = [] || referenceVariableBytes < name.length ||
        name.any fun b => !isAsciiGraphic b || b = 0x24 || b = 0x28 then
      Checked.fail (ascii "unsupported variable identity in " ++ path ++ ascii ": " ++ token)
    else match globals.get name with
      | none => Checked.fail
          (ascii "unbound project-global variable " ++ name ++ ascii " in " ++ path)
      | some value => .ok (value, bytes.drop (2 + name.length + 1))

/-- The length of a token after substitution: the first loop of `substitute_identity`. -/
def expandedLength (globals : BTreeMap Bytes Bytes) (path token : Bytes) (limit : ℕ) :
    ℕ → Bytes → ℕ → ParseResult ℕ
  | _, [], length => .ok length
  | 0, _ :: _, _ => .error .diverges
  | fuel + 1, b :: bytes, length =>
    if b ≠ 0x24 then do
      let length ← checkedAdd length 1 limit "identity byte"
      expandedLength globals path token limit fuel bytes length
    else do
      let (value, rest) ← globalExpansion (b :: bytes) globals path token
      if value.any fun b => !isAsciiGraphic b then
        Checked.fail (ascii "control/non-ASCII expansion in " ++ path ++ ascii ": " ++ token)
      else
        let length ← checkedAdd length value.length limit "identity byte"
        expandedLength globals path token limit fuel rest length

/-- The token after substitution: the second loop of `substitute_identity`. -/
def expandedBytes (globals : BTreeMap Bytes Bytes) (path token : Bytes) :
    ℕ → Bytes → ParseResult Bytes
  | _, [] => .ok []
  | 0, _ :: _ => .error .diverges
  | fuel + 1, b :: bytes =>
    if b = 0x24 then do
      let (value, rest) ← globalExpansion (b :: bytes) globals path token
      let result ← expandedBytes globals path token fuel rest
      pure (value ++ result)
    else do
      let result ← expandedBytes globals path token fuel bytes
      pure (b :: result)

/-- `substitute_identity`. -/
def substituteIdentity (token : Bytes) (globals : BTreeMap Bytes Bytes) (path : Bytes)
    (limits : Limits) (spent : Spent) : ParseResult (Bytes × Spent) := do
  let limit := min limits.maxIdentityBytes referenceIdentityBytes
  let length ← expandedLength globals path token limit token.length token 0
  if length = 0 && !limits.preserveEmptyEndpoints then
    Checked.fail (ascii "empty target identity in " ++ path ++ ascii ": " ++ token)
  else
    let spent ← spent.charge length limits "expanded identity"
    let result ← expandedBytes globals path token token.length token
    if result.any isAsciiWhitespace then
      Checked.fail (ascii "whitespace target identity in " ++ path ++ ascii ": " ++ token)
    else if !isUtf8 result then Checked.fail (ascii "non-UTF-8 identity in " ++ path)
    else pure (result, spent)

/-! ### One file -/

/-- `LocalTarget`. -/
structure LocalTarget where
  virtualTarget : Bool
  dependencies : BTreeSet Bytes
  deriving DecidableEq

/-- `FileParseBudget`: the counters all files share. -/
structure FileParseBudget where
  tokensSeen : ℕ
  provenanceEdgesSeen : ℕ
  spent : Spent
  deriving DecidableEq

/-- The variables of `parse_file_lines`. -/
structure FileParse where
  targets : BTreeMap Bytes LocalTarget
  declarations : List TargetDeclarationProvenance
  localEdgePairs : ℕ
  budget : FileParseBudget
  deriving DecidableEq

/-- `merge_local_target`. -/
def mergeLocalTarget (targets : BTreeMap Bytes LocalTarget) (name : Bytes) (virtualTarget : Bool)
    (dependencies : BTreeSet Bytes) (limits : Limits) : ParseResult (BTreeMap Bytes LocalTarget) :=
  if (targets.get name).isNone && limits.maxTargets ≤ targets.len then
    Checked.fail (ascii "per-file target limit exceeded")
  else match targets.get name with
    | none =>
      if limits.maxEdges < dependencies.len then
        Checked.fail (ascii "per-target edge limit exceeded")
      else .ok (targets.insert name ⟨virtualTarget, dependencies⟩)
    | some target =>
      if limits.maxEdges < min (target.dependencies.len + dependencies.len) (2 ^ 64 - 1) then
        Checked.fail (ascii "per-target edge limit exceeded")
      else .ok (targets.insert name ⟨target.virtualTarget && virtualTarget,
        target.dependencies.extend dependencies.elems⟩)

section

variable (globals : BTreeMap Bytes Bytes) (path : Bytes) (limits : Limits)

/-- The target of a bare marker, from the physical line after it. -/
def parseBare (expandedLine : ℕ) (virtualTarget : Bool) (next : Bytes) (s : FileParse) :
    ParseResult FileParse := do
  let parsed ← tokenizeMakeArgs (beforeColon next) path
  let tokensSeen ← countTokens parsed.length s.budget.tokensSeen limits
  match parsed with
  | [rawTarget] =>
    let (name, spent) ← substituteIdentity rawTarget globals path limits s.budget.spent
    let spent ← spent.bump limits "provenance declaration work"
    let spent ← spent.charge path.length limits "provenance makefile path copy"
    let spent ← spent.charge rawTarget.length limits "provenance raw target copy"
    let spent ← spent.charge name.length limits "target name copy for provenance"
    let targets ← mergeLocalTarget s.targets name false .new limits
    pure { s with
      targets := targets
      declarations := s.declarations ++ [{
        expandedLine := expandedLine, file := path, rawTarget := rawTarget, target := name
        virtualTarget := virtualTarget, bareMarker := true, claimsMakeOwner := true
        dependencies := [] }]
      budget := { s.budget with tokensSeen := tokensSeen, spent := spent } }
  | _ =>
    Checked.fail
      (ascii "bare #MM must have exactly one target token in " ++ path ++ ascii ": " ++ next)

/-- The target tokens of a directive with their names. -/
def substituteTargets (tokens : List Bytes) (spent : Spent) :
    ParseResult (List (Bytes × Bytes) × Spent) :=
  tokens.foldlM (fun (done, spent) raw => do
    let (name, spent) ← substituteIdentity raw globals path limits spent
    pure (done ++ [(raw, name)], spent)) ([], spent)

/-- The dependency tokens of a directive with their endpoints. -/
def substituteDependencies (tokens : List Bytes) (spent : Spent) :
    ParseResult (List (Bytes × Bytes) × Spent) :=
  tokens.foldlM (fun (done, spent) raw => do
    let (endpoint, spent) ← substituteIdentity raw globals path limits spent
    let spent ← spent.charge endpoint.length limits "dependency identity copy for graph set"
    pure (done ++ [(raw, endpoint)], spent)) ([], spent)

/-- The copies of the dependencies into every target record. -/
def chargeFanOut (targets : ℕ) (dependencies : BTreeSet Bytes) (spent : Spent) :
    ParseResult Spent :=
  (List.range targets).foldlM (fun spent _ => dependencies.elems.foldlM (fun spent dependency =>
    spent.charge dependency.length limits "per-target dependency clone") spent) spent

/-- The provenance of the dependency tokens, copied for one target. -/
def copyDependencies (tokens : List (Bytes × Bytes)) (spent : Spent) :
    ParseResult (List DependencyProvenance × Spent) :=
  tokens.foldlM (fun (done, spent) (raw, concrete) => do
    let spent ← spent.charge raw.length limits "provenance raw dependency copy"
    let spent ← spent.charge concrete.length limits "provenance dependency endpoint copy"
    pure (done ++ [⟨raw, concrete⟩], spent)) ([], spent)

/-- The round of the last loop for one target token of a directive. -/
def declareTarget (expandedLine : ℕ) (virtualTarget : Bool) (dependencyTokens : List (Bytes × Bytes))
    (dependencyNames : BTreeSet Bytes) (s : FileParse) (token : Bytes × Bytes) :
    ParseResult FileParse := do
  let (rawTarget, name) := token
  let spent ← s.budget.spent.bump limits "parse work"
  let (dependencies, spent) ← copyDependencies limits dependencyTokens spent
  let spent ← spent.charge path.length limits "provenance makefile path copy"
  let spent ← spent.charge rawTarget.length limits "provenance raw target copy"
  let spent ← spent.charge name.length limits "local target name copy for merged map"
  let targets ← mergeLocalTarget s.targets name virtualTarget dependencyNames limits
  pure { s with
    targets := targets
    declarations := s.declarations ++ [{
      expandedLine := expandedLine, file := path, rawTarget := rawTarget, target := name
      virtualTarget := virtualTarget, bareMarker := false, claimsMakeOwner := !virtualTarget
      dependencies := dependencies }]
    budget := { s.budget with spent := spent } }

/-- A directive with its targets on the line: `rest` is the text after the marker. -/
def parseRule (expandedLine : ℕ) (logical : Bytes) (virtualTarget : Bool) (rest : Bytes)
    (s : FileParse) : ParseResult FileParse := do
  let rawTargets ← tokenizeMakeArgs (beforeColon rest) path
  let rawDependencies ← tokenizeMakeArgs (afterColon rest) path
  let tokensSeen ←
    countTokens (rawTargets.length + rawDependencies.length) s.budget.tokensSeen limits
  if rawTargets = [] then
    Checked.fail (ascii "#MM declaration has no target in " ++ path ++ ascii ": " ++ logical)
  else
    let (targetTokens, spent) ← substituteTargets globals path limits rawTargets s.budget.spent
    let (dependencyTokens, spent) ←
      substituteDependencies globals path limits rawDependencies spent
    let dependencyNames : BTreeSet Bytes := .collect (dependencyTokens.map Prod.snd)
    if limits.maxEdges < dependencyNames.len then
      Checked.fail (ascii "per-rule edge limit exceeded in " ++ path)
    else
      let edgePairs := targetTokens.length * dependencyNames.len
      let provenanceEdgePairs := targetTokens.length * dependencyTokens.length
      if 2 ^ 64 ≤ edgePairs then
        Checked.fail (ascii "per-file edge counter overflow in " ++ path)
      else if 2 ^ 64 ≤ provenanceEdgePairs then
        Checked.fail (ascii "per-file provenance edge counter overflow in " ++ path)
      else
        let localEdgePairs ←
          checkedAdd s.localEdgePairs edgePairs limits.maxEdges "per-file declared edge"
        let provenanceEdgesSeen ← checkedAdd s.budget.provenanceEdgesSeen provenanceEdgePairs
          limits.maxEdges "global provenance edge"
        let spent ← spent.add edgePairs limits "parse work"
        let spent ← spent.add provenanceEdgePairs limits "provenance parse work"
        let spent ← chargeFanOut limits targetTokens.length dependencyNames spent
        targetTokens.foldlM
          (declareTarget path limits expandedLine virtualTarget dependencyTokens dependencyNames)
          { s with
            localEdgePairs := localEdgePairs
            budget := ⟨tokensSeen, provenanceEdgesSeen, spent⟩ }

/-- The marker of a directive: whether it is virtual, and the text after it. -/
def marker (logical : Bytes) : Bool × Bytes :=
  let rest := logical.drop 3
  if rest.head? = some 0x2d then (true, (rest.drop 1).dropWhile isAsciiWhitespace)
  else (false, rest.dropWhile isAsciiWhitespace)

/-- The round of `parse_file_lines` that starts at `line`: the state after it, and how many of the
following `lines` it has used. -/
def parseLine (expandedLine : ℕ) (line : Bytes) (lines : List Bytes) (s : FileParse) :
    ParseResult (FileParse × ℕ) := do
  let spent ← s.budget.spent.bump limits "parse work"
  let s := { s with budget := { s.budget with spent := spent } }
  if !startsWith line "#MM" then pure (s, 0)
  else
    let collected ← collectContinuations line lines path limits spent
    let s := { s with budget := { s.budget with spent := collected.spent } }
    if collected.logical.any (0x80 ≤ ·) then
      Checked.fail (ascii "non-ASCII #MM directive is unsupported in " ++ path)
    else
      let (virtualTarget, rest) := marker collected.logical
      if rest.head? = some 0x2d then
        Checked.fail (ascii "malformed virtual marker in " ++ path ++ ascii ": " ++
          collected.logical)
      else if rest = [] then
        match lines.drop collected.taken with
        | [] => Checked.fail (ascii "bare #MM has no following target in " ++ path)
        | next :: _ =>
          let s ← parseBare globals path limits expandedLine virtualTarget next s
          pure (s, collected.taken + 1)
      else
        let s ← parseRule globals path limits expandedLine collected.logical virtualTarget rest s
        pure (s, collected.taken)

/-- The loop of `parse_file_lines`, with `index` lines read and the next `skip` lines used. -/
def parseLines : ℕ → ℕ → List Bytes → FileParse → ParseResult FileParse
  | _, _, [], s => .ok s
  | index, skip + 1, _ :: lines, s => parseLines (index + 1) skip lines s
  | index, 0, line :: lines, s => do
    let (s, used) ← parseLine globals path limits (index + 1) line lines s
    parseLines (index + 1) used lines s

/-- `parse_file_lines`. -/
def parseFileLines (lines : List Bytes) (budget : FileParseBudget) : ParseResult FileParse :=
  parseLines globals path limits 0 0 lines ⟨.new, [], 0, budget⟩

end

/-! ### All files -/

/-- `validate_global_limits`. -/
def validateGlobalLimits (globals : BTreeMap Bytes Bytes) (limits : Limits) : ParseResult Unit :=
  if limits.maxGlobalBindings < globals.len then
    Checked.fail (ascii "project-global binding count limit exceeded")
  else do
    let _ ← globals.entries.foldlM (fun bytes (name, value) => do
      if min limits.maxIdentityBytes referenceVariableBytes < name.length then
        Checked.fail (ascii "project-global variable name too long: " ++ name)
      else if limits.maxGlobalValueBytes < value.length then
        Checked.fail (ascii "project-global value limit exceeded for " ++ name)
      else
        let bytes ← checkedAdd bytes name.length limits.maxGlobalBytes "global byte"
        checkedAdd bytes value.length limits.maxGlobalBytes "global byte") 0
    pure ()

/-- The variables of the first loop of `parse_expanded_files`. -/
structure FilesParse where
  totalBytes : ℕ
  totalLines : ℕ
  budget : FileParseBudget
  parsedFiles : List (Bytes × FileParse)

/-- The first loop of `parse_expanded_files` for one file. -/
def parseFile (globals : BTreeMap Bytes Bytes) (limits : Limits) (s : FilesParse)
    (file : Bytes × Bytes) : ParseResult FilesParse := do
  let (path, contents) := file
  if limits.maxIdentityBytes < path.length then
    Checked.fail (ascii "makefile path byte limit exceeded")
  else
    let totalBytes ← checkedAdd s.totalBytes contents.length limits.maxTotalBytes "total byte"
    if limits.maxFileBytes < contents.length then
      Checked.fail (ascii "file byte limit exceeded in " ++ path)
    else
      let lines := splitTerminator contents
      let totalLines ← lines.foldlM (fun totalLines line =>
        if limits.maxLineBytes < line.length then
          Checked.fail (ascii "line byte limit exceeded in " ++ path)
        else checkedAdd totalLines 1 limits.maxTotalLines "line") s.totalLines
      let parsed ← parseFileLines globals path limits lines s.budget
      let spent ← parsed.budget.spent.charge path.length limits "makefile path copy"
      pure ⟨totalBytes, totalLines, { parsed.budget with spent := spent },
        s.parsedFiles ++ [(path, parsed)]⟩

/-- The variables of the second loop of `parse_expanded_files`. -/
structure Merge where
  graph : MetaMakeOwnerGraph
  globalEdgeCount : ℕ
  spent : Spent

/-- One dependency of a target, into its edges. -/
def mergeEdge (limits : Limits) (s : BTreeSet Bytes × ℕ × Spent) (dependency : Bytes) :
    ParseResult (BTreeSet Bytes × ℕ × Spent) := do
  let (edges, globalEdgeCount, spent) := s
  let spent ← spent.bump limits "graph merge work"
  if dependency ∈ edges then pure (edges, globalEdgeCount, spent)
  else
    let globalEdgeCount ← checkedAdd globalEdgeCount 1 limits.maxEdges "global edge"
    pure (edges.insert dependency, globalEdgeCount, spent)

/-- The second loop of `parse_expanded_files` for one target of a file. -/
def mergeTarget (path : Bytes) (limits : Limits) (s : Merge) (local' : Bytes × LocalTarget) :
    ParseResult Merge := do
  let (name, target) := local'
  let spent ← s.spent.bump limits "graph merge work"
  let spent ← spent.charge name.length limits "global target identity copy"
  let known := s.graph.knownTargets.insert name
  if limits.maxTargets < known.len then Checked.fail (ascii "global target limit exceeded")
  else
    let spent ← spent.charge name.length limits "global dependency-map key copy"
    let (edges, globalEdgeCount, spent) ← target.dependencies.elems.foldlM (mergeEdge limits)
      ((s.graph.dependencies.get name).getD .new, s.globalEdgeCount, spent)
    let graph := { s.graph with
      knownTargets := known
      dependencies := s.graph.dependencies.insert name edges }
    if target.virtualTarget then pure ⟨graph, globalEdgeCount, spent⟩
    else
      let spent ← spent.bump limits "graph merge work"
      let spent ← spent.charge path.length limits "owner path copy"
      let owners := graph.owners.alter name fun owners => (owners.getD .new).insert path
      pure ⟨{ graph with owners := owners }, globalEdgeCount, spent⟩

/-- The second loop of `parse_expanded_files` for one file. -/
def mergeFile (limits : Limits) (s : Merge) (file : Bytes × FileParse) : ParseResult Merge := do
  let (path, parsed) := file
  let spent ← s.spent.add parsed.declarations.length limits "provenance merge work"
  let graph := { s.graph with declarations := s.graph.declarations ++ parsed.declarations }
  parsed.targets.entries.foldlM (mergeTarget path limits) { s with graph := graph, spent := spent }

end OwnerGraph

open OwnerGraph

namespace MetaMakeOwnerGraph

/-- The empty graph. -/
def empty : MetaMakeOwnerGraph := ⟨.new, .new, .new, []⟩

/-- `parse_expanded_files`. -/
def parseExpandedFiles (files globals : BTreeMap Bytes Bytes) (limits : Limits) :
    ParseResult MetaMakeOwnerGraph :=
  if limits.maxFiles < files.len then Checked.fail (ascii "file limit exceeded")
  else do
    validateGlobalLimits globals limits
    let parsed ← files.entries.foldlM (parseFile globals limits) ⟨0, 0, ⟨0, 0, ⟨0, 0⟩⟩, []⟩
    let merged ← parsed.parsedFiles.foldlM (mergeFile limits) ⟨empty, 0, parsed.budget.spent⟩
    pure merged.graph

/-- One explicitly absent variable, bound to its marker. -/
def closeAbsent (closed : BTreeMap Bytes Bytes) (name : Bytes) :
    ParseResult (BTreeMap Bytes Bytes) :=
  if name = [] || 251 < name.length || name.any fun b =>
      !isAsciiGraphic b || b = 0x24 || b = 0x28 || b = 0x29 || b = 0x22 then
    Checked.fail (ascii "invalid explicitly absent project variable")
  else if (closed.get name).isSome then
    Checked.fail (ascii "project variable " ++ name ++ ascii " is both bound and absent")
  else .ok (closed.insert name (ascii "?$(" ++ name ++ ascii ")"))

/-- `parse_with_declared_absence`. -/
def parseWithDeclaredAbsence (files globals : BTreeMap Bytes Bytes) (absent : BTreeSet Bytes)
    (limits : Limits) : ParseResult MetaMakeOwnerGraph :=
  if limits.maxGlobalBindings < min (globals.len + absent.len) (2 ^ 64 - 1) then
    Checked.fail (ascii "bound/absent project variables exceed entry limit")
  else do
    validateGlobalLimits globals limits
    let closed ← absent.elems.foldlM closeAbsent globals
    parseExpandedFiles files closed limits

end MetaMakeOwnerGraph

end Transpiler

end ArosTools
