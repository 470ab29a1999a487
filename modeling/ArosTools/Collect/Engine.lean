import ArosTools.Collect.Host
import ArosTools.Collect.Sets

/-!
# The collector's run

`runWith` is the body of the collector: a first relocatable link into a staged file, the inspection
of that object, a script for the symbol sets it found, a second link into another staged file, the
audit of undefined symbols, stripping, marking and publishing. The staged files are removed when
the run ends, however it ends, unless they are kept for debugging.

The ELF reader is a parameter; everything computed from the object it returns is modelled.
-/

namespace ArosTools

namespace Engine

/-! ### Objects -/

/-- Where a symbol lives. -/
inductive Home where
  | absolute
  | undefined
  | section_ (index : ℕ)
  deriving DecidableEq, Repr

/-- A symbol's binding. -/
inductive Binding where
  | local_
  | global
  | weak
  | other (value : UInt8)
  deriving DecidableEq, Repr

/-- Of a symbol, what the collector looks at. -/
structure Symbol where
  name : Bytes
  home : Home
  binding : Binding
  deriving DecidableEq, Repr

/-- Of an object, what the collector looks at. -/
structure Object where
  cls : Sets.Class
  sections : List Bytes
  symbols : List Symbol
  deriving DecidableEq, Repr

/-- Some symbol with a name is undefined. -/
def hasUndefined (object : Object) : Bool :=
  object.symbols.any fun symbol => symbol.home == .undefined && symbol.name ≠ []

/-- The undefined names that are not local, sorted. -/
def undefinedNames (object : Object) : List Bytes :=
  (((object.symbols.filter fun symbol => symbol.home == .undefined &&
    symbol.binding ≠ .local_ && symbol.name ≠ []).map Symbol.name).dedup).insertionSort
      fun a b => Sets.bytesLe a b = true

/-- Texts joined by a separator. -/
def joinBytes (separator : Bytes) : List Bytes → Bytes
  | [] => []
  | [text] => text
  | text :: texts => text ++ separator ++ joinBytes separator texts

namespace Libreq

/-- The start of a version marker. -/
def markerStart : Bytes := ascii "__aros_libreq_"

/-- A marker the collector takes into account. -/
def eligible (symbol : Symbol) : Bool :=
  markerStart.isPrefixOf symbol.name &&
    match symbol.home with
    | .absolute => symbol.binding ≠ .local_
    | .undefined => symbol.binding = .weak
    | .section_ _ => false

/-- What one marker says: a base with its version, or a report. -/
def readMarker (symbol : Symbol) : Except Bytes (Bytes × ℤ) :=
  let rest := symbol.name.drop markerStart.length
  let named (base : Bytes) (version : ℤ) : Except Bytes (Bytes × ℤ) :=
    if base = [] then .error (symbol.name ++ ascii ": no library base in the name")
    else .ok (markerStart ++ base, version)
  match Sets.splitOnce Sets.dot rest with
  | some (base, suffix) =>
    match parseInt64 suffix with
    | some version => named base version
    | none => .error (symbol.name ++ ascii ": `" ++ suffix ++ ascii "` is not a version")
  | none => named rest 0

/-- The versions required of one base, and the report if several were stated. -/
def resolve (symbol : Bytes) (found : List (Bytes × ℤ)) : Sets.Requirement × List Bytes :=
  let versions := (((found.filter fun e => e.1 == symbol).map Prod.snd).insertionSort
    (· ≤ ·)).dedup
  let version := versions.getLast?.getD 0
  (⟨symbol, version⟩,
    if 1 < (versions.filter (· ≠ 0)).length then
      [symbol ++ ascii ": [" ++ joinBytes (ascii ", ") (versions.map intText) ++
        ascii "] are all required here, publishing " ++ intText version]
    else [])

/-- The version requirements of an object, and the reports on its markers. -/
def discover (symbols : List Symbol) : List Sets.Requirement × List Bytes :=
  let markers := (symbols.filter eligible).map readMarker
  let found := markers.filterMap Except.toOption
  let skipped := markers.filterMap fun m => match m with
    | .error text => some text
    | .ok _ => none
  let bases := ((found.map Prod.fst).dedup).insertionSort fun a b => Sets.bytesLe a b = true
  let resolved := bases.map fun base => resolve base found
  (resolved.map Prod.fst, skipped ++ resolved.flatMap Prod.snd)

end Libreq

namespace Extra

/-- Inputs the second link needs besides the first one's. -/
structure Requirements where
  cxxPureVirtual : Bool
  pthread : Bool
  deriving DecidableEq, Repr

/-- The inputs that undefined symbols ask for. -/
def discover (symbols : List Symbol) : Requirements where
  cxxPureVirtual := symbols.any fun symbol => symbol.home == .undefined &&
    symbol.name == ascii "__cxa_pure_virtual" && symbol.binding == .weak
  pthread := symbols.any fun symbol => symbol.home == .undefined &&
    startsWith symbol.name "pthread_" && symbol.binding == .global

end Extra

/-! ### Requests and failures -/

/-- How the collector was called. -/
inductive Frontend where
  | direct
  | driver
  deriving DecidableEq, Repr

/-- Everything a run is asked for. -/
structure Request where
  name : Bytes
  linker : OsString
  strip : Option OsString
  emulation : Option Bytes
  args : List OsString
  output : OsString
  sysroot : Option OsString
  mode : LinkMode
  stripOutput : Bool
  ignoreUndefined : Bool
  report : Option OsString
  keepScript : Option OsString
  frontend : Frontend
  deriving DecidableEq, Repr

/-- The request the driver frontend runs. -/
def Request.ofDriver (request : EngineRequest) : Request :=
  ⟨request.name, request.linker, some request.strip, request.emulation, request.args,
    request.output, request.sysroot, request.mode, request.stripOutput, request.ignoreUndefined,
    none, none, .driver⟩

namespace Request

variable (request : Request)

/-- The first link's output. -/
def staged : OsString := adjacent request.output ".collect-pre"

/-- The second link's output. -/
def finalStaged : OsString := adjacent request.output ".collect-final"

/-- The script of the second link. -/
def script : OsString :=
  request.keepScript.getD (adjacent request.output ".collect-sets.ld")

/-- What is removed at the start and at the end of a run. -/
def cleanupPaths : List OsString :=
  [request.staged, request.finalStaged] ++
    if request.keepScript = none then [request.script] else []

end Request

/-- Which part of the run failed. -/
inductive DiagnosticCode where
  | invocation
  | firstLink
  | secondLink
  | objectInspection
  | setCollection
  | requiredInput
  | undefinedSymbols
  | toolResolution
  | strip
  | abi
  | publication
  | observability
  deriving DecidableEq, Repr

/-- A failure of the run: its code, its text, and the error or exit status behind it. -/
structure Failure where
  code : DiagnosticCode
  message : Bytes
  cause : Option Errno := none
  exitCode : Option ℕ := none
  deriving DecidableEq, Repr

/-- Programs of the collector. -/
abbrev Collector (α : Type) := ExceptT Failure (Prog Host) α

/-- End the run. -/
def fail {α : Type} (code : DiagnosticCode) (message : Bytes) : Collector α :=
  throw { code := code, message := message }

/-- A call, with its answer. -/
def call {α : Type} (op : Host α) : Collector α := ExceptT.lift (Prog.perform op)

/-- A call whose failure ends the run. -/
def attempt {α : Type} (code : DiagnosticCode) (message : Bytes) (op : Host (Except Errno α)) :
    Collector α := do
  match ← call op with
  | .ok a => pure a
  | .error e => throw { code := code, message := message, cause := some e }

/-! ### Steps of the run -/

/-- `remove_if_exists`. -/
def removeIfExists (code : DiagnosticCode) (path : OsString) : Collector Unit := do
  match ← call (.removeFile path) with
  | .ok () => pure ()
  | .error .noent => pure ()
  | .error e =>
    throw { code := code, message := ascii "cannot remove " ++ path, cause := some e }

/-- A log entry. -/
def logEvent (level : LogLevel) (message : Bytes) : Collector Unit :=
  attempt .observability (ascii "cannot write the log") (.log level message)

/-- Run a tool; a failure to run it and a failed run end the collector's. -/
def runTool (code : DiagnosticCode) (failed : String) (tool : OsString) (args : List OsString) :
    Collector Unit := do
  let status ← attempt code (ascii "cannot execute required sibling tool " ++ tool)
    (.execute tool args)
  if !status.success then
    throw { code := code, message := ascii failed, exitCode := status.code }

/-- `set_aros_abi`. -/
def setArosAbi (path : OsString) : Collector Unit := do
  attempt .abi (ascii "cannot open " ++ path) (.openFile path)
  let ident ← attempt .abi (ascii "cannot read ELF identity from " ++ path) (.readExact path 9)
  if ident.take 4 ≠ [0x7f, 0x45, 0x4c, 0x46] then
    fail .abi (ascii "linker output is not a complete ELF file: " ++ path)
  attempt .abi (ascii "cannot seek in " ++ path) (.seek path)
  attempt .abi (ascii "cannot set AROS ABI on " ++ path) (.writeAt path 7 [15, 1])

/-- `publish`. -/
def publish (staged output : OsString) : Collector Unit :=
  attempt .publication (ascii "cannot publish " ++ staged ++ ascii " as " ++ output)
    (.rename staged output)

/-- `write_report`. -/
def writeReport : Option OsString → List Bytes → Collector Unit
  | none, _ => pure ()
  | some path, lines =>
    if lines.isEmpty then removeIfExists .setCollection path
    else attempt .setCollection (ascii "cannot write " ++ path)
      (.writeFile path (joinBytes [Sets.newline] lines ++ [Sets.newline]))

/-- Arguments that supply the libraries of the first link again. -/
def resupplied : List OsString → List OsString
  | [] => []
  | arg :: rest =>
    let text := toStringLossy arg
    if !startsWith text "-" && (ascii ".a").isSuffixOf text then arg :: resupplied rest
    else if text = ascii "-L" || text = ascii "-l" then
      match rest with
      | [] => []
      | value :: rest =>
        if text ≠ ascii "-l" || !startsWith (toStringLossy value) "gcc" then
          arg :: value :: resupplied rest
        else resupplied rest
    else if startsWith text "-L" then arg :: resupplied rest
    else
      match stripPrefix text "-l" with
      | some name => if !startsWith name "gcc" then arg :: resupplied rest else resupplied rest
      | none => resupplied rest

/-- `resupplied_libraries`. -/
def resuppliedLibraries (args : List OsString) : List OsString :=
  ascii "--allow-multiple-definition" :: resupplied args

/-- `require_sysroot_library`. -/
def requireSysrootLibrary (request : Request) (name : String) : Collector OsString :=
  match request.sysroot with
  | none => fail .requiredInput (ascii ("the first link requires " ++ name ++ ", but the linker " ++
      "command line has no --sysroot; pass an absolute AROS Developer sysroot"))
  | some root => do
    let lib := if request.name = ascii "collect-aros32" then ascii "/lib32/" else ascii "/lib/"
    let path := root ++ lib ++ ascii name
    if ← call (.isFile path) then pure path
    else fail .requiredInput (ascii "collector-required sysroot input is missing: " ++ path)

section
variable (elfRead : Bytes → Option Object)

/-- `read_object`. -/
def readObject (path : OsString) : Collector Object := do
  let bytes ← attempt .objectInspection (ascii "cannot read " ++ path) (.readFile path)
  match elfRead bytes with
  | some object => pure object
  | none => fail .objectInspection (ascii "cannot parse " ++ path)

variable (request : Request)

/-- The first link. -/
def firstLink : Collector Unit := do
  let first ← match replaceOutput request.staged request.args with
    | .ok first => pure first
    | .error message => fail .invocation message
  let first := if request.frontend = .driver && !first.contains (ascii "-r")
    then ascii "-r" :: first else first
  logEvent .debug (ascii "starting first relocatable link")
  runTool .firstLink "the first relocatable link failed" request.linker first

/-- Report what was found and could not be collected. -/
def reportSkipped (reported : List Bytes) : Collector Unit := do
  if !reported.isEmpty then
    for line in reported do
      logEvent .warn line
    logEvent .warn (natText reported.length ++
      ascii " set or library requirement entries were skipped")
  writeReport request.report reported

/-- The arguments of the second link that the object asks for. -/
def extraInputs (object : Object) : Collector (List OsString) := do
  if request.frontend ≠ .driver then pure []
  else
    let extras := Extra.discover object.symbols
    let cxx ← if extras.cxxPureVirtual
      then do pure [← requireSysrootLibrary request "static-cxx-cxa-pure-virtual.o"] else pure []
    let pthread ← if extras.pthread
      then do pure [← requireSysrootLibrary request "libpthread.a"] else pure []
    pure (cxx ++ pthread ++
      if hasUndefined object then resuppliedLibraries request.args else [])

/-- The second link. -/
def secondLink (object : Object) : Collector Unit := do
  let emulation := match request.emulation with
    | some emulation => [ascii "-m", emulation]
    | none => []
  let inputs ← extraInputs request object
  logEvent .debug (ascii "starting set-collection link")
  runTool .secondLink "the set-collection link failed" request.linker
    ([ascii "-r"] ++ emulation ++ [ascii "-o", request.finalStaged, request.staged] ++ inputs ++
      [ascii "-T", request.script])

/-- No undefined symbol may remain in a final link. -/
def auditUndefined : Collector Unit := do
  if request.frontend = .driver && request.mode = .final && !request.ignoreUndefined then
    let output ← readObject elfRead request.finalStaged
    let undefined := undefinedNames output
    if !undefined.isEmpty then
      fail .undefinedSymbols (ascii "undefined symbols remain after the final link: " ++
        joinBytes (ascii ", ") undefined)

/-- Strip the linked object. -/
def stripFinal : Collector Unit := do
  if request.stripOutput then
    match request.strip with
    | none =>
      fail .toolResolution
        (ascii "output stripping was requested without a configured strip tool")
    | some strip =>
      runTool .strip "stripping the linked object failed" strip
        [ascii "--strip-unneeded", request.finalStaged]

/-- Mark the linked object and make it executable. -/
def markFinal : Collector Unit := do
  if request.frontend = .driver then
    setArosAbi request.finalStaged
    attempt .publication (ascii "cannot set permissions on " ++ request.finalStaged)
      (.setPermissions request.finalStaged 0o766)

/-- From the inspected object to the published output. -/
def secondPass (object : Object) (found : List Sets.SymbolSet)
    (requirements : List Sets.Requirement) : Collector Unit := do
  attempt .setCollection (ascii "cannot write collector script " ++ request.script)
    (.writeFile request.script
      (Sets.script found object.cls (Sets.libreqScript requirements)))
  secondLink request object
  auditUndefined elfRead request
  stripFinal request
  markFinal request
  publish request.finalStaged request.output

/-- The run, once the staging paths are clear. -/
def link : Collector Unit := do
  firstLink request
  if request.mode = .incremental then
    if request.frontend = .driver then setArosAbi request.staged
    publish request.staged request.output
  else
    let object ← readObject elfRead request.staged
    let (found, skipped) := Sets.discover object.sections
    let (requirements, libreqReported) := Libreq.discover object.symbols
    reportSkipped request (skipped.map Sets.Skipped.text ++ libreqReported)
    if request.frontend = .direct && found.isEmpty && requirements.isEmpty then
      publish request.staged request.output
    else secondPass elfRead request object found requirements

/-- Remove the staged files; what cannot be removed stays. -/
def cleanup : List OsString → Prog Host Unit
  | [] => pure ()
  | path :: paths => do
    let _ ← Prog.perform (.removeFile path)
    cleanup paths

/-- **`run_with`.** `debug` is whether `COLLECT_AROS_DEBUG` is set. -/
def runWith (debug : Bool) : Collector Unit := do
  removeIfExists .publication request.staged
  removeIfExists .publication request.finalStaged
  if request.keepScript = none then removeIfExists .publication request.script
  let result ← ExceptT.lift (link elfRead request).run
  if !debug then ExceptT.lift (cleanup request.cleanupPaths)
  ExceptT.mk (pure result)

end

end Engine

end ArosTools
