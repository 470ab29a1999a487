import ArosTools.Bytes.Utf8
import ArosTools.Genmodule.Interfaces
import ArosTools.Publication.Names

/-!
# Reading a module configuration

`parseConfVariant` reads one `.conf` file, with the file of a `confoverride=` declaration in front
of it, line by line. `ConfScan` is the state between two lines: the module so far, the section the
line belongs to, how deep it lies inside interface and class sections, and the vector of the next
function. `scanLine` reads one line: `reading` tells the section markers apart, and the other
lines go to the config section, to a verbatim block or to the function list.

`functionsCount` is the number of vectors the module's base is allocated with.
-/

namespace ArosTools

namespace Genmodule

open Str

/-! ### The module -/

/-- The flags of `ConfModuleOptions`. -/
inductive ConfOption where
  | explicitLibBase
  | autoInit
  | noResident
  | noIncludes
  | noAutoInit
  | residentAutoInit
  | selfInit
  | noInitTable
  deriving DecidableEq, Repr

/-- `ConfModuleOptions`: a set of flags. -/
structure ConfModuleOptions where
  flags : List ConfOption
  deriving DecidableEq, Repr

namespace ConfModuleOptions

/-- `contains`. -/
def contains (options : ConfModuleOptions) (flag : ConfOption) : Bool := flag ∈ options.flags

/-- `insert`. -/
def insert (options : ConfModuleOptions) (flag : ConfOption) : ConfModuleOptions :=
  ⟨options.flags.insert flag⟩

theorem contains_insert {options : ConfModuleOptions} {flag : ConfOption} (added : ConfOption)
    (h : options.contains flag = true) : (options.insert added).contains flag = true := by
  simp only [contains, decide_eq_true_eq] at h
  simp [contains, insert, h]

end ConfModuleOptions

/-- `ConfModule`. -/
structure ConfModule where
  name : Text
  baseName : Text
  libBase : Text
  libBaseType : Text
  explicitBaseTypeExtern : Option Text
  options : ConfModuleOptions
  cdef : Text
  cdefPrivate : Text
  functions : List Function
  majorVersion : ℕ
  minorVersion : ℕ
  residentPri : ℤ
  date : Text
  modType : Text
  sysbaseField : Option Text
  oopbaseField : Option Text
  seglistField : Option Text
  interfaces : List Interface
  includeName : Text
  relDir : PathBuf
  forceBases : List Text
  startupLines : Text
  deriving DecidableEq, Repr

/-- `ModuleDeclaration`: the invocation a `.conf` belongs to. -/
structure ModuleDeclaration where
  name : Text
  modType : Text
  baseConfig : Option PathBuf
  deriving DecidableEq, Repr

/-- `module.options.contains(NO_RESIDENT)`. -/
def ConfModule.noresident (m : ConfModule) : Bool := m.options.contains .noResident

/-- The first vector of a module, as `render_defines` is given it. -/
def ConfModule.firstVector (m : ConfModule) : ℕ := firstLvo m.modType m.noresident

/-- `functions_count`: the number of jump-table vectors a module's base needs. -/
def functionsCount (m : ConfModule) : ℕ :=
  match (m.functions.map Function.lvo).max? with
  | some count => count
  | none => m.firstVector - 1

/-! ### The config section -/

/-- `conf_key_value`: a config line as key and value. -/
def confKeyValue (line : Text) : Option (Text × Text) :=
  let line := trim line
  if line.any isWhitespace then
    let key := line.takeWhile (!isWhitespace ·)
    let value := trim (line.dropWhile (!isWhitespace ·))
    if key = [] ∨ value = [] then none else some (key, value)
  else none

/-- Two options that exclude each other. -/
def incompatible (detail : String) : IoError := .new .invalidData detail

/-- An option that is refused next to another one. -/
def insertOption (m : ConfModule) (flag other : ConfOption) (detail : String) :
    Except IoError ConfModule :=
  if m.options.contains other then .error (incompatible detail)
  else .ok { m with options := m.options.insert flag }

/-- One word of an `options` line. -/
def optionWord (m : ConfModule) (opt : Text) : Except IoError ConfModule :=
  let opt := trim opt
  let autoinit := "option autoinit and noautoinit are incompatible"
  let resautoinit := "option resautoinit and selfinit are incompatible"
  if opt = lit "autoinit" then insertOption m .autoInit .noAutoInit autoinit
  else if opt = lit "noautoinit" then insertOption m .noAutoInit .autoInit autoinit
  else if opt = lit "resautoinit" then insertOption m .residentAutoInit .selfInit resautoinit
  else if opt = lit "selfinit" then insertOption m .selfInit .residentAutoInit resautoinit
  else if opt = lit "noinittable" then .ok { m with options := m.options.insert .noInitTable }
  else if opt = lit "noresident" then .ok { m with options := m.options.insert .noResident }
  else if opt = lit "noincludes" then .ok { m with options := m.options.insert .noIncludes }
  else .ok m

/-- The major and minor number of a `version` line. -/
def versionNumbers (m : ConfModule) (val : Text) : ConfModule :=
  let numbers := split (· = '.') val
  match parseU32 (trim (numbers.headD [])) with
  | none => m
  | some major =>
    { m with
      majorVersion := major
      minorVersion := ((numbers[1]?).bind fun x => parseU32 (trim x)).getD 0 }

/-- One line of the config section. -/
def configLine (m : ConfModule) (trimmed : Text) : Except IoError ConfModule :=
  match confKeyValue trimmed with
  | none => .ok m
  | some (key, val) =>
    if key = lit "forcebase" then .ok { m with forceBases := m.forceBases ++ splitWhitespace val }
    else if key = lit "basename" then
      .ok { m with
        baseName := val
        libBase := if m.options.contains .explicitLibBase then m.libBase else val ++ lit "Base" }
    else if key = lit "libbase" then
      .ok { m with libBase := val, options := m.options.insert .explicitLibBase }
    else if key = lit "libbasetypeextern" then .ok { m with explicitBaseTypeExtern := some val }
    else if key = lit "libbasetype" then .ok { m with libBaseType := val }
    else if key = lit "includename" then .ok { m with includeName := val }
    else if key = lit "date" then .ok { m with date := val }
    else if key = lit "version" then .ok (versionNumbers m val)
    else if key = lit "residentpri" then
      .ok { m with residentPri := (parseI32 val).getD m.residentPri }
    else if key = lit "options" then
      (split (fun c => c = ',' || isAsciiWhitespace c) val).foldlM optionWord m
    else if key = lit "sysbase_field" then .ok { m with sysbaseField := some val }
    else if key = lit "oopbase_field" then .ok { m with oopbaseField := some val }
    else if key = lit "seglist_field" then .ok { m with seglistField := some val }
    else .ok m

/-! ### Section markers -/

/-- The sections of a `.conf` file that belong to the module. -/
inductive ConfSection where
  | none
  | config
  | cdef
  | startup
  | cdefprivate
  | functions
  deriving DecidableEq, Repr

/-- The sections that nest a config of their own. -/
inductive Nested where
  | interface
  | oopClass
  deriving DecidableEq, Repr

/-- What a line is as a section marker. -/
inductive Reading where
  | opens (nested : Nested)
  | closes
  | enter (current : ConfSection)
  | other
  deriving DecidableEq, Repr

/-- The section marker on a trimmed line. Interfaces and classes are told by how the directive
starts, the other sections by what it is. -/
def reading (trimmed : Text) : Reading :=
  match (stripPrefix (lit "##") trimmed).map trim with
  | none => .other
  | some value =>
    if startsWith (lit "begin interface") value then .opens .interface
    else if startsWith (lit "begin class") value then .opens .oopClass
    else if startsWith (lit "end interface") value || startsWith (lit "end class") value then .closes
    else if value = lit "begin config" then .enter .config
    else if value = lit "end config" then .enter .none
    else if value = lit "begin cdef" then .enter .cdef
    else if value = lit "end cdef" then .enter .none
    else if value = lit "begin startup" then .enter .startup
    else if value = lit "end startup" then .enter .none
    else if value = lit "begin cdefprivate" then .enter .cdefprivate
    else if value = lit "end cdefprivate" then .enter .none
    else if value = lit "begin functionlist" ∨ value = lit "begin cfunctionlist" then
      .enter .functions
    else if value = lit "end functionlist" ∨ value = lit "end cfunctionlist" then .enter .none
    else .other

/-! ### The function list -/

/-- The state of `parse_conf_variant` between two lines. -/
structure ConfScan where
  conf : ConfModule
  /-- The vector of the next declaration. -/
  lvo : ℕ
  /-- The running `.version` value. -/
  pendingVersion : Option ℕ
  lvoReady : Bool
  current : ConfSection
  /-- The number of interface and class sections around the line. -/
  nesting : ℕ

/-- `last_mut`: change the last declaration, if there is one. -/
def modifyLast (f : Function → Function) (functions : List Function) : List Function :=
  match functions.getLast? with
  | some last => functions.dropLast ++ [f last]
  | none => functions

/-- The names of the standard library vectors, which the module skeleton supplies. -/
def isStandardVector (name : Text) : Bool :=
  name ∈ [lit "open", lit "close", lit "expunge", lit "extFunc", lit "OpenLib", lit "CloseLib",
    lit "ExpungeLib", lit "ExtFuncLib"]

/-- The part of a line in front of a comment. -/
def codeLine (trimmed : Text) : Text :=
  if '#' ∈ trimmed then trim (trimmed.takeWhile (· ≠ '#')) else trimmed

/-- The vectors that a line reserves without declaring a function: one for a blank line, and those
of a `.skip`. A comment line reserves none. -/
def reserved (trimmed : Text) : ℕ :=
  if codeLine trimmed = [] ∧ ¬ startsWith (lit "#") trimmed then 1
  else match stripPrefix (lit ".skip") (codeLine trimmed) with
    | some rest => (parseU32 ((splitWhitespace rest).headD [])).getD 0
    | none => 0

/-- The declaration on a line of a function list. -/
def declared (trimmed : Text) : Option Function :=
  let code := codeLine trimmed
  if code ≠ [] ∧ ¬ startsWith (lit ".") code ∧ ¬ startsWith (lit "#") code then
    parseFunctionLine code
  else none

/-- A declaration takes the next vector. The standard vectors take one as well, but are not kept. -/
def declare (s : ConfScan) (f : Function) : ConfScan :=
  let f := { f with lvo := s.lvo, declaredVersion := s.pendingVersion }
  { s with
    lvo := saturatingAdd s.lvo 1
    conf := if isStandardVector f.name then s.conf
      else { s.conf with functions := s.conf.functions ++ [f] } }

/-- Change the last declaration of the module. -/
def ConfScan.modifyLast (s : ConfScan) (f : Function → Function) : ConfScan :=
  { s with conf := { s.conf with functions := Genmodule.modifyLast f s.conf.functions } }

/-- One line of a function list. -/
def functionLine (s : ConfScan) (trimmed : Text) : ConfScan :=
  let code := codeLine trimmed
  let s := { s with lvo := saturatingAdd s.lvo (reserved trimmed) }
  -- `.private` and `.novararg` modify the preceding declaration.
  if code = lit ".private" then s.modifyLast fun f => { f with isPrivate := true }
  else if code = lit ".novararg" then s.modifyLast fun f => { f with novararg := true }
  else match stripPrefix (lit ".version") code with
    | some rest =>
      match parseU32 (trim rest) with
      | some version => { s with pendingVersion := some version }
      | none => s
    | none =>
      match stripPrefix (lit ".alias") code with
      | some rest =>
        if trim rest = [] then s
        else s.modifyLast fun f => { f with aliases := f.aliases ++ [trim rest] }
      | none =>
        match declared trimmed with
        | some f => declare s f
        | none => s

/-! ### Lines -/

/-- Enter a section. The first function list fixes where the vectors start. -/
def enterSection (s : ConfScan) (current : ConfSection) : ConfScan :=
  if current = .functions ∧ s.lvoReady = false then
    { s with current := current, lvo := s.conf.firstVector, lvoReady := true }
  else { s with current := current }

/-- A line that is no section marker and lies in no interface or class. -/
def contentLine (s : ConfScan) (line : Text) : Except IoError ConfScan :=
  let verbatim := line ++ ['\n']
  match s.current with
  | .none => .ok s
  | .config => do
    let conf ← configLine s.conf (trim line)
    .ok { s with conf := conf }
  | .cdef => .ok { s with conf := { s.conf with cdef := s.conf.cdef ++ verbatim } }
  | .startup => .ok { s with conf := { s.conf with startupLines := s.conf.startupLines ++ verbatim } }
  | .cdefprivate =>
    .ok { s with conf := { s.conf with cdefPrivate := s.conf.cdefPrivate ++ verbatim } }
  | .functions => .ok (functionLine s (trim line))

/-- One line of a `.conf` file. -/
def scanLine (s : ConfScan) (line : Text) : Except IoError ConfScan :=
  match reading (trim line) with
  | .opens _ => .ok { s with nesting := s.nesting + 1 }
  | .closes => .ok { s with nesting := s.nesting - 1 }
  | .enter current => if s.nesting > 0 then .ok s else .ok (enterSection s current)
  | .other => if s.nesting > 0 then .ok s else contentLine s line

/-! ### Files -/

/-- The bytes of a text. -/
def utf8 (text : Text) : Bytes := ascii (String.ofList text)

/-- `read_stable_source`: a file as text, byte by byte if it is not UTF-8. -/
def readStableSource (measureRegularFile : PathBuf → Except IoError (Option Bytes))
    (path : PathBuf) : Except IoError Text := do
  match ← measureRegularFile path with
  | none => .error (.new .notFound ("source file '" ++ path.display ++ "' does not exist"))
  | some bytes =>
    match String.fromUTF8? ⟨bytes.toArray⟩ with
    | some text => .ok text.toList
    | none => .ok (bytes.map fun b => Char.ofNat b.toNat)

/-- `file_stem`: the file name without its last extension. -/
def fileStem (file : Bytes) : Bytes :=
  let stem := (file.rdropWhile (· ≠ 0x2e)).dropLast
  if stem = [] then file else stem

/-- `to_string_lossy`. -/
def lossyText (bytes : Bytes) : Text :=
  match String.fromUTF8? ⟨(toStringLossy bytes).toArray⟩ with
  | some text => text.toList
  | none => []

/-- `default_basename`: the module name with its first letter capitalised. -/
def defaultBasename (toUppercase : Char → Text) : Text → Text
  | [] => []
  | first :: rest => toUppercase first ++ rest

/-- `strip_prefix` on paths. -/
def PathBuf.relativeTo (path root : PathBuf) : Option PathBuf :=
  if path.absolute = root.absolute ∧ root.components.isPrefixOf path.components then
    some ⟨false, path.components.drop root.components.length⟩
  else none

/-- `extern_base_type`: the library base pointer type as seen from outside the module. -/
def externBaseType (m : ConfModule) : Text :=
  match m.explicitBaseTypeExtern with
  | some t => t ++ lit " *"
  | none =>
    if m.modType = lit "device" then lit "struct Device *"
    else if m.modType = lit "handler" ∨ m.modType = lit "resource" then lit "APTR "
    else lit "struct Library *"

/-- `exports_public_headers`. -/
def exportsPublicHeaders (m : ConfModule) : Bool :=
  let hasFuncs := !m.functions.isEmpty
  let hasCdef := !(trim m.cdef).isEmpty
  if m.modType = lit "library" ∨ m.modType = lit "resource" then true
  else if m.modType ∈ [lit "handler", lit "mcc", lit "mui", lit "mcp", lit "usbclass",
      lit "btclass"] then hasFuncs || hasCdef
  else if m.modType = lit "device" then
    hasFuncs || hasCdef || externBaseType m ≠ lit "struct Device *"
  else hasFuncs

/-- `validate_module_output_names`. -/
def validateModuleOutputNames (m : ConfModule) : Except IoError Unit := do
  if m.relDir.components ≠ [] then
    let _ ← casefoldPathKey m.relDir
  let _ ← portableOutputName (utf8 (m.name ++ lit "_libdefs.h"))
  if exportsPublicHeaders m then
    let _ ← portableOutputName (utf8 m.name)
    let _ ← portableOutputName (utf8 (m.includeName ++ lit ".h"))
  m.interfaces.forM fun iface => do
    let _ ← portableOutputName (utf8 (iface.interfaceName ++ lit ".h"))

/-- The text that is read: the base configuration, if there is one, and then the file itself. -/
def confContent (measureRegularFile : PathBuf → Except IoError (Option Bytes)) (path : PathBuf)
    (declaration : Option ModuleDeclaration) : Except IoError Text := do
  let overrideContent ← readStableSource measureRegularFile path
  match declaration.bind ModuleDeclaration.baseConfig with
  | some baseConfig => do
    let base ← readStableSource measureRegularFile baseConfig
    .ok (base ++ ['\n'] ++ overrideContent)
  | none => .ok overrideContent

/-- The module before the first line. -/
def initialModule (toUppercase : Char → Text) (stem : Text) (path root : PathBuf)
    (declaration : Option ModuleDeclaration) (content : Text) : ConfModule :=
  let name := (declaration.map ModuleDeclaration.name).getD stem
  { name := name
    baseName := defaultBasename toUppercase name
    libBase := defaultBasename toUppercase name ++ lit "Base"
    -- Left empty: the default depends on `libbasetypeextern`, which may be read later.
    libBaseType := []
    explicitBaseTypeExtern := none
    options := ⟨[]⟩
    cdef := []
    cdefPrivate := []
    functions := []
    majorVersion := 0
    minorVersion := 0
    residentPri := 0
    date := []
    modType := (declaration.map ModuleDeclaration.modType).getD []
    sysbaseField := none
    oopbaseField := none
    seglistField := none
    interfaces := parseInterfaces content
    includeName := []
    relDir := (path.parent.bind (PathBuf.relativeTo · root)).getD ⟨false, []⟩
    forceBases := []
    startupLines := [] }

/-- The state before the first line. -/
def ConfScan.start (m : ConfModule) : ConfScan := ⟨m, 0, none, false, .none, 0⟩

/-- The defaults that are known once every line is read. -/
def resolveDefaults (m : ConfModule) : ConfModule :=
  { m with
    libBaseType := if m.libBaseType = [] then
      m.explicitBaseTypeExtern.getD (lit "struct Library") else m.libBaseType
    includeName := if m.includeName = [] then m.name else m.includeName }

/-- `parse_conf_variant` on the text of a configuration. -/
def parseContent (initial : ConfModule) (content : Text) : Except IoError ConfModule := do
  let s ← (lines content).foldlM scanLine (.start initial)
  let m := resolveDefaults s.conf
  validateModuleOutputNames m
  .ok m

/-- `parse_conf_variant`. -/
def parseConfVariant (measureRegularFile : PathBuf → Except IoError (Option Bytes))
    (toUppercase : Char → Text) (path root : PathBuf) (declaration : Option ModuleDeclaration) :
    Except IoError (Option ConfModule) := do
  let content ← confContent measureRegularFile path declaration
  match path.fileName with
  | none => .ok none
  | some file =>
    let stem := lossyText (fileStem file)
    let m ← parseContent (initialModule toUppercase stem path root declaration content) content
    .ok (some m)

end Genmodule

end ArosTools
