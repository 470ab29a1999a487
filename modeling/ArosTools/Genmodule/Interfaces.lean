import ArosTools.Genmodule.Declarations

/-!
# Interface sections of a module configuration

A `.conf` file may declare `##begin interface` sections, each with a config, an attribute list and
a method list of its own. `parseInterfaces` collects them: it looks for a begin marker
(`isSection`), reads the section line by line up to its end marker (`interfaceBody`), and goes on
after it. `interfaceLines` says of each line of a text whether it belongs to such a section.
-/

namespace ArosTools

namespace Genmodule

open Str

/-! ### Entries of an attribute or method list -/

/-- `Entry`: one entry of an attribute or method list. -/
structure Entry where
  name : Text
  ty : Text
  args : List Text
  lvo : ℕ
  comment : Option Text
  deriving DecidableEq, Repr

/-- `Interface`: a parsed `##begin interface` section. -/
structure Interface where
  interfaceId : Text
  interfaceName : Text
  methodStub : Text
  methodBase : Text
  attributeBase : Text
  attributes : List Entry
  methods : List Entry
  deriving DecidableEq, Repr

/-- `Interface::default`. -/
def Interface.default : Interface := ⟨[], [], [], [], [], [], []⟩

/-- `split_type_and_name`: the type and the name of a prototype or an attribute line. -/
def splitTypeAndName (head : Text) : Option (Text × Text) :=
  let head := trimEnd head
  let front := head.rdropWhile (!endsType ·)
  let name := head.rtakeWhile (!endsType ·)
  if front = [] ∨ name = [] then none
  else if trimEnd front = [] then none
  else some (trimEnd front, name)

/-- The argument list up to its closing parenthesis, or to the end of the line. -/
def argumentText (after : Text) : Text :=
  match closeGroup 0 after with
  | some (inside, _) => inside
  | none => after

/-- The head and the arguments of an entry. -/
def entryHead (isAttribute : Bool) (code : Text) : Option (Text × List Text) :=
  if isAttribute then some (code, [])
  else (splitOnce '(' code).map fun p => (p.1, splitArgs (argumentText p.2))

/-- The code and the trailing comment of an entry line. -/
def splitComment (trimmed : Text) : Text × Option Text :=
  match splitOnce '#' trimmed with
  | none => (trimmed, none)
  | some (code, comment) =>
    (trimEnd code, if trim comment = [] then none else some (trim comment))

/-- One line of an attribute or method list. The counter is a `u32` that wraps. -/
def entryLine (isAttribute : Bool) (s : List Entry × ℕ) (raw : Text) : List Entry × ℕ :=
  let trimmed := trim (trimEnd raw)
  -- A blank line leaves a gap in the numbering, a comment line does not.
  if trimmed = [] then (s.1, (s.2 + 1) % 2 ^ 32)
  else if startsWith (lit "#") trimmed then s
  else match stripPrefix (lit ".skip") trimmed with
    | some rest =>
      match parseU32 ((splitWhitespace rest).headD []) with
      | some n => (s.1, (s.2 + n) % 2 ^ 32)
      | none => s
    | none =>
      -- Other directives modify the preceding entry and introduce no vector.
      if startsWith (lit ".") trimmed then s
      else
        let (code, comment) := splitComment trimmed
        if code = [] then s
        else match entryHead isAttribute code with
          | none => s
          | some (head, args) =>
            match splitTypeAndName head with
            | none => s
            | some (ty, name) => (s.1 ++ [⟨name, ty, args, s.2, comment⟩], (s.2 + 1) % 2 ^ 32)

/-- `parse_entry_list`: one attribute or method list. -/
def parseEntryList (lines : List Text) (isAttribute : Bool) : List Entry :=
  (lines.foldl (entryLine isAttribute) ([], 0)).1

/-! ### Sections -/

/-- `is_section`: a section marker such as `##begin interface` or `##end  interface`. -/
def isSection (line keyword name : Text) : Bool :=
  match stripPrefix (lit "##") (trim line) with
  | none => false
  | some rest =>
    match stripPrefix keyword (trimStart rest) with
    | none => false
    | some rest => trim rest = name

/-- A begin marker. -/
def begins (name : String) (line : Text) : Bool := isSection line (lit "begin") (lit name)

/-- An end marker. -/
def ends (name : String) (line : Text) : Bool := isSection line (lit "end") (lit name)

/-- One line of the config section of an interface. -/
def interfaceConfigLine (iface : Interface) (line : Text) : Interface :=
  match splitWhitespace (trim line) with
  | key :: val :: _ =>
    if key = lit "interfaceid" then { iface with interfaceId := val }
    else if key = lit "interfacename" then { iface with interfaceName := val }
    else if key = lit "methodstub" then { iface with methodStub := val }
    else if key = lit "methodbase" then { iface with methodBase := val }
    else if key = lit "attributebase" then { iface with attributeBase := val }
    else iface
  | _ => iface

/-- The lines of a section up to its end marker. -/
def sectionBody (name : String) (lines : List Text) : List Text := lines.takeWhile (!ends name ·)

/-- The lines behind the end marker of a section. -/
def afterSection (name : String) (lines : List Text) : List Text :=
  (lines.dropWhile (!ends name ·)).drop 1

/-- The inner loop of `parse_interfaces`: the section, and the lines behind its end marker. -/
def interfaceBody : ℕ → Interface → List Text → Interface × List Text
  | 0, iface, lines => (iface, lines)
  | _ + 1, iface, [] => (iface, [])
  | fuel + 1, iface, line :: rest =>
    if ends "interface" (trim line) then (iface, rest)
    else if begins "config" (trim line) then
      interfaceBody fuel ((sectionBody "config" rest).foldl interfaceConfigLine iface)
        (afterSection "config" rest)
    else if begins "attributelist" (trim line) then
      interfaceBody fuel
        { iface with attributes := parseEntryList (sectionBody "attributelist" rest) true }
        (afterSection "attributelist" rest)
    else if begins "methodlist" (trim line) then
      interfaceBody fuel
        { iface with methods := parseEntryList (sectionBody "methodlist" rest) false }
        (afterSection "methodlist" rest)
    else interfaceBody fuel iface rest

/-- A section with the default stub and base names, unless it is anonymous. -/
def Interface.finish (iface : Interface) : List Interface :=
  if iface.interfaceName = [] ∨ iface.interfaceId = [] then []
  else
    let name := iface.interfaceName
    [{ iface with
      methodStub := if iface.methodStub = [] then name else iface.methodStub
      methodBase := if iface.methodBase = [] then name ++ lit "Base" else iface.methodBase
      attributeBase :=
        if iface.attributeBase = [] then name ++ lit "AttrBase" else iface.attributeBase }]

/-- The outer loop of `parse_interfaces`. -/
def interfacesFrom : ℕ → List Text → List Interface
  | 0, _ => []
  | _ + 1, [] => []
  | fuel + 1, line :: rest =>
    if begins "interface" line then
      let (iface, rest) := interfaceBody rest.length .default rest
      iface.finish ++ interfacesFrom fuel rest
    else interfacesFrom fuel rest

/-- `parse_interfaces`: every `##begin interface` section of a `.conf` file. -/
def parseInterfaces (content : Text) : List Interface :=
  interfacesFrom (lines content).length (lines content)

/-! ### The lines of the sections -/

/-- Of each line whether it lies between an interface's begin marker and the end marker at which
`interfaceBody` stops, both included. -/
def interfaceLinesFrom : ℕ → List Text → List Bool
  | 0, _ => []
  | _ + 1, [] => []
  | fuel + 1, line :: rest =>
    if begins "interface" line then
      let after := (interfaceBody rest.length .default rest).2
      List.replicate (rest.length + 1 - after.length) true ++ interfaceLinesFrom fuel after
    else false :: interfaceLinesFrom fuel rest

/-- The lines that `parse_interfaces` takes for the lines of an interface. -/
def interfaceLines (content : Text) : List Bool :=
  interfaceLinesFrom (lines content).length (lines content)

end Genmodule

end ArosTools
