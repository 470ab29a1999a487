import ArosTools.Bytes.Basic
import ArosTools.Bytes.Utf8
import ArosTools.Program.BTree
import ArosTools.Publication.Names
import Mathlib.Data.Char

/-!
# The text of GenMF templates and calls

GenMF reads decoded text: lines that keep their newline, definition headers, calls with their
arguments, and the placeholders of a template body. Texts are lists of characters; a length in
bytes is the length of their UTF-8 encoding.

* `splitInclusive`, `normalizeNewlines` — lines;
* `parseDefinitionHeader`, `parseInvocation` — arguments as they are declared and as they are given;
* `findArgumentReferences` — the placeholders of a line;
* `findTemplateReference` — the call on a line.
-/

namespace ArosTools

namespace Genmf

/-- Decoded text. -/
abbrev Text := List Char

/-- The text of a literal. -/
def lit (s : String) : Text := s.toList

/-- A text for a message. -/
def shown (text : Text) : String := String.ofList text

/-- The length in bytes. -/
def len (text : Text) : ℕ := (text.map Char.utf8Size).sum

/-! ### Characters -/

/-- `char::is_whitespace`. -/
def isWhitespace (c : Char) : Bool :=
  let n := c.toNat
  (0x09 ≤ n && n ≤ 0x0d) || n = 0x20 || n = 0x85 || n = 0xa0 || n = 0x1680 ||
    (0x2000 ≤ n && n ≤ 0x200a) || n = 0x2028 || n = 0x2029 || n = 0x202f || n = 0x205f || n = 0x3000

/-- `is_python_whitespace`. -/
def isPythonWhitespace (c : Char) : Bool :=
  isWhitespace c || (0x1c ≤ c.toNat && c.toNat ≤ 0x1f)

/-- `is_ascii_alphanumeric`. -/
def isAlphanumeric (c : Char) : Bool :=
  ('0' ≤ c && c ≤ '9') || ('A' ≤ c && c ≤ 'Z') || ('a' ≤ c && c ≤ 'z')

/-- A character of a word after the first. -/
def isWordCharacter (c : Char) : Bool := isAlphanumeric c || c = '_'

/-- `substitution_character`. -/
def substitutionCharacter (c : Char) : Bool := isAlphanumeric c || c = '-' || c = '_'

/-- `trim_python_whitespace_start`. -/
def trimStart (text : Text) : Text := text.dropWhile isPythonWhitespace

/-- `trim_python_whitespace`. -/
def trim (text : Text) : Text := ((trimStart text).reverse.dropWhile isPythonWhitespace).reverse

/-- The loop of `split_python_whitespace`: the word so far, and the words after it. -/
def splitWords (word : Text) : Text → List Text
  | [] => [word]
  | c :: rest => if isPythonWhitespace c then word :: splitWords [] rest
      else splitWords (word ++ [c]) rest

/-- `split_python_whitespace`. -/
def splitPythonWhitespace (text : Text) : List Text := (splitWords [] text).filter (· ≠ [])

/-! ### Lines -/

/-- `split_inclusive('\n')`: every line with its newline. -/
def splitInclusive : Text → List Text
  | [] => []
  | c :: rest =>
    if c = '\n' then [c] :: splitInclusive rest
    else match splitInclusive rest with
      | [] => [[c]]
      | line :: lines => (c :: line) :: lines

/-- `split_lines`; a text that is not empty always has a line. -/
def splitLines (text : Text) : List Text := splitInclusive text

/-- `normalize_newlines`. -/
def normalizeNewlines : Text → Text
  | [] => []
  | '\r' :: '\n' :: rest => '\n' :: normalizeNewlines rest
  | '\r' :: rest => '\n' :: normalizeNewlines rest
  | c :: rest => c :: normalizeNewlines rest

/-- `has_genmf_continuation`: the line ends with a backslash and a newline. -/
def hasGenmfContinuation (line : Text) : Bool := ['\n', '\\'].isPrefixOf line.reverse

/-- A line that is continued, with the next one. -/
def joinContinuation (line next : Text) : Text := line.dropLast.dropLast ++ next

/-- `decode_iso_8859_15` of one byte. -/
def decodeByte (b : UInt8) : Char :=
  match b with
  | 0xa4 => '\u20ac'
  | 0xa6 => '\u0160'
  | 0xa8 => '\u0161'
  | 0xb4 => '\u017d'
  | 0xb8 => '\u017e'
  | 0xbc => '\u0152'
  | 0xbd => '\u0153'
  | 0xbe => '\u0178'
  | b => Char.ofNat b.toNat

/-- `decode_iso_8859_15`. -/
def decodeIso885915 (bytes : Bytes) : Text := bytes.map decodeByte

/-- `unquote_path`. -/
def unquotePath (value : Text) : Text :=
  if 1 < value.length && value.head? = some '"' && value.getLast? = some '"' then
    (value.drop 1).dropLast
  else value

/-! ### Arguments -/

/-- `Argument`: a declared argument. -/
structure Argument where
  default : Option Text
  required : Bool
  multi : Bool
  deriving DecidableEq, Repr

/-- `parse_word`: a word at the beginning of the text, and the text after it. -/
def parseWord : Text → Option (Text × Text)
  | [] => none
  | c :: rest =>
    if isAlphanumeric c then
      some (c :: rest.takeWhile isWordCharacter, rest.dropWhile isWordCharacter)
    else none

/-- A character of a value without quotes. -/
def isValueCharacter (c : Char) : Bool := !isPythonWhitespace c && c ≠ '"'

/-- `parse_optional_value`: a value at the beginning of the text, quotes included, and the text
after it. -/
def parseOptionalValue : Text → Except String (Option Text × Text)
  | [] => .ok (none, [])
  | c :: rest =>
    if isPythonWhitespace c then .ok (none, c :: rest)
    else if c = '"' then
      if rest.contains '"' then
        let quoted := rest.takeWhile (· ≠ '"')
        .ok (some ('"' :: quoted ++ ['"']), rest.drop (quoted.length + 1))
      else .error "unterminated quoted argument value"
    else .ok (some (c :: rest.takeWhile isValueCharacter), rest.dropWhile isValueCharacter)

/-- The default of an argument without its `/A` and `/M` marks; each mark takes two characters. -/
def stripMarks : ℕ → Argument → Argument
  | 0, argument => argument
  | fuel + 1, argument =>
    match argument.default with
    | none => argument
    | some value =>
      if (lit "/A").isSuffixOf value then
        stripMarks fuel { argument with default := some (value.dropLast.dropLast), required := true }
      else if (lit "/M").isSuffixOf value then
        stripMarks fuel { argument with default := some (value.dropLast.dropLast), multi := true }
      else argument

/-- A value without the quotes around it. -/
def unquoteValue (value : Text) : Text :=
  if value.head? = some '"' && 2 ≤ value.length then (value.drop 1).dropLast else value

/-- The arguments of a definition header; each takes at least two characters. -/
def parseArguments : ℕ → BTreeMap Text Argument → Text → Except String (BTreeMap Text Argument)
  | 0, declared, _ => .ok declared
  | fuel + 1, declared, text =>
    let text := trimStart text
    if text = [] then .ok declared
    else
      let invalid := "invalid syntax of argument " ++ toString (declared.len + 1) ++ ": " ++
        shown text
      match parseWord text with
      | none => .error invalid
      | some (name, rest) =>
        if rest.head? ≠ some '=' then .error invalid
        else do
          let (default, rest) ← parseOptionalValue (rest.drop 1)
          let argument := stripMarks (default.elim 0 List.length) ⟨default, false, false⟩
          let argument := { argument with default := argument.default.map unquoteValue }
          parseArguments fuel (declared.insert name argument) rest

/-- `parse_definition_header`: the name of a template, its arguments and the main one. -/
def parseDefinitionHeader (header : Text) :
    Except String (Text × BTreeMap Text Argument × Option Text) :=
  match parseWord (trimStart header) with
  | none => .error "invalid syntax of template name"
  | some (name, rest) =>
    if rest.head?.any fun c => !isPythonWhitespace c then
      .error "template name must be followed by whitespace"
    else do
      let declared ← parseArguments (rest.length + 1) .new rest
      let multi := (declared.entries.filter fun entry => entry.2.multi).map Prod.fst
      if 1 < multi.length then .error "a template can have only one main (/M) argument"
      else .ok (name, declared, multi.head?)

/-- `parse_invocation_argument`: an argument at the beginning of the text, and the text after it. -/
def parseInvocationArgument (text : Text) : Option (Text × Option Text × Text) := do
  let (name, rest) ← parseWord text
  if rest.head? = some '=' then
    let (value, rest) ← (parseOptionalValue (rest.drop 1)).toOption
    some (name, value, rest)
  else none

/-- `drop_final_character`. -/
def dropFinalCharacter (value : Text) : Text := value.dropLast

/-- The loop of `parse_invocation`; each argument takes at least two characters. -/
def parseInvocationLoop (declared : BTreeMap Text Argument) (multiArgument : Option Text) :
    ℕ → BTreeMap Text (Option Text) → Text → Except String (BTreeMap Text (Option Text))
  | 0, values, _ => .ok values
  | fuel + 1, values, text =>
    let rest := trimStart text
    if rest = [] then .ok values
    else
      let remainder : Except String (BTreeMap Text (Option Text)) :=
        match multiArgument with
        | some multiName => .ok (values.insert multiName (some (dropFinalCharacter rest)))
        | none => .error ("syntax error in arguments: " ++ shown rest)
      match parseInvocationArgument rest with
      | some (name, value, after) =>
        if (declared.get name).isSome then
          parseInvocationLoop declared multiArgument fuel
            (values.insert name (some (unquoteValue (value.getD [])))) (trimStart after)
        else remainder
      | none => remainder

/-- `parse_invocation`: the value of every declared argument, absent where none is given. -/
def parseInvocation (declared : BTreeMap Text Argument) (multiArgument : Option Text)
    (argumentText : Text) : Except String (BTreeMap Text (Option Text)) := do
  let values ← parseInvocationLoop declared multiArgument (argumentText.length + 1) .new
    argumentText
  pure (declared.keys.foldl (fun values name => values.alter name fun value => value.getD none)
    values)

/-! ### Placeholders -/

/-- `ArgumentReference`; the places are counted in characters. -/
structure ArgumentReference where
  start : ℕ
  stop : ℕ
  name : Text
  before : Text
  after : Text
  deriving DecidableEq, Repr

/-- The characters before the first `%(`. -/
def findOpening : Text → Option ℕ
  | [] => none
  | c :: rest =>
    if c = '%' && rest.head? = some '(' then some 0 else (findOpening rest).map (· + 1)

/-- `valid_reference_name`. -/
def validReferenceName : Text → Bool
  | [] => false
  | c :: rest => isAlphanumeric c && rest.all isWordCharacter

/-- The part of a text between two places. -/
def slice (text : Text) (start stop : ℕ) : Text := (text.drop start).take (stop - start)

/-- The loop of `find_argument_references`; every round moves the cursor. -/
def argumentReferences (text : Text) (declared : BTreeMap Text Argument) :
    ℕ → ℕ → List ArgumentReference
  | 0, _ => []
  | fuel + 1, cursor =>
    match findOpening (text.drop cursor) with
    | none => []
    | some relative =>
      let opening := cursor + relative
      let nameStart := opening + 2
      let rest := text.drop nameStart
      if !rest.contains ')' then argumentReferences text declared fuel nameStart
      else
        let name := rest.takeWhile (· ≠ ')')
        let close := nameStart + name.length
        if !validReferenceName name then argumentReferences text declared fuel nameStart
        else
          let before :=
            ((slice text cursor opening).reverse.takeWhile substitutionCharacter).reverse
          let after := (text.drop (close + 1)).takeWhile substitutionCharacter
          let start := opening - before.length
          let stop := close + 1 + after.length
          let references := argumentReferences text declared fuel stop
          if (declared.get name).isSome then ⟨start, stop, name, before, after⟩ :: references
          else references

/-- `find_argument_references`. -/
def findArgumentReferences (text : Text) (declared : BTreeMap Text Argument) :
    List ArgumentReference :=
  argumentReferences text declared text.length 0

/-! ### Calls -/

/-- The loop of `find_template_reference`, after the character `previous` and `index` characters;
`none` where the line has no call. -/
def templateReference (isTemplate : Text → Bool) :
    ℕ → Option Char → ℕ → Text → Option (Text × ℕ)
  | 0, _, _, _ => none
  | _ + 1, _, _, [] => none
  | fuel + 1, previous, index, c :: rest =>
    match c, parseWord rest with
    | '%', some (name, after) =>
      let index := index + 1 + name.length
      if after.head?.any fun c => !isPythonWhitespace c then
        templateReference isTemplate fuel name.getLast? index after
      else if previous = some '#' then none
      else if isTemplate name then some (name, index)
      else none
    | _, _ => templateReference isTemplate fuel (some c) (index + 1) rest

/-- `find_template_reference`: the template a line calls, and the characters up to its arguments. -/
def findTemplateReference (isTemplate : Text → Bool) (line : Text) : Option (Text × ℕ) :=
  if line.head? = some '#' then none
  else templateReference isTemplate line.length none 0 line

end Genmf

end ArosTools
