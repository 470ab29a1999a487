import ArosTools.Transpiler.GenmfText

/-!
# Reading macro arguments without templates

The parser of `mmakefile.src` reads the arguments of a macro call from its text, with no template
at hand: `macroArg` searches for a key and reads its value, `macroArgumentNames` lists the keywords
that stand at the top level of the text.

`macroArgumentNames` scans bytes; since everything it looks for is ASCII, it is the same scan over
characters. A `$(` opens a reference; its parenthesis means nothing by itself, so the scan does not
have to skip it.
-/

namespace ArosTools

namespace Genmf

/-- `macro_arg`, from a place after the character `previous`. A key is never empty. -/
def macroArgFrom (key : Text) : Option Char → Text → Option Text
  | _, [] => none
  | previous, c :: rest =>
    if previous.all isWhitespace && key.isPrefixOf (c :: rest) then
      match (c :: rest).drop key.length with
      | '=' :: '"' :: value =>
        if value.contains '"' then some (value.takeWhile (· ≠ '"')) else none
      | '=' :: value =>
        if value.takeWhile (fun c => !isWhitespace c) = [] then macroArgFrom key (some c) rest
        else some (value.takeWhile fun c => !isWhitespace c)
      | _ => macroArgFrom key (some c) rest
    else macroArgFrom key (some c) rest

/-- `macro_arg`. -/
def macroArg (args key : Text) : Option Text := macroArgFrom key none args

/-- `is_ascii_whitespace`. -/
def isAsciiWhitespace (c : Char) : Bool :=
  c = ' ' || c = '\t' || c = '\n' || c.toNat = 0x0c || c = '\r'

/-- A character a keyword begins with. -/
def isNameStart (c : Char) : Bool :=
  ('A' ≤ c && c ≤ 'Z') || ('a' ≤ c && c ≤ 'z') || c = '_'

/-- The variables of `macro_argument_names`: the quote that is open, the references that are open,
whether a word may begin, and the word that is being read. -/
structure NameScan where
  quote : Option Char
  makeDepth : ℕ
  wordBoundary : Bool
  word : Option Text
  deriving DecidableEq, Repr

/-- One character outside a word, with the one after it. -/
def NameScan.step (s : NameScan) (c : Char) (next : Option Char) : NameScan :=
  match s.quote with
  | some delimiter => { s with quote := if c = delimiter then none else some delimiter, word := none }
  | none =>
    if c = '\'' || c = '"' then { s with quote := some c, wordBoundary := false, word := none }
    else if c = '$' && next = some '(' then
      { s with makeDepth := s.makeDepth + 1, wordBoundary := false, word := none }
    else if c = ')' && 0 < s.makeDepth then { s with makeDepth := s.makeDepth - 1, word := none }
    else if s.makeDepth = 0 && isAsciiWhitespace c then { s with wordBoundary := true, word := none }
    else if s.makeDepth = 0 && s.wordBoundary && isNameStart c then
      { s with wordBoundary := false, word := some [c] }
    else { s with wordBoundary := false, word := none }

/-- The loop of `macro_argument_names`. -/
def argumentNames : NameScan → Text → List Text
  | _, [] => []
  | s, c :: rest =>
    match s.word with
    | some word =>
      if isWordCharacter c then argumentNames { s with word := some (word ++ [c]) } rest
      else if c = '=' then word :: argumentNames (s.step c rest.head?) rest
      else argumentNames (s.step c rest.head?) rest
    | none => argumentNames (s.step c rest.head?) rest

/-- `macro_argument_names`. -/
def macroArgumentNames (args : Text) : List Text := argumentNames ⟨none, 0, true, none⟩ args

example : macroArgumentNames (lit
    "mmake=x extraoptions=\"-DFOO=yes INNER=no\" srcdir=$(if $(COND),A=B,C=D) prefix=x") =
    [lit "mmake", lit "extraoptions", lit "srcdir", lit "prefix"] := by decide

end Genmf

end ArosTools
