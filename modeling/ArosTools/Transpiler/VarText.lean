import ArosTools.Program.Utf8Text
import Mathlib.Data.List.MinMax

/-!
# The text of Make variable assignments

What the variable collector reads off a single line or value: assignments and their operators,
comments, directives, the operands of a condition, and the references in a value.

* `variableAssignment`, `undefineDirective`, `makeDefineDirective` — lines;
* `equalityOperands` — the operands of `ifeq`;
* `pieces` — a value cut at its references, with the closing delimiters as the source matches them.
-/

namespace ArosTools

namespace MakeVars

open Str

/-! ### Names -/

/-- A character of a variable name. -/
def isNameCharacter (c : Char) : Bool := c.isAlphanum || c = '_' || c = '-'

/-- `is_scoped_variable_name`. -/
def isScopedVariableName (name : Text) : Bool := name ≠ [] && name.all isNameCharacter

/-! ### Assignments -/

inductive AssignmentKind where
  | simpleSet
  | recursiveSet
  | setIfUnset
  | append
  | undefine
  deriving DecidableEq, Repr

/-- What stands before and after the first occurrence of a text (`str::find`). -/
def cutAt (needle : Text) : Text → Option (Text × Text)
  | [] => if needle = [] then some ([], []) else none
  | c :: rest =>
    if startsWith needle (c :: rest) then some ([], (c :: rest).drop needle.length)
    else (cutAt needle rest).map fun parts => (c :: parts.1, parts.2)

/-- The assignment operators in the order `variable_assignment` tries them. -/
def assignmentOperators : List (Text × AssignmentKind) :=
  [(lit "::=", .simpleSet), (lit ":=", .simpleSet), (lit "+=", .append), (lit "?=", .setIfUnset),
    (lit "=", .recursiveSet)]

/-- `variable_assignment`: the operator that stands first decides. -/
def variableAssignment (line : Text) : Option (Text × Text × AssignmentKind) :=
  let trimmed := trim line
  let found := assignmentOperators.filterMap fun (op, kind) =>
    (cutAt op trimmed).map fun parts => (parts.1, parts.2, kind)
  match found.argmin fun cut => cut.1.length with
  | none => none
  | some (before, after, kind) =>
    let name := trim before
    if isScopedVariableName name then some (name, trim after, kind) else none

/-- The line up to an unescaped `#`; the flag says whether an odd run of backslashes stands before
the text. -/
def stripCommentFrom : Bool → Text → Text
  | _, [] => []
  | escaped, c :: rest =>
    if c = '#' && !escaped then [] else c :: stripCommentFrom (c = '\\' && !escaped) rest

/-- `strip_make_comment`. -/
def stripMakeComment (line : Text) : Text := stripCommentFrom false line

/-- `directive_tail`. -/
def directiveTail (line word : Text) : Option Text :=
  match stripPrefix word line with
  | none => none
  | some tail =>
    if tail.head?.all fun c => isWhitespace c || c = '(' then some (trim tail) else none

/-- `undefine_directive`. -/
def undefineDirective (line : Text) : Except Unit (Option Text) :=
  let trimmed := trim (stripMakeComment line)
  if (variableAssignment trimmed).isSome then .ok none
  else match directiveTail trimmed (lit "undefine") with
    | none => .ok none
    | some tail => if isScopedVariableName (trim tail) then .ok (some (trim tail)) else .error ()

/-! ### Definitions -/

/-- The two pieces of `splitn(2, char::is_whitespace)`; an absent second piece is empty. -/
def splitWord (text : Text) : Text × Text :=
  (text.takeWhile fun c => !isWhitespace c, (text.dropWhile fun c => !isWhitespace c).drop 1)

/-- A modifier in front of `define`. -/
def isModifier (word : Text) : Bool :=
  word = lit "override" || word = lit "export" || word = lit "private"

/-- The directive word after at most the given number of modifiers, its arguments, and how many
modifiers may still follow. -/
def skipModifiers : ℕ → Text → Text → Text × Text × ℕ
  | 0, word, rest => (word, rest, 0)
  | allowed + 1, word, rest =>
    if isModifier word then
      let (word, rest) := splitWord rest
      skipModifiers allowed word (trim rest)
    else (word, rest, allowed + 1)

/-- `make_define_directive`: `define` (true) or `endef` (false), with its arguments. -/
def makeDefineDirective (line : Text) : Option (Bool × Text) :=
  let line := trimStart (stripMakeComment (trimStart line))
  let (first, tail) := splitWord line
  let (word, rest, allowed) := skipModifiers 3 first (trim tail)
  if word = lit "define" then some (true, rest)
  else if word = lit "endef" then some (false, rest)
  -- More than the three known modifiers opens a definition without a name.
  else if allowed = 0 && isModifier word then some (true, [])
  else none

/-- `define_variable_name`. -/
def defineVariableName (arguments : Text) : Option Text :=
  let arguments := trim arguments
  let name := ((variableAssignment arguments).map (·.1)).getD arguments
  if isScopedVariableName name then some name else none

/-- `is_make_error_directive`. -/
def isMakeErrorDirective (line : Text) : Bool :=
  let line := trim line
  match stripPrefix (lit "$(error") line with
  | none => false
  | some rest =>
    rest.head?.any (fun c => c = ' ' || c = '\t' || c = ')') && line.getLast? = some ')'

/-! ### Operands of a condition -/

/-- A quote. -/
def isQuote (c : Char) : Bool := c = '\x27' || c = '\x22'

/-- `split_top_level_comma`, with the open parentheses, the open braces and the open quote. -/
def splitCommaFrom (parens braces : ℕ) (quote : Option Char) : Text → Option (Text × Text)
  | [] => none
  | c :: rest =>
    let next (parens braces : ℕ) (quote : Option Char) :=
      (splitCommaFrom parens braces quote rest).map fun parts => (c :: parts.1, parts.2)
    match quote with
    | some delimiter => next parens braces (if c = delimiter then none else quote)
    | none =>
      if isQuote c then next parens braces (some c)
      else if c = '(' then next (parens + 1) braces none
      else if c = ')' then next (parens - 1) braces none
      else if c = '\x7b' then next parens (braces + 1) none
      else if c = '\x7d' then next parens (braces - 1) none
      else if c = ',' && parens = 0 && braces = 0 then some ([], rest)
      else next parens braces none

/-- `split_top_level_comma`. -/
def splitTopLevelComma (raw : Text) : Option (Text × Text) := splitCommaFrom 0 0 none raw

/-- `take_condition_word`. -/
def takeConditionWord (raw : Text) : Option (Text × Text) :=
  match trimStart raw with
  | [] => none
  | first :: rest =>
    if isQuote first then
      (splitOnce first rest).map fun parts => (first :: parts.1 ++ [first], parts.2)
    else some ((first :: rest).takeWhile fun c => !isWhitespace c,
      (first :: rest).dropWhile fun c => !isWhitespace c)

/-- `unquote_condition_value`. -/
def unquoteConditionValue (raw : Text) : Text :=
  let raw := trim raw
  match raw with
  | first :: next :: rest =>
    if isQuote first && (next :: rest).getLast? = some first then (next :: rest).dropLast else raw
  | _ => raw

/-- `equality_operands`. -/
def equalityOperands (raw : Text) : Option (Text × Text) :=
  let raw := trim raw
  if raw.head? = some '(' && raw.getLast? = some ')' then
    splitTopLevelComma (raw.drop 1).dropLast
  else do
    let (left, rest) ← takeConditionWord raw
    let (right, trailing) ← takeConditionWord rest
    if trim trailing = [] then some (unquoteConditionValue left, unquoteConditionValue right)
    else none

/-- `condition_pattern_matches`. -/
def conditionPatternMatches (pattern word : Text) : Bool :=
  match splitOnce '%' pattern with
  | none => pattern = word
  | some (start, stop) =>
    len start + len stop ≤ len word && startsWith start word && stop.isSuffixOf word

/-! ### References -/

/-- The delimiter that closes a reference. -/
def closerOf (opener : Char) : Option Char :=
  if opener = '(' then some ')' else if opener = '\x7b' then some '\x7d' else none

/-- The body of a reference and what follows it, for the closing delimiters still expected.
`nested` tells which openers after a `$` are followed inside the reference. -/
def closeReference (nested : Char → Option Char) : List Char → Text → Option (Text × Text)
  | _, [] => none
  | expected, [c] => if expected = [c] then some ([], []) else none
  | expected, c :: d :: rest =>
    match if c = '$' then nested d else none with
    | some closer =>
      (closeReference nested (closer :: expected) rest).map fun parts => (c :: d :: parts.1, parts.2)
    | none =>
      if expected.head? = some c then
        if expected.tail = [] then some ([], d :: rest)
        else (closeReference nested expected.tail (d :: rest)).map fun parts =>
          (c :: parts.1, parts.2)
      else (closeReference nested expected (d :: rest)).map fun parts => (c :: parts.1, parts.2)

/-- What the loops over a value meet. -/
inductive Piece where
  /-- a character other than `$` -/
  | char (c : Char)
  /-- `$$` -/
  | escape
  /-- a `$` that starts no reference -/
  | stray
  | reference (opener : Char) (body : Text)
  /-- a reference that is not closed, with all that follows its `$` -/
  | unclosed (rest : Text)
  deriving DecidableEq, Repr

/-- The loop of `pieces`; every step takes at least one character. -/
def piecesFrom (nested : Char → Char → Option Char) : ℕ → Text → List Piece
  | 0, _ => []
  | _ + 1, [] => []
  | fuel + 1, c :: rest =>
    if c ≠ '$' then .char c :: piecesFrom nested fuel rest
    else match rest with
      | [] => [.stray]
      | next :: after =>
        if next = '$' then .escape :: piecesFrom nested fuel after
        else match closerOf next with
          | none => .stray :: piecesFrom nested fuel rest
          | some closer =>
            match closeReference (nested next) [closer] after with
            | none => [.unclosed rest]
            | some (body, following) => .reference next body :: piecesFrom nested fuel following

/-- A value cut where `expand_immediate_locals_impl` and `expand_condition_operand` stop: a
reference ends at the closing delimiter of its own kind, and only openers of that kind nest. -/
def pieces (value : Text) : List Piece :=
  piecesFrom (fun opener c => if c = opener then closerOf c else none) value.length value

/-- A value cut where `scoped_variable_references` stops: openers of both kinds nest. -/
def mixedPieces (value : Text) : List Piece := piecesFrom (fun _ c => closerOf c) value.length value

/-- `scalar_references`. -/
def scalarReferences (value : Text) : List Text :=
  value.tails.filterMap fun
    | '$' :: opener :: rest =>
      (closerOf opener).bind fun closer => (splitOnce closer rest).map (·.1)
    | _ => none

/-- The names that `collect` in `scoped_variable_references` pushes. -/
def collectReferences : ℕ → Text → List Text
  | 0, _ => []
  | depth + 1, value =>
    (mixedPieces value).flatMap fun
      | .reference _ raw =>
        let body := trim raw
        if isScopedVariableName body then [body]
        else match splitOnce ':' body with
          | none => collectReferences depth body
          | some (name, suffix) =>
            if isScopedVariableName (trim name) then trim name :: collectReferences depth suffix
            else collectReferences depth body
      | _ => []

/-! ### List items -/

/-- `keep_list_item`. -/
def keepListItem (s : Text) : Bool :=
  if s = [] || s.contains ',' then false
  else if startsWith (lit "$(") s && s.getLast? = some ')' &&
      !((s.drop 2).dropLast).contains ')' then true
  else !s.contains '$' && !s.contains ')'

/-- The list that an assignment stores for a value. -/
def listValues (expanded : Text) : List Text :=
  (((splitWhitespace expanded).filter (· ≠ ['\\'])).map fun item =>
    trim (item.filter fun c => c ≠ '\x22' && c ≠ '\\')).filter keepListItem

end MakeVars

end ArosTools
