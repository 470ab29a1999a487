import ArosTools.Program.Text

/-!
# Function declarations of a module configuration

One line of a `##begin functionlist` section declares a function: its return type and name, its
arguments, and an optional second group that names the register of each argument
(`parseFunctionLine`). A declaration without such a group is called through the stack.

`firstLvo` is the first library vector of a module type; the vectors below it belong to the module
skeleton.
-/

namespace ArosTools

namespace Genmodule

open Str

/-- `Arg`: one parameter of a function declaration. -/
structure Arg where
  decl : Text
  ty : Text
  name : Text
  /-- The register the argument arrives in, `D0`, or `D0/D1` for a value that occupies two. -/
  reg : Option Text
  deriving DecidableEq, Repr

/-- `Function`: a function from a `##begin functionlist` section. -/
structure Function where
  name : Text
  retType : Text
  args : List Arg
  /-- Marked `.private`. -/
  isPrivate : Bool
  /-- Marked `.novararg`. -/
  novararg : Bool
  /-- Library vector offset. -/
  lvo : ℕ
  /-- The declaration carries no register specification. -/
  stackCall : Bool
  /-- The `.version` in force at the declaration. -/
  declaredVersion : Option ℕ
  /-- `.alias` entries, in declaration order. -/
  aliases : List Text
  deriving DecidableEq, Repr

/-- `first_lvo`: the first library vector offset for a module type. -/
def firstLvo (modType : Text) (noresident : Bool) : ℕ :=
  if noresident then 1
  else if modType = lit "handler" ∨ modType = lit "resource" then 1
  else if modType = lit "datatype" ∨ modType = lit "mcc" ∨ modType = lit "mui" ∨
      modType = lit "mcp" then 6
  else if modType = lit "device" then 7
  else 5

theorem firstLvo_noresident_le (modType : Text) (noresident : Bool) :
    firstLvo modType true ≤ firstLvo modType noresident := by
  rw [firstLvo, if_pos rfl]
  unfold firstLvo
  split_ifs <;> omega

theorem firstLvo_lt (modType : Text) (noresident : Bool) : firstLvo modType noresident < 2 ^ 32 := by
  unfold firstLvo
  split_ifs <;> omega

/-! ### Reading a declaration -/

/-- The backward scan of `split_decl` stops here. -/
def endsType (c : Char) : Bool := isAsciiWhitespace c || c = '*'

/-- `split_decl`: a declaration as its type and its name. -/
def splitDecl (decl : Text) : Option (Text × Text) :=
  let d := trimEnd decl
  let ty := d.rdropWhile (!endsType ·)
  let name := d.rtakeWhile (!endsType ·)
  -- No name, for example `void` or a bare type.
  if ty = [] ∨ name = [] then none else some (ty, name)

/-- A trimmed piece, unless it is empty. -/
def keepPiece (piece : Text) : List Text := if trim piece = [] then [] else [trim piece]

/-- The loop of `split_args`, with the nesting depth and the current piece. -/
def splitArgsFrom (depth : ℤ) (cur : Text) : Text → List Text
  | [] => keepPiece cur
  | c :: rest =>
    if c = '(' then splitArgsFrom (depth + 1) (cur ++ [c]) rest
    else if c = ')' then splitArgsFrom (depth - 1) (cur ++ [c]) rest
    else if c = ',' ∧ depth = 0 then keepPiece cur ++ splitArgsFrom depth [] rest
    else splitArgsFrom depth (cur ++ [c]) rest

/-- `split_args`: an argument list at the commas of nesting depth zero. -/
def splitArgs (list : Text) : List Text := splitArgsFrom 0 [] list

/-- The text up to the parenthesis that closes the current group, and the text after it; the
group is `depth` levels inside the one that is wanted. -/
def closeGroup (depth : ℕ) : Text → Option (Text × Text)
  | [] => none
  | c :: rest =>
    let push := Option.map fun p : Text × Text => (c :: p.1, p.2)
    if c = '(' then push (closeGroup (depth + 1) rest)
    else if c = ')' then
      match depth with
      | 0 => some ([], rest)
      | depth + 1 => push (closeGroup depth rest)
    else push (closeGroup depth rest)

/-- One parameter. It may be unnamed; it just cannot be referenced. -/
def parseArg (decl : Text) : Arg :=
  match splitDecl decl with
  | some (ty, name) => ⟨decl, ty, name, none⟩
  | none => ⟨decl, decl, [], none⟩

/-- The text between the parenthesis that opens the register group and the last one that closes
it. -/
def registerGroup (tail : Text) : Text :=
  match stripPrefix (lit "(") tail with
  | none => []
  | some t => if ')' ∈ t then (t.rdropWhile (· ≠ ')')).dropLast else []

/-- The registers, position by position. An argument past the end of a short list keeps none. -/
def assignRegisters : List Arg → List Text → List Arg
  | arg :: args, reg :: regs =>
    (if trim reg = [] then arg else { arg with reg := some (trim reg) }) ::
      assignRegisters args regs
  | args, _ => args

/-- `parse_function_line`: one entry of a function list. -/
def parseFunctionLine (line : Text) : Option Function :=
  let code := trim (line.takeWhile (· ≠ '#'))
  if code = [] ∨ startsWith (lit ".") code then none
  else do
    let (head, after) ← splitOnce '(' code
    let (inside, rest) ← closeGroup 0 after
    let (retType, name) ← splitDecl head
    let argText := trim inside
    let args := if argText = [] ∨ argText = lit "void" then [] else (splitArgs argText).map parseArg
    let tail := trimStart rest
    let stackCall := !startsWith (lit "(") tail
    let args := if stackCall then args
      else assignRegisters args (split (· = ',') (registerGroup tail))
    -- The vector and the version are assigned by the caller, which tracks them.
    some ⟨name, retType, args, false, false, 0, stackCall, none, []⟩

example : (parseFunctionLine (lit "APTR AllocMem(IPTR byteSize, ULONG requirements) (D0, D1)")).map
    (fun f => (f.name, f.stackCall, f.args.map Arg.reg)) =
      some (lit "AllocMem", false, [some (lit "D0"), some (lit "D1")]) := by
  decide

end Genmodule

end ArosTools
