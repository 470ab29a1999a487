import ArosTools.Genmodule.Conf
import Mathlib.Algebra.GroupWithZero.Nat

/-!
# The header of library-call defines

`renderLvo` writes `defines/<name>_LVO.h` and `renderDefines` writes `defines/<name>.h`: the vector
of every public function, a define for every function that is called through registers, and the
variadic form of the functions that have one.

A register name is cut after two bytes. The source slices the text there, and panics where the cut
falls inside a character: `firstTwo` has no value then, and neither has the header.

The characters `{` and `}` are written by their codes in literals.
-/

namespace ArosTools

namespace Genmodule

open Str

/-- `GENERATED_BANNER`. -/
def generatedBanner : Text := lit "/* Auto-generated by AROS genmodule v0.6.11 */"

/-- `str::to_uppercase`, given the upper case of each character. -/
def toUppercase (upperCase : Char → Text) (text : Text) : Text := text.flatMap upperCase

/-- One text for each of the numbers `1` to `n`. -/
def eachNumber (n : ℕ) (f : ℕ → Text) : Text := (List.range n).flatMap fun i => f (i + 1)

/-- The characters that fill exactly `n` bytes at the start of a text. -/
def bytePrefix : ℕ → Text → Option Text
  | 0, _ => some []
  | _ + 1, [] => none
  | n + 1, c :: rest =>
    if c.utf8Size ≤ n + 1 then (bytePrefix (n + 1 - c.utf8Size) rest).map (c :: ·) else none

/-- A register name, cut to its first two bytes. -/
def firstTwo (reg : Text) : Option Text :=
  if (reg.map Char.utf8Size).sum > 2 then bytePrefix 2 reg else some reg

/-- A function without a result. -/
def isVoid (ret : Text) : Bool := ret = lit "void" || ret = lit "VOID"

/-- `format!` with a name padded to twenty columns. -/
def padTwenty (name : Text) : Text := name ++ List.replicate (20 - name.length) ' '

/-- The entries of functions one after the other; there is no text if one of them has none. -/
def concatEntries : List Function → (Function → Option Text) → Option Text
  | [], _ => some []
  | f :: rest, entry => do
    let text ← entry f
    let texts ← concatEntries rest entry
    some (text ++ texts)

/-! ### The vector header -/

/-- The define of one function's vector. -/
def lvoLine (f : Function) : Text :=
  lit "#define LVO" ++ padTwenty f.name ++ lit " " ++ decimal f.lvo ++ lit "\n"

/-- The text of the vector header in front of the functions. -/
def lvoHeader (upperCase : Char → Text) (includeName : Text) : Text :=
  let upper := toUppercase upperCase includeName
  generatedBanner ++ lit "\n#ifndef DEFINES_LVO_" ++ upper ++ lit "_H\n#define DEFINES_LVO_" ++ upper ++
    lit "_H\n\n/*\n    Desc: Function LVO's for " ++ includeName ++ lit "\n*/\n\n"

/-- The text of the vector header behind the functions. -/
def lvoFooter (upperCase : Char → Text) (includeName : Text) : Text :=
  lit "\n#endif /* DEFINES_LVO_" ++ toUppercase upperCase includeName ++ lit "_H */\n"

/-- `render_lvo`: the text of `defines/<name>_LVO.h`. -/
def renderLvo (upperCase : Char → Text) (includeName : Text) (functions : List Function) : Text :=
  lvoHeader upperCase includeName ++
    (functions.flatMap fun f => if f.isPrivate then [] else lvoLine f) ++
    lvoFooter upperCase includeName

/-! ### Register-call defines -/

/-- `DefinesContext`. -/
structure DefinesContext where
  includeName : Text
  libBase : Text
  libBaseTypeExtern : Text
  basename : Text
  firstLvo : ℕ
  majorVersion : ℕ

/-- `ArgumentKind`. -/
inductive ArgumentKind where
  | normal
  | quad
  | double
  deriving DecidableEq, Repr

/-- The kind of an argument: a register pair means that the value occupies two. -/
def Arg.kind (a : Arg) : ArgumentKind :=
  if a.reg.any fun r => '/' ∈ r then
    if trim a.ty = lit "double" then .double else .quad
  else .normal

/-- The name of a run of arguments of one kind. -/
def ArgumentKind.flush : ArgumentKind → ℕ → Text
  | double, run => lit "DOUBLE" ++ decimal run
  | quad, run => lit "QUAD" ++ decimal run
  | normal, run => decimal run

namespace Varargs

/-- The loop of `lc_suffix`, with the current run. -/
def suffixRuns (current : ArgumentKind) (run : ℕ) : List ArgumentKind → Text
  | [] => current.flush run
  | k :: rest =>
    if k = current then suffixRuns current (run + 1) rest
    else current.flush run ++ suffixRuns k 1 rest

/-- `lc_suffix`: the `AROS_LC` variant suffix for one argument list. -/
def lcSuffix (f : Function) : Text :=
  match f.args.map Arg.kind with
  | [] => lit "0"
  | first :: rest => suffixRuns first 0 (first :: rest)

/-- One argument of the library call. -/
def argumentLine (n : ℕ) (a : Arg) : Option Text :=
  let ty := trim a.ty
  let reg := a.reg.getD []
  let value := lit "(__arg" ++ decimal n ++ lit ")"
  match splitOnce '/' reg with
  | some (first, second) => do
    let first ← firstTwo first
    some (lit "         AROS_LCA2(" ++ ty ++ lit ", " ++ value ++ lit ", " ++ first ++ lit ", " ++
      second ++ lit "), \\\n")
  | none => do
    let reg ← firstTwo reg
    some (lit "         AROS_LCA(" ++ ty ++ lit ", " ++ value ++ lit ", " ++ reg ++ lit "), \\\n")

/-- The arguments of the library call, counted from `n`. -/
def argumentLines (n : ℕ) : List Arg → Option Text
  | [] => some []
  | a :: args => do
    let line ← argumentLine n a
    let rest ← argumentLines (n + 1) args
    some (line ++ rest)

/-- The library version a caller of the function has to open. -/
def requiredVersion (cx : DefinesContext) (functions : List Function) (f : Function) : ℕ :=
  f.declaredVersion.getD
    (if functions.any fun g => g.declaredVersion.isSome then 0 else cx.majorVersion)

/-- The define of one register-call function. -/
def registerDefine (upperCase : Char → Text) (cx : DefinesContext) (functions : List Function)
    (f : Function) : Option Text := do
  let upper := toUppercase upperCase cx.includeName
  let version := decimal (requiredVersion cx functions f)
  let ret := trim f.retType
  let arguments ← argumentLines 1 f.args
  some (lit "\n#if !defined(__" ++ upper ++ lit "_LIBAPI__) || (" ++ version ++ lit " <= __" ++ upper ++
    lit "_LIBAPI__)\n" ++
    -- The write-back form takes the base as its first argument.
    lit "\n#define __" ++ f.name ++ lit "_WB(__" ++ cx.libBase ++
    eachNumber f.args.length (fun i => lit ", __arg" ++ decimal i) ++ lit ") (\x7b\\\n" ++
    lit "        AROS_LIBREQ(" ++ cx.libBase ++ lit "," ++ version ++ lit ")\\\n        " ++
    lit "AROS_LC" ++ lcSuffix f ++ (if isVoid ret then lit "NR" else []) ++ lit "(" ++ ret ++
    lit ", " ++ f.name ++ lit ",\\\n" ++ arguments ++ lit "        " ++ cx.libBaseTypeExtern ++
    lit ", " ++ lit "(__" ++ cx.libBase ++ lit ")" ++ lit ", " ++ decimal f.lvo ++ lit ", " ++
    cx.basename ++ lit ");" ++ lit "\\\n\x7d)\n\n#define " ++ f.name ++ lit "(" ++
    eachNumber f.args.length (fun i => (if i > 1 then lit ", " else []) ++ lit "arg" ++ decimal i) ++
    lit ") \\\n    __" ++ f.name ++ lit "_WB(__" ++ upper ++ lit "_LIBBASE" ++
    eachNumber f.args.length (fun i => lit ", (arg" ++ decimal i ++ lit ")") ++ lit ")\n" ++
    (f.aliases.flatMap fun other => lit "#define " ++ other ++ lit " " ++ f.name ++ lit "\n") ++
    lit "\n#endif /* !defined(__" ++ upper ++ lit "_LIBAPI__) || (" ++ version ++ lit " <= __" ++ upper ++
    lit "_LIBAPI__) */\n")

/-- The define of a function's vector. -/
def lvoDefine (f : Function) : Text :=
  lit "#define LVO" ++ f.name ++ lit "          " ++ decimal f.lvo ++ lit "\n"

/-- The defines of the functions that are not private, not stack-call and not below the module's
first vector. -/
def registerDefines (upperCase : Char → Text) (cx : DefinesContext) (functions : List Function) :
    Option Text :=
  concatEntries functions fun f =>
    let belowFirstLvo := decide (f.lvo < cx.firstLvo)
    if f.isPrivate || f.stackCall || belowFirstLvo then some []
    else registerDefine upperCase cx functions f

/-- `render_register_defines`. -/
def renderRegisterDefines (upperCase : Char → Text) (cx : DefinesContext)
    (functions : List Function) : Option Text := do
  let vectors := functions.flatMap fun f => if f.isPrivate then [] else lvoDefine f
  let entries ← registerDefines upperCase cx functions
  some (vectors ++ entries)

end Varargs

/-! ### Variadic forms -/

/-- `VarargKind`. -/
inductive VarargKind where
  | tagList
  | vaList
  | rawArg
  deriving DecidableEq, Repr

/-- The name of a kind in a message. -/
def VarargKind.debug : VarargKind → Text
  | tagList => lit "TagList"
  | vaList => lit "VaList"
  | rawArg => lit "RawArg"

/-- `to_ascii_lowercase`. -/
def asciiLowercase (text : Text) : Text :=
  text.map fun c => if 'A' ≤ c ∧ c ≤ 'Z' then Char.ofNat (c.toNat + 0x20) else c

/-- A type that is a pointer to a tag list, optionally const-qualified. -/
def isTagListType (ty : Text) : Bool :=
  let t := trimStart ty
  let t := (stripPrefix (lit "const") t).elim t trimStart
  match (stripPrefix (lit "struct") t).bind fun rest =>
      stripPrefix (lit "TagItem") (trimStart rest) with
  | some rest => startsWith (lit "*") (trimStart rest)
  | none => false

/-- The last cases of `vararg_form`: a `V` in front of the name, and a trailing tag list. -/
def varargTail (f : Function) (last : Arg) (lastIsRawarg : Bool) : Option (Text × VarargKind) :=
  let tags := if isTagListType last.ty then some (f.name ++ lit "Tags", .tagList) else none
  match stripPrefix (lit "V") f.name with
  | some stem =>
    if startsWith (lit "va_list") (trimStart last.decl) then some (stem, .vaList)
    else if lastIsRawarg then some (stem, .rawArg)
    else tags
  | none => tags

/-- `vararg_form`: the variadic name and kind of a function, if it has one. -/
def varargForm (f : Function) : Option (Text × VarargKind) :=
  if f.isPrivate || f.novararg then none
  else match f.args.getLast? with
    | none => none
    | some last =>
      let lastIsRawarg := startsWith (lit "RAWARG") (trimStart last.decl)
      match stripSuffix (lit "A") f.name with
      | some stem =>
        if stem = [] then none else some (stem, if lastIsRawarg then .rawArg else .tagList)
      | none =>
        match stripSuffix (lit "TagList") f.name with
        | some stem => some (stem ++ lit "Tags", .tagList)
        | none =>
          match stripSuffix (lit "Args") f.name with
          | some stem =>
            if asciiLowercase last.name = lit "args" ∨ asciiLowercase last.name = lit "arglist" then
              some (stem, .tagList)
            else varargTail f last lastIsRawarg
          | none => varargTail f last lastIsRawarg

/-- The texts joined by a separator. -/
def joined (separator : Text) (texts : List Text) : Text := separator.intercalate texts

/-- `render_taglist_stub`: the tag-list stub for one function. -/
def renderTaglistStub (f : Function) (varargName modUpper : Text) : Text :=
  let fixed := f.args.length - 1
  let lastType := (f.args.getLast?.map Arg.ty).getD []
  let call := (List.range fixed).map (fun i => lit "(arg" ++ decimal (i + 1) ++ lit ")") ++
    [lit "(" ++ trimEnd lastType ++ lit ")(" ++ f.name ++ lit "_args)"]
  lit "\n#if !defined(NO_INLINE_STDARG) && !defined(" ++ modUpper ++ lit "_NO_INLINE_STDARG)\n" ++
    lit "#define " ++ varargName ++ lit "(" ++ eachNumber fixed (fun i => lit "arg" ++ decimal i ++ lit ", ") ++
    lit "...) \\\n(\x7b \\\n    const IPTR " ++ f.name ++
    lit "_args[] = \x7b AROS_PP_VARIADIC_CAST2IPTR(__VA_ARGS__) \x7d;\\\n    " ++ f.name ++ lit "(" ++
    joined (lit ", ") call ++ lit "); \\\n\x7d)\n#endif /* !NO_INLINE_STDARG */\n"

/-- `render_rawarg_stub`: the formatting wrapper of one function. -/
def renderRawargStub (f : Function) (varargName : Text) (cx : DefinesContext) (modUpper : Text) :
    Option Text :=
  let fixed := f.args.dropLast
  if fixed = [] then none
  else
    let format := decimal fixed.length
    let ret := trim f.retType
    let inlineName := lit "__inline_" ++ cx.basename ++ lit "_" ++ varargName
    let named := fixed.length - 1
    some (lit "\n#if !defined(NO_INLINE_STDARG) && !defined(" ++ modUpper ++ lit "_NO_INLINE_STDARG)\n" ++
      lit "static inline " ++ ret ++ lit " " ++ inlineName ++ lit "(" ++ cx.libBaseTypeExtern ++ lit " __" ++
      cx.libBase ++
      ((fixed.zipIdx 1).flatMap fun p => lit ", " ++ trim p.1.ty ++ lit " __arg" ++ decimal p.2) ++
      lit ", ...)\n\x7b\n" ++ (if isVoid ret then [] else lit "    " ++ ret ++ lit " retval;\n\n") ++
      lit "    AROS_SLOWSTACKFORMAT_PRE(__arg" ++ format ++ lit ");\n    " ++
      (if isVoid ret then [] else lit "retval = ") ++ lit "__" ++ f.name ++ lit "_WB(__" ++ cx.libBase ++
      eachNumber fixed.length (fun i => lit ", __arg" ++ decimal i) ++
      lit ", AROS_SLOWSTACKFORMAT_ARG(__arg" ++ format ++ lit "));\n" ++
      lit "    AROS_SLOWSTACKFORMAT_POST(__arg" ++ format ++ lit ");\n    return" ++
      (if isVoid ret then [] else lit " retval") ++ lit ";\n\x7d\n\n" ++
      lit "#define " ++ varargName ++ lit "(" ++ eachNumber named (fun i => lit "arg" ++ decimal i ++ lit ", ") ++
      lit "...) \\\n    " ++ inlineName ++ lit "((" ++ cx.libBaseTypeExtern ++ lit ")__" ++ modUpper ++
      lit "_LIBBASE, " ++ eachNumber named (fun i => lit "(arg" ++ decimal i ++ lit "), ") ++
      lit "__VA_ARGS__)\n#endif /* !NO_INLINE_STDARG */\n")

/-- `DefinesOutput`. -/
structure DefinesOutput where
  text : Text
  /-- Functions whose variadic form is of a kind that is not generated. -/
  unsupported : List Text

/-- The variadic form of one function: its text, or a message. -/
def varargEntry (cx : DefinesContext) (upper : Text) (f : Function) : Text × List Text :=
  match varargForm f with
  | none => ([], [])
  | some (varargName, kind) =>
    let unsupported := [cx.includeName ++ lit ": " ++ f.name ++ lit " (" ++ kind.debug ++ lit ")"]
    match kind with
    | .tagList => (renderTaglistStub f varargName upper, [])
    | .rawArg =>
      if !f.stackCall && decide (cx.firstLvo ≤ f.lvo) then
        match renderRawargStub f varargName cx upper with
        | some stub => (stub, [])
        | none => ([], unsupported)
      else ([], unsupported)
    | .vaList => ([], unsupported)

/-- The text of the define header in front of the functions. -/
def definesHeader (upper libBase : Text) : Text :=
  generatedBanner ++ lit "\n#ifndef DEFINES_" ++ upper ++ lit "_H\n#define DEFINES_" ++ upper ++
    lit "_H\n\n#include <aros/libcall.h>\n#include <exec/types.h>\n#include <aros/symbolsets.h>\n" ++
    lit "#include <aros/preprocessor/variadic/cast2iptr.hpp>\n\n#if !defined(__" ++ upper ++
    lit "_LIBBASE)\n#    define __" ++ upper ++ lit "_LIBBASE " ++ libBase ++
    lit "\n#endif\n\n__BEGIN_DECLS\n"

/-- `render_defines`: the text of `defines/<module>.h`. -/
def renderDefines (upperCase : Char → Text) (cx : DefinesContext) (functions : List Function) :
    Option DefinesOutput := do
  let upper := toUppercase upperCase cx.includeName
  let defines ← Varargs.renderRegisterDefines upperCase cx functions
  let varargs := functions.map (varargEntry cx upper)
  some ⟨definesHeader upper cx.libBase ++ defines ++ varargs.flatMap Prod.fst ++
      lit "\n__END_DECLS\n\n#endif /* DEFINES_" ++ upper ++ lit "_H */\n",
    varargs.flatMap Prod.snd⟩

/-- `public_include_name`. -/
def publicIncludeName (m : ConfModule) : Text := if m.includeName = [] then m.name else m.includeName

/-- The context that `generate_sdk_headers` renders the defines in. -/
def definesContext (m : ConfModule) : DefinesContext :=
  ⟨publicIncludeName m, m.libBase, externBaseType m, m.baseName, m.firstVector, m.majorVersion⟩

end Genmodule

end ArosTools
