import ArosTools.Genmodule.Defines

/-!
# The link library of a module

`sources` writes the C files of a module's link library: a stub file for every function that is
called through the stack (`stackStub`), one file for all that are called through registers
(`regcallStubs`), and the files that open the library and return its base. A stub reaches the
function through the library base and the function's vector.
-/

namespace ArosTools

namespace Genmodule

namespace Linklib

open Str

/-- `ModuleFacts`. -/
structure ModuleFacts where
  name : Text
  includeName : Text
  libBase : Text
  libBaseTypeExtern : Text
  basename : Text
  suffix : Text
  noIncludes : Bool
  cdefPrivate : Text
  majorVersion : ℕ
  forceBases : List Text
  startupLines : Text

/-- `banner`. -/
def banner (m : ModuleFacts) : Text :=
  lit "/*\n    *** Automatically generated from '" ++ m.name ++ lit ".conf'. Edits will be lost. ***\n*/\n"

/-- `resolved_version`. -/
def resolvedVersion (m : ModuleFacts) (funcs : List Function) (f : Function) : ℕ :=
  match f.declaredVersion with
  | some version => version
  | none => if funcs.any fun g => g.declaredVersion.isSome then 0 else m.majorVersion

/-- `stub_header`: the header block shared by every stub file. -/
def stubHeader (upperCase : Char → Text) (m : ModuleFacts) (isRel : Bool) : Text :=
  let up := toUppercase upperCase m.includeName
  banner m ++
    lit "#ifdef  NOLIBINLINE\n#undef  NOLIBINLINE\n#endif  /* NOLIBINLINE */\n" ++
    lit "#ifdef  NOLIBDEFINES\n#undef  NOLIBDEFINES\n#endif  /* NOLIBDEFINES */\n" ++
    lit "#define NOLIBINLINE\n#define NOLIBDEFINES\n" ++
    (if isRel then
      lit "char *__aros_getoffsettable(void);\n#ifndef __" ++ up ++
        lit "_NOLIBBASE__\n/* Do not include the libbase */\n#define __" ++ up ++
        lit "_NOLIBBASE__\n#endif\n"
    else
      lit "/* Be sure that the libbases are included in the stubs file */\n" ++
        lit "#ifdef  __NOLIBBASE__\n#undef  __NOLIBBASE__\n#endif  /* __NOLIBBASE__ */\n#ifdef  __" ++ up ++
        lit "_NOLIBBASE__\n#undef  __" ++ up ++ lit "_NOLIBBASE__\n#endif  /* __" ++ up ++
        lit "_NOLIBBASE__ */\n") ++
    (if m.noIncludes then
      lit "#include <exec/types.h>\n#include <aros/system.h>\n\n" ++
        (if trim m.cdefPrivate = [] then [] else trimEnd m.cdefPrivate ++ lit "\n") ++
        lit "\n" ++ m.libBaseTypeExtern ++ lit "__aros_getbase_" ++ m.libBase ++ lit "(void);\n\n"
    else
      (if isRel then lit "#define __" ++ up ++ lit "_RELLIBBASE__\n" else []) ++
        lit "#include <proto/" ++ m.includeName ++ lit ".h>\n") ++
    lit "#include <stddef.h>\n\n#include <aros/cpu.h>\n#include <aros/genmodule.h>\n" ++
    lit "#include <aros/libcall.h>\n#include <aros/symbolsets.h>\n\n"

/-- The aliases of a function. -/
def aliasLines (f : Function) : Text :=
  f.aliases.flatMap fun other =>
    lit "AROS_GM_LIBFUNCALIAS(" ++ f.name ++ lit ", " ++ other ++ lit ")\n"

/-- `stack_stub`: one stack-call function's stub file. -/
def stackStub (upperCase : Char → Text) (m : ModuleFacts) (funcs : List Function) (f : Function)
    (isRel : Bool) : Text :=
  stubHeader upperCase m isRel ++
    lit "void __" ++ f.name ++ lit "_" ++ m.libBase ++ lit "_libreq()\x7b AROS_LIBREQ(" ++ m.libBase ++
    lit "," ++ decimal (resolvedVersion m funcs f) ++ lit "); \x7d\n" ++
    lit "AROS_GM_" ++ (if isRel then lit "REL" else []) ++ lit "LIBFUNCSTUB(" ++ f.name ++ lit ", " ++
    m.libBase ++ lit ", " ++ decimal f.lvo ++ lit ")\n" ++ aliasLines f

/-- The loop of `lc_suffix`, with the current run. -/
def suffixRuns (current : ArgumentKind) (run : ℕ) : List ArgumentKind → Text
  | [] => current.flush run
  | k :: rest =>
    if k = current then suffixRuns current (run + 1) rest
    else current.flush run ++ suffixRuns k 1 rest

/-- `lc_suffix`: the `AROS_LC` variant suffix for one function's argument list. -/
def lcSuffix (f : Function) : Text :=
  match f.args.map Arg.kind with
  | [] => lit "0"
  | first :: rest => suffixRuns first 0 (first :: rest)

/-- One argument of the library call. -/
def argumentLine (a : Arg) : Option Text :=
  let reg := a.reg.getD []
  let ty := trim a.ty
  match splitOnce '/' reg with
  | some (first, second) => do
    let first ← firstTwo first
    some (lit "         AROS_LCA2(" ++ ty ++ lit ", " ++ a.name ++ lit ", " ++ first ++ lit ", " ++
      second ++ lit "), \\\n")
  | none => do
    let reg ← firstTwo reg
    some (lit "         AROS_LCA(" ++ ty ++ lit ", " ++ a.name ++ lit ", " ++ reg ++ lit "), \\\n")

/-- The arguments of the library call. -/
def argumentLines : List Arg → Option Text
  | [] => some []
  | a :: args => do
    let line ← argumentLine a
    let rest ← argumentLines args
    some (line ++ rest)

/-- `regcall_stub`: one register-call function, as a full C function body. -/
def regcallStub (m : ModuleFacts) (f : Function) : Option Text := do
  let ret := trim f.retType
  let arguments ← argumentLines f.args
  some (lit "\n" ++ ret ++ lit " " ++ f.name ++ lit "(" ++
    joined (lit ", ") (f.args.map fun a => trim a.decl) ++ lit ")\n\x7b\n    " ++
    (if isVoid ret then [] else lit "return ") ++
    lit "AROS_LC" ++ lcSuffix f ++ (if isVoid ret then lit "NR" else []) ++ lit "(" ++ ret ++ lit ", " ++
    f.name ++ lit ",\\\n" ++ arguments ++
    lit "                    " ++ m.libBaseTypeExtern ++ lit ", " ++ lit "__aros_getbase_" ++ m.libBase ++
    lit "()" ++ lit ", " ++ decimal f.lvo ++ lit ", " ++ m.basename ++ lit ");" ++ lit "\n\x7d\n" ++
    aliasLines f)

/-- The bodies of the functions that are called through registers and not private. -/
def regcallBodies (m : ModuleFacts) (funcs : List Function) : Option Text :=
  concatEntries funcs fun f => if f.stackCall || f.isPrivate then some [] else regcallStub m f

/-- `regcall_stubs`: the shared `<mod>_regcall_stubs.c`. -/
def regcallStubs (upperCase : Char → Text) (m : ModuleFacts) (funcs : List Function) (isRel : Bool) :
    Option Text := do
  let bodies ← regcallBodies m funcs
  some (stubHeader upperCase m isRel ++ bodies)

/-- `autoinit`: `<mod>_autoinit.c`. -/
def autoinit (m : ModuleFacts) (isRel : Bool) : Text :=
  (if !isRel && !(trim m.startupLines).isEmpty then trimEnd m.startupLines ++ lit "\n" else []) ++
    banner m ++ (if m.noIncludes then [] else lit "#include <proto/" ++ m.includeName ++ lit ".h>\n") ++
    lit "#include <aros/symbolsets.h>\n\nAROS_" ++ (if isRel then lit "REL" else []) ++ lit "LIBSET(\"" ++
    m.includeName ++ lit "." ++ m.suffix ++ lit "\", " ++ m.libBaseTypeExtern ++ lit ", " ++ m.libBase ++
    lit ")\nAROS_IMPORT_ASM_SYM(int, dummy, __include" ++ (if isRel then lit "rel" else []) ++
    lit "librarieshandling);\n" ++
    (if m.forceBases = [] then [] else lit "\n" ++ m.forceBases.flatMap fun base =>
      lit "AROS_IMPORT_ASM_SYM(void *, __dummy_" ++ base ++ lit ", __aros_getbase_" ++ base ++ lit ");\n")

/-- `getlibbase`: `<mod>_getlibbase.c`. -/
def getlibbase (m : ModuleFacts) (isRel : Bool) : Text :=
  let base := m.libBase
  let ty := m.libBaseTypeExtern
  banner m ++
    (if isRel then
      lit "#include <exec/types.h>\nchar *__aros_getoffsettable(void);\nextern IPTR __aros_rellib_offset_" ++
        base ++ lit ";\n\n" ++ ty ++ lit "__aros_getbase_" ++ base ++ lit "(void)\n\x7b\n    return *((" ++ ty ++
        lit "*)(__aros_getoffsettable()+__aros_rellib_offset_" ++ base ++ lit "));\n\x7d\n"
    else
      lit "extern " ++ ty ++ base ++ lit ";\n\n" ++ ty ++ lit "__aros_getbase_" ++ base ++
        lit "(void)\n\x7b\n    return " ++ base ++ lit ";\n\x7d\n")

/-- `sources`: every link-library source for one module, as name and contents. -/
def sources (upperCase : Char → Text) (m : ModuleFacts) (funcs : List Function) (isRel : Bool) :
    Option (List (Text × Text)) := do
  let rel := if isRel then lit "rel" else []
  let stackFiles := funcs.flatMap fun f =>
    if !f.stackCall || f.isPrivate then []
    else [(m.name ++ lit "_" ++ f.name ++ lit "_" ++ rel ++ lit "stub.c",
      stackStub upperCase m funcs f isRel)]
  let sharedFile ← if funcs.any fun f => !f.stackCall && !f.isPrivate then do
      let stubs ← regcallStubs upperCase m funcs isRel
      some [(m.name ++ lit "_regcall_" ++ rel ++ lit "stubs.c", stubs)]
    else some []
  some (stackFiles ++ sharedFile ++
    [(m.name ++ lit "_" ++ rel ++ lit "autoinit.c", autoinit m isRel),
      (m.name ++ lit "_" ++ rel ++ lit "getlibbase.c", getlibbase m isRel)])

/-- The suffix of the module's run-time name. -/
def librarySuffix (modType : Text) : Text :=
  if modType = lit "usbclass" ∨ modType = lit "btclass" then lit "class" else modType

/-- The facts that `generate_linklib_sources` writes the link library from. -/
def moduleFacts (m : ConfModule) : ModuleFacts :=
  ⟨m.name, m.includeName, m.libBase, externBaseType m, m.baseName, librarySuffix m.modType,
    m.options.contains .noIncludes, m.cdefPrivate, m.majorVersion, m.forceBases, m.startupLines⟩

end Linklib

end Genmodule

end ArosTools
