import ArosTools.Genmodule.Linklib
import ArosTools.Genmodule.Vectors

/-!
# The client views of a module

A client reaches a function of a module through the header of defines or through the link library.
Both come down to a call through the library base, and `LibraryCall` is what such a call consists
of: the `AROS_LC` variant, the function, the registers of its arguments, the type of the base, the
vector and the basename. A define and a stub render the same call (`registerDefine_eq`,
`regcallStub_eq`), around it each with its own names for the arguments and for the base.

* `client_views` — the headers and the link library list the same functions, with the same calls.
-/

namespace ArosTools

namespace Genmodule

open Str

/-! ### Library calls -/

/-- Where an argument is passed. -/
inductive Registers where
  | one (reg : Text)
  | pair (first second : Text)
  deriving DecidableEq, Repr

/-- A call through the library base. -/
structure LibraryCall where
  variant : Text
  ret : Text
  name : Text
  /-- The type and the registers of each argument. -/
  arguments : List (Text × Registers)
  baseType : Text
  lvo : ℕ
  basename : Text
  deriving DecidableEq, Repr

/-- The registers of an argument. -/
def Arg.registers (a : Arg) : Option Registers :=
  match splitOnce '/' (a.reg.getD []) with
  | some (first, second) => (firstTwo first).map fun first => .pair first second
  | none => (firstTwo (a.reg.getD [])).map .one

/-- The types and registers of arguments. -/
def callArguments : List Arg → Option (List (Text × Registers))
  | [] => some []
  | a :: args => do
    let registers ← a.registers
    let rest ← callArguments args
    some ((trim a.ty, registers) :: rest)

/-- The call of a function, through a base of the given type. -/
def libraryCall (baseType basename : Text) (f : Function) : Option LibraryCall := do
  let arguments ← callArguments f.args
  let ret := trim f.retType
  some ⟨Varargs.lcSuffix f ++ (if isVoid ret then lit "NR" else []), ret, f.name, arguments, baseType,
    f.lvo, basename⟩

/-- One argument of a call, with the value that is passed. -/
def passedText (value ty : Text) : Registers → Text
  | .one reg => lit "         AROS_LCA(" ++ ty ++ lit ", " ++ value ++ lit ", " ++ reg ++ lit "), \\\n"
  | .pair first second =>
    lit "         AROS_LCA2(" ++ ty ++ lit ", " ++ value ++ lit ", " ++ first ++ lit ", " ++ second ++
      lit "), \\\n"

/-- The arguments of a call, with the values that are passed. -/
def passedTexts : List Text → List (Text × Registers) → Text
  | value :: values, (ty, registers) :: arguments =>
    passedText value ty registers ++ passedTexts values arguments
  | _, _ => []

/-- The text of a call, up to its closing parenthesis: the values of the arguments, the blanks in
front of the last line, and the expression of the base. -/
def LibraryCall.text (c : LibraryCall) (values : List Text) (lead base : Text) : Text :=
  lit "AROS_LC" ++ c.variant ++ lit "(" ++ c.ret ++ lit ", " ++ c.name ++ lit ",\\\n" ++
    passedTexts values c.arguments ++ lead ++ c.baseType ++ lit ", " ++ base ++ lit ", " ++
    decimal c.lvo ++ lit ", " ++ c.basename ++ lit ");"

/-- The names of the arguments in a define, counted from `n`. -/
def defineValues (n : ℕ) : List Arg → List Text
  | [] => []
  | _ :: args => (lit "(__arg" ++ decimal n ++ lit ")") :: defineValues (n + 1) args

/-- The define of a function around its call. -/
def defineEntry (upper libBase : Text) (version : ℕ) (f : Function) (c : LibraryCall) : Text :=
  lit "\n#if !defined(__" ++ upper ++ lit "_LIBAPI__) || (" ++ decimal version ++ lit " <= __" ++ upper ++
    lit "_LIBAPI__)\n" ++ lit "\n#define __" ++ f.name ++ lit "_WB(__" ++ libBase ++
    eachNumber f.args.length (fun i => lit ", __arg" ++ decimal i) ++ lit ") (\x7b\\\n" ++
    lit "        AROS_LIBREQ(" ++ libBase ++ lit "," ++ decimal version ++ lit ")\\\n        " ++
    c.text (defineValues 1 f.args) (lit "        ") (lit "(__" ++ libBase ++ lit ")") ++
    lit "\\\n\x7d)\n\n#define " ++ f.name ++ lit "(" ++
    eachNumber f.args.length (fun i => (if i > 1 then lit ", " else []) ++ lit "arg" ++ decimal i) ++
    lit ") \\\n    __" ++ f.name ++ lit "_WB(__" ++ upper ++ lit "_LIBBASE" ++
    eachNumber f.args.length (fun i => lit ", (arg" ++ decimal i ++ lit ")") ++ lit ")\n" ++
    (f.aliases.flatMap fun other => lit "#define " ++ other ++ lit " " ++ f.name ++ lit "\n") ++
    lit "\n#endif /* !defined(__" ++ upper ++ lit "_LIBAPI__) || (" ++ decimal version ++ lit " <= __" ++
    upper ++ lit "_LIBAPI__) */\n"

/-- The stub of a function around its call. -/
def stubEntry (libBase : Text) (f : Function) (c : LibraryCall) : Text :=
  lit "\n" ++ c.ret ++ lit " " ++ f.name ++ lit "(" ++
    joined (lit ", ") (f.args.map fun a => trim a.decl) ++ lit ")\n\x7b\n    " ++
    (if isVoid c.ret then [] else lit "return ") ++
    c.text (f.args.map Arg.name) (lit "                    ")
      (lit "__aros_getbase_" ++ libBase ++ lit "()") ++
    lit "\n\x7d\n" ++ Linklib.aliasLines f

/-! ### One function -/

theorem linklib_suffixRuns (current : ArgumentKind) (run : ℕ) (kinds : List ArgumentKind) :
    Linklib.suffixRuns current run kinds = Varargs.suffixRuns current run kinds := by
  induction kinds generalizing current run with
  | nil => rfl
  | cons k kinds ih => rw [Linklib.suffixRuns, Varargs.suffixRuns, ih, ih]

/-- Both modules name the same `AROS_LC` variant. -/
theorem linklib_lcSuffix (f : Function) : Linklib.lcSuffix f = Varargs.lcSuffix f := by
  unfold Linklib.lcSuffix Varargs.lcSuffix
  cases f.args.map Arg.kind with
  | nil => rfl
  | cons first rest => exact linklib_suffixRuns ..

/-- Both modules resolve the same version. -/
theorem requiredVersion_eq (m : ConfModule) (f : Function) :
    Varargs.requiredVersion (definesContext m) m.functions f =
      Linklib.resolvedVersion (Linklib.moduleFacts m) m.functions f := by
  unfold Varargs.requiredVersion Linklib.resolvedVersion
  cases f.declaredVersion with
  | none => rfl
  | some version => rfl

theorem varargs_argumentLine (n : ℕ) (a : Arg) :
    Varargs.argumentLine n a =
      a.registers.map (passedText (lit "(__arg" ++ decimal n ++ lit ")") (trim a.ty)) := by
  unfold Varargs.argumentLine Arg.registers
  cases hsplit : splitOnce '/' (a.reg.getD []) with
  | none =>
    simp only [hsplit]
    cases firstTwo (a.reg.getD []) with
    | none => rfl
    | some reg => rfl
  | some pair =>
    simp only [hsplit]
    cases firstTwo pair.1 with
    | none => rfl
    | some first => rfl

theorem varargs_argumentLines (n : ℕ) (args : List Arg) :
    Varargs.argumentLines n args = (callArguments args).map (passedTexts (defineValues n args)) := by
  induction args generalizing n with
  | nil => rfl
  | cons a args ih =>
    rw [Varargs.argumentLines, callArguments, ih, varargs_argumentLine]
    cases a.registers with
    | none => rfl
    | some registers =>
      cases callArguments args with
      | none => rfl
      | some rest => rfl

theorem linklib_argumentLine (a : Arg) :
    Linklib.argumentLine a = a.registers.map (passedText a.name (trim a.ty)) := by
  unfold Linklib.argumentLine Arg.registers
  cases hsplit : splitOnce '/' (a.reg.getD []) with
  | none =>
    simp only [hsplit]
    cases firstTwo (a.reg.getD []) with
    | none => rfl
    | some reg => rfl
  | some pair =>
    simp only [hsplit]
    cases firstTwo pair.1 with
    | none => rfl
    | some first => rfl

theorem linklib_argumentLines (args : List Arg) :
    Linklib.argumentLines args = (callArguments args).map (passedTexts (args.map Arg.name)) := by
  induction args with
  | nil => rfl
  | cons a args ih =>
    rw [Linklib.argumentLines, callArguments, ih, linklib_argumentLine]
    cases a.registers with
    | none => rfl
    | some registers =>
      cases callArguments args with
      | none => rfl
      | some rest => rfl

/-- **A define renders the function's call.** -/
theorem registerDefine_eq (upperCase : Char → Text) (m : ConfModule) (f : Function) :
    Varargs.registerDefine upperCase (definesContext m) m.functions f =
      (libraryCall (externBaseType m) m.baseName f).map
        (defineEntry (toUppercase upperCase (publicIncludeName m)) m.libBase
          (Linklib.resolvedVersion (Linklib.moduleFacts m) m.functions f) f) := by
  unfold Varargs.registerDefine libraryCall
  rw [varargs_argumentLines, requiredVersion_eq]
  cases callArguments f.args with
  | none => simp only [Option.map_none, bind, Option.bind_none]
  | some arguments =>
    rw [Option.map_some, Option.bind_eq_bind, Option.bind_some, Option.bind_eq_bind,
      Option.bind_some, Option.map_some]
    unfold defineEntry LibraryCall.text definesContext
    -- Only the order of the pieces matters, not what the literals spell.
    generalize lit = piece
    simp only [List.append_assoc]

/-- **A stub renders the function's call.** -/
theorem regcallStub_eq (m : ConfModule) (f : Function) :
    Linklib.regcallStub (Linklib.moduleFacts m) f =
      (libraryCall (externBaseType m) m.baseName f).map (stubEntry m.libBase f) := by
  unfold Linklib.regcallStub libraryCall
  rw [linklib_argumentLines, linklib_lcSuffix]
  cases callArguments f.args with
  | none => simp only [Option.map_none, bind, Option.bind_none]
  | some arguments =>
    rw [Option.map_some, Option.bind_eq_bind, Option.bind_some, Option.bind_eq_bind,
      Option.bind_some, Option.map_some]
    unfold stubEntry LibraryCall.text Linklib.moduleFacts
    generalize lit = piece
    simp only [List.append_assoc]

/-! ### All functions -/

/-- A function that clients may call. -/
def Function.isPublic (f : Function) : Bool := !f.isPrivate

/-- The functions that clients call through registers. -/
def registerFunctions (functions : List Function) : List Function :=
  functions.filter fun f => f.isPublic && !f.stackCall

/-- The functions that clients call through the stack. -/
def stackFunctions (functions : List Function) : List Function :=
  functions.filter fun f => f.isPublic && f.stackCall

/-- Each function with its call. -/
def libraryCalls (baseType basename : Text) : List Function → Option (List (Function × LibraryCall))
  | [] => some []
  | f :: rest => do
    let call ← libraryCall baseType basename f
    let calls ← libraryCalls baseType basename rest
    some ((f, call) :: calls)

/-- The calls of a module's public register-call functions. -/
def clientCalls (m : ConfModule) : Option (List (Function × LibraryCall)) :=
  libraryCalls (externBaseType m) m.baseName (registerFunctions m.functions)

theorem flatMap_public (functions : List Function) (g : Function → Text) :
    (functions.flatMap fun f => if f.isPrivate then [] else g f) =
      (functions.filter Function.isPublic).flatMap g := by
  induction functions with
  | nil => rfl
  | cons f functions ih =>
    rw [List.flatMap_cons, List.filter_cons, ih]
    cases hprivate : f.isPrivate with
    | true => simp [Function.isPublic, hprivate]
    | false => simp [Function.isPublic, hprivate]

theorem varargEntry_private (cx : DefinesContext) (upper : Text) {f : Function}
    (h : f.isPrivate = true) : varargEntry cx upper f = ([], []) := by
  have hform : varargForm f = none := by
    unfold varargForm
    rw [if_pos (by rw [h]; rfl)]
  rw [varargEntry, hform]

theorem varargs_public (cx : DefinesContext) (upper : Text) (functions : List Function) :
    (functions.map (varargEntry cx upper)).flatMap Prod.fst =
      (functions.filter Function.isPublic).flatMap fun f => (varargEntry cx upper f).1 := by
  rw [List.flatMap_map]
  induction functions with
  | nil => rfl
  | cons f functions ih =>
    rw [List.flatMap_cons, List.filter_cons, ih]
    cases hprivate : f.isPrivate with
    | true => simp [Function.isPublic, hprivate, varargEntry_private]
    | false => simp [Function.isPublic, hprivate]

theorem registerFunctions_cons (f : Function) (functions : List Function) :
    registerFunctions (f :: functions) =
      if f.isPrivate || f.stackCall then registerFunctions functions
      else f :: registerFunctions functions := by
  rw [registerFunctions, List.filter_cons, Function.isPublic]
  cases f.isPrivate <;> cases f.stackCall <;> rfl

/-- Entries that are the calls of the register-call functions, and empty for the others. -/
theorem concatEntries_calls {baseType basename : Text} {functions : List Function}
    {entry : Function → Option Text} {render : Function → LibraryCall → Text}
    (h : ∀ f ∈ functions, entry f = if f.isPrivate || f.stackCall then some []
      else (libraryCall baseType basename f).map (render f)) :
    concatEntries functions entry =
      (libraryCalls baseType basename (registerFunctions functions)).map
        (List.flatMap fun p => render p.1 p.2) := by
  induction functions with
  | nil => rfl
  | cons f functions ih =>
    rw [concatEntries, ih fun g hg => h g (.tail _ hg), h f (.head _), registerFunctions_cons]
    by_cases hskip : (f.isPrivate || f.stackCall) = true
    · rw [if_pos hskip, if_pos hskip]
      cases libraryCalls baseType basename (registerFunctions functions) with
      | none => rfl
      | some calls => rfl
    · rw [if_neg hskip, if_neg hskip, libraryCalls]
      cases libraryCall baseType basename f with
      | none => rfl
      | some call =>
        cases libraryCalls baseType basename (registerFunctions functions) with
        | none => rfl
        | some calls => rfl

/-- The defines are the calls of the public register-call functions: no vector lies below the first
one of the module. -/
theorem registerDefines_eq (upperCase : Char → Text) (m : ConfModule)
    (h : ∀ f ∈ m.functions, m.firstVector ≤ f.lvo) :
    Varargs.registerDefines upperCase (definesContext m) m.functions =
      (clientCalls m).map (List.flatMap fun p =>
        defineEntry (toUppercase upperCase (publicIncludeName m)) m.libBase
          (Linklib.resolvedVersion (Linklib.moduleFacts m) m.functions p.1) p.1 p.2) := by
  refine @concatEntries_calls _ _ _ _ (fun f c =>
    defineEntry (toUppercase upperCase (publicIncludeName m)) m.libBase
      (Linklib.resolvedVersion (Linklib.moduleFacts m) m.functions f) f c) fun f hf => ?_
  have hbelow : decide (f.lvo < (definesContext m).firstLvo) = false :=
    decide_eq_false (Nat.not_lt.mpr (h f hf))
  simp only [hbelow, Bool.or_false, registerDefine_eq]

/-- The stubs are the calls of the public register-call functions. -/
theorem regcallBodies_eq (m : ConfModule) :
    Linklib.regcallBodies (Linklib.moduleFacts m) m.functions =
      (clientCalls m).map (List.flatMap fun p => stubEntry m.libBase p.1 p.2) := by
  refine @concatEntries_calls _ _ _ _ (fun f c => stubEntry m.libBase f c) fun f _ => ?_
  simp only [regcallStub_eq, Bool.or_comm f.stackCall]

theorem libraryCalls_spec {baseType basename : Text} {functions : List Function}
    {calls : List (Function × LibraryCall)} (h : libraryCalls baseType basename functions = some calls) :
    calls.map Prod.fst = functions ∧
      ∀ p ∈ calls, libraryCall baseType basename p.1 = some p.2 := by
  induction functions generalizing calls with
  | nil =>
    cases h
    exact ⟨rfl, nofun⟩
  | cons f functions ih =>
    simp only [libraryCalls, bind, Option.bind_eq_some_iff] at h
    obtain ⟨call, hcall, rest, hrest, hcalls⟩ := h
    cases hcalls
    obtain ⟨hfst, hsnd⟩ := ih hrest
    refine ⟨by rw [List.map_cons, hfst], fun p hp => ?_⟩
    rcases List.mem_cons.mp hp with rfl | hp
    · exact hcall
    · exact hsnd p hp

theorem flatMap_stack {α : Type} (functions : List Function) (g : Function → α) :
    (functions.flatMap fun f => if !f.stackCall || f.isPrivate then [] else [g f]) =
      (stackFunctions functions).map g := by
  induction functions with
  | nil => rfl
  | cons f functions ih =>
    rw [List.flatMap_cons, ih, stackFunctions, stackFunctions, List.filter_cons, Function.isPublic]
    cases f.isPrivate <;> cases f.stackCall <;> rfl

theorem any_register (functions : List Function) :
    (functions.any fun f => !f.stackCall && !f.isPrivate) = !(registerFunctions functions).isEmpty := by
  induction functions with
  | nil => rfl
  | cons f functions ih =>
    rw [List.any_cons, ih, registerFunctions_cons]
    cases f.isPrivate <;> cases f.stackCall <;> simp

/-- The text of `defines/<module>.h` with the given calls. -/
def definesText (upperCase : Char → Text) (m : ConfModule) (calls : List (Function × LibraryCall)) :
    Text :=
  let upper := toUppercase upperCase (publicIncludeName m)
  let publicFunctions := m.functions.filter Function.isPublic
  definesHeader upper m.libBase ++ (publicFunctions.flatMap Varargs.lvoDefine ++
      calls.flatMap fun p => defineEntry upper m.libBase
        (Linklib.resolvedVersion (Linklib.moduleFacts m) m.functions p.1) p.1 p.2) ++
    publicFunctions.flatMap (fun f => (varargEntry (definesContext m) upper f).1) ++
    lit "\n__END_DECLS\n\n#endif /* DEFINES_" ++ upper ++ lit "_H */\n"

/-- The files of the link library with the given calls. -/
def linklibFiles (upperCase : Char → Text) (m : ConfModule) (calls : List (Function × LibraryCall))
    (isRel : Bool) : List (Text × Text) :=
  let facts := Linklib.moduleFacts m
  let rel := if isRel then lit "rel" else []
  (stackFunctions m.functions).map (fun f =>
      (m.name ++ lit "_" ++ f.name ++ lit "_" ++ rel ++ lit "stub.c",
        Linklib.stackStub upperCase facts m.functions f isRel)) ++
    (if calls = [] then [] else [(m.name ++ lit "_regcall_" ++ rel ++ lit "stubs.c",
      Linklib.stubHeader upperCase facts isRel ++
        calls.flatMap fun p => stubEntry m.libBase p.1 p.2)]) ++
    [(m.name ++ lit "_" ++ rel ++ lit "autoinit.c", Linklib.autoinit facts isRel),
      (m.name ++ lit "_" ++ rel ++ lit "getlibbase.c", Linklib.getlibbase facts isRel)]

theorem renderDefines_text (upperCase : Char → Text) (m : ConfModule)
    (h : ∀ f ∈ m.functions, m.firstVector ≤ f.lvo) :
    (renderDefines upperCase (definesContext m) m.functions).map DefinesOutput.text =
      (clientCalls m).map (definesText upperCase m) := by
  unfold renderDefines Varargs.renderRegisterDefines
  rw [registerDefines_eq upperCase m h]
  cases clientCalls m with
  | none => rfl
  | some calls =>
    simp only [Option.map_some, Option.bind_eq_bind, Option.bind_some, flatMap_public,
      varargs_public, definesText]
    rfl

theorem sources_files (upperCase : Char → Text) (m : ConfModule) (isRel : Bool) :
    Linklib.sources upperCase (Linklib.moduleFacts m) m.functions isRel =
      (clientCalls m).map fun calls => linklibFiles upperCase m calls isRel := by
  unfold Linklib.sources Linklib.regcallStubs
  rw [regcallBodies_eq, any_register]
  simp only [flatMap_stack]
  cases hcalls : clientCalls m with
  | none =>
    cases hempty : registerFunctions m.functions with
    | nil =>
      rw [clientCalls, hempty] at hcalls
      cases hcalls
    | cons f rest => rfl
  | some calls =>
    obtain ⟨hfst, -⟩ := libraryCalls_spec hcalls
    rw [← hfst]
    cases calls with
    | nil => rfl
    | cons p calls => rfl

/-! ### Agreement -/

section Variant

variable {measureRegularFile : PathBuf → Except IoError (Option Bytes)}
  {upperCase : Char → Text} {path root : PathBuf} {declaration : Option ModuleDeclaration}
  {content : Text} {m : ConfModule}

/-- **The client views of a module agree.** The vector header, the defines and the link library list
the public functions of the module, under the vectors of the module. A register-call function has a
define and an entry in the shared stub file, both around the same library call; a stack-call function
has a stub file of its own. The version that a define requires is the one that `resolvedVersion`
gives the stack stubs. -/
theorem client_views (hcontent : confContent measureRegularFile path declaration = .ok content)
    (h : parseConfVariant measureRegularFile upperCase path root declaration = .ok (some m)) :
    renderLvo upperCase (publicIncludeName m) m.functions =
        lvoHeader upperCase (publicIncludeName m) ++
          (m.functions.filter Function.isPublic).flatMap lvoLine ++
          lvoFooter upperCase (publicIncludeName m) ∧
      (renderDefines upperCase (definesContext m) m.functions).map DefinesOutput.text =
        (clientCalls m).map (definesText upperCase m) ∧
      (∀ isRel, Linklib.sources upperCase (Linklib.moduleFacts m) m.functions isRel =
        (clientCalls m).map fun calls => linklibFiles upperCase m calls isRel) ∧
      ∀ calls, clientCalls m = some calls →
        calls.map Prod.fst = registerFunctions m.functions ∧
        ∀ p ∈ calls, libraryCall (externBaseType m) m.baseName p.1 = some p.2 ∧ p.2.lvo = p.1.lvo := by
  have hfirst : ∀ f ∈ m.functions, m.firstVector ≤ f.lvo := by
    intro f hf
    have hmem : f.vector ∈
        (kept (confDeclarations upperCase path root declaration content)).map numbered :=
      functions_vectors hcontent h ▸ List.mem_map_of_mem hf
    obtain ⟨d, hd, hvector⟩ := List.mem_map.mp hmem
    have hle := firstVector_le_declaration hcontent h (List.mem_filter.mp hd).1
    rwa [hvector] at hle
  refine ⟨?_, renderDefines_text upperCase m hfirst, sources_files upperCase m, ?_⟩
  · rw [renderLvo, flatMap_public]
  · intro calls hcalls
    obtain ⟨hfst, hsnd⟩ := libraryCalls_spec hcalls
    refine ⟨hfst, fun p hp => ⟨hsnd p hp, ?_⟩⟩
    have hcall := hsnd p hp
    simp only [libraryCall, bind, Option.bind_eq_some_iff] at hcall
    obtain ⟨arguments, -, hcall⟩ := hcall
    rw [← Option.some.inj hcall]

end Variant

/-- A library with one function that is called through registers. -/
def registerLibrary : String :=
  "##begin config\nversion 3.0\n##end config\n##begin functionlist\nvoid A(LONG x) (D0)\n" ++
    "##end functionlist\n"

/-- The call of that function. -/
theorem client_views_register :
    ∃ m, libraryOf registerLibrary = .ok (some m) ∧
      clientCalls m = some [(⟨lit "A", lit "void ", [⟨lit "LONG x", lit "LONG ", lit "x",
        some (lit "D0")⟩], false, false, 5, false, none, []⟩,
        ⟨lit "1NR", lit "void", lit "A", [(lit "LONG", .one (lit "D0"))], lit "struct Library *", 5,
          lit "example"⟩)] ∧
      ∀ isRel, Linklib.sources (fun c => [c]) (Linklib.moduleFacts m) m.functions isRel =
        (clientCalls m).map fun calls => linklibFiles (fun c => [c]) m calls isRel := by
  have hcontent : confContent (oneFile registerLibrary) exampleConf
      (some ⟨lit "example", lit "library", none⟩) = .ok (lit registerLibrary) := by decide +kernel
  have hcalls : ofLibrary registerLibrary clientCalls = some (some [(⟨lit "A", lit "void ",
      [⟨lit "LONG x", lit "LONG ", lit "x", some (lit "D0")⟩], false, false, 5, false, none, []⟩,
      ⟨lit "1NR", lit "void", lit "A", [(lit "LONG", .one (lit "D0"))], lit "struct Library *", 5,
        lit "example"⟩)]) := by decide +kernel
  obtain ⟨m, hm, hm_calls⟩ := of_ofLibrary hcalls
  obtain ⟨-, -, hsources, -⟩ := client_views hcontent hm
  exact ⟨m, hm, hm_calls, hsources⟩

/-- The define of a register-call function requires a library version, its stub requires none. -/
theorem client_views_version :
    (ofLibrary registerLibrary fun m =>
      ((renderDefines (fun c => [c]) (definesContext m) m.functions).map fun out =>
          decide (lit "AROS_LIBREQ(exampleBase,3)" <:+: out.text),
        (Linklib.regcallStubs (fun c => [c]) (Linklib.moduleFacts m) m.functions false).map fun text =>
          decide (lit "AROS_LIBREQ" <:+: text))) = some (some true, some false) := by
  decide +kernel

end Genmodule

end ArosTools
