import ArosTools.Bytes.Utf8
import ArosTools.Publication.Names

/-!
# Linker command lines

`parseConfigured` reads the arguments of the collector: it normalizes the emulation, records the
output and the sysroot, and takes out the options the linker does not know.  `replaceOutput` is
the second reader of the same arguments: it puts another path in the place of the output.
Arguments are byte strings, read as text through `toStringLossy`.
-/

namespace ArosTools

namespace Engine

/-- A native string. -/
abbrev OsString := Bytes

/-! ### Options -/

/-- The options followed by their value. -/
def separateValueOptions : List String :=
   ["-a", "-A", "--architecture", "-b", "--format", "-c", "--mri-script", "--dependency-file",
    "-e", "--entry", "-f", "--auxiliary", "-F", "--filter", "-G", "--gpsize", "-h", "-soname",
    "-I", "--dynamic-linker", "-l", "--library", "-L", "--library-path", "--sysroot", "-o",
    "--output", "-O", "-plugin", "--plugin", "-plugin-opt", "-R", "--just-symbols", "-rpath",
    "-rpath-link", "-T", "--script", "--default-script", "-dT", "--oformat", "-u", "--undefined",
    "--require-defined", "-y", "--trace-symbol", "-Y", "-assert", "--defsym", "-fini", "-init",
    "--dynamic-list", "--export-dynamic-symbol", "--export-dynamic-symbol-list", "-Map", "--Map",
    "--section-ordering-file", "--retain-symbols-file", "--image-base", "--section-start",
    "-Tbss", "-Tdata", "-Ttext", "-Ttext-segment", "-Trodata-segment", "-Tldata-segment", "-P",
    "--depaudit", "--audit", "-z", "--sort-section", "--spare-dynamic-tags",
    "--error-handling-script", "--version-script", "--exclude-libs", "--unresolved-symbols",
    "--out-implib", "--remap-inputs-file", "--remap-inputs", "--orphan-handling", "--task-link",
    "--wrap", "--ignore-unresolved-symbol", "--version-exports-section"]

/-- The option takes the next argument as its value. -/
def takesSeparateValue (option : Bytes) : Bool := (separateValueOptions.map ascii).contains option

/-- The prefixes of options with their value attached. -/
def attachedPrefixes : List String :=
  ["-o", "-L", "-l", "-T", "-A", "-b", "-e", "-F", "-G", "-h", "-I", "-R", "-u", "-y", "-Y",
    "-a", "-c", "-f", "-dT", "-Map"]

/-- The text starts with the given one. -/
def startsWith (text : Bytes) (start : String) : Bool := (ascii start).isPrefixOf text

/-- The text after the given one. -/
def stripPrefix (text : Bytes) (start : String) : Option Bytes :=
  if startsWith text start then some (text.drop (ascii start).length) else none

/-- The option carries its value. -/
def hasAttachedValue (option : Bytes) : Bool :=
  if startsWith option "--" then option.contains 0x3d && !startsWith option "--emu"
  else attachedPrefixes.any fun start => startsWith option start &&
    option.length > (ascii start).length

/-- The options without a value. -/
def knownFlags : List String :=
   ["-r", "--relocatable", "-i", "-Ur", "-d", "-dc", "-dp", "-E", "--export-dynamic",
    "--no-export-dynamic", "--force-group-allocation", "--enable-non-contiguous-regions",
    "--enable-non-contiguous-regions-warnings", "--disable-linker-version",
    "--enable-linker-version", "-EB", "-EL", "--no-dynamic-linker", "-M", "--print-map",
    "--plugin-save-temps", "-flto", "--map-whole-files", "--no-map-whole-files", "-Qy", "-shared",
    "--shared", "-Bshareable", "-Bdynamic", "-Bstatic", "-dn", "-dy", "-call_shared",
    "-non_shared", "-static", "-pie", "-no-pie", "-n", "-N", "--nmagic", "--omagic", "-q",
    "--emit-relocs", "-s", "-S", "--strip-all", "--strip-debug", "--strip-discarded",
    "--no-strip-discarded", "-x", "--discard-all", "-X", "--discard-locals", "-g", "-t",
    "--trace", "-v", "--version", "-V", "--verbose", "--fatal-warnings", "--no-fatal-warnings",
    "--no-warnings", "-w", "--warn-common", "--no-warn-common", "--warn-once",
    "--warn-section-align", "--no-undefined", "--as-needed", "--no-as-needed", "--whole-archive",
    "--no-whole-archive", "--start-group", "--end-group", "--start-lib", "--end-lib",
    "--accept-unknown-input-arch", "--no-accept-unknown-input-arch", "--gc-sections",
    "--no-gc-sections", "--print-gc-sections", "--no-print-gc-sections", "--build-id",
    "--no-build-id", "--allow-shlib-undefined", "--no-allow-shlib-undefined",
    "--undefined-version", "--no-undefined-version", "--default-symver",
    "--default-imported-symver", "--no-warn-mismatch", "--no-warn-search-mismatch",
    "--noinhibit-exec", "-nostdlib", "--reduce-memory-overheads", "--relax", "--no-relax",
    "--enable-new-dtags", "--disable-new-dtags", "--no-keep-memory", "--check-sections",
    "--no-check-sections", "--copy-dt-needed-entries", "--no-copy-dt-needed-entries", "--cref",
    "--demangle", "--no-demangle", "--disable-multiple-abs-defs", "--embedded-relocs",
    "--force-exe-suffix", "--no-define-common", "--link-mapless", "--no-link-mapless",
    "--print-output-format", "--print-sysroot", "-qmagic", "--target-help",
    "--traditional-format", "--stats", "--no-stats", "--print-memory-usage", "--no-eh-frame-hdr",
    "--eh-frame-hdr", "--rosegment", "--no-rosegment", "--dynamic-list-data",
    "--dynamic-list-cpp-new", "--dynamic-list-cpp-typeinfo", "--warn-textrel",
    "--error-execstack", "--no-error-execstack", "--warn-execstack-objects", "--warn-execstack",
    "--no-warn-execstack", "--warn-rwx-segments", "--no-warn-rwx-segments",
    "--error-rwx-segments", "--no-error-rwx-segments", "--warn-multiple-gp",
    "--warn-alternate-em", "--warn-unresolved-symbols", "--error-unresolved-symbols",
    "--print-map-discarded", "--no-print-map-discarded", "--print-map-locals",
    "--no-print-map-locals", "--ctf-variables", "--no-ctf-variables", "-Bsymbolic",
    "-Bsymbolic-functions", "-Bsymbolic-non-weak", "--allow-multiple-definition"]

/-- The option is known to take no value. -/
def isKnownFlag (option : Bytes) : Bool := (knownFlags.map ascii).contains option

/-! ### Emulations -/

/-- An ASCII letter or digit, `_` or `-`. -/
def emulationByte (b : UInt8) : Bool :=
  (0x30 ≤ b && b ≤ 0x39) || (0x41 ≤ b && b ≤ 0x5a) || (0x61 ≤ b && b ≤ 0x7a) || b == 0x5f ||
    b == 0x2d

/-- Check the name of an emulation. -/
def validateEmulation (emulation : Bytes) : Except Bytes Unit :=
  if emulation.isEmpty || !emulation.all emulationByte then
    .error (ascii ("tool manifest emulation must contain only ASCII letters, digits, " ++
      "'_' or '-' and must not be empty"))
  else .ok ()

/-- An emulation selected on the command line, at the arguments from `start` up to `stop`. -/
structure UserEmulation where
  start : ℕ
  stop : ℕ
  value : Bytes
  deriving DecidableEq, Repr

/-- The argument as text, if it is valid UTF-8. -/
def toStr (arg : OsString) : Option Bytes := if toStringLossy arg = arg then some arg else none

/-- The next argument could be an emulation. -/
def precedesEmulation : List OsString → Bool
  | [] => false
  | next :: _ => startsWith (toStringLossy next) "-m" || startsWith (toStringLossy next) "--emu"

/-- The emulations selected by the arguments from `index` on. -/
def collectUserEmulationsFrom : ℕ → List OsString → Except Bytes (List UserEmulation)
  | _, [] => .ok []
  | index, arg :: rest =>
    let text := toStringLossy arg
    if text = ascii "--" then .ok []
    else if takesSeparateValue text then
      match rest with
      | [] => .error (ascii "linker command line ends after value-taking option '" ++ text ++
          ascii "'")
      | _ :: rest => collectUserEmulationsFrom (index + 2) rest
    else if hasAttachedValue text then collectUserEmulationsFrom (index + 1) rest
    else if text = ascii "-m" || text = ascii "--emulation" then
      match rest with
      | [] => .error (ascii "linker command line ends after an emulation option")
      | value :: rest =>
        match toStr value with
        | none => .error (ascii "linker emulation is not valid UTF-8")
        | some value => do
          validateEmulation value
          let found ← collectUserEmulationsFrom (index + 2) rest
          pure (⟨index, index + 2, value⟩ :: found)
    else
      match stripPrefix text "--emulation=" with
      | some value => do
        validateEmulation value
        let found ← collectUserEmulationsFrom (index + 1) rest
        pure (⟨index, index + 1, value⟩ :: found)
      | none =>
        if startsWith text "--emu" then
          .error (ascii "unsupported abbreviated or malformed linker emulation option '" ++ text ++
            ascii "'")
        else
          match stripPrefix text "-m" with
          | some value => do
            (validateEmulation value).mapError fun e =>
              ascii "malformed attached linker emulation option '" ++ text ++ ascii "': " ++ e
            let found ← collectUserEmulationsFrom (index + 1) rest
            pure (⟨index, index + 1, value⟩ :: found)
          | none =>
            if startsWith text "-" && !isKnownFlag text && precedesEmulation rest then
              .error (ascii "ambiguous linker option '" ++ text ++
                ascii ("' precedes a possible emulation operand; refusing to normalize it"))
            else collectUserEmulationsFrom (index + 1) rest

theorem collectUserEmulationsFrom_separator {index : ℕ} {arg : OsString} {rest : List OsString}
    (h : toStringLossy arg = ascii "--") :
    collectUserEmulationsFrom index (arg :: rest) = .ok [] := by
  rw [collectUserEmulationsFrom.eq_def]
  exact if_pos h

/-- The emulations selected on a command line. -/
def collectUserEmulations (args : List OsString) : Except Bytes (List UserEmulation) :=
  collectUserEmulationsFrom 0 args

/-- The arguments from `index` on without the selections; those below `skip` belong to one. -/
def normalizeFrom : ℕ → ℕ → List UserEmulation → List OsString → List OsString
  | _, _, _, [] => []
  | index, skip, selections, arg :: rest =>
    if index < skip then normalizeFrom (index + 1) skip selections rest
    else
      match selections with
      | [] => arg :: normalizeFrom (index + 1) skip [] rest
      | selection :: more =>
        if selection.start = index then normalizeFrom (index + 1) selection.stop more rest
        else arg :: normalizeFrom (index + 1) skip (selection :: more) rest

theorem normalizeFrom_cons (index skip : ℕ) (selections : List UserEmulation) (arg : OsString)
    (rest : List OsString) :
    normalizeFrom index skip selections (arg :: rest) =
      if index < skip then normalizeFrom (index + 1) skip selections rest
      else
        match selections with
        | [] => arg :: normalizeFrom (index + 1) skip [] rest
        | selection :: more =>
          if selection.start = index then normalizeFrom (index + 1) selection.stop more rest
          else arg :: normalizeFrom (index + 1) skip (selection :: more) rest := rfl

/-- Check the emulation of the compiler driver, if one is named. -/
def validateDriverEmulation : Option Bytes → Except Bytes Unit
  | some driverEmulation => validateEmulation driverEmulation
  | none => .ok ()

/-- A selection is neither the configured emulation nor the driver's. -/
def conflicting (emulation : Bytes) (driverEmulation : Option Bytes) (selection : UserEmulation) :
    Bool :=
  selection.value ≠ emulation && driverEmulation.all fun driver => selection.value ≠ driver

/-- The arguments with the configured emulation in front and no other. -/
def normalizeEmulation (emulation driverEmulation : Option Bytes) (args : List OsString) :
    Except Bytes (List OsString) :=
  match emulation with
  | some emulation => do
    validateEmulation emulation
    validateDriverEmulation driverEmulation
    let found ← collectUserEmulations args
    if found.any (conflicting emulation driverEmulation) then
      .error (ascii ("conflicting emulation: linker command line selects a value outside the " ++
        "configured linker and driver values"))
    else .ok (ascii "-m" :: emulation :: normalizeFrom 0 0 found args)
  | none =>
    if driverEmulation.isSome then
      .error (ascii "driver_emulation requires a configured linker emulation")
    else .ok args

/-! ### Requests -/

/-- What the collector makes of its link. -/
inductive LinkMode where
  | final
  | incremental
  | collectRelocatable
  deriving DecidableEq, Repr

/-- What the arguments say, apart from the arguments themselves. -/
structure Selections where
  output : Option Bytes := none
  sysroot : Option Bytes := none
  mode : LinkMode := .final
  stripOutput : Bool := false
  ignoreUndefined : Bool := false
  deriving DecidableEq, Repr

/-- What reading an argument list yields: the selections, the arguments before the operand
boundary as they are passed on, and those from the boundary on. -/
structure Reading where
  selections : Selections
  before : List OsString
  after : List OsString
  deriving DecidableEq, Repr

/-- Put arguments in front of what has been read. -/
def Reading.push (words : List OsString) (reading : Reading) : Reading :=
  { reading with before := words ++ reading.before }

/-- Record the output. -/
def Selections.setOutput (s : Selections) (value : Bytes) (empty : Bytes) :
    Except Bytes Selections :=
  if s.output.isSome then .error (ascii "linker command line specifies output more than once")
  else if value.isEmpty then .error (empty ++ ascii " must not be empty")
  else .ok { s with output := some value }

/-- Read the arguments. -/
def readArgs : Selections → List OsString → Except Bytes Reading
  | s, [] => .ok ⟨s, [], []⟩
  | s, arg :: rest =>
    let text := toStringLossy arg
    let missing := ascii "linker command line ends after " ++ text
    if text = ascii "--" then .ok ⟨s, [], arg :: rest⟩
    else if text = ascii "-o" || text = ascii "--output" then
      if s.output.isSome then .error (ascii "linker command line specifies output more than once")
      else
        match rest with
        | [] => .error missing
        | value :: rest => do
          let s ← s.setOutput value text
          (readArgs s rest).map (.push [arg, value])
    else
      match (stripPrefix text "--output=").or ((stripPrefix text "-o").filter (· ≠ [])) with
      | some value => do
        let s ← s.setOutput value (ascii "--output")
        (readArgs s rest).map (.push [arg])
      | none =>
        if text = ascii "--sysroot" then
          match rest with
          | [] => .error missing
          | value :: rest =>
            (readArgs { s with sysroot := some value } rest).map (.push [arg, value])
        else
          match stripPrefix text "--sysroot=" with
          | some value =>
            if value.isEmpty then .error (ascii "--sysroot must not be empty")
            else (readArgs { s with sysroot := some value } rest).map (.push [arg])
          | none =>
            if text = ascii "-r" || text = ascii "-i" then
              (readArgs { s with mode := .incremental } rest).map (.push [arg])
            else if text = ascii "-Ur" then
              (readArgs { s with mode := .collectRelocatable } rest).map (.push [ascii "-r"])
            else if text = ascii "-ius" then
              (readArgs { s with ignoreUndefined := true } rest).map (.push [ascii "-r"])
            else if text = ascii "-s" then
              (readArgs { s with stripOutput := true } rest).map (.push [ascii "-r"])
            else if startsWith text "--ld-path" || startsWith text "-Wl,--ld-path" then
              .error (ascii ("the collector does not permit a linker override; it requires its " ++
                "configured sibling linker"))
            else if text = ascii "-m" || text = ascii "--emulation" then
              match rest with
              | [] => .error missing
              | value :: rest => (readArgs s rest).map (.push [arg, value])
            else if startsWith text "--emulation=" then (readArgs s rest).map (.push [arg])
            else if takesSeparateValue text then
              match rest with
              | [] => .error missing
              | value :: rest => (readArgs s rest).map (.push [arg, value])
            else (readArgs s rest).map (.push [arg])

theorem readArgs_separator {s : Selections} {arg : OsString} {rest : List OsString}
    (h : toStringLossy arg = ascii "--") : readArgs s (arg :: rest) = .ok ⟨s, [], arg :: rest⟩ := by
  rw [readArgs.eq_def]
  exact if_pos h

/-- A request as the driver frontend makes it. -/
structure EngineRequest where
  name : Bytes
  linker : Bytes
  strip : Bytes
  emulation : Option Bytes
  args : List OsString
  output : Bytes
  sysroot : Option Bytes
  mode : LinkMode
  stripOutput : Bool
  ignoreUndefined : Bool
  deriving DecidableEq, Repr

/-- Make a request from a command line. -/
def parseConfigured (name linker strip : Bytes) (emulation driverEmulation : Option Bytes)
    (defaultOutput : Option Bytes) (args : List OsString) : Except Bytes EngineRequest := do
  let args ← normalizeEmulation emulation driverEmulation args
  let ⟨s, before, after⟩ ← readArgs {} args
  match s.output with
  | some output =>
    pure ⟨name, linker, strip, emulation, before ++ after, output, s.sysroot, s.mode,
      s.stripOutput, s.ignoreUndefined⟩
  | none =>
    match defaultOutput with
    | none => .error (ascii "linker command line has no -o FILE")
    | some output =>
      pure ⟨name, linker, strip, emulation, before ++ [ascii "-o", output] ++ after, output,
        s.sysroot, s.mode, s.stripOutput, s.ignoreUndefined⟩

/-- Put another path in the place of the output. -/
def replaceOutput (output : Bytes) : List OsString → Except Bytes (List OsString)
  | [] => .error (ascii "linker command line has no -o FILE")
  | arg :: rest =>
    let text := toStringLossy arg
    if text = ascii "--" then .error (ascii "linker command line has no -o FILE")
    else if text = ascii "-o" || text = ascii "--output" then
      match rest with
      | [] => .error (ascii "linker command line ends after " ++ text)
      | _ :: rest => .ok (arg :: output :: rest)
    else if startsWith text "-o" && text.length > 2 then .ok ((ascii "-o" ++ output) :: rest)
    else if startsWith text "--output=" then .ok ((ascii "--output=" ++ output) :: rest)
    else if takesSeparateValue text then
      match rest with
      | [] => .error (ascii "linker command line has no -o FILE")
      | value :: rest => (replaceOutput output rest).map fun words => arg :: value :: words
    else (replaceOutput output rest).map fun words => arg :: words

theorem replaceOutput_operand {output : Bytes} {arg value : OsString} {rest : List OsString}
    (hstop : toStringLossy arg ≠ ascii "--")
    (h : (toStringLossy arg = ascii "-o" || toStringLossy arg = ascii "--output") = true) :
    replaceOutput output (arg :: value :: rest) = .ok (arg :: output :: rest) := by
  rw [replaceOutput.eq_def]
  simp only [hstop, h, if_false, if_true]

end Engine

end ArosTools
