import ArosTools.Bytes.Decimal
import ArosTools.Publication.Names
import Mathlib.Data.List.Sort

/-!
# Symbol sets and the linker script that lays them out

The collector reads the set sections out of the section names of a partially linked object
(`parse`, `discover`) and writes a linker script with one `KEEP` line for every section it found
(`script`).  Text is bytes; `keepPatterns` reads the section patterns of the `KEEP` lines back out
of a script.
-/

namespace ArosTools

namespace Sets

/-- The byte `.`. -/
def dot : UInt8 := 0x2e

/-- A section-name prefix that denotes a set, and where the set's name starts inside it. -/
def prefixes : List (Bytes × ℕ) :=
  [(ascii ".aros.set.", 10), (ascii ".ctors", 1), (ascii ".dtors", 1), (ascii ".init_array", 1),
    (ascii ".fini_array", 1)]

/-- One set found in an object. -/
structure SymbolSet where
  /-- Uppercased set name. -/
  name : Bytes
  /-- The section name without the priority suffix. -/
  section_ : Bytes
  /-- Priorities that have a section. -/
  priorities : List ℤ
  /-- Whether an unsuffixed section exists as well. -/
  bare : Bool
  /-- `.aros.set.*` rather than a compiler set. -/
  arosSet : Bool
  deriving DecidableEq, Repr

/-- What one set section name says. -/
structure Parsed where
  /-- Uppercased set name. -/
  name : Bytes
  /-- The section name without the priority suffix. -/
  section_ : Bytes
  /-- The priority, absent for an unsuffixed section. -/
  priority : Option ℤ
  /-- `.aros.set.*` rather than a compiler set. -/
  arosSet : Bool
  deriving DecidableEq, Repr

/-- A section that looks like a set and was not laid out, and why. -/
structure Skipped where
  section_ : Bytes
  reason : Bytes
  deriving DecidableEq, Repr

/-- The reported text. -/
def Skipped.text (s : Skipped) : Bytes := s.section_ ++ ascii ": " ++ s.reason

/-- The parts around the first occurrence of `b`. -/
def splitOnce (b : UInt8) : Bytes → Option (Bytes × Bytes)
  | [] => none
  | c :: rest =>
    if c = b then some ([], rest) else (splitOnce b rest).map fun r => (c :: r.1, r.2)

/-- A letter, a digit or `_`. -/
def symbolByte (b : UInt8) : Bool :=
  (0x30 ≤ b && b ≤ 0x39) || (0x41 ≤ b && b ≤ 0x5a) || (0x61 ≤ b && b ≤ 0x7a) || b == 0x5f

/-- Check the set name of a section. -/
def parseName (section_ name base : Bytes) (priority : Option ℤ) (arosSet : Bool) :
    Except Skipped Parsed :=
  if name = [] then .error ⟨section_, ascii "the set has no name"⟩
  else if !name.all symbolByte then
    .error ⟨section_, ascii "`" ++ name ++ ascii "` is not usable in a symbol name"⟩
  else .ok ⟨name.map asciiUpper, base, priority, arosSet⟩

/-- Split a section name into its set name, its unsuffixed section name and its priority. -/
def parse (section_ : Bytes) : Option (Except Skipped Parsed) := do
  let (start, offset) ← prefixes.find? fun p => p.1.isPrefixOf section_
  let arosSet := start == ascii ".aros.set."
  let rest := section_.drop offset
  -- The priority is what follows the first dot after the set name.
  match splitOnce dot rest with
  | some (name, suffix) =>
    match parseInt64 suffix with
    | some priority =>
      some (parseName section_ name (section_.take (offset + name.length)) (some priority) arosSet)
    | none => some (.error ⟨section_, ascii "`" ++ suffix ++
        ascii "` is not a priority, so the section cannot be placed in a set"⟩)
  | none => some (parseName section_ rest section_ none arosSet)

/-- Record one more section of a set. -/
def SymbolSet.add (set : SymbolSet) (priority : Option ℤ) : SymbolSet :=
  match priority with
  | some n =>
    if set.priorities.contains n then set else { set with priorities := set.priorities ++ [n] }
  | none => { set with bare := true }

theorem SymbolSet.add_none (set : SymbolSet) : set.add none = { set with bare := true } := rfl

theorem SymbolSet.add_some (set : SymbolSet) (n : ℤ) :
    set.add (some n) = if set.priorities.contains n then set
      else { set with priorities := set.priorities ++ [n] } := rfl

@[simp] theorem SymbolSet.add_name (set : SymbolSet) (priority : Option ℤ) :
    (set.add priority).name = set.name := by
  cases priority with
  | none => rfl
  | some n =>
    rw [add_some]
    split_ifs <;> rfl

@[simp] theorem SymbolSet.add_section (set : SymbolSet) (priority : Option ℤ) :
    (set.add priority).section_ = set.section_ := by
  cases priority with
  | none => rfl
  | some n =>
    rw [add_some]
    split_ifs <;> rfl

/-- The sets found so far, by name, and the sections reported so far. -/
structure Found where
  sets : List SymbolSet
  skipped : List Skipped

/-- The set named by a section, created if this is its first section. -/
def Found.entry (found : Found) (parsed : Parsed) : SymbolSet × List SymbolSet :=
  match found.sets.find? fun set => set.name == parsed.name with
  | some set => (set, found.sets)
  | none =>
    let set : SymbolSet := ⟨parsed.name, parsed.section_, [], false, parsed.arosSet⟩
    (set, found.sets ++ [set])

/-- Take one section name into account. -/
def Found.step (found : Found) (section_ : Bytes) : Found :=
  match parse section_ with
  | none => found
  | some (.error reason) => { found with skipped := found.skipped ++ [reason] }
  | some (.ok parsed) =>
    let (entry, sets) := found.entry parsed
    if entry.section_ ≠ parsed.section_ then
      ⟨sets, found.skipped ++ [⟨section_, ascii "set " ++ entry.name ++
        ascii " already comes from " ++ entry.section_ ++
        ascii ", and one set cannot have two section names"⟩]⟩
    else
      ⟨sets.map fun set => if set.name == parsed.name then set.add parsed.priority else set,
        found.skipped⟩

/-- Byte strings in lexicographic order. -/
def bytesLe (a b : Bytes) : Bool := decide (a.map UInt8.toNat ≤ b.map UInt8.toNat)

/-- Find every set the section names of an object imply, and the sections that look like a set
and could not be laid out. -/
def discover (sections : List Bytes) : List SymbolSet × List Skipped :=
  let found := sections.foldl Found.step ⟨[], []⟩
  let sets := found.sets.map fun set =>
    { set with priorities := set.priorities.insertionSort (· ≤ ·) }
  (sets.insertionSort fun a b => bytesLe a.name b.name = true, found.skipped)

/-! ### The script -/

/-- The word size of an object. -/
inductive Class where
  | elf32
  | elf64
  deriving DecidableEq, Repr

/-- Bytes per pointer. -/
def Class.pointerBytes : Class → ℕ
  | .elf32 => 4
  | .elf64 => 8

/-- The script command that emits one pointer-sized word. -/
def Class.pointerDirective : Class → Bytes
  | .elf32 => ascii "LONG"
  | .elf64 => ascii "QUAD"

/-- A newline. -/
def newline : UInt8 := 0x0a

/-- Append a newline to every line. -/
def unlines (lines : List Bytes) : Bytes := lines.flatMap fun line => line ++ [newline]

/-- The section pattern of one priority of a set. -/
def SymbolSet.pattern (set : SymbolSet) (priority : ℤ) : Bytes :=
  set.section_ ++ [dot] ++ intText priority

/-- A line that keeps the sections a pattern matches. -/
def keepLine (pattern : Bytes) : Bytes := ascii "    KEEP(*(" ++ pattern ++ ascii "))"

/-- The lines that lay out one set. -/
def setLines (cls : Class) (set : SymbolSet) : List Bytes :=
  [ascii "    . = ALIGN(" ++ natText cls.pointerBytes ++ ascii ");",
    ascii "    __" ++ set.name ++ ascii "_LIST__ = .;",
    ascii "    " ++ cls.pointerDirective ++ ascii "((__" ++ set.name ++ ascii "_END__ - __" ++
      set.name ++ ascii "_LIST__) / " ++ natText cls.pointerBytes ++ ascii " - 2)"] ++
  (set.priorities.map fun priority => keepLine (set.pattern priority)) ++
  [keepLine set.section_,
    ascii "    " ++ cls.pointerDirective ++ ascii "(0)",
    ascii "    __" ++ set.name ++ ascii "_END__ = .;"]

/-- The linker script that lays the sets out; `libreq` are the lines of the version markers. -/
def script (sets : List SymbolSet) (cls : Class) (libreq : Bytes) : Bytes :=
  unlines ((sets.filter fun set => set.arosSet).map fun set =>
    ascii "EXTERN(__" ++ set.name ++ ascii "__symbol_set_handler_missing)") ++
  unlines [ascii "SECTIONS", ascii "\x7b", ascii "  .text : \x7b", keepLine (ascii ".aros.startup"),
    ascii "    *(.text)", ascii "    *(.text.*)", ascii "  \x7d", ascii "  .aros.sets : \x7b"] ++
  unlines (sets.flatMap (setLines cls)) ++
  libreq ++
  unlines [ascii "  \x7d", ascii "  .eh_frame : \x7b", ascii "    PROVIDE(__eh_frame_start = .);",
    keepLine (ascii ".eh_frame"), ascii "    PROVIDE(__eh_frame_end = .);", ascii "  \x7d",
    ascii "\x7d"]

/-- A library version to publish. -/
structure Requirement where
  /-- The unversioned symbol name. -/
  symbol : Bytes
  version : ℤ
  deriving DecidableEq, Repr

/-- The script lines that publish the requirements. -/
def libreqScript (requirements : List Requirement) : Bytes :=
  unlines (requirements.flatMap fun requirement =>
    [ascii "    . = ALIGN(4);",
      ascii "    PROVIDE(" ++ requirement.symbol ++ ascii " = .);",
      ascii "    LONG(" ++ intText requirement.version ++ ascii ")"])

/-! ### Reading the patterns back -/

/-- The section pattern of a `KEEP` line. -/
def keepPattern (line : Bytes) : Option Bytes :=
  let body := line.dropWhile (· == 0x20)
  if (ascii "KEEP(*(").isPrefixOf body && (ascii "))").isSuffixOf body then
    some ((body.drop 7).take (body.length - 9))
  else none

/-- The section patterns of the `KEEP` lines of a script. -/
def keepPatterns (text : Bytes) : List Bytes := (text.splitOn newline).filterMap keepPattern

/-- A pattern without wildcard characters. -/
def Literal (pattern : Bytes) : Prop := ∀ b ∈ ascii "*?[]\\", b ∉ pattern

/-- A literal pattern matches the one section of its name. -/
def Matches (pattern name : Bytes) : Prop := pattern = name

instance (pattern name : Bytes) : Decidable (Matches pattern name) :=
  inferInstanceAs (Decidable (pattern = name))

example : (discover [ascii ".aros.set.INITLIB.10", ascii ".aros.set.INITLIB.-127"]).1 =
    [⟨ascii "INITLIB", ascii ".aros.set.INITLIB", [-127, 10], false, true⟩] := by
  decide

end Sets

end ArosTools
