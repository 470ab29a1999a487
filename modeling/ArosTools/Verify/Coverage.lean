import ArosTools.Program.BTree
import ArosTools.Program.Text
import Mathlib.Algebra.Order.Field.Basic
import Mathlib.Algebra.Order.Ring.Unbundled.Rat
import Mathlib.Data.List.Lex
import Mathlib.Data.Multiset.Dedup
import Mathlib.Data.Finset.Card
import Mathlib.Tactic.Positivity
import Mathlib.Tactic.FieldSimp
import Mathlib.Tactic.Linarith

/-!
# The coverage that the verifier reports

`run` counts the targets that the source tree declares, in a set of ids, and the declarations that
were not emitted, one by one. The two counts are of the same things exactly if no two declarations
in scope share an id that was not emitted (`coverage_accounts_iff`); otherwise the number of covered
targets comes out too small, or the subtraction underflows.
-/

namespace ArosTools

namespace Verify

open Str

/-- `Declaration`. -/
structure Declaration where
  mmake : Text
  macroName : Text
  file : Text
  arguments : Text
  deriving DecidableEq, Repr

/-! ### The architecture in scope -/

/-- `ArchitectureScope`. -/
structure ArchitectureScope where
  cpu : Text
  platform : Text
  toolchain : Text
  bootloader : Text
  sourceDirs : BTreeSet Text
  packageDirs : BTreeSet Text

/-- The processors whose sources can be built for this one. -/
def compatibleCpus (cpu : Text) : List Text :=
  if cpu = lit "x86_64" then [lit "i386", lit "x86_64"]
  else if cpu = lit "aarch64" then [lit "arm", lit "aarch64"]
  else if cpu = lit "riscv64" then [lit "riscv", lit "riscv64"]
  else [cpu]

/-- The four directories of a processor. -/
def archDirs (platform cpu : Text) : List Text :=
  [cpu ++ lit "-all", cpu ++ lit "-native", lit "all-" ++ platform, cpu ++ lit "-" ++ platform]

/-- `ArchitectureScope::with_configuration`. -/
def ArchitectureScope.withConfiguration (cpu platform toolchain bootloader : Text) :
    ArchitectureScope :=
  ⟨cpu, platform, toolchain, bootloader,
    .collect (lit "all-native" :: (compatibleCpus cpu).flatMap (archDirs platform)),
    .collect (lit "all-native" :: archDirs platform cpu)⟩

/-- The parts of a path. -/
def parts (file : Text) : List Text := split (fun c => c = '/' || c = '\\') file

/-- `is_under_arch`. -/
def isUnderArch (file : Text) : Bool := (parts file).head? = some (lit "arch")

/-- `declaration_arch_dir`. -/
def declarationArchDir (file : Text) : Option Text :=
  match parts file with
  | first :: dir :: _ =>
    if first = lit "arch" then (splitOnce '-' dir).map fun _ => dir else none
  | _ => none

/-- Whether the file is in one of the directories. -/
def underOneOf (dirs : BTreeSet Text) (file : Text) : Bool :=
  match declarationArchDir file with
  | none => !isUnderArch file
  | some dir => decide (dir ∈ dirs.elems)

/-- `ArchitectureScope::file_is_eligible`. -/
def ArchitectureScope.fileIsEligible (scope : ArchitectureScope) (file : Text) : Bool :=
  underOneOf scope.sourceDirs file

/-- `ArchitectureScope::declaration_is_eligible`. -/
def ArchitectureScope.declarationIsEligible (scope : ArchitectureScope) (d : Declaration) : Bool :=
  if d.macroName = lit "make_package" || d.macroName = lit "link_kickstart" then
    underOneOf scope.packageDirs d.file
  else scope.fileIsEligible d.file

/-! ### Declarations that are no targets of the tree -/

/-- `ToolchainProvisioningContext`. -/
structure ToolchainProvisioningContext where
  llvm : Bool
  gccLibatomic : Bool
  deriving DecidableEq, Repr

/-- `LLVM_PROVISIONING_FILE`. -/
def llvmProvisioningFile : Text := lit "tools/crosstools/llvm/mmakefile.src"

/-- `GCC_PROVISIONING_FILE`. -/
def gccProvisioningFile : Text := lit "tools/crosstools/gnu/mmakefile.src"

/-- `GCC_LIBATOMIC_ARGUMENTS`. -/
def gccLibatomicArguments : Text :=
  lit "mmake=tools-crosstools-gcc-libatomic srcdir=\"$(LIBATOMIC_SRCDIR)\" " ++
    lit "targetincludes=\"sdk-includes-$(AROS_TOOLCHAIN_RELEASE)\" " ++
    lit "targetlinklibs=\"gnu-libatomic-linklibs-$(AROS_TOOLCHAIN_RELEASE)\" basedir= " ++
    lit "gendir=\"$(LIBATOMIC_OBJDIR)\" extraoptions=\"$(LIBATOMIC_OPTS)\" " ++
    lit "install_env=\"$(LIBATOMIC_ENV)\""

/-- `LEGACY_GRUB_FILE`. -/
def legacyGrubFile : Text := lit "arch/all-pc/boot/grub/mmakefile.src"

/-- `LEGACY_GRUB_ARGUMENTS`. -/
def legacyGrubArguments : Text :=
  lit "mmake=grub compiler=kernel install_target= srcdir=$(ARCHSRCDIR) " ++
    lit "extraoptions=\"$(GRUBOPTS)\" extracflags=\"$(GRUBCFLAGS)\""

/-- One line of `LLVM_PROVISIONING_DECLARATIONS`; the compiler and the flags are always the same. -/
def llvmDeclaration (mmake package srcdir destination options tail : String) : Text × Text :=
  (lit mmake, lit "mmake=" ++ lit mmake ++ lit " package=" ++ lit package ++ lit " srcdir=$(" ++
    lit srcdir ++ lit destination ++ lit " extraoptions=\"$(" ++ lit options ++
    lit ")\" compiler=host usecppflags=no" ++ lit tail)

/-- `LLVM_PROVISIONING_DECLARATIONS`. -/
def llvmProvisioningDeclarations : List (Text × Text) :=
  let crosstools := ") prefix=\"$(CROSSTOOLSDIR)\""
  let runtimes := ")/runtimes prefix=\"$(CROSSTOOLSDIR)\""
  let release := " metadeps=\"setup sdk-includes-1\""
  [llvmDeclaration "crosstools-libunwind" "libunwind" "LIBUNWIND_BUILDBASE" crosstools
      "LLVM_LIBUNWIND_CMAKEOPTIONS" "",
    llvmDeclaration "crosstools-libunwind-release" "libunwind-release" "LIBUNWIND_BUILDBASE"
      crosstools "LLVM_LIBUNWIND_CMAKEOPTIONS" release,
    llvmDeclaration "crosstools-llvm-runtimes" "runtimes" "LLVM_RUNTIMES_LINKLIB_SRCDIR" crosstools
      "LLVM_RUNTIMES_CMAKEOPTIONS" "",
    llvmDeclaration "crosstools-llvm-runtimes-release" "runtimes-release" "MONOTREE_BUILDBASE"
      runtimes "LLVM_RUNTIMES_CMAKEOPTIONS" release,
    llvmDeclaration "crosstools-compiler-rt" "compiler-rt" "COMPILER_RT_LINKLIB_SRCDIR" crosstools
      "LLVM_COMPILER_RT_CMAKEOPTIONS" "",
    llvmDeclaration "crosstools-compiler-rt-release" "compiler-rt-release"
      "COMPILER_RT_LINKLIB_SRCDIR" crosstools "LLVM_COMPILER_RT_CMAKEOPTIONS" release,
    llvmDeclaration "crosstools-compiler-rt32" "compiler-rt32" "COMPILER_RT_LINKLIB_SRCDIR"
      crosstools "LLVM_COMPILER_RT32_CMAKEOPTIONS" "",
    llvmDeclaration "crosstools-compiler-rt32-release" "compiler-rt32-release"
      "COMPILER_RT_LINKLIB_SRCDIR" crosstools "LLVM_COMPILER_RT32_CMAKEOPTIONS" release,
    llvmDeclaration "crosstools-llvm-toolchain" "llvm" "LLVM_BUILDBASE" crosstools
      "LLVM_CMAKEOPTIONS" " usecrosstoolsdir=no"]

/-- `is_toolchain_provisioning_declaration`. -/
def isToolchainProvisioningDeclaration (context : ToolchainProvisioningContext)
    (d : Declaration) : Bool :=
  (context.llvm && d.file = llvmProvisioningFile && d.macroName = lit "build_with_cmake" &&
      llvmProvisioningDeclarations.any fun entry => d.mmake = entry.1 && d.arguments = entry.2) ||
    (context.gccLibatomic && d.file = gccProvisioningFile &&
      d.macroName = lit "build_with_configure" &&
      d.mmake = lit "tools-crosstools-gcc-libatomic" && d.arguments = gccLibatomicArguments)

/-- `split_toolchain_provisioning`. -/
def splitToolchainProvisioning (context : ToolchainProvisioningContext)
    (declarations : List Declaration) : List Declaration × List Declaration :=
  declarations.partition (isToolchainProvisioningDeclaration context)

/-- `is_inactive_profile_declaration`. -/
def isInactiveProfileDeclaration (scope : Option ArchitectureScope) (d : Declaration) : Bool :=
  scope.any fun scope => scope.bootloader ≠ lit "grub" && d.file = legacyGrubFile &&
    d.macroName = lit "build_with_configure" && d.mmake = lit "grub" &&
    d.arguments = legacyGrubArguments

/-- `split_inactive_profile`. -/
def splitInactiveProfile (scope : Option ArchitectureScope) (declarations : List Declaration) :
    List Declaration × List Declaration :=
  declarations.partition (isInactiveProfileDeclaration scope)

/-! ### Coverage -/

/-- What `run` has read when it comes to the coverage: the declarations of the tree, those that the
conditions of an architecture leave, and what was emitted, by id. -/
structure Readings where
  architecture : Option ArchitectureScope
  declarations : List Declaration
  conditionalDeclarations : Option (List Declaration)
  provisioning : ToolchainProvisioningContext
  ours : BTreeMap Text Text

/-- The declarations in scope. -/
def Readings.scopedDeclarations (r : Readings) : List Declaration :=
  let scopedInventory := (r.conditionalDeclarations.getD r.declarations).filter fun d =>
    r.architecture.all fun scope => scope.declarationIsEligible d
  let targetCandidates := (splitToolchainProvisioning r.provisioning scopedInventory).2
  (splitInactiveProfile r.architecture targetCandidates).2

/-- `ours.contains_key`. -/
def Readings.emits (r : Readings) (id : Text) : Bool := (r.ours.get id).isSome

/-- The ids that are declared. -/
def Readings.declared (r : Readings) : BTreeSet Text :=
  .collect (r.scopedDeclarations.map Declaration.mmake)

/-- The declarations that were not emitted. -/
def Readings.missing (r : Readings) : List Declaration :=
  r.scopedDeclarations.filter fun d => !r.emits d.mmake

/-- The covered targets that the report names; nothing if the subtraction underflows. -/
def Readings.covered (r : Readings) : Option ℕ :=
  if r.missing.length ≤ r.declared.len then some (r.declared.len - r.missing.length) else none

/-- The percentage that the report names; nothing if the subtraction underflows. -/
def Readings.percentage (r : Readings) : Option ℚ :=
  if r.declared.len = 0 then some 100
  else r.covered.map fun covered => 100 * covered / r.declared.len

/-! ### The accounting -/

/-- The ids that are declared and emitted. -/
def Readings.coveredIds (r : Readings) : List Text := r.declared.elems.filter r.emits

/-- The accounting is right: the covered and the missing make up the declared, the report names the
number of covered ids, and a percentage. -/
structure Readings.Accounts (r : Readings) : Prop where
  total : r.coveredIds.length + r.missing.length = r.declared.len
  covered : r.covered = some r.coveredIds.length
  percentage : ∃ pct, r.percentage = some pct ∧ 0 ≤ pct ∧ pct ≤ 100

variable {r : Readings} {id : Text}

theorem mem_declared : id ∈ r.declared.elems ↔ id ∈ r.scopedDeclarations.map Declaration.mmake :=
  BTreeSet.mem_collect

theorem mem_missingIds :
    id ∈ r.missing.map Declaration.mmake ↔ id ∈ r.declared.elems ∧ r.emits id = false := by
  rw [mem_declared, List.mem_map, List.mem_map]
  constructor
  · rintro ⟨d, hd, rfl⟩
    obtain ⟨hd, hemits⟩ := List.mem_filter.mp hd
    exact ⟨⟨d, hd, rfl⟩, by simpa using hemits⟩
  · rintro ⟨⟨d, hd, rfl⟩, hemits⟩
    exact ⟨d, List.mem_filter.mpr ⟨hd, by rw [hemits]; rfl⟩, rfl⟩

/-- The ids that are not emitted are counted once each. -/
theorem length_coveredIds :
    r.coveredIds.length + (r.missing.map Declaration.mmake).toFinset.card = r.declared.len := by
  have hids : (r.missing.map Declaration.mmake).toFinset =
      (r.declared.elems.filter fun id => !r.emits id).toFinset := by
    ext id
    rw [List.mem_toFinset, List.mem_toFinset, mem_missingIds, List.mem_filter, Bool.not_eq_true']
  rw [hids, List.toFinset_card_of_nodup (r.declared.nodup.filter _), Readings.coveredIds,
    BTreeSet.len, ← List.length_append]
  exact (List.filter_append_perm r.emits r.declared.elems).length_eq

/-- No id is missing twice exactly if declarations share only ids that are emitted. -/
theorem missing_nodup_iff : (r.missing.map Declaration.mmake).Nodup ↔
    r.scopedDeclarations.Pairwise fun a b => a.mmake = b.mmake → r.emits a.mmake = true := by
  rw [List.Nodup, List.pairwise_map, Readings.missing, List.pairwise_filter]
  refine List.Pairwise.iff fun a b => ?_
  rw [Bool.not_eq_true', Bool.not_eq_true']
  constructor
  · intro h heq
    by_contra hemits
    rw [Bool.not_eq_true] at hemits
    exact h hemits (heq ▸ hemits) heq
  · intro h ha _ heq
    rw [h heq] at ha
    cases ha

theorem total_iff : r.coveredIds.length + r.missing.length = r.declared.len ↔
    (r.missing.map Declaration.mmake).Nodup := by
  have hlength := length_coveredIds (r := r)
  have hcard : (r.missing.map Declaration.mmake).toFinset.card = r.missing.length ↔
      (r.missing.map Declaration.mmake).Nodup := by
    rw [← List.length_map Declaration.mmake]
    exact Multiset.toFinset_card_eq_card_iff_nodup
  rw [← hcard]
  omega

/-- What the report says when the counts agree. -/
theorem accounts_of_total (h : r.coveredIds.length + r.missing.length = r.declared.len) :
    r.Accounts := by
  have hcovered : r.covered = some r.coveredIds.length := by
    rw [Readings.covered, if_pos (by omega)]
    congr 1
    omega
  refine ⟨h, hcovered, ?_⟩
  rw [Readings.percentage]
  split_ifs with hempty
  · exact ⟨100, rfl, by norm_num, le_refl _⟩
  · rw [hcovered]
    have hpos : (0 : ℚ) < r.declared.len := by
      exact_mod_cast Nat.pos_of_ne_zero hempty
    have hle : (r.coveredIds.length : ℚ) ≤ r.declared.len := by
      have hnat : r.coveredIds.length ≤ r.declared.len := by omega
      exact_mod_cast hnat
    refine ⟨_, rfl, by positivity, ?_⟩
    rw [div_le_iff₀ hpos]
    linarith

/-- **The accounting is right exactly if** the declarations in scope share only ids that are
emitted. -/
theorem coverage_accounts_iff (r : Readings) :
    r.Accounts ↔
      r.scopedDeclarations.Pairwise fun a b => a.mmake = b.mmake → r.emits a.mmake = true := by
  rw [← missing_nodup_iff, ← total_iff]
  exact ⟨Readings.Accounts.total, accounts_of_total⟩

/-- A tree that declares one target in two files. -/
def twiceDeclared : Readings where
  architecture := none
  declarations := [⟨lit "kernel", lit "build_module", lit "rom/a/mmakefile.src", lit "mmake=kernel"⟩,
    ⟨lit "kernel", lit "build_module", lit "rom/b/mmakefile.src", lit "mmake=kernel"⟩]
  conditionalDeclarations := none
  provisioning := ⟨false, false⟩
  ours := .new

/-- Nothing of it was emitted: one id is declared, two are missing, and the subtraction
underflows. -/
theorem twiceDeclared_underflows : twiceDeclared.declared.len = 1 ∧
    twiceDeclared.missing.length = 2 ∧ twiceDeclared.covered = none ∧
    twiceDeclared.percentage = none ∧ ¬ twiceDeclared.Accounts := by
  have hdeclared : twiceDeclared.declared.len = 1 := by decide
  have hmissing : twiceDeclared.missing.length = 2 := by decide
  refine ⟨hdeclared, hmissing, by decide, by decide, fun h => ?_⟩
  have htotal := h.total
  omega

end Verify

end ArosTools
