import ArosTools.Media.InputLock

/-!
# Media image plans

`planMediaImage` verifies every declared input of a medium and resolves the exact place of each:
the explicit files of the profile, the files of the complete trees below their destinations, the
directories, and the files the backend generates.

It runs in stages, each a definition of its own: `planRequiredFile` over the explicit files,
`planTree` over the declared trees, `planExtent` for the layout, `closeDirectories` for the
directories above the files, and the conflict checks of `checkPlacements`.
-/

namespace ArosTools

namespace Media

open SlashPath

/-- `MediaPlanError`. -/
inductive MediaPlanError where
  | invalid (message : String)
  | receipt (error : MediaReceiptError)
  | external (error : MediaInputLockError)
  deriving DecidableEq, Repr

/-- `MediaExternalFile`. -/
structure MediaExternalFile where
  lockId : Bytes
  fileId : Bytes
  path : PathBuf
  deriving DecidableEq, Repr

/-- `MediaPlanFileOrigin`. -/
inductive MediaPlanFileOrigin where
  | build
  | external (lockId fileId : Bytes)
  deriving DecidableEq, Repr

/-- `MediaPlanFile`. -/
structure MediaPlanFile where
  role : Bytes
  destination : Bytes
  sha256 : Sha256Digest
  sizeBytes : ℕ
  sourcePath : PathBuf
  origin : MediaPlanFileOrigin
  deriving DecidableEq, Repr

/-- `MediaImagePlan`. -/
structure MediaImagePlan where
  profileId : Bytes
  profileSha256 : Sha256Digest
  receiptSha256 : Sha256Digest
  receiptOrigin : MediaReceiptOrigin
  buildIdentity : Option MediaBuildIdentity
  targetPreset : Bytes
  model : Bytes
  transport : Bytes
  medium : Bytes
  layout : MediaLayout
  externalLockSha256 : BTreeMap Bytes Sha256Digest
  files : List MediaPlanFile
  directories : List Bytes
  generatedFiles : List Bytes
  totalPayloadBytes : ℕ
  imageCapacityBytes : Option ℕ
  rawImageSizeBytes : Option ℕ
  deriving DecidableEq

/-- What lies outside the program: the hash function, the readers and writers of the documents,
and the disk. -/
structure MediaWorld where
  sha256 : Bytes → Sha256Digest
  profileFromToml : Bytes → Except String MediaProfile
  receiptFromSlice : Bytes → Except String MediaBuildReceipt
  receiptToVec : MediaBuildReceipt → Option Bytes
  lockReaders : LockReaders
  disk : MediaDisk

/-- `join_destination`. -/
def joinDestination (destination relative : Bytes) : Bytes :=
  if destination = [] then relative else destination ++ 0x2f :: relative

/-- `valid_iso_media_path`. -/
def validIsoMediaPath (value : Bytes) : Bool :=
  value ≠ [] &&
    (codePoints value).all (fun c => !isControl c &&
      c ∉ [0x5c, 0x3a, 0x3d, 0x27, 0x22, 0x2028, 0x2029]) &&
    (value.splitOn 0x2f).all fun part => part ≠ [] && part ≠ ascii "." && part ≠ ascii ".."

/-- The files and the payload bytes of a plan under construction. -/
structure Payload where
  files : List MediaPlanFile
  totalBytes : ℕ

/-- Adds a file to the payload. -/
def Payload.push (payload : Payload) (file : MediaPlanFile) : Except MediaPlanError Payload := do
  let total ← (checkedAdd payload.totalBytes file.sizeBytes).elim
    (.error (.invalid "total payload size overflows u64")) .ok
  pure ⟨payload.files ++ [file], total⟩

section Plan

variable (world : MediaWorld) (buildRoot : PathBuf) (receipt : MediaBuildReceipt)
  (profile : MediaProfile) (locks : List ResolvedMediaInputLock)

/-- The file paths supplied for external roles, each for one file. -/
def suppliedExternal (externalFiles : List MediaExternalFile) :
    Except MediaPlanError (List ((Bytes × Bytes) × PathBuf)) :=
  externalFiles.foldlM (fun supplied file => do
    Except.ensure ((file.lockId, file.fileId) ∉ supplied.map Prod.fst)
      (.invalid "duplicate external file path")
    pure (supplied ++ [((file.lockId, file.fileId), file.path)])) []

/-- A legacy receipt that lists an external file agrees with the lock. -/
def checkLegacyFile (required : RequiredMediaFile) (input : MediaLockedInput) :
    Except MediaPlanError Unit :=
  match receipt.files.find? fun file => file.role = required.role with
  | none => pure ()
  | some legacyFile => do
    let legacyDigest ← (parseDigest legacyFile.sha256).elim
      (.error (.invalid "legacy file digest is malformed")) .ok
    let lockedDigest ← (parseDigest input.sha256).elim
      (.error (.invalid "locked file digest is malformed")) .ok
    Except.ensure (legacyDigest = lockedDigest ∧ legacyFile.sizeBytes = input.sizeBytes)
      (.invalid "legacy receipt differs from the external lock")

/-- The place of an external file, which its lock describes. -/
def planExternalFile (supplied : List ((Bytes × Bytes) × PathBuf)) (required : RequiredMediaFile)
    (external : ExternalMediaInput) : Except MediaPlanError MediaPlanFile := do
  let lock ← (locks.find? fun lock => lock.lock.id = external.lockId).elim
    (.error (.invalid "selected external lock is missing")) .ok
  let input ← (lock.lock.files.find? fun file => file.id = external.fileId).elim
    (.error (.invalid "selected locked file is missing")) .ok
  let sourcePath ← (supplied.lookup (external.lockId, external.fileId)).elim
    (.error (.invalid "selected external file path is missing")) .ok
  (verifyMediaLockedInput world.sha256 world.disk sourcePath input).mapError .external
  checkLegacyFile receipt required input
  let sha256 ← (parseDigest input.sha256).elim
    (.error (.invalid "locked file digest is malformed")) .ok
  pure ⟨required.role, required.destination, sha256, input.sizeBytes, sourcePath,
    .external external.lockId external.fileId⟩

/-- The place of a built file, which the receipt describes. -/
def planBuildFile (required : RequiredMediaFile) : Except MediaPlanError MediaPlanFile := do
  let input ← (receipt.files.find? fun file => file.role = required.role).elim
    (.error (.invalid "required build role is missing")) .ok
  let sha256 ← (parseDigest input.sha256).elim
    (.error (.invalid "build file digest is malformed")) .ok
  pure ⟨required.role, required.destination, sha256, input.sizeBytes,
    buildRoot.joinPath (PathBuf.ofBytes input.path), .build⟩

/-- The place of an explicit file. -/
def planFile (supplied : List ((Bytes × Bytes) × PathBuf)) (required : RequiredMediaFile) :
    Except MediaPlanError MediaPlanFile :=
  match required.externalInput with
  | some external => planExternalFile world receipt locks supplied required external
  | none => planBuildFile buildRoot receipt required

/-- One explicit file of the profile. -/
def planRequiredFile (supplied : List ((Bytes × Bytes) × PathBuf)) (payload : Payload)
    (required : RequiredMediaFile) : Except MediaPlanError Payload := do
  let file ← planFile world buildRoot receipt locks supplied required
  payload.push file

/-- One file of a measured tree: a file already planned there must have the same contents. -/
def planTreeFile (role destination : Bytes) (payload : Payload) (entry : MediaTreeFile × ℕ) :
    Except MediaPlanError Payload :=
  let place := joinDestination destination entry.1.relative
  match payload.files.find? fun item => item.destination = place with
  | some explicit => do
    Except.ensure (explicit.sha256 = entry.1.sha256 ∧ explicit.sizeBytes = entry.1.sizeBytes)
      (.invalid "explicit ISO input differs from its complete tree")
    pure payload
  | none =>
    payload.push ⟨role ++ 0x2d :: ascii (toString (entry.2 + 1)), place, entry.1.sha256,
      entry.1.sizeBytes, entry.1.sourcePath, .build⟩

/-- One declared tree: its directories and its files, below the destination of its role. -/
def planTree (plan : BTreeSet Bytes × Payload) (declared : MediaBuildTree) :
    Except MediaPlanError (BTreeSet Bytes × Payload) := do
  let required ← (profile.requiredTrees.find? fun tree => tree.role = declared.role).elim
    (.error (.invalid "unselected media tree in build receipt")) .ok
  let inventory ← (world.disk.measureTree world.sha256
    (buildRoot.joinPath (PathBuf.ofBytes declared.path))).mapError fun error =>
      .invalid ("cannot measure media tree: " ++ error.message)
  let payload ← inventory.files.zipIdx.foldlM (planTreeFile declared.role required.destination)
    plan.2
  pure (plan.1.extend (inventory.directories.map (joinDestination required.destination)), payload)

/-- The raw image size, the generated files and the capacity of a layout. -/
def planExtent (totalBytes : ℕ) :
    MediaLayout → Except MediaPlanError (Option ℕ × List Bytes × Option ℕ)
  | .mbrFat32 startLba sizeBytes _ => do
    Except.ensure (totalBytes ≤ sizeBytes)
      (.invalid "payload bytes exceed the FAT32 partition extent")
    let imageSize ← ((checkedMul startLba 512).bind (checkedAdd · sizeBytes)).elim
      (.error (.invalid "raw image size overflows u64")) .ok
    pure (some imageSize, [], some imageSize)
  | .iso9660ElTorito _ _ catalogPath maxSizeBytes => do
    Except.ensure (totalBytes ≤ maxSizeBytes)
      (.invalid "payload bytes exceed the ISO profile capacity")
    pure (none, [catalogPath], some maxSizeBytes)

/-- The directories with all that lies above the given places. -/
def closeDirectories (directories : BTreeSet Bytes) (places : List Bytes) : BTreeSet Bytes :=
  places.foldl (fun directories place => directories.extend (ancestors 0x2f place)) directories

/-- A file of the plan; the state is the roles and the destinations so far. -/
def checkFile (seen : BTreeSet Bytes × BTreeSet Bytes) (file : MediaPlanFile) :
    Except MediaPlanError (BTreeSet Bytes × BTreeSet Bytes) := do
  Except.ensure (file.role ∉ seen.1 ∧ file.destination ∉ seen.2)
    (.invalid "media plan has duplicate file roles or placements")
  pure (seen.1.insert file.role, seen.2.insert file.destination)

/-- No two entries of a plan are in conflict, and the names suit the layout. -/
def checkPlacements (files : List MediaPlanFile) (directories : BTreeSet Bytes)
    (generatedFiles : List Bytes) : Except MediaPlanError Unit := do
  Except.ensure (¬ files.any fun file => file.destination ∈ directories)
    (.invalid "media file conflicts with a required directory")
  let seen ← files.foldlM checkFile (.new, .new)
  Except.ensure (¬ generatedFiles.any fun path => path ∈ seen.2)
    (.invalid "media input conflicts with a generated file")
  Except.ensure (¬ generatedFiles.any fun path => path ∈ directories)
    (.invalid "generated media file conflicts with a directory")
  match profile.layout with
  | .mbrFat32 .. => pure ()
  | .iso9660ElTorito .. =>
    (files.map MediaPlanFile.destination ++ directories.elems ++ generatedFiles).forM fun path =>
      Except.ensure (validIsoMediaPath path)
        (.invalid "ISO filesystem path contains unsupported characters")

end Plan

/-- `plan_media_image`. -/
def planMediaImage (world : MediaWorld) (resolved : ResolvedMediaProfile) (buildRoot : PathBuf)
    (receiptBytes : Bytes) (lockDocuments : List (Bytes × Bytes))
    (externalFiles : List MediaExternalFile) : Except MediaPlanError MediaImagePlan := do
  let profile := resolved.profile
  let receipt ← (parseMediaBuildReceipt world.receiptToVec world.receiptFromSlice
    receiptBytes).mapError .receipt
  (verifyMediaBuildReceipt world.receiptToVec world.sha256 world.disk buildRoot receipt
    profile).mapError .receipt
  let locks ← (bindProfileMediaInputLocks world.lockReaders world.sha256 profile
    lockDocuments).mapError .external
  let expectedBuildRoles := (profile.requiredFiles.filter fun file =>
    receipt.origin = .legacyV1 ∨ file.externalInput.isNone).map RequiredMediaFile.role
  Except.ensure (sameElements (receipt.files.map MediaBuildFile.role) expectedBuildRoles)
    (.invalid "build receipt has missing or unselected roles")
  let supplied ← suppliedExternal externalFiles
  let expectedExternal := profile.requiredFiles.filterMap fun file =>
    file.externalInput.map fun external => (external.lockId, external.fileId)
  Except.ensure (sameElements (supplied.map Prod.fst) expectedExternal)
    (.invalid "external file paths differ from selected roles")
  let payload ← profile.requiredFiles.foldlM
    (planRequiredFile world buildRoot receipt locks supplied) ⟨[], 0⟩
  let planned ← receipt.trees.foldlM (planTree world buildRoot profile) (.new, payload)
  let files := sortByKey MediaPlanFile.destination planned.2.files
  let extent ← planExtent planned.2.totalBytes profile.layout
  let directories := closeDirectories planned.1
    (files.map MediaPlanFile.destination ++ extent.2.1)
  checkPlacements profile files directories extent.2.1
  pure
    { profileId := profile.id
      profileSha256 := resolved.sha256
      receiptSha256 := world.sha256 receiptBytes
      receiptOrigin := receipt.origin
      buildIdentity := receipt.buildIdentity
      targetPreset := profile.targetPreset
      model := profile.model
      transport := profile.transport
      medium := profile.medium
      layout := profile.layout
      externalLockSha256 := .collect (locks.map fun lock => (lock.lock.id, lock.sha256))
      files := files
      directories := directories.elems
      generatedFiles := extent.2.1
      totalPayloadBytes := planned.2.totalBytes
      imageCapacityBytes := extent.2.2
      rawImageSizeBytes := extent.1 }

end Media

end ArosTools
