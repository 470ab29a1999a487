import ArosTools.Board.SdImage

/-!
# MBR/FAT32 media artifacts

`stageFat32MediaPlan` composes a media plan into an image, writes the manifest and the checksums
beside it, has `verifyFat32MediaArtifact` read all three back, and publishes the directory.

The JSON writer and reader of the manifest, the hash of an image file and the steps on the host's
filesystem are parameters (`BoardHost`).
-/

namespace ArosTools

namespace Board

open Media SlashPath

/-- `MEDIA_RAW_IMAGE_FILENAME`. -/
def mediaRawImageFilename : Bytes := ascii "aros-media.img"

/-- `MEDIA_ARTIFACT_MANIFEST`. -/
def mediaArtifactManifest : Bytes := ascii "media-image.json"

/-- `ARTIFACT_CHECKSUMS`. -/
def artifactChecksums : Bytes := ascii "SHA256SUMS"

/-! ### Plans -/

section Plan

variable (sha256 : Bytes → Sha256Digest) (readSource : PathBuf → Except String Bytes)

/-- The roles, the folded destinations, the files and the payload so far. -/
structure Validated where
  roles : BTreeSet Bytes
  destinations : BTreeSet Bytes
  files : List VerifiedBootFile
  totalBytes : ℕ

/-- One file of a plan. -/
def validatePlanFile (v : Validated) (file : MediaPlanFile) : Except String Validated := do
  validateRole file.role
  Except.ensure (file.role ∉ v.roles) "The media plan has a duplicate file role."
  let destination ← validateRelativePath file.destination "media destination"
  let folded ← (casefoldPathKey destination).mapError fun error =>
    "Unsafe media destination: " ++ error.message
  Except.ensure (folded ∉ v.destinations) "The media plan has a duplicate destination."
  let contents ← readSource file.sourcePath
  Except.ensure (sha256 contents = file.sha256 ∧ contents.length = file.sizeBytes)
    ("Media source for '" ++ displayBytes file.role ++ "' changed after planning.")
  let totalBytes ← (checkedAdd v.totalBytes contents.length).elim
    (.error "Media payload byte count overflows u64.") .ok
  pure ⟨v.roles.insert file.role, v.destinations.insert folded,
    v.files ++ [⟨file.role, file.sourcePath, destination, file.sha256, file.sizeBytes⟩], totalBytes⟩

/-- No destination lies above another. -/
def checkParents (destinations : BTreeSet Bytes) : Except String Unit :=
  destinations.elems.forM fun destination => (ancestors 0x2f destination).forM fun parent =>
    Except.ensure (parent ∉ destinations) "A media file destination is a parent of another file."

/-- The order of written paths. -/
def pathKey (path : PathBuf) : List Bytes := path.components.map fun
  | .normal name => name
  | .parentDir => ascii ".."
  | .curDir => ascii "."

/-- `validate_media_plan_for_fat32`. -/
def validateMediaPlanForFat32 (plan : MediaImagePlan) :
    Except String (PartitionLayout × List VerifiedBootFile) :=
  match plan.layout with
  | .iso9660ElTorito .. => .error "The selected media plan is not an MBR/FAT32 layout."
  | .mbrFat32 startLba sizeBytes label => do
    Except.ensure (¬ (plan.medium ≠ ascii "mbr-fat32" ∨ startLba < 2048 ∨ startLba % 2048 ≠ 0 ∨
        sizeBytes < 64 * mib ∨ sizeBytes % sectorBytes ≠ 0))
      "The selected media plan has invalid MBR/FAT32 geometry."
    validateFatLabel label
    let partition : PartitionLayout := ⟨ascii "mbr", ascii "fat32", startLba, sizeBytes, label⟩
    let geometry ← imageGeometry partition
    Except.ensure (plan.rawImageSizeBytes = some geometry.imageSizeBytes)
      "The media plan's raw-image extent differs from its layout."
    Except.ensure (plan.generatedFiles = [] ∧
        plan.imageCapacityBytes = some geometry.imageSizeBytes)
      "The FAT32 media plan has an inconsistent capacity or generated inventory."
    Except.ensure (plan.files ≠ [] ∧ plan.files.length ≤ 1024)
      "The media plan has an invalid file count."
    let v ← plan.files.foldlM (validatePlanFile sha256 readSource) ⟨.new, .new, [], 0⟩
    checkParents v.destinations
    Except.ensure (v.totalBytes = plan.totalPayloadBytes ∧ v.totalBytes ≤ partition.sizeBytes)
      "Media plan payload size differs from the verified inputs or partition."
    pure (partition, sortByKey (fun file => pathKey file.destination) v.files)

/-- The value of a hexadecimal digit. -/
def hexValue (b : UInt8) : ℕ := if b < 0x3a then b.toNat - 0x30 else b.toNat - 0x57

/-- The first four bytes of a digest, as a little-endian number. -/
def digestPrefixLe (digest : Sha256Digest) : ℕ :=
  let byte := fun i => hexValue (digest.getD (2 * i) 0) * 16 + hexValue (digest.getD (2 * i + 1) 0)
  byte 0 + 256 * byte 1 + 65536 * byte 2 + 16777216 * byte 3

/-- `stable_media_volume_id`. -/
def stableMediaVolumeId (plan : MediaImagePlan) : ℕ :=
  digestPrefixLe (sha256 (ascii "aros-media-volume-id-v1\n" ++ plan.profileSha256 ++ [0x0a] ++
    plan.receiptSha256 ++ [0x0a] ++
    plan.externalLockSha256.entries.flatMap fun lock => lock.1 ++ 0x3d :: lock.2 ++ [0x0a]))

end Plan

/-! ### Manifests -/

/-- `ManifestFile`. -/
structure ManifestFile where
  role : Bytes
  destination : Bytes
  sha256 : Sha256Digest
  sizeBytes : ℕ
  origin : MediaPlanFileOrigin
  deriving DecidableEq, Repr

/-- `ManifestImage`. -/
structure ManifestImage where
  filename : Bytes
  sha256 : Sha256Digest
  sizeBytes : ℕ
  deriving DecidableEq, Repr

/-- `Manifest`. -/
structure Manifest where
  formatVersion : ℕ
  kind : Bytes
  profileId : Bytes
  profileSha256 : Sha256Digest
  receiptSha256 : Sha256Digest
  receiptOrigin : MediaReceiptOrigin
  buildIdentity : Option MediaBuildIdentity
  targetPreset : Bytes
  model : Bytes
  transport : Bytes
  medium : Bytes
  partition : PartitionLayout
  externalLockSha256 : BTreeMap Bytes Sha256Digest
  files : List ManifestFile
  image : ManifestImage
  deriving DecidableEq

/-- The document of `render_media_manifest`. -/
def mediaManifest (plan : MediaImagePlan) (partition : PartitionLayout) (image : RawImage) :
    Manifest where
  formatVersion := 2
  kind := ascii "aros-media-image"
  profileId := plan.profileId
  profileSha256 := plan.profileSha256
  receiptSha256 := plan.receiptSha256
  receiptOrigin := plan.receiptOrigin
  buildIdentity := plan.buildIdentity
  targetPreset := plan.targetPreset
  model := plan.model
  transport := plan.transport
  medium := plan.medium
  partition := partition
  externalLockSha256 := plan.externalLockSha256
  files := (sortByKey MediaPlanFile.destination plan.files).map fun file =>
    ⟨file.role, file.destination, file.sha256, file.sizeBytes, file.origin⟩
  image := ⟨mediaRawImageFilename, image.sha256, image.sizeBytes⟩

/-- The lock of an external file, and whether its IDs are roles. -/
def originLock (origin : MediaPlanFileOrigin) : Except String (Option Bytes) :=
  match origin with
  | .build => .ok none
  | .external lockId fileId => do
    validateRole lockId
    validateRole fileId
    pure (some lockId)

/-- The roles, the folded destinations, the referenced locks and the files so far. -/
structure ManifestRead where
  roles : BTreeSet Bytes
  destinations : BTreeSet Bytes
  referencedLocks : BTreeSet Bytes
  files : List ImageFileExpectation

/-- One file of a manifest. -/
def validateManifestFile (m : ManifestRead) (file : ManifestFile) :
    Except String ManifestRead := do
  validateRole file.role
  Except.ensure (file.role ∉ m.roles) "Media manifest has a duplicate role."
  let destination ← validateRelativePath file.destination "media destination"
  let folded ← (casefoldPathKey destination).mapError fun error =>
    "Unsafe media destination: " ++ error.message
  Except.ensure (folded ∉ m.destinations) "Media manifest has a duplicate destination."
  let lock ← originLock file.origin
  pure ⟨m.roles.insert file.role, m.destinations.insert folded,
    m.referencedLocks.extend lock.toList,
    m.files ++ [⟨destination, file.sha256, file.sizeBytes⟩]⟩

/-- The texts of a manifest that must not be blank, with their names. -/
def identityFields (manifest : Manifest) : List (Bytes × String) :=
  [(manifest.profileId, "profile ID"), (manifest.targetPreset, "target preset"),
    (manifest.model, "model"), (manifest.transport, "transport")]

/-- `validate_manifest`. -/
def validateManifest (manifest : Manifest) : Except String (List ImageFileExpectation) := do
  Except.ensure ((manifest.formatVersion = 1 ∨ manifest.formatVersion = 2) ∧
      manifest.kind = ascii "aros-media-image" ∧ manifest.medium = ascii "mbr-fat32" ∧
      manifest.partition.scheme = ascii "mbr" ∧ manifest.partition.filesystem = ascii "fat32" ∧
      manifest.image.filename = mediaRawImageFilename)
    "Unsupported media image manifest identity or layout."
  Except.ensure (¬ (manifest.formatVersion = 1 ∧ manifest.buildIdentity.isSome))
    "Historical media manifest cannot claim a build identity."
  Except.ensure (¬ (manifest.receiptOrigin = .legacyV1 ∧ manifest.buildIdentity.isSome))
    "Legacy media manifest cannot claim a build identity."
  manifest.buildIdentity.toList.forM fun identity =>
    (validateMediaBuildIdentity identity).mapError fun _ =>
      "Media manifest build identity is invalid"
  (identityFields manifest).forM fun field => Except.ensure (field.1 ≠ [] ∧ isTrimmed field.1)
    ("Media manifest has an invalid " ++ field.2 ++ ".")
  validateFatLabel manifest.partition.label
  Except.ensure (¬ (manifest.partition.startLba < 2048 ∨ manifest.partition.startLba % 2048 ≠ 0 ∨
      manifest.partition.sizeBytes < 64 * mib ∨ manifest.partition.sizeBytes % sectorBytes ≠ 0))
    "Media manifest has invalid MBR/FAT32 geometry."
  Except.ensure (manifest.files ≠ [] ∧ manifest.files.length ≤ 1024)
    "Media manifest has an invalid file count."
  let m ← manifest.files.foldlM validateManifestFile ⟨.new, .new, .new, []⟩
  checkParents m.destinations
  manifest.externalLockSha256.keys.forM validateRole
  Except.ensure (m.referencedLocks = .collect manifest.externalLockSha256.keys)
    "Media manifest external locks differ from selected files."
  pure m.files

/-! ### Artifacts -/

/-- A file of an artifact directory. -/
inductive ArtifactFile (fat : FatFs) where
  | image (image : ImageFile fat)
  | text (bytes : Bytes)

/-- An artifact directory: the entries by their names. -/
abbrev Artifact (fat : FatFs) := List (Bytes × ArtifactFile fat)

/-- What lies outside the program while it stages an artifact. -/
structure BoardHost (fat : FatFs) where
  sha256 : Bytes → Sha256Digest
  /-- The SHA-256 of an image file. -/
  hashImage : ImageFile fat → Sha256Digest
  manifestToVec : Manifest → Except String Bytes
  manifestFromSlice : Bytes → Except String Manifest
  /-- A source file when the plan is validated, and when it is copied. -/
  readSource : PathBuf → Except String Bytes
  copySource : PathBuf → Except String Bytes
  /-- `resolve_new_output_path`. -/
  resolveOutput : PathBuf → Except String PathBuf
  /-- The private directory beside the output. -/
  createStage : PathBuf → Except String PathBuf
  /-- `write_new_file` and the rename that publishes: whether they succeed. -/
  writeNew : Bytes → Except String Unit
  publish : PathBuf → PathBuf → Except String Unit

/-- `StagedMediaImage`. -/
structure StagedMediaImage where
  artifactDir : PathBuf
  image : RawImage
  manifestPath : PathBuf
  deriving DecidableEq, Repr

/-- `VerifiedMediaArtifact`. -/
structure VerifiedMediaArtifact where
  medium : Bytes
  profileId : Bytes
  profileSha256 : Sha256Digest
  receiptSha256 : Sha256Digest
  receiptOrigin : MediaReceiptOrigin
  buildIdentity : Option MediaBuildIdentity
  targetPreset : Bytes
  externalLockSha256 : BTreeMap Bytes Sha256Digest
  imageSha256 : Sha256Digest
  imageSizeBytes : ℕ
  fileCount : ℕ
  deriving DecidableEq

section Artifact

variable {fat : FatFs} (host : BoardHost fat)

/-- The text of `SHA256SUMS`. -/
def checksumText (imageSha256 manifestSha256 : Sha256Digest) : Bytes :=
  imageSha256 ++ ascii "  " ++ mediaRawImageFilename ++ [0x0a] ++
    manifestSha256 ++ ascii "  " ++ mediaArtifactManifest ++ [0x0a]

/-- `read_bounded_regular`. -/
def readBoundedRegular (artifact : Artifact fat) (name : Bytes) (limit : ℕ) :
    Except String Bytes :=
  match artifact.lookup name with
  | some (.text bytes) => do
    Except.ensure (bytes.length ≤ limit) "Media metadata file exceeds its size limit."
    pure bytes
  | _ => .error "Cannot open regular media file"

/-- The image of an artifact. -/
def openImage (artifact : Artifact fat) : Except String (ImageFile fat) :=
  match artifact.lookup mediaRawImageFilename with
  | some (.image image) => .ok image
  | _ => .error "Cannot open regular media image"

/-- `verify_fat32_media_artifact`. -/
def verifyFat32MediaArtifact (artifact : Artifact fat) : Except String VerifiedMediaArtifact := do
  let names := artifact.map Prod.fst
  Except.ensure (names.Nodup ∧ names.all (· ∈ [mediaRawImageFilename, mediaArtifactManifest,
      artifactChecksums])) "Media artifact contains unexpected entry"
  Except.ensure (names.length = 3) "Media artifact is missing a required file."
  let manifestBytes ← readBoundedRegular artifact mediaArtifactManifest (2 * mib)
  let manifest ← host.manifestFromSlice manifestBytes
  let files ← validateManifest manifest
  let checksums ← readBoundedRegular artifact artifactChecksums 512
  Except.ensure (checksums = checksumText manifest.image.sha256 (host.sha256 manifestBytes))
    "Media artifact SHA256SUMS does not match its manifest and image."
  let image ← openImage artifact
  Except.ensure (host.hashImage image = manifest.image.sha256 ∧
      image.size = manifest.image.sizeBytes)
    "Media image size or SHA-256 differs from its manifest."
  let geometry ← imageGeometry manifest.partition
  Except.ensure (geometry.imageSizeBytes = image.size)
    "Media image extent differs from its partition geometry."
  verifyRawImage fat host.sha256 files image geometry
  pure
    { medium := manifest.medium
      profileId := manifest.profileId
      profileSha256 := manifest.profileSha256
      receiptSha256 := manifest.receiptSha256
      receiptOrigin := manifest.receiptOrigin
      buildIdentity := manifest.buildIdentity
      targetPreset := manifest.targetPreset
      externalLockSha256 := manifest.externalLockSha256
      imageSha256 := host.hashImage image
      imageSizeBytes := image.size
      fileCount := files.length }

/-- `render_media_manifest`. -/
def renderMediaManifest (plan : MediaImagePlan) (partition : PartitionLayout) (image : RawImage) :
    Except String Bytes := do
  let encoded ← host.manifestToVec (mediaManifest plan partition image)
  pure (encoded ++ [0x0a])

/-- `stage_fat32_media_plan_with_gate`: the result, and the directory that was published. -/
def stageFat32MediaPlanWithGate (plan : MediaImagePlan) (outputDir : PathBuf)
    (identityGate : Except String Unit) :
    Except String (StagedMediaImage × Artifact fat) := do
  let (partition, files) ← validateMediaPlanForFat32 host.sha256 host.readSource plan
  let destination ← host.resolveOutput outputDir
  let stage ← host.createStage destination
  let (image, imageFile) ← buildRawImageFromParts fat host.sha256 host.copySource host.hashImage
    partition files (stableMediaVolumeId host.sha256 plan) (stage.join mediaRawImageFilename)
  let manifest ← renderMediaManifest host plan partition image
  host.writeNew mediaArtifactManifest
  let checksums := checksumText image.sha256 (host.sha256 manifest)
  host.writeNew artifactChecksums
  let artifact : Artifact fat := [(mediaRawImageFilename, .image imageFile),
    (mediaArtifactManifest, .text manifest), (artifactChecksums, .text checksums)]
  let _ ← verifyFat32MediaArtifact host artifact
  identityGate
  host.publish stage destination
  pure (⟨destination, ⟨destination.join mediaRawImageFilename, image.sha256, image.sizeBytes⟩,
    destination.join mediaArtifactManifest⟩, artifact)

/-- `stage_fat32_media_plan`. -/
def stageFat32MediaPlan (plan : MediaImagePlan) (outputDir : PathBuf) :
    Except String (StagedMediaImage × Artifact fat) :=
  stageFat32MediaPlanWithGate host plan outputDir (.ok ())

end Artifact

end Board

end ArosTools
