import ArosTools.Media.Profile
import ArosTools.Program.Basic

/-!
# Writing an image onto an SD card

The writer re-verifies an image artifact, scans the disks for the selected one, compares the
confirmation token, opens the raw disk, checks it again and copies the image. It reads the image
once to verify it and once more to copy it.

Everything outside of the program is an answer to a `Call`: `World` gives one answer to every call,
and a run has another world at each of its steps, so that other processes and the disk backend may
do anything between and during the passes.

* `verifyImageArtifact` : the verification of an artifact.
* `prepareVerifiedWrite` : the selection of the disk and the token.
* `writeVerifiedImage` : the writer.

The hash function and the reader of the manifest are parameters.
-/

namespace ArosTools

namespace SdDisk

open Media

/-! ### Data -/

/-- `UsbEcmArtifactIdentity`. -/
structure UsbEcmArtifactIdentity where
  vendorId : ℕ
  productId : ℕ
  serial : Bytes
  expectedTargetMac : Bytes
  deriving DecidableEq, Repr

/-- `BoardImageExpectation`. -/
structure BoardImageExpectation where
  name : Bytes
  model : Bytes
  transport : Bytes
  usbEcmIdentity : Option UsbEcmArtifactIdentity
  deriving DecidableEq, Repr

/-- `DiskCandidate`, with the fields the writer reads. -/
structure DiskCandidate where
  scanId : Bytes
  fingerprint : Bytes
  sizeBytes : ℕ
  identity : Bytes
  model : Bytes
  transport : Bytes
  wholeDisk : Bool
  removable : Bool
  writable : Bool
  mounted : Bool
  deriving DecidableEq, Repr

/-- `VerifiedImageArtifact`. -/
structure VerifiedImageArtifact where
  artifactDir : PathBuf
  manifestRelativePath : PathBuf
  imageRelativePath : PathBuf
  manifestPath : PathBuf
  imagePath : PathBuf
  manifestSha256 : Sha256Digest
  imageSha256 : Sha256Digest
  imageSizeBytes : ℕ
  minimumDeviceBytes : ℕ
  board : BoardImageExpectation
  deriving DecidableEq, Repr

/-- `ImageManifest`, with the fields the verification reads. -/
structure ImageManifest where
  formatVersion : ℕ
  kind : Bytes
  boardName : Bytes
  boardModel : Bytes
  boardTransport : Bytes
  usbEcm : Option UsbEcmArtifactIdentity
  layoutSha256 : Bytes
  sourceSha256 : Bytes
  imageFilename : Bytes
  imageSha256 : Bytes
  imageSizeBytes : ℕ
  minimumDeviceBytes : ℕ
  payloadSha256 : List Bytes
  deriving DecidableEq, Repr

/-- `WritePlan`. -/
structure WritePlan where
  artifact : VerifiedImageArtifact
  candidate : DiskCandidate
  confirmationToken : Bytes
  deriving DecidableEq, Repr

/-- `WriteReport`. -/
structure WriteReport where
  scanId : Bytes
  diskFingerprint : Bytes
  bytesWritten : ℕ
  readbackSha256 : Sha256Digest
  deriving DecidableEq, Repr

/-- `FORMAT_VERSION`. -/
def formatVersion : ℕ := 1

/-- `KIND`. -/
def manifestKind : Bytes := ascii "aros-board-sd-image"

/-- `CONFIRMATION_TOKEN_PREFIX`. -/
def confirmationTokenPrefix : Bytes := ascii "aros-sd-write-v1:"

/-- `COPY_BUFFER_BYTES`. -/
def copyBufferBytes : ℕ := 1024 * 1024

/-- `UBOOT_USB_ECM_TRANSPORT`. -/
def ubootUsbEcmTransport : Bytes := ascii "uboot-usb-ecm"

/-! ### Checks -/

/-- `safe_metadata`. -/
def safeMetadata (value : Bytes) : Bool := value ≠ [] && isTrimmed value && !hasControl value

/-- `normalized_sha256`. -/
def normalizedSha256 (value : Bytes) (label : String) : Except String Sha256Digest :=
  match parseDigest value with
  | some digest => .ok digest
  | none => .error (label ++ " must be a 64-character SHA-256 hexadecimal digest.")

/-- The names of a path without other components. -/
def plainNames (path : PathBuf) : Option (List Bytes) :=
  if path.absolute then none
  else path.components.mapM fun
    | .normal name => some name
    | _ => none

/-- `safe_relative_path`. -/
def safeRelativePath (path : PathBuf) (label : String) : Except String PathBuf := do
  Except.ensure (path.absolute ∨ path.components ≠ []) (label ++ " must not be empty.")
  Except.ensure (path.components.all fun
      | .normal name => isUtf8 name
      | _ => true)
    (label ++ " must be valid UTF-8 and a portable relative path.")
  Except.ensure (path.components.all fun
      | .normal name => !name.contains 0x5c && !hasControl name
      | _ => true)
    (label ++ " '" ++ path.display ++ "' is not a portable relative path.")
  match plainNames path with
  | none =>
    .error (label ++ " '" ++ path.display ++ "' must be a relative path without '.' or '..'.")
  | some _ => .ok path

/-- `u8::from_str_radix(part, 16)` of a part of two characters. A leading plus sign is accepted. -/
def octetOfHex (part : Bytes) : Option ℕ :=
  let digit (b : UInt8) : Option ℕ :=
    if 0x30 ≤ b ∧ b ≤ 0x39 then some (b.toNat - 0x30)
    else if 0x61 ≤ b ∧ b ≤ 0x66 then some (b.toNat - 0x57)
    else if 0x41 ≤ b ∧ b ≤ 0x46 then some (b.toNat - 0x37)
    else none
  match part with
  | [high, low] =>
    if high = 0x2b then digit low else do
      let h ← digit high
      let l ← digit low
      pure (h * 16 + l)
  | _ => none

/-- `normalize_unicast_mac`. -/
def normalizeUnicastMac (value : Bytes) (label : String) : Except String Bytes := do
  let parts := value.splitOn 0x3a
  Except.ensure (parts.length = 6 ∧ parts.all fun part => part.length = 2)
    (label ++ ".expected_target_mac '" ++ displayBytes value ++
      "' must be a six-octet colon-separated MAC address.")
  match parts.mapM octetOfHex with
  | none => .error (label ++ ".expected_target_mac '" ++ displayBytes value ++
      "' has an invalid octet.")
  | some octets => do
    Except.ensure (¬ (octets.all (· = 0) ∨ octets.head?.any (· % 2 = 1)))
      (label ++ ".expected_target_mac '" ++ displayBytes value ++
        "' must be a non-zero unicast MAC address.")
    pure ([0x3a].intercalate (octets.map (hexDigits 2)))

/-- `normalized_usb_ecm_identity`. -/
def normalizedUsbEcmIdentity (identity : UsbEcmArtifactIdentity) (label : String) :
    Except String UsbEcmArtifactIdentity := do
  Except.ensure (identity.vendorId ≠ 0 ∧ identity.productId ≠ 0)
    (label ++ " must have non-zero USB vendor_id and product_id.")
  Except.ensure (safeMetadata identity.serial)
    (label ++ ".serial must be non-empty and contain no surrounding whitespace or control characters.")
  let mac ← normalizeUnicastMac identity.expectedTargetMac label
  pure { identity with expectedTargetMac := mac }

/-- `validate_board_expectation`. -/
def validateBoardExpectation (expectation : BoardImageExpectation) (label : String) :
    Except String Unit := do
  let problem (field : String) := label ++ "." ++ field ++
    " must be non-empty and contain no surrounding whitespace or control characters."
  Except.ensure (safeMetadata expectation.name) (problem "name")
  Except.ensure (safeMetadata expectation.model) (problem "model")
  Except.ensure (safeMetadata expectation.transport) (problem "transport")
  match expectation.usbEcmIdentity with
  | some identity =>
    if expectation.transport = ubootUsbEcmTransport then do
      let _ ← normalizedUsbEcmIdentity identity (label ++ ".usb_ecm")
      pure ()
    else .error (label ++ " declares usb_ecm identity but transport is not 'uboot-usb-ecm'.")
  | none =>
    Except.ensure (expectation.transport ≠ ubootUsbEcmTransport)
      (label ++ " uses 'uboot-usb-ecm' but lacks a complete USB-ECM identity.")

/-- `normalized_board_expectation`. -/
def normalizedBoardExpectation (expectation : BoardImageExpectation) (label : String) :
    Except String BoardImageExpectation := do
  validateBoardExpectation expectation label
  match expectation.usbEcmIdentity with
  | none => pure expectation
  | some identity => do
    let normalized ← normalizedUsbEcmIdentity identity (label ++ ".usb_ecm")
    pure { expectation with usbEcmIdentity := some normalized }

/-- `board_expectation_from_manifest`. -/
def boardExpectationFromManifest (manifest : ImageManifest) :
    Except String BoardImageExpectation := do
  let expectation : BoardImageExpectation :=
    { name := manifest.boardName
      model := manifest.boardModel
      transport := manifest.boardTransport
      usbEcmIdentity := manifest.usbEcm }
  validateBoardExpectation expectation "SD image manifest"
  normalizedBoardExpectation expectation "SD image manifest"

/-- `validate_verified_board_match`. -/
def validateVerifiedBoardMatch (artifact : VerifiedImageArtifact)
    (expectation : BoardImageExpectation) : Except String Unit := do
  let expected ← normalizedBoardExpectation expectation "local board expectation"
  Except.ensure (artifact.board.name = expected.name)
    "SD image manifest board.name does not match selected board; no disk was opened."
  Except.ensure (artifact.board.model = expected.model)
    "SD image manifest board.model does not match selected board model; no disk was opened."
  Except.ensure (artifact.board.transport = expected.transport)
    "SD image manifest board.transport does not match selected board transport; no disk was opened."
  Except.ensure (artifact.board.usbEcmIdentity = expected.usbEcmIdentity)
    "SD image manifest USB-ECM identity does not match selected board; no disk was opened."

/-- `DiskCandidate::validate_for_write`. -/
def DiskCandidate.validateForWrite (candidate : DiskCandidate) (minimumDeviceBytes : ℕ) :
    Except String Unit := do
  Except.ensure (candidate.scanId ≠ [] ∧ (parseDigest candidate.fingerprint).isSome ∧
      safeMetadata candidate.identity ∧ safeMetadata candidate.model ∧
      safeMetadata candidate.transport)
    "Selected disk candidate has incomplete or malformed identity data."
  Except.ensure (candidate.wholeDisk ∧ candidate.removable ∧ candidate.writable ∧
      ¬ candidate.mounted)
    "Selected disk is no longer a safe, whole, removable, writable, unmounted target."
  Except.ensure (minimumDeviceBytes ≤ candidate.sizeBytes)
    "Selected disk is smaller than the verified image requires."

/-! ### Calls -/

/-- What a path is. -/
inductive FileKind where
  | file
  | dir
  | symlink
  | other
  deriving DecidableEq, Repr

/-- The bytes of one `read` into a buffer of `limit` bytes. -/
abbrev Chunk (limit : ℕ) := { bytes : Bytes // bytes.length ≤ limit }

/-- The calls of the writer. -/
inductive Call : Type → Type
  | metadata (path : PathBuf) : Call (Except String FileKind)
  | symlinkMetadata (path : PathBuf) : Call (Except String FileKind)
  | canonicalize (path : PathBuf) : Call (Except String PathBuf)
  /-- A file read from its beginning to its end. -/
  | read (path : PathBuf) : Call (Except String Bytes)
  | scan : Call (Except String (List DiskCandidate))
  | openVerifiedTarget (candidate : DiskCandidate) : Call (Except String Unit)
  | verifyTargetSafeAfterOpen (candidate : DiskCandidate) : Call (Except String Unit)
  /-- Go to the beginning of the target. -/
  | seekTarget : Call (Except String Unit)
  | openImage (path : PathBuf) : Call (Except String Unit)
  | readImage (limit : ℕ) : Call (Except String (Chunk limit))
  | writeAll (bytes : Bytes) : Call (Except String Unit)
  | syncAll : Call (Except String Unit)
  | readTarget (limit : ℕ) : Call (Except String (Chunk limit))
  /-- Close the target and give up the claim on it. -/
  | finish : Call (Except String Unit)

/-- One answer to every call. -/
structure World where
  metadata : PathBuf → Except String FileKind
  symlinkMetadata : PathBuf → Except String FileKind
  canonicalize : PathBuf → Except String PathBuf
  read : PathBuf → Except String Bytes
  scan : Except String (List DiskCandidate)
  openVerifiedTarget : DiskCandidate → Except String Unit
  verifyTargetSafeAfterOpen : DiskCandidate → Except String Unit
  seekTarget : Except String Unit
  openImage : PathBuf → Except String Unit
  readImage : (limit : ℕ) → Except String (Chunk limit)
  /-- The number of bytes after which a write fails, if it does. -/
  writeFails : Bytes → Option ℕ
  syncAll : Except String Unit
  readTarget : (limit : ℕ) → Except String (Chunk limit)
  finish : Except String Unit

/-- What a run has seen. -/
inductive Event where
  | read (path : PathBuf) (bytes : Bytes)
  | scanned (candidates : List DiskCandidate)
  | opened (candidate : DiskCandidate)
  | accepted (candidate : DiskCandidate)
  deriving DecidableEq, Repr

/-- The state of a run: what it has seen, and what has happened to the target. -/
structure State where
  log : List Event := []
  /-- The position of the target's handle. -/
  position : ℕ := 0
  /-- The bytes written to the target, with their offsets. -/
  written : List (UInt8 × ℕ) := []
  /-- A write has failed. -/
  writeFailed : Bool := false
  /-- The number of bytes that the image has delivered to the copy. -/
  delivered : ℕ := 0
  /-- The bytes read from the target since its beginning was last sought. -/
  readBack : Bytes := []
  deriving DecidableEq, Repr

/-- Note an event. -/
def State.note (s : State) (event : Event) : State := { s with log := s.log ++ [event] }

/-- Write bytes at the position of the handle. -/
def State.write (s : State) (bytes : Bytes) : State :=
  { s with
    written := s.written ++ bytes.zipIdx s.position
    position := s.position + bytes.length }

/-- Note what a successful call has seen. -/
def State.noteOk {α : Type} (s : State) (result : Except String α) (event : α → Event) : State :=
  match result with
  | .ok a => s.note (event a)
  | .error _ => s

/-- A call in a world. -/
def step : {β : Type} → Call β → World → State → β × State
  | _, .metadata path, w, s => (w.metadata path, s)
  | _, .symlinkMetadata path, w, s => (w.symlinkMetadata path, s)
  | _, .canonicalize path, w, s => (w.canonicalize path, s)
  | _, .read path, w, s => (w.read path, s.noteOk (w.read path) (.read path))
  | _, .scan, w, s => (w.scan, s.noteOk w.scan .scanned)
  | _, .openVerifiedTarget candidate, w, s =>
    (w.openVerifiedTarget candidate,
      s.noteOk (w.openVerifiedTarget candidate) fun _ => .opened candidate)
  | _, .verifyTargetSafeAfterOpen candidate, w, s =>
    (w.verifyTargetSafeAfterOpen candidate,
      s.noteOk (w.verifyTargetSafeAfterOpen candidate) fun _ => .accepted candidate)
  | _, .seekTarget, w, s =>
    (w.seekTarget, match w.seekTarget with
      | .ok _ => { s with position := 0, readBack := [] }
      | .error _ => s)
  | _, .openImage path, w, s => (w.openImage path, s)
  | _, .readImage limit, w, s =>
    (w.readImage limit, match w.readImage limit with
      | .ok chunk => { s with delivered := s.delivered + chunk.val.length }
      | .error _ => s)
  | _, .writeAll bytes, w, s =>
    match w.writeFails bytes with
    | none => (.ok (), s.write bytes)
    | some n => (.error "write failed", { s.write (bytes.take n) with writeFailed := true })
  | _, .syncAll, w, s => (w.syncAll, s)
  | _, .readTarget limit, w, s =>
    (w.readTarget limit, match w.readTarget limit with
      | .ok chunk => { s with readBack := s.readBack ++ chunk.val }
      | .error _ => s)
  | _, .finish, w, s => (w.finish, s)

/-- The calls of the writer in worlds. -/
def machine : Machine Call State World where
  step := step

/-- Programs of the writer. -/
abbrev Writer (α : Type) := ExceptT String (Prog Call) α

/-- A call whose failure ends the run. -/
def perform {α : Type} (op : Call (Except String α)) : Writer α := ExceptT.mk (Prog.perform op)

/-- A check whose failure ends the run. -/
def check {α : Type} (result : Except String α) : Writer α := ExceptT.mk (pure result)

/-! ### The artifact -/

/-- `canonical_existing_directory`. -/
def canonicalExistingDirectory (path : PathBuf) (label : String) : Writer PathBuf := do
  let kind ← perform (.metadata path)
  check (Except.ensure (kind = .dir) (label ++ " '" ++ path.display ++ "' is not a directory."))
  perform (.canonicalize path)

/-- The loop of `verified_regular_child` over the components of the path. -/
def walkComponents (label : String) : PathBuf → List Component → Writer PathBuf
  | current, [] => pure current
  | current, .normal part :: rest => do
    let kind ← perform (.symlinkMetadata (current.join part))
    check (Except.ensure (kind ≠ .symlink)
      (label ++ " '" ++ (current.join part).display ++ "' must not contain symbolic links."))
    walkComponents label (current.join part) rest
  | _, _ :: _ => check (.error ("Internal error: unvalidated relative " ++ label ++ " path."))

/-- `verified_regular_child`. -/
def verifiedRegularChild (root relativePath : PathBuf) (label : String) : Writer PathBuf := do
  let current ← walkComponents label root relativePath.components
  let kind ← perform (.metadata current)
  check (Except.ensure (kind = .file)
    (label ++ " '" ++ current.display ++ "' must be a regular file."))
  let canonical ← perform (.canonicalize current)
  check (Except.ensure (canonical.startsWith root)
    (label ++ " '" ++ canonical.display ++ "' resolves outside artifact directory."))
  pure canonical

section

variable (sha256 : Bytes → Sha256Digest) (manifestFromSlice : Bytes → Except String ImageManifest)

/-- `validate_image_manifest`. -/
def validateImageManifest (manifest : ImageManifest) (requestedImageRelativePath : PathBuf)
    (requestedImagePath : PathBuf) : Writer Unit := do
  check (Except.ensure (manifest.formatVersion = formatVersion)
    "SD image manifest has an unsupported format_version.")
  check (Except.ensure (manifest.kind = manifestKind)
    "SD image manifest kind is not 'aros-board-sd-image'.")
  let declared ← check (safeRelativePath (PathBuf.ofBytes manifest.imageFilename)
    "manifest image.filename")
  check (Except.ensure (declared = requestedImageRelativePath)
    "SD image manifest declares another image than the explicitly selected one.")
  let kind ← ExceptT.lift (Prog.perform (.metadata requestedImagePath))
  check (Except.ensure (kind = .ok .file) "Selected SD image is not a regular file.")
  let _ ← check (normalizedSha256 manifest.imageSha256 "SD image manifest.image.sha256")
  let _ ← check (normalizedSha256 manifest.layoutSha256 "SD image manifest.partition.layout_sha256")
  let _ ← check (normalizedSha256 manifest.sourceSha256 "SD image manifest.source_manifest.sha256")
  let _ ← check (manifest.payloadSha256.mapM fun digest =>
    normalizedSha256 digest "SD image manifest.payload.sha256")
  pure ()

/-- `verify_image_artifact`. -/
def verifyImageArtifact (artifactDir manifestRelativePath imageRelativePath : PathBuf) :
    Writer VerifiedImageArtifact := do
  let artifactDir ← canonicalExistingDirectory artifactDir "SD image artifact directory"
  let manifestRelativePath ← check (safeRelativePath manifestRelativePath "image manifest path")
  let imageRelativePath ← check (safeRelativePath imageRelativePath "image path")
  let manifestPath ← verifiedRegularChild artifactDir manifestRelativePath "SD image manifest"
  let imagePath ← verifiedRegularChild artifactDir imageRelativePath "SD image"
  let manifestBytes ← perform (.read manifestPath)
  let manifest ← check (manifestFromSlice manifestBytes)
  validateImageManifest manifest imageRelativePath imagePath
  let board ← check (boardExpectationFromManifest manifest)
  let imageSha256 ← check (normalizedSha256 manifest.imageSha256 "SD image manifest.image.sha256")
  check (Except.ensure (manifest.imageSizeBytes ≠ 0 ∧
      manifest.imageSizeBytes ≤ manifest.minimumDeviceBytes)
    "SD image manifest declares an image size or a minimum device size that is not usable.")
  let imageBytes ← perform (.read imagePath)
  check (Except.ensure (imageBytes.length = manifest.imageSizeBytes)
    "SD image is not as long as its manifest declares.")
  check (Except.ensure (sha256 imageBytes = imageSha256) "SHA-256 mismatch for SD image.")
  pure
    { artifactDir := artifactDir
      manifestRelativePath := manifestRelativePath
      imageRelativePath := imageRelativePath
      manifestPath := manifestPath
      imagePath := imagePath
      manifestSha256 := sha256 manifestBytes
      imageSha256 := imageSha256
      imageSizeBytes := manifest.imageSizeBytes
      minimumDeviceBytes := manifest.minimumDeviceBytes
      board := board }

/-! ### The writer -/

/-- A number in decimal digits. -/
def decimalText (n : ℕ) : Bytes := (Nat.toDigits 10 n).map fun c => UInt8.ofNat c.toNat

/-- `confirmation_token`. The separators are a backslash and an `n`. -/
def confirmationToken (artifact : VerifiedImageArtifact) (candidate : DiskCandidate) : Bytes :=
  confirmationTokenPrefix ++ sha256 (ascii "aros-sd-write-v1\\nmanifest=" ++
    artifact.manifestSha256 ++ ascii "\\nimage=" ++ artifact.imageSha256 ++
    ascii "\\nimage_size=" ++ decimalText artifact.imageSizeBytes ++
    ascii "\\nminimum_device=" ++ decimalText artifact.minimumDeviceBytes ++
    ascii "\\ndisk=" ++ candidate.fingerprint ++ ascii "\\n")

/-- `trim().is_empty()` of the selected id. -/
def requireScanId (selectedScanId : Bytes) : Except String Unit :=
  Except.ensure (¬ isBlank selectedScanId)
    "An explicit non-empty SD scan ID is required before writing."

/-- The only candidate with the selected id. -/
def selectCandidate (candidates : List DiskCandidate) (selectedScanId : Bytes) :
    Except String DiskCandidate :=
  match candidates.filter (·.scanId = selectedScanId) with
  | [candidate] => .ok candidate
  | [] => .error "No currently safe removable whole disk has the selected scan ID."
  | _ => .error "More than one current disk has the selected scan ID; refusing an ambiguous write."

/-- `prepare_verified_write_with_backend`. -/
def prepareVerifiedWrite (artifact : VerifiedImageArtifact) (selectedScanId : Bytes) :
    Writer WritePlan := do
  check (requireScanId selectedScanId)
  let candidates ← perform .scan
  let candidate ← check (selectCandidate candidates selectedScanId)
  check (candidate.validateForWrite artifact.minimumDeviceBytes)
  pure
    { artifact := artifact
      candidate := candidate
      confirmationToken := confirmationToken sha256 artifact candidate }

/-- The loop of `copy_image_to_target`, which ends with the image; `fuel` rounds of it. -/
def copyLoop : ℕ → Bytes → Writer Bytes
  | 0, _ => check (.error "still copying")
  | fuel + 1, hashed => do
    let chunk ← perform (.readImage copyBufferBytes)
    if chunk.val = [] then pure hashed
    else do
      perform (.writeAll chunk.val)
      copyLoop fuel (hashed ++ chunk.val)

/-- `copy_image_to_target`. -/
def copyImageToTarget (fuel : ℕ) (imagePath : PathBuf) : Writer Sha256Digest := do
  perform (.openImage imagePath)
  let hashed ← copyLoop fuel []
  pure (sha256 hashed)

/-- The loop of `hash_target_prefix`. Every round reads at least one byte, so as many rounds as
there are bytes are enough. -/
def readbackLoop : ℕ → ℕ → Bytes → Writer Bytes
  | _, 0, hashed => pure hashed
  | 0, _ + 1, _ => check (.error "Internal SD image readback underflow.")
  | fuel + 1, remaining + 1, hashed => do
    let chunk ← perform (.readTarget (min (remaining + 1) copyBufferBytes))
    check (Except.ensure (chunk.val ≠ [])
      "Target disk ended before the complete SD image could be read back.")
    readbackLoop fuel (remaining + 1 - chunk.val.length) (hashed ++ chunk.val)

/-- `hash_target_prefix`. -/
def hashTargetPrefix (bytesToRead : ℕ) : Writer Sha256Digest := do
  perform .seekTarget
  let hashed ← readbackLoop bytesToRead bytesToRead []
  pure (sha256 hashed)

/-- `write_verified_image_with_backend_and_expectation`, with `fuel` rounds of the copy. -/
def writeVerifiedImage (fuel : ℕ) (artifact : VerifiedImageArtifact)
    (selectedScanId confirmationTokenValue : Bytes) (expectation : BoardImageExpectation) :
    Writer WriteReport := do
  check (requireScanId selectedScanId)
  check (Except.ensure (confirmationTokenPrefix.isPrefixOf confirmationTokenValue)
    "A confirmation token beginning with 'aros-sd-write-v1:' is required; no disk was opened.")
  let reverified ← verifyImageArtifact sha256 manifestFromSlice artifact.artifactDir
    artifact.manifestRelativePath artifact.imageRelativePath
  check (Except.ensure (reverified = artifact)
    "The SD image artifact changed after it was selected.")
  check (validateVerifiedBoardMatch reverified expectation)
  let plan ← prepareVerifiedWrite sha256 reverified selectedScanId
  check (Except.ensure (confirmationTokenValue = plan.confirmationToken)
    "Confirmation token does not match the current verified image and disk; no disk was opened.")
  perform (.openVerifiedTarget plan.candidate)
  perform (.verifyTargetSafeAfterOpen plan.candidate)
  perform .seekTarget
  let copiedSha256 ← copyImageToTarget sha256 fuel reverified.imagePath
  check (Except.ensure (copiedSha256 = reverified.imageSha256)
    "The SD image changed while it was being copied.")
  perform .syncAll
  let readbackSha256 ← hashTargetPrefix sha256 reverified.imageSizeBytes
  check (Except.ensure (readbackSha256 = reverified.imageSha256)
    "Readback SHA-256 mismatch on target disk. Do not boot this media.")
  perform .finish
  pure
    { scanId := plan.candidate.scanId
      diskFingerprint := plan.candidate.fingerprint
      bytesWritten := reverified.imageSizeBytes
      readbackSha256 := readbackSha256 }

end

end SdDisk

end ArosTools
