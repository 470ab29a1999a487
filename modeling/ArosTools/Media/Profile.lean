import ArosTools.Bytes.Basic
import ArosTools.Bytes.SlashPath
import ArosTools.Bytes.Utf8
import ArosTools.Program.BTree
import ArosTools.Program.Except
import ArosTools.Program.Text
import ArosTools.Publication.Names

/-!
# Media profiles

A media profile names the files and the complete directory trees that go onto a boot medium, and
the layout of that medium. `validateProfile` rejects ambiguous and unsafe profiles;
`parseMediaProfile` binds a profile to the digest of its text.

Texts are the bytes of their UTF-8 encoding, which compare as the texts do. The TOML reader and
the hash function are parameters.
-/

namespace ArosTools

namespace Media

/-! ### Texts -/

/-- The bits of a first byte that belong to its character. -/
def leadBits (b : UInt8) : ℕ :=
  if b < 0x80 then b.toNat
  else if b < 0xe0 then b.toNat % 0x20
  else if b < 0xf0 then b.toNat % 0x10
  else b.toNat % 0x08

/-- The characters of a UTF-8 text: a continuation byte adds six bits to the last of them. -/
def codePoints (text : Bytes) : List ℕ :=
  (text.foldl (fun done b =>
    match done with
    | c :: rest =>
      if 0x80 ≤ b ∧ b < 0xc0 then (c * 64 + b.toNat % 64) :: rest else leadBits b :: c :: rest
    | [] => [leadBits b]) []).reverse

/-- `char::is_control`. -/
def isControl (c : ℕ) : Bool := c < 0x20 || (0x7f ≤ c && c < 0xa0)

/-- `char::is_whitespace`. -/
def isSpace (c : ℕ) : Bool := Str.isWhitespace (Char.ofNat c)

/-- A text with a control character. -/
def hasControl (text : Bytes) : Bool := (codePoints text).any isControl

/-- `trim().is_empty()`. -/
def isBlank (text : Bytes) : Bool := (codePoints text).all isSpace

/-- `value == value.trim()`. -/
def isTrimmed (text : Bytes) : Bool :=
  !((codePoints text).head?.any isSpace || (codePoints text).getLast?.any isSpace)

/-- `str::to_ascii_lowercase`. -/
def toAsciiLowercase (text : Bytes) : Bytes := text.map asciiLower

/-- `u8::is_ascii_lowercase`, `u8::is_ascii_digit`. -/
def lowerOrDigit (b : UInt8) : Bool := (0x61 ≤ b && b ≤ 0x7a) || (0x30 ≤ b && b ≤ 0x39)

/-- `u8::is_ascii_alphanumeric` or an underscore. -/
def labelByte (b : UInt8) : Bool := lowerOrDigit b || (0x41 ≤ b && b ≤ 0x5a) || b == 0x5f

/-- `u8::is_ascii_uppercase`, `u8::is_ascii_digit` or an underscore. -/
def volumeByte (b : UInt8) : Bool :=
  (0x41 ≤ b && b ≤ 0x5a) || (0x30 ≤ b && b ≤ 0x39) || b == 0x5f

/-- `Sha256Digest::parse`. -/
def parseDigest (value : Bytes) : Option Sha256Digest :=
  if value.length = 64 ∧ value.all (fun b => (0x30 ≤ b && b ≤ 0x39) || (0x61 ≤ b && b ≤ 0x66) ||
      (0x41 ≤ b && b ≤ 0x46)) then some (toAsciiLowercase value)
  else none

/-- `valid_slug`. -/
def validSlug (value : Bytes) : Bool :=
  value ≠ [] && value.head?.all lowerOrDigit && value.all fun b => lowerOrDigit b || b == 0x2d

/-- `valid_target_preset`. -/
def validTargetPreset (value : Bytes) : Bool :=
  value ≠ [] && value.head?.all lowerOrDigit &&
    value.all fun b => lowerOrDigit b || b == 0x2d || b == 0x5f

/-- A part of a destination. -/
def validPart (part : Bytes) : Bool :=
  part ≠ [] && part ≠ ascii "." && part ≠ ascii ".." && !hasControl part

/-- `valid_destination`. -/
def validDestination (value : Bytes) : Bool :=
  value ≠ [] && !value.contains 0x5c && !value.contains 0x3a && (value.splitOn 0x2f).all validPart

/-! ### Profiles -/

/-- `ExternalMediaInput`. -/
structure ExternalMediaInput where
  lockId : Bytes
  fileId : Bytes
  deriving DecidableEq, Repr

/-- `RequiredMediaFile`. -/
structure RequiredMediaFile where
  role : Bytes
  destination : Bytes
  externalInput : Option ExternalMediaInput
  deriving DecidableEq, Repr

/-- `RequiredMediaTree`; an empty destination is the root of the medium. -/
structure RequiredMediaTree where
  role : Bytes
  destination : Bytes
  deriving DecidableEq, Repr

/-- `MediaExternalLockPin`. -/
structure MediaExternalLockPin where
  id : Bytes
  sha256 : Bytes
  deriving DecidableEq, Repr

/-- `MediaLayout`. -/
inductive MediaLayout where
  | mbrFat32 (startLba sizeBytes : ℕ) (label : Bytes)
  | iso9660ElTorito (volumeId bootImageRole catalogPath : Bytes) (maxSizeBytes : ℕ)
  deriving DecidableEq, Repr

/-- `MediaProfile`. -/
structure MediaProfile where
  formatVersion : ℕ
  id : Bytes
  targetPreset : Bytes
  model : Bytes
  transport : Bytes
  medium : Bytes
  bootProtocol : Bytes
  label : Bytes
  layout : MediaLayout
  externalLocks : List MediaExternalLockPin
  requiredFiles : List RequiredMediaFile
  requiredTrees : List RequiredMediaTree
  deriving DecidableEq, Repr

/-- `ResolvedMediaProfile`. -/
structure ResolvedMediaProfile where
  profile : MediaProfile
  sha256 : Sha256Digest
  deriving DecidableEq, Repr

/-- `ArosError::MediaProfile`. -/
structure MediaProfileError where
  file : String
  message : String
  deriving DecidableEq, Repr

/-! ### Validation -/

section Validation

variable (source : String)

/-- The geometry of an MBR/FAT32 layout. -/
def validFatGeometry (startLba sizeBytes : ℕ) (label : Bytes) : Bool :=
  !(startLba < 2048 || startLba % 2048 ≠ 0 || sizeBytes < 64 * 1024 * 1024 ||
    sizeBytes % 512 ≠ 0 || 2 ^ 32 ≤ startLba || 2 ^ 32 ≤ sizeBytes / 512 ||
    (checkedAdd startLba (sizeBytes / 512)).all (2 ^ 32 < ·) ||
    ((checkedMul startLba 512).bind (checkedAdd · sizeBytes)).isNone ||
    label = [] || 11 < label.length || !label.all labelByte)

/-- The volume of an ISO layout. -/
def validIsoVolume (profile : MediaProfile) (volumeId bootImageRole catalogPath : Bytes)
    (maxSizeBytes : ℕ) : Bool :=
  !(maxSizeBytes < 1024 * 1024 || maxSizeBytes % 2048 ≠ 0 || volumeId = [] ||
    32 < volumeId.length || !volumeId.all volumeByte || !validSlug bootImageRole ||
    !validDestination catalogPath ||
    !profile.requiredFiles.any fun file => file.role = bootImageRole)

/-- The layout and the medium agree, and the layout is sound. -/
def validateLayout (profile : MediaProfile) : Except MediaProfileError Unit :=
  match profile.layout with
  | .mbrFat32 startLba sizeBytes label =>
    if profile.medium = ascii "mbr-fat32" then
      Except.ensure (validFatGeometry startLba sizeBytes label)
        ⟨source, "invalid MBR/FAT32 partition geometry or label"⟩
    else .error ⟨source, "medium and layout kind disagree"⟩
  | .iso9660ElTorito volumeId bootImageRole catalogPath maxSizeBytes =>
    if profile.medium = ascii "iso9660-el-torito" then
      Except.ensure (validIsoVolume profile volumeId bootImageRole catalogPath maxSizeBytes)
        ⟨source, "invalid ISO volume ID or El Torito role"⟩
    else .error ⟨source, "medium and layout kind disagree"⟩

/-- What the declared files have used up so far. -/
structure Declared where
  roles : BTreeSet Bytes
  destinations : BTreeSet Bytes
  referencedLocks : BTreeSet Bytes
  referencedFiles : List (Bytes × Bytes)

/-- One required file. -/
def declareFile (d : Declared) (file : RequiredMediaFile) : Except MediaProfileError Declared := do
  Except.ensure (validSlug file.role) ⟨source, "required_files.role must be a lowercase slug"⟩
  Except.ensure (file.role ∉ d.roles)
    ⟨source, "duplicate required role '" ++ displayBytes file.role ++ "'"⟩
  Except.ensure (validDestination file.destination)
    ⟨source, "unsafe destination '" ++ displayBytes file.destination ++ "'"⟩
  Except.ensure (toAsciiLowercase file.destination ∉ d.destinations)
    ⟨source, "duplicate destination '" ++ displayBytes file.destination ++ "'"⟩
  let d := { d with
    roles := d.roles.insert file.role
    destinations := d.destinations.insert (toAsciiLowercase file.destination) }
  match file.externalInput with
  | none => pure d
  | some external =>
    Except.ensure (validSlug external.lockId ∧ validSlug external.fileId)
      ⟨source, "external lock and file IDs must be lowercase slugs"⟩
    Except.ensure ((external.lockId, external.fileId) ∉ d.referencedFiles)
      ⟨source, "external input is mapped to multiple roles"⟩
    pure { d with
      referencedLocks := d.referencedLocks.insert external.lockId
      referencedFiles := (external.lockId, external.fileId) :: d.referencedFiles }

/-- One required tree; the state is the set of roles. -/
def declareTree (destinations : BTreeSet Bytes) (roles : BTreeSet Bytes)
    (tree : RequiredMediaTree) : Except MediaProfileError (BTreeSet Bytes) := do
  Except.ensure (validSlug tree.role ∧ tree.role ∉ roles)
    ⟨source, "required tree role is invalid or duplicated"⟩
  Except.ensure (tree.destination = [] ∨ validDestination tree.destination)
    ⟨source, "required tree destination is unsafe"⟩
  Except.ensure (tree.destination = [] ∨ toAsciiLowercase tree.destination ∉ destinations)
    ⟨source, "required tree destination conflicts with a file"⟩
  pure (roles.insert tree.role)

/-- No declared file lies above another. -/
def validateParents (destinations : BTreeSet Bytes) : Except MediaProfileError Unit :=
  destinations.elems.forM fun destination =>
    (SlashPath.ancestors 0x2f destination).forM fun parent =>
      Except.ensure (parent ∉ destinations)
        ⟨source, "file destination '" ++ displayBytes parent ++ "' is a parent of another file"⟩

/-- The generated boot catalog of an ISO lies neither below nor above a declared file. -/
def validateCatalog (layout : MediaLayout) (destinations : BTreeSet Bytes) :
    Except MediaProfileError Unit :=
  match layout with
  | .mbrFat32 .. => pure ()
  | .iso9660ElTorito _ _ catalogPath _ => do
    let catalog := toAsciiLowercase catalogPath
    Except.ensure (¬ destinations.elems.any fun path => (catalog ++ [0x2f]).isPrefixOf path)
      ⟨source, "ISO input is nested beneath the generated catalog"⟩
    (catalog :: SlashPath.ancestors 0x2f catalog).forM fun path =>
      Except.ensure (path ∉ destinations)
        ⟨source, "ISO profile conflicts with its generated boot catalog"⟩

/-- One pinned lock. -/
def declarePin (pinned : BTreeSet Bytes) (pin : MediaExternalLockPin) :
    Except MediaProfileError (BTreeSet Bytes) := do
  Except.ensure (validSlug pin.id ∧ pin.id ∉ pinned)
    ⟨source, "external lock ID is invalid or duplicated"⟩
  Except.ensure (parseDigest pin.sha256).isSome ⟨source, "external lock SHA-256 is malformed"⟩
  pure (pinned.insert pin.id)

/-- The texts of a profile that must be slugs, with their names. -/
def slugFields (profile : MediaProfile) : List (String × Bytes) :=
  [("id", profile.id), ("model", profile.model), ("transport", profile.transport),
    ("medium", profile.medium), ("boot_protocol", profile.bootProtocol)]

/-- `validate_profile`. -/
def validateProfile (profile : MediaProfile) : Except MediaProfileError Unit := do
  Except.ensure (profile.formatVersion = 1 ∨ profile.formatVersion = 2)
    ⟨source, "unsupported format_version"⟩
  Except.ensure (¬ ((profile.formatVersion = 1 ∧ profile.requiredTrees ≠ []) ∨
      (profile.formatVersion = 2 ∧ profile.requiredTrees = [])))
    ⟨source, "profile version and tree inventory disagree"⟩
  (slugFields profile).forM fun field => Except.ensure (validSlug field.2)
    ⟨source, field.1 ++ " must be a nonempty lowercase slug"⟩
  Except.ensure (validTargetPreset profile.targetPreset)
    ⟨source, "target_preset must be a portable target name"⟩
  Except.ensure (¬ (isBlank profile.label ∨ hasControl profile.label))
    ⟨source, "label must be printable and nonempty"⟩
  validateLayout source profile
  Except.ensure (¬ (profile.requiredFiles = [] ∧ profile.requiredTrees = []))
    ⟨source, "media profile must declare files or trees"⟩
  let declared ← profile.requiredFiles.foldlM (declareFile source)
    ⟨.new, .new, .new, []⟩
  let _ ← profile.requiredTrees.foldlM (declareTree source declared.destinations) declared.roles
  validateParents source declared.destinations
  validateCatalog source profile.layout declared.destinations
  let pinned ← profile.externalLocks.foldlM (declarePin source) .new
  Except.ensure (pinned = declared.referencedLocks)
    ⟨source, "external locks and referenced file roles differ"⟩

end Validation

/-- `parse_media_profile`. -/
def parseMediaProfile (fromToml : Bytes → Except String MediaProfile)
    (sha256 : Bytes → Sha256Digest) (source : String) (text : Bytes) :
    Except MediaProfileError ResolvedMediaProfile := do
  let profile ← (fromToml text).mapError fun error => ⟨source, error⟩
  validateProfile source profile
  pure ⟨profile, sha256 text⟩

end Media

end ArosTools
