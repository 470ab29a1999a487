import ArosTools.Bytes.Basic
import ArosTools.Bytes.Decimal
import ArosTools.Bytes.Utf8
import ArosTools.Fs.LinkTarget
import ArosTools.Program.BTree
import ArosTools.Publication.JsonText

/-!
# Scanning a payload archive

`scanArchive` reads the members of a payload archive one at a time: a local PAX extension is kept
for the member after it, a member's path must lie below the archive root, follow the one before it,
collide with none and have a parent directory already declared, and a link's target is checked
component by component (`validateLinkTarget`).

The XZ decoder and the TAR reader are not part of the repository. What they make of the input is a
`RawStream`: the raw entries with what the reader reports of each header, and the bytes left after
the last one. What the scanner does with the members is up to its consumer.
-/

namespace ArosTools

namespace Toolchain

/-- `ContractError`. -/
inductive ContractError where
  | package (message : String)
  | verification (message : String)
  deriving DecidableEq, Repr

/-- A computation that fails with a `ContractError`. -/
abbrev Contract (α : Type) := Except ContractError α

/-- Fail unless the condition holds. -/
def check (condition : Bool) (message : String) : Contract Unit :=
  if condition then .ok () else .error (.verification message)

/-- The value, or an error. -/
def require {α : Type} (value : Option α) (message : String) : Contract α :=
  match value with
  | some a => .ok a
  | none => .error (.verification message)

theorem check_ok {condition : Bool} {message : String} {u : Unit}
    (h : check condition message = .ok u) : condition = true := by
  unfold check at h
  split_ifs at h with hc
  exact hc

theorem check_true {condition : Bool} {message : String} (h : condition = true) :
    check condition message = .ok () := by
  rw [check, if_pos h]

theorem require_ok {α : Type} {value : Option α} {message : String} {a : α}
    (h : require value message = .ok a) : value = some a := by
  cases value with
  | none => cases h
  | some b => exact congrArg some (Except.ok.inj h)

theorem require_some {α : Type} (a : α) (message : String) : require (some a) message = .ok a := rfl

/-! ### Data -/

/-- The kind of an inventory entry. -/
inductive EntryKind where
  | directory
  | symlink
  | file
  deriving DecidableEq, Repr

/-- `ArosToolchainManifestEntry`. -/
structure ManifestEntry where
  path : Bytes
  mode : String
  kind : EntryKind
  sha256 : Option Sha256Digest
  size : Option ℕ
  target : Option Bytes
  deriving DecidableEq, Repr

/-- `PayloadArchiveContract`. -/
structure PayloadArchiveContract where
  archiveRoot : Bytes
  manifestFile : Bytes
  sourceDateEpoch : ℕ
  captureToolchainTools : Bool
  maxEntries : ℕ
  maxRegularFileBytes : ℕ
  deriving DecidableEq, Repr

/-- `compiler_archive_contract`, for a package built at the epoch, by a GNU compiler or not. -/
def compilerArchiveContract (sourceDateEpoch : ℕ) (gnu : Bool) : PayloadArchiveContract where
  archiveRoot := ascii "toolchain"
  manifestFile := ascii "toolchain-manifest.json"
  sourceDateEpoch := sourceDateEpoch
  captureToolchainTools := gnu
  maxEntries := 500000
  maxRegularFileBytes := 32 * 1024 * 1024 * 1024

/-- `ArchiveTree`. -/
structure ArchiveTree where
  embeddedManifest : Bytes
  entries : List ManifestEntry
  treeSha256 : Sha256Digest
  toolchainTools : Option Bytes
  deriving DecidableEq, Repr

/-- What the TAR reader reports of a raw header; a number is absent where its field is not one. -/
structure TarHeader where
  bytes : Bytes
  entryType : UInt8
  pathBytes : Bytes
  linkNameBytes : Option Bytes
  size : Option ℕ
  mode : Option ℕ
  uid : Option ℕ
  gid : Option ℕ
  mtime : Option ℕ
  ustar : Bool
  deriving DecidableEq, Repr

/-- A raw entry: its header, its size as the reader counts it, and its payload, if it can be
read. -/
structure RawEntry where
  header : TarHeader
  size : ℕ
  data : Option Bytes
  deriving DecidableEq, Repr

/-- What the decoders make of an input: the raw entries (an entry that is absent cannot be read),
the bytes after the end of the archive, and whether the decoder has used up its input. -/
structure RawStream where
  entries : List (Option RawEntry)
  trailer : Option Bytes
  exhausted : Bool
  deriving DecidableEq, Repr

/-- What the scanner uses of code outside the repository. -/
structure Decoders where
  /-- The XZ decoder and the TAR reader. -/
  decode : Bytes → Option RawStream
  /-- Unicode composition and lower case of a name. -/
  foldName : Bytes → Bytes
  /-- SHA-256. -/
  sha256 : Bytes → Sha256Digest

/-- `ArchiveConsumer`: what is done with the members, over a state of its own. -/
structure ArchiveConsumer (κ : Type) where
  directory : κ → Path → Contract κ
  symlink : κ → Path → PathBuf → Contract κ
  embeddedManifest : κ → Path → RawEntry → ℕ → Contract (Bytes × κ)
  regular : κ → Path → String → RawEntry → ℕ → List Bytes → Contract (Sha256Digest × κ)

def maxArchiveBytes : ℕ := 32 * 1024 * 1024 * 1024
def maxMetadataBytes : ℕ := 16 * 1024 * 1024
def maxToolchainToolsBytes : ℕ := 16 * 1024
def maxPaxExtensionBytes : ℕ := 64 * 1024
def maxTotalPaxExtensionBytes : ℕ := 64 * 1024 * 1024

/-- `TOOLCHAIN_TOOLS_FILE`. -/
def toolchainToolsFile : Bytes := ascii "toolchain-tools.json"

/-! ### Paths -/

/-- A control character: below a space, delete, or one of the second control block. -/
def hasControl : Bytes → Bool
  | [] => false
  | b :: rest => b < 0x20 || b = 0x7f ||
      (b = 0xc2 && rest.head?.any fun c => 0x80 ≤ c && c ≤ 0x9f) || hasControl rest

/-- A component that some supported host cannot represent. -/
def unportable (value : Bytes) : Bool :=
  value = [] || value = ascii "." || value = ascii ".." || value.getLast? = some 0x2e ||
    value.getLast? = some 0x20 || hasControl value ||
    value.any (fun b => (ascii "<>:\"/\\|?*").contains b) || 255 < value.length

/-- `payload_casefold_path_key`: the folded components of a relative path. Whatever is wrong, the
scanner reports an error of its own. -/
def payloadCasefoldPathKey (foldName : Bytes → Bytes) (path : PathBuf) : Option Bytes := do
  if path.absolute then none
  let folded ← path.components.mapM fun
    | .normal value =>
      if !isUtf8 value || unportable value || reservedStem (deviceStem value) then none
      else some (foldName value)
    | _ => none
  if folded = [] then none else some ([0x2f].intercalate folded)

/-- The written form of a relative path. -/
def relativePath (path : Path) : PathBuf := ⟨false, path.map .normal⟩

/-- The text of a relative path. -/
def pathText (path : Path) : Bytes := [0x2f].intercalate path

/-- `validate_link_target`. -/
def validateLinkTarget (relative : Path) (target : Bytes) : Contract Unit :=
  if (PathBuf.ofBytes target).absolute || !isUtf8 target then
    .error (.package "candidate symbolic link has an absolute or non-UTF-8 target")
  else if linkStaysInside (relative.length - 1) (PathBuf.ofBytes target).components then .ok ()
  else .error (.package "candidate symbolic link escapes the toolchain root")

/-- `package_relative_path`: the names below the archive root, or none for the root itself. -/
def packageRelativePath (path : PathBuf) (archiveRoot : Bytes) : Contract (Option Path) := do
  check (!path.absolute) "package tar entry path is not a safe relative path"
  let names ← require path.names? "package tar entry path is not a safe relative path"
  match names with
  | [] => .error (.verification "package tar entry path is not a safe relative path")
  | root :: relative => do
    check (root = archiveRoot) "package tar entry is outside the toolchain root"
    pure (if relative = [] then none else some relative)

/-- The text contains two slashes in a row. -/
def hasDoubleSlash : Bytes → Bool
  | [] => false
  | b :: rest => (b = 0x2f && rest.head? = some 0x2f) || hasDoubleSlash rest

/-- `validate_canonical_archive_path`. -/
def validateCanonicalArchivePath (path : Bytes) (entryType : UInt8) (archiveRoot : Bytes) :
    Contract Unit := do
  check (isUtf8 path) "package tar entry path is not UTF-8"
  let isDirectory := entryType = 0x35
  let trailing : Bool := path.getLast? = some 0x2f
  check (path ≠ [] && path.head? ≠ some 0x2f && !path.any (fun b => b = 0x5c || b = 0) &&
    !hasDoubleSlash path && (isDirectory || !trailing))
    "package tar entry path is not in canonical relative form"
  let bare := if isDirectory && trailing then path.dropLast else path
  let pieces := bare.splitOn 0x2f
  check (!pieces.any (fun piece => piece = [] || piece = ascii "." || piece = ascii "..") &&
    pieces.head? = some archiveRoot) "package tar entry path is not a canonical relative path"

/-! ### Headers -/

/-- `has_only_trailing_nuls`. -/
def hasOnlyTrailingNuls (field : Bytes) : Bool := (field.dropWhile (· ≠ 0)).all (· = 0)

/-- `validate_tar_header_string_fields`. -/
def validateTarHeaderStringFields (header : TarHeader) : Contract Unit :=
  check (hasOnlyTrailingNuls (header.bytes.take 100) &&
    hasOnlyTrailingNuls ((header.bytes.drop 157).take 100) &&
    (!header.ustar || hasOnlyTrailingNuls ((header.bytes.drop 345).take 155)) &&
    !header.pathBytes.any (fun b => b = 0 || b = 0x5c) &&
    !header.linkNameBytes.any (fun link => link.any fun b => b = 0 || b = 0x5c))
    "package tar header contains a noncanonical path or link field"

/-- `verify_header`. -/
def verifyHeader (header : TarHeader) (epoch : ℕ) (expectedMode : Option ℕ) (expectedSize : ℕ) :
    Contract Unit := do
  let mode ← require header.mode "package tar entry has an invalid mode"
  let uid ← require header.uid "package tar entry has an invalid owner"
  let gid ← require header.gid "package tar entry has an invalid group"
  let mtime ← require header.mtime "package tar entry has an invalid timestamp"
  let size ← require header.size "package tar entry has an invalid size"
  check ((match expectedMode with
      | some expected => mode = expected
      | none => mode = 0o644 || mode = 0o755) &&
    uid = 0 && gid = 0 && mtime = epoch && size = expectedSize)
    "package tar header does not use canonical v1 metadata"

/-- `verify_pax_header`. -/
def verifyPaxHeader (header : TarHeader) (expectedSize : ℕ) : Contract Unit := do
  let mode ← require header.mode "package PAX header has an invalid mode"
  let uid ← require header.uid "package PAX header has an invalid owner"
  let gid ← require header.gid "package PAX header has an invalid group"
  let mtime ← require header.mtime "package PAX header has an invalid timestamp"
  let size ← require header.size "package PAX header has an invalid size"
  check (header.pathBytes = ascii "././@PaxHeader" &&
    !header.linkNameBytes.any (fun link => link ≠ []) && header.entryType = 0x78 && mode = 0 &&
    uid = 0 && gid = 0 && mtime = 0 && size = expectedSize && expectedSize ≠ 0 && header.ustar)
    "package tar PAX header does not use canonical writer metadata"

/-! ### PAX extensions -/

/-- `PaxOverrides`. -/
structure PaxOverrides where
  path : Option Bytes
  linkpath : Option Bytes
  deriving DecidableEq, Repr

/-- `account_pax_extension`. -/
def accountPaxExtension (total size : ℕ) : Contract ℕ := do
  check (size ≠ 0 && size ≤ maxPaxExtensionBytes)
    "package tar PAX extension exceeds the per-header resource limit"
  let total ← require (checkedAdd total size) "package tar PAX byte count overflowed"
  check (total ≤ maxTotalPaxExtensionBytes)
    "package tar PAX extensions exceed the aggregate resource limit"
  pure total

/-- One record: its key, its value and the bytes after it. -/
def paxRecord (remaining : Bytes) : Contract (Bytes × Bytes × Bytes) := do
  check (remaining.contains 0x20) "package tar PAX record is malformed"
  let lengthBytes := remaining.takeWhile (· ≠ 0x20)
  check (lengthBytes ≠ [] && lengthBytes.all (fun b => 0x30 ≤ b && b ≤ 0x39) &&
    !(1 < lengthBytes.length && lengthBytes.head? = some 0x30))
    "package tar PAX record has a noncanonical length"
  let length ← require (parseUnsigned 10 (2 ^ 64) lengthBytes)
    "package tar PAX record length overflowed"
  let separator := lengthBytes.length
  check (separator + 3 < length && length ≤ remaining.length)
    "package tar PAX record length is inconsistent"
  let record := remaining.take length
  check (record.getLast? = some 0x0a) "package tar PAX record is not newline terminated"
  let keyValue := (record.drop (separator + 1)).dropLast
  check (keyValue.contains 0x3d) "package tar PAX record is malformed"
  let key := keyValue.takeWhile (· ≠ 0x3d)
  let value := keyValue.drop (key.length + 1)
  check (!value.any (fun b => b = 0 || b = 0x5c))
    "package tar PAX path or linkpath is not canonical"
  check (isUtf8 value) "package tar PAX path or linkpath is not UTF-8"
  pure (key, value, remaining.drop length)

/-- The override a record stands for, added to those before it. -/
def addPaxOverride (overrides : PaxOverrides) (key value : Bytes) : Contract PaxOverrides :=
  if key = ascii "path" then
    if value ≠ [] && overrides.path.isNone then .ok { overrides with path := some value }
    else .error (.verification "package tar PAX path or linkpath is empty or duplicated")
  else if key = ascii "linkpath" then
    if value ≠ [] && overrides.linkpath.isNone then .ok { overrides with linkpath := some value }
    else .error (.verification "package tar PAX path or linkpath is empty or duplicated")
  else .error (.verification "package tar PAX extension overrides unsupported metadata")

/-- The loop of `parse_pax_overrides`; a record takes at least one byte. -/
def paxOverrides : ℕ → PaxOverrides → Bytes → Contract PaxOverrides
  | _, overrides, [] => .ok overrides
  | 0, overrides, _ :: _ => .ok overrides
  | fuel + 1, overrides, b :: bytes => do
    let (key, value, rest) ← paxRecord (b :: bytes)
    let overrides ← addPaxOverride overrides key value
    paxOverrides fuel overrides rest

/-- `parse_pax_overrides`. -/
def parsePaxOverrides (bytes : Bytes) : Contract PaxOverrides := do
  let overrides ← paxOverrides bytes.length ⟨none, none⟩ bytes
  check (overrides.path.isSome || overrides.linkpath.isSome)
    "package tar PAX extension contains no supported path metadata"
  pure overrides

/-! ### Payloads -/

/-- `read_exact_entry`: at most one byte more than expected is read. -/
def readExactEntry (entry : RawEntry) (expectedSize : ℕ) : Contract Bytes := do
  check (expectedSize ≤ maxMetadataBytes)
    "package metadata entry exceeds the configured resource limit"
  let data ← require entry.data "cannot read package metadata entry"
  check (data.length = expectedSize)
    "package metadata entry is truncated or changed while it was read"
  pure data

/-- One of the needles occurs in the text. -/
def containsAny (needles : List Bytes) (text : Bytes) : Bool :=
  needles.any fun needle => text.tails.any fun rest => needle.isPrefixOf rest

/-- `hash_entry`: the digest of a regular file in which no forbidden prefix occurs. -/
def hashEntry (sha256 : Bytes → Sha256Digest) (entry : RawEntry) (expectedSize : ℕ)
    (forbiddenPrefixes : List Bytes) : Contract Sha256Digest := do
  check (forbiddenPrefixes.all isUtf8) "forbidden verification prefix is not UTF-8"
  let needles := forbiddenPrefixes.filter (· ≠ [])
  let data ← require entry.data "cannot read package regular-file entry"
  check (data.length ≤ expectedSize) "package regular-file entry exceeds its declared size"
  check (!containsAny needles data) "package regular-file entry contains a forbidden build prefix"
  check (data.length = expectedSize) "package regular-file entry is truncated"
  pure (sha256 data)

/-- `VerifyingArchiveConsumer`: reads everything and keeps nothing. -/
def verifyingConsumer (sha256 : Bytes → Sha256Digest) : ArchiveConsumer Unit where
  directory _ _ := .ok ()
  symlink _ _ _ := .ok ()
  embeddedManifest _ _ entry size := (readExactEntry entry size).map fun bytes => (bytes, ())
  regular _ _ _ entry size forbidden := (hashEntry sha256 entry size forbidden).map fun d => (d, ())

/-! ### The scan -/

/-- `ArchiveBudget`. -/
structure ArchiveBudget where
  entries : ℕ
  expandedBytes : ℕ
  deriving DecidableEq, Repr

/-- `ArchiveBudget::account`. -/
def ArchiveBudget.account (budget : ArchiveBudget) (regularFile : Bool) (size maxEntries : ℕ)
    (maxRegularFileBytes : ℕ) : Contract ArchiveBudget := do
  let entries ← require (checkedAdd budget.entries 1) "package tar entry count overflowed"
  check (entries ≤ maxEntries) "package tar exceeds the entry-count resource limit"
  if regularFile then
    let expandedBytes ← require (checkedAdd budget.expandedBytes size)
      "package tar expanded size overflowed"
    check (expandedBytes ≤ maxRegularFileBytes)
      "package tar exceeds the expanded-size resource limit"
    pure ⟨entries, expandedBytes⟩
  else pure { budget with entries := entries }

/-- The variables of `scan_archive`. -/
structure Scan (κ : Type) where
  entries : List ManifestEntry
  seen : BTreeSet Bytes
  directories : BTreeSet Path
  previous : Option Bytes
  embeddedManifest : Option Bytes
  toolchainTools : Option Bytes
  budget : ArchiveBudget
  pendingPax : Option PaxOverrides
  totalPaxBytes : ℕ
  logicalIndex : ℕ
  consumer : κ

section

variable {κ : Type} (decoders : Decoders) (consumer : ArchiveConsumer κ)
  (contract : PayloadArchiveContract) (forbidden : List Bytes)

/-- The scan before the first entry. -/
def Scan.start (state : κ) : Scan κ where
  entries := []
  seen := .new
  directories := BTreeSet.new.insert []
  previous := none
  embeddedManifest := none
  toolchainTools := none
  budget := ⟨0, 0⟩
  pendingPax := none
  totalPaxBytes := 0
  logicalIndex := 0
  consumer := state

/-- A local PAX extension, kept for the next member. -/
def scanPax (s : Scan κ) (entry : RawEntry) : Contract (Scan κ) := do
  check (s.logicalIndex ≠ 0 && s.pendingPax.isNone)
    "package tar contains a misplaced or duplicate PAX extension"
  let size ← require entry.header.size "package PAX header has an invalid size"
  check (entry.size = size) "package PAX size differs from its raw header"
  verifyPaxHeader entry.header size
  let total ← accountPaxExtension s.totalPaxBytes size
  let bytes ← readExactEntry entry size
  let pax ← parsePaxOverrides bytes
  pure { s with pendingPax := some pax, totalPaxBytes := total }

/-- A directory member. -/
def scanDirectory (s : Scan κ) (relative : Path) (text : Bytes) (entry : RawEntry) :
    Contract (Scan κ) := do
  verifyHeader entry.header contract.sourceDateEpoch (some 0o755) 0
  let state ← consumer.directory s.consumer relative
  pure { s with
    consumer := state
    directories := s.directories.insert relative
    entries := s.entries ++ [⟨text, "0755", .directory, none, none, none⟩] }

/-- The target of a symbolic link member. -/
def linkTarget (pax : Option PaxOverrides) (entry : RawEntry) : Option Bytes :=
  (pax.bind PaxOverrides.linkpath).or entry.header.linkNameBytes

/-- A symbolic link member. -/
def scanSymlink (s : Scan κ) (relative : Path) (text : Bytes) (pax : Option PaxOverrides)
    (entry : RawEntry) : Contract (Scan κ) := do
  verifyHeader entry.header contract.sourceDateEpoch (some 0o777) 0
  let target ← require (linkTarget pax entry) "package tar symlink has no target"
  check (target ≠ [] && !target.contains 0 && !target.contains 0x5c)
    "package tar symlink target is not canonical"
  check (isUtf8 target) "package tar symlink target is not UTF-8"
  validateLinkTarget relative target
  let state ← consumer.symlink s.consumer relative (PathBuf.ofBytes target)
  pure { s with
    consumer := state
    entries := s.entries ++ [⟨text, "0777", .symlink, none, none, some target⟩] }

/-- A regular file member: the embedded manifest or a payload file. -/
def scanRegular (s : Scan κ) (relative : Path) (text : Bytes) (size : ℕ) (entry : RawEntry) :
    Contract (Scan κ) := do
  verifyHeader entry.header contract.sourceDateEpoch none size
  if relativePath relative = PathBuf.ofBytes contract.manifestFile then
    check (s.embeddedManifest.isNone && size ≤ maxMetadataBytes)
      "package tar embedded manifest is missing, duplicated, or too large"
    let (bytes, state) ← consumer.embeddedManifest s.consumer relative entry size
    pure { s with consumer := state, embeddedManifest := some bytes }
  else
    let mode ← require entry.header.mode "package tar entry has an invalid mode"
    let mode := if mode &&& 0o111 = 0 then "0644" else "0755"
    let payload (sha256 : Sha256Digest) : ManifestEntry :=
      ⟨text, mode, .file, some sha256, some size, none⟩
    if contract.captureToolchainTools &&
        relativePath relative = PathBuf.ofBytes toolchainToolsFile then
      check (size ≤ maxToolchainToolsBytes && s.toolchainTools.isNone)
        "package tar toolchain tools contract is duplicated or too large"
      let bytes ← readExactEntry entry size
      let (sha256, state) ← consumer.regular s.consumer relative mode
        { entry with data := some bytes } size forbidden
      pure { s with
        consumer := state, toolchainTools := some bytes, entries := s.entries ++ [payload sha256] }
    else
      let (sha256, state) ← consumer.regular s.consumer relative mode entry size forbidden
      pure { s with consumer := state, entries := s.entries ++ [payload sha256] }

/-- The path of a member, and whether it is the root. -/
def memberPath (pax : Option PaxOverrides) (entry : RawEntry) : Bytes :=
  (pax.bind PaxOverrides.path).getD entry.header.pathBytes

/-- The text of a member's path, as it is recorded and compared. -/
def memberText (relative : Path) : Bytes :=
  (pathText relative).map fun b => if b = 0x5c then 0x2f else b

/-- A member that is not the root: where it stands, and then what it is. -/
def scanMember (s : Scan κ) (relative : Path) (size : ℕ) (pax : Option PaxOverrides)
    (entry : RawEntry) : Contract (Scan κ) := do
  let text := memberText relative
  check (s.previous.all fun previous => previous < text)
    "package tar members are not in strict lexical order"
  let collision ← require (payloadCasefoldPathKey decoders.foldName (relativePath relative))
    "package tar entry path is not portable"
  check (collision ∉ s.seen) "package tar contains a duplicate or case-folding path collision"
  check (relative.dropLast ∈ s.directories)
    "package tar entry has no previously declared real parent directory"
  let s := { s with previous := some text, seen := s.seen.insert collision }
  if entry.header.entryType = 0x35 then scanDirectory consumer contract s relative text entry
  else if entry.header.entryType = 0x32 then scanSymlink consumer contract s relative text pax entry
  else if entry.header.entryType = 0x30 then
    scanRegular consumer contract forbidden s relative text size entry
  else .error (.verification "package tar contains an unsupported entry type")

/-- An entry that is not a PAX extension. -/
def scanLogical (s : Scan κ) (entry : RawEntry) : Contract (Scan κ) := do
  let size ← require entry.header.size "package tar entry has an invalid size"
  check (entry.size = size) "package tar entry size differs from its raw header"
  let budget ← s.budget.account (entry.header.entryType = 0x30) size contract.maxEntries
    contract.maxRegularFileBytes
  let pax := s.pendingPax
  let s := { s with budget := budget, pendingPax := none }
  check (!((pax.bind PaxOverrides.linkpath).isSome && entry.header.entryType ≠ 0x32))
    "package tar PAX linkpath does not describe a symbolic link"
  let path := memberPath pax entry
  validateCanonicalArchivePath path entry.header.entryType contract.archiveRoot
  let relative ← packageRelativePath (PathBuf.ofBytes path) contract.archiveRoot
  if s.logicalIndex = 0 then
    check (relative.isNone && entry.header.entryType = 0x35)
      "package tar must begin with the toolchain root directory"
    verifyHeader entry.header contract.sourceDateEpoch (some 0o755) 0
    pure { s with logicalIndex := 1 }
  else
    let index ← require (checkedAdd s.logicalIndex 1) "package tar entry count overflowed"
    match relative with
    | none => .error (.verification "package tar contains a duplicate toolchain root directory")
    | some relative =>
      scanMember decoders consumer contract forbidden { s with logicalIndex := index } relative size
        pax entry

/-- The loop of `scan_archive` for one entry. -/
def scanEntry (s : Scan κ) (entry : Option RawEntry) : Contract (Scan κ) := do
  let entry ← require entry "package tar stream contains an invalid entry"
  validateTarHeaderStringFields entry.header
  let kind := entry.header.entryType
  check (!(kind = 0x67 || kind = 0x4c || kind = 0x4b))
    "package tar contains an unsupported global or GNU extension"
  if kind = 0x78 then scanPax s entry
  else scanLogical decoders consumer contract forbidden s entry

/-- `validate_payload_archive_contract`. -/
def validatePayloadArchiveContract : Contract Unit := do
  let root := PathBuf.ofBytes contract.archiveRoot
  check (root = relativePath [contract.archiveRoot] && contract.maxEntries ≠ 0 &&
    contract.maxRegularFileBytes ≠ 0)
    "payload archive contract has an invalid root or resource limit"
  check (payloadCasefoldPathKey decoders.foldName root).isSome
    "payload archive root is not a portable path component"
  let manifest := PathBuf.ofBytes contract.manifestFile
  check (!manifest.absolute && manifest.components ≠ [] && manifest.names?.isSome)
    "payload archive contract has an invalid embedded-manifest path"
  check (payloadCasefoldPathKey decoders.foldName manifest).isSome
    "embedded-manifest path is not portable"

/-- `verify_archive_terminal`: at most twenty blocks of zeros. -/
def verifyArchiveTerminal (trailer : Option Bytes) : Contract Unit := do
  let trailer ← require trailer "package XZ stream is truncated or malformed"
  check (trailer.length ≤ 20 * 512 && trailer.all (· = 0))
    "package tar has a noncanonical trailing record"

/-- The `type` of an inventory entry. -/
def EntryKind.text : EntryKind → Bytes
  | .directory => ascii "directory"
  | .symlink => ascii "symlink"
  | .file => ascii "file"

/-- `canonical_entry` as JSON: the keys in order, absent values left out. -/
def canonicalEntry (entry : ManifestEntry) : Bytes :=
  Json.object ([(ascii "mode", Json.string (ascii entry.mode)),
      (ascii "path", Json.string entry.path)] ++
    Json.optionalField "sha256" Json.string entry.sha256 ++
    Json.optionalField "size" Json.number entry.size ++
    Json.optionalField "target" Json.string entry.target ++
    [(ascii "type", Json.string entry.kind.text)])

/-- `toolchain_inventory_sha256`. -/
def toolchainInventorySha256 (sha256 : Bytes → Sha256Digest) (entries : List ManifestEntry) :
    Sha256Digest :=
  sha256 (entries.flatMap fun entry => canonicalEntry entry ++ [0x0a])

/-- `scan_archive`: the tree of an archive, and the consumer's state. -/
def scanArchive (input : Bytes) (state : κ) : Contract (ArchiveTree × κ) := do
  validatePayloadArchiveContract decoders contract
  check (input.length ≤ maxArchiveBytes)
    "payload archive is not a regular file within the configured resource limit"
  let stream ← require (decoders.decode input) "cannot read package tar stream"
  let s ← stream.entries.foldlM (scanEntry decoders consumer contract forbidden) (Scan.start state)
  check s.pendingPax.isNone "package tar ends with an orphaned PAX extension"
  verifyArchiveTerminal stream.trailer
  check stream.exhausted "package XZ stream has trailing bytes or concatenated streams"
  let manifest ← require s.embeddedManifest
    "payload tar does not contain its embedded manifest"
  pure (⟨manifest, s.entries, toolchainInventorySha256 decoders.sha256 s.entries, s.toolchainTools⟩,
    s.consumer)

end

end Toolchain

end ArosTools
