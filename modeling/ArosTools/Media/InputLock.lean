import ArosTools.Media.Receipt

/-!
# External input locks

A lock lists files that do not come from the build, each with its digest and size.
`bindProfileMediaInputLocks` resolves the locks that a profile pins by their digests.

* `bindProfileMediaInputLocks_ids` — the bound locks are the pinned ones, in the order of their
  names.

The TOML reader and the URL parser are parameters.
-/

namespace ArosTools

namespace Media

/-- `MediaInputLockError`. -/
inductive MediaInputLockError where
  | invalid (message : String)
  | io (error : IoError)
  deriving DecidableEq, Repr

/-- `MediaLockedInput`. -/
structure MediaLockedInput where
  id : Bytes
  originUrl : Bytes
  originRevision : Bytes
  sha256 : Bytes
  sizeBytes : ℕ
  licenseId : Bytes
  deriving DecidableEq, Repr

/-- `MediaInputLock`. -/
structure MediaInputLock where
  formatVersion : ℕ
  kind : Bytes
  id : Bytes
  files : List MediaLockedInput
  deriving DecidableEq, Repr

/-- `ResolvedMediaInputLock`. -/
structure ResolvedMediaInputLock where
  lock : MediaInputLock
  sha256 : Sha256Digest
  deriving DecidableEq, Repr

/-- What the URL parser tells of a URL. -/
structure Url where
  scheme : Bytes
  /-- The host, if it is a domain name. -/
  domain : Option Bytes
  username : Bytes
  hasPassword : Bool
  hasQuery : Bool
  hasFragment : Bool
  port : Option ℕ
  path : Bytes
  deriving DecidableEq, Repr

/-- The readers that the locks rest on. -/
structure LockReaders where
  fromToml : Bytes → Except String MediaInputLock
  parseUrl : Bytes → Option Url

section Lock

variable (readers : LockReaders) (sha256 : Bytes → Sha256Digest)

/-- `validate_origin_url`. -/
def validateOriginUrl (value : Bytes) : Except MediaInputLockError Unit := do
  let url ← (readers.parseUrl value).elim (.error (.invalid "origin_url is not a valid URL")) .ok
  let host ← url.domain.elim (.error (.invalid "origin_url requires a DNS host")) .ok
  let domainSuffix := ((SlashPath.rsplitOnce 0x2e host).map Prod.snd).getD host
  Except.ensure (¬ (url.scheme ≠ ascii "https" ∨ url.username ≠ [] ∨ url.hasPassword ∨
      url.hasQuery ∨ url.hasFragment ∨ url.port.any (· ≠ 443) ∨ 0x2e ∉ host ∨
      host.getLast? = some 0x2e ∨
      domainSuffix ∈ [ascii "localhost", ascii "local", ascii "internal"] ∨
      url.path = ascii "/"))
    (.invalid "origin_url is not an allowed HTTPS DNS URL")

/-- A descriptive text of a locked file. -/
def validLockText (value : Bytes) : Bool :=
  value ≠ [] && value.length ≤ 128 && isTrimmed value && !hasControl value

/-- One locked file; the state is the IDs so far. -/
def declareLockedInput (ids : BTreeSet Bytes) (input : MediaLockedInput) :
    Except MediaInputLockError (BTreeSet Bytes) := do
  Except.ensure (validSlug input.id ∧ input.id ∉ ids) (.invalid "file ID is invalid or duplicated")
  Except.ensure (parseDigest input.sha256).isSome (.invalid "file SHA-256 is malformed")
  Except.ensure (input.sizeBytes ≠ 0) (.invalid "file size must be positive")
  Except.ensure (validLockText input.originRevision)
    (.invalid "origin_revision is missing or unsafe")
  Except.ensure (validLockText input.licenseId) (.invalid "license_id is missing or unsafe")
  validateOriginUrl readers input.originUrl
  pure (ids.insert input.id)

/-- `validate_lock`. -/
def validateLock (lock : MediaInputLock) : Except MediaInputLockError Unit := do
  Except.ensure (lock.formatVersion = 1 ∧ lock.kind = ascii "aros-media-external-inputs")
    (.invalid "unsupported format_version or kind")
  Except.ensure (validSlug lock.id) (.invalid "lock ID must be a lowercase slug")
  Except.ensure (lock.files ≠ [] ∧ lock.files.length ≤ 256)
    (.invalid "files must contain between one and 256 entries")
  let _ ← lock.files.foldlM (declareLockedInput readers) .new
  pure ()

/-- `parse_media_input_lock`. -/
def parseMediaInputLock (bytes : Bytes) : Except MediaInputLockError ResolvedMediaInputLock := do
  Except.ensure (bytes.length ≤ 1024 * 1024) (.invalid "lock exceeds its one-megabyte limit")
  Except.ensure (isUtf8 bytes) (.invalid "lock is not UTF-8")
  let lock ← (readers.fromToml bytes).mapError fun error =>
    .invalid ("TOML schema error: " ++ error)
  validateLock readers lock
  pure ⟨lock, sha256 bytes⟩

/-- `bind_media_input_lock`. -/
def bindMediaInputLock (expectedId expectedSha256 bytes : Bytes) :
    Except MediaInputLockError ResolvedMediaInputLock := do
  let expected ← (parseDigest expectedSha256).elim
    (.error (.invalid "expected lock SHA-256 is malformed")) .ok
  let resolved ← parseMediaInputLock readers sha256 bytes
  Except.ensure (resolved.lock.id = expectedId ∧ resolved.sha256 = expected)
    (.invalid "lock identity or exact-byte SHA-256 differs from the pin")
  pure resolved

/-- One supplied lock; the state is the IDs and the bound locks so far. -/
def bindSuppliedLock (pins : List MediaExternalLockPin)
    (bound : BTreeSet Bytes × List ResolvedMediaInputLock) (supplied : Bytes × Bytes) :
    Except MediaInputLockError (BTreeSet Bytes × List ResolvedMediaInputLock) := do
  Except.ensure (supplied.1 ∉ bound.1) (.invalid "duplicate supplied lock ID")
  let pin ← (pins.find? fun pin => pin.id = supplied.1).elim
    (.error (.invalid "supplied lock is not pinned by the profile")) .ok
  let resolved ← bindMediaInputLock readers sha256 pin.id pin.sha256 supplied.2
  pure (bound.1.insert supplied.1, bound.2 ++ [resolved])

/-- The bound locks hold the bytes of an external role. -/
def checkExternalRole (resolved : List ResolvedMediaInputLock) (file : RequiredMediaFile) :
    Except MediaInputLockError Unit :=
  match file.externalInput with
  | none => pure ()
  | some external => do
    let lock ← (resolved.find? fun lock => lock.lock.id = external.lockId).elim
      (.error (.invalid "external role references a missing lock")) .ok
    Except.ensure (lock.lock.files.any fun input => input.id = external.fileId)
      (.invalid "external role references a missing locked file")

/-- `bind_profile_media_input_locks`. -/
def bindProfileMediaInputLocks (profile : MediaProfile) (supplied : List (Bytes × Bytes)) :
    Except MediaInputLockError (List ResolvedMediaInputLock) := do
  Except.ensure (supplied.length = profile.externalLocks.length)
    (.invalid "supplied lock set differs from the profile pins")
  let bound ← supplied.foldlM (bindSuppliedLock readers sha256 profile.externalLocks) (.new, [])
  profile.requiredFiles.forM (checkExternalRole bound.2)
  pure (sortByKey (fun lock => lock.lock.id) bound.2)

/-- `verify_media_locked_input`. -/
def verifyMediaLockedInput (disk : MediaDisk) (path : PathBuf) (input : MediaLockedInput) :
    Except MediaInputLockError Unit := do
  let expected ← (parseDigest input.sha256).elim
    (.error (.invalid "file SHA-256 is malformed")) .ok
  let contents ← (disk.readRegular path).mapError .io
  Except.ensure (contents.length = input.sizeBytes ∧ sha256 contents = expected)
    (.invalid ("measured size or SHA-256 differs for locked input '" ++
      displayBytes input.id ++ "'"))

end Lock

end Media

end ArosTools
