import ArosTools.Bytes.Utf8
import ArosTools.Program.Concurrent
import ArosTools.Publication.JsonText

/-!
# Managed compiler-cache roots

A managed root holds a control directory with the ownership marker, the generated configuration of
one backend and its data directory. `prepareManagedCompilerCache` claims an empty root, and
`loadManagedCompilerCache` verifies a claimed one.

The calls of a program on the root are a `Call` each. `Root` is what stands on the disk; the two
files that get published stand with what a publication leaves beside them on its way. The data
directory and the published files carry the number of the program that made them: no call reads
this part, it is what the results are about.

* `loadManagedCompilerCache`, `prepareManagedCompilerCache` : the two operations.
* `publishAtomicFile` : the publication of a file that must not exist.
* `pool` : any number of them side by side on one root.

The hash function and the reader of the marker are parameters.
-/

namespace ArosTools

namespace CompilerCache

/-! ### Data -/

/-- `CompilerBackend`. -/
inductive CompilerBackend where
  | sccache
  | ccache
  deriving DecidableEq, Repr

/-- `CompilerBackend::program`. -/
def CompilerBackend.program : CompilerBackend → String
  | .sccache => "sccache"
  | .ccache => "ccache"

/-- `CompilerBackend::data_directory`. -/
def dataDirectory : Bytes := ascii "data"

/-- `OWNERSHIP_SCHEMA`. -/
def ownershipSchema : String := "aros-managed-compiler-cache-v1"

/-- `MAX_OWNERSHIP_BYTES`. -/
def maxOwnershipBytes : ℕ := 16 * 1024

/-- `MAX_ROOT_ENTRIES_DURING_PREPARE`. -/
def maxRootEntriesDuringPrepare : ℕ := 1

/-- `MAX_MANAGED_ROOT_ENTRIES`. -/
def maxManagedRootEntries : ℕ := 5

/-- `MAX_SCCACHE_SOCKET_PATH_BYTES`. -/
def maxSccacheSocketPathBytes : ℕ := 103

/-- `OwnershipRecord`. -/
structure OwnershipRecord where
  schema : Bytes
  backend : CompilerBackend
  cacheRoot : Bytes
  dataDirectory : Bytes
  configurationSha256 : Sha256Digest
  deriving DecidableEq, Repr

/-- What the derived serializer of a record writes. -/
def OwnershipRecord.encode (record : OwnershipRecord) : Bytes :=
  Json.object [(ascii "schema", Json.string record.schema),
    (ascii "backend", Json.string (ascii record.backend.program)),
    (ascii "cache_root", Json.string record.cacheRoot),
    (ascii "data_directory", Json.string record.dataDirectory),
    (ascii "configuration_sha256", Json.string record.configurationSha256)]

/-- `CompilerCacheManagedRoot`. -/
structure CompilerCacheManagedRoot where
  backend : CompilerBackend
  root : Bytes
  dataRoot : Bytes
  configurationPath : Bytes
  deriving DecidableEq, Repr

/-- `CompilerCachePreparation`. -/
structure CompilerCachePreparation where
  backend : CompilerBackend
  cacheRoot : Bytes
  dataRoot : Bytes
  created : Bool
  ownership : String
  deriving DecidableEq, Repr

/-- What an I/O primitive rejects an operation for. -/
inductive IoFailure where
  | notFound
  | notPrivate
  | tooLarge
  | tooManyEntries
  | changed
  | wouldBlock
  | alreadyExists
  | replaced
  deriving DecidableEq, Repr

/-- `CompilerCacheLifecycleError`, without the paths in its texts. -/
inductive LifecycleError where
  | relativeRoot
  | missingPreparedRoot
  | nonEmptyUnownedRoot
  | invalidOwnership (reason : String)
  | io (action : String) (source : IoFailure)
  deriving DecidableEq, Repr

/-! ### The disk -/

/-- `JournalState`. -/
inductive JournalState where
  | prepared
  | committed
  deriving DecidableEq, Repr

/-- A file that gets published, with what a publication leaves beside it. -/
structure Slot where
  lockFile : Bool := false
  holder : Option ℕ := none
  journalStage : Bool := false
  journal : Option JournalState := none
  stage : Option Bytes := none
  target : Option (ℕ × Bytes) := none
  deriving DecidableEq, Repr

/-- The two files that get published. -/
inductive ManagedFile where
  | configuration
  | ownership
  deriving DecidableEq, Repr

/-- The directories below the root, and the root. -/
inductive Directory where
  | root
  | control
  | version
  | data
  deriving DecidableEq, Repr

/-- A name in the root. -/
inductive Entry where
  | control
  | journal
  | journalStage
  | publicationLock
  | stage
  | configuration
  | data
  | serverSocket
  deriving DecidableEq, Repr

/-- What `symlink_metadata` says of a name. -/
inductive FileKind where
  | directory
  | file
  | socket
  deriving DecidableEq, Repr

/-- A cache root on the disk. `isPrivate` says that nobody else may write to it. -/
structure Root where
  isPrivate : Bool
  present : Bool
  control : Bool := false
  version : Bool := false
  data : Option ℕ := none
  prepareLock : Bool := false
  preparer : Option ℕ := none
  configuration : Slot := {}
  ownership : Slot := {}
  deriving DecidableEq, Repr

namespace Root

variable (s : Root)

/-- The names in the root, sorted. -/
def entries : List Entry :=
  (if s.control then [Entry.control] else []) ++
    (if s.configuration.journal.isSome then [Entry.journal] else []) ++
    (if s.configuration.journalStage then [Entry.journalStage] else []) ++
    (if s.configuration.lockFile then [Entry.publicationLock] else []) ++
    (if s.configuration.stage.isSome then [Entry.stage] else []) ++
    (if s.configuration.target.isSome then [Entry.configuration] else []) ++
    (if s.data.isSome then [Entry.data] else [])

/-- A directory is there. -/
def has : Directory → Bool
  | .root => s.present
  | .control => s.control
  | .version => s.version
  | .data => s.data.isSome

/-- Makes a directory, unless it is there. -/
def make (i : ℕ) : Directory → Root
  | .root => { s with present := true }
  | .control => { s with control := true }
  | .version => { s with version := true }
  | .data => { s with data := some (s.data.getD i) }

/-- A file that gets published. -/
def slot : ManagedFile → Slot
  | .configuration => s.configuration
  | .ownership => s.ownership

/-- Changes a file that gets published. -/
def setSlot (slot : Slot) : ManagedFile → Root
  | .configuration => { s with configuration := slot }
  | .ownership => { s with ownership := slot }

end Root

/-! ### Calls -/

/-- The calls on a root. -/
inductive Call : Type → Type where
  | rootMetadata : Call (Option FileKind)
  | validatePrivateDirectory (directory : Directory) : Call (Except IoFailure Unit)
  | readEntryNames (maxEntries : ℕ) : Call (Except IoFailure (List Entry))
  | entryMetadata (entry : Entry) : Call (Option FileKind)
  | measureRegularFile (file : ManagedFile) (maxBytes : ℕ) : Call (Except IoFailure (Option Bytes))
  | makeDirectory (directory : Directory) : Call Unit
  | openPrepareLock : Call Unit
  | lockPrepare : Call (Except IoFailure Unit)
  | revalidatePrepareLock : Call (Except IoFailure Unit)
  | lockForJournal (file : ManagedFile) : Call Unit
  | recoverIfNeeded (file : ManagedFile) : Call Unit
  | targetExists (file : ManagedFile) : Call Bool
  | writeJournalStage (file : ManagedFile) : Call Unit
  | renameJournalStage (file : ManagedFile) (state : JournalState) : Call Unit
  | writeStage (file : ManagedFile) (contents : Bytes) : Call Unit
  | renameNoclobber (file : ManagedFile) : Call (Except IoFailure Unit)
  | readTarget (file : ManagedFile) : Call (Option Bytes)
  | cleanupCommitted (file : ManagedFile) : Call Unit
  | removeJournal (file : ManagedFile) : Call Unit
  | unlockJournal (file : ManagedFile) : Call Unit

/-- The answer to a call, and the root it leaves; `i` is the number of the program. -/
def answer (i : ℕ) (s : Root) : {β : Type} → Call β → β × Root
  | _, .rootMetadata => (if s.present then some .directory else none, s)
  | _, .validatePrivateDirectory directory =>
    (if s.has directory && s.isPrivate then .ok () else .error .notPrivate, s)
  | _, .readEntryNames maxEntries =>
    (if s.entries.length ≤ maxEntries then .ok s.entries else .error .tooManyEntries, s)
  | _, .entryMetadata entry =>
    (if entry ∈ s.entries then
      some (if entry = .control ∨ entry = .data then .directory
        else if entry = .serverSocket then .socket else .file)
      else none, s)
  | _, .measureRegularFile file maxBytes =>
    (match (s.slot file).target with
      | none => .ok none
      | some (_, bytes) => if bytes.length ≤ maxBytes then .ok (some bytes) else .error .tooLarge, s)
  | _, .makeDirectory directory => ((), s.make i directory)
  | _, .openPrepareLock => ((), { s with prepareLock := true })
  | _, .lockPrepare =>
    if s.preparer = none ∨ s.preparer = some i then (.ok (), { s with preparer := some i })
    else (.error .wouldBlock, s)
  | _, .revalidatePrepareLock =>
    (if s.prepareLock ∧ s.preparer = some i then .ok () else .error .replaced, s)
  | _, .lockForJournal file =>
    ((), s.setSlot { s.slot file with lockFile := true, holder := some i } file)
  | _, .recoverIfNeeded file =>
    ((), s.setSlot (if (s.slot file).journal = none then { s.slot file with journalStage := false }
      else { s.slot file with journalStage := false, journal := none, stage := none }) file)
  | _, .targetExists file => ((s.slot file).target.isSome, s)
  | _, .writeJournalStage file => ((), s.setSlot { s.slot file with journalStage := true } file)
  | _, .renameJournalStage file state =>
    ((), s.setSlot { s.slot file with journalStage := false, journal := some state } file)
  | _, .writeStage file contents =>
    ((), s.setSlot { s.slot file with stage := some contents } file)
  | _, .renameNoclobber file =>
    match (s.slot file).stage, (s.slot file).target with
    | some contents, none =>
      (.ok (), s.setSlot { s.slot file with stage := none, target := some (i, contents) } file)
    | none, _ => (.error .notFound, s)
    | some _, some _ => (.error .alreadyExists, s)
  | _, .readTarget file => ((s.slot file).target.map Prod.snd, s)
  | _, .cleanupCommitted file => ((), s.setSlot { s.slot file with stage := none } file)
  | _, .removeJournal file => ((), s.setSlot { s.slot file with journal := none } file)
  | _, .unlockJournal file => ((), s.setSlot { s.slot file with holder := none } file)

/-- The end of a program releases its locks. -/
def exitRoot (i : ℕ) (s : Root) : Root :=
  { s with
    preparer := if s.preparer = some i then none else s.preparer
    configuration := { s.configuration with
      holder := if s.configuration.holder = some i then none else s.configuration.holder }
    ownership := { s.ownership with
      holder := if s.ownership.holder = some i then none else s.ownership.holder } }

/-- A call that waits: the lock of a journal that another program holds. -/
def waits (i : ℕ) (s : Root) : {β : Type} → Call β → Bool
  | _, .lockForJournal file => (s.slot file).holder ≠ none ∧ (s.slot file).holder ≠ some i
  | _, _ => false

/-- Programs side by side on one root. -/
def pool : Pool Call Root where
  machine := ⟨fun op i s => answer i s op⟩
  blocked := fun op i s => waits i s op
  exit := exitRoot

/-! ### Programs -/

/-- A program on a root that may fail. -/
abbrev Task (α : Type) := ExceptT LifecycleError (Prog Call) α

/-- One call. -/
def perform {β : Type} (op : Call β) : Task β := ExceptT.lift (Prog.perform op)

/-- A result of a program that the rest of it goes on with. -/
def attempt {α : Type} (task : Task α) : Task (Except LifecycleError α) :=
  ExceptT.mk (do let result ← task.run; pure (.ok result))

/-- A call that may fail, reported with what it was for. -/
def performIo {α : Type} (action : String) (op : Call (Except IoFailure α)) : Task α := do
  match ← perform op with
  | .ok a => pure a
  | .error source => throw (.io action source)

/-- `directory_entry_names_nofollow_bounded` of the root: two reads that must agree. -/
def directoryEntryNames (maxEntries : ℕ) : Task (Except IoFailure (List Entry)) := do
  match ← perform (.readEntryNames maxEntries) with
  | .error source => pure (.error source)
  | .ok first =>
    match ← perform (.readEntryNames maxEntries) with
    | .error source => pure (.error source)
    | .ok second => pure (if first = second then .ok second else .error .changed)

/-- `directory_entry_names_nofollow_bounded`, reported with what it was for. -/
def entryNamesFor (action : String) (maxEntries : ℕ) : Task (List Entry) := do
  match ← directoryEntryNames maxEntries with
  | .ok entries => pure entries
  | .error source => throw (.io action source)

/-- `write_journal`. -/
def writeJournal (file : ManagedFile) (state : JournalState) : Task Unit := do
  perform (.writeJournalStage file)
  perform (.renameJournalStage file state)

/-- `publish_atomic_file` with `NoClobber`. -/
def publishAtomicFile (action : String) (file : ManagedFile) (contents : Bytes) : Task Unit := do
  perform (.lockForJournal file)
  perform (.recoverIfNeeded file)
  if ← perform (.targetExists file) then throw (.io action .alreadyExists)
  writeJournal file .prepared
  perform (.writeStage file contents)
  writeJournal file .prepared
  writeJournal file .committed
  match ← perform (.renameNoclobber file) with
  | .error source =>
    perform (.recoverIfNeeded file)
    throw (.io action source)
  | .ok () =>
    -- A target that was renamed and cannot be proven stays, with its journal.
    if (← perform (.readTarget file)) ≠ some contents then throw (.io action .changed)
    perform (.cleanupCommitted file)
    perform (.removeJournal file)
    perform (.unlockJournal file)

section

variable (sha256Bytes : Bytes → Sha256Digest) (parseOwnership : Bytes → Option OwnershipRecord)
  (root : Bytes)

/-- `Path::join` with one name. -/
def joinPath (path name : Bytes) : Bytes :=
  if path.getLast? = some 0x2f then path ++ name else path ++ [0x2f] ++ name

/-- The data directory of the root. -/
def dataRoot : Bytes := joinPath root dataDirectory

/-- `resolve_explicit_root`. -/
def resolveExplicitRoot : Except LifecycleError Unit :=
  if root.head? = some 0x2f then .ok () else .error .relativeRoot

/-- `validate_backend_path_constraints`. -/
def validateBackendPathConstraints (backend : CompilerBackend) : Except LifecycleError Unit :=
  if backend = .sccache ∧
      maxSccacheSocketPathBytes < (joinPath root (ascii "server.sock")).length then
    .error (.invalidOwnership ("private sccache Unix-domain socket path is too long; choose a " ++
      "shorter AROS_HOME or --dir"))
  else .ok ()

/-- `configuration_contents`. -/
def configurationContents (backend : CompilerBackend) : Except LifecycleError Bytes :=
  if isUtf8 (dataRoot root) then
    match backend with
    | .ccache => .ok (ascii ("# Generated by aros-tools. Do not add remote or secondary storage " ++
        "here.\nmax_size = 5.0G\n"))
    | .sccache => .ok (ascii ("# Generated by aros-tools. This namespace has local disk storage " ++
        "only.\n[cache.disk]\ndir = \"") ++ dataRoot root ++ ascii "\"\nsize = 5368709120\n")
  else .error (.invalidOwnership
    "managed data root is not valid UTF-8 for backend configuration")

/-- The record that a root is claimed with. -/
def ownershipRecord (backend : CompilerBackend) (configuration : Bytes) : OwnershipRecord :=
  ⟨ascii ownershipSchema, backend, root, dataDirectory, sha256Bytes configuration⟩

/-- `decode_ownership`. -/
def decodeOwnership (bytes : Bytes) (backend : CompilerBackend) :
    Except LifecycleError OwnershipRecord :=
  match parseOwnership bytes with
  | none => .error (.invalidOwnership "cannot decode ownership marker")
  | some ownership =>
    if ownership.schema ≠ ascii ownershipSchema then
      .error (.invalidOwnership "ownership schema is unsupported")
    else if ownership.backend ≠ backend then
      .error (.invalidOwnership ("marker is bound to '" ++ ownership.backend.program ++ "'"))
    else if ownership.cacheRoot ≠ root then
      .error (.invalidOwnership "marker cache root does not match the requested absolute root")
    else if ownership.dataDirectory ≠ dataDirectory then
      .error (.invalidOwnership "marker data directory is not the fixed managed location")
    else .ok ownership

/-- One entry of `validate_managed_root_layout`. -/
def validateEntry (backend : CompilerBackend) (entry : Entry) : Task Unit :=
  if entry = .control ∨ entry = .configuration ∨ entry = .data then pure ()
  else if entry = .publicationLock then do
    match ← perform (.entryMetadata entry) with
    | none => throw (.io "inspect managed publication lock" .notFound)
    | some .file => pure ()
    | some _ => throw (.invalidOwnership "managed publication lock is not a real regular file")
  else if entry = .serverSocket ∧ backend = .sccache then do
    match ← perform (.entryMetadata entry) with
    | none => throw (.io "inspect managed sccache server socket" .notFound)
    | some .socket => pure ()
    | some _ =>
      throw (.invalidOwnership "managed sccache server path is not a real Unix-domain socket")
  else throw (.invalidOwnership "unexpected root entry")

/-- `validate_managed_root_layout`. -/
def validateManagedRootLayout (backend : CompilerBackend) : Task Unit := do
  match ← directoryEntryNames maxManagedRootEntries with
  | .error _ => throw (.invalidOwnership "managed root layout cannot be enumerated safely")
  | .ok entries => entries.forM (validateEntry backend)

/-- `validate_configuration`. -/
def validateConfiguration (backend : CompilerBackend) (ownership : OwnershipRecord) :
    Task Unit := do
  let some bytes ← performIo "read compiler-cache configuration"
      (.measureRegularFile .configuration maxOwnershipBytes)
    | throw (.invalidOwnership "configuration file is missing")
  let expected ← liftM (configurationContents root backend)
  if sha256Bytes bytes ≠ ownership.configurationSha256 ∨ bytes ≠ expected then
    throw (.invalidOwnership
      "configuration changed; managed cache configuration must remain generated local-only")

/-- `load_managed_compiler_cache`. -/
def loadManagedCompilerCache (backend : CompilerBackend) : Task CompilerCacheManagedRoot := do
  liftM (resolveExplicitRoot root)
  liftM (validateBackendPathConstraints root backend)
  match ← perform .rootMetadata with
  | none => throw .missingPreparedRoot
  | some .directory =>
    performIo "validate private compiler-cache root" (.validatePrivateDirectory .root)
    match ← performIo "read compiler-cache ownership marker"
        (.measureRegularFile .ownership maxOwnershipBytes) with
    | none => throw .missingPreparedRoot
    | some bytes =>
      let ownership ← liftM (decodeOwnership parseOwnership root bytes backend)
      validateManagedRootLayout backend
      validateConfiguration sha256Bytes root backend ownership
      performIo "validate compiler-cache data directory" (.validatePrivateDirectory .data)
      pure ⟨backend, root, joinPath root ownership.dataDirectory,
        joinPath root (ascii "configuration.toml")⟩
  | some _ => throw (.invalidOwnership "root is not a real directory")

/-- The second half of `prepare_managed_compiler_cache`, under the preparation lock. -/
def claimRoot (backend : CompilerBackend) : Task CompilerCachePreparation := do
  performIo "revalidate compiler-cache preparation lock" .revalidatePrepareLock
  let rootEntries ← entryNamesFor "recheck compiler-cache root ownership boundary" 2
  if rootEntries ≠ [.control] then throw .nonEmptyUnownedRoot
  perform (.makeDirectory .data)
  performIo "validate compiler-cache data directory" (.validatePrivateDirectory .data)
  let configuration ← liftM (configurationContents root backend)
  publishAtomicFile "publish compiler-cache configuration" .configuration configuration
  publishAtomicFile "publish compiler-cache ownership marker" .ownership
    (ownershipRecord sha256Bytes root backend configuration).encode
  performIo "revalidate compiler-cache preparation lock" .revalidatePrepareLock
  pure ⟨backend, root, dataRoot root, true, "empty_private_root_claimed"⟩

/-- The first half of `prepare_managed_compiler_cache`, up to the preparation lock. -/
def enterRoot : Task Unit := do
  perform (.makeDirectory .root)
  performIo "validate private compiler-cache root" (.validatePrivateDirectory .root)
  let entries ← entryNamesFor "inspect empty compiler-cache root" maxRootEntriesDuringPrepare
  if entries ≠ [] then throw .nonEmptyUnownedRoot
  perform (.makeDirectory .control)
  perform (.makeDirectory .version)
  performIo "validate compiler-cache control directory" (.validatePrivateDirectory .version)
  perform .openPrepareLock
  performIo "acquire compiler-cache preparation lock" .lockPrepare

/-- `prepare_managed_compiler_cache`. -/
def prepareManagedCompilerCache (backend : CompilerBackend) : Task CompilerCachePreparation := do
  liftM (resolveExplicitRoot root)
  liftM (validateBackendPathConstraints root backend)
  match ← attempt (loadManagedCompilerCache sha256Bytes parseOwnership root backend) with
  | .ok managed => pure ⟨backend, managed.root, managed.dataRoot, false, "existing_validated"⟩
  | .error .missingPreparedRoot =>
    enterRoot
    claimRoot sha256Bytes root backend
  | .error error => throw error

/-! ### Calls side by side -/

/-- One of the two operations, for a backend. -/
inductive Request where
  | prepare (backend : CompilerBackend)
  | load (backend : CompilerBackend)
  deriving DecidableEq, Repr

/-- The backend of a request. -/
def Request.backend : Request → CompilerBackend
  | .prepare backend => backend
  | .load backend => backend

/-- What an operation returns. -/
inductive Outcome where
  | prepared (preparation : CompilerCachePreparation)
  | loaded (managed : CompilerCacheManagedRoot)
  deriving DecidableEq, Repr

/-- The program of a request. -/
def Request.program : Request → Task Outcome
  | .prepare backend => do
    let preparation ← prepareManagedCompilerCache sha256Bytes parseOwnership root backend
    pure (.prepared preparation)
  | .load backend => do
    let managed ← loadManagedCompilerCache sha256Bytes parseOwnership root backend
    pure (.loaded managed)

/-- Requests that have not begun, one for each number, on a root that is empty or missing. -/
def initial (requests : ℕ → Request) (isPrivate present : Bool) :
    Pool.System Call Root (Except LifecycleError Outcome) :=
  ⟨{ isPrivate := isPrivate, present := present },
    fun i => some ((requests i).program sha256Bytes parseOwnership root), []⟩

end

end CompilerCache

end ArosTools
