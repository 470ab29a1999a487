import ArosTools.Publication.Filesystem

/-!
# The durable journal

Validation, encoding, replacement and stage cleanup of the journal.  A journal is written to its
own stage file first and renamed into place, so that a reader sees a complete journal or the
previous one.
-/

namespace ArosTools

section Validate

variable (sha256Bytes : Bytes → Sha256Digest)

/-- A journal failure. -/
def journalError (message : String) : IoError := ioFailure (.rollback message)

/-- The recorded original snapshot lacks a part that the schema requires, or has one that it does
not know. -/
def originalProofIncomplete (modeAware : Bool) (operation : JournalOperation) : Bool :=
  operation.original.isSome != operation.originalDigest.isSome ||
    (modeAware && operation.original.isSome != operation.originalMode.isSome) ||
    (!modeAware && operation.originalMode.isSome)

/-- The auxiliary paths are not the derived ones, or the recorded state is inconsistent. -/
def auxiliaryInconsistent (modeAware : Bool) (expectedStage expectedBackup : PathBuf)
    (operation : JournalOperation) : Bool :=
  operation.stage.any (· ≠ expectedStage) ||
    operation.backup.any (· ≠ expectedBackup) ||
    operation.stage.isSome != operation.desiredDigest.isSome ||
    (modeAware && operation.stage.isSome != operation.desiredMode.isSome) ||
    (!modeAware && operation.desiredMode.isSome) ||
    operation.desiredMode.any (fun mode => !(mode == 0o644 || mode == 0o755)) ||
    (operation.installed.isSome && operation.stage.isNone) ||
    operation.backup.isSome != operation.original.isSome

/-- Check one operation; answers its collision key. -/
def validateOperation (modeAware : Bool) (scope : PathBuf) (nonce index : ℕ)
    (targets : List PathBuf) (collisionKeys : List Bytes) (operation : JournalOperation) :
    Except IoError Bytes := do
  if !operation.target.absolute || !operation.target.startsWith scope ||
      targets.contains operation.target then
    .error (journalError "publication journal contains an invalid or duplicate target")
  else pure ()
  let relative ← (operation.target.stripPrefix scope).elim
    (.error (journalError "publication journal target escaped its scope")) .ok
  let collisionKey ← (casefoldPathKey relative).mapError fun error =>
    journalError ("publication journal target is not portable: " ++ error.message)
  if collisionKeys.contains collisionKey then
    .error (journalError "publication journal contains a case-folded target collision")
  else pure ()
  if originalProofIncomplete modeAware operation then
    .error (journalError
      "publication journal original identity/digest/mode proof is incomplete")
  else pure ()
  if operation.originalMode.any (· > 0o7777) then
    .error (journalError
      "publication journal original mode is outside the portable permission mask")
  else pure ()
  let parent ← operation.target.parent.elim
    (.error (journalError "publication journal target has no parent")) .ok
  let leaf ← operation.target.fileName.elim
    (.error (journalError "publication journal target has no leaf")) .ok
  if auxiliaryInconsistent modeAware
      (parent.join (siblingName sha256Bytes leaf "stage" (addU64 nonce index)))
      (parent.join (siblingName sha256Bytes leaf "backup" (addU64 nonce index))) operation then
    .error (journalError
      "publication journal contains inconsistent or non-derived auxiliary state")
  else pure collisionKey

/-- Check the operations from `index` on. -/
def validateOperations (modeAware : Bool) (scope : PathBuf) (nonce : ℕ) :
    ℕ → List PathBuf → List Bytes → List JournalOperation → Except IoError Unit
  | _, _, _, [] => .ok ()
  | index, targets, collisionKeys, operation :: rest => do
    let key ← validateOperation sha256Bytes modeAware scope nonce index targets collisionKeys
      operation
    validateOperations modeAware scope nonce (index + 1) (operation.target :: targets)
      (key :: collisionKeys) rest

/-- Check that a journal only names files below its own directory, each with its derived
auxiliary names and with a complete snapshot. -/
def validateJournal (journal : Journal) (journalPath : PathBuf) : Except IoError Unit := do
  let modeAware ←
    if journal.schema = "aros-publication-journal-v2" then pure false
    else if journal.schema = "aros-publication-journal-v3" then pure true
    else .error (journalError
      ("unsupported publication journal schema '" ++ journal.schema ++ "'"))
  let scope ← journalPath.parent.elim
    (.error (journalError "publication journal has no containment scope")) .ok
  validateOperations sha256Bytes modeAware scope journal.nonce 0 [] [] journal.operations

end Validate

section

variable (ext : Externals)

/-- The bytes of a journal. -/
def encodeJournal (journal : Journal) : Except IoError Bytes := do
  let json ← ext.journalToVec journal
  pure (journalStageMagic ++ json)

/-- The journal in some bytes. -/
def parseJournal (bytes : Bytes) : Except IoError Journal :=
  match stripBytes journalStageMagic bytes with
  | none => .error (.new .invalidData "publication journal has no owned schema marker")
  | some json => ext.journalFromSlice json

/-- Where a journal is staged. -/
def journalStagePath (path : PathBuf) : Io PathBuf := do
  let parent ← openParent path true
  pure (.ofPath (parent.dir ++ [siblingName ext.sha256Bytes parent.leaf "journal-stage" 0]))

/-- The bytes can be what an interrupted write of a journal left. -/
def ownedJournalStage (bytes : Bytes) : Bool :=
  bytes == [] || bytes.isPrefixOf journalStageMagic || journalStageMagic.isPrefixOf bytes

/-- Remove a left-over journal stage. -/
def cleanupJournalStage (journalPath : PathBuf) : Io Unit := do
  let stagedPath ← journalStagePath ext journalPath
  match ← readRegular stagedPath with
  | none => pure ()
  | some (identity, bytes) =>
    if ownedJournalStage bytes then
      removeRegularExact ext.sha256Bytes stagedPath identity (ext.sha256Bytes bytes)
    else
      throw (ioFailure (.rollback ("refusing to remove unowned journal stage '" ++
        stagedPath.display ++ "'; preserve it for inspection")))

/-- Rename a staged journal into place and sync its directory. -/
def installJournal (parent : ParentHandle) (stagedPath : PathBuf) : Io Unit := do
  let staged ← openParent stagedPath false
  if (← identityAt parent parent.leaf).isSome then
    -- the lock serialises writers, so replacing the journal itself is safe
    sys (.rename staged.file parent.file)
  else
    renameNoclobber staged parent
  sys (.fsync parent.dir)

/-- Write a journal durably, replacing the one that is there. -/
def writeJournal (path : PathBuf) (journal : Journal) : Io Unit := do
  let bytes ← liftExcept (encodeJournal ext journal)
  let parent ← openParent path true
  let stagedPath ← journalStagePath ext path
  cleanupJournalStage ext path
  let stagedIdentity ← writeNewFileMode ext.sha256Bytes stagedPath bytes 0o600
  match ← attempt (installJournal parent stagedPath) with
  | .ok () => pure ()
  | .error error => do
    let cleanup ← attempt
      (removeRegularExact ext.sha256Bytes stagedPath stagedIdentity (ext.sha256Bytes bytes))
    throw (combinePrimaryAndCleanup error (errorTexts cleanup))

/-- Remove the journal if it still has the expected identity. -/
def removeJournal (path : PathBuf) (expected : FileIdentity) : Io Unit := do
  match ← readRegular path with
  | none => throw (.new .notFound "publication journal disappeared")
  | some (_, bytes) =>
    removeRegularExact ext.sha256Bytes path expected (ext.sha256Bytes bytes)

end

end ArosTools
