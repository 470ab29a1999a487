import ArosTools.Publication.Journal

/-!
# Rolling back and completing a transaction

`rollbackOperation` restores one target from what it finds on disk, `cleanupCommitted` removes the
auxiliary files of a committed transaction, and `recoverIfNeeded` picks between the two by the
state of the journal.  Recovery is written so that it can be interrupted and started again.
-/

namespace ArosTools

section

variable (sha256Bytes : Bytes → Sha256Digest)

/-- A measured file, or its absence, is the recorded snapshot. -/
def snapshotMatches (snapshot : Option File) (expectedIdentity : Option FileIdentity)
    (expectedDigest : Option Sha256Digest) (expectedMode : Option ℕ) : Bool :=
  match snapshot with
  | some f =>
    decide (some f.identity = expectedIdentity) &&
      decide (some (sha256Bytes f.bytes) = expectedDigest) &&
      expectedMode.all (· == f.mode)
  | none => expectedIdentity.isNone && expectedDigest.isNone && expectedMode.isNone

namespace JournalOperation

variable (operation : JournalOperation) (snapshot : Option File)

/-- The snapshot is the recorded original. -/
def matchesOriginal : Bool :=
  snapshotMatches sha256Bytes snapshot operation.original operation.originalDigest
    operation.originalMode

/-- The snapshot is the recorded installed file. -/
def matchesInstalled : Bool :=
  snapshotMatches sha256Bytes snapshot operation.installed operation.desiredDigest
    operation.desiredMode

end JournalOperation

/-- Check that the original is back at its target. -/
def verifyOriginalRestored (operation : JournalOperation) : Io Unit := do
  let restored ← readRegularWithMode operation.target
  if operation.matchesOriginal sha256Bytes restored then pure ()
  else throw (.ofMessage ("restored target identity, digest, or mode mismatch for '" ++
    operation.target.display ++ "'"))

/-- Remove the stage of an operation. -/
def removeOwnedStage (operation : JournalOperation) (stage : PathBuf) : Io Unit :=
  match operation.installed, operation.desiredDigest with
  | some identity, some digest =>
    removeOperationAuxExact sha256Bytes operation stage identity digest operation.desiredMode
  | _, _ => removeOperationAuxUnidentified sha256Bytes operation stage

/-- Prefix the text of an error. -/
def labelled {α : Type} (label : String) (r : Except IoError α) : List String :=
  (errorTexts r).map (label ++ ·)

/-- Rollback, first part: remove the installed file from the target. -/
def rollbackTarget (operation : JournalOperation) (parent : ParentHandle) : Io (List String) := do
  match ← attempt (readRegularWithMode operation.target) with
  | .error error => pure ["measure target: " ++ error.message]
  | .ok current =>
    if operation.matchesInstalled sha256Bytes current then
      match operation.installed, operation.desiredDigest with
      | some identity, some digest => do
        let removed ← attempt
          (removeAtExactMode sha256Bytes parent identity digest operation.desiredMode)
        pure (labelled "remove installed target: " removed)
      | _, _ => pure ["installed target lacks journal proof"]
    else if current.isSome && !operation.matchesOriginal sha256Bytes current then
      pure ["target contains unexpected identity or bytes"]
    else pure []

/-- Rename the backup back to the target and check the result. -/
def restoreBackup (operation : JournalOperation) (backupParent targetParent : ParentHandle) :
    Io Unit := do
  renameNoclobber backupParent targetParent
  syncParent operation.target
  verifyOriginalRestored sha256Bytes operation

/-- Rollback, second part, with both parents open: restore the original from the backup. -/
def rollbackBackupAt (operation : JournalOperation) (backupPath : PathBuf)
    (backupParent targetParent : ParentHandle) : Io (List String) := do
  match ← attempt (readRegularWithMode backupPath) with
  | .error error => pure ["measure backup: " ++ error.message]
  | .ok backup =>
    if operation.matchesOriginal sha256Bytes backup then
      match ← attempt (readRegularWithMode operation.target) with
      | .ok none => do
        let restored ← attempt (restoreBackup sha256Bytes operation backupParent targetParent)
        pure (labelled "restore backup: " restored)
      | .ok current =>
        if operation.matchesOriginal sha256Bytes current then pure []
        else pure ["cannot restore backup over unexpected target"]
      | .error error => pure ["measure restore target: " ++ error.message]
    else if backup.isSome then pure ["backup identity, digest, or mode mismatch"]
    else
      match ← attempt (readRegularWithMode operation.target) with
      | .ok current =>
        if operation.matchesOriginal sha256Bytes current then pure []
        else if operation.original.isSome then pure ["required rollback backup is missing"]
        else pure []
      | .error error => pure ["measure target without backup: " ++ error.message]

/-- Rollback, second part: restore the original from the backup. -/
def rollbackBackup (operation : JournalOperation) (targetParent : Except IoError ParentHandle) :
    Io (List String) :=
  match operation.backup with
  | none => pure []
  | some backupPath => do
    match ← attempt (openParent backupPath false), targetParent with
    | .ok backupParent, .ok targetParent =>
      rollbackBackupAt sha256Bytes operation backupPath backupParent targetParent
    | .error error, _ => pure ["open backup parent: " ++ error.message]
    | .ok _, .error _ => pure []

/-- Rollback, last part: remove the stage. -/
def rollbackStage (operation : JournalOperation) : Io (List String) :=
  match operation.stage with
  | none => pure []
  | some stage => do
    let removed ← attempt (removeOwnedStage sha256Bytes operation stage)
    pure (labelled "remove stage: " removed)

/-- Refuse a rollback whose target directory is not the journalled one. -/
def checkTargetParent (operation : JournalOperation) : Except IoError ParentHandle → Io Unit
  | .error _ => pure ()
  | .ok parent => do
    let identity ← sys (.fstat parent.fd)
    if identity = operation.parentIdentity then pure ()
    else throw (.ofMessage "target parent identity changed; refusing path-based rollback")

/-- Undo one operation, whatever part of it was done. -/
def rollbackOperation (operation : JournalOperation) : Io Unit := do
  let targetParent ← attempt (openParent operation.target false)
  checkTargetParent operation targetParent
  let target ← match targetParent with
    | .ok parent => rollbackTarget sha256Bytes operation parent
    | .error _ => pure []
  let backup ← rollbackBackup sha256Bytes operation targetParent
  let stage ← rollbackStage sha256Bytes operation
  let errors := labelled "open target parent: " targetParent ++ target ++ backup ++ stage
  if errors = [] then pure ()
  else throw (.ofMessage ("; ".intercalate errors))

/-- Run an action on every operation and collect the errors. -/
def collectErrors (label : JournalOperation → String) (act : JournalOperation → Io Unit) :
    List JournalOperation → Io (List String)
  | [] => pure []
  | operation :: rest => do
    let done ← attempt (act operation)
    let errors ← collectErrors label act rest
    pure (labelled (label operation ++ ": ") done ++ errors)

/-- Undo the operations, last first. -/
def rollbackOperations (operations : List JournalOperation) : Io (List String) :=
  collectErrors (fun operation => operation.target.display) (rollbackOperation sha256Bytes)
    operations.reverse

/-- Remove the stage of an operation that has one. -/
def cleanupStage (operation : JournalOperation) : Io Unit :=
  match operation.stage with
  | none => pure ()
  | some stage => removeOwnedStage sha256Bytes operation stage

/-- The text of an optional path. -/
def displayAux : Option PathBuf → String
  | none => ""
  | some path => path.display

/-- Remove the stages. -/
def cleanupStages (operations : List JournalOperation) : Io (List String) :=
  collectErrors (fun operation => displayAux operation.stage) (cleanupStage sha256Bytes) operations

/-- Remove the backup of an operation that has one. -/
def cleanupBackup (operation : JournalOperation) : Io Unit :=
  match operation.backup with
  | none => pure ()
  | some backup =>
    match operation.original, operation.originalDigest with
    | some identity, some digest =>
      removeOperationAuxExact sha256Bytes operation backup identity digest operation.originalMode
    | _, _ => throw (.ofMessage "committed backup lacks journal identity or digest")

/-- Remove the stages and backups of a committed transaction. -/
def cleanupCommitted (operations : List JournalOperation) : Io (List String) := do
  let stages ← cleanupStages sha256Bytes operations
  let backups ← collectErrors (fun operation => displayAux operation.backup)
    (cleanupBackup sha256Bytes) operations
  pure (stages ++ backups)

end

section

variable (ext : Externals)

/-- Undo or complete the operations of a journal. -/
def recoverOperations (journal : Journal) : Io (RecoveryOutcome × List String) :=
  match journal.state with
  | .committed => do
    let errors ← cleanupCommitted ext.sha256Bytes journal.operations
    pure (.completedCleanup, errors)
  | .prepared => do
    let errors ← rollbackOperations ext.sha256Bytes journal.operations
    pure (.rolledBack, errors)

/-- Recover from the journal in `bytes`, then remove it. -/
def recoverJournal (journalPath : PathBuf) (journalIdentity : FileIdentity) (bytes : Bytes) :
    Io RecoveryOutcome := do
  let journal ← mapErr (fun error => ioFailure (.rollback ("cannot parse recovery journal '" ++
      journalPath.display ++ "': " ++ error.message ++ "; journal retained")))
    (liftExcept (parseJournal ext bytes))
  liftExcept (validateJournal ext.sha256Bytes journal journalPath)
  let (outcome, errors) ← recoverOperations ext journal
  if errors ≠ [] then
    throw (ioFailure (.rollback ("recovery from '" ++ journalPath.display ++
      "' is incomplete: " ++ "; ".intercalate errors ++ "; journal retained")))
  else do
    mapErr (fun error => ioFailure (.rollback ("recovery actions for '" ++ journalPath.display ++
        "' completed, but its journal could not be removed: " ++ error.message ++
        "; journal retained")))
      (removeJournal ext journalPath journalIdentity)
    pure outcome

/-- Bring an interrupted transaction to an end. -/
def recoverIfNeeded (journalPath : PathBuf) : Io RecoveryOutcome := do
  cleanupJournalStage ext journalPath
  match ← readRegular journalPath with
  | none => pure .none
  | some (journalIdentity, bytes) => recoverJournal ext journalPath journalIdentity bytes

end

end ArosTools
