import ArosTools.Publication.Recovery

/-!
# Committing a file set

`commit` journals its operations, stages the new files, journals their identities, renames every
original aside and every stage into place, marks the journal committed, and cleans up.  A failure
before the committed journal is visible is rolled back on the spot.
-/

namespace ArosTools

section

variable (ext : Externals)

/-- The number of the transaction: process and sequence number in one. -/
def transactionNonce (pid sequence : ℕ) : ℕ := ((pid <<< 32) ^^^ sequence) % 2 ^ 64

/-- The operation of one change, and the contents to stage for it. -/
def buildOperation (nonce index : ℕ) (change : PlannedChange) :
    Io (JournalOperation × Option Bytes) := do
  let parent ← openParent change.path true
  let backup := change.original.map fun _ => PathBuf.ofPath
    (parent.dir ++ [siblingName ext.sha256Bytes parent.leaf "backup" (addU64 nonce index)])
  let parentIdentity ← sys (.fstat parent.fd)
  let operation : JournalOperation :=
    { target := change.path, stage := none, backup := backup, parentIdentity := parentIdentity,
      original := change.original, originalDigest := change.originalDigest,
      originalMode := change.originalMode, desiredDigest := none, desiredMode := none,
      installed := none }
  match change.desired with
  | .write contents mode =>
    pure ({ operation with
      stage := some (.ofPath (parent.dir ++
        [siblingName ext.sha256Bytes parent.leaf "stage" (addU64 nonce index)]))
      desiredDigest := some (ext.sha256Bytes contents)
      desiredMode := some mode }, some contents)
  | .remove => pure (operation, none)

/-- The operations of the changes from `index` on. -/
def buildOperations (nonce : ℕ) :
    ℕ → List PlannedChange → Io (List (JournalOperation × Option Bytes))
  | _, [] => pure []
  | index, change :: rest => do
    let operation ← buildOperation ext nonce index change
    let operations ← buildOperations nonce (index + 1) rest
    pure (operation :: operations)

/-- Stage the new files in order.  Answers the operations with the identities recorded so far,
and the error that stopped the staging. -/
def stageFiles :
    List (JournalOperation × Option Bytes) → Io (List JournalOperation × Option IoError)
  | [] => pure ([], none)
  | (operation, none) :: rest => do
    let (operations, error) ← stageFiles rest
    pure (operation :: operations, error)
  | (operation, some contents) :: rest => do
    let stage ← okOr operation.stage (.ofMessage "write operations have a stage")
    let mode ← okOr operation.desiredMode (.ofMessage "write operations have a desired mode")
    match ← attempt (writeNewFileMode ext.sha256Bytes stage contents mode) with
    | .ok identity => do
      let (operations, error) ← stageFiles rest
      pure ({ operation with installed := some identity } :: operations, error)
    | .error error => pure (operation :: rest.map Prod.fst, some error)

/-- Move the original of an operation aside. -/
def moveAside (operation : JournalOperation) (parent : ParentHandle) (backupPath : PathBuf) :
    Io Unit := do
  let backup ← openParent backupPath false
  renameNoclobber parent backup
  let moved ← readRegularWithMode backupPath
  if operation.matchesOriginal ext.sha256Bytes moved then
    syncParent operation.target
  else do
    let _ ← attempt (renameNoclobber backup parent)
    throw (.ofMessage
      ("publication target identity, digest, or mode changed during backup rename: '" ++
        operation.target.display ++ "'"))

/-- Rename the staged file of an operation to its target. -/
def installStage (operation : JournalOperation) (parent : ParentHandle) (stagePath : PathBuf) :
    Io Unit := do
  let staged ← readRegularWithMode stagePath
  if operation.matchesInstalled ext.sha256Bytes staged then do
    let stage ← openParent stagePath false
    renameNoclobber stage parent
    let installed ← readRegularWithMode operation.target
    if operation.matchesInstalled ext.sha256Bytes installed then
      syncParent operation.target
    else
      throw (.ofMessage ("installed file identity, digest, or mode mismatch for '" ++
        operation.target.display ++ "'"))
  else
    throw (.ofMessage ("staged file identity, digest, or mode changed before commit: '" ++
      stagePath.display ++ "'"))

/-- Apply one operation to its target. -/
def applyOperation (operation : JournalOperation) : Io Unit := do
  let parent ← openParent operation.target false
  let identity ← sys (.fstat parent.fd)
  if identity ≠ operation.parentIdentity then
    throw (.ofMessage ("publication parent identity changed before commit: '" ++
      operation.target.display ++ "'"))
  else do
    let current ← readRegularWithMode operation.target
    if operation.matchesOriginal ext.sha256Bytes current then do
      match operation.backup with
      | some backupPath => moveAside ext operation parent backupPath
      | none => pure ()
      match operation.stage with
      | some stagePath => installStage ext operation parent stagePath
      | none => pure ()
    else
      throw (.ofMessage ("publication target changed before commit: '" ++
        operation.target.display ++ "'"))

/-- Apply the operations in order. -/
def applyOperations : List JournalOperation → Io Unit
  | [] => pure ()
  | operation :: rest => do
    applyOperation ext operation
    applyOperations rest

/-- End a transaction that was rolled back: remove its journal and report the failure. -/
def finishFailedTransaction (journalPath : PathBuf) (primary : IoError) (rollback : List String) :
    Io Unit := do
  if rollback ≠ [] then
    throw (ioFailure (.rollback (primary.message ++ "; rollback incomplete: " ++
      "; ".intercalate rollback ++ "; journal retained")))
  else do
    mapErr (fun error => ioFailure (.rollback (primary.message ++
        "; rollback completed, but staged-journal cleanup failed: " ++ error.message ++
        "; files retained")))
      (cleanupJournalStage ext journalPath)
    let current ← mapErr (fun error => ioFailure (.rollback (primary.message ++
        "; rollback completed, but journal identity could not be measured: " ++ error.message ++
        "; journal retained")))
      (readRegular journalPath)
    match current with
    | none => throw (ioFailure (.rollback (primary.message ++
        "; rollback completed, but the prepared journal disappeared unexpectedly")))
    | some (identity, _) => do
      mapErr (fun error => ioFailure (.rollback (primary.message ++
          "; rollback completed, but journal removal failed: " ++ error.message ++
          "; journal retained")))
        (removeJournal ext journalPath identity)
      throw primary

/-- Roll the operations back and end the transaction. -/
def rollbackTransaction (journalPath : PathBuf) (operations : List JournalOperation)
    (primary : IoError) : Io Unit := do
  let rollback ← rollbackOperations ext.sha256Bytes operations
  finishFailedTransaction ext journalPath primary rollback

/-- The visible journal, if there is one that can be read. -/
def visibleJournal (journalPath : PathBuf) : Io (Option Journal) := do
  match ← attempt (readRegular journalPath) with
  | .ok (some (_, bytes)) => pure (parseJournal ext bytes).toOption
  | _ => pure none

/-- Clean up after the committed journal is durable. -/
def finishCommitted (journalPath : PathBuf) (operations : List JournalOperation) : Io Unit := do
  let cleanup ← cleanupCommitted ext.sha256Bytes operations
  if cleanup ≠ [] then
    throw (ioFailure (.rollback ("publication committed but cleanup is incomplete: " ++
      "; ".intercalate cleanup ++ "; committed journal retained")))
  else do
    let current ← readRegular journalPath
    let (journalIdentity, _) ← okOr current (ioFailure (.rollback
      "committed publication journal disappeared before cleanup"))
    mapErr (fun error => ioFailure (.rollback
        ("publication committed and auxiliaries were cleaned, but the committed journal could " ++
          "not be removed: " ++ error.message ++ "; journal retained")))
      (removeJournal ext journalPath journalIdentity)

/-- The committed journal could not be written durably: roll back unless it is visible. -/
def commitFailed (journalPath : PathBuf) (journal committed : Journal) (error : IoError) :
    Io Unit := do
  let current ← visibleJournal ext journalPath
  if current = some committed then
    throw (ioFailure (.uncertain
      ("all targets were installed and the committed journal is visible, but its durable " ++
        "directory sync failed: " ++ error.message ++
        "; outputs and journal retained for deterministic recovery")))
  else rollbackTransaction ext journalPath journal.operations error

/-- The last phase of a commit: mark the journal committed and clean up. -/
def commitJournal (journalPath : PathBuf) (journal : Journal) : Io Unit := do
  let committed := { journal with state := .committed }
  match ← attempt (writeJournal ext journalPath committed) with
  | .error error => commitFailed ext journalPath journal committed error
  | .ok () => finishCommitted ext journalPath journal.operations

/-- The middle phase of a commit: journal the staged identities and apply every operation. -/
def applyJournal (journalPath : PathBuf) (journal : Journal) : Io Unit := do
  match ← attempt (writeJournal ext journalPath journal) with
  | .error error => rollbackTransaction ext journalPath journal.operations error
  | .ok () =>
    match ← attempt (applyOperations ext journal.operations) with
    | .error error => rollbackTransaction ext journalPath journal.operations error
    | .ok () => commitJournal ext journalPath journal

/-- Commit the changes under a journal, or roll them all back. -/
def commit (journalPath : PathBuf) (nonce : ℕ) (changes : List PlannedChange) : Io Unit := do
  let built ← buildOperations ext nonce 0 changes
  let journal : Journal :=
    { schema := "aros-publication-journal-v3", nonce := nonce, state := .prepared,
      operations := built.map Prod.fst }
  writeJournal ext journalPath journal
  let (operations, failed) ← stageFiles ext built
  match failed with
  | some error => rollbackTransaction ext journalPath operations error
  | none => applyJournal ext journalPath { journal with operations := operations }

end

end ArosTools
