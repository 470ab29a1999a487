import ArosTools.Publication.Names

/-!
# Journals, tree markers and planned changes

The data that the publication code writes to disk and reads back, and the functions it takes from
elsewhere: the hash function and the JSON writer and reader (`Externals`).
-/

namespace ArosTools

/-- Whether the targets of a transaction are to be rolled back or kept. -/
inductive JournalState where
  | prepared
  | committed
  deriving DecidableEq, Repr

/-- One file mutation of a journal. -/
structure JournalOperation where
  target : PathBuf
  stage : Option PathBuf
  backup : Option PathBuf
  parentIdentity : FileIdentity
  original : Option FileIdentity
  originalDigest : Option Sha256Digest
  originalMode : Option ℕ
  desiredDigest : Option Sha256Digest
  desiredMode : Option ℕ
  installed : Option FileIdentity
  deriving DecidableEq, Repr

/-- The record of a transaction. -/
structure Journal where
  schema : String
  nonce : ℕ
  state : JournalState
  operations : List JournalOperation
  deriving DecidableEq, Repr

/-- The owner marker of a tree stage; `members` lists the digests by name. -/
structure TreeStageMarker where
  schema : String
  destination : Name
  parentIdentity : FileIdentity
  stageIdentity : FileIdentity
  members : List (Name × Sha256Digest)
  deriving DecidableEq, Repr

/-- What a target is to become. -/
inductive DesiredState where
  | write (contents : Bytes) (mode : ℕ)
  | remove
  deriving DecidableEq, Repr

/-- A change with the snapshot of its target taken when it was staged. -/
structure PlannedChange where
  path : PathBuf
  original : Option FileIdentity
  originalDigest : Option Sha256Digest
  originalMode : Option ℕ
  desired : DesiredState
  deriving DecidableEq, Repr

/-- Recovery work completed while opening a publication namespace. -/
inductive RecoveryOutcome where
  | none
  | rolledBack
  | completedCleanup
  | removedTreeStage
  deriving DecidableEq, Repr

/-- The functions taken from other libraries: the hash function, as lower-case hexadecimal text,
and the JSON writer and reader. -/
structure Externals where
  sha256Bytes : Bytes → Sha256Digest
  journalToVec : Journal → Except IoError Bytes
  journalFromSlice : Bytes → Except IoError Journal
  markerToVec : TreeStageMarker → Except IoError Bytes
  markerFromSlice : Bytes → Except IoError TreeStageMarker

/-- The first line of every journal. -/
def journalStageMagic : Bytes := ascii "AROS-PUBLICATION-JOURNAL-v2\n"

/-- The bytes after `prefix`, if they start with it. -/
def stripBytes (pre bytes : Bytes) : Option Bytes :=
  if pre.isPrefixOf bytes then some (bytes.drop pre.length) else none

theorem stripBytes_append (pre rest : Bytes) : stripBytes pre (pre ++ rest) = some rest := by
  simp [stripBytes]

end ArosTools
