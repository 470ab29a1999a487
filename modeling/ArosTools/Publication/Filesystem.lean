import ArosTools.Publication.Types

/-!
# Descriptor-relative file operations

The helpers that the publication code is written in: walking to a parent directory without
following links, reading a regular file, creating one, and removing one only if it still is what
the caller measured.
-/

namespace ArosTools

/-- An open parent directory and the leaf below it. -/
structure ParentHandle where
  /-- The identity behind the open descriptor. -/
  fd : FileIdentity
  leaf : Name
  /-- The directory the descriptor was opened at. -/
  dir : Path

namespace ParentHandle

/-- The path of the leaf. -/
def file (h : ParentHandle) : Path := h.dir ++ [h.leaf]

/-- The written path of the leaf. -/
def path (h : ParentHandle) : PathBuf := .ofPath h.file

end ParentHandle

/-- The path itself if it is absolute, or else below the current directory. -/
def absolutePath (path : PathBuf) : Io PathBuf :=
  if path.absolute then pure path
  else do
    let cwd ← sys .currentDir
    pure ((PathBuf.ofPath cwd).joinPath path)

/-- Open one component of a walk, creating it if that is asked for. -/
def openComponent (create : Bool) (traversed : Path) (name : Name) : Io FileIdentity := do
  match ← sysResult (.openDir (traversed ++ [name])) with
  | .ok next => pure next
  | .error .noent =>
    if create then do
      match ← sysResult (.mkdir (traversed ++ [name])) with
      | .ok () => sys (.fsync traversed)
      -- a cooperating creator won the race
      | .error .exist => pure ()
      | .error e => throw (.ofErrno e)
      sys (.openDir (traversed ++ [name]))
    else throw (.ofErrno .noent)
  | .error e => throw (.ofErrno e)

/-- Walk down from an open directory. -/
def openComponents (create : Bool) (absolute : PathBuf) :
    Path → FileIdentity → List Component → Io (Path × FileIdentity)
  | traversed, fd, [] => pure (traversed, fd)
  | traversed, _, .normal name :: rest => do
    let next ← openComponent create traversed name
    openComponents create absolute (traversed ++ [name]) next rest
  | _, _, _ :: _ =>
    throw (.new .invalidInput ("publication path '" ++ absolute.display ++ "' is not normalized"))

/-- Open the parent directory of `path` without following links. -/
def openParent (path : PathBuf) (create : Bool) : Io ParentHandle := do
  let absolute ← absolutePath path
  let leaf ← okOr absolute.fileName
    (.new .invalidInput ("'" ++ absolute.display ++ "' has no file name"))
  let parentPath ← okOr absolute.parent (.new .invalidInput "publication path has no parent")
  let root ← sys (.openDir [])
  let (traversed, fd) ← openComponents create absolute [] root parentPath.components
  let pathStat ← sys (.fstat fd)
  let reopened ← sys (.openDir traversed)
  let reopenedStat ← sys (.fstat reopened)
  if pathStat ≠ reopenedStat then
    throw (.ofMessage ("publication parent changed during no-follow traversal: '" ++
      parentPath.display ++ "'"))
  else pure ⟨fd, leaf, traversed⟩

/-- Read a regular file through a no-follow descriptor, with its permission bits. -/
def readRegularWithMode (path : PathBuf) : Io (Option File) := do
  match ← attempt (openParent path false) with
  | .error e => if e.kind = .notFound then pure none else throw e
  | .ok parent =>
    match ← sysResult (.openRead parent.file) with
    | .error .noent => pure none
    | .error e => throw (.ofErrno e)
    | .ok (.file f) => pure (some f)
    | .ok _ => throw (.new .invalidInput
        ("publication target '" ++ path.display ++ "' is not a regular file"))

/-- Read a regular file through a no-follow descriptor. -/
def readRegular (path : PathBuf) : Io (Option (FileIdentity × Bytes)) := do
  let current ← readRegularWithMode path
  pure (current.map fun f => (f.identity, f.bytes))

/-- The identity of the regular file at `leaf`. -/
def identityAt (parent : ParentHandle) (leaf : Name) : Io (Option FileIdentity) := do
  match ← sysResult (.statAt (parent.dir ++ [leaf])) with
  | .ok (.file f) => pure (some f.identity)
  | .ok _ => throw (.new .invalidInput
      ("cannot identify publication target '" ++ (PathBuf.ofPath (parent.dir ++ [leaf])).display ++
        "': publication target is not a regular file"))
  | .error .noent => pure none
  | .error e => throw (.new (IoError.ofErrno e).kind
      ("cannot identify publication target '" ++ (PathBuf.ofPath (parent.dir ++ [leaf])).display ++
        "': " ++ (IoError.ofErrno e).message))

/-- Rename a leaf, refusing to replace. -/
def renameNoclobber (source target : ParentHandle) : Io Unit :=
  sys (.renameNoReplace source.file target.file)

/-- Sync the parent directory of `path`. -/
def syncParent (path : PathBuf) : Io Unit := do
  let parent ← openParent path false
  sys (.fsync parent.dir)

/-- The primary error, or a failure that names the cleanup errors too. -/
def combinePrimaryAndCleanup (primary : IoError) (cleanup : List String) : IoError :=
  if cleanup = [] then primary
  else ioFailure (.rollback (primary.message ++ "; cleanup incomplete: " ++
    "; ".intercalate cleanup))

/-- The text of an error, as a list. -/
def errorTexts {α : Type} : Except IoError α → List String
  | .ok _ => []
  | .error e => [e.message]

/-- Remove the leaf if it still has the expected identity. -/
def removeAt (parent : ParentHandle) (expected : Option FileIdentity) : Io Unit := do
  match ← identityAt parent parent.leaf with
  | none => pure ()
  | some current =>
    if expected.isSome ∧ some current ≠ expected then
      throw (.ofMessage ("refusing to remove identity-mismatched file '" ++
        parent.path.display ++ "'"))
    else do
      sys (.unlink parent.file)
      sys (.fsync parent.dir)

section

variable (sha256Bytes : Bytes → Sha256Digest)

/-- Remove the leaf if it still has the expected identity, digest and, when recorded, mode. -/
def removeAtExactMode (parent : ParentHandle) (expected : FileIdentity)
    (expectedDigest : Sha256Digest) (expectedMode : Option ℕ) : Io Unit := do
  match ← readRegularWithMode parent.path with
  | none => pure ()
  | some f =>
    if f.identity ≠ expected ∨ sha256Bytes f.bytes ≠ expectedDigest ∨
        expectedMode.any (· ≠ f.mode) then
      throw (.ofMessage ("refusing to remove identity/digest/mode-mismatched file '" ++
        parent.path.display ++ "'"))
    else do
      sys (.unlink parent.file)
      sys (.fsync parent.dir)

/-- Remove the leaf if it still has the expected identity and digest. -/
def removeAtExact (parent : ParentHandle) (expected : FileIdentity)
    (expectedDigest : Sha256Digest) : Io Unit :=
  removeAtExactMode sha256Bytes parent expected expectedDigest none

/-- Remove a file if it still has the expected identity and digest. -/
def removeRegularExact (path : PathBuf) (expected : FileIdentity)
    (expectedDigest : Sha256Digest) : Io Unit := do
  let parent ← openParent path false
  removeAtExact sha256Bytes parent expected expectedDigest

/-- Open the parent of an auxiliary file and check that it is the journalled one. -/
def openAuxParent (operation : JournalOperation) (path : PathBuf) : Io ParentHandle := do
  let parent ← openParent path false
  let identity ← sys (.fstat parent.fd)
  if identity ≠ operation.parentIdentity then
    throw (.ofMessage ("publication parent identity changed for auxiliary '" ++
      path.display ++ "'"))
  else pure parent

/-- Remove an auxiliary file whose snapshot is journalled. -/
def removeOperationAuxExact (operation : JournalOperation) (path : PathBuf)
    (expected : FileIdentity) (expectedDigest : Sha256Digest) (expectedMode : Option ℕ) :
    Io Unit := do
  let parent ← openAuxParent operation path
  removeAtExactMode sha256Bytes parent expected expectedDigest expectedMode

/-- Remove an auxiliary file whose snapshot is not journalled yet. -/
def removeOperationAuxUnidentified (operation : JournalOperation) (path : PathBuf) :
    Io Unit := do
  let parent ← openAuxParent operation path
  match ← readRegular path with
  | none => pure ()
  | some (identity, bytes) => removeAtExact sha256Bytes parent identity (sha256Bytes bytes)

/-- Append bytes to an open file, in at most `fuel` calls. -/
def writeRest (p : Path) : ℕ → Bytes → Io Unit
  | 0, _ => pure ()
  | _ + 1, [] => pure ()
  | fuel + 1, rest => do
    let written ← sys (.write p rest)
    writeRest p fuel (rest.drop written)

/-- Append bytes to an open file.  Every call writes at least one of them. -/
def writeAll (p : Path) (bytes : Bytes) : Io Unit := writeRest p bytes.length bytes

/-- Fill a created file, make it durable and read it back. -/
def fillNewFile (path : PathBuf) (parent : ParentHandle) (identity : FileIdentity)
    (contents : Bytes) (mode : ℕ) : Io Unit := do
  sys (.fchmod parent.file mode)
  writeAll parent.file contents
  sys (.fsync parent.file)
  let current ← sys (.fstat identity)
  if current ≠ identity then
    throw (.ofMessage "staged file identity changed while writing")
  else do
    sys (.fsync parent.dir)
    let measured ← readRegularWithMode path
    if measured.any fun f => f.identity = identity ∧ sha256Bytes f.bytes = sha256Bytes contents ∧
        f.mode = mode then
      pure ()
    else
      throw (.ofMessage ("staged file '" ++ path.display ++
        "' failed identity/digest/mode readback"))

/-- Fill a created file, or remove it again. -/
def finishNewFile (path : PathBuf) (parent : ParentHandle) (identity : FileIdentity)
    (contents : Bytes) (mode : ℕ) : Io FileIdentity := do
  match ← attempt (fillNewFile sha256Bytes path parent identity contents mode) with
  | .ok () => pure identity
  | .error e => do
    let cleanup ← attempt (removeAt parent (some identity))
    throw (combinePrimaryAndCleanup e (errorTexts cleanup))

/-- Create a file that must not exist, with exact contents and permission bits. -/
def writeNewFileMode (path : PathBuf) (contents : Bytes) (mode : ℕ) : Io FileIdentity := do
  let parent ← openParent path true
  let fd ← sys (.createExcl parent.file mode)
  let identity ← sys (.fstat fd)
  finishNewFile sha256Bytes path parent identity contents mode

end

end ArosTools
