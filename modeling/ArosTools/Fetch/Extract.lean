import ArosTools.Bytes.Basic
import ArosTools.Bytes.Utf8
import ArosTools.Fetch.Disk

/-!
# Extracting an archive

`unpack_tar` and `unpack_zip` extract the entries of an archive below a staging directory. Both
check the path of every entry, refuse a path that occurs twice and count entries and bytes against
a budget. A TAR entry is written by the TAR reader, after its link target has been checked; hard
links become copies at the end (`tar_links`). A ZIP entry is written here; its symbolic links are
created at the end and then resolved (`zip_links`).

The readers are not part of the repository: an entry is what a reader reports of it, and
`unpack_in` is a parameter of `unpackTar`.
-/

namespace ArosTools

namespace Fetch

/-- An extraction, which fails with a message. -/
abbrev Extraction (α : Type) := Except String α

/-- Fail unless the condition holds. -/
def check (condition : Bool) (message : String) : Extraction Unit :=
  if condition then .ok () else .error message

/-- The value, or an error. -/
def require {α : Type} (value : Option α) (message : String) : Extraction α :=
  match value with
  | some a => .ok a
  | none => .error message

/-! ### The budget -/

def maxArchiveEntries : ℕ := 500000
def maxArchiveEntryBytes : ℕ := 8 * 1024 * 1024 * 1024
def maxArchiveExpandedBytes : ℕ := 32 * 1024 * 1024 * 1024

/-- `ExtractionBudget`. -/
structure ExtractionBudget where
  entries : ℕ
  expandedBytes : ℕ
  deriving DecidableEq, Repr

namespace ExtractionBudget

/-- `output_probe_limit`. -/
def outputProbeLimit (budget : ExtractionBudget) : ℕ :=
  min maxArchiveEntryBytes (maxArchiveExpandedBytes - budget.expandedBytes) + 1

/-- `account_expanded_size`. -/
def accountExpandedSize (budget : ExtractionBudget) (size : ℕ) (path : PathBuf) :
    Extraction ExtractionBudget := do
  check (size ≤ maxArchiveEntryBytes) <| "archive entry '" ++ path.display ++
    "' exceeds the 8589934592-byte per-entry safety limit"
  let expandedBytes ← require (checkedAdd budget.expandedBytes size)
    "archive expanded-size counter overflowed"
  check (expandedBytes ≤ maxArchiveExpandedBytes)
    "archive exceeds the 34359738368-byte total expanded-size safety limit"
  pure { budget with expandedBytes := expandedBytes }

/-- `account`. -/
def account (budget : ExtractionBudget) (size : ℕ) (path : PathBuf) :
    Extraction ExtractionBudget := do
  let entries ← require (checkedAdd budget.entries 1) "archive entry counter overflowed"
  check (entries ≤ maxArchiveEntries) "archive exceeds the 500000-entry safety limit"
  accountExpandedSize { budget with entries := entries } size path

end ExtractionBudget

/-! ### Paths -/

/-- The name a component is, if it is one. -/
def name? : Component → Option Name
  | .normal name => some name
  | _ => none

/-- The names of a path. -/
def names (path : PathBuf) : Path := path.components.filterMap name?

/-- `validate_archive_path`. -/
def validateArchivePath (path : PathBuf) : Extraction Unit :=
  check (!path.absolute && path.components ≠ [] && path.components.all (· ≠ .parentDir)) <|
    "entry '" ++ path.display ++ "' is not a contained relative path"

/-- `validate_link_target`. -/
def validateLinkTarget (entry target : PathBuf) : Extraction Unit := do
  check (!target.absolute) <| "link '" ++ entry.display ++ "' has absolute target '" ++
    target.display ++ "'"
  let depth := entry.parent.elim 0 fun path => (names path).length
  check (linkStaysInside depth target.components) <| "link '" ++ entry.display ++
    "' escapes through target '" ++ target.display ++ "'"

/-! ### Hard links of a TAR -/

/-- The loop of `real_path`: every place on the way stands and is not a link. -/
def realPath (d : Disk) : Path → Path → Extraction Path
  | place, [] => .ok place
  | place, name :: rest => do
    let node ← require (d.lstat (place ++ [name])) "TAR hard link target is missing"
    match node with
    | .link _ => .error "TAR hard link target traverses a symlink"
    | _ => realPath d (place ++ [name]) rest

/-- The directories of a hard link's parent: each is real or is made. -/
def reserveParents (d : Disk) : Path → Path → Extraction Disk
  | _, [] => .ok d
  | place, name :: rest =>
    match d.lstat (place ++ [name]) with
    | some .dir => reserveParents d (place ++ [name]) rest
    | some _ => .error "TAR hard link parent is not a real directory"
    | none => do
      let d ← require (d.mkdir (place ++ [name])) "cannot create TAR hard link parent"
      reserveParents d (place ++ [name]) rest

/-- A planned copy: its source, its output and the length of the source. -/
structure Copy where
  source : Path
  output : Path
  length : ℕ
  deriving DecidableEq, Repr

/-- The variables of the first loop of `materialize`. -/
structure CopyPlan where
  disk : Disk
  budget : ExtractionBudget
  copies : List Copy

/-- The first loop of `tar_links::materialize` for one hard link. -/
def planCopy (root : Path) (plan : CopyPlan) (link : PathBuf × PathBuf) : Extraction CopyPlan := do
  let (relative, target) := link
  let d := plan.disk
  let source ← realPath d root (names target)
  let node ← require (d.lstat source) "cannot inspect TAR hard link target"
  check (node = .file) "TAR hard link target is not a regular file"
  let length := (d.contents source).length
  let output := root ++ names relative
  check (d.lstat output).isNone "TAR hard link collides with an extracted entry"
  let parent ← require relative.parent "TAR hard link has no parent"
  let d ← reserveParents d root (names parent)
  let budget ← plan.budget.accountExpandedSize length relative
  pure ⟨d, budget, plan.copies ++ [⟨source, output, length⟩]⟩

/-- The second loop of `tar_links::materialize` for one copy. -/
def makeCopy (d : Disk) (copy : Copy) : Extraction Disk := do
  let bytes := (d.contents copy.source).take (copy.length + 1)
  let d ← require (d.createNew copy.output bytes) "cannot create TAR hard link copy"
  check (bytes.length = copy.length) "TAR hard link payload size changed"
  pure d

/-- `tar_links::materialize`. -/
def materializeHardLinks (root : Path) (links : List (PathBuf × PathBuf)) (d : Disk)
    (budget : ExtractionBudget) : Extraction Disk := do
  let plan ← links.foldlM (planCopy root) ⟨d, budget, []⟩
  plan.copies.foldlM makeCopy plan.disk

/-! ### TAR -/

/-- A TAR entry as the reader reports it; a path or a link name is absent where it is invalid. -/
structure TarEntry where
  path : Option Bytes
  size : ℕ
  hardLink : Bool
  symlink : Bool
  linkName : Option (Option Bytes)
  data : Bytes
  deriving DecidableEq, Repr

/-- `Entry::unpack_in` of the TAR reader: whether the entry was written, and the filesystem. -/
abbrev UnpackIn := Path → TarEntry → Disk → Option (Bool × Disk)

/-- The variables of `unpack_tar`. -/
structure TarState where
  disk : Disk
  budget : ExtractionBudget
  hardLinks : List (PathBuf × PathBuf)
  paths : List PathBuf

/-- The loop of `unpack_tar` for one entry. -/
def unpackTarEntry (unpackIn : UnpackIn) (root : Path) (s : TarState) (entry : Option TarEntry) :
    Extraction TarState := do
  let entry ← require entry "cannot read archive entry"
  let pathBytes ← require entry.path "invalid entry path"
  let path := PathBuf.ofBytes pathBytes
  validateArchivePath path
  check (path ∉ s.paths) <| "duplicate TAR path '" ++ path.display ++ "'"
  let budget ← s.budget.account entry.size path
  let s := { s with paths := path :: s.paths, budget := budget }
  if entry.hardLink then
    let linkName ← require entry.linkName "invalid TAR hard link target"
    let targetBytes ← require linkName "TAR hard link has no target"
    check (entry.size = 0) "TAR hard link contains unexpected payload bytes"
    let target := PathBuf.ofBytes targetBytes
    validateArchivePath target
    pure { s with hardLinks := s.hardLinks ++ [(path, target)] }
  else
    let linkName ← require entry.linkName "invalid link target"
    linkName.elim (pure ()) fun link => validateLinkTarget path (PathBuf.ofBytes link)
    let (unpacked, d) ← require (unpackIn root entry s.disk) <|
      "cannot extract '" ++ path.display ++ "'"
    check unpacked <| "entry '" ++ path.display ++ "' escapes the extraction root"
    pure { s with disk := d }

/-- `unpack_tar`. -/
def unpackTar (unpackIn : UnpackIn) (root : Path) (entries : Option (List (Option TarEntry)))
    (d : Disk) : Extraction Disk := do
  let entries ← require entries "cannot read archive index"
  let s ← entries.foldlM (unpackTarEntry unpackIn root) ⟨d, ⟨0, 0⟩, [], []⟩
  check (s.budget.entries ≠ 0) "archive contains no entries"
  materializeHardLinks root s.hardLinks s.disk s.budget

/-! ### ZIP -/

/-- A ZIP entry as the reader reports it. -/
structure ZipEntry where
  name : Option String
  enclosedName : Option Bytes
  size : ℕ
  unixMode : Option ℕ
  isDir : Bool
  /-- The expanded payload, if it can be read. -/
  data : Option Bytes
  deriving DecidableEq, Repr

/-- `read_target`. -/
def readTarget (entry : ZipEntry) (path : PathBuf) : Extraction PathBuf := do
  check (entry.size ≠ 0 && entry.size ≤ 4096) "ZIP link target has invalid size"
  let data ← require entry.data "cannot read ZIP link target"
  let bytes := data.take (entry.size + 1)
  check (bytes.length = entry.size && !bytes.contains 0) "ZIP link target has invalid payload"
  check (isUtf8 bytes) "ZIP link target is not UTF-8"
  let target := PathBuf.ofBytes bytes
  validateLinkTarget path target
  pure target

/-- The variables of `unpack_zip`. -/
structure ZipState where
  disk : Disk
  budget : ExtractionBudget
  paths : List PathBuf
  links : List (PathBuf × PathBuf)

/-- The file of a ZIP entry, with at most `limit` bytes of its payload. -/
def unpackZipFile (entry : ZipEntry) (limit : ℕ) (output : Path) (d : Disk) :
    Extraction Disk := do
  let d ← require (d.createDirAll output.dropLast) "cannot create the parent of a ZIP entry"
  let data ← require entry.data "cannot extract a ZIP entry"
  let copied := data.take limit
  let d ← require (d.createNew output copied) "cannot create a ZIP entry"
  check (copied.length = entry.size) "ZIP entry expanded to a length it does not declare"
  pure d

/-- The directory or the file of a ZIP entry. -/
def unpackZipOutput (entry : ZipEntry) (limit : ℕ) (output : Path) (d : Disk) : Extraction Disk :=
  if entry.isDir then require (d.createDirAll output) "cannot create a ZIP directory"
  else unpackZipFile entry limit output d

/-- The loop of `unpack_zip` for one entry. -/
def unpackZipEntry (root : Path) (s : ZipState) (entry : Option ZipEntry) :
    Extraction ZipState := do
  let entry ← require entry "cannot read ZIP entry"
  let name ← require entry.name "cannot decode ZIP entry name"
  let enclosedName ← require entry.enclosedName <|
    "ZIP entry '" ++ name ++ "' escapes the extraction root"
  let enclosed := PathBuf.ofBytes enclosedName
  validateArchivePath enclosed
  check (enclosed ∉ s.paths) <| "duplicate ZIP path '" ++ enclosed.display ++ "'"
  let limit := min s.budget.outputProbeLimit (min (entry.size + 1) (2 ^ 64 - 1))
  let budget ← s.budget.account entry.size enclosed
  let s := { s with paths := enclosed :: s.paths, budget := budget }
  let kind := entry.unixMode.elim 0 (· &&& 0o170000)
  check (!((kind = 0o040000 && !entry.isDir) ||
      ((kind = 0o100000 || kind = 0o120000) && entry.isDir) || (entry.isDir && entry.size ≠ 0)))
    "ZIP mode, directory name or directory payload disagree"
  if kind = 0o120000 then
    let target ← readTarget entry enclosed
    pure { s with links := s.links ++ [(enclosed, target)] }
  else
    check (kind = 0 || kind = 0o040000 || kind = 0o100000) <|
      "ZIP special entry '" ++ enclosed.display ++ "' is rejected"
    let output := root ++ names enclosed
    let d ← unpackZipOutput entry limit output s.disk
    pure { s with disk := d }

/-- The parents of a link are reserved before any link is created. -/
def reserveLink (root : Path) (d : Disk) (link : PathBuf × PathBuf) : Extraction Disk := do
  let path := root ++ names link.1
  check (d.lstat path).isNone <| "ZIP link '" ++ link.1.display ++
    "' collides with an extracted entry"
  check (path ≠ []) "ZIP link has no parent"
  require (d.createDirAll path.dropLast) "cannot prepare ZIP link parent"

/-- Where a path leads, or an error. -/
def resolved (d : Disk) (path : Path) (message : String) : Extraction Path :=
  match d.canonicalize path with
  | .found place => .ok place
  | _ => .error message

/-- A link that has been created resolves below the root. -/
def checkLink (root canonicalRoot : Path) (d : Disk) (link : PathBuf × PathBuf) :
    Extraction Unit := do
  let place ← resolved d (root ++ names link.1) <|
    "ZIP link '" ++ link.1.display ++ "' cannot resolve"
  check (canonicalRoot.isPrefixOf place) <|
    "ZIP link '" ++ link.1.display ++ "' resolves outside extraction root"

/-- `zip_links::materialize`. -/
def materializeLinks (root : Path) (links : List (PathBuf × PathBuf)) (d : Disk) :
    Extraction Disk := do
  let d ← links.foldlM (reserveLink root) d
  check (links.all fun link => (d.lstat (root ++ names link.1)).isNone)
    "ZIP link is an ancestor of another entry"
  let d ← links.foldlM (fun d link =>
    require (d.symlink link.2 (root ++ names link.1)) "cannot create ZIP link") d
  let canonicalRoot ← resolved d root "cannot resolve ZIP extraction root"
  links.forM (checkLink root canonicalRoot d)
  pure d

/-- `unpack_zip`. -/
def unpackZip (root : Path) (archive : Option (List (Option ZipEntry))) (d : Disk) :
    Extraction Disk := do
  let entries ← require archive "cannot read ZIP directory"
  check (entries ≠ []) "archive contains no entries"
  check (entries.length ≤ maxArchiveEntries) "archive exceeds the 500000-entry safety limit"
  let s ← entries.foldlM (unpackZipEntry root) ⟨d, ⟨0, 0⟩, [], []⟩
  materializeLinks root s.links s.disk

end Fetch

end ArosTools
