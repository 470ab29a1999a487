import ArosTools.Media.Profile
import ArosTools.Toolchain.StagedTree

/-!
# The inventory of a media tree

`measureMediaTree` lists the directories and the regular files below a root, with the digests and
the sizes of the files, and hashes the sorted list. A tree with anything else in it, an unsafe
name or too many entries is refused.

* `MediaTreeInventory.directories_closed` — the directories of an inventory are closed under
  ancestors.
-/

namespace ArosTools

namespace Media

open Toolchain SlashPath

/-- `MAX_ENTRIES`. -/
def maxEntries : ℕ := 20000

/-- `MediaTreeFile`. -/
structure MediaTreeFile where
  relative : Bytes
  sourcePath : PathBuf
  sha256 : Sha256Digest
  sizeBytes : ℕ
  deriving DecidableEq, Repr

/-- `MediaTreeInventory`. -/
structure MediaTreeInventory where
  sha256 : Sha256Digest
  directories : List Bytes
  files : List MediaTreeFile
  deriving DecidableEq, Repr

/-- A directory as the disk holds it: no name in it holds a separator. -/
structure DiskTree where
  tree : StagedTree
  names : ∀ path ∈ tree.paths, ∀ name ∈ path, 0x2f ∉ name

/-- An error of `measure_media_tree`. -/
def invalidTree (message : String) : IoError := .new .invalidData message

section Measure

variable (sha256 : Bytes → Sha256Digest) (root : PathBuf) (t : StagedTree)

/-- Adds what stands at a path to the directories and the files measured so far. -/
def measureNode (measured : List Bytes × List MediaTreeFile) (path : Path) :
    Except IoError (List Bytes × List MediaTreeFile) :=
  match t.lstat path with
  | some .directory => .ok (measured.1 ++ [pathText path], measured.2)
  | some (.file _ contents) =>
    .ok (measured.1, measured.2 ++
      [⟨pathText path, root.joinPath (relativePath path), sha256 contents, contents.length⟩])
  | _ => .error (invalidTree "media tree contains a symlink or special entry")

/-- One entry of the walk, after the directories and the files measured so far. -/
def measureEntry (measured : List Bytes × List MediaTreeFile) (path : Path) :
    Except IoError (List Bytes × List MediaTreeFile) := do
  Except.ensure (path.all isUtf8) (invalidTree "media tree path is not UTF-8")
  Except.ensure ((pathText path).length ≤ 1024 ∧ validDestination (pathText path))
    (invalidTree "media tree has an unsafe relative path")
  let measured ← measureNode sha256 root t measured path
  Except.ensure (measured.1.length + measured.2.length ≤ maxEntries)
    (invalidTree "media tree exceeds its entry limit")
  pure measured

/-- The line of a directory in the hashed text. -/
def directoryLine (directory : Bytes) : Bytes := ascii "D" ++ [0] ++ directory ++ [0x0a]

/-- The line of a file in the hashed text. -/
def fileLine (file : MediaTreeFile) : Bytes :=
  ascii "F" ++ [0] ++ file.relative ++ [0] ++ file.sha256 ++ [0] ++
    ascii (toString file.sizeBytes) ++ [0x0a]

/-- `measure_media_tree`, for a root that is a directory reached without a link. -/
def measureMediaTree : Except IoError MediaTreeInventory := do
  let measured ← (t.walk (fun _ => false) t.depth []).foldlM (measureEntry sha256 root t) ([], [])
  let directories := sortByKey id measured.1
  let files := sortByKey MediaTreeFile.relative measured.2
  pure ⟨sha256 (ascii "aros-media-tree-v1" ++ [0] ++ directories.flatMap directoryLine ++
    files.flatMap fileLine), directories, files⟩

end Measure

/-! ### What an inventory lists -/

variable {sha256 : Bytes → Sha256Digest} {root : PathBuf} {t : StagedTree}
  {inventory : MediaTreeInventory}

/-- What the walk has measured after the paths `done`. -/
structure Measured (sha256 : Bytes → Sha256Digest) (root : PathBuf) (t : StagedTree)
    (done : List Path) (measured : List Bytes × List MediaTreeFile) : Prop where
  directory : ∀ text, text ∈ measured.1 ↔
    ∃ path ∈ done, t.lstat path = some .directory ∧ text = pathText path
  file : ∀ file, file ∈ measured.2 ↔ ∃ path ∈ done, ∃ mode contents,
    t.lstat path = some (.file mode contents) ∧
      file = ⟨pathText path, root.joinPath (relativePath path), sha256 contents, contents.length⟩
  safe : ∀ path ∈ done, validDestination (pathText path) = true

theorem measureEntry_measured {done : List Path} {measured measured' : List Bytes × List MediaTreeFile}
    {path : Path} (hdone : Measured sha256 root t done measured)
    (h : measureEntry sha256 root t measured path = .ok measured') :
    Measured sha256 root t (done ++ [path]) measured' := by
  unfold measureEntry at h
  obtain ⟨_, -, h⟩ := Except.bind_ok h
  obtain ⟨_, hsafe, h⟩ := Except.bind_ok h
  obtain ⟨next, hnext, h⟩ := Except.bind_ok h
  obtain ⟨_, -, h⟩ := Except.bind_ok h
  cases h
  have hsafe := (Except.ensure_eq_ok.mp hsafe).2
  have hsafe' : ∀ p ∈ done ++ [path], validDestination (pathText p) = true := by
    intro p hp
    rcases List.mem_append.mp hp with hp | hp
    · exact hdone.safe p hp
    · rw [List.mem_singleton.mp hp]
      exact hsafe
  cases hnode : t.lstat path with
  | none => simp [measureNode, hnode] at hnext
  | some node =>
    cases node with
    | directory =>
      simp only [measureNode, hnode, Except.ok.injEq] at hnext
      subst hnext
      refine ⟨fun text => ?_, fun file => ?_, hsafe'⟩
      · rw [List.mem_append, hdone.directory, List.mem_singleton]
        constructor
        · rintro (⟨p, hp, hdir, rfl⟩ | rfl)
          · exact ⟨p, List.mem_append_left _ hp, hdir, rfl⟩
          · exact ⟨path, by simp, hnode, rfl⟩
        · rintro ⟨p, hp, hdir, rfl⟩
          rcases List.mem_append.mp hp with hp | hp
          · exact .inl ⟨p, hp, hdir, rfl⟩
          · exact .inr (by rw [List.mem_singleton.mp hp])
      · rw [hdone.file]
        constructor
        · rintro ⟨p, hp, hfile⟩
          exact ⟨p, List.mem_append_left _ hp, hfile⟩
        · rintro ⟨p, hp, mode, contents, hfile, rfl⟩
          rcases List.mem_append.mp hp with hp | hp
          · exact ⟨p, hp, mode, contents, hfile, rfl⟩
          · rw [List.mem_singleton.mp hp, hnode] at hfile
            cases hfile
    | file mode contents =>
      simp only [measureNode, hnode, Except.ok.injEq] at hnext
      subst hnext
      refine ⟨fun text => ?_, fun file => ?_, hsafe'⟩
      · rw [hdone.directory]
        constructor
        · rintro ⟨p, hp, hdir⟩
          exact ⟨p, List.mem_append_left _ hp, hdir⟩
        · rintro ⟨p, hp, hdir, rfl⟩
          rcases List.mem_append.mp hp with hp | hp
          · exact ⟨p, hp, hdir, rfl⟩
          · rw [List.mem_singleton.mp hp, hnode] at hdir
            cases hdir
      · rw [List.mem_append, hdone.file, List.mem_singleton]
        constructor
        · rintro (⟨p, hp, hfile⟩ | rfl)
          · exact ⟨p, List.mem_append_left _ hp, hfile⟩
          · exact ⟨path, by simp, mode, contents, hnode, rfl⟩
        · rintro ⟨p, hp, mode', contents', hfile, rfl⟩
          rcases List.mem_append.mp hp with hp | hp
          · exact .inl ⟨p, hp, mode', contents', hfile, rfl⟩
          · rw [List.mem_singleton.mp hp, hnode] at hfile
            cases hfile
            exact .inr (by rw [List.mem_singleton.mp hp])
    | symlink target => simp [measureNode, hnode] at hnext
    | special => simp [measureNode, hnode] at hnext

/-- The walk over a whole tree. -/
theorem measureMediaTree_measured (h : measureMediaTree sha256 root t = .ok inventory) :
    Measured sha256 root t (t.walk (fun _ => false) t.depth [])
      (inventory.directories, inventory.files) := by
  unfold measureMediaTree at h
  obtain ⟨measured, hmeasured, h⟩ := Except.bind_ok h
  cases h
  have hwalk : Measured sha256 root t (t.walk (fun _ => false) t.depth []) measured :=
    Except.foldlM_ok hmeasured
      ⟨by simp, by simp, by simp⟩
      (fun done path c c' hc hstep => measureEntry_measured hc hstep)
  refine ⟨fun text => ?_, fun file => ?_, hwalk.safe⟩
  · rw [(sortByKey_perm _ _).mem_iff, hwalk.directory]
  · rw [(sortByKey_perm _ _).mem_iff, hwalk.file]

theorem mem_walk_all {path : Path} :
    path ∈ t.walk (fun _ => false) t.depth [] ↔ path ∈ t.paths := by
  have hfuel : ∀ p ∈ t.paths, [] <+: p → p.length ≤ ([] : Path).length + t.depth := by
    intro p hp _
    rw [List.length_nil, Nat.zero_add]
    exact StagedTree.length_le_depth hp
  rw [StagedTree.mem_walk hfuel]
  constructor
  · exact fun h => h.1
  · exact fun h => ⟨h, List.nil_prefix, (StagedTree.ne_nil_of_mem h).symm, fun _ _ _ => rfl⟩

/-- The way to an entry of a tree consists of directories of its inventory. -/
theorem above_entry (hnames : ∀ path ∈ t.paths, ∀ name ∈ path, 0x2f ∉ name)
    (h : measureMediaTree sha256 root t = .ok inventory) {path : Path} (hpath : path ∈ t.paths)
    {above : Bytes} (habove : Above 0x2f above (pathText path)) :
    above ∈ inventory.directories := by
  obtain ⟨dir, hne, hdir, hneq, rfl⟩ := (above_intercalate (hnames path hpath)).mp habove
  have hnode := StagedTree.lstat_of_strict_prefix hpath hdir hneq
  refine ((measureMediaTree_measured h).directory _).mpr ⟨dir, ?_, hnode, rfl⟩
  exact mem_walk_all.mpr (StagedTree.mem_paths.mpr ⟨hne, _, hnode⟩)

namespace MediaTreeInventory

variable {disk : DiskTree}

/-- **The directories of an inventory are closed under ancestors.** -/
theorem directories_closed (h : measureMediaTree sha256 root disk.tree = .ok inventory)
    {directory above : Bytes} (hdirectory : directory ∈ inventory.directories)
    (habove : Above 0x2f above directory) : above ∈ inventory.directories := by
  obtain ⟨path, hpath, -, rfl⟩ := ((measureMediaTree_measured h).directory _).mp hdirectory
  exact above_entry disk.names h (mem_walk_all.mp hpath) habove

theorem valid_file (h : measureMediaTree sha256 root t = .ok inventory) {file : MediaTreeFile}
    (hfile : file ∈ inventory.files) : validDestination file.relative = true := by
  obtain ⟨path, hpath, mode, contents, -, rfl⟩ := ((measureMediaTree_measured h).file _).mp hfile
  exact (measureMediaTree_measured h).safe path hpath

/-- The files of a tree do not depend on the name of its root. -/
theorem files_ne_nil {root' : PathBuf} {inventory' : MediaTreeInventory}
    (h : measureMediaTree sha256 root t = .ok inventory)
    (h' : measureMediaTree sha256 root' t = .ok inventory') (hne : inventory.files ≠ []) :
    inventory'.files ≠ [] := by
  obtain ⟨file, hfile⟩ := List.exists_mem_of_ne_nil _ hne
  obtain ⟨path, hpath, mode, contents, hnode, -⟩ :=
    ((measureMediaTree_measured h).file _).mp hfile
  exact List.ne_nil_of_mem
    (((measureMediaTree_measured h').file _).mpr ⟨path, hpath, mode, contents, hnode, rfl⟩)

end MediaTreeInventory

end Media

end ArosTools
