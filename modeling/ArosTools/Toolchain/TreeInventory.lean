import ArosTools.Toolchain.PayloadArchive

/-!
# The inventory of a staged tree

`toolchain_tree_inventory` measures a tree on disk: every entry below the root but the embedded
manifest, sorted by path, and the digest of their canonical JSON lines.
-/

namespace ArosTools

namespace Toolchain

/-- `ToolchainInventoryError`, apart from failures to read and changes under way. -/
inductive ToolchainInventoryError where
  | path (path : Path) (message : String)
  | symlinkTarget (target : Bytes)
  | unsupported (path : Path)
  deriving DecidableEq, Repr

/-- `AROS_TOOLCHAIN_MANIFEST_FILE`. -/
def manifestFile : Bytes := ascii "toolchain-manifest.json"

/-- `portable_relative_path`, for a path that consists of names. -/
def portableRelativePath (path : Path) : Except ToolchainInventoryError Bytes :=
  if path.all isUtf8 then .ok (pathText path)
  else .error (.path path "path is not valid UTF-8")

/-- The inventory entry of what stands at a path. -/
def treeEntry (sha256 : Bytes → Sha256Digest) (t : StagedTree) (relative : Path) :
    Except ToolchainInventoryError ManifestEntry := do
  let path ← portableRelativePath relative
  match t.lstat relative with
  | some (.symlink target) =>
    if isUtf8 target then .ok ⟨path, "0777", .symlink, none, none, some target⟩
    else .error (.symlinkTarget target)
  | some .directory => .ok ⟨path, "0755", .directory, none, none, none⟩
  | some (.file mode contents) =>
    .ok ⟨path, if normalizedToolchainFileMode mode = 0o644 then "0644" else "0755", .file,
      some (sha256 contents), some contents.length, none⟩
  | _ => .error (.unsupported relative)

/-- `toolchain_tree_inventory_excluding`: what is excluded is left out with all that is below it. -/
def toolchainTreeInventoryExcluding (sha256 : Bytes → Sha256Digest) (t : StagedTree)
    (exclusions : List Path) :
    Except ToolchainInventoryError (Sha256Digest × List ManifestEntry) := do
  exclusions.forM fun excluded => (portableRelativePath excluded).map fun _ => ()
  let skip := fun path => exclusions.any fun excluded => excluded.isPrefixOf path
  let entries ← (t.walk skip t.depth []).mapM (treeEntry sha256 t)
  let entries := sortByKey ManifestEntry.path entries
  pure (toolchainInventorySha256 sha256 entries, entries)

/-- `toolchain_tree_inventory`. -/
def toolchainTreeInventory (sha256 : Bytes → Sha256Digest) (t : StagedTree) :
    Except ToolchainInventoryError (Sha256Digest × List ManifestEntry) :=
  toolchainTreeInventoryExcluding sha256 t [[manifestFile]]

end Toolchain

end ArosTools
