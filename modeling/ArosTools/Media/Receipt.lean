import ArosTools.Media.Tree

/-!
# Media build receipts

A build receipt lists the files and the complete trees that a build produced for a medium.
`parseMediaBuildReceipt` reads one, and `verifyMediaBuildReceipt` measures on disk what it
declares: every file by size and digest, every tree by digest and cardinality.

* `validateReceipt_trees` — a valid receipt declares at least one file in every tree;
* `verifyMediaBuildReceipt_trees` — so every tree it declares holds a file, and the declared roles
  are those the profile requires.

The disk is a parameter: `MediaDisk` is what the program observes of it while it runs.
-/

namespace ArosTools

namespace Media

/-- `MediaReceiptError`. -/
inductive MediaReceiptError where
  | invalid (message : String)
  | io (error : IoError)
  deriving DecidableEq, Repr

/-- `MediaBuildFile`. -/
structure MediaBuildFile where
  role : Bytes
  path : Bytes
  sha256 : Bytes
  sizeBytes : ℕ
  deriving DecidableEq, Repr

/-- `MediaBuildTree`. -/
structure MediaBuildTree where
  role : Bytes
  path : Bytes
  sha256 : Sha256Digest
  fileCount : ℕ
  directoryCount : ℕ
  deriving DecidableEq, Repr

/-- `MediaReceiptOrigin`. -/
inductive MediaReceiptOrigin where
  | cmake
  | legacyV1
  deriving DecidableEq, Repr

/-- `MediaBuildIdentity`. -/
structure MediaBuildIdentity where
  sourceCommit : Bytes
  sourceTree : Bytes
  toolchainReleaseId : Bytes
  toolchainTreeSha256 : Sha256Digest
  toolchainManifestSha256 : Sha256Digest
  deriving DecidableEq, Repr

/-- `MediaBuildReceipt`. -/
structure MediaBuildReceipt where
  formatVersion : ℕ
  kind : Bytes
  origin : MediaReceiptOrigin
  targetPreset : Bytes
  model : Bytes
  transport : Bytes
  buildIdentity : Option MediaBuildIdentity
  files : List MediaBuildFile
  trees : List MediaBuildTree
  deriving DecidableEq, Repr

/-- What the program observes of the disk. -/
structure MediaDisk where
  /-- `Path::canonicalize`. -/
  canonicalize : PathBuf → Except IoError PathBuf
  /-- `Path::is_dir`. -/
  isDir : PathBuf → Bool
  /-- The contents of a regular file that no link leads to. -/
  readRegular : PathBuf → Except IoError Bytes
  /-- A directory that no link leads to. -/
  directory : PathBuf → Except IoError DiskTree
  /-- Below a root and below its canonical name stand the same directories. -/
  canonical : ∀ {root root' path : PathBuf} {t t' : DiskTree}, canonicalize root = .ok root' →
    directory (root'.joinPath path) = .ok t → directory (root.joinPath path) = .ok t' → t = t'

/-- `MAX_RECEIPT_BYTES`. -/
def maxReceiptBytes : ℕ := 1024 * 1024

/-- `MAX_FILES` of a receipt. -/
def maxReceiptFiles : ℕ := 1024

/-- A lower-case Git object ID. -/
def validGitId (value : Bytes) : Bool :=
  value.length = 40 && value.all fun b => (0x30 ≤ b && b ≤ 0x39) || (0x61 ≤ b && b ≤ 0x66)

/-- `validate_media_build_identity`. -/
def validateMediaBuildIdentity (identity : MediaBuildIdentity) : Except MediaReceiptError Unit := do
  Except.ensure (validGitId identity.sourceCommit)
    (.invalid "source_commit must be a lowercase Git object ID")
  Except.ensure (validGitId identity.sourceTree)
    (.invalid "source_tree must be a lowercase Git object ID")
  Except.ensure (identity.toolchainReleaseId ≠ [] ∧ identity.toolchainReleaseId.length ≤ 128 ∧
      isTrimmed identity.toolchainReleaseId ∧ ¬ hasControl identity.toolchainReleaseId)
    (.invalid "toolchain_release_id is invalid")

/-- The version, the origin, the identity and the trees of a receipt agree. -/
def validateOrigin (receipt : MediaBuildReceipt) : Except MediaReceiptError Unit :=
  let disagree : MediaReceiptError :=
    .invalid "receipt version, origin and build identity disagree"
  match receipt.buildIdentity with
  | none => Except.ensure (receipt.formatVersion = 1 ∧ receipt.trees = []) disagree
  | some identity => do
    Except.ensure (receipt.origin = .cmake ∧ (receipt.formatVersion = 2 ∧ receipt.trees = [] ∨
      receipt.formatVersion = 3 ∧ receipt.trees ≠ [])) disagree
    validateMediaBuildIdentity identity

/-- One file of a receipt; the state is the roles and the folded paths so far. -/
def declareBuildFile (seen : BTreeSet Bytes × BTreeSet Bytes) (file : MediaBuildFile) :
    Except MediaReceiptError (BTreeSet Bytes × BTreeSet Bytes) := do
  Except.ensure (validSlug file.role ∧ file.role ∉ seen.1)
    (.invalid "file role is invalid or duplicated")
  Except.ensure (¬ (file.path = [] ∨ 0x5c ∈ file.path ∨ (file.path.splitOn 0x2f).any fun part =>
      part = [] || part = ascii "." || part = ascii ".."))
    (.invalid "file path is not a safe portable relative path")
  let folded ← (casefoldPathKey (PathBuf.ofBytes file.path)).mapError fun _ =>
    .invalid "file path is not portable across supported hosts"
  Except.ensure (folded ∉ seen.2) (.invalid "file path is duplicated after case folding")
  Except.ensure (parseDigest file.sha256).isSome (.invalid "file.sha256 is not a SHA-256 digest")
  pure (seen.1.insert file.role, seen.2.insert folded)

/-- One tree of a receipt; the state is the tree roles and the tree paths so far. -/
def declareBuildTree (roles : BTreeSet Bytes) (seen : BTreeSet Bytes × BTreeSet Bytes)
    (tree : MediaBuildTree) : Except MediaReceiptError (BTreeSet Bytes × BTreeSet Bytes) := do
  Except.ensure (validSlug tree.role ∧ tree.role ∉ seen.1 ∧ tree.role ∉ roles)
    (.invalid "tree role is invalid or duplicated")
  Except.ensure (validDestination tree.path ∧ tree.path ∉ seen.2)
    (.invalid "tree path is unsafe or duplicated")
  Except.ensure (¬ (tree.fileCount = 0 ∨ 20000 < tree.fileCount ∨ 20000 < tree.directoryCount))
    (.invalid "tree inventory has invalid cardinality")
  pure (seen.1.insert tree.role, seen.2.insert tree.path)

section Receipt

variable (toVec : MediaBuildReceipt → Option Bytes)
  (fromSlice : Bytes → Except String MediaBuildReceipt)

/-- `validate_receipt`. -/
def validateReceipt (receipt : MediaBuildReceipt) : Except MediaReceiptError Unit := do
  let encoded ← (toVec receipt).elim (.error (.invalid "receipt cannot be serialized")) .ok
  Except.ensure (encoded.length ≤ maxReceiptBytes)
    (.invalid "receipt exceeds its one-megabyte limit")
  Except.ensure ((receipt.formatVersion = 1 ∨ receipt.formatVersion = 2 ∨
      receipt.formatVersion = 3) ∧ receipt.kind = ascii "aros-media-inputs")
    (.invalid "unsupported format_version or kind")
  validateOrigin receipt
  Except.ensure (validTargetPreset receipt.targetPreset)
    (.invalid "target_preset must be a portable target name")
  Except.ensure (validSlug receipt.model) (.invalid "model must be a lowercase slug")
  Except.ensure (validSlug receipt.transport) (.invalid "transport must be a lowercase slug")
  Except.ensure (receipt.files ≠ [] ∧ receipt.files.length ≤ maxReceiptFiles)
    (.invalid "files must contain between one and 1024 entries")
  let seen ← receipt.files.foldlM declareBuildFile (.new, .new)
  let _ ← receipt.trees.foldlM (declareBuildTree seen.1) (.new, .new)
  pure ()

/-- `parse_media_build_receipt`. -/
def parseMediaBuildReceipt (bytes : Bytes) : Except MediaReceiptError MediaBuildReceipt := do
  Except.ensure (bytes.length ≤ maxReceiptBytes)
    (.invalid "receipt exceeds its one-megabyte limit")
  let receipt ← (fromSlice bytes).mapError fun error => .invalid ("JSON schema error: " ++ error)
  validateReceipt toVec receipt
  pure receipt

end Receipt

/-! ### Measurement -/

/-- Two lists with the same elements: equality of the sets collected from them. -/
def sameElements {α : Type} [DecidableEq α] (l l' : List α) : Bool :=
  l.all (· ∈ l') && l'.all (· ∈ l)

theorem sameElements_iff {α : Type} [DecidableEq α] {l l' : List α} :
    sameElements l l' = true ↔ ∀ a, a ∈ l ↔ a ∈ l' := by
  simp only [sameElements, Bool.and_eq_true, List.all_eq_true, decide_eq_true_eq]
  exact ⟨fun h a => ⟨h.1 a, h.2 a⟩, fun h => ⟨fun a => (h a).mp, fun a => (h a).mpr⟩⟩

namespace MediaDisk

variable (disk : MediaDisk) (sha256 : Bytes → Sha256Digest)

/-- `measure_media_tree` of a path. -/
def measureTree (path : PathBuf) : Except IoError MediaTreeInventory := do
  let t ← disk.directory path
  measureMediaTree sha256 path t.tree

end MediaDisk

section Verify

variable (toVec : MediaBuildReceipt → Option Bytes) (sha256 : Bytes → Sha256Digest)
  (disk : MediaDisk)

/-- The receipt claims the role of a required file, unless its bytes come from elsewhere. -/
def checkRole (receipt : MediaBuildReceipt) (required : RequiredMediaFile) :
    Except MediaReceiptError Unit :=
  let claimed := receipt.files.any fun file => file.role = required.role
  if receipt.origin = .cmake ∧ required.externalInput.isSome then
    Except.ensure (¬ claimed) (.invalid
      ("CMake receipt must not claim external role '" ++ displayBytes required.role ++ "'"))
  else Except.ensure claimed
    (.invalid ("missing required build role '" ++ displayBytes required.role ++ "'"))

/-- Measures a declared file. -/
def verifyBuildFile (root : PathBuf) (declared : MediaBuildFile) :
    Except MediaReceiptError Unit := do
  let contents ← (disk.readRegular (root.joinPath (PathBuf.ofBytes declared.path))).mapError .io
  let expected ← (parseDigest declared.sha256).elim
    (.error (.invalid "file.sha256 is not a SHA-256 digest")) .ok
  Except.ensure (contents.length = declared.sizeBytes ∧ sha256 contents = expected)
    (.invalid ("measured size or SHA-256 differs for role '" ++ displayBytes declared.role ++ "'"))

/-- Measures a declared tree. -/
def verifyBuildTree (root : PathBuf) (declared : MediaBuildTree) :
    Except MediaReceiptError Unit := do
  let measured ← (disk.measureTree sha256
    (root.joinPath (PathBuf.ofBytes declared.path))).mapError .io
  Except.ensure (measured.sha256 = declared.sha256 ∧
      measured.files.length = declared.fileCount ∧
      measured.directories.length = declared.directoryCount)
    (.invalid ("measured tree differs for role '" ++ displayBytes declared.role ++ "'"))

/-- `verify_media_build_receipt`. -/
def verifyMediaBuildReceipt (root : PathBuf) (receipt : MediaBuildReceipt)
    (profile : MediaProfile) : Except MediaReceiptError Unit := do
  validateReceipt toVec receipt
  Except.ensure (receipt.targetPreset = profile.targetPreset ∧ receipt.model = profile.model ∧
      receipt.transport = profile.transport)
    (.invalid "receipt does not match the selected media profile")
  profile.requiredFiles.forM (checkRole receipt)
  Except.ensure (sameElements (profile.requiredTrees.map RequiredMediaTree.role)
      (receipt.trees.map MediaBuildTree.role))
    (.invalid "build receipt tree roles differ from the selected profile")
  let root ← (disk.canonicalize root).mapError .io
  Except.ensure (disk.isDir root) (.invalid "media build root is not a directory")
  receipt.files.forM (verifyBuildFile sha256 disk root)
  receipt.trees.forM (verifyBuildTree sha256 disk root)

end Verify

/-! ### What a verified receipt says -/

variable {toVec : MediaBuildReceipt → Option Bytes} {sha256 : Bytes → Sha256Digest}
  {disk : MediaDisk} {root : PathBuf} {receipt : MediaBuildReceipt} {profile : MediaProfile}

/-- The trees of a valid receipt: each declares a file, and no two share a role. -/
theorem validateReceipt_trees (h : validateReceipt toVec receipt = .ok ()) :
    (∀ tree ∈ receipt.trees, tree.fileCount ≠ 0) ∧
      (receipt.trees.map MediaBuildTree.role).Nodup := by
  unfold validateReceipt at h
  iterate 9 obtain ⟨_, -, h⟩ := Except.bind_ok h
  obtain ⟨seen, htrees, -⟩ := Except.bind_ok h
  have hrun : (∀ tree ∈ receipt.trees, tree.fileCount ≠ 0) ∧
      (receipt.trees.map MediaBuildTree.role).Nodup ∧
      ∀ role, role ∈ receipt.trees.map MediaBuildTree.role → role ∈ seen.1 := by
    refine Except.foldlM_ok (motive := fun done seen => (∀ tree ∈ done, tree.fileCount ≠ 0) ∧
      (done.map MediaBuildTree.role).Nodup ∧
        ∀ role, role ∈ done.map MediaBuildTree.role → role ∈ seen.1) htrees ?_ ?_
    · exact ⟨nofun, List.nodup_nil, nofun⟩
    · rintro done tree seen seen' ⟨hcount, hnodup, hmem⟩ hstep
      unfold declareBuildTree at hstep
      obtain ⟨_, hrole, hstep⟩ := Except.bind_ok hstep
      obtain ⟨_, -, hstep⟩ := Except.bind_ok hstep
      obtain ⟨_, hcard, hstep⟩ := Except.bind_ok hstep
      cases hstep
      have hrole := (Except.ensure_eq_ok.mp hrole).2.1
      have hcard := Except.ensure_eq_ok.mp hcard
      refine ⟨fun t ht => ?_, ?_, fun role hin => ?_⟩
      · rcases List.mem_append.mp ht with ht | ht
        · exact hcount t ht
        · rw [List.mem_singleton.mp ht]
          exact fun hzero => hcard (.inl hzero)
      · rw [List.map_append, List.map_singleton, ← List.concat_eq_append, List.nodup_concat]
        exact ⟨fun hin => hrole (hmem _ hin), hnodup⟩
      · rw [List.map_append, List.mem_append] at hin
        rw [BTreeSet.mem_insert]
        rcases hin with hin | hin
        · exact .inl (hmem role hin)
        · exact .inr (by simpa using hin)
  exact ⟨hrun.1, hrun.2.1⟩

/-- **A verified tree holds a file**, and the tree roles are those of the profile. -/
theorem verifyMediaBuildReceipt_trees
    (h : verifyMediaBuildReceipt toVec sha256 disk root receipt profile = .ok ()) :
    (∀ role, role ∈ profile.requiredTrees.map RequiredMediaTree.role ↔
      role ∈ receipt.trees.map MediaBuildTree.role) ∧
    ∀ declared ∈ receipt.trees, ∀ inventory,
      disk.measureTree sha256 (root.joinPath (PathBuf.ofBytes declared.path)) = .ok inventory →
        inventory.files ≠ [] := by
  unfold verifyMediaBuildReceipt at h
  obtain ⟨⟨⟩, hvalid, h⟩ := Except.bind_ok h
  obtain ⟨_, -, h⟩ := Except.bind_ok h
  obtain ⟨_, -, h⟩ := Except.bind_ok h
  obtain ⟨_, hroles, h⟩ := Except.bind_ok h
  obtain ⟨root', hroot, h⟩ := Except.bind_ok h
  obtain ⟨_, -, h⟩ := Except.bind_ok h
  obtain ⟨_, -, htrees⟩ := Except.bind_ok h
  refine ⟨sameElements_iff.mp (Except.ensure_eq_ok.mp hroles), fun declared hmem inventory hinv => ?_⟩
  have htree := Except.forM_ok htrees declared hmem
  unfold verifyBuildTree at htree
  obtain ⟨measured, hmeasured, hcount⟩ := Except.bind_ok htree
  have hcount := (Except.ensure_eq_ok.mp hcount).2.1
  have hmeasured := mapError_ok hmeasured
  -- the two names of the root lead to one directory, so both inventories list its files
  obtain ⟨t, ht, hmeasured⟩ := Except.bind_ok hmeasured
  obtain ⟨t', ht', hinv⟩ := Except.bind_ok hinv
  have hsame := disk.canonical (mapError_ok hroot) ht ht'
  subst hsame
  refine MediaTreeInventory.files_ne_nil hmeasured hinv fun hnil => ?_
  rw [hnil, List.length_nil] at hcount
  exact (validateReceipt_trees hvalid).1 declared hmem hcount.symm

end Media

end ArosTools
