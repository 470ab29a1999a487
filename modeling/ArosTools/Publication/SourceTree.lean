import ArosTools.Bytes.Basic
import ArosTools.Bytes.Utf8
import ArosTools.Media.Profile
import ArosTools.Program.BTree
import ArosTools.Publication.Error
import ArosTools.Publication.Names

/-!
# Source trees and their links

The filtered measurement of a source tree. `measureSourceTreePass` lists a tree without `.git` and
without a generated subtree; `sourceTreeLinkTarget` and `resolveSourceLinkTarget` find the place in
the list a link leads to; `finalizeSourceTreePass` resolves every link, refuses those that show what
is left out, and replaces the content of each link by a digest of what it leads to.

The tree does not change while it is measured. Hashing and the folding of names are parameters.
-/

namespace ArosTools

namespace SourceTree

/-- `SOURCE_TREE_MAX_DEPTH`. -/
def sourceTreeMaxDepth : ℕ := 128

/-- The kind of a node; `code` is the number the snapshot has for it. -/
inductive NodeKind where
  | file
  | directory
  | symlink
  deriving DecidableEq, Repr

/-- `TreeNodeSnapshot::kind`. -/
def NodeKind.code : NodeKind → UInt8
  | .file => 1
  | .directory => 2
  | .symlink => 3

/-- `TreeNodeSnapshot`. -/
structure TreeNodeSnapshot where
  identity : FileIdentity
  kind : NodeKind
  mode : ℕ
  size : ℤ
  mtime : ℤ
  mtimeNsec : ℤ
  ctime : ℤ
  ctimeNsec : ℤ
  deriving DecidableEq, Repr

/-- `TreeContentEntry`. -/
structure TreeContentEntry where
  snapshot : TreeNodeSnapshot
  content : Option Sha256Digest
  deriving DecidableEq, Repr

/-- `SourceTreeNode`. -/
structure SourceTreeNode where
  snapshot : TreeNodeSnapshot
  content : Option Sha256Digest
  linkTarget : Option Bytes
  deriving DecidableEq, Repr

/-- The measured nodes by their paths. -/
abbrev Nodes := BTreeMap Bytes SourceTreeNode

/-- `SourceTreePass`. -/
structure SourceTreePass where
  rootSnapshot : TreeNodeSnapshot
  nodes : Nodes
  excludedRoots : BTreeSet Bytes

/-- A path of nonempty components without slashes. -/
def Plain (path : Path) : Prop := ∀ name ∈ path, name ≠ [] ∧ 0x2f ∉ name

/-- The components of the generated subtree, as `validate_generated_subtree` returns them. -/
abbrev Generated := Option {components : Path // components ≠ [] ∧ Plain components}

/-- `String::from_utf8_lossy`. -/
def lossy (bytes : Bytes) : String :=
  (String.fromUTF8? ⟨(toStringLossy bytes).toArray⟩).getD ""

/-! ### Paths -/

/-- `source_tree_path_key`. -/
def sourceTreePathKey (components : Path) : Bytes := [0x2f].intercalate components

/-- `source_tree_path_components`. -/
def sourceTreePathComponents (path : Bytes) : Path :=
  if path = [] then [] else path.splitOn 0x2f

/-- The two paths agree as far as both go: `zip` and `all`. -/
def agree (current excluded : Path) : Bool := (current.zip excluded).all fun pair => pair.1 = pair.2

/-- `source_tree_path_is_excluded`. -/
def sourceTreePathIsExcluded (components : Path) (generated : Generated) : Bool :=
  components.any (· = ascii ".git") ||
    generated.any fun generated => generated.1.length ≤ components.length &&
      agree components generated.1

/-- `generated_subtree_matches_child`. -/
def generatedSubtreeMatchesChild (parent : Path) (child : Name) (generated : Generated) : Bool :=
  generated.any fun generated => parent.length + 1 = generated.1.length &&
    agree parent generated.1 && some child = generated.1[parent.length]?

/-- `source_path_is_ancestor`. -/
def sourcePathIsAncestor (ancestor descendant : Bytes) : Bool :=
  ancestor = [] || ancestor = descendant || (ancestor ++ [0x2f]).isPrefixOf descendant

/-- `u8::is_ascii_control`. -/
def isAsciiControl (b : UInt8) : Bool := b < 0x20 || b = 0x7f

/-- A control character in a text that is UTF-8. -/
def unsafeUnicode (text : Bytes) : Bool := isUtf8 text && Media.hasControl text

/-- The part of `preserved_source_name_collision_key` that refuses a name. -/
def checkSourceName (name : Name) : Except IoError Unit :=
  if name = [] ∨ name = ascii "." ∨ name = ascii ".." ∨
      (name.any fun b => isAsciiControl b || b = 0x2f || b = 0x5c) ∨ unsafeUnicode name then
    .error (.new .invalidInput
      ("preserved source tree contains unsafe path component '" ++ lossy name ++ "'"))
  else .ok ()

/-! ### Links -/

/-- `validate_source_link_target`. -/
def validateSourceLinkTarget (path target : Bytes) : Except IoError Unit :=
  if target = [] ∨ target.head? = some 0x2f ∨
      (target.any fun b => isAsciiControl b || b = 0x5c) ∨ unsafeUnicode target then
    .error (.new .invalidInput
      ("source symlink '" ++ lossy path ++ "' has an absolute or unsafe target"))
  else .ok ()

/-- `ensure_source_directory`. -/
def ensureSourceDirectory (path : Path) (nodes : Nodes) (linkPath : Bytes) : Except IoError Unit :=
  if path = [] ∨ (nodes.get (sourceTreePathKey path)).any fun node =>
      node.snapshot.kind = .directory then .ok ()
  else .error (.new .notADirectory
    ("source symlink '" ++ lossy linkPath ++ "' traverses a regular file or missing directory"))

/-- `ensure_source_inventory_node`. -/
def ensureSourceInventoryNode (path : Path) (nodes : Nodes) (linkPath : Bytes) :
    Except IoError Unit :=
  if path = [] ∨ (nodes.get (sourceTreePathKey path)).isSome then .ok ()
  else .error (.new .notFound ("source symlink '" ++ lossy linkPath ++ "' has a missing target"))

/-- An outcome that is a value or an error. -/
def lift {α : Type} : Except IoError α → Checked IoError α
  | .ok a => .ok a
  | .error e => .fail e

section Links

variable (nodes : Nodes) (generated : Generated)

/-- One round of the loop in `resolve_source_link_target`; `follow` resolves a link. -/
def resolveComponent (follow : Bytes → Checked IoError Bytes) (linkPath : Bytes) (current : Path)
    (component : Bytes) : Checked IoError Path := do
  lift (ensureSourceDirectory current nodes linkPath)
  if component = [] ∨ component = ascii "." then pure current
  else if component = ascii ".." then
    if current = [] then
      .fail (.new .permissionDenied
        ("source symlink '" ++ lossy linkPath ++ "' escapes the measured root"))
    else
      lift (ensureSourceDirectory current.dropLast nodes linkPath)
      pure current.dropLast
  else
    lift (checkSourceName component)
    let candidate := current ++ [component]
    if sourceTreePathIsExcluded candidate generated then
      .fail (.new .permissionDenied
        ("source symlink '" ++ lossy linkPath ++ "' targets an excluded path"))
    else
      let node ← .okOr (nodes.get (sourceTreePathKey candidate))
        (.new .notFound ("source symlink '" ++ lossy linkPath ++ "' has a missing target"))
      if node.snapshot.kind = .symlink then
        pure (sourceTreePathComponents (← follow (sourceTreePathKey candidate)))
      else pure candidate

/-- `resolve_source_link_target`; `follow` is `source_tree_link_target` with the same active links. -/
def resolveWith (follow : Bytes → Checked IoError Bytes) (linkPath : Bytes) (base : Path)
    (target : Bytes) : Checked IoError Path := do
  lift (validateSourceLinkTarget linkPath target)
  lift (ensureSourceDirectory base nodes linkPath)
  let current ← (target.splitOn 0x2f).foldlM (resolveComponent nodes generated follow linkPath) base
  lift (ensureSourceInventoryNode current nodes linkPath)
  pure current

/-- `source_tree_link_target`. The link is active while its target is resolved and not after, so the
set of active links is an argument; the fuel bounds the depth of the calls. -/
def sourceTreeLinkTarget : ℕ → BTreeSet Bytes → Bytes → Checked IoError Bytes
  | 0, _, _ => .error .diverges
  | fuel + 1, activeLinks, linkPath => do
    if linkPath ∈ activeLinks then
      .fail (.new .invalidInput ("source symlink cycle includes '" ++ lossy linkPath ++ "'"))
    else if activeLinks.len ≥ sourceTreeMaxDepth then
      .fail (.new .invalidInput ("source symlink chain exceeds the " ++
        toString sourceTreeMaxDepth ++ "-link resolution limit"))
    else
      let node ← .okOr (nodes.get linkPath) (.new .invalidInput
        ("source symlink '" ++ lossy linkPath ++ "' is missing from the measured inventory"))
      let target ← .okOr node.linkTarget
        (.new .invalidData "source link has no captured target")
      lift (validateSourceLinkTarget linkPath target)
      let base := (sourceTreePathComponents linkPath).dropLast
      let resolved ← resolveWith nodes generated
        (sourceTreeLinkTarget fuel (activeLinks.insert linkPath)) linkPath base target
      pure (sourceTreePathKey resolved)

/-- `resolve_source_link_target`. -/
def resolveSourceLinkTarget (fuel : ℕ) (linkPath : Bytes) (base : Path) (target : Bytes)
    (activeLinks : BTreeSet Bytes) : Checked IoError Path :=
  resolveWith nodes generated (sourceTreeLinkTarget nodes generated fuel activeLinks) linkPath base
    target

end Links

/-! ### The closure of the links -/

/-- The parent of a path and its last component: `rposition` of a slash. -/
def splitParent (path : Bytes) : Bytes × Bytes :=
  (SlashPath.rsplitOnce 0x2f path).getD ([], path)

/-- The children of each directory, sorted by their names. -/
def childrenOf (nodes : Nodes) : BTreeMap Bytes (List Bytes) :=
  let children : BTreeMap Bytes (List Bytes) := nodes.keys.foldl (fun children path =>
    children.alter (splitParent path).1 fun present => present.getD [] ++ [path]) .new
  .collect (children.entries.map fun entry =>
    (entry.1, sortByKey (fun path => (splitParent path).2) entry.2))

/-- `u64::to_be_bytes`. -/
def lengthBytes (text : Bytes) : Bytes := beBytes 8 text.length

section Digest

variable (sha256 : Bytes → Sha256Digest) (nodes : Nodes) (children : BTreeMap Bytes (List Bytes))
  (resolvedLinks : BTreeMap Bytes Bytes)

/-- The digests found so far. -/
abbrev Cached := BTreeMap Bytes Sha256Digest

/-- One child in the digest of a directory; `digest` computes the digest of a node. -/
def digestChild (digest : Bytes → Cached → Checked IoError (Sha256Digest × Cached))
    (s : Bytes × Cached) (childPath : Bytes) : Checked IoError (Bytes × Cached) := do
  let child ← .okOr (nodes.get childPath) (.new .invalidData "source child is missing")
  let name := (splitParent childPath).2
  let (childDigest, cached) ← digest childPath s.2
  pure (s.1 ++ lengthBytes name ++ name ++ [child.snapshot.kind.code] ++ childDigest, cached)

/-- The closure in `source_tree_node_digest`. -/
def digestBody (digest : Bytes → Cached → Checked IoError (Sha256Digest × Cached)) (path : Bytes)
    (cached : Cached) : Checked IoError (Sha256Digest × Cached) := do
  if path = [] ∨ (nodes.get path).any fun node => node.snapshot.kind = .directory then
    let (bytes, cached) ← ((children.get path).getD []).foldlM (digestChild nodes digest)
      (ascii "aros-source-directory-v1" ++ [0], cached)
    pure (sha256 bytes, cached)
  else
    let node ← .okOr (nodes.get path) (.new .notFound "source link target is missing")
    match node.snapshot.kind with
    | .file =>
      let digest ← .okOr node.content (.new .invalidData "source file has no digest")
      pure (digest, cached)
    | .symlink =>
      let rawTarget ← .okOr node.linkTarget (.new .invalidData "source link has no target")
      let resolved ← .okOr (resolvedLinks.get path)
        (.new .invalidData "source link has no resolved inventory target")
      let (targetDigest, cached) ← digest resolved cached
      pure (sha256 (ascii "aros-source-link-v1" ++ [0] ++ lengthBytes rawTarget ++ rawTarget ++
        targetDigest), cached)
    | .directory => .fail (.new .invalidData "unsupported source tree node in link closure")

/-- `source_tree_node_digest`. A path is active during its own call only, so the set of active paths
is an argument; the fuel bounds the depth of the calls. -/
def sourceTreeNodeDigest : ℕ → BTreeSet Bytes → Bytes → Cached →
    Checked IoError (Sha256Digest × Cached)
  | 0, _, _, _ => .error .diverges
  | fuel + 1, active, path, cached => do
    match cached.get path with
    | some digest => pure (digest, cached)
    | none =>
      if path ∈ active then
        .fail (.new .invalidInput
          ("source symlink closure contains a cycle at '" ++ lossy path ++ "'"))
      else
        let (digest, cached) ← digestBody sha256 nodes children resolvedLinks
          (sourceTreeNodeDigest fuel (active.insert path)) path cached
        pure (digest, cached.insert path digest)

end Digest

/-! ### The whole pass -/

/-- The first loop of `finalize_source_tree_pass`: where each link leads. -/
def resolveLinks (pass : SourceTreePass) (generated : Generated) :
    Checked IoError (BTreeMap Bytes Bytes) :=
  pass.nodes.entries.foldlM (fun resolved entry => do
    if entry.2.snapshot.kind = .symlink then
      let target ← sourceTreeLinkTarget pass.nodes generated (sourceTreeMaxDepth + 1) .new entry.1
      pure (resolved.insert entry.1 target)
    else pure resolved) .new

/-- The target of a link is a directory that contains something left out. -/
def exposes (pass : SourceTreePass) (target : Bytes) : Bool :=
  (target = [] || (pass.nodes.get target).any fun node => node.snapshot.kind = .directory) &&
    pass.excludedRoots.elems.any (sourcePathIsAncestor target)

/-- The second loop of `finalize_source_tree_pass`: no link shows what is left out. -/
def checkLinks (pass : SourceTreePass) (resolvedLinks : BTreeMap Bytes Bytes) :
    Checked IoError Unit :=
  resolvedLinks.entries.forM fun entry =>
    if exposes pass entry.2 then
      .fail (.new .permissionDenied ("source symlink '" ++ lossy entry.1 ++
        "' exposes an excluded subtree through a directory target"))
    else pure ()

/-- The third loop of `finalize_source_tree_pass`: the digests of the links. -/
def digestLinks (sha256 : Bytes → Sha256Digest) (pass : SourceTreePass)
    (resolvedLinks : BTreeMap Bytes Bytes) : Checked IoError Cached :=
  pass.nodes.entries.foldlM (fun cached entry => do
    if entry.2.snapshot.kind = .symlink then
      let (_, cached) ← sourceTreeNodeDigest sha256 pass.nodes (childrenOf pass.nodes) resolvedLinks
        (pass.nodes.len + 3) .new entry.1 cached
      pure cached
    else pure cached) .new

/-- `finalize_source_tree_pass`. Each path is inserted once, since the nodes are a map. -/
def finalizeSourceTreePass (sha256 : Bytes → Sha256Digest) (pass : SourceTreePass)
    (generated : Generated) : Checked IoError (BTreeMap Bytes TreeContentEntry) := do
  let resolvedLinks ← resolveLinks pass generated
  checkLinks pass resolvedLinks
  let digests ← digestLinks sha256 pass resolvedLinks
  pure (.collect (pass.nodes.entries.map fun entry =>
    (entry.1, ⟨entry.2.snapshot,
      if entry.2.snapshot.kind = .symlink then digests.get entry.1 else entry.2.content⟩)))

/-! ### The measurement -/

/-- What stands at a path of the tree, as `statat` and the reads after it see it. -/
inductive Measured where
  | file (snapshot : TreeNodeSnapshot) (bytes : Bytes)
  | directory (snapshot : TreeNodeSnapshot) (names : BTreeSet Name)
  | symlink (snapshot : TreeNodeSnapshot) (target : Bytes)
  /-- A socket, a device or the like. -/
  | special

/-- A directory tree below its root. -/
structure Directory where
  rootSnapshot : TreeNodeSnapshot
  rootNames : BTreeSet Name
  /-- What stands at a path other than the root. -/
  node : Path → Option Measured

/-- `TreeTraversalLimits`. -/
structure TreeTraversalLimits where
  maxEntries : ℕ
  maxRegularFileBytes : ℕ

/-- `TreeMeasurementBudget`, with limits. -/
structure TreeMeasurementBudget where
  entries : ℕ
  regularFileBytes : ℕ

/-- The variables that `measure_source_tree_contents_at` passes on. -/
structure Measurement where
  budget : TreeMeasurementBudget
  nodes : Nodes
  excludedRoots : BTreeSet Bytes

section Measure

variable (sha256 : Bytes → Sha256Digest) (collisionKey : Name → Bytes) (directory : Directory)
  (limits : TreeTraversalLimits) (generated : Generated) (displayPath : String)

/-- `consume_entry` for each entry of a directory. -/
def consumeEntries (names : BTreeSet Name) (budget : TreeMeasurementBudget) :
    Except IoError TreeMeasurementBudget :=
  if budget.entries + names.len > limits.maxEntries then
    .error (.new .invalidInput
      ("tree exceeds the " ++ toString limits.maxEntries ++ "-entry traversal limit"))
  else .ok { budget with entries := budget.entries + names.len }

/-- `reserve_regular_file_bytes`. -/
def reserveRegularFileBytes (size : ℤ) (path : String) (budget : TreeMeasurementBudget) :
    Except IoError TreeMeasurementBudget :=
  if size < 0 then
    .error (.new .invalidInput ("tree file '" ++ path ++ "' has a negative size"))
  else if budget.regularFileBytes + size.toNat ≥ 2 ^ 64 then
    .error (.ofMessage "tree regular-file byte count overflowed")
  else if budget.regularFileBytes + size.toNat > limits.maxRegularFileBytes then
    .error (.new .invalidInput ("tree exceeds the " ++ toString limits.maxRegularFileBytes ++
      "-byte regular-file traversal limit"))
  else .ok { budget with regularFileBytes := budget.regularFileBytes + size.toNat }

/-- The loop over the names of a directory before any of them is looked at. -/
def checkNames (display : String) (names : BTreeSet Name) : Except IoError (BTreeSet Bytes) :=
  names.elems.foldlM (fun keys name => do
    if name = [] ∨ 0x2f ∈ name then
      .error (.new .invalidInput "source tree contains an invalid filesystem component")
    else
      checkSourceName name
      if collisionKey name ∈ keys then
        .error (.new .invalidInput
          ("source tree directory '" ++ display ++ "' contains colliding names"))
      else .ok (keys.insert (collisionKey name))) .new

/-- `nodes.insert`, refused if there is a node already. -/
def insertNode (nodes : Nodes) (path : Bytes) (node : SourceTreeNode) : Except IoError Nodes :=
  if (nodes.get path).isSome then .error (.ofMessage "duplicate source tree entry")
  else .ok (nodes.insert path node)

/-- One name of a directory; `enter` measures a directory below it. -/
def measureName (enter : String → Path → BTreeSet Name → Measurement → Except IoError Measurement)
    (display : String) (parent : Path) (m : Measurement) (name : Name) :
    Except IoError Measurement := do
  let components := parent ++ [name]
  let relative := sourceTreePathKey components
  let childDisplay := display ++ "/" ++ lossy name
  if name = ascii ".git" ∨ generatedSubtreeMatchesChild parent name generated then
    .ok { m with excludedRoots := m.excludedRoots.insert relative }
  else if components.length > sourceTreeMaxDepth then
    .error (.new .invalidInput ("source tree exceeds the " ++ toString sourceTreeMaxDepth ++
      "-component depth limit"))
  else
    let crosses := generated.any fun generated => components.length < generated.1.length &&
      agree components generated.1
    let crossing : Except IoError Measurement := .error (.new .invalidInput
      ("generated subtree path crosses a non-directory at '" ++ childDisplay ++ "'"))
    match directory.node components with
    | none => .error (.new .notFound "no such file or directory")
    | some .special => .error (.new .invalidInput
        "prepared tree contains an unsupported special filesystem object")
    | some (.file snapshot bytes) =>
      if crosses then crossing
      else do
        let budget ← reserveRegularFileBytes limits snapshot.size childDisplay m.budget
        let nodes ← insertNode m.nodes relative
          ⟨{ snapshot with kind := .file }, some (sha256 bytes), none⟩
        .ok { m with budget := budget, nodes := nodes }
    | some (.directory snapshot names) => do
      let m ← enter childDisplay components names m
      let nodes ← insertNode m.nodes relative ⟨{ snapshot with kind := .directory }, none, none⟩
      .ok { m with nodes := nodes }
    | some (.symlink snapshot target) =>
      if crosses then crossing
      else .ok { m with
        nodes := m.nodes.insert relative ⟨{ snapshot with kind := .symlink }, none, some target⟩ }

/-- `measure_source_tree_contents_at`; the fuel bounds the depth of the calls. -/
def measureSourceTreeContentsAt : ℕ → String → Path → BTreeSet Name → Measurement →
    Except IoError Measurement
  | 0, _, _, _, _ => .error (.new .invalidInput ("source tree exceeds the " ++
      toString sourceTreeMaxDepth ++ "-component depth limit"))
  | fuel + 1, display, parent, names, m => do
    let budget ← consumeEntries limits names m.budget
    let _ ← checkNames collisionKey display names
    names.elems.foldlM (measureName sha256 directory limits generated
      (measureSourceTreeContentsAt fuel) display parent) { m with budget := budget }

/-- The roots that are left out before any name is read. -/
def generatedRoots : Generated → BTreeSet Bytes
  | none => .new
  | some generated => BTreeSet.new.insert (sourceTreePathKey generated.1)

/-- `measure_source_tree_pass`. -/
def measureSourceTreePass : Except IoError SourceTreePass := do
  let m ← measureSourceTreeContentsAt sha256 collisionKey directory limits generated
    (sourceTreeMaxDepth + 1) displayPath [] directory.rootNames ⟨⟨0, 0⟩, .new, generatedRoots generated⟩
  .ok ⟨directory.rootSnapshot, m.nodes, m.excludedRoots⟩

end Measure

end SourceTree

end ArosTools
