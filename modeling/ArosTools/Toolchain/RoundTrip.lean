import ArosTools.Toolchain.MemberNames
import ArosTools.Toolchain.TreeInventory

/-!
# The round trip of a toolchain package

A staged tree is written, scanned and inventoried by three walks of their own. `Packable` is what
staging guarantees of a tree, and `WithinLimits` are the resource limits of the scanner. Under them
the scanner accepts what the writer writes, and reports the inventory of the tree
(`package_round_trip`).

The scan is followed member by member: `Progress` says what the scanner has recorded after some of
the paths, `scanEntries_member` is the step, and `scanEntries_members` the run.
-/

namespace ArosTools

namespace Toolchain

/-! ### Staged members -/

/-- `ARCHIVE_ROOT`. -/
def archiveRoot : Bytes := ascii "toolchain"

/-- What stands at a path, a special entry if nothing does. -/
def StagedTree.nodeAt (t : StagedTree) (path : Path) : StagedNode := (t.lstat path).getD .special

namespace StagedNode

/-- The mode of a member. -/
def memberMode : StagedNode → ℕ
  | directory => 0o755
  | symlink _ => 0o777
  | file mode _ => normalizedToolchainFileMode mode
  | special => 0

/-- The type of a member. -/
def memberKind : StagedNode → UInt8
  | directory => 0x35
  | symlink _ => 0x32
  | file _ _ => 0x30
  | special => 0

/-- The link target of a member. -/
def memberTarget : StagedNode → Bytes
  | symlink target => target
  | _ => []

/-- The payload of a member. -/
def memberPayload : StagedNode → Option Bytes
  | file _ contents => some contents
  | _ => none

/-- The bytes of a regular file. -/
def size (node : StagedNode) : ℕ := (node.memberPayload.getD []).length

end StagedNode

/-- The name of a member. -/
def memberName (path : Path) (node : StagedNode) : Bytes :=
  pathText (archiveRoot :: path) ++ directorySlash (node = .directory)

/-- The records of a member's extension. -/
def stagedRecords (path : Path) (node : StagedNode) : Bytes :=
  paxRecords (memberName path node) node.memberKind node.memberTarget

/-- The entries that a staged member is read as. -/
def stagedEntries (epoch : ℕ) (path : Path) (node : StagedNode) : List Ustar.Entry :=
  memberEntries (memberName path node) node.memberMode epoch node.memberKind node.memberTarget
    node.memberPayload

/-- The inventory entry of a staged member. -/
def stagedEntry (sha256 : Bytes → Sha256Digest) (path : Path) (node : StagedNode) :
    ManifestEntry :=
  match node with
  | .symlink target => ⟨pathText path, "0777", .symlink, none, none, some target⟩
  | .file mode contents =>
    ⟨pathText path, if normalizedToolchainFileMode mode = 0o644 then "0644" else "0755", .file,
      some (sha256 contents), some contents.length, none⟩
  | _ => ⟨pathText path, "0755", .directory, none, none, none⟩

/-! ### Trees that can be packaged -/

/-- What staging guarantees: portable names that do not collide, no special entries, link targets
that stay inside and can be recorded, and an embedded manifest. -/
structure Packable (foldName : Bytes → Bytes) (t : StagedTree) : Prop where
  portable : ∀ p ∈ t.paths, p.all portableName = true
  unique : ∀ p ∈ t.paths, ∀ q ∈ t.paths,
    payloadCasefoldPathKey foldName (relativePath p) =
      payloadCasefoldPathKey foldName (relativePath q) → p = q
  plain : ∀ p ∈ t.paths, t.lstat p ≠ some .special
  links : ∀ p ∈ t.paths, ∀ target, t.lstat p = some (.symlink target) →
    target ≠ [] ∧ 0 ∉ target ∧ 0x5c ∉ target ∧ validateLinkTarget p target = .ok ()
  manifest : ∃ mode contents, t.lstat [manifestFile] = some (.file mode contents)

/-- The resource limits of the scanner, and those of the header fields. -/
structure WithinLimits (gnu : Bool) (t : StagedTree) : Prop where
  entries : t.paths.length + 1 ≤ 500000
  fileSize : ∀ p ∈ t.paths, (t.nodeAt p).size < 2 ^ 33
  totalSize : (t.paths.map fun p => (t.nodeAt p).size).sum ≤ 32 * 1024 * 1024 * 1024
  extension : ∀ p ∈ t.paths, (stagedRecords p (t.nodeAt p)).length ≤ maxPaxExtensionBytes
  extensions : (t.paths.map fun p => (stagedRecords p (t.nodeAt p)).length).sum ≤
    maxTotalPaxExtensionBytes
  manifest : (t.nodeAt [manifestFile]).size ≤ maxMetadataBytes
  tools : gnu = true → (t.nodeAt [toolchainToolsFile]).size ≤ maxToolchainToolsBytes

/-- No payload file contains a forbidden prefix. -/
structure Permitted (forbidden : List Bytes) (t : StagedTree) : Prop where
  utf8 : forbidden.all isUtf8 = true
  absent : ∀ p ∈ t.paths, p ≠ [manifestFile] → ∀ mode contents,
    t.lstat p = some (.file mode contents) →
      containsAny (forbidden.filter (· ≠ [])) contents = false

/-! ### Writing -/

variable {foldName : Bytes → Bytes} {t : StagedTree} {epoch : ℕ} {gnu : Bool} {path : Path}
  {node : StagedNode} {forbidden : List Bytes}

theorem portableName_archiveRoot : PortableName archiveRoot :=
  .of_portableName (by decide)

theorem Packable.names (h : Packable foldName t) (hpath : path ∈ t.paths) :
    ∀ name ∈ archiveRoot :: path, PortableName name := by
  intro name hname
  rcases List.mem_cons.mp hname with rfl | hname
  · exact portableName_archiveRoot
  · exact .of_portableName (List.all_eq_true.mp (h.portable path hpath) name hname)

theorem nodeAt_eq (h : t.lstat path = some node) : t.nodeAt path = node := by
  rw [StagedTree.nodeAt, h]
  rfl

theorem memberKind_ne_zero (h : node ≠ .special) : node.memberKind ≠ 0 := by
  cases node with
  | special => exact absurd rfl h
  | directory => decide
  | symlink target => exact (by decide : (0x32 : UInt8) ≠ 0)
  | file mode contents => exact (by decide : (0x30 : UInt8) ≠ 0)

theorem memberMode_lt (node : StagedNode) : node.memberMode < 8 ^ 7 := by
  cases node with
  | file mode contents =>
    simp only [StagedNode.memberMode, normalizedToolchainFileMode]
    split_ifs <;> decide
  | symlink target => exact (by decide : 0o777 < 8 ^ 7)
  | directory => decide
  | special => decide

/-- A staged entry is written as the entries it is read as. -/
theorem appendEntry_spells (hnames : ∀ name ∈ archiveRoot :: path, PortableName name)
    (hnode : t.lstat path = some node) (hroot : path = [] → node = .directory)
    (hplain : node ≠ .special) (htarget : isUtf8 node.memberTarget = true)
    (hepoch : epoch < 2 ^ 33) (hsize : node.size < 2 ^ 33)
    (hrecords : (stagedRecords path node).length < 2 ^ 33) :
    ∃ bytes, appendEntry t epoch archiveRoot path = .ok bytes ∧
      Ustar.Spells bytes (stagedEntries epoch path node) := by
  have hwidth : 8 ^ 11 = 2 ^ 33 := by decide
  obtain ⟨bytes, hbytes, hspells⟩ := @writePaxEntry_spells (memberName path node)
    node.memberTarget _ _ _ node.memberPayload (memberKind_ne_zero hplain)
    (memberMode_lt node) (hwidth ▸ hepoch) (hwidth ▸ hsize) (hwidth ▸ hrecords)
  refine ⟨bytes, ?_, hspells⟩
  have hname : ∀ isDirectory, (path = [] → isDirectory = true) →
      archiveName archiveRoot path isDirectory =
        pathText (archiveRoot :: path) ++ directorySlash isDirectory :=
    fun isDirectory => archiveName_eq hnames
  rw [appendEntry, hnode]
  cases node with
  | directory =>
    simp only
    rw [hname true fun _ => rfl]
    exact hbytes
  | symlink target =>
    have hdirectory : directorySlash (decide (StagedNode.symlink target = .directory)) =
        directorySlash false := rfl
    rw [memberName, hdirectory] at hbytes
    have htarget : isUtf8 target = true := htarget
    simp only
    rw [if_pos htarget, hname false fun hnil => nomatch hroot hnil]
    exact hbytes
  | file mode contents =>
    have hdirectory : directorySlash (decide (StagedNode.file mode contents = .directory)) =
        directorySlash false := rfl
    rw [memberName, hdirectory] at hbytes
    simp only
    rw [hname false fun hnil => nomatch hroot hnil]
    exact hbytes
  | special => exact absurd rfl hplain

/-! ### Scanning -/

/-- What the reader reports of an entry. -/
def rawEntry (e : Ustar.Entry) : RawEntry := ⟨tarHeader e.block, e.size, some e.payload⟩

/-- What the reader reports of an extension. -/
theorem extensionEntry_reads {records : Bytes} (hsize : records.length ≤ maxPaxExtensionBytes) :
    HeaderReads (ascii "././@PaxHeader") 0 0 0 records.length 0 0x78 []
      (rawEntry (extensionEntry records)).header := by
  have hlength : records.length < 8 ^ 11 := by
    have hmax : maxPaxExtensionBytes = 65536 := rfl
    have hwidth : 8 ^ 11 = 8589934592 := by decide
    omega
  have hname : HeaderText (ascii "././@PaxHeader") := ⟨by decide, by decide⟩
  exact headerBlock_reads hname ⟨List.not_mem_nil, List.not_mem_nil⟩ (by decide) (by decide)
    (by decide) hlength (by decide)

theorem verifyPaxHeader_extension {records : Bytes} (hne : records ≠ [])
    (hsize : records.length ≤ maxPaxExtensionBytes) :
    verifyPaxHeader (rawEntry (extensionEntry records)).header records.length = .ok () := by
  have hreads := extensionEntry_reads hsize
  have hpath : (tarCharacters (ascii "././@PaxHeader")).take 100 = ascii "././@PaxHeader" := by
    decide
  have hlink : heldTarget [] = none := rfl
  simp only [verifyPaxHeader, hreads.mode, hreads.uid, hreads.gid, hreads.mtime, hreads.size,
    hreads.path, hreads.link, hreads.entryType, hreads.ustar, hpath, hlink, require_some, bind,
    Except.bind]
  exact check_true (by simp [hne])

theorem accountPaxExtension_ok {total size : ℕ} (hne : size ≠ 0)
    (hsize : size ≤ maxPaxExtensionBytes) (htotal : total + size ≤ maxTotalPaxExtensionBytes) :
    accountPaxExtension total size = .ok (total + size) := by
  have hmax : maxTotalPaxExtensionBytes = 67108864 := rfl
  have hadd : checkedAdd total size = some (total + size) := checkedAdd_of_lt (by omega)
  rw [accountPaxExtension, check_true (by simp [hne, hsize]), hadd]
  simp only [require_some, bind, Except.bind]
  rw [check_true (by simp [htotal])]
  rfl

theorem readExactEntry_payload {entry : Ustar.Entry}
    (hsize : entry.payload.length ≤ maxMetadataBytes) :
    readExactEntry (rawEntry entry) entry.payload.length = .ok entry.payload := by
  rw [readExactEntry, check_true (decide_eq_true hsize)]
  simp only [rawEntry, require_some, bind, Except.bind]
  rw [check_true (by simp)]
  rfl

section

variable {κ : Type} (decoders : Decoders) (consumer : ArchiveConsumer κ)
  (contract : PayloadArchiveContract) (forbidden : List Bytes) {s : Scan κ}

/-- The extension of a member is kept for it. -/
theorem scanEntry_extension {name target : Bytes} {kind : UInt8} (hname : PaxText name)
    (htarget : kind = 0x32 → PaxText target) (hne : paxRecords name kind target ≠ [])
    (hindex : s.logicalIndex ≠ 0) (hpending : s.pendingPax = none)
    (hsize : (paxRecords name kind target).length ≤ maxPaxExtensionBytes)
    (htotal : s.totalPaxBytes + (paxRecords name kind target).length ≤ maxTotalPaxExtensionBytes) :
    scanEntry decoders consumer contract forbidden s
        (some (rawEntry (extensionEntry (paxRecords name kind target)))) =
      .ok { s with
        pendingPax := some (overridesOf name kind target)
        totalPaxBytes := s.totalPaxBytes + (paxRecords name kind target).length } := by
  have hmax : maxPaxExtensionBytes = 65536 := rfl
  have hmeta : maxMetadataBytes = 16777216 := rfl
  have hlength := List.length_pos_of_ne_nil hne
  have hparse := parsePaxOverrides_records hname htarget (by omega) hne
  generalize paxRecords name kind target = records at *
  have hreads := extensionEntry_reads hsize
  have haccount := accountPaxExtension_ok (by omega) hsize htotal
  have hread : readExactEntry (rawEntry (extensionEntry records)) records.length = .ok records :=
    @readExactEntry_payload (extensionEntry records) (by show records.length ≤ _; omega)
  have hentry : (rawEntry (extensionEntry records)).size = records.length := rfl
  have hscan : scanPax s (rawEntry (extensionEntry records)) = .ok { s with
        pendingPax := some (overridesOf name kind target)
        totalPaxBytes := s.totalPaxBytes + records.length } := by
    rw [scanPax, check_true (by simp [hindex, hpending]), hreads.size]
    simp only [require_some, bind, Except.bind, hentry, decide_true]
    rw [check_true rfl]
    simp only [verifyPaxHeader_extension hne hsize, haccount, hread, hparse]
    rfl
  rw [scanEntry, require_some]
  simp only [bind, Except.bind, hreads.strings, hreads.entryType]
  rw [check_true (by decide)]
  exact hscan

end

/-- What the scanner keeps of a member's extension. -/
def extensionOf (name : Bytes) (kind : UInt8) (target : Bytes) : Option PaxOverrides :=
  if paxRecords name kind target = [] then none else some (overridesOf name kind target)

theorem needsPax_false {text : Bytes} (h : needsPax text = false) :
    (tarCharacters text).take 100 = text := by
  rw [needsPax, Bool.or_eq_false_iff, decide_eq_false_iff_not, Nat.not_lt] at h
  rw [tarCharacters_of_ascii h.1, List.take_of_length_le h.2]

theorem extensionOf_path {name target : Bytes} {kind : UInt8} :
    ((extensionOf name kind target).bind PaxOverrides.path).getD ((tarCharacters name).take 100) =
      name := by
  by_cases hname : needsPax name = true
  · have hne : paxRecords name kind target ≠ [] := by
      rw [paxRecords, if_pos hname]
      simp [paxRecordText_ne_nil]
    rw [extensionOf, if_neg hne]
    simp [overridesOf, hname]
  · rw [Bool.not_eq_true] at hname
    have hnone : (extensionOf name kind target).bind PaxOverrides.path = none := by
      rw [extensionOf]
      split_ifs
      · rfl
      · simp [overridesOf, hname]
    rw [hnone, Option.getD_none, needsPax_false hname]

theorem extensionOf_linkpath_none {name target : Bytes} {kind : UInt8} (hkind : kind ≠ 0x32) :
    (extensionOf name kind target).bind PaxOverrides.linkpath = none := by
  rw [extensionOf]
  split_ifs
  · rfl
  · simp [overridesOf, hkind]

theorem extensionOf_linkpath {name target : Bytes} (htarget : target ≠ []) :
    ((extensionOf name 0x32 target).bind PaxOverrides.linkpath).or (heldTarget target) =
      some target := by
  by_cases hneeds : needsPax target = true
  · have hne : paxRecords name 0x32 target ≠ [] := by
      rw [paxRecords]
      simp [hneeds, paxRecordText_ne_nil]
    rw [extensionOf, if_neg hne]
    simp [overridesOf, hneeds]
  · rw [Bool.not_eq_true] at hneeds
    have hnone : (extensionOf name 0x32 target).bind PaxOverrides.linkpath = none := by
      rw [extensionOf]
      split_ifs
      · rfl
      · simp [overridesOf, hneeds]
    rw [hnone, Option.none_or, heldTarget, needsPax_false hneeds, if_neg htarget]

/-- The entry of a staged member itself. -/
def stagedMain (epoch : ℕ) (path : Path) (node : StagedNode) : RawEntry :=
  rawEntry (mainEntry (memberName path node) node.memberMode epoch node.memberKind
    node.memberTarget (node.memberPayload.getD []))

/-- What the scanner keeps of a staged member's extension. -/
def stagedExtension (path : Path) (node : StagedNode) : Option PaxOverrides :=
  extensionOf (memberName path node) node.memberKind node.memberTarget

/-- A node that can be packaged at a path. -/
structure Fits (path : Path) (node : StagedNode) : Prop where
  names : ∀ name ∈ archiveRoot :: path, PortableName name
  plain : node ≠ .special
  link : ∀ target, node = .symlink target →
    target ≠ [] ∧ 0 ∉ target ∧ 0x5c ∉ target ∧ validateLinkTarget path target = .ok ()
  size : node.size < 2 ^ 33
  extension : (stagedRecords path node).length ≤ maxPaxExtensionBytes

theorem validateLinkTarget_utf8 {target : Bytes} (h : validateLinkTarget path target = .ok ()) :
    isUtf8 target = true := by
  rw [validateLinkTarget] at h
  by_contra hutf8
  rw [Bool.not_eq_true] at hutf8
  simp [hutf8] at h

theorem Fits.targetText (h : Fits path node) : HeaderText node.memberTarget := by
  cases node with
  | symlink target => exact ⟨(h.link target rfl).2.1, (h.link target rfl).2.2.1⟩
  | _ => exact ⟨List.not_mem_nil, List.not_mem_nil⟩

theorem Fits.targetUtf8 (h : Fits path node) : isUtf8 node.memberTarget = true := by
  cases node with
  | symlink target => exact validateLinkTarget_utf8 (h.link target rfl).2.2.2
  | _ => rfl

theorem Fits.targetPax (h : Fits path node) (hkind : node.memberKind = 0x32) :
    PaxText node.memberTarget := by
  refine ⟨?_, h.targetText, h.targetUtf8⟩
  cases node with
  | symlink target => exact (h.link target rfl).1
  | directory => exact absurd hkind (by decide)
  | file mode contents => exact absurd hkind (by simp [StagedNode.memberKind])
  | special => exact absurd hkind (by decide)

/-- What the reader reports of a staged member. -/
theorem Fits.reads (h : Fits path node) (hepoch : epoch < 2 ^ 33) :
    HeaderReads (memberName path node) node.memberMode 0 0 node.size epoch node.memberKind
      node.memberTarget (stagedMain epoch path node).header := by
  have hwidth : 8 ^ 11 = 2 ^ 33 := by decide
  exact headerBlock_reads (paxText_name h.names).text h.targetText (memberMode_lt node) (by decide)
    (by decide) (hwidth ▸ h.size) (hwidth ▸ hepoch)

section

variable {decoders : Decoders} {s : Scan Unit}

/-- One entry of a package, scanned by the verifier. -/
abbrev scanPackageEntry (decoders : Decoders) (epoch : ℕ) (gnu : Bool) (forbidden : List Bytes)
    (s : Scan Unit) (entry : Option RawEntry) : Contract (Scan Unit) :=
  scanEntry decoders (verifyingConsumer decoders.sha256) (compilerArchiveContract epoch gnu)
    forbidden s entry

theorem account_staged {budget : ArchiveBudget} (hplain : node ≠ .special)
    (hentries : budget.entries + 1 ≤ 500000)
    (hbytes : budget.expandedBytes + node.size ≤ 32 * 1024 * 1024 * 1024) :
    budget.account (decide (node.memberKind = 0x30)) node.size
      (compilerArchiveContract epoch gnu).maxEntries
      (compilerArchiveContract epoch gnu).maxRegularFileBytes =
        .ok ⟨budget.entries + 1, budget.expandedBytes + node.size⟩ := by
  have hadd : checkedAdd budget.entries 1 = some (budget.entries + 1) :=
    checkedAdd_of_lt (by omega)
  have hadd' : checkedAdd budget.expandedBytes node.size =
      some (budget.expandedBytes + node.size) := checkedAdd_of_lt (by omega)
  have hlimit : decide (budget.entries + 1 ≤ (compilerArchiveContract epoch gnu).maxEntries) =
      true := decide_eq_true hentries
  have hlimit' : decide (budget.expandedBytes + node.size ≤
      (compilerArchiveContract epoch gnu).maxRegularFileBytes) = true := decide_eq_true hbytes
  rw [ArchiveBudget.account, hadd]
  simp only [require_some, bind, Except.bind, hlimit]
  rw [check_true rfl]
  cases node with
  | file mode contents =>
    have hkind : decide ((StagedNode.file mode contents).memberKind = 0x30) = true := rfl
    simp only [hkind, if_true, hadd', require_some, hlimit']
    rw [check_true rfl]
    rfl
  | directory => rfl
  | symlink target => rfl
  | special => exact absurd rfl hplain

/-- A member below the root comes to the check of its place. -/
theorem scanEntry_main (hfits : Fits path node) (hpath : path ≠ []) (hepoch : epoch < 2 ^ 33)
    (hindex : s.logicalIndex ≠ 0) (hnext : s.logicalIndex + 1 < 2 ^ 64)
    (hpending : s.pendingPax = stagedExtension path node)
    (hentries : s.budget.entries + 1 ≤ 500000)
    (hbytes : s.budget.expandedBytes + node.size ≤ 32 * 1024 * 1024 * 1024) :
    scanPackageEntry decoders epoch gnu forbidden s (some (stagedMain epoch path node)) =
      scanMember decoders (verifyingConsumer decoders.sha256) (compilerArchiveContract epoch gnu)
        forbidden { s with
          budget := ⟨s.budget.entries + 1, s.budget.expandedBytes + node.size⟩
          pendingPax := none
          logicalIndex := s.logicalIndex + 1 } path node.size (stagedExtension path node)
        (stagedMain epoch path node) := by
  have hreads := hfits.reads hepoch
  have hsize : (stagedMain epoch path node).size = node.size := rfl
  have hkinds : (!(decide (node.memberKind = 0x67) || decide (node.memberKind = 0x4c) ||
      decide (node.memberKind = 0x4b))) = true ∧ node.memberKind ≠ 0x78 := by
    cases node with
    | special => exact absurd rfl hfits.plain
    | directory => decide
    | symlink target => exact ⟨rfl, (by decide : (0x32 : UInt8) ≠ 0x78)⟩
    | file mode contents => exact ⟨rfl, (by decide : (0x30 : UInt8) ≠ 0x78)⟩
  have haccount := @account_staged epoch gnu _ _ hfits.plain hentries hbytes
  have hlinkpath : (!(((stagedExtension path node).bind PaxOverrides.linkpath).isSome &&
      decide (node.memberKind ≠ 0x32))) = true := by
    by_cases hkind : node.memberKind = 0x32
    · simp [hkind]
    · rw [stagedExtension, extensionOf_linkpath_none hkind]
      rfl
  have hmemberPath : memberPath (stagedExtension path node) (stagedMain epoch path node) =
      memberName path node := by
    rw [memberPath, hreads.path, stagedExtension, extensionOf_path]
  have hdirectory : decide (node = .directory) = decide (node.memberKind = 0x35) := by
    cases node <;> rfl
  have hcanonical : validateCanonicalArchivePath (memberName path node) node.memberKind
      archiveRoot = .ok () := by
    rw [memberName, hdirectory]
    exact validateCanonicalArchivePath_name hfits.names
  have hrelative : packageRelativePath (PathBuf.ofBytes (memberName path node)) archiveRoot =
      .ok (some path) := by
    rw [memberName, packageRelativePath_name hfits.names, if_neg hpath]
  have hadd : checkedAdd s.logicalIndex 1 = some (s.logicalIndex + 1) := checkedAdd_of_lt hnext
  rw [scanPackageEntry, scanEntry, require_some]
  simp only [bind, Except.bind, hreads.strings, hreads.entryType]
  rw [check_true hkinds.1]
  simp only [if_neg hkinds.2]
  rw [scanLogical, hreads.size]
  simp only [require_some, bind, Except.bind, hsize, decide_true, hreads.entryType, haccount,
    hpending]
  rw [check_true rfl]
  simp only
  rw [check_true hlinkpath]
  simp only [hmemberPath]
  have hroot : (compilerArchiveContract epoch gnu).archiveRoot = archiveRoot := rfl
  simp only [hroot, hcanonical, hrelative, if_neg hindex, hadd, require_some]

theorem memberText_eq (h : ∀ name ∈ path, PortableName name) :
    memberText path = pathText path := by
  have hclean := notMem_pathText (b := 0x5c) (by decide) fun name hname => (h name hname).noBackslash
  rw [memberText]
  refine (List.map_congr_left fun b hb => ?_).trans (List.map_id _)
  have hb' : b ≠ 0x5c := fun heq => hclean (heq ▸ hb)
  rw [if_neg hb']
  rfl

theorem ofBytes_manifestFile : PathBuf.ofBytes manifestFile = relativePath [manifestFile] := by
  decide

theorem ofBytes_toolchainToolsFile :
    PathBuf.ofBytes toolchainToolsFile = relativePath [toolchainToolsFile] := by
  decide

theorem relativePath_inj {path' : Path} : relativePath path = relativePath path' ↔ path = path' := by
  refine ⟨fun h => ?_, fun h => h ▸ rfl⟩
  have hmap : path.map Component.normal = path'.map Component.normal :=
    congrArg PathBuf.components h
  exact List.map_injective_iff.mpr (fun a b hab => by cases hab; rfl) hmap

theorem Fits.verifyHeader_fixed (h : Fits path node) (hepoch : epoch < 2 ^ 33)
    (hsize : node.size = 0) :
    verifyHeader (stagedMain epoch path node).header epoch (some node.memberMode) 0 = .ok () := by
  have hreads := h.reads hepoch
  simp only [verifyHeader, hreads.mode, hreads.uid, hreads.gid, hreads.mtime, hreads.size, hsize,
    require_some, bind, Except.bind]
  exact check_true (by simp)

theorem Fits.verifyHeader_file {mode : ℕ} {contents : Bytes}
    (h : Fits path (.file mode contents)) (hepoch : epoch < 2 ^ 33) :
    verifyHeader (stagedMain epoch path (.file mode contents)).header epoch none contents.length =
      .ok () := by
  have hreads := h.reads hepoch
  have hsize : (StagedNode.file mode contents).size = contents.length := rfl
  have hmode : (StagedNode.file mode contents).memberMode = 0o644 ∨
      (StagedNode.file mode contents).memberMode = 0o755 := by
    simp only [StagedNode.memberMode, normalizedToolchainFileMode]
    split_ifs
    · exact .inl rfl
    · exact .inr rfl
  simp only [verifyHeader, hreads.mode, hreads.uid, hreads.gid, hreads.mtime, hreads.size, hsize,
    require_some, bind, Except.bind]
  exact check_true (by simpa using hmode)

/-- What a member adds to the scan. -/
structure Placed (decoders : Decoders) (path : Path) (node : StagedNode) (s s' : Scan Unit) :
    Prop where
  entries : s'.entries = s.entries ++
    if path = [manifestFile] then [] else [stagedEntry decoders.sha256 path node]
  seen : ∀ key ∈ s'.seen, key ∈ s.seen ∨
    payloadCasefoldPathKey decoders.foldName (relativePath path) = some key
  directories : ∀ dir, dir ∈ s.directories ∨ (dir = path ∧ node = .directory) →
    dir ∈ s'.directories
  previous : s'.previous = some (pathText path)
  manifest : s'.embeddedManifest =
    if path = [manifestFile] then node.memberPayload else s.embeddedManifest
  tools : path ≠ [toolchainToolsFile] → s'.toolchainTools = s.toolchainTools
  budget : s'.budget = s.budget
  pendingPax : s'.pendingPax = s.pendingPax
  totalPaxBytes : s'.totalPaxBytes = s.totalPaxBytes
  logicalIndex : s'.logicalIndex = s.logicalIndex

theorem scanDirectory_eq (hfits : Fits path .directory) (hepoch : epoch < 2 ^ 33) :
    scanDirectory (verifyingConsumer decoders.sha256) (compilerArchiveContract epoch gnu) s path
        (pathText path) (stagedMain epoch path .directory) =
      .ok { s with
        directories := s.directories.insert path
        entries := s.entries ++ [stagedEntry decoders.sha256 path .directory] } := by
  have hverify := hfits.verifyHeader_fixed hepoch rfl
  have hepochs : (compilerArchiveContract epoch gnu).sourceDateEpoch = epoch := rfl
  have hmode : StagedNode.directory.memberMode = 0o755 := rfl
  rw [hmode] at hverify
  rw [scanDirectory, hepochs, hverify]
  rfl

theorem scanSymlink_eq {target : Bytes} (hfits : Fits path (.symlink target))
    (hepoch : epoch < 2 ^ 33) :
    scanSymlink (verifyingConsumer decoders.sha256) (compilerArchiveContract epoch gnu) s path
        (pathText path) (stagedExtension path (.symlink target))
        (stagedMain epoch path (.symlink target)) =
      .ok { s with
        entries := s.entries ++ [stagedEntry decoders.sha256 path (.symlink target)] } := by
  have hverify := hfits.verifyHeader_fixed hepoch rfl
  have hepochs : (compilerArchiveContract epoch gnu).sourceDateEpoch = epoch := rfl
  have hmode : (StagedNode.symlink target).memberMode = 0o777 := rfl
  obtain ⟨hne, hzero, hbackslash, hvalid⟩ := hfits.link target rfl
  have htarget : linkTarget (stagedExtension path (.symlink target))
      (stagedMain epoch path (.symlink target)) = some target := by
    rw [linkTarget, (hfits.reads hepoch).link]
    exact extensionOf_linkpath hne
  have hclean : (decide (target ≠ []) && !target.contains 0 && !target.contains 0x5c) = true := by
    simp [hne, hzero, hbackslash]
  rw [hmode] at hverify
  rw [scanSymlink, hepochs, hverify, htarget]
  simp only [require_some, bind, Except.bind]
  rw [check_true hclean]
  simp only
  rw [check_true (validateLinkTarget_utf8 hvalid), hvalid]
  rfl

theorem hashEntry_staged {contents : Bytes} {entry : RawEntry}
    (hdata : entry.data = some contents) (hutf8 : forbidden.all isUtf8 = true)
    (habsent : containsAny (forbidden.filter (· ≠ [])) contents = false) :
    hashEntry decoders.sha256 entry contents.length forbidden = .ok (decoders.sha256 contents) := by
  rw [hashEntry, check_true hutf8]
  simp only [hdata, require_some, bind, Except.bind, le_refl, decide_true]
  rw [check_true rfl]
  simp only
  rw [check_true (by simpa using habsent)]
  simp only
  rw [check_true rfl]
  rfl

/-- The mode of a regular file as it is recorded. -/
theorem modeText_eq {mode : ℕ} :
    (if normalizedToolchainFileMode mode &&& 0o111 = 0 then "0644" else "0755") =
      if normalizedToolchainFileMode mode = 0o644 then "0644" else "0755" := by
  unfold normalizedToolchainFileMode
  by_cases hmode : mode &&& 0o111 = 0
  · simp [hmode]
  · simp [hmode]

theorem scanRegular_manifest {mode : ℕ} {contents : Bytes}
    (hfits : Fits [manifestFile] (.file mode contents)) (hepoch : epoch < 2 ^ 33)
    (hnone : s.embeddedManifest = none) (hsize : contents.length ≤ maxMetadataBytes) :
    scanRegular (verifyingConsumer decoders.sha256) (compilerArchiveContract epoch gnu) forbidden s
        [manifestFile] (pathText [manifestFile]) contents.length
        (stagedMain epoch [manifestFile] (.file mode contents)) =
      .ok { s with embeddedManifest := some contents } := by
  have hverify := hfits.verifyHeader_file hepoch
  have hepochs : (compilerArchiveContract epoch gnu).sourceDateEpoch = epoch := rfl
  have hfile : (compilerArchiveContract epoch gnu).manifestFile = manifestFile := rfl
  have hread : readExactEntry (stagedMain epoch [manifestFile] (.file mode contents))
      contents.length = .ok contents :=
    @readExactEntry_payload (mainEntry _ _ _ _ _ contents) hsize
  rw [scanRegular, hepochs, hverify, hfile, ofBytes_manifestFile]
  simp only [if_true, bind, Except.bind]
  rw [check_true (by simp [hnone, hsize])]
  simp only [verifyingConsumer, hread]
  rfl

theorem scanRegular_payload {mode : ℕ} {contents : Bytes}
    (hfits : Fits path (.file mode contents)) (hepoch : epoch < 2 ^ 33)
    (hpath : path ≠ [manifestFile]) (hutf8 : forbidden.all isUtf8 = true)
    (habsent : containsAny (forbidden.filter (· ≠ [])) contents = false)
    (htools : gnu = true → path = [toolchainToolsFile] →
      contents.length ≤ maxToolchainToolsBytes ∧ s.toolchainTools = none) :
    ∃ tools, scanRegular (verifyingConsumer decoders.sha256) (compilerArchiveContract epoch gnu)
        forbidden s path (pathText path) contents.length
        (stagedMain epoch path (.file mode contents)) =
      .ok { s with
        toolchainTools := tools
        entries := s.entries ++ [stagedEntry decoders.sha256 path (.file mode contents)] } ∧
      (path ≠ [toolchainToolsFile] → tools = s.toolchainTools) := by
  have hverify := hfits.verifyHeader_file hepoch
  have hepochs : (compilerArchiveContract epoch gnu).sourceDateEpoch = epoch := rfl
  have hfile : (compilerArchiveContract epoch gnu).manifestFile = manifestFile := rfl
  have hgnu : (compilerArchiveContract epoch gnu).captureToolchainTools = gnu := rfl
  have hnot : relativePath path ≠ relativePath [manifestFile] := fun h =>
    hpath (relativePath_inj.mp h)
  have hmode : (stagedMain epoch path (.file mode contents)).header.mode =
      some (normalizedToolchainFileMode mode) := (hfits.reads hepoch).mode
  have hentry : (⟨pathText path,
      if normalizedToolchainFileMode mode &&& 0o111 = 0 then "0644" else "0755", .file,
      some (decoders.sha256 contents), some contents.length, none⟩ : ManifestEntry) =
        stagedEntry decoders.sha256 path (.file mode contents) := by
    rw [modeText_eq]
    rfl
  have hdata : (stagedMain epoch path (.file mode contents)).data = some contents := rfl
  have hhash := @hashEntry_staged _ decoders _ _ hdata hutf8 habsent
  rw [scanRegular, hepochs, hverify, hfile, ofBytes_manifestFile, ofBytes_toolchainToolsFile]
  simp only [if_neg hnot, hmode, require_some, bind, Except.bind, hgnu]
  by_cases hcapture : gnu = true ∧ path = [toolchainToolsFile]
  · obtain ⟨hsize, hnone⟩ := htools hcapture.1 hcapture.2
    have hmeta : contents.length ≤ maxMetadataBytes :=
      hsize.trans (by decide : maxToolchainToolsBytes ≤ maxMetadataBytes)
    have hread : readExactEntry (stagedMain epoch path (.file mode contents)) contents.length =
        .ok contents := @readExactEntry_payload (mainEntry _ _ _ _ _ contents) hmeta
    refine ⟨some contents, ?_, fun hne => absurd hcapture.2 hne⟩
    rw [if_pos (by simp [hcapture]), check_true (by simp [hsize, hnone])]
    simp only [hread, verifyingConsumer]
    rw [@hashEntry_staged _ decoders _ _ rfl hutf8 habsent]
    simp only [Except.map]
    rw [hentry]
    rfl
  · refine ⟨s.toolchainTools, ?_, fun _ => rfl⟩
    rw [if_neg (by
      rw [Bool.and_eq_true, decide_eq_true_eq, relativePath_inj]
      exact hcapture)]
    simp only [verifyingConsumer, hhash, Except.map]
    rw [hentry]
    rfl

/-- What the scanner has to find before a member. -/
structure Ready (decoders : Decoders) (gnu : Bool) (s : Scan Unit) (path : Path)
    (node : StagedNode) (key : Bytes) : Prop where
  folded : payloadCasefoldPathKey decoders.foldName (relativePath path) = some key
  fresh : key ∉ s.seen
  order : ∀ previous ∈ s.previous, previous < pathText path
  parent : path.dropLast ∈ s.directories
  manifest : path = [manifestFile] → s.embeddedManifest = none ∧ node.size ≤ maxMetadataBytes ∧
    ∃ mode contents, node = .file mode contents
  tools : gnu = true → path = [toolchainToolsFile] →
    node.size ≤ maxToolchainToolsBytes ∧ s.toolchainTools = none

/-- **A member is placed.** -/
theorem scanMember_placed {key : Bytes} (hfits : Fits path node) (hepoch : epoch < 2 ^ 33)
    (hready : Ready decoders gnu s path node key) (hutf8 : forbidden.all isUtf8 = true)
    (habsent : path ≠ [manifestFile] → ∀ mode contents, node = .file mode contents →
      containsAny (forbidden.filter (· ≠ [])) contents = false) :
    ∃ s', scanMember decoders (verifyingConsumer decoders.sha256)
        (compilerArchiveContract epoch gnu) forbidden s path node.size (stagedExtension path node)
        (stagedMain epoch path node) = .ok s' ∧ Placed decoders path node s s' := by
  have htext : memberText path = pathText path :=
    memberText_eq fun name hname => hfits.names name (.tail _ hname)
  have hkind : (stagedMain epoch path node).header.entryType = node.memberKind :=
    (hfits.reads hepoch).entryType
  have horder : (s.previous.all fun previous => decide (previous < pathText path)) = true := by
    cases hprevious : s.previous with
    | none => rfl
    | some previous => exact decide_eq_true (hready.order previous hprevious)
  have hseen : ∀ k ∈ s.seen.insert key, k ∈ s.seen ∨
      payloadCasefoldPathKey decoders.foldName (relativePath path) = some k := by
    intro k hk
    rcases BTreeSet.mem_insert.mp hk with hk | rfl
    · exact .inl hk
    · exact .inr hready.folded
  unfold scanMember
  simp only [htext]
  rw [check_true horder, hready.folded]
  simp only [require_some, bind, Except.bind]
  rw [check_true (decide_eq_true hready.fresh)]
  simp only
  rw [check_true (decide_eq_true hready.parent)]
  simp only [hkind]
  cases node with
  | directory =>
    have hpath : path ≠ [manifestFile] := fun h => by
      obtain ⟨-, -, mode, contents, hfile⟩ := hready.manifest h
      cases hfile
    rw [if_pos (by decide)]
    refine ⟨_, scanDirectory_eq hfits hepoch, by rw [if_neg hpath], hseen, fun dir hdir => ?_, rfl,
      by rw [if_neg hpath], fun _ => rfl, rfl, rfl, rfl, rfl⟩
    exact BTreeSet.mem_insert.mpr (hdir.imp_right And.left)
  | symlink target =>
    have hpath : path ≠ [manifestFile] := fun h => by
      obtain ⟨-, -, mode, contents, hfile⟩ := hready.manifest h
      cases hfile
    rw [if_neg (by simp [StagedNode.memberKind]), if_pos (by rfl)]
    refine ⟨_, scanSymlink_eq hfits hepoch, by rw [if_neg hpath], hseen, fun dir hdir => ?_, rfl,
      by rw [if_neg hpath], fun _ => rfl, rfl, rfl, rfl, rfl⟩
    exact hdir.resolve_right fun h => nomatch h.2
  | file mode contents =>
    rw [if_neg (by simp [StagedNode.memberKind]), if_neg (by simp [StagedNode.memberKind]),
      if_pos (by rfl)]
    by_cases hpath : path = [manifestFile]
    · subst hpath
      obtain ⟨hnone, hsize, -⟩ := hready.manifest rfl
      have hscan := @scanRegular_manifest _ gnu forbidden decoders
        { s with previous := some (pathText [manifestFile]), seen := s.seen.insert key } _ _ hfits hepoch
        hnone hsize
      refine ⟨_, hscan, by rw [if_pos rfl, List.append_nil], hseen, fun dir hdir => ?_, rfl,
        by rw [if_pos rfl]; rfl, fun _ => rfl, rfl, rfl, rfl, rfl⟩
      exact hdir.resolve_right fun h => nomatch h.2
    · obtain ⟨tools, hscan, hsame⟩ := @scanRegular_payload _ gnu _ forbidden decoders
        { s with previous := some (pathText path), seen := s.seen.insert key } _ _ hfits hepoch hpath
        hutf8
        (habsent hpath mode contents rfl) hready.tools
      refine ⟨_, hscan, by rw [if_neg hpath], hseen, fun dir hdir => ?_, rfl,
        by rw [if_neg hpath], hsame, rfl, rfl, rfl, rfl⟩
      exact hdir.resolve_right fun h => nomatch h.2
  | special => exact absurd rfl hfits.plain

/-! ### The run -/

/-- What the scanner has recorded after some of the paths. -/
structure Progress (decoders : Decoders) (t : StagedTree) (done : List Path) (s : Scan Unit) :
    Prop where
  entries : s.entries = (done.filter (· ≠ [manifestFile])).map fun p =>
    stagedEntry decoders.sha256 p (t.nodeAt p)
  seen : ∀ key ∈ s.seen, ∃ p ∈ done,
    payloadCasefoldPathKey decoders.foldName (relativePath p) = some key
  directories : ∀ dir, dir = [] ∨ dir ∈ done ∧ t.lstat dir = some .directory → dir ∈ s.directories
  previous : s.previous = done.getLast?.map pathText
  manifest : s.embeddedManifest =
    if [manifestFile] ∈ done then (t.nodeAt [manifestFile]).memberPayload else none
  tools : [toolchainToolsFile] ∉ done → s.toolchainTools = none
  budget : s.budget = ⟨done.length + 1, (done.map fun p => (t.nodeAt p).size).sum⟩
  pendingPax : s.pendingPax = none
  totalPaxBytes : s.totalPaxBytes = (done.map fun p => (stagedRecords p (t.nodeAt p)).length).sum
  logicalIndex : s.logicalIndex = done.length + 1

/-- The entries of a member, as the scanner comes to them. -/
def scanned (epoch : ℕ) (t : StagedTree) (path : Path) : List (Option RawEntry) :=
  (stagedEntries epoch path (t.nodeAt path)).map fun e => some (rawEntry e)

theorem Progress.place {done : List Path} {s₁ s' : Scan Unit}
    (h : Progress decoders t done s) (hnode : t.lstat path = some node)
    (hplaced : Placed decoders path node s₁ s')
    (hsame : s₁.entries = s.entries ∧ s₁.seen = s.seen ∧ s₁.directories = s.directories ∧
      s₁.embeddedManifest = s.embeddedManifest ∧ s₁.toolchainTools = s.toolchainTools)
    (hbudget : s₁.budget = ⟨s.budget.entries + 1, s.budget.expandedBytes + node.size⟩)
    (hpending : s₁.pendingPax = none)
    (htotal : s₁.totalPaxBytes = s.totalPaxBytes + (stagedRecords path node).length)
    (hindex : s₁.logicalIndex = s.logicalIndex + 1) :
    Progress decoders t (done ++ [path]) s' := by
  obtain ⟨hentries, hseen, hdirectories, hmanifest, htools⟩ := hsame
  have hat := nodeAt_eq hnode
  refine ⟨?_, ?_, ?_, ?_, ?_, ?_, ?_, ?_, ?_, ?_⟩
  · rw [hplaced.entries, hentries, h.entries, List.filter_append, List.map_append]
    congr 1
    by_cases hpath : path = [manifestFile]
    · simp [hpath]
    · simp [hpath, hat]
  · intro key hkey
    rcases hplaced.seen key hkey with hold | hthis
    · obtain ⟨p, hp, hpkey⟩ := h.seen key (hseen ▸ hold)
      exact ⟨p, List.mem_append_left _ hp, hpkey⟩
    · exact ⟨path, by simp, hthis⟩
  · intro dir hdir
    refine hplaced.directories dir ?_
    rw [hdirectories]
    rcases hdir with hnil | ⟨hmem, hlstat⟩
    · exact .inl (h.directories dir (.inl hnil))
    · rcases List.mem_append.mp hmem with hmem | hmem
      · exact .inl (h.directories dir (.inr ⟨hmem, hlstat⟩))
      · rw [List.mem_singleton.mp hmem] at hlstat ⊢
        exact .inr ⟨rfl, by simpa [hnode] using hlstat⟩
  · rw [hplaced.previous, List.getLast?_append]
    rfl
  · rw [hplaced.manifest, hmanifest, h.manifest]
    by_cases hpath : path = [manifestFile]
    · rw [if_pos hpath, if_pos (by simp [hpath]), ← hpath, hat]
    · have hiff : [manifestFile] ∈ done ++ [path] ↔ [manifestFile] ∈ done := by
        simp [Ne.symm hpath]
      rw [if_neg hpath]
      simp only [hiff]
  · intro hnot
    rw [List.mem_append, List.mem_singleton, not_or] at hnot
    rw [hplaced.tools (Ne.symm hnot.2), htools, h.tools hnot.1]
  · rw [hplaced.budget, hbudget, h.budget]
    simp [hat]
  · rw [hplaced.pendingPax, hpending]
  · rw [hplaced.totalPaxBytes, htotal, h.totalPaxBytes]
    simp [hat]
  · rw [hplaced.logicalIndex, hindex, h.logicalIndex]
    simp

theorem Packable.lstat_nodeAt (hpath : path ∈ t.paths) :
    t.lstat path = some (t.nodeAt path) := by
  obtain ⟨-, node, hnode⟩ := StagedTree.mem_paths.mp hpath
  rw [hnode, nodeAt_eq hnode]

theorem Packable.fits (h : Packable foldName t) (hlimits : WithinLimits gnu t)
    (hpath : path ∈ t.paths) : Fits path (t.nodeAt path) := by
  have hnode := Packable.lstat_nodeAt hpath
  refine ⟨h.names hpath, fun hspecial => ?_, fun target htarget => ?_, hlimits.fileSize path hpath,
    hlimits.extension path hpath⟩
  · exact h.plain path hpath (hspecial ▸ hnode)
  · exact h.links path hpath target (htarget ▸ hnode)

/-- The extension and the member itself, one after the other. -/
theorem scanEntries_extension (hfits : Fits path (t.nodeAt path)) {done : List Path}
    (h : Progress decoders t done s)
    (htotal : s.totalPaxBytes + (stagedRecords path (t.nodeAt path)).length ≤
      maxTotalPaxExtensionBytes) :
    (scanned epoch t path).foldlM (scanPackageEntry decoders epoch gnu forbidden) s =
      scanPackageEntry decoders epoch gnu forbidden { s with
        pendingPax := stagedExtension path (t.nodeAt path)
        totalPaxBytes := s.totalPaxBytes + (stagedRecords path (t.nodeAt path)).length }
        (some (stagedMain epoch path (t.nodeAt path))) := by
  have hmain : ∀ s' : Scan Unit, [some (stagedMain epoch path (t.nodeAt path))].foldlM
      (scanPackageEntry decoders epoch gnu forbidden) s' =
        scanPackageEntry decoders epoch gnu forbidden s'
          (some (stagedMain epoch path (t.nodeAt path))) := by
    intro s'
    rw [List.foldlM_cons]
    exact bind_pure _
  unfold scanned stagedEntries memberEntries stagedExtension extensionOf
  by_cases hnil : paxRecords (memberName path (t.nodeAt path)) (t.nodeAt path).memberKind
      (t.nodeAt path).memberTarget = []
  · have hstate : ({ s with
        pendingPax := none
        totalPaxBytes := s.totalPaxBytes + (stagedRecords path (t.nodeAt path)).length } :
          Scan Unit) = s := by
      rw [stagedRecords, hnil, ← h.pendingPax]
      rfl
    simp only [hnil, if_true, List.nil_append, List.map_cons, List.map_nil]
    rw [hstate]
    exact hmain s
  · have hname : PaxText (memberName path (t.nodeAt path)) := paxText_name hfits.names
    have hextension := scanEntry_extension decoders (verifyingConsumer decoders.sha256)
      (compilerArchiveContract epoch gnu) forbidden (s := s) hname hfits.targetPax hnil
      (by rw [h.logicalIndex]; omega) h.pendingPax hfits.extension htotal
    simp only [if_neg hnil, List.map_cons, List.map_nil, List.singleton_append]
    rw [List.foldlM_cons, scanPackageEntry]
    have hbind : ∀ (x : Contract (Scan Unit)) (s' : Scan Unit) (f : Scan Unit → Contract (Scan Unit)),
        x = .ok s' → x >>= f = f s' := by
      rintro x s' f rfl
      rfl
    rw [hbind _ _ _ hextension]
    exact hmain _

/-- **One member more.** -/
theorem scanEntries_member (hpack : Packable decoders.foldName t) (hlimits : WithinLimits gnu t)
    (hpermitted : Permitted forbidden t) (hepoch : epoch < 2 ^ 33) {done : List Path}
    (h : Progress decoders t done s) (hpath : path ∈ t.paths) (hdone : ∀ p ∈ done, p ∈ t.paths)
    (hnew : path ∉ done) (hlast : ∀ p ∈ done.getLast?, pathText p < pathText path)
    (hparent : path.dropLast = [] ∨ path.dropLast ∈ done)
    (hcount : done.length + 2 ≤ 500000)
    (hbytes : (done.map fun p => (t.nodeAt p).size).sum + (t.nodeAt path).size ≤
      32 * 1024 * 1024 * 1024)
    (htotal : (done.map fun p => (stagedRecords p (t.nodeAt p)).length).sum +
      (stagedRecords path (t.nodeAt path)).length ≤ maxTotalPaxExtensionBytes) :
    ∃ s', (scanned epoch t path).foldlM (scanPackageEntry decoders epoch gnu forbidden) s = .ok s' ∧
      Progress decoders t (done ++ [path]) s' := by
  have hfits := hpack.fits hlimits hpath
  have hnode := Packable.lstat_nodeAt hpath
  have hne := StagedTree.ne_nil_of_mem hpath
  have hkey := payloadCasefoldPathKey_relativePath decoders.foldName path
  rw [if_pos ⟨hne, hpack.portable path hpath⟩] at hkey
  have hready : Ready decoders gnu { s with
      budget := ⟨s.budget.entries + 1, s.budget.expandedBytes + (t.nodeAt path).size⟩
      pendingPax := none
      totalPaxBytes := s.totalPaxBytes + (stagedRecords path (t.nodeAt path)).length
      logicalIndex := s.logicalIndex + 1 } path (t.nodeAt path)
      ([0x2f].intercalate (path.map decoders.foldName)) := by
    refine ⟨hkey, fun hseen => ?_, fun previous hprevious => ?_, ?_, fun hmanifest => ?_,
      fun hgnu htools => ?_⟩
    · obtain ⟨p, hp, hpkey⟩ := h.seen _ hseen
      exact hnew (hpack.unique p (hdone p hp) path hpath (hpkey.trans hkey.symm) ▸ hp)
    · have hprevious : previous ∈ done.getLast?.map pathText := h.previous ▸ hprevious
      obtain ⟨p, hp, rfl⟩ := Option.map_eq_some_iff.mp hprevious
      exact hlast p hp
    · refine h.directories _ (hparent.imp_right fun hmem => ⟨hmem, ?_⟩)
      refine StagedTree.lstat_of_strict_prefix hpath (List.dropLast_prefix path) fun heq => ?_
      exact hnew (heq ▸ hmem)
    · refine ⟨?_, ?_, ?_⟩
      · have hmanifest' := h.manifest
        rw [if_neg (hmanifest ▸ hnew)] at hmanifest'
        exact hmanifest'
      · rw [hmanifest]
        exact hlimits.manifest
      · obtain ⟨mode, contents, hfile⟩ := hpack.manifest
        exact ⟨mode, contents, by rw [hmanifest, nodeAt_eq hfile]⟩
    · refine ⟨?_, h.tools (htools ▸ hnew)⟩
      rw [htools]
      exact hlimits.tools hgnu
  obtain ⟨s', hscan, hplaced⟩ := scanMember_placed hfits hepoch hready hpermitted.utf8
    fun hmanifest mode contents hfile => hpermitted.absent path hpath hmanifest mode contents
      (hfile ▸ hnode)
  refine ⟨s', ?_, h.place hnode hplaced ⟨rfl, rfl, rfl, rfl, rfl⟩ rfl rfl rfl rfl⟩
  rw [scanEntries_extension hfits h (by rw [h.totalPaxBytes]; exact htotal)]
  have hmain := @scanEntry_main _ gnu _ _ forbidden decoders
    { s with
      pendingPax := stagedExtension path (t.nodeAt path)
      totalPaxBytes := s.totalPaxBytes + (stagedRecords path (t.nodeAt path)).length }
    hfits hne hepoch (by simp only [h.logicalIndex]; omega)
    (by simp only [h.logicalIndex]; omega) rfl (by simp only [h.budget]; omega)
    (by simp only [h.budget]; exact hbytes)
  rw [hmain]
  exact hscan

theorem pathText_lt_of_parent {dir : Path} {name : Name} (hdir : dir ≠ []) :
    pathText dir < pathText (dir ++ [name]) := by
  have hlonger : ∀ (a : Bytes) (b : UInt8) (rest : Bytes), a < a ++ b :: rest := by
    intro a b rest
    induction a with
    | nil => exact List.nil_lt_cons b rest
    | cons c a ih => exact List.cons_lt_cons_self.mpr ih
  have hsplit : pathText (dir ++ [name]) = pathText dir ++ 0x2f :: name := by
    induction dir with
    | nil => exact absurd rfl hdir
    | cons first dir ih =>
      by_cases hrest : dir = []
      · rw [hrest, List.singleton_append, pathText_cons (by simp), pathText_singleton,
          pathText_singleton]
      · rw [List.cons_append, pathText_cons (by simp), pathText_cons hrest, ih hrest]
        simp
  rw [hsplit]
  exact hlonger _ _ _

/-- **The members of a sorted tree are placed one after the other.** -/
theorem scanEntries_members (hpack : Packable decoders.foldName t) (hlimits : WithinLimits gnu t)
    (hpermitted : Permitted forbidden t) (hepoch : epoch < 2 ^ 33) {done rest : List Path}
    (hperm : (done ++ rest).Perm t.paths)
    (hsorted : (done ++ rest).Pairwise fun p q => pathText p < pathText q)
    (h : Progress decoders t done s) :
    ∃ s', (rest.flatMap (scanned epoch t)).foldlM
        (scanPackageEntry decoders epoch gnu forbidden) s = .ok s' ∧
      Progress decoders t (done ++ rest) s' := by
  induction rest generalizing done s with
  | nil => exact ⟨s, rfl, by rw [List.append_nil]; exact h⟩
  | cons path rest ih =>
    have hnodup : (done ++ path :: rest).Nodup := hperm.nodup_iff.mpr t.nodup_paths
    have hpath : path ∈ t.paths := hperm.mem_iff.mp (by simp)
    have hbefore : ∀ p ∈ done, pathText p < pathText path := fun p hp =>
      (List.pairwise_append.mp hsorted).2.2 p hp path (.head _)
    have hlength := hperm.length_eq
    have hentries := hlimits.entries
    rw [List.length_append, List.length_cons] at hlength
    -- What the paths so far take of the limits is at most what all of them take.
    have hsum : ∀ (f : Path → ℕ), (done.map f).sum + f path ≤ (t.paths.map f).sum := by
      intro f
      rw [← (hperm.map f).sum_eq, List.map_append, List.map_cons, List.sum_append, List.sum_cons]
      omega
    have hparent : path.dropLast = [] ∨ path.dropLast ∈ done := by
      by_cases hnil : path.dropLast = []
      · exact .inl hnil
      · have hne := StagedTree.ne_nil_of_mem hpath
        have hlast := List.dropLast_append_getLast hne
        have hmem : path.dropLast ∈ t.paths := by
          refine StagedTree.mem_paths.mpr ⟨hnil, .directory, ?_⟩
          refine @StagedTree.lstat_parent _ _ (path.getLast hne) ?_
          rw [hlast]
          exact hpath
        have hlt : pathText path.dropLast < pathText path := by
          conv_rhs => rw [← hlast]
          exact pathText_lt_of_parent hnil
        rcases List.mem_append.mp (hperm.mem_iff.mpr hmem) with hmem | hmem
        · exact .inr hmem
        · -- A directory that came later would not be smaller.
          rcases List.mem_cons.mp hmem with heq | hmem
          · rw [heq] at hlt
            exact absurd hlt (lt_irrefl _)
          · have hlater := (List.pairwise_cons.mp (List.pairwise_append.mp hsorted).2.1).1 _ hmem
            exact absurd hlt (lt_asymm hlater)
    obtain ⟨s₁, hscan, hprogress⟩ := scanEntries_member hpack hlimits hpermitted hepoch h hpath
      (fun p hp => hperm.mem_iff.mp (List.mem_append_left _ hp))
      (fun hmem => (List.nodup_append.mp hnodup).2.2 path hmem path (.head _) rfl)
      (fun p hp => hbefore p (List.mem_of_mem_getLast? hp)) hparent (by omega)
      ((hsum fun p => (t.nodeAt p).size).trans hlimits.totalSize)
      ((hsum fun p => (stagedRecords p (t.nodeAt p)).length).trans hlimits.extensions)
    have hassoc : done ++ path :: rest = (done ++ [path]) ++ rest := by simp
    rw [hassoc] at hperm hsorted
    obtain ⟨s', hscan', hprogress'⟩ := ih hperm hsorted hprogress
    refine ⟨s', ?_, hassoc ▸ hprogress'⟩
    rw [List.flatMap_cons, List.foldlM_append, hscan]
    exact hscan'

/-- The root comes first. -/
theorem scanEntry_root (hepoch : epoch < 2 ^ 33) :
    ∃ s, scanPackageEntry decoders epoch gnu forbidden (Scan.start ())
        (some (stagedMain epoch [] .directory)) = .ok s ∧ Progress decoders t [] s := by
  have hnames : ∀ name ∈ archiveRoot :: [], PortableName name := by
    intro name hname
    rw [List.mem_singleton.mp hname]
    exact portableName_archiveRoot
  have hfits : Fits [] .directory :=
    ⟨hnames, nofun, nofun, by decide, by decide⟩
  have hreads := hfits.reads hepoch
  have hkind : StagedNode.directory.memberKind = 0x35 := rfl
  have hsize : StagedNode.directory.size = 0 := rfl
  have haccount := @account_staged epoch gnu .directory (⟨0, 0⟩) nofun (by decide) (by decide)
  have hpath : memberPath none (stagedMain epoch [] .directory) = memberName [] .directory := by
    rw [memberPath, hreads.path]
    decide
  have hcanonical : validateCanonicalArchivePath (memberName [] .directory) 0x35 archiveRoot =
      .ok () := @validateCanonicalArchivePath_name _ _ 0x35 hnames
  have hrelative : packageRelativePath (PathBuf.ofBytes (memberName [] .directory)) archiveRoot =
      .ok none := packageRelativePath_name hnames
  have hverify := hfits.verifyHeader_fixed hepoch rfl
  have hmode : StagedNode.directory.memberMode = 0o755 := rfl
  have hroot : (compilerArchiveContract epoch gnu).archiveRoot = archiveRoot := rfl
  have hepochs : (compilerArchiveContract epoch gnu).sourceDateEpoch = epoch := rfl
  have hmain : (stagedMain epoch [] .directory).size = 0 := rfl
  rw [hmode] at hverify
  rw [hkind, hsize] at haccount
  refine ⟨{ Scan.start () with budget := ⟨1, 0⟩, logicalIndex := 1 }, ?_, ?_⟩
  · rw [scanPackageEntry, scanEntry, require_some]
    simp only [bind, Except.bind, hreads.strings, hreads.entryType, hkind]
    rw [check_true (by decide)]
    simp only
    rw [if_neg (by decide), scanLogical, hreads.size]
    simp only [require_some, bind, Except.bind, hmain, hsize, decide_true, hreads.entryType, hkind,
      Scan.start]
    rw [check_true rfl]
    simp only [haccount]
    rw [check_true (by decide)]
    simp only [hpath, hroot, hcanonical, hrelative, if_true]
    rw [check_true (by decide)]
    simp only [hepochs, hverify]
    rfl
  · exact ⟨rfl, fun key hkey => absurd hkey BTreeSet.notMem_new,
      fun dir hdir => BTreeSet.mem_insert.mpr (.inr (hdir.resolve_right fun hmem =>
        absurd hmem.1 List.not_mem_nil)), rfl, rfl, fun _ => rfl, rfl, rfl, rfl, rfl⟩

/-! ### The three walks -/

theorem fuel_enough : ∀ p ∈ t.paths, [] <+: p → p.length ≤ ([] : Path).length + t.depth := by
  intro p hp _
  rw [List.length_nil, Nat.zero_add]
  exact StagedTree.length_le_depth hp

/-- The paths in the order in which they are written. -/
def sortedPaths (t : StagedTree) : List Path :=
  sortByKey (fun path => toStringLossy (pathText path)) (collectPaths t)

theorem sortedPaths_perm (t : StagedTree) : (sortedPaths t).Perm t.paths := by
  refine (sortByKey_perm _ _).trans ?_
  refine (List.perm_ext_iff_of_nodup (StagedTree.nodup_walk fuel_enough) t.nodup_paths).mpr ?_
  intro p
  rw [StagedTree.mem_walk fuel_enough]
  exact ⟨fun h => h.1, fun h => ⟨h, List.nil_prefix, fun hnil =>
    StagedTree.ne_nil_of_mem h hnil.symm, fun _ _ _ => rfl⟩⟩

theorem Packable.pathText_inj (h : Packable foldName t) {p q : Path} (hp : p ∈ t.paths)
    (hq : q ∈ t.paths) (heq : pathText p = pathText q) : p = q :=
  Toolchain.pathText_inj (fun name hname => h.names hp name (.tail _ hname))
    (fun name hname => h.names hq name (.tail _ hname)) (StagedTree.ne_nil_of_mem hp)
    (StagedTree.ne_nil_of_mem hq) heq

theorem Packable.toStringLossy_pathText (h : Packable foldName t) {p : Path} (hp : p ∈ t.paths) :
    toStringLossy (pathText p) = pathText p :=
  Toolchain.toStringLossy_pathText fun name hname => (h.names hp name (.tail _ hname)).utf8

theorem Packable.sortedPaths_increasing (h : Packable foldName t) :
    (sortedPaths t).Pairwise fun p q => pathText p < pathText q := by
  have hperm := sortedPaths_perm t
  have hle : (sortedPaths t).Pairwise fun p q =>
      toStringLossy (pathText p) ≤ toStringLossy (pathText q) := sortByKey_sorted _ _
  have hnodup : (sortedPaths t).Nodup := hperm.nodup_iff.mpr t.nodup_paths
  refine (hle.and hnodup).imp_of_mem fun {p q} hp hq hpq => ?_
  have hp := hperm.mem_iff.mp hp
  have hq := hperm.mem_iff.mp hq
  rw [h.toStringLossy_pathText hp, h.toStringLossy_pathText hq] at hpq
  exact lt_of_le_of_ne hpq.1 fun heq => hpq.2 (h.pathText_inj hp hq heq)

theorem mapM_appendEntry (h : Packable foldName t) (hlimits : WithinLimits gnu t)
    (hepoch : epoch < 2 ^ 33) {paths : List Path} (hpaths : ∀ p ∈ paths, p ∈ t.paths) :
    ∃ members, paths.mapM (appendEntry t epoch archiveRoot) = .ok members ∧
      Ustar.Spells members.flatten (paths.flatMap fun p => stagedEntries epoch p (t.nodeAt p)) := by
  induction paths with
  | nil => exact ⟨[], rfl, Ustar.spells_nil⟩
  | cons p paths ih =>
    have hp := hpaths p (.head _)
    have hfits := h.fits hlimits hp
    have hmax : maxPaxExtensionBytes < 2 ^ 33 := by decide
    obtain ⟨bytes, hbytes, hspells⟩ := appendEntry_spells hfits.names (Packable.lstat_nodeAt hp)
      (fun hnil => absurd hnil (StagedTree.ne_nil_of_mem hp)) hfits.plain hfits.targetUtf8 hepoch
      hfits.size (lt_of_le_of_lt hfits.extension hmax)
    obtain ⟨members, hmembers, hrest⟩ := ih fun q hq => hpaths q (.tail _ hq)
    refine ⟨bytes :: members, ?_, ?_⟩
    · rw [List.mapM_cons, hbytes, hmembers]
      rfl
    · rw [List.flatten_cons, List.flatMap_cons]
      exact Ustar.spells_append hspells hrest

theorem stagedEntries_root (epoch : ℕ) : (stagedEntries epoch [] .directory).map
    (fun e => some (rawEntry e)) = [some (stagedMain epoch [] .directory)] := by
  have hnil : paxRecords (memberName [] .directory) StagedNode.directory.memberKind
      StagedNode.directory.memberTarget = [] := by decide
  rw [stagedEntries, memberEntries, if_pos hnil]
  rfl

/-- **The writer writes the sorted members**, and zeros up to a whole record. -/
theorem writePayloadArchive_ok (h : Packable foldName t) (hlimits : WithinLimits gnu t)
    (hepoch : epoch < 2 ^ 33) :
    ∃ written, writePayloadArchive foldName t epoch archiveRoot =
        .ok (written ++ archiveEnd written.length) ∧
      Ustar.Spells written (stagedEntries epoch [] .directory ++
        (sortedPaths t).flatMap fun p => stagedEntries epoch p (t.nodeAt p)) := by
  have hnames : ∀ name ∈ archiveRoot :: [], PortableName name := by
    intro name hname
    rw [List.mem_singleton.mp hname]
    exact portableName_archiveRoot
  have hroot : PathBuf.ofBytes archiveRoot = relativePath [archiveRoot] := by decide
  have hkey : (payloadCasefoldPathKey foldName (relativePath [archiveRoot])).isNone = false := by
    have hportable : [archiveRoot].all portableName = true := by decide
    rw [payloadCasefoldPathKey_relativePath, if_pos ⟨by simp, hportable⟩]
    rfl
  obtain ⟨root, hbytes, hspells⟩ := @appendEntry_spells t epoch [] .directory hnames rfl
    (fun _ => rfl) nofun (by decide) hepoch (by decide)
    (by decide)
  obtain ⟨members, hmembers, hrest⟩ := mapM_appendEntry h hlimits hepoch fun p hp =>
    (sortedPaths_perm t).mem_iff.mp hp
  refine ⟨root ++ members.flatten, ?_, Ustar.spells_append hspells hrest⟩
  rw [sortedPaths] at hmembers
  rw [writePayloadArchive]
  simp only [hroot, hkey, ne_eq, not_true_eq_false, Bool.false_eq_true, or_self, if_false, hbytes,
    hmembers, bind, Except.bind]
  rfl

theorem treeEntry_ok (h : Packable foldName t) {sha256 : Bytes → Sha256Digest} {p : Path}
    (hp : p ∈ t.paths) : treeEntry sha256 t p = .ok (stagedEntry sha256 p (t.nodeAt p)) := by
  have hnode := Packable.lstat_nodeAt hp
  have hutf8 : p.all isUtf8 = true := List.all_eq_true.mpr fun name hname =>
    (h.names hp name (.tail _ hname)).utf8
  have hpath : portableRelativePath p = .ok (pathText p) := if_pos hutf8
  rw [treeEntry, hpath, hnode]
  cases hat : t.nodeAt p with
  | directory => rfl
  | symlink target =>
    rw [hat] at hnode
    have hutf8 := validateLinkTarget_utf8 (h.links p hp target hnode).2.2.2
    simp only [bind, Except.bind, hutf8, if_true]
    rfl
  | file mode contents => rfl
  | special =>
    rw [hat] at hnode
    exact absurd hnode (h.plain p hp)

/-- What the inventory leaves out. -/
def isExcluded (path : Path) : Bool :=
  [[manifestFile]].any fun excluded => excluded.isPrefixOf path

theorem isExcluded_eq_false {q : Path} : isExcluded q = false ↔ ¬ [manifestFile] <+: q := by
  have hany : isExcluded q = [manifestFile].isPrefixOf q := by simp [isExcluded]
  rw [hany, ← Bool.not_eq_true, List.isPrefixOf_iff_prefix]

/-- The inventory visits everything but the manifest. -/
theorem Packable.walk_perm (h : Packable foldName t) :
    (t.walk isExcluded t.depth []).Perm ((sortedPaths t).filter (· ≠ [manifestFile])) := by
  obtain ⟨mode, contents, hfile⟩ := h.manifest
  -- The manifest is a file, so nothing stands below it.
  have hbelow : ∀ p ∈ t.paths, [manifestFile] <+: p → p = [manifestFile] := by
    intro p hp hpre
    by_contra hne
    have hdir := StagedTree.lstat_of_strict_prefix hp hpre (Ne.symm hne)
    rw [hfile] at hdir
    cases hdir
  refine (List.perm_ext_iff_of_nodup (StagedTree.nodup_walk fuel_enough) ?_).mpr fun p => ?_
  · exact ((sortedPaths_perm t).nodup_iff.mpr t.nodup_paths).filter _
  rw [StagedTree.mem_walk fuel_enough, List.mem_filter, (sortedPaths_perm t).mem_iff,
    decide_eq_true_eq]
  constructor
  · rintro ⟨hp, -, -, hall⟩
    refine ⟨hp, ?_⟩
    rintro rfl
    exact isExcluded_eq_false.mp (hall [manifestFile] (List.prefix_refl _) (by decide))
      (List.prefix_refl _)
  · rintro ⟨hp, hne⟩
    exact ⟨hp, List.nil_prefix, fun hnil => StagedTree.ne_nil_of_mem hp hnil.symm,
      fun q hq _ => isExcluded_eq_false.mpr fun hpre => hne (hbelow p hp (hpre.trans hq))⟩

theorem Packable.mapM_treeEntry (h : Packable foldName t) {sha256 : Bytes → Sha256Digest}
    {paths : List Path} (hpaths : ∀ p ∈ paths, p ∈ t.paths) :
    paths.mapM (treeEntry sha256 t) =
      .ok (paths.map fun p => stagedEntry sha256 p (t.nodeAt p)) := by
  induction paths with
  | nil => rfl
  | cons p paths ih =>
    rw [List.mapM_cons, treeEntry_ok h (hpaths p (.head _)), ih fun q hq => hpaths q (.tail _ hq)]
    rfl

theorem stagedEntry_path {sha256 : Bytes → Sha256Digest} (p : Path) (node : StagedNode) :
    (stagedEntry sha256 p node).path = pathText p := by
  cases node <;> rfl

/-- Sorting the inventory gives the order in which the members are written. -/
theorem Packable.sort_entries (h : Packable foldName t) {sha256 : Bytes → Sha256Digest} :
    sortByKey ManifestEntry.path
      ((t.walk isExcluded t.depth []).map fun p => stagedEntry sha256 p (t.nodeAt p)) =
        ((sortedPaths t).filter (· ≠ [manifestFile])).map
          fun p => stagedEntry sha256 p (t.nodeAt p) := by
  have hpaths : ∀ p ∈ (sortedPaths t).filter (· ≠ [manifestFile]), p ∈ t.paths := fun p hp =>
    (sortedPaths_perm t).mem_iff.mp (List.mem_of_mem_filter hp)
  refine @List.Perm.eq_of_pairwise _ (fun a b : ManifestEntry => a.path ≤ b.path) _ _ ?_ ?_ ?_
    ((sortByKey_perm _ _).trans (h.walk_perm.map _))
  · intro a b ha hb hab hba
    obtain ⟨p, hp, rfl⟩ := List.mem_map.mp ((sortByKey_perm _ _).mem_iff.mp ha)
    obtain ⟨q, hq, rfl⟩ := List.mem_map.mp hb
    rw [stagedEntry_path, stagedEntry_path] at hab hba
    rw [h.pathText_inj (hpaths p (h.walk_perm.mem_iff.mp hp)) (hpaths q hq) (le_antisymm hab hba)]
  · exact sortByKey_sorted _ _
  · rw [List.pairwise_map]
    refine (h.sortedPaths_increasing.filter _).imp fun {p q} hpq => ?_
    rw [stagedEntry_path, stagedEntry_path]
    exact le_of_lt hpq

/-- **The inventory is what the scanner records.** -/
theorem toolchainTreeInventory_ok (h : Packable foldName t) (sha256 : Bytes → Sha256Digest) :
    toolchainTreeInventory sha256 t =
      .ok (toolchainInventorySha256 sha256 (((sortedPaths t).filter (· ≠ [manifestFile])).map
          fun p => stagedEntry sha256 p (t.nodeAt p)),
        ((sortedPaths t).filter (· ≠ [manifestFile])).map
          fun p => stagedEntry sha256 p (t.nodeAt p)) := by
  have hexcluded : portableRelativePath [manifestFile] = .ok manifestFile := by
    have hutf8 : [manifestFile].all isUtf8 = true := by decide
    rw [portableRelativePath, if_pos hutf8, pathText_singleton]
  have hwalk : ∀ p ∈ t.walk isExcluded t.depth [], p ∈ t.paths := fun p hp =>
    ((StagedTree.mem_walk fuel_enough).mp hp).1
  have hmapM := @Packable.mapM_treeEntry _ _ h sha256 _ hwalk
  have hforM : ([[manifestFile]] : List Path).forM
      (fun excluded => (portableRelativePath excluded).map fun _ => ()) = .ok () := by
    rw [List.forM_eq_forM, List.forM_cons, hexcluded]
    rfl
  have hskip : (fun path => [[manifestFile]].any fun excluded => excluded.isPrefixOf path) =
      isExcluded := rfl
  rw [toolchainTreeInventory, toolchainTreeInventoryExcluding, hforM]
  simp only [hskip, hmapM, bind, Except.bind, h.sort_entries]
  rfl

/-! ### The round trip -/

theorem validatePayloadArchiveContract_ok (decoders : Decoders) :
    validatePayloadArchiveContract decoders (compilerArchiveContract epoch gnu) = .ok () := by
  have hroot : PathBuf.ofBytes archiveRoot = relativePath [archiveRoot] := by decide
  have harchive : (compilerArchiveContract epoch gnu).archiveRoot = archiveRoot := rfl
  have hfile : (compilerArchiveContract epoch gnu).manifestFile = manifestFile := rfl
  have hkey : ∀ name, portableName name = true →
      (payloadCasefoldPathKey decoders.foldName (relativePath [name])).isSome = true := by
    intro name hname
    rw [payloadCasefoldPathKey_relativePath, if_pos ⟨by simp, by simp [hname]⟩]
    rfl
  have hnames : (relativePath [manifestFile]).names?.isSome = true := rfl
  rw [validatePayloadArchiveContract]
  simp only [harchive, hroot, hfile, ofBytes_manifestFile]
  rw [check_true (by simp [compilerArchiveContract]), check_true (hkey archiveRoot (by decide)),
    check_true (by rw [hnames]; rfl),
    check_true (hkey manifestFile (by decide))]
  rfl

/-- The zeros after the members are what the scanner allows. -/
theorem verifyArchiveTerminal_archiveEnd {written : ℕ} (h : written % 512 = 0) :
    verifyArchiveTerminal (some ((archiveEnd written).drop 512)) = .ok () ∧
      512 ≤ (archiveEnd written).length ∧ (archiveEnd written).all (· = 0) = true := by
  have hall : (archiveEnd written).all (· = 0) = true := by
    simp only [archiveEnd, List.all_append, List.all_replicate]
    simp
  have hlength : (archiveEnd written).length =
      1024 + (10240 - (written + 1024) % 10240) % 10240 := by
    rw [archiveEnd, List.length_append, List.length_replicate, List.length_replicate]
  refine ⟨?_, hlength ▸ by omega, hall⟩
  have hdrop : ((archiveEnd written).drop 512).all (· = 0) = true := by
    rw [List.all_eq_true] at hall ⊢
    exact fun b hb => hall b (List.mem_of_mem_drop hb)
  have hshort : ((archiveEnd written).drop 512).length ≤ 20 * 512 := by
    rw [List.length_drop, hlength]
    omega
  rw [verifyArchiveTerminal, require_some]
  simp only [bind, Except.bind, hdrop, decide_eq_true hshort, Bool.and_self]
  rfl

end

/-- **A package is read back as the tree it was made of.** What the writer writes for a tree that
staging can produce is accepted by the scanner, and the entries and the digest that the scanner
reports are those of the tree's inventory. -/
theorem package_round_trip (decoders : Decoders) (xz : Bytes → Bytes)
    (hdecode : ∀ bytes, decoders.decode (xz bytes) = some (rawStream bytes)) {t : StagedTree}
    (hpack : Packable decoders.foldName t) (hlimits : WithinLimits gnu t)
    (hpermitted : Permitted forbidden t) (hepoch : epoch < 2 ^ 33)
    (hxz : ∀ bytes, writePayloadArchive decoders.foldName t epoch archiveRoot = .ok bytes →
      (xz bytes).length ≤ maxArchiveBytes) :
    ∃ bytes tree digest entries,
      writePayloadArchive decoders.foldName t epoch archiveRoot = .ok bytes ∧
      scanArchive decoders (verifyingConsumer decoders.sha256) (compilerArchiveContract epoch gnu)
        forbidden (xz bytes) () = .ok (tree, ()) ∧
      toolchainTreeInventory decoders.sha256 t = .ok (digest, entries) ∧
      tree.entries = entries ∧ tree.treeSha256 = digest := by
  obtain ⟨written, hwrite, hspells⟩ := writePayloadArchive_ok hpack hlimits hepoch
  obtain ⟨hterminal, hlong, hzeros⟩ := verifyArchiveTerminal_archiveEnd hspells.blocks
  have hstream : rawStream (written ++ archiveEnd written.length) =
      ⟨[some (stagedMain epoch [] .directory)] ++ (sortedPaths t).flatMap (scanned epoch t),
        some ((archiveEnd written.length).drop 512), true⟩ := by
    have hread := Ustar.readStream_spells hspells hzeros hlong
    rw [rawStream, hread, ← stagedEntries_root]
    simp only [List.map_append, List.map_map, List.map_flatMap]
    rfl
  obtain ⟨s₀, hroot, hstart⟩ := @scanEntry_root t _ gnu forbidden decoders hepoch
  obtain ⟨s, hscan, hprogress⟩ := @scanEntries_members _ _ _ _ _ _ hpack hlimits hpermitted hepoch
    [] (sortedPaths t) (sortedPaths_perm t) hpack.sortedPaths_increasing hstart
  rw [List.nil_append] at hprogress
  obtain ⟨mode, contents, hfile⟩ := hpack.manifest
  have hmanifest : s.embeddedManifest = some contents := by
    have hmem : [manifestFile] ∈ sortedPaths t := (sortedPaths_perm t).mem_iff.mpr
      (StagedTree.mem_paths.mpr ⟨by simp, _, hfile⟩)
    rw [hprogress.manifest, if_pos hmem, nodeAt_eq hfile]
    rfl
  refine ⟨_, ⟨contents, s.entries, toolchainInventorySha256 decoders.sha256 s.entries,
    s.toolchainTools⟩, _, _, hwrite, ?_, toolchainTreeInventory_ok hpack decoders.sha256,
    hprogress.entries, congrArg (toolchainInventorySha256 decoders.sha256) hprogress.entries⟩
  have hfold : ([some (stagedMain epoch [] .directory)] ++ (sortedPaths t).flatMap
      (scanned epoch t)).foldlM (scanEntry decoders (verifyingConsumer decoders.sha256)
        (compilerArchiveContract epoch gnu) forbidden) (Scan.start ()) = .ok s := by
    rw [List.foldlM_append, List.foldlM_cons]
    have hbind : ∀ (x : Contract (Scan Unit)) (s' : Scan Unit)
        (f : Scan Unit → Contract (Scan Unit)), x = .ok s' → x >>= f = f s' := by
      rintro x s' f rfl
      rfl
    rw [hbind _ _ _ hroot]
    exact hscan
  rw [scanArchive, validatePayloadArchiveContract_ok, check_true (decide_eq_true (hxz _ hwrite)),
    hdecode, hstream]
  simp only [require_some, bind, Except.bind, hfold, hprogress.pendingPax, Option.isNone_none]
  rw [check_true rfl]
  simp only [hterminal]
  rw [check_true rfl]
  simp only [hmanifest, require_some]
  rfl

/-- A directory `a` with an executable in it, a file `a.h` beside it, a link to the executable, and
the manifest. -/
def headerNodes : BTreeMap Path StagedNode :=
  ((((BTreeMap.new.insert [ascii "a"] .directory).insert [ascii "a", ascii "f"]
    (.file 0o700 (ascii "x"))).insert [ascii "a.h"] (.file 0o600 [])).insert [ascii "l"]
      (.symlink (ascii "a/f"))).insert [manifestFile] (.file 0o644 (ascii "m"))

/-- The tree of these entries. -/
def headerTree : StagedTree where
  nodes := headerNodes
  rooted := by decide
  closed := by
    have hall : ∀ p ∈ headerNodes.keys, p.dropLast = [] ∨
        headerNodes.get p.dropLast = some .directory := by decide
    intro dir name h
    simpa using hall _ h

/-- Plain streams, ASCII names and a digest that is always the same. -/
def plainReader : Decoders where
  decode := some ∘ rawStream
  foldName := List.map asciiLower
  sha256 := fun _ => ascii "0"

theorem headerTree_packable : Packable plainReader.foldName headerTree := by
  have hlinks : ∀ p ∈ headerTree.paths, ∀ target ∈ (headerTree.lstat p).map
      StagedNode.memberTarget, target ≠ [] → 0 ∉ target ∧ 0x5c ∉ target ∧
        validateLinkTarget p target = .ok () := by decide
  have hempty : ∀ p ∈ headerTree.paths, headerTree.lstat p ≠ some (.symlink []) := by
    decide
  refine ⟨by decide, by decide, by decide, fun p hp target htarget => ?_,
    ⟨0o644, ascii "m", by decide⟩⟩
  have hne : target ≠ [] := fun hnil => hempty p hp (hnil ▸ htarget)
  exact ⟨hne, hlinks p hp target (by rw [htarget]; rfl) hne⟩

theorem package_round_trip_header :
    ∃ bytes tree digest entries,
      writePayloadArchive plainReader.foldName headerTree 0 archiveRoot = .ok bytes ∧
      scanArchive plainReader (verifyingConsumer plainReader.sha256)
        (compilerArchiveContract 0 true) [] bytes () = .ok (tree, ()) ∧
      toolchainTreeInventory plainReader.sha256 headerTree = .ok (digest, entries) ∧
      tree.entries = entries ∧ tree.treeSha256 = digest := by
  refine package_round_trip plainReader id (fun bytes => rfl) headerTree_packable
    ⟨by decide, by decide, by decide, by decide, by decide,
      by decide +kernel, fun _ => by decide +kernel⟩
    ⟨rfl, fun p _ _ mode contents _ => rfl⟩ (by decide) fun bytes hbytes => ?_
  have hlength : (writePayloadArchive plainReader.foldName headerTree 0 archiveRoot).toOption.map
      List.length = some 10240 := by decide +kernel
  rw [hbytes] at hlength
  have hlength : bytes.length = 10240 := Option.some.inj hlength
  rw [id, hlength]
  decide

end Toolchain

end ArosTools
