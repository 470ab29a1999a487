import ArosTools.Bytes.Ustar
import ArosTools.Program.Except
import ArosTools.Toolchain.PayloadArchive

/-!
# The members of an accepted archive

`readEntries` reads the members of a raw stream, and `Scanned` says what the scanner knows after
each entry: the members so far are in order, collide with none, have their parents before them and
have checked targets.

* `scanEntry_scanned` — one entry; `scanArchive_scanned` — the whole scan;
* `scan_archive_tree` — what an accepted archive looks like, and when its links stay inside.
-/

namespace ArosTools

namespace Toolchain

/-! ### Members -/

/-- What a member is. -/
inductive MemberKind where
  | directory
  | symlink (target : Bytes)
  | file
  deriving DecidableEq, Repr

/-- A member of an archive: its names below the root and what it is. -/
structure Member where
  path : Path
  kind : MemberKind
  deriving DecidableEq, Repr

/-- The text of a member's path. -/
def Member.text (m : Member) : Bytes := memberText m.path

/-- What an entry is, by its type. -/
def memberKind (pax : Option PaxOverrides) (entry : RawEntry) : MemberKind :=
  if entry.header.entryType = 0x35 then .directory
  else if entry.header.entryType = 0x32 then .symlink ((linkTarget pax entry).getD [])
  else .file

/-- The member an entry stands for; none for the archive root. -/
def memberOf (contract : PayloadArchiveContract) (pax : Option PaxOverrides) (entry : RawEntry) :
    Option Member :=
  match packageRelativePath (PathBuf.ofBytes (memberPath pax entry)) contract.archiveRoot with
  | .ok (some relative) => some ⟨relative, memberKind pax entry⟩
  | _ => none

/-- The members read so far, and the extension waiting for the next one. -/
structure Reading where
  pax : Option PaxOverrides
  members : List Member

/-- Reads one more entry. -/
def readMember (contract : PayloadArchiveContract) (r : Reading) (entry : Option RawEntry) :
    Reading :=
  match entry with
  | none => r
  | some entry =>
    if entry.header.entryType = 0x78 then
      { r with pax := entry.data.bind fun bytes => (parsePaxOverrides bytes).toOption }
    else ⟨none, r.members ++ (memberOf contract r.pax entry).toList⟩

/-- The members of a stream. -/
def membersOf (contract : PayloadArchiveContract) (entries : List (Option RawEntry)) :
    List Member :=
  (entries.foldl (readMember contract) ⟨none, []⟩).members

/-! ### Checks that succeed -/

theorem readExactEntry_ok {entry : RawEntry} {size : ℕ} {bytes : Bytes}
    (h : readExactEntry entry size = .ok bytes) : entry.data = some bytes := by
  obtain ⟨_, -, h⟩ := Except.bind_ok h
  obtain ⟨data, hdata, h⟩ := Except.bind_ok h
  obtain ⟨_, -, ⟨⟩⟩ := Except.bind_ok h
  exact require_ok hdata

/-! ### What the scanner knows -/

section

variable {κ : Type} {decoders : Decoders} {consumer : ArchiveConsumer κ}
  {contract : PayloadArchiveContract} {forbidden : List Bytes}

/-- The collision key of a member. -/
def Member.key (foldName : Bytes → Bytes) (m : Member) : Option Bytes :=
  payloadCasefoldPathKey foldName (relativePath m.path)

/-- What holds of the members read so far. -/
structure Shaped (foldName : Bytes → Bytes) (members : List Member) : Prop where
  /-- The paths are strictly increasing. -/
  increasing : (members.map Member.text).Pairwise (· < ·)
  /-- Every path is portable. -/
  portable : ∀ m ∈ members, (m.key foldName).isSome
  /-- No two paths collide. -/
  distinct : (members.map (Member.key foldName)).Nodup
  /-- The parent of every member is the root or a directory before it. -/
  parents : ∀ before m after, members = before ++ m :: after → m.path.dropLast = [] ∨
    ∃ m' ∈ before, m'.path = m.path.dropLast ∧ m'.kind = .directory
  /-- Every link target has passed its check. -/
  links : ∀ m ∈ members, ∀ target, m.kind = .symlink target →
    m.path ≠ [] ∧ validateLinkTarget m.path target = .ok ()

/-- The member is the embedded manifest, which the inventory leaves out. -/
def Member.isManifest (contract : PayloadArchiveContract) (m : Member) : Bool :=
  m.kind = .file && relativePath m.path = PathBuf.ofBytes contract.manifestFile

/-- The path, the kind and the target of a member, as the inventory has them. -/
def Member.listed (m : Member) : Bytes × EntryKind × Option Bytes :=
  match m.kind with
  | .directory => (m.text, .directory, none)
  | .symlink target => (m.text, .symlink, some target)
  | .file => (m.text, .file, none)

/-- The path, the kind and the target of an inventory entry. -/
def ManifestEntry.listed (e : ManifestEntry) : Bytes × EntryKind × Option Bytes :=
  (e.path, e.kind, e.target)

/-- What the variables of the scanner record of the members. -/
structure Recorded (foldName : Bytes → Bytes) (contract : PayloadArchiveContract) (s : Scan κ)
    (r : Reading) : Prop where
  pax : s.pendingPax = r.pax
  entries : s.entries.map ManifestEntry.listed =
    (r.members.filter fun m => !m.isManifest contract).map Member.listed
  previous : s.previous = r.members.getLast?.map Member.text
  seen : ∀ k, k ∈ s.seen ↔ some k ∈ r.members.map (Member.key foldName)
  directories : ∀ p, p ∈ s.directories ↔ p = [] ∨ ∃ m ∈ r.members, m.path = p ∧ m.kind = .directory

/-- What the scanner knows after some entries. -/
def Scanned (foldName : Bytes → Bytes) (contract : PayloadArchiveContract) (s : Scan κ)
    (r : Reading) : Prop :=
  Shaped foldName r.members ∧ Recorded foldName contract s r

theorem Scanned.start (foldName : Bytes → Bytes) (state : κ) :
    Scanned foldName contract (Scan.start state) ⟨none, []⟩ := by
  refine ⟨⟨.nil, nofun, .nil, fun before m after h => ?_, nofun⟩,
    ⟨rfl, rfl, rfl, fun k => ?_, fun p => ?_⟩⟩
  · exact absurd h.symm (by simp)
  · simp [Scan.start]
  · simp [Scan.start]

/-- A member that passed the checks of its place may follow the members before it. -/
theorem Shaped.snoc {foldName : Bytes → Bytes} {members : List Member} {m : Member} {key : Bytes}
    (h : Shaped foldName members)
    (hprevious : ∀ text, members.getLast?.map Member.text = some text → text < m.text)
    (hkey : m.key foldName = some key) (hnew : some key ∉ members.map (Member.key foldName))
    (hparent : m.path.dropLast = [] ∨
      ∃ m' ∈ members, m'.path = m.path.dropLast ∧ m'.kind = .directory)
    (hlink : ∀ target, m.kind = .symlink target →
      m.path ≠ [] ∧ validateLinkTarget m.path target = .ok ()) :
    Shaped foldName (members ++ [m]) := by
  refine ⟨?_, ?_, ?_, ?_, ?_⟩
  · rw [List.map_append, List.map_singleton, List.pairwise_append]
    refine ⟨h.increasing, List.pairwise_singleton _ _, fun a ha b hb => ?_⟩
    rw [List.mem_singleton.mp hb]
    -- every text so far is the last one or less
    rcases List.eq_nil_or_concat' members with rfl | ⟨init, last, rfl⟩
    · cases ha
    · have hlast : last.text < m.text := hprevious _ (by simp)
      rw [List.map_append, List.map_singleton] at ha
      have hincreasing := h.increasing
      rw [List.map_append, List.map_singleton, List.pairwise_append] at hincreasing
      rcases List.mem_append.mp ha with ha | ha
      · exact (hincreasing.2.2 a ha _ (List.mem_singleton_self _)).trans hlast
      · rw [List.mem_singleton.mp ha]
        exact hlast
  · intro m' hm'
    rcases List.mem_append.mp hm' with hm' | hm'
    · exact h.portable m' hm'
    · rw [List.mem_singleton.mp hm', hkey]
      rfl
  · rw [List.map_append, List.map_singleton, hkey, List.nodup_append]
    refine ⟨h.distinct, List.nodup_singleton _, fun a ha b hb hab => hnew ?_⟩
    rw [← List.mem_singleton.mp hb, ← hab]
    exact ha
  · intro before m' after hsplit
    rcases List.eq_nil_or_concat' after with rfl | ⟨init, last, rfl⟩
    · obtain ⟨rfl, heq⟩ := List.append_inj' hsplit rfl
      cases heq
      exact hparent
    · rw [← List.cons_append, ← List.append_assoc] at hsplit
      obtain ⟨rfl, -⟩ := List.append_inj' hsplit rfl
      exact h.parents before m' init rfl
  · intro m' hm' target htarget
    rcases List.mem_append.mp hm' with hm' | hm'
    · exact h.links m' hm' target htarget
    · rw [List.mem_singleton.mp hm'] at htarget ⊢
      exact hlink target htarget

/-! ### One member -/

variable {s s' : Scan κ} {relative : Path} {text : Bytes} {size : ℕ} {pax : Option PaxOverrides}
  {entry : RawEntry}

/-- What a member of the given kind does to the variables that record members. -/
structure Adds (contract : PayloadArchiveContract) (s : Scan κ) (m : Member) (s' : Scan κ) :
    Prop where
  pax : s'.pendingPax = s.pendingPax
  previous : s'.previous = s.previous
  seen : s'.seen = s.seen
  directories : s'.directories =
    if m.kind = .directory then s.directories.insert m.path else s.directories
  entries : s'.entries.map ManifestEntry.listed = s.entries.map ManifestEntry.listed ++
    ([m].filter fun m => !m.isManifest contract).map Member.listed

theorem scanDirectory_ok
    (h : scanDirectory consumer contract s relative (memberText relative) entry = .ok s') :
    Adds contract s ⟨relative, .directory⟩ s' := by
  obtain ⟨_, -, h⟩ := Except.bind_ok h
  obtain ⟨_, -, ⟨⟩⟩ := Except.bind_ok h
  refine ⟨rfl, rfl, rfl, rfl, ?_⟩
  simp [Member.isManifest, Member.listed, ManifestEntry.listed, Member.text]

theorem scanSymlink_ok
    (h : scanSymlink consumer contract s relative (memberText relative) pax entry = .ok s') :
    Adds contract s ⟨relative, .symlink ((linkTarget pax entry).getD [])⟩ s' ∧
      validateLinkTarget relative ((linkTarget pax entry).getD []) = .ok () := by
  obtain ⟨_, -, h⟩ := Except.bind_ok h
  obtain ⟨target, htarget, h⟩ := Except.bind_ok h
  obtain ⟨_, -, h⟩ := Except.bind_ok h
  obtain ⟨_, -, h⟩ := Except.bind_ok h
  obtain ⟨_, hvalid, h⟩ := Except.bind_ok h
  obtain ⟨_, -, ⟨⟩⟩ := Except.bind_ok h
  rw [require_ok htarget]
  refine ⟨⟨rfl, rfl, rfl, rfl, ?_⟩, hvalid⟩
  simp [Member.isManifest, Member.listed, ManifestEntry.listed, Member.text]

theorem scanRegular_ok
    (h : scanRegular consumer contract forbidden s relative (memberText relative) size entry =
      .ok s') : Adds contract s ⟨relative, .file⟩ s' := by
  obtain ⟨_, -, h⟩ := Except.bind_ok h
  by_cases hmanifest : relativePath relative = PathBuf.ofBytes contract.manifestFile
  · rw [if_pos hmanifest] at h
    obtain ⟨_, -, h⟩ := Except.bind_ok h
    obtain ⟨⟨bytes, state⟩, -, ⟨⟩⟩ := Except.bind_ok h
    refine ⟨rfl, rfl, rfl, rfl, ?_⟩
    simp [Member.isManifest, hmanifest]
  · rw [if_neg hmanifest] at h
    obtain ⟨mode, -, h⟩ := Except.bind_ok h
    dsimp only at h
    by_cases htools : (contract.captureToolchainTools &&
        decide (relativePath relative = PathBuf.ofBytes toolchainToolsFile)) = true
    · rw [if_pos htools] at h
      obtain ⟨_, -, h⟩ := Except.bind_ok h
      obtain ⟨bytes, -, h⟩ := Except.bind_ok h
      obtain ⟨⟨digest, state⟩, -, ⟨⟩⟩ := Except.bind_ok h
      refine ⟨rfl, rfl, rfl, rfl, ?_⟩
      simp [Member.isManifest, hmanifest, Member.listed, ManifestEntry.listed, Member.text]
    · rw [if_neg htools] at h
      obtain ⟨⟨digest, state⟩, -, ⟨⟩⟩ := Except.bind_ok h
      refine ⟨rfl, rfl, rfl, rfl, ?_⟩
      simp [Member.isManifest, hmanifest, Member.listed, ManifestEntry.listed, Member.text]

theorem Recorded.snoc {foldName : Bytes → Bytes} {members : List Member} {m : Member} {key : Bytes}
    {seen : BTreeSet Bytes} {t : Scan κ} (h : Recorded foldName contract s ⟨none, members⟩)
    (hkey : m.key foldName = some key) (hseen : seen = s.seen.insert key)
    (ht : t = { s with previous := some m.text, seen := seen }) (hadds : Adds contract t m s') :
    Recorded foldName contract s' ⟨none, members ++ [m]⟩ := by
  subst hseen ht
  refine ⟨hadds.pax.trans h.pax, ?_, ?_, fun k => ?_, fun p => ?_⟩
  · rw [hadds.entries, List.filter_append, List.map_append]
    exact congrArg (· ++ _) h.entries
  · rw [hadds.previous]
    simp
  · rw [hadds.seen, BTreeSet.mem_insert, h.seen]
    simp [hkey]
  · rw [hadds.directories]
    by_cases hdirectory : m.kind = .directory
    · rw [if_pos hdirectory, BTreeSet.mem_insert, h.directories]
      simp only [List.mem_append, List.mem_singleton, or_and_right, exists_or, exists_eq_left,
        hdirectory, and_true, or_assoc, eq_comm (a := m.path)]
    · rw [if_neg hdirectory, h.directories]
      simp only [List.mem_append, List.mem_singleton, or_and_right, exists_or, exists_eq_left,
        hdirectory, and_false, or_false]

/-- **A member that is accepted is in its place.** -/
theorem scanMember_scanned {members : List Member} (hrelative : relative ≠ [])
    (h : Scanned decoders.foldName contract s ⟨none, members⟩)
    (hs : scanMember decoders consumer contract forbidden s relative size pax entry = .ok s') :
    Scanned decoders.foldName contract s'
      ⟨none, members ++ [⟨relative, memberKind pax entry⟩]⟩ := by
  obtain ⟨hshaped, hrecorded⟩ := h
  obtain ⟨_, hordered, hs⟩ := Except.bind_ok hs
  obtain ⟨key, hkey, hs⟩ := Except.bind_ok hs
  obtain ⟨_, hnew, hs⟩ := Except.bind_ok hs
  obtain ⟨_, hparent, hs⟩ := Except.bind_ok hs
  have hordered := check_ok hordered
  have hkey := require_ok hkey
  have hnew : key ∉ s.seen := by simpa using check_ok hnew
  have hparent : relative.dropLast ∈ s.directories := by simpa using check_ok hparent
  rw [hrecorded.previous] at hordered
  rw [hrecorded.seen] at hnew
  rw [hrecorded.directories] at hparent
  have hprevious : ∀ text, members.getLast?.map Member.text = some text →
      text < memberText relative := by
    intro text htext
    rw [htext] at hordered
    simpa using hordered
  dsimp only at hs
  -- the three kinds of members differ in what they record and in the check of a target
  by_cases hdirectory : entry.header.entryType = 0x35
  · rw [if_pos hdirectory] at hs
    have hkind : memberKind pax entry = .directory := if_pos hdirectory
    rw [hkind]
    exact ⟨hshaped.snoc hprevious hkey hnew hparent nofun,
      hrecorded.snoc hkey rfl rfl (scanDirectory_ok hs)⟩
  · rw [if_neg hdirectory] at hs
    by_cases hsymlink : entry.header.entryType = 0x32
    · rw [if_pos hsymlink] at hs
      have hkind : memberKind pax entry = .symlink ((linkTarget pax entry).getD []) := by
        rw [memberKind, if_neg hdirectory, if_pos hsymlink]
      obtain ⟨hadds, hvalid⟩ := scanSymlink_ok hs
      rw [hkind]
      refine ⟨hshaped.snoc hprevious hkey hnew hparent fun target htarget => ?_,
        hrecorded.snoc hkey rfl rfl hadds⟩
      cases htarget
      exact ⟨hrelative, hvalid⟩
    · rw [if_neg hsymlink] at hs
      split_ifs at hs
      have hkind : memberKind pax entry = .file := by
        rw [memberKind, if_neg hdirectory, if_neg hsymlink]
      rw [hkind]
      exact ⟨hshaped.snoc hprevious hkey hnew hparent nofun,
        hrecorded.snoc hkey rfl rfl (scanRegular_ok hs)⟩

/-! ### One entry -/

theorem packageRelativePath_ok {path : PathBuf} {root : Bytes}
    (h : packageRelativePath path root = .ok (some relative)) : relative ≠ [] := by
  obtain ⟨_, -, h⟩ := Except.bind_ok h
  obtain ⟨names, -, h⟩ := Except.bind_ok h
  cases names with
  | nil => cases h
  | cons first rest =>
    obtain ⟨_, -, h⟩ := Except.bind_ok h
    by_cases hrest : rest = []
    · rw [if_pos hrest] at h
      cases h
    · rw [if_neg hrest] at h
      cases h
      exact hrest

/-- The counters of the scanner do not matter to what it knows. -/
theorem Scanned.counted {foldName : Bytes → Bytes} {r : Reading}
    (h : Scanned foldName contract s r) (hentries : s'.entries = s.entries)
    (hprevious : s'.previous = s.previous) (hseen : s'.seen = s.seen)
    (hdirectories : s'.directories = s.directories) :
    Scanned foldName contract s' ⟨s'.pendingPax, r.members⟩ := by
  refine ⟨h.1, rfl, ?_, ?_, ?_, ?_⟩
  · rw [hentries]
    exact h.2.entries
  · rw [hprevious]
    exact h.2.previous
  · rw [hseen]
    exact h.2.seen
  · rw [hdirectories]
    exact h.2.directories

theorem scanPax_scanned {r : Reading} (h : Scanned decoders.foldName contract s r)
    (hs : scanPax s entry = .ok s') :
    Scanned decoders.foldName contract s' { r with
      pax := entry.data.bind fun bytes => (parsePaxOverrides bytes).toOption } := by
  obtain ⟨_, -, hs⟩ := Except.bind_ok hs
  obtain ⟨size, -, hs⟩ := Except.bind_ok hs
  obtain ⟨_, -, hs⟩ := Except.bind_ok hs
  obtain ⟨_, -, hs⟩ := Except.bind_ok hs
  obtain ⟨total, -, hs⟩ := Except.bind_ok hs
  obtain ⟨bytes, hbytes, hs⟩ := Except.bind_ok hs
  obtain ⟨pax, hpax, ⟨⟩⟩ := Except.bind_ok hs
  rw [readExactEntry_ok hbytes, Option.bind_some, hpax]
  exact h.counted rfl rfl rfl rfl

theorem scanLogical_scanned {r : Reading} (h : Scanned decoders.foldName contract s r)
    (hs : scanLogical decoders consumer contract forbidden s entry = .ok s') :
    Scanned decoders.foldName contract s'
      ⟨none, r.members ++ (memberOf contract r.pax entry).toList⟩ := by
  obtain ⟨size, -, hs⟩ := Except.bind_ok hs
  obtain ⟨_, -, hs⟩ := Except.bind_ok hs
  obtain ⟨budget, -, hs⟩ := Except.bind_ok hs
  obtain ⟨_, -, hs⟩ := Except.bind_ok hs
  obtain ⟨_, -, hs⟩ := Except.bind_ok hs
  obtain ⟨member, hmember, hs⟩ := Except.bind_ok hs
  rw [h.2.pax] at hmember hs
  by_cases hroot : s.logicalIndex = 0
  · rw [if_pos hroot] at hs
    obtain ⟨_, hnone, hs⟩ := Except.bind_ok hs
    obtain ⟨_, -, ⟨⟩⟩ := Except.bind_ok hs
    have hnone := check_ok hnone
    cases member with
    | some relative => simp at hnone
    | none =>
      have hno : memberOf contract r.pax entry = none := by rw [memberOf, hmember]
      rw [hno, Option.toList_none, List.append_nil]
      exact h.counted rfl rfl rfl rfl
  · rw [if_neg hroot] at hs
    obtain ⟨index, -, hs⟩ := Except.bind_ok hs
    cases member with
    | none => cases hs
    | some relative =>
      have hsome : memberOf contract r.pax entry = some ⟨relative, memberKind r.pax entry⟩ := by
        rw [memberOf, hmember]
      rw [hsome]
      refine scanMember_scanned (packageRelativePath_ok hmember) ?_ hs
      exact h.counted rfl rfl rfl rfl

/-- **An entry that is accepted keeps what the scanner knows.** -/
theorem scanEntry_scanned {r : Reading} {entry : Option RawEntry}
    (h : Scanned decoders.foldName contract s r)
    (hs : scanEntry decoders consumer contract forbidden s entry = .ok s') :
    Scanned decoders.foldName contract s' (readMember contract r entry) := by
  obtain ⟨e, he, hs⟩ := Except.bind_ok hs
  obtain ⟨_, -, hs⟩ := Except.bind_ok hs
  obtain ⟨_, -, hs⟩ := Except.bind_ok hs
  rw [require_ok he, readMember]
  by_cases hpax : e.header.entryType = 0x78
  · rw [if_pos hpax] at hs ⊢
    exact scanPax_scanned h hs
  · rw [if_neg hpax] at hs ⊢
    exact scanLogical_scanned h hs

theorem scanEntries_scanned {entries : List (Option RawEntry)} {state : κ}
    (hs : entries.foldlM (scanEntry decoders consumer contract forbidden) (Scan.start state) =
      .ok s) :
    Scanned decoders.foldName contract s (entries.foldl (readMember contract) ⟨none, []⟩) := by
  refine Except.foldlM_ok (motive := fun done t => Scanned decoders.foldName contract t
    (done.foldl (readMember contract) ⟨none, []⟩)) hs (Scanned.start _ state) ?_
  intro done entry t t' ht hstep
  rw [List.foldl_append]
  exact scanEntry_scanned ht hstep

theorem scanArchive_scanned {input : Bytes} {state state' : κ} {tree : ArchiveTree}
    (h : scanArchive decoders consumer contract forbidden input state = .ok (tree, state')) :
    ∃ stream, decoders.decode input = some stream ∧
      Shaped decoders.foldName (membersOf contract stream.entries) ∧
      tree.entries.map ManifestEntry.listed =
        ((membersOf contract stream.entries).filter fun m => !m.isManifest contract).map
          Member.listed := by
  obtain ⟨_, -, h⟩ := Except.bind_ok h
  obtain ⟨_, -, h⟩ := Except.bind_ok h
  obtain ⟨stream, hstream, h⟩ := Except.bind_ok h
  obtain ⟨s, hs, h⟩ := Except.bind_ok h
  obtain ⟨_, -, h⟩ := Except.bind_ok h
  obtain ⟨_, -, h⟩ := Except.bind_ok h
  obtain ⟨_, -, h⟩ := Except.bind_ok h
  obtain ⟨manifest, -, ⟨⟩⟩ := Except.bind_ok h
  obtain ⟨hshaped, hrecorded⟩ := scanEntries_scanned hs
  exact ⟨stream, require_ok hstream, hshaped, hrecorded.entries⟩

/-! ### Links -/

/-- A link target as the steps of a resolution. -/
def stepsOf (target : Bytes) : List (Links.Step Name) := (PathBuf.ofBytes target).steps

/-- What a member is in the tree of its archive. -/
def Member.node (m : Member) : Links.Node Name :=
  match m.kind with
  | .directory => .dir
  | .symlink target => .link (stepsOf target)
  | .file => .file

/-- The tree of an archive. -/
def treeOf (members : List Member) : Links.Tree Name := fun place =>
  (members.find? (·.path = place)).map Member.node

/-- The link takes no `..` after a link of the same archive. -/
def Member.settled (members : List Member) (m : Member) : Bool :=
  match m.kind with
  | .symlink target => Links.settled (treeOf members) m.path.dropLast (stepsOf target)
  | _ => true

/-- The link never leads above the root, however many links are followed. -/
def Member.contained (members : List Member) (m : Member) : Prop :=
  ∀ target, m.kind = .symlink target →
    ∀ links, Links.resolve (treeOf members) links m.path.dropLast (stepsOf target) ≠ .above

theorem validateLinkTarget_inside {target : Bytes}
    (h : validateLinkTarget relative target = .ok ()) :
    Links.staysInside relative.dropLast.length (stepsOf target) = true := by
  unfold validateLinkTarget at h
  split_ifs at h with habsolute hinside
  rw [List.length_dropLast, stepsOf, ← linkStaysInside_eq]
  exact hinside

theorem treeOf_link {members : List Member} {place : Path} {steps : List (Links.Step Name)}
    (h : treeOf members place = some (.link steps)) :
    ∃ m ∈ members, m.path = place ∧
      ∃ target, m.kind = .symlink target ∧ stepsOf target = steps := by
  obtain ⟨m, hfind, hnode⟩ := Option.map_eq_some_iff.mp h
  refine ⟨m, List.mem_of_find?_eq_some hfind, by simpa using List.find?_some hfind, ?_⟩
  unfold Member.node at hnode
  split at hnode
  · cases hnode
  · next target hkind => exact ⟨target, hkind, Links.Node.link.inj hnode⟩
  · cases hnode

/-- **Links that are settled stay below the root.** -/
theorem Shaped.contained {foldName : Bytes → Bytes} {members : List Member}
    (h : Shaped foldName members) (hsettled : ∀ m ∈ members, m.settled members = true) :
    ∀ m ∈ members, m.contained members := by
  -- a link of the tree is a member, and the scanner has checked its target
  have hinside : ∀ m ∈ members, ∀ target, m.kind = .symlink target →
      Links.staysInside m.path.dropLast.length (stepsOf target) = true :=
    fun m hm target hkind => validateLinkTarget_inside (h.links m hm target hkind).2
  have hsettled : ∀ m ∈ members, ∀ target, m.kind = .symlink target →
      Links.settled (treeOf members) m.path.dropLast (stepsOf target) = true := by
    intro m hm target hkind
    have := hsettled m hm
    rwa [Member.settled, hkind] at this
  intro m hm target hkind links
  refine Links.resolve_ne_above ?_ ?_ (hinside m hm target hkind) (hsettled m hm target hkind) links
  · intro dir name steps hlink
    obtain ⟨m', hm', hpath, target', hkind', rfl⟩ := treeOf_link hlink
    have := hinside m' hm' target' hkind'
    rwa [hpath, List.dropLast_concat] at this
  · intro dir name steps hlink
    obtain ⟨m', hm', hpath, target', hkind', rfl⟩ := treeOf_link hlink
    have := hsettled m' hm' target' hkind'
    rwa [hpath, List.dropLast_concat] at this

/-- **An accepted archive is a tree**: the paths increase and do not collide, every parent is a
directory before its members, and the inventory lists the members. Its links stay below the root as
long as no target takes `..` after another link of the archive. -/
theorem scan_archive_tree {input : Bytes} {state state' : κ} {tree : ArchiveTree}
    (h : scanArchive decoders consumer contract forbidden input state = .ok (tree, state')) :
    ∃ stream members, decoders.decode input = some stream ∧
      members = membersOf contract stream.entries ∧ Shaped decoders.foldName members ∧
      tree.entries.map ManifestEntry.listed =
        (members.filter fun m => !m.isManifest contract).map Member.listed ∧
      ((∀ m ∈ members, m.settled members = true) → ∀ m ∈ members, m.contained members) := by
  obtain ⟨stream, hstream, hshaped, hlisted⟩ := scanArchive_scanned h
  exact ⟨stream, _, hstream, rfl, hshaped, hlisted, hshaped.contained⟩

end

/-- An archive with a link `m` and a link `x` to the root. -/
def linkedArchive (target : String) : Bytes :=
  let member (name : String) (mode : ℕ) (kind : UInt8) (target : String) (payload : Option Bytes) :=
    (writePaxEntry (ascii name) mode 0 kind (ascii target) payload).toOption.getD []
  member "toolchain" 0o755 0x35 "" none ++
    member "toolchain/m" 0o777 0x32 target none ++
    member "toolchain/toolchain-manifest.json" 0o644 0x30 "" (some (ascii "\x7b\x7d")) ++
    member "toolchain/x" 0o777 0x32 "." none ++ List.replicate 1024 0

/-- The decoders for a plain archive of ASCII names, whose inventory has the given digest. -/
def plainDecoders (digest : String) : Decoders where
  decode := some ∘ rawStream
  foldName := List.map asciiLower
  sha256 := fun _ => ascii digest

/-- The scan of the archive. -/
def scanLinkedArchive (digest target : String) : Contract (ArchiveTree × Unit) :=
  scanArchive (plainDecoders digest) (verifyingConsumer (plainDecoders digest).sha256)
    (compilerArchiveContract 0 false) [] (linkedArchive target) ()

/-- The members of the archive. -/
def linkedMembers (target : String) : List Member :=
  membersOf (compilerArchiveContract 0 false) (rawStream (linkedArchive target)).entries

theorem scan_archive_tree_settled :
    (scanLinkedArchive "7c6c33c80a3ed3a66ad5ed14f37e02fbde97f0747e30b3ef0b27a0f73b26e7e7"
      "x").isOk = true ∧
    (∀ m ∈ linkedMembers "x", m.settled (linkedMembers "x") = true) ∧
    ∀ m ∈ linkedMembers "x", m.contained (linkedMembers "x") := by
  have hok : (scanLinkedArchive "7c6c33c80a3ed3a66ad5ed14f37e02fbde97f0747e30b3ef0b27a0f73b26e7e7"
      "x").isOk = true := by
    decide +kernel
  have hsettled : ∀ m ∈ linkedMembers "x", m.settled (linkedMembers "x") = true := by
    decide +kernel
  refine ⟨hok, hsettled, ?_⟩
  obtain ⟨⟨tree, state⟩, h⟩ := Except.exists_of_isOk hok
  obtain ⟨stream, members, hstream, rfl, -, -, hcontained⟩ := scan_archive_tree h
  have hstream : rawStream (linkedArchive "x") = stream := Option.some.inj hstream
  rw [← hstream] at hcontained
  exact hcontained hsettled

/-- The scanner accepts an archive in which `m` has the target `x/..` and `x` is a link to the root:
counting components, the target leads to the root; following `x`, it leads above it. -/
theorem scan_archive_above :
    (scanLinkedArchive "fd1a63577e101b5e46ea9c5288459b3d0b2e38af49820299cc7e58cc7f3d08a3"
      "x/..").isOk = true ∧
    ⟨[ascii "m"], .symlink (ascii "x/..")⟩ ∈ linkedMembers "x/.." ∧
    ¬ ∀ m ∈ linkedMembers "x/..", m.contained (linkedMembers "x/..") := by
  have hmem : (⟨[ascii "m"], .symlink (ascii "x/..")⟩ : Member) ∈
      linkedMembers "x/.." := by decide +kernel
  refine ⟨by decide +kernel, hmem, fun h => h _ hmem _ rfl 1 ?_⟩
  decide +kernel

end Toolchain

end ArosTools
