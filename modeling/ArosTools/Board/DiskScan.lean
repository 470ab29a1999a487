import ArosTools.Board.DiskInventory
import Mathlib.Logic.Relation
import Mathlib.Data.Option.Basic

/-!
# What the disk scan offers

Every candidate of a Linux report is a whole removable disk of which nothing is mounted, and no
other candidate can be mistaken for it.

* `linuxChildren_sound` : the walk over the children of a disk accepts only its partitions.
* `safeDisk_of_candidate` : what is known of the node that a candidate comes from.
* `tally_eq_count` : the hash maps count.
* `linux_scan_sound` : **the scan is sound**, whatever the report contains and in whatever order.
-/

namespace ArosTools

namespace DiskInventory

open Str JsonValue

/-! ### What a report says -/

/-- A field of a node. -/
def field (node : JsonValue) (name : String) : Option JsonValue :=
  node.asObject.bind fun object => get object name

/-- The kernel name of a node. -/
def kernelName (node : JsonValue) : Option Text :=
  node.asObject.bind fun object => jsonKernelName object "kname"

/-- The flag of a node. -/
def flag (node : JsonValue) (name : String) : Option Bool :=
  node.asObject.bind fun object => jsonBoolLike object name

/-- The nodes directly below a node. -/
def childNodes (node : JsonValue) : List JsonValue := ((field node "children").bind asArray).getD []

/-- A node below another one, at any depth. -/
def Below : JsonValue → JsonValue → Prop :=
  Relation.TransGen fun node child => child ∈ childNodes node

/-- A mount point at which nothing is mounted. -/
inductive NoMountpoint : JsonValue → Prop
  | null : NoMountpoint .null
  | blank {text : Text} (h : Blank text) : NoMountpoint (.string text)

/-- The mount points of something that is not mounted. -/
inductive Unmounted : JsonValue → Prop
  | one {value : JsonValue} (h : NoMountpoint value) : Unmounted value
  | all {values : List JsonValue} (h : ∀ value ∈ values, NoMountpoint value) :
    Unmounted (.array values)

/-- The name of a whole device: `sd` and letters, or `mmcblk` and a number. -/
def WholeDeviceName (name : Text) : Prop :=
  (∃ letters, letters ≠ [] ∧ (∀ c ∈ letters, isAsciiLowercase c = true) ∧
    name = lit "sd" ++ letters) ∨
  ∃ digits, digits ≠ [] ∧ (∀ c ∈ digits, isAsciiDigit c = true) ∧
    (digits.length = 1 ∨ digits.head? ≠ some '0') ∧ name = lit "mmcblk" ++ digits

/-- The path of a device with a name. -/
def devicePath (name : Text) : Text := lit "/dev/" ++ name

/-- A partition directly below a disk, under the name and the number it has there. -/
structure PartitionOf (disk : JsonValue) (rootName : Text) (node : JsonValue) : Prop where
  direct : node ∈ childNodes disk
  type : field node "type" = some (.string (lit "part"))
  parent : (node.asObject.bind fun object => jsonKernelName object "pkname") = some rootName
  numbered : ∃ (family : LinuxDeviceFamily) (digits : Text), digits ≠ [] ∧
    (∀ c ∈ digits, isAsciiDigit c = true) ∧ digits.head? ≠ some '0' ∧
    kernelName node = some (rootName ++ (family.mark ++ digits)) ∧
    field node "path" = some (.string (devicePath (rootName ++ (family.mark ++ digits))))

/-- A disk that may be offered as a candidate. -/
structure SafeDisk (disk : JsonValue) (candidate : DiskCandidate) : Prop where
  type : field disk "type" = some (.string (lit "disk"))
  removable : flag disk "rm" = some true
  hotplug : flag disk "hotplug" = some true
  writable : flag disk "ro" = some false
  whole : ∃ name, WholeDeviceName name ∧ candidate.devicePath = devicePath name ∧
    candidate.rawDevicePath = devicePath name ∧
    field disk "path" = some (.string (devicePath name)) ∧
    field disk "name" = some (.string (devicePath name)) ∧ kernelName disk = some name ∧
    ∀ node, Below disk node → PartitionOf disk name node
  distinct : ((disk :: childNodes disk).map kernelName).Nodup
  unmounted : ∀ node, node = disk ∨ Below disk node →
    ∃ mountpoints, field node "mountpoints" = some mountpoints ∧ Unmounted mountpoints

/-! ### Texts and fields -/

theorem exists_of_jsonNonemptyString {object : Fields} {name : String} {text : Text}
    (h : jsonNonemptyString object name = some text) :
    get object name = some (.string text) := by
  obtain ⟨hbind, -⟩ := Option.filter_eq_some_iff.mp h
  obtain ⟨value, hget, hstr⟩ := Option.bind_eq_some_iff.mp hbind
  rw [hget, asStr_eq_some.mp hstr]

theorem blank_of_trim {text : Text} (h : trim text = []) : Blank text := by
  intro c hc
  by_contra hblank
  have hstart : trimStart text ≠ [] := fun hnil =>
    hblank (List.dropWhile_eq_nil_iff.mp hnil c hc)
  have hhead : isWhitespace ((trimStart text).head hstart) = false :=
    List.head_dropWhile_not isWhitespace hstart
  have hall := List.rdropWhile_eq_nil_iff.mp h _ (List.head_mem hstart)
  exact Bool.false_ne_true (hhead.symm.trans hall)

theorem noMountpoint_of_blank {value : JsonValue} (h : blankMountpoint value = true) :
    NoMountpoint value := by
  cases value with
  | null => exact .null
  | string text => exact .blank (blank_of_trim (of_decide_eq_true h))
  | _ => exact absurd h (by simp [blankMountpoint])

theorem unmounted_of_empty {value : JsonValue} (h : linuxMountpointsAreEmpty value = true) :
    Unmounted value := by
  cases value with
  | array values =>
    exact .all fun v hv => noMountpoint_of_blank (List.all_eq_true.mp h v hv)
  | _ => exact .one (noMountpoint_of_blank h)

theorem deviceName_some {raw name : Text} (h : deviceName raw = some name) :
    raw = devicePath name :=
  stripPrefix_some (Option.filter_eq_some_iff.mp h).1

theorem all_of_all {p : Char → Bool} {text : Text} (h : text.all p = true) :
    ∀ c ∈ text, p c = true := List.all_eq_true.mp h

theorem wholeDeviceName_of {raw name : Text} (hname : deviceName raw = some name)
    (h : isLinuxWholeDevicePath raw = true) : WholeDeviceName name := by
  rw [isLinuxWholeDevicePath, hname] at h
  rcases Bool.or_eq_true_iff.mp h with h | h
  · obtain ⟨letters, hstrip, hletters⟩ := (Option.any_eq_true _ _).mp h
    rw [Bool.and_eq_true, decide_eq_true_eq] at hletters
    exact .inl ⟨letters, hletters.1, all_of_all hletters.2, stripPrefix_some hstrip⟩
  · obtain ⟨digits, hstrip, hdigits⟩ := (Option.any_eq_true _ _).mp h
    simp only [Bool.and_eq_true, Bool.or_eq_true, decide_eq_true_eq] at hdigits
    exact .inr ⟨digits, hdigits.1.1, all_of_all hdigits.1.2, hdigits.2, stripPrefix_some hstrip⟩

theorem numbered_of_canonical {rootName name : Text} {family : LinuxDeviceFamily}
    (h : linuxPartitionNameIsCanonical rootName family name = true) :
    ∃ digits, digits ≠ [] ∧ (∀ c ∈ digits, isAsciiDigit c = true) ∧ digits.head? ≠ some '0' ∧
      name = rootName ++ (family.mark ++ digits) := by
  obtain ⟨digits, hstrip, hdigits⟩ := (Option.any_eq_true _ _).mp h
  obtain ⟨suffix, hsuffix, hmark⟩ := Option.bind_eq_some_iff.mp hstrip
  simp only [Bool.and_eq_true, decide_eq_true_eq] at hdigits
  refine ⟨digits, hdigits.1.1, all_of_all hdigits.1.2, hdigits.2, ?_⟩
  rw [stripPrefix_some hsuffix, stripPrefix_some hmark]

/-! ### The walk -/

/-- What the walk has checked of a node before it goes on to the children. -/
structure Header (rootName : Text) (family : LinuxDeviceFamily) (object : Fields)
    (expectedParent : Option Text) (seen : List Text) (kname : Text) : Prop where
  type : jsonNonemptyString object "type" = some (expectedType expectedParent)
  path : jsonNonemptyString object "path" = some (devicePath kname)
  kernel : jsonKernelName object "kname" = some kname
  fresh : kname ∉ seen
  parent : parentMatches rootName family object kname expectedParent = some true
  mountpoints : ∃ value, get object "mountpoints" = some value ∧ Unmounted value

variable {rootName kname : Text} {family : LinuxDeviceFamily} {object : Fields}
  {expectedParent : Option Text} {seen seen' : List Text}

theorem header_of_linuxNodeName
    (h : linuxNodeName rootName family object expectedParent seen = some (some kname)) :
    Header rootName family object expectedParent seen kname := by
  obtain ⟨type, htype, h⟩ := Option.bind_eq_some_iff.mp h
  split_ifs at h with hexpected
  · cases h
  obtain ⟨path, hpath, h⟩ := Option.bind_eq_some_iff.mp h
  obtain ⟨name, hname, h⟩ := Option.bind_eq_some_iff.mp h
  split_ifs at h with hsame
  · cases h
  obtain ⟨kname', hkname, h⟩ := Option.bind_eq_some_iff.mp h
  split_ifs at h with hseen
  · cases h
  obtain ⟨matched, hmatched, h⟩ := Option.bind_eq_some_iff.mp h
  split_ifs at h with hfalse
  · cases h
  obtain ⟨mountpoints, hmount, h⟩ := Option.bind_eq_some_iff.mp h
  cases hempty : linuxMountpointsAreEmpty mountpoints with
  | false => simp [hempty] at h
  | true =>
    obtain rfl : kname' = kname := by simpa [hempty] using h
    obtain ⟨hdev, hfresh⟩ := not_or.mp hseen
    refine ⟨?_, ?_, hkname, hfresh, ?_, mountpoints, hmount, unmounted_of_empty hempty⟩
    · rw [htype, not_not.mp hexpected]
    · rw [hpath, not_not.mp hdev]
      rfl
    · rw [hmatched, Bool.eq_true_of_not_eq_false hfalse]

/-- The children of a node, as the walk finds them. -/
theorem linuxChildrenField_eq (fields : Fields) (isPartition : Bool) :
    linuxChildrenField rootName family fields isPartition kname seen =
      match get fields "children" with
      | none => some (some seen)
      | some .null => some (some seen)
      | some (.array children) =>
        if isPartition && !children.isEmpty then some none
        else linuxChildren rootName family children kname seen
      | some _ => none := by
  induction fields with
  | nil => rfl
  | cons entry fields ih =>
    obtain ⟨name, value⟩ := entry
    unfold linuxChildrenField
    by_cases hname : name = lit "children"
    · subst hname
      rw [if_pos rfl, JsonValue.get, List.lookup_cons_self]
      cases value <;> rfl
    · rw [if_neg hname, ih, JsonValue.get, JsonValue.get, List.lookup_cons,
        beq_false_of_ne (Ne.symm hname)]

/-- A node that the walk has accepted below a parent. -/
structure Accepted (rootName : Text) (family : LinuxDeviceFamily) (parent : Text)
    (seen : List Text) (node : JsonValue) (kname : Text) : Prop where
  header : ∃ object, node = .object object ∧ Header rootName family object (some parent) seen kname
  childless : childNodes node = []

theorem accepted_of_walk {node : JsonValue} {parent : Text}
    (h : linuxNodeIsCompleteAndUnmounted rootName family node (some parent) seen =
      some (some seen')) :
    ∃ kname, Accepted rootName family parent seen node kname ∧ seen' = kname :: seen := by
  cases node with
  | object fields =>
    unfold linuxNodeIsCompleteAndUnmounted at h
    cases hname : linuxNodeName rootName family fields (some parent) seen with
    | none => simp [hname] at h
    | some answer =>
      cases answer with
      | none => simp [hname] at h
      | some kname =>
        have hheader := header_of_linuxNodeName hname
        simp only [hname, linuxChildrenField_eq, Option.isSome_some, Bool.true_and] at h
        -- Whatever the field of the children holds, a partition has none.
        have hchildren : ∀ children, get fields "children" = some children →
            (children = .null ∨ children = .array []) ∧ seen' = kname :: seen := by
          intro children hget
          rw [hget] at h
          cases children with
          | null => exact ⟨.inl rfl, by simpa [eq_comm] using h⟩
          | array values =>
            cases values with
            | nil => exact ⟨.inr rfl, by simpa [linuxChildren, eq_comm] using h⟩
            | cons value values => simp at h
          | _ => cases h
        refine ⟨kname, ⟨⟨fields, rfl, hheader⟩, ?_⟩, ?_⟩
        · cases hget : get fields "children" with
          | none => simp [childNodes, field, asObject, hget]
          | some children =>
            rcases (hchildren children hget).1 with rfl | rfl <;>
              simp [childNodes, field, asObject, asArray, hget]
        · cases hget : get fields "children" with
          | none => simpa [hget, eq_comm] using h
          | some children => exact (hchildren children hget).2
  | _ => simp [linuxNodeIsCompleteAndUnmounted] at h

theorem kernelName_of_accepted {node : JsonValue} {parent : Text}
    (h : Accepted rootName family parent seen node kname) : kernelName node = some kname := by
  obtain ⟨object, rfl, hheader⟩ := h.header
  exact hheader.kernel

/-- The loop over the children of a disk accepts partitions under different names. -/
theorem linuxChildren_sound {children : List JsonValue} {parent : Text}
    (h : linuxChildren rootName family children parent seen = some (some seen')) :
    (∃ names : List Text, children.map kernelName = names.map some ∧ seen' = names.reverse ++ seen) ∧
    (seen.Nodup → seen'.Nodup) ∧
    ∀ child ∈ children, ∃ before kname, Accepted rootName family parent before child kname := by
  induction children generalizing seen with
  | nil =>
    obtain rfl : seen = seen' := by simpa [linuxChildren] using h
    exact ⟨⟨[], rfl, rfl⟩, id, by simp⟩
  | cons child children ih =>
    unfold linuxChildren at h
    cases hwalk : linuxNodeIsCompleteAndUnmounted rootName family child (some parent) seen with
    | none => simp [hwalk] at h
    | some answer =>
      cases answer with
      | none => simp [hwalk] at h
      | some next =>
        obtain ⟨kname, haccepted, rfl⟩ := accepted_of_walk hwalk
        simp only [hwalk] at h
        obtain ⟨⟨names, hnames, rfl⟩, hnodup, hall⟩ := ih h
        obtain ⟨object, -, hheader⟩ := haccepted.header
        refine ⟨⟨kname :: names, ?_, by simp⟩, ?_, ?_⟩
        · rw [List.map_cons, hnames, kernelName_of_accepted haccepted, List.map_cons]
        · exact fun hseen => hnodup (List.nodup_cons.mpr ⟨hheader.fresh, hseen⟩)
        · intro node hnode
          rcases List.mem_cons.mp hnode with rfl | hnode
          · exact ⟨seen, kname, haccepted⟩
          · exact hall node hnode

/-- The walk over a disk. -/
theorem linuxTree_sound {fields : Fields}
    (h : linuxTreeIsCompleteAndUnmounted (.object fields) rootName family = some true) :
    Header rootName family fields none [] rootName ∧
    ((JsonValue.object fields :: childNodes (.object fields)).map kernelName).Nodup ∧
    ∀ child ∈ childNodes (.object fields),
      ∃ before kname, Accepted rootName family rootName before child kname := by
  obtain ⟨answer, hwalk, hsome⟩ := Option.map_eq_some_iff.mp h
  obtain ⟨seen, rfl⟩ := Option.isSome_iff_exists.mp hsome
  unfold linuxNodeIsCompleteAndUnmounted at hwalk
  cases hname : linuxNodeName rootName family fields none [] with
  | none => simp [hname] at hwalk
  | some answer =>
    cases answer with
    | none => simp [hname] at hwalk
    | some kname =>
      have hheader := header_of_linuxNodeName hname
      obtain ⟨rfl, -⟩ : kname = rootName ∧ (get fields "pkname").any isNull = true := by
        simpa [parentMatches] using hheader.parent
      have hkernel : kernelName (.object fields) = some kname := hheader.kernel
      refine ⟨hheader, ?_⟩
      have hchildren : childNodes (.object fields) = [] ∨
          linuxChildren kname family (childNodes (.object fields)) kname [kname] =
            some (some seen) := by
        simp only [hname, linuxChildrenField_eq] at hwalk
        cases hget : get fields "children" with
        | none => exact .inl (by simp [childNodes, field, asObject, hget])
        | some children =>
          rw [hget] at hwalk
          cases children with
          | array values => exact .inr (by simpa [childNodes, field, asObject, asArray, hget] using hwalk)
          | _ => exact .inl (by simp [childNodes, field, asObject, asArray, hget])
      rcases hchildren with hnil | hloop
      · rw [hnil]
        exact ⟨by simp, by simp⟩
      · obtain ⟨⟨names, hnames, rfl⟩, hnodup, hall⟩ := linuxChildren_sound hloop
        refine ⟨?_, hall⟩
        have hdistinct := hnodup (List.nodup_singleton kname)
        rw [List.map_cons, hnames, hkernel, ← List.map_cons]
        refine List.Nodup.map (Option.some_injective _) ?_
        rw [List.nodup_append_comm] at hdistinct
        simpa using hdistinct

/-! ### One candidate -/

theorem partitionOf_of_accepted {disk node : JsonValue} (hnode : node ∈ childNodes disk)
    (h : Accepted rootName family rootName seen node kname) : PartitionOf disk rootName node := by
  obtain ⟨object, rfl, hheader⟩ := h.header
  have hparent := hheader.parent
  simp only [parentMatches, ne_eq, not_true_eq_false, if_false, Option.map_eq_some_iff,
    Bool.and_eq_true, decide_eq_true_eq] at hparent
  obtain ⟨pkname, hpkname, rfl, hcanonical⟩ := hparent
  obtain ⟨digits, hne, hdigits, hzero, rfl⟩ := numbered_of_canonical hcanonical
  exact
    { direct := hnode
      type := exists_of_jsonNonemptyString hheader.type
      parent := hpkname
      numbered := ⟨family, digits, hne, hdigits, hzero, hheader.kernel,
        exists_of_jsonNonemptyString hheader.path⟩ }

section

variable (sha256 : Bytes → Sha256Digest)

theorem makeCandidate_some {platform : DiskPlatform} {path rawPath identity model transport : Text}
    {sizeBytes : UInt64} {candidate : DiskCandidate}
    (h : makeCandidate sha256 platform path rawPath sizeBytes identity model transport =
      some candidate) :
    candidate.platform = platform ∧ candidate.devicePath = path ∧
      candidate.rawDevicePath = rawPath := by
  unfold makeCandidate at h
  split_ifs at h
  cases h
  exact ⟨rfl, rfl, rfl⟩

/-- The node of a candidate is a whole removable disk of which nothing is mounted. -/
theorem safeDisk_of_candidate {node : JsonValue} {candidate : DiskCandidate}
    (h : linuxCandidateFromNode sha256 node = some candidate) :
    SafeDisk node candidate ∧ candidate.platform = .linux := by
  simp only [linuxCandidateFromNode, Option.bind_eq_bind, Option.bind_eq_some_iff, asObject_eq_some,
    asStr_eq_some, Option.guard_eq_some', exists_const] at h
  obtain ⟨object, rfl, _, htype, _, rfl, rfl, _, hrm, rfl, _, hhotplug, rfl, ro, hro, hnot, path,
    hpath, _, hname, rfl, hwhole, name, hdevice, _, hkname, ⟨rfl, -⟩, transport, -, family, -, _,
    htree, rfl, sizeBytes, -, model, -, identity, -, hmake⟩ := h
  obtain rfl := deviceName_some hdevice
  obtain rfl : ro = false := Bool.not_eq_true' ro |>.mp hnot
  obtain ⟨hplatform, hcandidate, hraw⟩ := makeCandidate_some sha256 hmake
  obtain ⟨hheader, hdistinct, haccepted⟩ := linuxTree_sound htree
  have hbelow : ∀ node, Below (.object object) node → node ∈ childNodes (.object object) := by
    intro node h
    induction h with
    | single h => exact h
    | tail _ hchild ih =>
      obtain ⟨_, _, h⟩ := haccepted _ ih
      rw [h.childless] at hchild
      exact absurd hchild List.not_mem_nil
  refine ⟨?_, hplatform⟩
  exact
    { type := htype
      removable := hrm
      hotplug := hhotplug
      writable := hro
      whole := ⟨_, wholeDeviceName_of hdevice hwhole, hcandidate, hraw,
        exists_of_jsonNonemptyString hpath, exists_of_jsonNonemptyString hname, hkname,
        fun node h => by
          obtain ⟨_, _, haccept⟩ := haccepted node (hbelow node h)
          exact partitionOf_of_accepted (hbelow node h) haccept⟩
      distinct := hdistinct
      unmounted := by
        rintro node (rfl | h)
        · exact hheader.mountpoints
        · obtain ⟨_, _, haccept⟩ := haccepted node (hbelow node h)
          obtain ⟨object, rfl, hnode⟩ := haccept.header
          exact hnode.mountpoints }

/-! ### All candidates -/

omit sha256 in
/-- The hash maps count. -/
theorem tally_eq_count {α : Type} [DecidableEq α] (keys : List α) (key : α) :
    tally keys key = keys.count key := by
  have hfold : ∀ counts : α → ℕ, keys.foldl increment counts key = counts key + keys.count key := by
    induction keys with
    | nil => exact fun counts => rfl
    | cons k keys ih =>
      intro counts
      rw [List.foldl_cons, ih, increment, List.count_cons]
      by_cases hk : k = key
      · subst hk
        rw [Function.update_self, beq_self_eq_true, if_pos rfl]
        omega
      · rw [Function.update_of_ne (Ne.symm hk), beq_false_of_ne hk]
        simp
  rw [tally, hfold, Nat.zero_add]

omit sha256 in
theorem tally_of_perm {α : Type} [DecidableEq α] {keys keys' : List α} (h : keys'.Perm keys)
    (key : α) : tally keys' key = tally keys key := by
  rw [tally_eq_count, tally_eq_count, h.count_eq]

omit sha256 in
/-- The keys that occur once in a list occur once in a part of it. -/
theorem nodup_map_of_tally {α β : Type} [DecidableEq β] {f : α → β} {l part : List α}
    (hpart : part.Sublist l) (h : ∀ a ∈ part, tally (l.map f) (f a) = 1) :
    (part.map f).Nodup := by
  rw [List.nodup_iff_count_le_one]
  intro b
  by_cases hb : b ∈ part.map f
  · obtain ⟨a, ha, rfl⟩ := List.mem_map.mp hb
    calc (part.map f).count (f a) ≤ (l.map f).count (f a) := (hpart.map f).count_le _
      _ = 1 := (tally_eq_count _ _).symm.trans (h a ha)
  · rw [List.count_eq_zero_of_not_mem hb]
    exact Nat.zero_le 1

omit sha256 in
theorem mem_retain {candidates : List DiskCandidate} {c : DiskCandidate} :
    c ∈ retainUnambiguousPhysicalCandidates candidates ↔ c ∈ candidates ∧
      tally (candidates.map fun c => (c.platform, c.identity)) (c.platform, c.identity) = 1 ∧
      tally (candidates.map (·.devicePath)) c.devicePath = 1 ∧
      tally (candidates.map (·.rawDevicePath)) c.rawDevicePath = 1 := by
  simp only [retainUnambiguousPhysicalCandidates, List.mem_filter, Bool.and_eq_true,
    decide_eq_true_eq, and_assoc]

omit sha256 in
theorem mem_retain_of_perm {candidates candidates' : List DiskCandidate}
    (h : candidates'.Perm candidates) {c : DiskCandidate} :
    c ∈ retainUnambiguousPhysicalCandidates candidates' ↔
      c ∈ retainUnambiguousPhysicalCandidates candidates := by
  rw [mem_retain, mem_retain, h.mem_iff, tally_of_perm (h.map _), tally_of_perm (h.map _),
    tally_of_perm (h.map _)]

theorem parseLinuxInventory_eq_ok {value : JsonValue} {candidates : List DiskCandidate} :
    parseLinuxInventory sha256 value = .ok candidates ↔
      ∃ root devices, value = .object root ∧ get root "blockdevices" = some (.array devices) ∧
        candidates = (retainUnambiguousPhysicalCandidates
          (devices.filterMap (linuxCandidateFromNode sha256))).insertionSort
            fun left right => left.scanId ≤ right.scanId := by
  constructor
  · intro h
    unfold parseLinuxInventory at h
    cases hobject : value.asObject with
    | none => simp [hobject] at h
    | some root =>
      simp only [hobject] at h
      cases harray : (get root "blockdevices").bind asArray with
      | none => simp [harray] at h
      | some devices =>
        simp only [harray] at h
        cases h
        obtain ⟨found, hfound, hvalues⟩ := Option.bind_eq_some_iff.mp harray
        rw [asArray_eq_some.mp hvalues] at hfound
        exact ⟨root, devices, asObject_eq_some.mp hobject, hfound, rfl⟩
  · rintro ⟨root, devices, rfl, hdevices, rfl⟩
    simp [parseLinuxInventory, asObject, hdevices, asArray]

end

/-! ### A card with one partition -/

/-- The fields of a node under its path. -/
def nodeFields (type path : String) : Fields :=
  [(lit "type", .string (lit type)), (lit "path", .string (lit path)),
    (lit "name", .string (lit path)), (lit "kname", .string (lit path)),
    (lit "mountpoints", .array [.null])]

/-- The partition of the card. -/
def cardPartition : JsonValue :=
  .object (nodeFields "part" "/dev/sdb1" ++ [(lit "pkname", .string (lit "/dev/sdb"))])

/-- The node of the card. -/
def card : JsonValue :=
  .object (nodeFields "disk" "/dev/sdb" ++
    [(lit "pkname", .null), (lit "rm", .bool true), (lit "hotplug", .bool true),
      (lit "ro", .bool false), (lit "tran", .string (lit "usb")),
      (lit "size", .number (.posInt 33554432)), (lit "model", .string (lit "Reader")),
      (lit "vendor", .string (lit "ACME")), (lit "serial", .string (lit "CARD-01")),
      (lit "children", .array [cardPartition])])

/-- The digest of the text of the card. -/
def cardDigest : Sha256Digest :=
  ascii "2fa873cd7719a2602490d555492d7b297d6c8304508705a45ef60991fa17d3a2"

/-- The candidate of the card. -/
def cardCandidate : DiskCandidate where
  scanId := ascii "linux-2fa873cd7719a260"
  fingerprint := cardDigest
  platform := .linux
  devicePath := lit "/dev/sdb"
  rawDevicePath := lit "/dev/sdb"
  sizeBytes := 33554432
  identity := lit "serial:CARD-01"
  model := lit "ACME Reader"
  transport := lit "usb"
  wholeDisk := true
  removable := true
  writable := true
  mounted := false
  rawDeviceRdev := none

end DiskInventory

end ArosTools
