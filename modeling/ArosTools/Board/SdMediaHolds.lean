import ArosTools.Board.SdMedia
import ArosTools.Media.PlanInputs

/-!
# Plans that pass and the manifests they render to

* `HoldsPlan` — an image holds a plan: the files, the directories and the contents;
* `Covered` — every directory of a plan lies above one of its files;
* `Attested` — the origin of a plan, as far as a manifest must describe it;
* `validateMediaPlanForFat32_valid` — what a plan that passes is;
* `validateManifest_iff` — **a plan that passes renders to a manifest that passes if it is
  attested, and only then**.
-/

namespace ArosTools

namespace Board

open Media SlashPath

/-! ### Places -/

/-- Two texts that are one place, up to case. -/
def SamePlace (a b : Bytes) : Prop := ∃ key, placeKey a = .ok key ∧ placeKey b = .ok key

/-- The text of listed names. -/
def listedText (path : List Bytes) : Bytes := [0x2f].intercalate path

/-- An image holds a plan: its files and its directories are those of the plan, up to case, and
every file has the planned contents. -/
structure HoldsPlan {fat : FatFs} (sha256 : Bytes → Sha256Digest) (volume : fat.Volume)
    (plan : MediaImagePlan) : Prop where
  file : ∀ file ∈ plan.files, ∃ path, fat.Listed volume path false ∧
    SamePlace (listedText path) file.destination
  onlyFile : ∀ path, fat.Listed volume path false → ∃ file ∈ plan.files,
    SamePlace (listedText path) file.destination
  directory : ∀ directory ∈ plan.directories, ∃ path, fat.Listed volume path true ∧
    SamePlace (listedText path) directory
  onlyDirectory : ∀ path, fat.Listed volume path true → ∃ directory ∈ plan.directories,
    SamePlace (listedText path) directory
  contents : ∀ file ∈ plan.files, ∃ bytes, fat.openFile volume file.destination = .ok bytes ∧
    sha256 bytes = file.sha256 ∧ bytes.length = file.sizeBytes

/-- Every directory of a plan is, up to case, one that lies above a file. -/
def Covered (plan : MediaImagePlan) : Prop :=
  ∀ directory ∈ plan.directories, ∃ file ∈ plan.files, ∃ above,
    Above 0x2f above file.destination ∧ SamePlace above directory

theorem placeKey_ofBytes {text key : Bytes} :
    placeKey text = .ok key ↔ casefoldPathKey (PathBuf.ofBytes text) = .ok key := mapError_eq_ok

theorem validateRelativePath_ok {text : Bytes} {label : String} {path : PathBuf}
    (h : validateRelativePath text label = .ok path) : path = PathBuf.ofBytes text := by
  unfold validateRelativePath at h
  obtain ⟨_, -, h⟩ := Except.bind_ok h
  obtain ⟨_, -, h⟩ := Except.bind_ok h
  obtain ⟨_, -, h⟩ := Except.bind_ok h
  exact (Except.ok.inj h).symm

/-- The names of a path with a key are ASCII. -/
theorem casefoldPathKey_ascii {path : PathBuf} {key : Bytes} (h : casefoldPathKey path = .ok key)
    {name : Name} (hname : .normal name ∈ path.components) : ∀ b ∈ name, b < 0x80 := by
  unfold casefoldPathKey at h
  obtain ⟨-, h⟩ := ite_throw_ok h
  obtain ⟨folded, hfolded, -⟩ := Except.bind_ok h
  obtain ⟨text, htext⟩ := Except.exists_of_mapM hfolded _ hname
  obtain ⟨portable, hportable, -⟩ := Except.bind_ok htext
  unfold portableOutputName at hportable
  intro b hb
  by_contra hge
  have hany : name.any (· ≥ 0x80) = true :=
    List.any_eq_true.mpr ⟨b, hb, decide_eq_true (UInt8.not_lt.mp hge)⟩
  simp [hany] at hportable

/-- A safe destination is the text of the path it spells. -/
theorem portablePath_ofBytes {text key : Bytes} (hvalid : validDestination text = true)
    (hkey : placeKey text = .ok key) : portablePath (PathBuf.ofBytes text) = text := by
  have hparts : ∀ part ∈ text.splitOn 0x2f, part ≠ [] ∧ part ≠ ascii "." ∧ part ≠ ascii ".." := by
    intro part hpart
    simp only [validDestination, Bool.and_eq_true, List.all_eq_true] at hvalid
    have hpart := hvalid.2 part hpart
    simp only [validPart, Bool.and_eq_true, decide_eq_true_eq] at hpart
    exact ⟨hpart.1.1.1, hpart.1.1.2, hpart.1.2⟩
  have hcomponent : ∀ first, ∀ part ∈ text.splitOn 0x2f,
      PathBuf.component? first part = some (.normal part) := by
    intro first part hpart
    obtain ⟨h₁, h₂, h₃⟩ := hparts part hpart
    simp [PathBuf.component?, h₁, h₂, h₃]
  have hcomponents : (PathBuf.ofBytes text).components = (text.splitOn 0x2f).map .normal := by
    unfold PathBuf.ofBytes
    simp only
    generalize hpieces : text.splitOn 0x2f = pieces at hcomponent
    cases pieces with
    | nil => rfl
    | cons piece rest =>
      have hrest : rest.filterMap (PathBuf.component? false) = rest.map .normal := by
        rw [← List.filterMap_eq_map]
        exact List.filterMap_congr fun part hpart => hcomponent false part (.tail _ hpart)
      simp only [hcomponent true piece (.head _), hrest]
      rfl
  have hnames : ∀ part ∈ text.splitOn 0x2f, nameText (.normal part) = some part := by
    intro part hpart
    refine congrArg some (toStringLossy_of_ascii
      (casefoldPathKey_ascii (placeKey_ofBytes.mp hkey) ?_))
    rw [hcomponents]
    exact List.mem_map_of_mem hpart
  have htexts : ((text.splitOn 0x2f).map Component.normal).filterMap nameText =
      text.splitOn 0x2f := by
    rw [List.filterMap_map]
    exact (List.filterMap_congr hnames).trans List.filterMap_some
  rw [portablePath, hcomponents, htexts]
  exact List.intercalate_splitOn _

/-! ### Plans that pass -/

/-- Names and places that a composer and a verifier accept. -/
structure PlacedNames (names : List (Bytes × Bytes)) : Prop where
  role : ∀ e ∈ names, validRole e.1 = true
  path : ∀ e ∈ names, validateRelativePath e.2 "media destination" = .ok (PathBuf.ofBytes e.2)
  key : ∀ e ∈ names, ∃ key, placeKey e.2 = .ok key
  roles : (names.map Prod.fst).Nodup
  places : (names.map fun e => placeKey e.2).Nodup
  apart : ∀ e ∈ names, ∀ e' ∈ names, ∀ key key', placeKey e.2 = .ok key →
    placeKey e'.2 = .ok key' → ¬ Above 0x2f key key'

theorem PlacedNames.perm {names names' : List (Bytes × Bytes)} (h : PlacedNames names)
    (hperm : names'.Perm names) : PlacedNames names' where
  role e he := h.role e (hperm.mem_iff.mp he)
  path e he := h.path e (hperm.mem_iff.mp he)
  key e he := h.key e (hperm.mem_iff.mp he)
  roles := (hperm.map _).nodup_iff.mpr h.roles
  places := (hperm.map _).nodup_iff.mpr h.places
  apart e he e' he' := h.apart e (hperm.mem_iff.mp he) e' (hperm.mem_iff.mp he')

/-- The role and the place of a planned file. -/
def planName (file : MediaPlanFile) : Bytes × Bytes := (file.role, file.destination)

/-- The keys of places, as a set. -/
def HasKeys (names : List (Bytes × Bytes)) (keys : BTreeSet Bytes) : Prop :=
  ∀ key, key ∈ keys ↔ ∃ e ∈ names, placeKey e.2 = .ok key

theorem checkParents_apart {names : List (Bytes × Bytes)} {keys : BTreeSet Bytes}
    (hkeys : HasKeys names keys) : checkParents keys = .ok () ↔
      ∀ e ∈ names, ∀ e' ∈ names, ∀ key key', placeKey e.2 = .ok key →
        placeKey e'.2 = .ok key' → ¬ Above 0x2f key key' := by
  have hloop : checkParents keys = .ok () ↔
      ∀ destination ∈ keys.elems, ∀ parent, Above 0x2f parent destination → parent ∉ keys := by
    unfold checkParents
    constructor
    · intro h destination hdestination parent hparent
      have hinner := Except.forM_ok h destination hdestination
      exact Except.ensure_eq_ok.mp (Except.forM_ok hinner parent (mem_ancestors.mpr hparent))
    · intro h
      refine Except.forM_of fun destination hdestination => ?_
      refine Except.forM_of fun parent hparent => ?_
      exact Except.ensure_eq_ok.mpr (h destination hdestination parent (mem_ancestors.mp hparent))
  rw [hloop]
  constructor
  · intro h e he e' he' key key' hkey hkey' habove
    exact h key' ((hkeys key').mpr ⟨e', he', hkey'⟩) key habove ((hkeys key).mpr ⟨e, he, hkey⟩)
  · intro h destination hdestination parent hparent hmem
    obtain ⟨e', he', hkey'⟩ := (hkeys destination).mp hdestination
    obtain ⟨e, he, hkey⟩ := (hkeys parent).mp hmem
    exact h e he e' he' parent destination hkey hkey' hparent

section Validate

variable {sha256 : Bytes → Sha256Digest} {readSource : PathBuf → Except String Bytes}
  {plan : MediaImagePlan} {partition : PartitionLayout} {files : List VerifiedBootFile}

/-- The planned file as the composer takes it. -/
def bootFile (file : MediaPlanFile) : VerifiedBootFile :=
  ⟨file.role, file.sourcePath, PathBuf.ofBytes file.destination, file.sha256, file.sizeBytes⟩

/-- The state after the files `done`. -/
structure ValidatedFiles (done : List MediaPlanFile) (v : Validated) : Prop where
  role : ∀ e ∈ done.map planName, validRole e.1 = true
  path : ∀ e ∈ done.map planName,
    validateRelativePath e.2 "media destination" = .ok (PathBuf.ofBytes e.2)
  key : ∀ e ∈ done.map planName, ∃ key, placeKey e.2 = .ok key
  hasRoles : ∀ role, role ∈ v.roles ↔ role ∈ (done.map planName).map Prod.fst
  hasKeys : HasKeys (done.map planName) v.destinations
  roles : ((done.map planName).map Prod.fst).Nodup
  places : ((done.map planName).map fun e => placeKey e.2).Nodup
  files : v.files = done.map bootFile

theorem validatePlanFile_validated {done : List MediaPlanFile} {v v' : Validated}
    {file : MediaPlanFile} (hdone : ValidatedFiles done v)
    (h : validatePlanFile sha256 readSource v file = .ok v') :
    ValidatedFiles (done ++ [file]) v' := by
  unfold validatePlanFile at h
  obtain ⟨⟨⟩, hrole, h⟩ := Except.bind_ok h
  obtain ⟨_, hnew, h⟩ := Except.bind_ok h
  obtain ⟨path, hpath, h⟩ := Except.bind_ok h
  obtain ⟨key, hkey, h⟩ := Except.bind_ok h
  obtain ⟨_, hfree, h⟩ := Except.bind_ok h
  obtain ⟨_, -, h⟩ := Except.bind_ok h
  obtain ⟨_, -, h⟩ := Except.bind_ok h
  obtain ⟨_, -, h⟩ := Except.bind_ok h
  cases h
  obtain rfl := validateRelativePath_ok hpath
  have hrole := Except.ensure_eq_ok.mp hrole
  have hkey := placeKey_ofBytes.mpr (mapError_ok hkey)
  have hnew := Except.ensure_eq_ok.mp hnew
  have hfree := Except.ensure_eq_ok.mp hfree
  rw [hdone.hasRoles] at hnew
  rw [hdone.hasKeys] at hfree
  have hforall : ∀ {p : Bytes × Bytes → Prop}, (∀ e ∈ done.map planName, p e) → p (planName file) →
      ∀ e ∈ (done ++ [file]).map planName, p e := by
    intro p hp hfile e he
    rw [List.map_append, List.map_singleton] at he
    rcases List.mem_append.mp he with he | he
    · exact hp e he
    · rw [List.mem_singleton.mp he]
      exact hfile
  refine ⟨hforall hdone.role hrole, hforall hdone.path hpath, hforall hdone.key ⟨key, hkey⟩,
    fun role => ?_, fun k => ?_, ?_, ?_, ?_⟩
  · rw [BTreeSet.mem_insert, hdone.hasRoles]
    simp [planName]
  · rw [BTreeSet.mem_insert, hdone.hasKeys k]
    simp [or_and_right, exists_or, planName, hkey, @eq_comm _ key k]
  · rw [List.map_append, List.map_append, List.map_singleton, List.map_singleton,
      ← List.concat_eq_append, List.nodup_concat]
    exact ⟨hnew, hdone.roles⟩
  · rw [List.map_append, List.map_append, List.map_singleton, List.map_singleton,
      ← List.concat_eq_append, List.nodup_concat]
    refine ⟨fun hmem => ?_, hdone.places⟩
    obtain ⟨e, he, hsame⟩ := List.mem_map.mp hmem
    exact hfree ⟨e, he, hsame.trans hkey⟩
  · simp [hdone.files, bootFile]

/-- **What a plan that passes is.** -/
structure ValidPlan (plan : MediaImagePlan) (partition : PartitionLayout)
    (files : List VerifiedBootFile) : Prop where
  medium : plan.medium = ascii "mbr-fat32"
  scheme : partition.scheme = ascii "mbr"
  filesystem : partition.filesystem = ascii "fat32"
  label : validateFatLabel partition.label = .ok ()
  geometry : ¬ (partition.startLba < 2048 ∨ partition.startLba % 2048 ≠ 0 ∨
    partition.sizeBytes < 64 * mib ∨ partition.sizeBytes % sectorBytes ≠ 0)
  count : plan.files ≠ [] ∧ plan.files.length ≤ 1024
  names : PlacedNames (plan.files.map planName)
  files : files.Perm (plan.files.map bootFile)

theorem validateMediaPlanForFat32_valid
    (h : validateMediaPlanForFat32 sha256 readSource plan = .ok (partition, files)) :
    ValidPlan plan partition files := by
  unfold validateMediaPlanForFat32 at h
  cases hlayout : plan.layout with
  | iso9660ElTorito => simp [hlayout] at h
  | mbrFat32 startLba sizeBytes label =>
    rw [hlayout] at h
    obtain ⟨_, hgeometry, h⟩ := Except.bind_ok h
    obtain ⟨⟨⟩, hlabel, h⟩ := Except.bind_ok h
    obtain ⟨_, -, h⟩ := Except.bind_ok h
    obtain ⟨_, -, h⟩ := Except.bind_ok h
    obtain ⟨_, -, h⟩ := Except.bind_ok h
    obtain ⟨_, hcount, h⟩ := Except.bind_ok h
    obtain ⟨v, hfiles, h⟩ := Except.bind_ok h
    obtain ⟨⟨⟩, hparents, h⟩ := Except.bind_ok h
    obtain ⟨_, -, h⟩ := Except.bind_ok h
    cases h
    have hgeometry := Except.ensure_eq_ok.mp hgeometry
    have hv : ValidatedFiles plan.files v := by
      refine Except.foldlM_ok hfiles
        ⟨nofun, nofun, nofun, by simp, by simp [HasKeys], List.nodup_nil, List.nodup_nil, rfl⟩
        fun done file c c' hc hstep => validatePlanFile_validated hc hstep
    refine ⟨?_, rfl, rfl, hlabel, fun h => hgeometry (.inr h), Except.ensure_eq_ok.mp hcount,
      ⟨hv.role, hv.path, hv.key, hv.roles, hv.places, (checkParents_apart hv.hasKeys).mp hparents⟩,
      ?_⟩
    · by_contra hmedium
      exact hgeometry (.inl hmedium)
    · rw [← hv.files]
      exact sortByKey_perm _ _

end Validate

/-! ### Manifests -/

/-- The origin of a plan, as far as a manifest must describe it: names without blanks around them,
a build identity that is valid and not of a legacy receipt, external files named by roles, and
the locks of these files. -/
structure Attested (plan : MediaImagePlan) : Prop where
  texts : ∀ text ∈ [plan.profileId, plan.targetPreset, plan.model, plan.transport],
    text ≠ [] ∧ isTrimmed text = true
  legacy : plan.receiptOrigin = .legacyV1 → plan.buildIdentity = none
  identity : ∀ identity ∈ plan.buildIdentity, validateMediaBuildIdentity identity = .ok ()
  origin : ∀ file ∈ plan.files, ∀ lockId fileId, file.origin = .external lockId fileId →
    validRole lockId = true ∧ validRole fileId = true
  locks : ∀ id, id ∈ plan.externalLockSha256.keys ↔
    ∃ file ∈ plan.files, ∃ fileId, file.origin = .external id fileId

/-- The role and the place of a file of a manifest. -/
def manifestName (file : ManifestFile) : Bytes × Bytes := (file.role, file.destination)

theorem originLock_ok {origin : MediaPlanFileOrigin} {lock : Option Bytes} :
    originLock origin = .ok lock ↔
      (origin = .build ∧ lock = none) ∨ ∃ lockId fileId, origin = .external lockId fileId ∧
        validRole lockId = true ∧ validRole fileId = true ∧ lock = some lockId := by
  cases origin with
  | build =>
    constructor
    · intro h
      exact .inl ⟨rfl, (Except.ok.inj h).symm⟩
    · rintro (⟨-, rfl⟩ | ⟨_, _, h, -⟩)
      · rfl
      · cases h
  | external lockId fileId =>
    simp only [originLock, reduceCtorEq, false_and, MediaPlanFileOrigin.external.injEq, false_or]
    constructor
    · intro h
      obtain ⟨⟨⟩, hlock, h⟩ := Except.bind_ok h
      obtain ⟨⟨⟩, hfile, h⟩ := Except.bind_ok h
      cases h
      exact ⟨lockId, fileId, ⟨rfl, rfl⟩, Except.ensure_eq_ok.mp hlock,
        Except.ensure_eq_ok.mp hfile, rfl⟩
    · rintro ⟨_, _, ⟨rfl, rfl⟩, hlock, hfile, rfl⟩
      exact Except.bind_eq_ok.mpr ⟨(), Except.ensure_eq_ok.mpr hlock,
        Except.bind_eq_ok.mpr ⟨(), Except.ensure_eq_ok.mpr hfile, rfl⟩⟩

/-- The state after the files `done` of a manifest. -/
structure ReadFiles (done : List ManifestFile) (m : ManifestRead) : Prop where
  hasRoles : ∀ role, role ∈ m.roles ↔ role ∈ (done.map manifestName).map Prod.fst
  hasKeys : HasKeys (done.map manifestName) m.destinations
  origin : ∀ file ∈ done, ∃ lock, originLock file.origin = .ok lock
  locks : ∀ id, id ∈ m.referencedLocks ↔
    ∃ file ∈ done, ∃ fileId, file.origin = .external id fileId

theorem ReadFiles.snoc {done : List ManifestFile} {m : ManifestRead} (hdone : ReadFiles done m)
    {file : ManifestFile} {key : Bytes} {lock : Option Bytes} {path : PathBuf}
    (hkey : placeKey file.destination = .ok key) (hlock : originLock file.origin = .ok lock) :
    ReadFiles (done ++ [file]) ⟨m.roles.insert file.role, m.destinations.insert key,
      m.referencedLocks.extend lock.toList,
      m.files ++ [⟨path, file.sha256, file.sizeBytes⟩]⟩ := by
  refine ⟨fun role => ?_, fun k => ?_, fun f hf => ?_, fun id => ?_⟩
  · rw [BTreeSet.mem_insert, hdone.hasRoles]
    simp [manifestName]
  · rw [BTreeSet.mem_insert, hdone.hasKeys k]
    simp [or_and_right, exists_or, manifestName, hkey, @eq_comm _ key k]
  · rcases List.mem_append.mp hf with hf | hf
    · exact hdone.origin f hf
    · rw [List.mem_singleton.mp hf]
      exact ⟨lock, hlock⟩
  · rw [BTreeSet.mem_extend, hdone.locks]
    simp only [List.mem_append, List.mem_singleton, or_and_right, exists_or, exists_eq_left]
    refine or_congr_right ?_
    rcases originLock_ok.mp hlock with ⟨horigin, rfl⟩ | ⟨lockId, fileId, horigin, -, -, rfl⟩
    · simp [horigin]
    · simp [horigin, eq_comm]

/-- A file of a manifest whose names and places are free is read if its origin is sound. -/
theorem validateManifestFile_iff {done rest : List ManifestFile} {m m' : ManifestRead}
    {file : ManifestFile} (hdone : ReadFiles done m)
    (hnames : PlacedNames ((done ++ file :: rest).map manifestName)) :
    validateManifestFile m file = .ok m' ↔ ∃ key lock, placeKey file.destination = .ok key ∧
      originLock file.origin = .ok lock ∧
      m' = ⟨m.roles.insert file.role, m.destinations.insert key,
        m.referencedLocks.extend lock.toList,
        m.files ++ [⟨PathBuf.ofBytes file.destination, file.sha256, file.sizeBytes⟩]⟩ := by
  have hmem : manifestName file ∈ (done ++ file :: rest).map manifestName :=
    List.mem_map_of_mem (by simp)
  have hrole : validateRole file.role = .ok () := Except.ensure_eq_ok.mpr (hnames.role _ hmem)
  have hpath := hnames.path _ hmem
  obtain ⟨key, hkey⟩ := hnames.key _ hmem
  have hroles := hnames.roles
  have hplaces := hnames.places
  simp only [List.map_append, List.map_cons] at hroles hplaces
  have hnew : file.role ∉ m.roles := by
    rw [hdone.hasRoles]
    exact fun h => (List.nodup_append.mp hroles).2.2 _ h _ (.head _) rfl
  have hfree : key ∉ m.destinations := by
    rw [hdone.hasKeys]
    rintro ⟨e, he, hsame⟩
    refine (List.nodup_append.mp hplaces).2.2 _ (List.mem_map_of_mem he) _ (.head _) ?_
    exact hsame.trans hkey.symm
  have hfold : (casefoldPathKey (PathBuf.ofBytes file.destination)).mapError
      (fun error => "Unsafe media destination: " ++ error.message) = .ok key :=
    mapError_eq_ok.mpr (placeKey_ofBytes.mp hkey)
  unfold validateManifestFile
  simp only [manifestName] at hpath hkey
  simp only [hrole, hpath, hfold, hkey, Except.bind_eq_ok, Except.ensure_eq_ok, Except.ok.injEq,
    exists_eq_left', hnew, hfree, not_false_eq_true, exists_const, true_and]
  constructor
  · rintro ⟨lock, hlock, h⟩
    exact ⟨key, lock, rfl, hlock, (Except.ok.inj h).symm⟩
  · rintro ⟨_, lock, rfl, hlock, rfl⟩
    exact ⟨lock, hlock, rfl⟩

/-- A whole list of files is read if their origins are sound, and only then. -/
theorem validateManifestFiles_run {done rest : List ManifestFile} {m : ManifestRead}
    (hdone : ReadFiles done m) (hnames : PlacedNames ((done ++ rest).map manifestName)) :
    ((∀ file ∈ rest, ∃ lock, originLock file.origin = .ok lock) →
      ∃ m', rest.foldlM validateManifestFile m = .ok m') ∧
    ∀ m', rest.foldlM validateManifestFile m = .ok m' → ReadFiles (done ++ rest) m' := by
  induction rest generalizing done m with
  | nil =>
    rw [List.append_nil]
    exact ⟨fun _ => ⟨m, rfl⟩, fun m' h => Except.ok.inj h ▸ hdone⟩
  | cons file rest ih =>
    have hnames' : PlacedNames (((done ++ [file]) ++ rest).map manifestName) := by
      rw [List.append_assoc]
      exact hnames
    rw [List.append_cons]
    constructor
    · intro horigins
      obtain ⟨lock, hlock⟩ := horigins file (.head _)
      obtain ⟨key, hkey⟩ := hnames.key (manifestName file) (List.mem_map_of_mem (by simp))
      have hstep := (validateManifestFile_iff hdone hnames).mpr ⟨key, lock, hkey, hlock, rfl⟩
      obtain ⟨m', hm'⟩ := (ih (hdone.snoc hkey hlock) hnames').1
        fun f hf => horigins f (.tail _ hf)
      exact ⟨m', by rw [List.foldlM_cons, hstep]; exact hm'⟩
    · intro m' h
      rw [List.foldlM_cons] at h
      obtain ⟨next, hstep, h⟩ := Except.bind_ok h
      obtain ⟨key, lock, hkey, hlock, rfl⟩ := (validateManifestFile_iff hdone hnames).mp hstep
      exact (ih (hdone.snoc hkey hlock) hnames').2 m' h

section Render

variable {plan : MediaImagePlan} {partition : PartitionLayout} {files : List VerifiedBootFile}
  {image : RawImage}

theorem mediaManifest_files (plan : MediaImagePlan) (partition : PartitionLayout)
    (image : RawImage) : ((mediaManifest plan partition image).files.map manifestName).Perm
      (plan.files.map planName) := by
  rw [mediaManifest, List.map_map]
  exact (sortByKey_perm _ _).map _

theorem mem_mediaManifest (plan : MediaImagePlan) (partition : PartitionLayout)
    (image : RawImage) (p : MediaPlanFileOrigin → Prop) :
    (∃ file ∈ (mediaManifest plan partition image).files, p file.origin) ↔
      ∃ file ∈ plan.files, p file.origin := by
  simp only [mediaManifest, List.mem_map, exists_exists_and_eq_and, (sortByKey_perm _ _).mem_iff]

theorem forall_mediaManifest (plan : MediaImagePlan) (partition : PartitionLayout)
    (image : RawImage) (p : MediaPlanFileOrigin → Prop) :
    (∀ file ∈ (mediaManifest plan partition image).files, p file.origin) ↔
      ∀ file ∈ plan.files, p file.origin := by
  simp only [mediaManifest, List.forall_mem_map, (sortByKey_perm _ _).mem_iff]

/-- **A plan that passes renders to a manifest that passes if it is attested, and only then.** -/
theorem validateManifest_iff (hvalid : ValidPlan plan partition files) :
    (∃ expected, validateManifest (mediaManifest plan partition image) = .ok expected) ↔
      Attested plan := by
  have hnames := hvalid.names.perm (mediaManifest_files plan partition image)
  have hstart : ReadFiles [] ⟨.new, .new, .new, []⟩ :=
    ⟨by simp, by simp [HasKeys], nofun, by simp⟩
  have hrun := validateManifestFiles_run hstart hnames
  rw [List.nil_append] at hrun
  constructor
  · rintro ⟨expected, h⟩
    unfold validateManifest at h
    obtain ⟨_, -, h⟩ := Except.bind_ok h
    obtain ⟨_, -, h⟩ := Except.bind_ok h
    obtain ⟨_, hlegacy, h⟩ := Except.bind_ok h
    obtain ⟨⟨⟩, hidentity, h⟩ := Except.bind_ok h
    obtain ⟨⟨⟩, htexts, h⟩ := Except.bind_ok h
    obtain ⟨_, -, h⟩ := Except.bind_ok h
    obtain ⟨_, -, h⟩ := Except.bind_ok h
    obtain ⟨_, -, h⟩ := Except.bind_ok h
    obtain ⟨m, hm, h⟩ := Except.bind_ok h
    obtain ⟨_, -, h⟩ := Except.bind_ok h
    obtain ⟨_, -, h⟩ := Except.bind_ok h
    obtain ⟨_, hlocks, -⟩ := Except.bind_ok h
    have hread := hrun.2 m hm
    have hlocks := Except.ensure_eq_ok.mp hlocks
    have hlegacy := Except.ensure_eq_ok.mp hlegacy
    refine ⟨fun text htext => ?_, fun horigin => ?_, fun identity hmem => ?_,
      fun file hfile lockId fileId horigin => ?_, fun id => ?_⟩
    · obtain ⟨field, hfield, rfl⟩ : ∃ field ∈ identityFields (mediaManifest plan partition image),
          field.1 = text := by
        simpa [identityFields, mediaManifest, eq_comm] using htext
      exact Except.ensure_eq_ok.mp (Except.forM_ok htexts field hfield)
    · by_contra hsome
      exact hlegacy ⟨horigin, Option.isSome_iff_ne_none.mpr hsome⟩
    · have := Except.forM_ok hidentity identity (Option.mem_toList.mpr hmem)
      exact mapError_ok this
    · obtain ⟨lock, hlock⟩ := (forall_mediaManifest plan partition image fun origin =>
        ∃ lock, originLock origin = .ok lock).mp hread.origin file hfile
      rw [horigin] at hlock
      rcases originLock_ok.mp hlock with ⟨h, -⟩ | ⟨_, _, h, hlockId, hfileId, -⟩
      · cases h
      · obtain ⟨rfl, rfl⟩ := MediaPlanFileOrigin.external.inj h
        exact ⟨hlockId, hfileId⟩
    · have hid := hread.locks id
      rw [hlocks, BTreeSet.mem_collect] at hid
      exact hid.trans (mem_mediaManifest plan partition image
          fun origin => ∃ fileId, origin = .external id fileId)
  · intro hattested
    have horigins : ∀ file ∈ (mediaManifest plan partition image).files,
        ∃ lock, originLock file.origin = .ok lock := by
      refine (forall_mediaManifest plan partition image
        fun origin => ∃ lock, originLock origin = .ok lock).mpr fun file hfile => ?_
      cases horigin : file.origin with
      | build => exact ⟨none, rfl⟩
      | external lockId fileId =>
        obtain ⟨hlock, hid⟩ := hattested.origin file hfile lockId fileId horigin
        exact ⟨some lockId, originLock_ok.mpr (.inr ⟨_, _, rfl, hlock, hid, rfl⟩)⟩
    obtain ⟨m, hm⟩ := hrun.1 horigins
    have hread := hrun.2 m hm
    have hlocks : ∀ id, id ∈ m.referencedLocks ↔ id ∈ plan.externalLockSha256.keys := by
      intro id
      rw [hread.locks, hattested.locks]
      exact mem_mediaManifest plan partition image fun origin => ∃ fileId, origin = .external id fileId
    refine ⟨m.files, ?_⟩
    unfold validateManifest
    simp only [Except.bind_eq_ok, Except.ensure_eq_ok]
    refine ⟨(), ⟨.inr rfl, rfl, hvalid.medium, hvalid.scheme, hvalid.filesystem, rfl⟩, (),
      fun h => absurd h.1 (Nat.succ_ne_self 1), (), ?_, (), ?_, (), ?_, (), hvalid.label, (),
      hvalid.geometry, (), ?_, m, hm, (), (checkParents_apart hread.hasKeys).mpr hnames.apart, (),
      ?_, (), ?_, rfl⟩
    · rintro ⟨horigin, hsome⟩
      rw [show (mediaManifest plan partition image).buildIdentity = none from
        hattested.legacy horigin] at hsome
      cases hsome
    · refine Except.forM_of fun identity hmem => mapError_eq_ok.mpr ?_
      exact hattested.identity identity (Option.mem_toList.mp hmem)
    · refine Except.forM_of fun field hfield => Except.ensure_eq_ok.mpr (hattested.texts field.1 ?_)
      have hfield' := List.mem_map_of_mem (f := Prod.fst) hfield
      exact hfield'
    · have hlength : (mediaManifest plan partition image).files.length = plan.files.length := by
        rw [mediaManifest, List.length_map, (sortByKey_perm _ _).length_eq]
      rw [hlength, ← List.length_pos_iff_ne_nil, hlength, List.length_pos_iff_ne_nil]
      exact hvalid.count
    · refine Except.forM_of fun id hid => Except.ensure_eq_ok.mpr ?_
      obtain ⟨file, hfile, fileId, horigin⟩ := (hattested.locks id).mp hid
      exact (hattested.origin file hfile id fileId horigin).1
    · refine BTreeSet.ext fun id => ?_
      rw [BTreeSet.mem_collect]
      exact hlocks id

end Render

end Board

end ArosTools
