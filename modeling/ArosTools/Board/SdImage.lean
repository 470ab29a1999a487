import ArosTools.Media.Plan

/-!
# FAT32 images

A raw image has a master boot record and one FAT32 partition. `buildRawImageFromParts` formats the
partition, writes the files with the directories above them, and reads everything back;
`verifyRawImage` is the independent reader.

The FAT implementation is a parameter (`FatFs`): what a volume holds is what it lists
(`FatFs.Listed`) and what it yields when a file is opened.

* `collectFatEntries_listed` — the inventory of a volume is what it lists;
* `verifyFatInventory_holds` — a volume that passes holds the expected files, and the directories
  above them, up to case.
-/

namespace ArosTools

namespace Board

open Media SlashPath

/-! ### Names and geometry -/

/-- `SECTOR_BYTES`. -/
def sectorBytes : ℕ := 512

/-- `MIB`. -/
def mib : ℕ := 1024 * 1024

/-- `PartitionLayout`. -/
structure PartitionLayout where
  scheme : Bytes
  filesystem : Bytes
  startLba : ℕ
  sizeBytes : ℕ
  label : Bytes
  deriving DecidableEq, Repr

/-- `VerifiedBootFile`. -/
structure VerifiedBootFile where
  role : Bytes
  source : PathBuf
  destination : PathBuf
  sha256 : Sha256Digest
  sizeBytes : ℕ
  deriving DecidableEq, Repr

/-- `ImageFileExpectation`. -/
structure ImageFileExpectation where
  destination : PathBuf
  sha256 : Sha256Digest
  sizeBytes : ℕ
  deriving DecidableEq, Repr

/-- `RawImage`. -/
structure RawImage where
  path : PathBuf
  sha256 : Sha256Digest
  sizeBytes : ℕ
  deriving DecidableEq, Repr

/-- `ImageGeometry`. -/
structure ImageGeometry where
  partitionStartLba : ℕ
  partitionSectorCount : ℕ
  partitionStartBytes : ℕ
  partitionSizeBytes : ℕ
  imageSizeBytes : ℕ
  deriving DecidableEq, Repr

/-- `validate_fat_label`. -/
def validateFatLabel (label : Bytes) : Except String Unit :=
  Except.ensure (label ≠ [] ∧ label.length ≤ 11 ∧ label.all labelByte)
    ("partition.label '" ++ displayBytes label ++
      "' must contain 1–11 ASCII letters, digits or underscores for a FAT32 volume.")

/-- A role: lower-case letters, digits and hyphens. -/
def validRole (role : Bytes) : Bool := role ≠ [] && role.all fun b => lowerOrDigit b || b == 0x2d

/-- `validate_role`. -/
def validateRole (role : Bytes) : Except String Unit :=
  Except.ensure (validRole role)
    ("files.role '" ++ displayBytes role ++
      "' must contain lowercase ASCII letters, digits or hyphens.")

/-- A written path that consists of names. -/
def plainPath (path : PathBuf) : Bool :=
  !path.absolute && path.components.all fun
    | .normal _ => true
    | _ => false

/-- `validate_relative_path`. -/
def validateRelativePath (rawPath : Bytes) (label : String) : Except String PathBuf := do
  Except.ensure (¬ (rawPath = [] ∨ 0x5c ∈ rawPath ∨ hasControl rawPath))
    (label ++ " '" ++ displayBytes rawPath ++ "' is not a safe portable relative path.")
  Except.ensure (plainPath (PathBuf.ofBytes rawPath))
    (label ++ " '" ++ displayBytes rawPath ++ "' must be a relative path without '.' or '..'.")
  Except.ensure ((PathBuf.ofBytes rawPath).components ≠ [])
    (label ++ " '" ++ displayBytes rawPath ++ "' is not a usable relative path.")
  pure (PathBuf.ofBytes rawPath)

/-- The text of a name; other components have none. -/
def nameText : Component → Option Bytes
  | .normal name => some (toStringLossy name)
  | _ => none

/-- `portable_path`. -/
def portablePath (path : PathBuf) : Bytes :=
  [0x2f].intercalate (path.components.filterMap nameText)

/-- `image_geometry`. -/
def imageGeometry (partition : PartitionLayout) : Except String ImageGeometry := do
  Except.ensure (partition.startLba < 2 ^ 32) ("partition.start_lba " ++
    toString partition.startLba ++ " cannot be represented in a legacy MBR entry")
  let sectors := partition.sizeBytes / sectorBytes
  Except.ensure (sectors < 2 ^ 32) ("partition.size_bytes " ++ toString partition.sizeBytes ++
    " is too large for a legacy MBR FAT32 entry")
  Except.ensure (sectors ≠ 0) "partition.size_bytes must contain at least one sector."
  let startBytes ← (checkedMul partition.startLba sectorBytes).elim
    (.error ("partition.start_lba " ++ toString partition.startLba ++
      " overflows the image byte offset.")) .ok
  let imageSize ← (checkedAdd startBytes partition.sizeBytes).elim
    (.error "SD image size overflows u64.") .ok
  pure ⟨partition.startLba, sectors, startBytes, partition.sizeBytes, imageSize⟩

/-- The sector that `write_mbr` writes. -/
def mbrSector (geometry : ImageGeometry) : Bytes :=
  List.replicate 446 0 ++ [0x00, 0x00, 0x02, 0x00, 0x0c, 0xfe, 0xff, 0xff] ++
    leBytes 4 geometry.partitionStartLba ++ leBytes 4 geometry.partitionSectorCount ++
    List.replicate 48 0 ++ [0x55, 0xaa]

/-- `verify_mbr`. -/
def verifyMbr (sector : Bytes) (geometry : ImageGeometry) : Except String Unit := do
  Except.ensure (sector.length = sectorBytes)
    "Could not read MBR from staged raw SD image"
  Except.ensure (getRange sector 510 512 = some [0x55, 0xaa])
    "Staged raw SD image has no valid MBR signature."
  Except.ensure (getRange sector 450 451 = some [0x0c] ∧
      getRange sector 454 458 = some (leBytes 4 geometry.partitionStartLba) ∧
      getRange sector 458 462 = some (leBytes 4 geometry.partitionSectorCount))
    "Staged raw SD image has an unexpected MBR FAT32 partition entry."

/-! ### The FAT implementation -/

/-- The FAT implementation, as the program uses it. -/
structure FatFs where
  /-- What a partition holds. -/
  Volume : Type
  /-- `format_volume`, with the number of sectors, the label and the volume ID. -/
  format : ℕ → Bytes → ℕ → Except String Volume
  /-- `FileSystem::new`, and whether the volume is FAT32. -/
  mount : Volume → Except String Bool
  /-- `Dir::create_dir`; a directory that exists is opened. -/
  createDir : Volume → Bytes → Except String Volume
  /-- `Dir::create_file`, and the contents written to it. -/
  writeFile : Volume → Bytes → Bytes → Except String Volume
  /-- The names in a directory, and whether each is a directory. -/
  listDir : Volume → List Bytes → Except String (List (Bytes × Bool))
  /-- `Dir::open_file`, and the contents read from it. -/
  openFile : Volume → Bytes → Except String Bytes
  /-- `FileSystem::unmount`. -/
  unmount : Volume → Except String Unit

/-- An image file: its size, its first sector and its partition. -/
structure ImageFile (fat : FatFs) where
  size : ℕ
  mbr : Bytes
  volume : fat.Volume

/-- An entry that a listing names, other than `.` and `..`. -/
def properName (name : Bytes) : Bool := name ≠ ascii "." && name ≠ ascii ".."

namespace FatFs

variable (fat : FatFs)

/-- What a volume lists, from its root down: the names on the way, and whether the last of them
is a directory. -/
inductive Listed (volume : fat.Volume) : List Bytes → Bool → Prop
  | top {entries : List (Bytes × Bool)} {name : Bytes} {isDir : Bool}
      (hlist : fat.listDir volume [] = .ok entries) (hentry : (name, isDir) ∈ entries)
      (hname : properName name = true) : Listed volume [name] isDir
  | inside {dir : List Bytes} {entries : List (Bytes × Bool)} {name : Bytes} {isDir : Bool}
      (hdir : Listed volume dir true) (hlist : fat.listDir volume dir = .ok entries)
      (hentry : (name, isDir) ∈ entries) (hname : properName name = true) :
      Listed volume (dir ++ [name]) isDir

end FatFs

/-! ### Writing -/

section Write

variable (fat : FatFs) (sha256 : Bytes → Sha256Digest) (copySource : PathBuf → Except String Bytes)

/-- `fat_volume_label`. -/
def fatVolumeLabel (label : Bytes) : Bytes := label ++ List.replicate (11 - label.length) 0x20

/-- One level of the directories above a file: the directory so far, and the volume. -/
def createFatDirectory (made : Bytes × fat.Volume) (component : Bytes) :
    Except String (Bytes × fat.Volume) := do
  let current := if made.1 = [] then component else made.1 ++ 0x2f :: component
  let volume ← fat.createDir made.2 current
  pure (current, volume)

/-- `create_fat_parent_directories`. -/
def createFatParentDirectories (volume : fat.Volume) (destination : Bytes) :
    Except String fat.Volume :=
  match rsplitOnce 0x2f destination with
  | none => .ok volume
  | some (parent, _) =>
    ((parent.splitOn 0x2f).foldlM (createFatDirectory fat) ([], volume)).map Prod.snd

/-- `write_file_to_fat`. -/
def writeFileToFat (volume : fat.Volume) (file : VerifiedBootFile) : Except String fat.Volume := do
  let destination := portablePath file.destination
  let volume ← createFatParentDirectories fat volume destination
  let contents ← copySource file.source
  let volume ← fat.writeFile volume destination contents
  Except.ensure (sha256 contents = file.sha256 ∧ contents.length = file.sizeBytes)
    "Boot bundle input changed while creating the FAT32 image"
  pure volume

/-- `write_fat32_payload`. -/
def writeFat32Payload (partition : PartitionLayout) (files : List VerifiedBootFile)
    (volumeId : ℕ) (geometry : ImageGeometry) : Except String fat.Volume := do
  let volume ← fat.format geometry.partitionSectorCount (fatVolumeLabel partition.label) volumeId
  let isFat32 ← fat.mount volume
  Except.ensure isFat32
    "New boot partition is not FAT32; refusing to publish an incompatible Pi image."
  let volume ← files.foldlM (writeFileToFat fat sha256 copySource) volume
  fat.unmount volume
  pure volume

end Write

/-! ### Reading back -/

/-- A text as a path, case-folded: the key under which two texts are one place. -/
def placeKey (text : Bytes) : Except String Bytes :=
  (casefoldPathKey (PathBuf.ofBytes text)).mapError fun error => error.message

/-- The files and the directories that an inventory has found. -/
structure Inventory where
  files : BTreeSet Bytes
  dirs : BTreeSet Bytes

/-- The number of entries found. -/
def Inventory.len (inventory : Inventory) : ℕ := inventory.files.len + inventory.dirs.len

section Read

variable (fat : FatFs) (sha256 : Bytes → Sha256Digest)

/-- The key of a listed entry. -/
def entryKey (dir : List Bytes) (name : Bytes) : Except String Bytes := do
  let _ ← validateRelativePath ([0x2f].intercalate (dir ++ [name])) "FAT32 image entry"
  (placeKey ([0x2f].intercalate (dir ++ [name]))).mapError fun error =>
    "Unsafe FAT32 image entry: " ++ error

/-- Adds a listed entry; `collect` adds what stands below a directory. -/
def addEntry (collect : List Bytes → Inventory → Except String Inventory) (dir : List Bytes)
    (inventory : Inventory) (entry : Bytes × Bool) (key : Bytes) : Except String Inventory :=
  if entry.2 then do
    Except.ensure (key ∉ inventory.dirs) "FAT32 image contains a duplicate directory entry."
    collect (dir ++ [entry.1]) { inventory with dirs := inventory.dirs.insert key }
  else do
    Except.ensure (key ∉ inventory.files) "FAT32 image contains a duplicate file entry."
    pure { inventory with files := inventory.files.insert key }

/-- One listed entry. -/
def collectEntry (collect : List Bytes → Inventory → Except String Inventory) (dir : List Bytes)
    (inventory : Inventory) (entry : Bytes × Bool) : Except String Inventory := do
  let key ← entryKey dir entry.1
  let inventory ← addEntry collect dir inventory entry key
  Except.ensure (inventory.len ≤ 2048) "FAT32 image directory inventory exceeds its limits."
  pure inventory

/-- `collect_fat_entries`: `fuel` levels are left of the 33 that are walked. -/
def collectFatEntries (volume : fat.Volume) :
    ℕ → List Bytes → Inventory → Except String Inventory
  | 0, _, _ => .error "FAT32 image directory inventory exceeds its limits."
  | fuel + 1, dir, inventory => do
    Except.ensure (inventory.len ≤ 2048) "FAT32 image directory inventory exceeds its limits."
    let entries ← fat.listDir volume dir
    (entries.filter fun entry => properName entry.1).foldlM
      (collectEntry (collectFatEntries volume fuel) dir) inventory

/-- What the expected files add to the expected inventory. -/
def expectFile (expected : Inventory) (file : ImageFileExpectation) : Except String Inventory := do
  let key ← (casefoldPathKey file.destination).mapError fun error =>
    "Unsafe expected FAT path: " ++ error.message
  let above ← (ancestors 0x2f (portablePath file.destination)).mapM fun directory =>
    (placeKey directory).mapError fun error => "Unsafe expected FAT directory: " ++ error
  pure ⟨expected.files.insert key, expected.dirs.extend above⟩

/-- `verify_fat_inventory`. -/
def verifyFatInventory (volume : fat.Volume) (files : List ImageFileExpectation) :
    Except String Unit := do
  let actual ← collectFatEntries fat volume 33 [] ⟨.new, .new⟩
  let expected ← files.foldlM expectFile ⟨.new, .new⟩
  Except.ensure (actual.files = expected.files ∧ actual.dirs = expected.dirs)
    "FAT32 image inventory differs from the declared media files."

/-- One expected file, read back. -/
def readBack (volume : fat.Volume) (file : ImageFileExpectation) : Except String Unit := do
  let contents ← fat.openFile volume (portablePath file.destination)
  Except.ensure (sha256 contents = file.sha256 ∧ contents.length = file.sizeBytes)
    "Read-back verification failed"

/-- `verify_raw_image`. -/
def verifyRawImage (files : List ImageFileExpectation) (image : ImageFile fat)
    (geometry : ImageGeometry) : Except String Unit := do
  verifyMbr image.mbr geometry
  let isFat32 ← fat.mount image.volume
  Except.ensure isFat32 "Staged boot partition did not read back as FAT32."
  verifyFatInventory fat image.volume files
  files.forM (readBack fat sha256 image.volume)
  fat.unmount image.volume

/-- `build_raw_image_from_parts`: the image file, with its digest. -/
def buildRawImageFromParts (copySource : PathBuf → Except String Bytes)
    (hashImage : ImageFile fat → Sha256Digest) (partition : PartitionLayout)
    (files : List VerifiedBootFile) (volumeId : ℕ) (path : PathBuf) :
    Except String (RawImage × ImageFile fat) := do
  let geometry ← imageGeometry partition
  let volume ← writeFat32Payload fat sha256 copySource partition files volumeId geometry
  let image : ImageFile fat := ⟨geometry.imageSizeBytes, mbrSector geometry, volume⟩
  verifyRawImage fat sha256
    (files.map fun file => ⟨file.destination, file.sha256, file.sizeBytes⟩) image geometry
  Except.ensure (image.size = geometry.imageSizeBytes) "Staged raw SD image has an unexpected size"
  pure (⟨path, hashImage image, image.size⟩, image)

end Read

/-! ### What a verified image holds -/

section Holds

variable {fat : FatFs} {sha256 : Bytes → Sha256Digest} {volume : fat.Volume}

/-- What is listed below a directory, with the names from there. -/
inductive Below (fat : FatFs) (volume : fat.Volume) : List Bytes → List Bytes → Bool → Prop
  | entry {dir : List Bytes} {entries : List (Bytes × Bool)} {name : Bytes} {isDir : Bool}
      (hlist : fat.listDir volume dir = .ok entries) (hentry : (name, isDir) ∈ entries)
      (hname : properName name = true) : Below fat volume dir (dir ++ [name]) isDir
  | descend {dir path : List Bytes} {entries : List (Bytes × Bool)} {name : Bytes} {isDir : Bool}
      (hlist : fat.listDir volume dir = .ok entries) (hentry : (name, true) ∈ entries)
      (hname : properName name = true)
      (hpath : Below fat volume (dir ++ [name]) path isDir) : Below fat volume dir path isDir

/-- What is listed below a listed directory is listed. -/
theorem Below.listed {dir path : List Bytes} {isDir : Bool} (h : Below fat volume dir path isDir)
    (hdir : dir = [] ∨ fat.Listed volume dir true) : fat.Listed volume path isDir := by
  have hstep : ∀ {dir : List Bytes} {entries : List (Bytes × Bool)} {name : Bytes} {isDir : Bool},
      (dir = [] ∨ fat.Listed volume dir true) → fat.listDir volume dir = .ok entries →
      (name, isDir) ∈ entries → properName name = true →
      fat.Listed volume (dir ++ [name]) isDir := by
    rintro dir entries name isDir (rfl | hdir) hlist hentry hname
    · exact .top hlist hentry hname
    · exact .inside hdir hlist hentry hname
  induction h with
  | entry hlist hentry hname => exact hstep hdir hlist hentry hname
  | descend hlist hentry hname _ ih => exact ih (.inr (hstep hdir hlist hentry hname))

/-- What is listed in a directory below is listed below. -/
theorem Below.inside {dir path : List Bytes} {entries : List (Bytes × Bool)} {name : Bytes}
    {isDir : Bool} (h : Below fat volume dir path true)
    (hlist : fat.listDir volume path = .ok entries) (hentry : (name, isDir) ∈ entries)
    (hname : properName name = true) : Below fat volume dir (path ++ [name]) isDir := by
  generalize hkind : true = kind at h
  induction h with
  | entry hlist' hentry' hname' =>
    subst hkind
    exact .descend hlist' hentry' hname' (.entry hlist hentry hname)
  | descend hlist' hentry' hname' _ ih => exact .descend hlist' hentry' hname' (ih hlist hkind)

theorem listed_iff_below {path : List Bytes} {isDir : Bool} :
    fat.Listed volume path isDir ↔ Below fat volume [] path isDir := by
  constructor
  · intro h
    induction h with
    | top hlist hentry hname => exact .entry hlist hentry hname
    | inside _ hlist hentry hname ih => exact ih.inside hlist hentry hname
  · exact fun h => h.listed (.inl rfl)

/-- An inventory after the entries `found` have been added: the keys of the new places. -/
structure Collected (found : List Bytes → Bool → Prop) (before after : Inventory) : Prop where
  files : ∀ key, key ∈ after.files ↔ key ∈ before.files ∨
    ∃ path, found path false ∧ placeKey ([0x2f].intercalate path) = .ok key
  dirs : ∀ key, key ∈ after.dirs ↔ key ∈ before.dirs ∨
    ∃ path, found path true ∧ placeKey ([0x2f].intercalate path) = .ok key
  keyed : ∀ path isDir, found path isDir → ∃ key, placeKey ([0x2f].intercalate path) = .ok key

namespace Collected

variable {found found' : List Bytes → Bool → Prop} {a b c : Inventory}

theorem congr (h : Collected found a b) (hfound : ∀ path isDir, found' path isDir ↔ found path isDir) :
    Collected found' a b :=
  ⟨fun key => by simpa only [hfound] using h.files key,
    fun key => by simpa only [hfound] using h.dirs key,
    fun path isDir hp => h.keyed path isDir ((hfound path isDir).mp hp)⟩

theorem trans (h : Collected found a b) (h' : Collected found' b c) :
    Collected (fun path isDir => found path isDir ∨ found' path isDir) a c := by
  refine ⟨fun key => ?_, fun key => ?_, fun path isDir hp => ?_⟩
  · rw [h'.files, h.files, or_assoc]
    simp only [or_and_right, exists_or]
  · rw [h'.dirs, h.dirs, or_assoc]
    simp only [or_and_right, exists_or]
  · rcases hp with hp | hp
    · exact h.keyed path isDir hp
    · exact h'.keyed path isDir hp

/-- Nothing found. -/
theorem refl (a : Inventory) : Collected (fun _ _ => False) a a :=
  ⟨by simp, by simp, nofun⟩

/-- One entry found. -/
theorem single (a : Inventory) {path : List Bytes} (isDir : Bool) {key : Bytes}
    (hkey : placeKey ([0x2f].intercalate path) = .ok key) :
    Collected (fun p d => p = path ∧ d = isDir) a
      (if isDir then { a with dirs := a.dirs.insert key }
        else { a with files := a.files.insert key }) := by
  have hiff : ∀ k, k = key ↔ placeKey ([0x2f].intercalate path) = .ok k := fun k => by
    rw [hkey, Except.ok.injEq, eq_comm]
  cases isDir with
  | true =>
    refine ⟨by simp, fun k => ?_, ?_⟩
    · simp [BTreeSet.mem_insert, hiff]
    · rintro p d ⟨rfl, rfl⟩
      exact ⟨key, hkey⟩
  | false =>
    refine ⟨fun k => ?_, by simp, ?_⟩
    · simp [BTreeSet.mem_insert, hiff]
    · rintro p d ⟨rfl, rfl⟩
      exact ⟨key, hkey⟩

end Collected

theorem entryKey_ok {dir : List Bytes} {name key : Bytes} (h : entryKey dir name = .ok key) :
    placeKey ([0x2f].intercalate (dir ++ [name])) = .ok key := by
  unfold entryKey at h
  obtain ⟨_, -, h⟩ := Except.bind_ok h
  exact mapError_ok h

/-- What one entry of a directory stands for: itself and, if it is a directory, what is below. -/
def EntryBelow (fat : FatFs) (volume : fat.Volume) (dir : List Bytes) (entry : Bytes × Bool)
    (path : List Bytes) (isDir : Bool) : Prop :=
  (path = dir ++ [entry.1] ∧ isDir = entry.2) ∨
    (entry.2 = true ∧ Below fat volume (dir ++ [entry.1]) path isDir)

theorem collectEntry_collected {collect : List Bytes → Inventory → Except String Inventory}
    {dir : List Bytes} {entry : Bytes × Bool} {before after : Inventory}
    (hcollect : ∀ dir before after, collect dir before = .ok after →
      Collected (Below fat volume dir) before after)
    (h : collectEntry collect dir before entry = .ok after) :
    Collected (EntryBelow fat volume dir entry) before after := by
  unfold collectEntry at h
  obtain ⟨key, hkey, h⟩ := Except.bind_ok h
  obtain ⟨inventory, hadd, h⟩ := Except.bind_ok h
  obtain ⟨_, -, h⟩ := Except.bind_ok h
  cases h
  have hsingle := Collected.single before entry.2 (entryKey_ok hkey)
  unfold addEntry at hadd
  by_cases hdir : entry.2 = true
  · rw [if_pos hdir] at hadd hsingle
    obtain ⟨_, -, hadd⟩ := Except.bind_ok hadd
    refine (hsingle.trans (hcollect _ _ _ hadd)).congr fun path isDir => ?_
    simp [EntryBelow, hdir]
  · rw [if_neg hdir] at hadd hsingle
    obtain ⟨_, -, hadd⟩ := Except.bind_ok hadd
    cases hadd
    refine hsingle.congr fun path isDir => ?_
    simp [EntryBelow, hdir]

/-- **The walk of a directory finds what is listed below it.** -/
theorem collectFatEntries_collected {fuel : ℕ} {dir : List Bytes} {before after : Inventory}
    (h : collectFatEntries fat volume fuel dir before = .ok after) :
    Collected (Below fat volume dir) before after := by
  induction fuel generalizing dir before after with
  | zero => cases h
  | succ fuel ih =>
    unfold collectFatEntries at h
    obtain ⟨_, -, h⟩ := Except.bind_ok h
    obtain ⟨entries, hlist, h⟩ := Except.bind_ok h
    -- over the entries of the directory: each adds itself and what is below it
    have hrun : Collected (fun path isDir => ∃ entry ∈ entries.filter fun e => properName e.1,
        EntryBelow fat volume dir entry path isDir) before after := by
      refine Except.foldlM_ok (motive := fun done inventory =>
        Collected (fun path isDir => ∃ entry ∈ done, EntryBelow fat volume dir entry path isDir)
          before inventory) h ?_ ?_
      · exact (Collected.refl before).congr (by simp)
      · intro done entry c c' hc hstep
        refine (hc.trans (collectEntry_collected (fun _ _ _ => ih) hstep)).congr fun path isDir => ?_
        simp only [List.mem_append, List.mem_singleton, or_and_right, exists_or, exists_eq_left]
    refine hrun.congr fun path isDir => ?_
    simp only [List.mem_filter]
    constructor
    · rintro (⟨hlist', hentry, hname⟩ | ⟨hlist', hentry, hname, hpath⟩)
      · obtain rfl := Except.ok.inj (hlist.symm.trans hlist')
        exact ⟨_, ⟨hentry, hname⟩, .inl ⟨rfl, rfl⟩⟩
      · obtain rfl := Except.ok.inj (hlist.symm.trans hlist')
        exact ⟨_, ⟨hentry, hname⟩, .inr ⟨rfl, hpath⟩⟩
    · rintro ⟨⟨name, isDir'⟩, ⟨hentry, hname⟩, ⟨rfl, rfl⟩ | ⟨hdir, hpath⟩⟩
      · exact .entry hlist hentry hname
      · obtain rfl : isDir' = true := hdir
        exact .descend hlist hentry hname hpath

/-- **The inventory of a volume is what it lists.** -/
theorem collectFatEntries_listed {inventory : Inventory}
    (h : collectFatEntries fat volume 33 [] ⟨.new, .new⟩ = .ok inventory) :
    Collected (fat.Listed volume) ⟨.new, .new⟩ inventory :=
  (collectFatEntries_collected h).congr fun _ _ => listed_iff_below

/-- The keys of the expected files, and of what lies above them. -/
structure Expected (files : List ImageFileExpectation) (expected : Inventory) : Prop where
  fileKey : ∀ key, key ∈ expected.files ↔
    ∃ file ∈ files, casefoldPathKey file.destination = .ok key
  dirKey : ∀ key, key ∈ expected.dirs ↔
    ∃ file ∈ files, ∃ above, Above 0x2f above (portablePath file.destination) ∧
      placeKey above = .ok key
  keyed : ∀ file ∈ files, ∀ above, Above 0x2f above (portablePath file.destination) →
    ∃ key, placeKey above = .ok key

theorem expectFile_expected {done : List ImageFileExpectation} {expected expected' : Inventory}
    {file : ImageFileExpectation} (hdone : Expected done expected)
    (h : expectFile expected file = .ok expected') : Expected (done ++ [file]) expected' := by
  unfold expectFile at h
  obtain ⟨key, hkey, h⟩ := Except.bind_ok h
  obtain ⟨above, habove, h⟩ := Except.bind_ok h
  cases h
  have hkey := mapError_ok hkey
  have hmem : ∀ k, k ∈ above ↔ ∃ a, Above 0x2f a (portablePath file.destination) ∧
      placeKey a = .ok k := by
    intro k
    rw [Except.mem_of_mapM habove]
    simp only [mem_ancestors, mapError_eq_ok]
  refine ⟨fun k => ?_, fun k => ?_, fun f hf a ha => ?_⟩
  · rw [BTreeSet.mem_insert, hdone.fileKey]
    simp only [List.mem_append, List.mem_singleton, or_and_right, exists_or, exists_eq_left, hkey,
      Except.ok.injEq, @eq_comm _ key k]
  · rw [BTreeSet.mem_extend, hdone.dirKey, hmem]
    simp only [List.mem_append, List.mem_singleton, or_and_right, exists_or, exists_eq_left]
  · rcases List.mem_append.mp hf with hf | hf
    · exact hdone.keyed f hf a ha
    · rw [List.mem_singleton.mp hf] at ha
      obtain ⟨k, hk⟩ := Except.exists_of_mapM habove a (mem_ancestors.mpr ha)
      exact ⟨k, mapError_ok hk⟩

/-- **A volume that passes holds the expected files and the directories above them**, up to
case. -/
theorem verifyFatInventory_holds {files : List ImageFileExpectation}
    (h : verifyFatInventory fat volume files = .ok ()) :
    ∃ inventory, Collected (fat.Listed volume) ⟨.new, .new⟩ inventory ∧
      Expected files inventory := by
  unfold verifyFatInventory at h
  obtain ⟨actual, hactual, h⟩ := Except.bind_ok h
  obtain ⟨expected, hexpected, h⟩ := Except.bind_ok h
  obtain ⟨hfiles, hdirs⟩ := Except.ensure_eq_ok.mp h
  have hrun : Expected files expected := by
    refine Except.foldlM_ok hexpected ⟨?_, ?_, nofun⟩
      fun done file c c' hc hstep => expectFile_expected hc hstep
    · simp
    · simp
  refine ⟨actual, collectFatEntries_listed hactual, fun key => ?_, fun key => ?_, hrun.keyed⟩
  · rw [hfiles]
    exact hrun.fileKey key
  · rw [hdirs]
    exact hrun.dirKey key

end Holds

end Board

end ArosTools
