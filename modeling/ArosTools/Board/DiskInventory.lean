import ArosTools.Program.BTree
import ArosTools.Program.JsonValue
import ArosTools.Program.Utf8Text
import ArosTools.Publication.Names
import Mathlib.Data.List.Sort
import Mathlib.Logic.Function.Basic

/-!
# The inventory of removable disks

What `lsblk --json` reports is searched for whole removable disks that nothing has mounted.  A
question mark in the source ends a search with no candidate, a `return Some(false)` does the same
one level further up: the walk over a disk and its partitions answers `none`, `some none`, or the
kernel names it has seen.

* `makeCandidate` : a candidate with its fingerprint and its scan id.
* `linuxCandidateFromNode` : the candidate of one reported block device.
* `retainUnambiguousPhysicalCandidates` : the candidates that no other one could be mistaken for.
* `parseLinuxInventory` : the candidates of a report.

A path built from a text is that text: it is displayed as it is written.
-/

namespace ArosTools

namespace DiskInventory

open Str JsonValue

/-- `DiskPlatform`. -/
inductive DiskPlatform where
  | macos
  | linux
  deriving DecidableEq, Repr

/-- `DiskPlatform::label`. -/
def DiskPlatform.label : DiskPlatform → Text
  | .macos => lit "macos"
  | .linux => lit "linux"

/-- `DiskCandidate`. -/
structure DiskCandidate where
  scanId : Bytes
  fingerprint : Sha256Digest
  platform : DiskPlatform
  devicePath : Text
  rawDevicePath : Text
  sizeBytes : UInt64
  identity : Text
  model : Text
  transport : Text
  wholeDisk : Bool
  removable : Bool
  writable : Bool
  mounted : Bool
  rawDeviceRdev : Option UInt64
  deriving DecidableEq, Repr

/-! ### Fields -/

/-- `char::is_control`. -/
def isControl (c : Char) : Bool := c.toNat < 0x20 || (0x7f ≤ c.toNat && c.toNat < 0xa0)

/-- `safe_metadata`. -/
def safeMetadata (value : Text) : Bool := value ≠ [] && trim value = value && !value.any isControl

/-- `json_nonempty_string`. -/
def jsonNonemptyString (object : Fields) (field : String) : Option Text :=
  ((get object field).bind asStr).filter safeMetadata

/-- `json_bool_like`. -/
def jsonBoolLike (object : Fields) (field : String) : Option Bool :=
  match get object field with
  | some (.bool value) => some value
  | some (.number (.posInt 0)) => some false
  | some (.number (.posInt 1)) => some true
  | _ => none

/-- `json_u64_like`. -/
def jsonU64Like (object : Fields) (field : String) : Option UInt64 := (get object field).bind asU64

/-- `linux_model`. -/
def linuxModel (object : Fields) : Option Text := do
  let model ← jsonNonemptyString object "model"
  let display := match jsonNonemptyString object "vendor" with
    | some vendor => if vendor ≠ model then vendor ++ lit " " ++ model else model
    | none => model
  if safeMetadata display then some display else none

/-- `linux_identity`. -/
def linuxIdentity (object : Fields) : Option Text :=
  match jsonNonemptyString object "serial", jsonNonemptyString object "wwn" with
  | some serial, some wwn => some (lit "serial:" ++ serial ++ lit ";wwn:" ++ wwn)
  | some serial, none => some (lit "serial:" ++ serial)
  | none, some wwn => some (lit "wwn:" ++ wwn)
  | none, none => none

/-- `u8::is_ascii_lowercase`. -/
def isAsciiLowercase (c : Char) : Bool := 'a' ≤ c && c ≤ 'z'

/-- `u8::is_ascii_digit`. -/
def isAsciiDigit (c : Char) : Bool := '0' ≤ c && c ≤ '9'

/-- `u8::is_ascii_alphanumeric`. -/
def isAsciiAlphanumeric (c : Char) : Bool :=
  isAsciiLowercase c || isAsciiDigit c || ('A' ≤ c && c ≤ 'Z')

/-- `str::to_ascii_lowercase`. -/
def toAsciiLowercase (text : Text) : Text :=
  text.map fun c => if 'A' ≤ c ∧ c ≤ 'Z' then Char.ofNat (c.toNat + 0x20) else c

/-- The name of a whole SCSI disk. -/
def isSdName (name : Text) : Bool :=
  (stripPrefix (lit "sd") name).any fun suffix => suffix ≠ [] && suffix.all isAsciiLowercase

/-- The name of a whole MMC disk. -/
def isMmcName (name : Text) : Bool :=
  (stripPrefix (lit "mmcblk") name).any fun suffix =>
    suffix ≠ [] && suffix.all isAsciiDigit && (suffix.length = 1 || suffix.head? ≠ some '0')

/-- `file_name` of a path whose text is `/dev/` and an alphanumeric name; every other path is
refused together with those that have no file name, or another parent. -/
def deviceName (raw : Text) : Option Text :=
  (stripPrefix (lit "/dev/") raw).filter fun name => name ≠ [] && name.all isAsciiAlphanumeric

/-- `is_linux_whole_device_path`. -/
def isLinuxWholeDevicePath (raw : Text) : Bool :=
  (deviceName raw).any fun name => isSdName name || isMmcName name

/-! ### Candidates -/

section

variable (sha256 : Bytes → Sha256Digest)

/-- The text that `make_candidate` hashes.  The separators are a backslash and an `n`. -/
def fingerprintMaterial (platform : DiskPlatform) (devicePath : Text) (sizeBytes : UInt64)
    (identity model transport : Text) : Text :=
  lit "aros-board-sd-disk-v1\\nplatform=" ++ platform.label ++ lit "\\ndevice=" ++ devicePath ++
    lit "\\nidentity=" ++ identity ++ lit "\\nsize=" ++ decimal sizeBytes.toNat ++
    lit "\\nmodel=" ++ model ++ lit "\\ntransport=" ++ transport ++ lit "\\n"

/-- `make_candidate`. -/
def makeCandidate (platform : DiskPlatform) (devicePath rawDevicePath : Text) (sizeBytes : UInt64)
    (identity model transport : Text) : Option DiskCandidate :=
  if sizeBytes = 0 || !safeMetadata identity || !safeMetadata model || !safeMetadata transport then
    none
  else
    let fingerprint :=
      sha256 (bytes (fingerprintMaterial platform devicePath sizeBytes identity model transport))
    some
      { scanId := bytes (platform.label ++ lit "-") ++ fingerprint.take 16
        fingerprint := fingerprint
        platform := platform
        devicePath := devicePath
        rawDevicePath := rawDevicePath
        sizeBytes := sizeBytes
        identity := identity
        model := model
        transport := transport
        wholeDisk := true
        removable := true
        writable := true
        mounted := false
        rawDeviceRdev := none }

/-! ### One block device -/

/-- `LinuxDeviceFamily`. -/
inductive LinuxDeviceFamily where
  | usbScsi
  | mmc
  deriving DecidableEq, Repr

/-- `linux_device_family`. -/
def linuxDeviceFamily (rootName transport : Text) : Option LinuxDeviceFamily :=
  if transport = lit "usb" ∧ startsWith (lit "sd") rootName then some .usbScsi
  else if transport = lit "mmc" ∧ startsWith (lit "mmcblk") rootName then some .mmc
  else none

/-- `linux_kernel_name`. -/
def linuxKernelName (value : Text) : Option Text :=
  let name := (stripPrefix (lit "/dev/") value).getD value
  if name ≠ [] && name.all isAsciiAlphanumeric then some name else none

/-- What stands between the name of a disk and the number of a partition. -/
def LinuxDeviceFamily.mark : LinuxDeviceFamily → Text
  | .usbScsi => []
  | .mmc => lit "p"

/-- `linux_partition_name_is_canonical`. -/
def linuxPartitionNameIsCanonical (rootName : Text) (family : LinuxDeviceFamily) (name : Text) :
    Bool :=
  ((stripPrefix rootName name).bind (stripPrefix family.mark)).any fun digits =>
    digits ≠ [] && digits.all isAsciiDigit && digits.head? ≠ some '0'

/-- A mount point that is none: null, or a blank text. -/
def blankMountpoint : JsonValue → Bool
  | .null => true
  | .string value => trim value = []
  | _ => false

/-- `linux_mountpoints_are_empty`. -/
def linuxMountpointsAreEmpty : JsonValue → Bool
  | .array values => values.all blankMountpoint
  | value => blankMountpoint value

/-- The kernel name of a field. -/
def jsonKernelName (object : Fields) (field : String) : Option Text :=
  (jsonNonemptyString object field).bind linuxKernelName

/-- The parent of a node is the one expected of it. -/
def parentMatches (rootName : Text) (family : LinuxDeviceFamily) (object : Fields) (kname : Text) :
    Option Text → Option Bool
  | none => some (kname = rootName ∧ (get object "pkname").any isNull)
  | some parent =>
    if parent ≠ rootName then some false
    else (jsonKernelName object "pkname").map fun pkname =>
      pkname = parent && linuxPartitionNameIsCanonical rootName family kname

/-- The type of a disk, or of what has a parent. -/
def expectedType (expectedParent : Option Text) : Text :=
  if expectedParent.isNone then lit "disk" else lit "part"

/-- `linux_node_is_complete_and_unmounted` up to the children of the node: its kernel name. -/
def linuxNodeName (rootName : Text) (family : LinuxDeviceFamily) (object : Fields)
    (expectedParent : Option Text) (seen : List Text) : Option (Option Text) := do
  let type ← jsonNonemptyString object "type"
  if type ≠ expectedType expectedParent then pure none
  else do
    let path ← jsonNonemptyString object "path"
    let name ← jsonNonemptyString object "name"
    if name ≠ path then pure none
    else do
      let kname ← jsonKernelName object "kname"
      if path ≠ lit "/dev/" ++ kname ∨ kname ∈ seen then pure none
      else do
        let parent ← parentMatches rootName family object kname expectedParent
        if parent = false then pure none
        else do
          let mountpoints ← get object "mountpoints"
          pure (if linuxMountpointsAreEmpty mountpoints then some kname else none)

mutual

/-- `linux_node_is_complete_and_unmounted`. -/
def linuxNodeIsCompleteAndUnmounted (rootName : Text) (family : LinuxDeviceFamily) :
    JsonValue → Option Text → List Text → Option (Option (List Text))
  | .object fields, expectedParent, seen =>
    match linuxNodeName rootName family fields expectedParent seen with
    | none => none
    | some none => some none
    | some (some kname) =>
      linuxChildrenField rootName family fields expectedParent.isSome kname (kname :: seen)
  | _, _, _ => none

/-- The children of a node: a partition has none. -/
def linuxChildrenField (rootName : Text) (family : LinuxDeviceFamily) :
    List (Text × JsonValue) → Bool → Text → List Text → Option (Option (List Text))
  | [], _, _, seen => some (some seen)
  | (field, value) :: fields, isPartition, kname, seen =>
    if field = lit "children" then
      match value with
      | .null => some (some seen)
      | .array children =>
        if isPartition && !children.isEmpty then some none
        else linuxChildren rootName family children kname seen
      | _ => none
    else linuxChildrenField rootName family fields isPartition kname seen

/-- The loop over the children. -/
def linuxChildren (rootName : Text) (family : LinuxDeviceFamily) :
    List JsonValue → Text → List Text → Option (Option (List Text))
  | [], _, seen => some (some seen)
  | child :: children, kname, seen =>
    match linuxNodeIsCompleteAndUnmounted rootName family child (some kname) seen with
    | none => none
    | some none => some none
    | some (some seen) => linuxChildren rootName family children kname seen

end

/-- `linux_tree_is_complete_and_unmounted`. -/
def linuxTreeIsCompleteAndUnmounted (node : JsonValue) (rootName : Text)
    (family : LinuxDeviceFamily) : Option Bool :=
  (linuxNodeIsCompleteAndUnmounted rootName family node none []).map Option.isSome

/-- `linux_candidate_from_node`. -/
def linuxCandidateFromNode (node : JsonValue) : Option DiskCandidate := do
  let object ← node.asObject
  guard ((← (← get object "type").asStr) = lit "disk")
  guard (← jsonBoolLike object "rm")
  guard (← jsonBoolLike object "hotplug")
  guard (!(← jsonBoolLike object "ro"))
  let path ← jsonNonemptyString object "path"
  guard ((← jsonNonemptyString object "name") = path)
  guard (isLinuxWholeDevicePath path)
  let rootName ← deviceName path
  guard ((← jsonKernelName object "kname") = rootName ∧ (get object "pkname").any isNull)
  let transport ← (jsonNonemptyString object "tran").map toAsciiLowercase
  let family ← linuxDeviceFamily rootName transport
  guard (← linuxTreeIsCompleteAndUnmounted node rootName family)
  let sizeBytes ← jsonU64Like object "size"
  let model ← linuxModel object
  let identity ← linuxIdentity object
  makeCandidate sha256 .linux path path sizeBytes identity model transport

/-! ### The report -/

/-- `*counts.entry(key).or_insert(0) += 1`. -/
def increment {α : Type} [DecidableEq α] (counts : α → ℕ) (key : α) : α → ℕ :=
  Function.update counts key (counts key + 1)

/-- The number of times that each key has been counted. -/
def tally {α : Type} [DecidableEq α] (keys : List α) : α → ℕ := keys.foldl increment fun _ => 0

/-- `retain_unambiguous_physical_candidates`. -/
def retainUnambiguousPhysicalCandidates (candidates : List DiskCandidate) : List DiskCandidate :=
  let identities := tally (candidates.map fun c => (c.platform, c.identity))
  let devicePaths := tally (candidates.map (·.devicePath))
  let rawDevicePaths := tally (candidates.map (·.rawDevicePath))
  candidates.filter fun c => identities (c.platform, c.identity) = 1 &&
    devicePaths c.devicePath = 1 && rawDevicePaths c.rawDevicePath = 1

/-- `parse_linux_inventory`. -/
def parseLinuxInventory (value : JsonValue) : Except String (List DiskCandidate) :=
  match value.asObject with
  | none => .error "lsblk JSON output must be an object."
  | some root =>
    match (get root "blockdevices").bind asArray with
    | none => .error "lsblk JSON output must contain a blockdevices array."
    | some devices =>
      .ok ((retainUnambiguousPhysicalCandidates
        (devices.filterMap (linuxCandidateFromNode sha256))).insertionSort
          fun left right => left.scanId ≤ right.scanId)

end

end DiskInventory

end ArosTools
