import ArosTools.Bytes.Ustar
import ArosTools.Toolchain.StagedTree

/-!
# Writing a payload archive

`write_pax_entry` writes one member: a local PAX extension if its name or link target does not fit
the header, the header itself, and the payload. `write_payload_archive` writes the root, every path
of the staged tree in lexical order, and the end of the archive.
-/

namespace ArosTools

namespace Toolchain

/-! ### Headers -/

/-- The last `w` octal digits of `n`. -/
def octalDigits : ℕ → ℕ → Bytes
  | 0, _ => []
  | w + 1, n => octalDigits w (n / 8) ++ [UInt8.ofNat (0x30 + n % 8)]

/-- `write_tar_octal`: a number in a field of `width` bytes. -/
def writeTarOctal (width value : ℕ) : Contract Bytes :=
  if 8 ^ (width - 1) ≤ value then
    .error (.package "package tar metadata cannot be represented in the v1 PAX header")
  else .ok (octalDigits (width - 1) value ++ [0])

/-- The characters of a text: an ASCII one as it is, any other as a question mark. -/
def tarCharacters (value : Bytes) : Bytes :=
  value.filterMap fun b => if b < 0x80 then some b else if b < 0xc0 then none else some 0x3f

/-- `write_tar_string`: the beginning of a text in a field of `width` bytes. -/
def writeTarString (width : ℕ) (value : Bytes) : Bytes :=
  let characters := (tarCharacters value).take width
  characters ++ List.replicate (width - characters.length) 0

/-- The magic number and the version. -/
def ustarMagic : Bytes := ascii "ustar" ++ [0] ++ ascii "00"

/-- `write_tar_header`. -/
def writeTarHeader (name : Bytes) (mode uid gid size mtime : ℕ) (kind : UInt8) (target : Bytes) :
    Contract Bytes := do
  let mode ← writeTarOctal 8 mode
  let uid ← writeTarOctal 8 uid
  let gid ← writeTarOctal 8 gid
  let size ← writeTarOctal 12 size
  let mtime ← writeTarOctal 12 mtime
  let before := writeTarString 100 name ++ mode ++ uid ++ gid ++ size ++ mtime
  let after := [kind] ++ writeTarString 100 target ++ ustarMagic ++ List.replicate 247 0
  let sum := ((before ++ List.replicate 8 0x20 ++ after).map UInt8.toNat).sum
  pure (before ++ octalDigits 6 sum ++ [0, 0x20] ++ after)

/-- `write_tar_padding`: zeros up to the next block. -/
def writeTarPadding (size : ℕ) : Bytes := List.replicate ((512 - size % 512) % 512) 0

/-! ### PAX records -/

/-- `decimal_digits`. -/
def decimalDigits (value : ℕ) : ℕ := if value < 10 then 1 else decimalDigits (value / 10) + 1

/-- The loop of `append_pax_record`: the length that counts its own digits. It stands still after
two rounds at most. -/
def paxLength (base : ℕ) : ℕ → ℕ → ℕ
  | 0, length => length
  | fuel + 1, length =>
    let next := base + decimalDigits length
    if next = length then length else paxLength base fuel next

/-- `append_pax_record`. -/
def paxRecordText (key : String) (value : Bytes) : Bytes :=
  let base := (ascii key).length + value.length + 3
  natText (paxLength base (base + 2) (base + 1)) ++ [0x20] ++ ascii key ++ [0x3d] ++ value ++ [0x0a]

/-- The text is not ASCII or longer than its field. -/
def needsPax (text : Bytes) : Bool := text.any (0x80 ≤ ·) || 100 < text.length

/-- The records of a member's PAX extension. -/
def paxRecords (name : Bytes) (kind : UInt8) (target : Bytes) : Bytes :=
  (if needsPax name then paxRecordText "path" name else []) ++
    if kind = 0x32 && needsPax target then paxRecordText "linkpath" target else []

/-- `write_pax_entry`: a member with its extension, if it needs one, and its payload, if it has
one. -/
def writePaxEntry (name : Bytes) (mode epoch : ℕ) (kind : UInt8) (target : Bytes)
    (payload : Option Bytes) : Contract Bytes := do
  let records := paxRecords name kind target
  let extension ←
    if records = [] then pure []
    else do
      let header ← writeTarHeader (ascii "././@PaxHeader") 0 0 0 records.length 0 0x78 []
      pure (header ++ records ++ writeTarPadding records.length)
  let size := payload.elim 0 List.length
  let header ← writeTarHeader name mode 0 0 size epoch kind target
  pure (extension ++ header ++ payload.elim [] fun data => data ++ writeTarPadding size)

/-! ### Staged entries -/

/-- `normalized_toolchain_file_mode`. -/
def normalizedToolchainFileMode (mode : ℕ) : ℕ := if mode &&& 0o111 = 0 then 0o644 else 0o755

/-- The name of an entry in the archive; that of a directory ends in a slash. -/
def archiveName (archiveRoot : Bytes) (relative : Path) (isDirectory : Bool) : Bytes :=
  let name := archiveRoot ++ 0x2f :: toStringLossy (pathText relative)
  if isDirectory && name.getLast? ≠ some 0x2f then name ++ [0x2f] else name

/-- `append_entry`. -/
def appendEntry (t : StagedTree) (epoch : ℕ) (archiveRoot : Bytes) (relative : Path) :
    Contract Bytes :=
  match t.lstat relative with
  | none => .error (.package "cannot inspect staged archive entry")
  | some .directory =>
    writePaxEntry (archiveName archiveRoot relative true) 0o755 epoch 0x35 [] none
  | some (.symlink target) =>
    if isUtf8 target then
      writePaxEntry (archiveName archiveRoot relative false) 0o777 epoch 0x32 target none
    else .error (.package "staged archive link is not UTF-8")
  | some (.file mode contents) =>
    writePaxEntry (archiveName archiveRoot relative false) (normalizedToolchainFileMode mode) epoch
      0x30 [] (some contents)
  | some .special => .error (.package "staged package contains an unsupported archive entry")

/-- `collect_paths`. -/
def collectPaths (t : StagedTree) : List Path := t.walk (fun _ => false) t.depth []

/-- The zeros after the members: two blocks, and then up to a whole record of twenty. -/
def archiveEnd (written : ℕ) : Bytes :=
  List.replicate 1024 0 ++ List.replicate ((10240 - (written + 1024) % 10240) % 10240) 0

/-- `write_payload_archive`, before its compression. -/
def writePayloadArchive (foldName : Bytes → Bytes) (t : StagedTree) (epoch : ℕ)
    (archiveRoot : Bytes) : Contract Bytes := do
  let rootPath := PathBuf.ofBytes archiveRoot
  if rootPath ≠ relativePath [archiveRoot] ∨
      (payloadCasefoldPathKey foldName rootPath).isNone then
    .error (.package "payload archive root must be one portable path component")
  else
    let root ← appendEntry t epoch archiveRoot []
    let paths := sortByKey (fun path => toStringLossy (pathText path)) (collectPaths t)
    let members ← paths.mapM (appendEntry t epoch archiveRoot)
    let written := root ++ members.flatten
    pure (written ++ archiveEnd written.length)

/-! ### Plain streams -/

/-- What a TAR reader reports of a header block. -/
def tarHeader (block : Bytes) : TarHeader where
  bytes := block
  entryType := Ustar.typeFlag block
  pathBytes := Ustar.path block
  linkNameBytes := Ustar.linkName block
  size := Ustar.size block
  mode := Ustar.number 100 8 block
  uid := Ustar.number 108 8 block
  gid := Ustar.number 116 8 block
  mtime := Ustar.number 136 12 block
  ustar := Ustar.isUstar block

/-- What a TAR reader reports of a stream that is not compressed. -/
def rawStream (bytes : Bytes) : RawStream :=
  let stream := Ustar.readStream bytes
  ⟨stream.entries.map (Option.map fun e => ⟨tarHeader e.block, e.size, some e.payload⟩),
    stream.trailer, true⟩

end Toolchain

end ArosTools
