import ArosTools.Bytes.Basic
import ArosTools.Bytes.Decimal
import ArosTools.Publication.Names
import Mathlib.Data.UInt

/-!
# ESP partition tables from source

`parseEspPartitionSource` resolves the closed CSV subset into partitions with explicit geometry;
`encodeEspPartitionSource` writes them as an unsigned table: one 32-byte record per partition, a
record with the MD5 of the records before it, and erased padding.  The two hash functions are
parameters.
-/

namespace ArosTools

namespace Esp

/-- Bytes of a table. -/
def tableBytes : ℕ := 0xc00

/-- Bytes of a flash sector. -/
def sectorBytes : ℕ := 0x1000

/-- Bytes of a record. -/
def recordBytes : ℕ := 32

/-- The hash functions the table code takes from elsewhere. -/
structure Digests where
  md5 : Bytes → Vector UInt8 16
  sha256Bytes : Bytes → Sha256Digest

/-- A resolved source partition. -/
structure EspPartition where
  name : String
  kind : UInt8
  subtype : UInt8
  offset : UInt32
  size : UInt32
  flags : UInt32
  deriving DecidableEq, Repr

/-- Parsed source bytes and their partitions. -/
structure EspPartitionSource where
  sha256 : Sha256Digest
  partitions : List EspPartition
  deriving DecidableEq, Repr

/-- Generated bytes and what they were made from. -/
structure EspPartitionArtifact where
  bytes : Bytes
  sha256 : Sha256Digest
  source : EspPartitionSource
  tableOffset : UInt32
  flashBytes : UInt64
  deriving DecidableEq, Repr

/-! ### Ranges -/

/-- Check the partitions after `previous`, which have passed. -/
def validateRangesFrom (tableStart tableEnd flashBytes : ℕ) :
    List EspPartition → List EspPartition → Except String Unit
  | _, [] => .ok ()
  | previous, partition :: rest =>
    let start := partition.offset.toNat
    let stop := start + partition.size.toNat
    let alignment := if partition.kind = 0 then 0x10000 else sectorBytes
    if previous.any fun p => p.name == partition.name then .error "duplicate partition label"
    else if partition.flags &&& ~~~3 ≠ 0 then .error "unsupported partition flags"
    else if partition.size = 0 || start % alignment ≠ 0 || stop > flashBytes then
      .error "partition range is empty, unaligned or exceeds flash capacity"
    else if partition.kind = 0 && partition.size.toNat % sectorBytes ≠ 0 then
      .error "unsigned app partition size is not sector aligned"
    else if start < tableEnd && tableStart < stop then
      .error "partition overlaps the reserved table sector"
    else if start < tableEnd then
      .error "partition lies before the reserved table sector ends"
    else if previous.any fun p =>
        start < p.offset.toNat + p.size.toNat && p.offset.toNat < stop then
      .error "partition ranges overlap"
    else validateRangesFrom tableStart tableEnd flashBytes (previous ++ [partition]) rest

/-- Check labels, flags and ranges of a list of partitions. -/
def validateRanges (partitions : List EspPartition) (tableStart tableEnd flashBytes : ℕ) :
    Except String Unit :=
  validateRangesFrom tableStart tableEnd flashBytes [] partitions

/-- The metadata partitions seen so far. -/
structure OtaSeen where
  ota : Bool
  teeOta : Bool

/-- Check the data partitions one by one. -/
def validateDataSubtypesFrom : OtaSeen → List EspPartition → Except String Unit
  | _, [] => .ok ()
  | seen, partition :: rest =>
    let readonly := partition.flags &&& 2 ≠ 0
    if (partition.subtype = 0 || partition.subtype = 3) && readonly then
      .error "OTA/coredump source partitions must remain read-write"
    else if partition.subtype = 2 && partition.size < 0x3000 && !readonly then
      .error "small NVS source partitions require readonly"
    else if partition.subtype = 0 then
      if seen.ota || partition.size ≠ 0x2000 then
        .error "OTA metadata source partition must be unique and exactly two sectors"
      else validateDataSubtypesFrom { seen with ota := true } rest
    else if partition.subtype = 0x90 then
      if seen.teeOta || partition.size ≠ 0x2000 then
        .error "OTA metadata source partition must be unique and exactly two sectors"
      else validateDataSubtypesFrom { seen with teeOta := true } rest
    else validateDataSubtypesFrom seen rest

/-- Check the data subtypes of a list of partitions. -/
def validateDataSubtypes (partitions : List EspPartition) : Except String Unit :=
  validateDataSubtypesFrom ⟨false, false⟩ (partitions.filter fun p => p.kind = 1)

/-! ### The CSV source -/

/-- Text as a list of characters. -/
abbrev Text := List Char

/-- The bytes of a text. -/
def Text.bytes (text : Text) : Bytes := ascii (String.ofList text)

/-- The text that bytes encode. -/
def fromUtf8 (bytes : Bytes) : Option String := String.fromUTF8? ⟨bytes.toArray⟩

/-- The Unicode `White_Space` characters. -/
def isWhitespace (c : Char) : Bool :=
  let n := c.toNat
  (0x9 ≤ n && n ≤ 0xd) || n == 0x20 || n == 0x85 || n == 0xa0 || n == 0x1680 ||
    (0x2000 ≤ n && n ≤ 0x200a) || n == 0x2028 || n == 0x2029 || n == 0x202f || n == 0x205f ||
    n == 0x3000

/-- Drop whitespace from both ends. -/
def trim (text : Text) : Text :=
  ((text.dropWhile isWhitespace).reverse.dropWhile isWhitespace).reverse

/-- A line without its carriage return. -/
def stripCr (line : Text) : Text := if line.getLast? = some '\r' then line.dropLast else line

/-- The lines of a text; a final newline does not start another line, and only a line that ends
in a newline loses its carriage return. -/
def lines (text : Text) : List Text :=
  let pieces := text.splitOn '\n'
  pieces.dropLast.map stripCr ++ (pieces.getLast?.filter (· ≠ [])).toList

/-- ASCII lower case. -/
def lower (text : Text) : Text :=
  text.map fun c => if 'A' ≤ c ∧ c ≤ 'Z' then Char.ofNat (c.toNat + 0x20) else c

/-- The text after a prefix. -/
def stripPrefix? (start : String) (text : Text) : Option Text :=
  if start.toList.isPrefixOf text then some (text.drop start.toList.length) else none

/-- The digits of a number and its radix. -/
def splitRadix (value : Text) : Except String (Text × ℕ) :=
  match (stripPrefix? "0x" value).or (stripPrefix? "0X" value) with
  | some digits => .ok (digits, 16)
  | none =>
    match (stripPrefix? "0b" value).or (stripPrefix? "0B" value) with
    | some digits => .ok (digits, 2)
    | none =>
      match (stripPrefix? "0o" value).or (stripPrefix? "0O" value) with
      | some digits => .ok (digits, 8)
      | none =>
        if value.length > 1 && value.head? = some '0' then .error "ambiguous leading-zero number"
        else .ok (value, 10)

/-- An explicit unsigned number with an optional `K` or `M` unit. -/
def parseNumber (value : Text) : Except String UInt32 := do
  let (value, multiplier) :=
    match value.getLast? with
    | some c =>
      if c = 'k' ∨ c = 'K' then (value.dropLast, 1024)
      else if c = 'm' ∨ c = 'M' then (value.dropLast, 1024 * 1024)
      else (value, 1)
    | none => (value, 1)
  let (digits, radix) ← splitRadix value
  if digits = [] || digits.head? = some '+' || digits.head? = some '-' then
    .error "geometry must use explicit unsigned numbers"
  else
    match parseUnsigned radix (2 ^ 32) (Text.bytes digits) with
    | some number =>
      if number * multiplier < 2 ^ 32 then .ok (UInt32.ofNat (number * multiplier))
      else .error "invalid or overflowing unsigned number"
    | none => .error "invalid or overflowing unsigned number"

/-- A number in the byte range. -/
def toU8 (number : UInt32) (message : String) : Except String UInt8 :=
  if number.toNat < 256 then .ok (UInt8.ofNat number.toNat) else .error message

/-- The subtype a keyword names. -/
def namedSubtype (kind : UInt8) (value : String) : Option UInt8 :=
  if kind = 0 then
    if value = "factory" then some 0 else if value = "test" then some 0x20 else none
  else if kind = 1 then
    [("ota", 0), ("phy", 1), ("nvs", 2), ("coredump", 3), ("nvs_keys", 4), ("efuse", 5),
      ("undefined", 6), ("esphttpd", 0x80), ("fat", 0x81), ("spiffs", 0x82), ("littlefs", 0x83),
      ("tee_ota", 0x90)].lookup value
  else none

/-- A numbered application slot. -/
def slotSubtype (value : Text) : List (String × ℕ × UInt8) → Option (Except String UInt8)
  | [] => none
  | (start, limit, base) :: rest =>
    match stripPrefix? start value with
    | some index =>
      match parseUnsigned 10 256 (Text.bytes index) with
      | none => some (.error "invalid app subtype slot")
      | some n =>
        if n ≥ limit || ascii start ++ natText n ≠ Text.bytes value then
          some (.error "unsupported app subtype slot")
        else some (.ok (base + UInt8.ofNat n))
    | none => slotSubtype value rest

/-- The subtype of a partition. -/
def parseSubtype (kind : UInt8) (value : Text) : Except String UInt8 := do
  let value := lower value
  match namedSubtype kind (String.ofList value) with
  | some named => .ok named
  | none =>
    match (if kind = 0 then slotSubtype value [("ota_", 16, 0x10), ("tee_", 2, 0x30)]
      else none) with
    | some slot => slot
    | none => toU8 (← parseNumber value) "partition subtype is outside the byte range"

/-- A letter, a digit, `_`, `-` or `.`. -/
def labelByte (b : UInt8) : Bool :=
  (0x30 ≤ b && b ≤ 0x39) || (0x41 ≤ b && b ≤ 0x5a) || (0x61 ≤ b && b ≤ 0x7a) || b == 0x5f ||
    b == 0x2d || b == 0x2e

/-- The flags a field lists. -/
def parseFlags : UInt32 → List Text → Except String UInt32
  | flags, [] => .ok flags
  | flags, flag :: rest => do
    let bit ← if flag = "encrypted".toList then .ok 1
      else if flag = "readonly".toList then .ok 2
      else .error "unknown partition flag"
    if flags &&& bit ≠ 0 then .error "duplicate partition flag"
    else parseFlags (flags ||| bit) rest

/-- The type of a partition. -/
def parseKind (word : Text) : Except String UInt8 :=
  if word = "app".toList then .ok 0
  else if word = "data".toList then .ok 1
  else do toU8 (← parseNumber word) "partition type is outside the byte range"

/-- The optional sixth field. -/
def parseFlagField : List Text → Except String UInt32
  | [value] => if value = [] then .ok 0 else parseFlags 0 (value.splitOn ':')
  | _ => .ok 0

/-- One line of the table, after `previousEnd`. -/
def parseLine (line : Text) (previousEnd : ℕ) : Except String EspPartition := do
  if line.any fun c => ['$', Char.ofNat 0, '\\', '"', '\''].contains c then
    .error "environment expansion, escaping and quoted fields are unsupported"
  else do
    let fields := (line.splitOn ',').map trim
    match fields with
    | name :: kind :: subtype :: offset :: size :: more =>
      if more.length > 1 then .error "expected five fields plus optional flags"
      else do
        let label := Text.bytes name
        if label = [] || label.length > 16 || !label.all labelByte || name = ".".toList ||
            name = "..".toList then
          .error "label must be a portable token of at most 16 bytes"
        else do
          let kind ← parseKind (lower kind)
          if kind = 2 || kind = 3 then
            .error "bootloader/table self-descriptions require a different contract"
          else do
            let subtype ← parseSubtype kind subtype
            let offset ← parseNumber offset
            let size ← parseNumber size
            let flags ← parseFlagField more
            if offset.toNat < previousEnd then
              .error "partitions must be explicitly positioned in nonoverlapping source order"
            else .ok ⟨String.ofList name, kind, subtype, offset, size, flags⟩
    | _ => .error "expected five fields plus optional flags"

/-- The lines from `index` on. -/
def parseLines : ℕ → ℕ → List EspPartition → List Text → Except String (List EspPartition)
  | _, _, partitions, [] => .ok partitions
  | index, previousEnd, partitions, line :: rest =>
    if (Text.bytes line).length > 1024 || index ≥ 1024 then
      .error "source partition CSV exceeds its line budget"
    else
      let line := trim line
      if line = [] || line.head? = some '#' then parseLines (index + 1) previousEnd partitions rest
      else if partitions.length ≥ 94 then
        .error "source partition table exceeds the unsigned record budget"
      else do
        let partition ← (parseLine line previousEnd).mapError fun reason =>
          "source partition CSV line " ++ toString (index + 1) ++ ": " ++ reason
        parseLines (index + 1) (partition.offset.toNat + partition.size.toNat)
          (partitions ++ [partition]) rest

/-- The geometry a table can have. -/
def validGeometry (tableOffset : UInt32) (flashBytes : UInt64) : Bool :=
  !(flashBytes = 0 || flashBytes > 2 ^ 32 || tableOffset.toNat % sectorBytes ≠ 0 ||
    tableOffset.toNat + sectorBytes > flashBytes.toNat)

/-- Resolve a source table. -/
def parseEspPartitionSource (digests : Digests) (bytes : Bytes) (tableOffset : UInt32)
    (flashBytes : UInt64) : Except String EspPartitionSource := do
  if bytes.length > 64 * 1024 then .error "source partition CSV exceeds its byte budget"
  else do
    let text ← (fromUtf8 bytes).elim (.error "source partition CSV is not UTF-8") .ok
    let tableStart := tableOffset.toNat
    let tableEnd := tableStart + sectorBytes
    if !validGeometry tableOffset flashBytes then .error "invalid source partition geometry"
    else do
      let partitions ← parseLines 0 tableEnd [] (lines text.toList)
      if partitions = [] then .error "source partition CSV has no entries"
      else do
        validateRanges partitions tableStart tableEnd flashBytes.toNat
        validateDataSubtypes partitions
        pure ⟨digests.sha256Bytes bytes, partitions⟩

/-! ### The table -/

/-- The label field of a record. -/
def labelField (name : String) : Bytes :=
  ascii name ++ List.replicate (16 - (ascii name).length) 0

/-- The record of a partition. -/
def record (p : EspPartition) : Bytes :=
  [0xaa, 0x50, p.kind, p.subtype] ++ leBytes 4 p.offset.toNat ++ leBytes 4 p.size.toNat ++
    labelField p.name ++ leBytes 4 p.flags.toNat

/-- The record that holds a digest. -/
def digestRecord (digest : Vector UInt8 16) : Bytes :=
  [0xeb, 0xeb] ++ List.replicate 14 0xff ++ digest.toList

/-- Cut or fill a list to a length. -/
def resize (bytes : Bytes) (length : ℕ) (fill : UInt8) : Bytes :=
  bytes.take length ++ List.replicate (length - bytes.length) fill

/-- The table of a list of partitions. -/
def encodeTable (digests : Digests) (partitions : List EspPartition) : Bytes :=
  let output := partitions.flatMap record
  resize (output ++ digestRecord (digests.md5 output)) tableBytes 0xff

/-- Encode a source as an unsigned table. -/
def encodeEspPartitionSource (digests : Digests) (bytes : Bytes)
    (expectedSourceSha256 : Sha256Digest) (tableOffset : UInt32) (flashBytes : UInt64) :
    Except String EspPartitionArtifact := do
  if bytes.length > 64 * 1024 then .error "source partition CSV exceeds its byte budget"
  else if digests.sha256Bytes bytes ≠ expectedSourceSha256 then
    .error "partition source SHA-256 differs from the bound source input"
  else do
    let source ← parseEspPartitionSource digests bytes tableOffset flashBytes
    if (source.partitions.length + 2) * recordBytes > tableBytes then
      .error "partition table cannot retain its checksum and end marker"
    else
      let output := encodeTable digests source.partitions
      pure ⟨output, digests.sha256Bytes output, source, tableOffset, flashBytes⟩

end Esp

end ArosTools
