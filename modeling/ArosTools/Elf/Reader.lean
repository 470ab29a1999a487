import ArosTools.Bytes.Basic
import ArosTools.Bytes.Utf8
import ArosTools.Program.Except

/-!
# The ELF reader

`read` takes the class, the section headers and the symbols from an ELF file. Every offset, size,
count and string index in it is a field of the file. Indices, slices and additions that would panic
are outcomes of their own; names are the bytes of the `String` the code keeps.
-/

namespace ArosTools

namespace Elf

/-- `Class`: the width of every offset. -/
inductive Class where
  | elf32
  | elf64
  deriving DecidableEq, Repr

/-- `Home`: where a symbol lives. -/
inductive Home where
  /-- `Absolute`, for `SHN_ABS`. -/
  | absolute
  /-- `Undefined`, for `SHN_UNDEF`. -/
  | undefined
  /-- `Section`: defined in the section of the given index. -/
  | inSection (index : UInt16)
  deriving DecidableEq, Repr

/-- `Binding`. -/
inductive Binding where
  | local
  | global
  | weak
  | other (binding : UInt8)
  deriving DecidableEq, Repr

/-- `Section`: one section header. -/
structure Section where
  index : UInt16
  name : List UInt8
  kind : UInt32
  flags : UInt64
  address : UInt64
  offset : UInt64
  size : UInt64
  align : UInt64
  link : UInt32
  entsize : UInt64
  deriving DecidableEq, Repr

/-- `Symbol`: one entry of the symbol table. -/
structure Symbol where
  name : List UInt8
  value : UInt64
  size : UInt64
  home : Home
  binding : Binding
  deriving DecidableEq, Repr

/-- `Object`. -/
structure Object where
  fileClass : Class
  kind : UInt16
  machine : UInt16
  flags : UInt32
  osAbi : UInt8
  abiVersion : UInt8
  sections : List Section
  symbols : List Symbol
  deriving DecidableEq, Repr

/-- `RawSection`: a section header, with the offset of its name. -/
structure RawSection extends Section where
  nameOffset : UInt32
  deriving DecidableEq, Repr

/-- `SHT_SYMTAB`. -/
def shtSymtab : UInt32 := 2

/-- `SHT_STRTAB`. -/
def shtStrtab : UInt32 := 3

/-- `SHN_UNDEF`. -/
def shnUndef : UInt16 := 0

/-- `SHN_ABS`. -/
def shnAbs : UInt16 := 0xfff1

/-- `SHN_XINDEX`. -/
def shnXindex : UInt16 := 0xffff

/-- `SHN_LORESERVE`. -/
def shnLoreserve : UInt16 := 0xff00

/-! ### Fields -/

/-- The bytes of a field. -/
def wordAt (width : ℕ) (bytes : List UInt8) (start : ℕ) : Checked String (List UInt8) := do
  let stop ← .expect (checkedAdd start width)
  .okOr (getRange bytes start stop) "truncated ELF"

/-- `u16_at`. -/
def u16At (bytes : List UInt8) (start : ℕ) : Checked String UInt16 := do
  pure (UInt16.ofNat (ofLe (← wordAt 2 bytes start)))

/-- `u32_at`. -/
def u32At (bytes : List UInt8) (start : ℕ) : Checked String UInt32 := do
  pure (UInt32.ofNat (ofLe (← wordAt 4 bytes start)))

/-- `u64_at`. -/
def u64At (bytes : List UInt8) (start : ℕ) : Checked String UInt64 := do
  pure (UInt64.ofNat (ofLe (← wordAt 8 bytes start)))

/-- `u64::from(u32_at(bytes, start)?)`. -/
def u32WideAt (bytes : List UInt8) (start : ℕ) : Checked String UInt64 := do
  pure (← u32At bytes start).toUInt64

/-! ### Names -/

/-- `NameBudget`: how many bytes of names may still be copied. -/
structure NameBudget where
  left : ℕ
  deriving DecidableEq, Repr

/-- `NameBudget::new`. -/
def NameBudget.new (fileBytes : ℕ) : NameBudget :=
  ⟨min (min (fileBytes * 4) (2 ^ 64 - 1)) (64 * 1024 * 1024)⟩

/-- `NameBudget::read`. -/
def NameBudget.read (budget : NameBudget) (table : List UInt8) (start : ℕ) :
    Checked String (List UInt8 × NameBudget) := do
  if table = [] ∧ start = 0 then pure ([], budget)
  else
    let rest ← .okOr (getRange table start table.length) "ELF name offset out of range"
    let size ← .okOr (rest.findIdx? (· = 0)) "unterminated ELF name"
    if budget.left < size then .fail "ELF name allocation budget exceeded"
    else
      let value := toStringLossy (← .expect (getRange rest 0 size))
      if budget.left < value.length then .fail "ELF name allocation budget exceeded"
      else pure (value, ⟨budget.left - value.length⟩)

/-! ### Section headers -/

/-- The size of a section header. -/
def headerStride : Class → ℕ
  | .elf32 => 0x28
  | .elf64 => 0x40

/-- The fields of a section header in its bytes. -/
def sectionFields (bytes : List UInt8) (index : UInt16) : Class → Checked String RawSection
  | .elf64 => do
    let nameOffset ← u32At bytes 0
    let kind ← u32At bytes 4
    let flags ← u64At bytes 8
    let address ← u64At bytes 0x10
    let offset ← u64At bytes 0x18
    let size ← u64At bytes 0x20
    let link ← u32At bytes 0x28
    let entsize ← u64At bytes 0x38
    let align ← u64At bytes 0x30
    pure ⟨⟨index, [], kind, flags, address, offset, size, align, link, entsize⟩, nameOffset⟩
  | .elf32 => do
    let nameOffset ← u32At bytes 0
    let kind ← u32At bytes 4
    let flags ← u32WideAt bytes 8
    let address ← u32WideAt bytes 0xc
    let offset ← u32WideAt bytes 0x10
    let size ← u32WideAt bytes 0x14
    let link ← u32At bytes 0x18
    let entsize ← u32WideAt bytes 0x24
    let align ← u32WideAt bytes 0x20
    pure ⟨⟨index, [], kind, flags, address, offset, size, align, link, entsize⟩, nameOffset⟩

/-- `raw_section`. -/
def rawSection (bytes : List UInt8) (shoff index : ℕ) (fileClass : Class) :
    Checked String RawSection := do
  let entsize := headerStride fileClass
  let start ← .okOr ((checkedMul index entsize).bind (checkedAdd shoff))
    "section header range overflow"
  let stop ← .okOr (checkedAdd start entsize) "section header range overflow"
  let header ← .okOr (getRange bytes start stop) "truncated section header"
  let raw ← sectionFields header 0 fileClass
  if index < 2 ^ 16 then pure { raw with index := UInt16.ofNat index }
  else .fail "section index out of range"

/-- `table_bytes`. -/
def tableBytes (bytes : List UInt8) (header : RawSection) : Checked String (List UInt8) := do
  let start := header.offset.toNat
  let stop ← .okOr (checkedAdd start header.size.toNat) "table beyond addressable range"
  .okOr (getRange bytes start stop) "truncated table"

/-! ### Symbols -/

/-- The size of a symbol entry. -/
def symbolStride : Class → ℕ
  | .elf32 => 16
  | .elf64 => 24

/-- The home a section index of a symbol stands for. -/
def Home.of (shndx : UInt16) : Home :=
  if shndx = shnAbs then .absolute
  else if shndx = shnUndef then .undefined
  else .inSection shndx

/-- The binding in the `st_info` of a symbol. -/
def Binding.of (info : UInt8) : Binding :=
  match info >>> 4 with
  | 0 => .local
  | 1 => .global
  | 2 => .weak
  | binding => .other binding

/-- The fields of a symbol: `(name, info, shndx, value, size)`. -/
def symbolFields (bytes : List UInt8) (start : ℕ) :
    Class → Checked String (UInt32 × UInt8 × UInt16 × UInt64 × UInt64)
  | .elf64 => do
    let name ← u32At bytes start
    let info ← .okOr bytes[← .expect (checkedAdd start 4)]? "truncated symbol"
    let shndx ← u16At bytes (← .expect (checkedAdd start 6))
    let value ← u64At bytes (← .expect (checkedAdd start 8))
    let size ← u64At bytes (← .expect (checkedAdd start 0x10))
    pure (name, info, shndx, value, size)
  | .elf32 => do
    let name ← u32At bytes start
    let info ← .okOr bytes[← .expect (checkedAdd start 0xc)]? "truncated symbol"
    let shndx ← u16At bytes (← .expect (checkedAdd start 0xe))
    let value ← u32WideAt bytes (← .expect (checkedAdd start 4))
    let size ← u32WideAt bytes (← .expect (checkedAdd start 8))
    pure (name, info, shndx, value, size)

/-- One round of the loop in `read_symbols`. -/
def readSymbol (table names : List UInt8) (fileClass : Class) (s : List Symbol × NameBudget)
    (index : ℕ) : Checked String (List Symbol × NameBudget) := do
  let start ← .expect (checkedMul index (symbolStride fileClass))
  let (name, info, shndx, value, size) ← symbolFields table start fileClass
  let (name, budget) ← s.2.read names name.toNat
  pure (s.1 ++ [⟨name, value, size, .of shndx, .of info⟩], budget)

/-- `read_symbols`, with the budget it leaves. -/
def readSymbols (bytes : List UInt8) (shoff shnum : ℕ) (fileClass : Class) (symtab : RawSection)
    (budget : NameBudget) : Checked String (List Symbol × NameBudget) := do
  if symtab.link.toNat ≥ shnum then .fail "symbol string table index out of range"
  else
    let strtab ← rawSection bytes shoff symtab.link.toNat fileClass
    if strtab.kind ≠ shtStrtab then .fail "invalid symbol string table type"
    else
      let names ← tableBytes bytes strtab
      if symtab.entsize.toNat ≠ symbolStride fileClass then
        .fail "unsupported ELF symbol entry size"
      else
        let table ← tableBytes bytes symtab
        if table.length % symbolStride fileClass ≠ 0 then .fail "partial ELF symbol entry"
        else
          (List.range (table.length / symbolStride fileClass)).foldlM
            (readSymbol table names fileClass) ([], budget)

/-! ### The whole file -/

/-- What `read` takes from the file header. -/
structure Header where
  fileClass : Class
  kind : UInt16
  machine : UInt16
  flags : UInt32
  osAbi : UInt8
  abiVersion : UInt8
  shoff : UInt64
  shentsize : UInt16
  shnumField : UInt16
  shstrndxField : UInt16
  deriving DecidableEq, Repr

/-- `{other:?}` in the message about the class. -/
def debugByte : Option UInt8 → String
  | none => "None"
  | some b => "Some(" ++ toString b.toNat ++ ")"

/-- The class that `EI_CLASS` names. -/
def readClass (bytes : List UInt8) : Checked String Class :=
  if bytes[4]? = some 1 then pure .elf32
  else if bytes[4]? = some 2 then pure .elf64
  else .fail ("unknown ELF class " ++ debugByte bytes[4]?)

/-- The size of the file header. -/
def fileHeaderSize : Class → ℕ
  | .elf32 => 52
  | .elf64 => 64

/-- Where `e_ehsize` stands. -/
def headerSizeOffset : Class → ℕ
  | .elf32 => 0x28
  | .elf64 => 0x34

/-- Where `e_flags` stands. -/
def flagsOffset : Class → ℕ
  | .elf32 => 0x24
  | .elf64 => 0x30

/-- The fields that say where the section table is: `(shoff, shentsize, shnum, shstrndx)`. -/
def tableFields (bytes : List UInt8) : Class → Checked String (UInt64 × UInt16 × UInt16 × UInt16)
  | .elf64 => do
    pure (← u64At bytes 0x28, ← u16At bytes 0x3a, ← u16At bytes 0x3c, ← u16At bytes 0x3e)
  | .elf32 => do
    pure (← u32WideAt bytes 0x20, ← u16At bytes 0x2e, ← u16At bytes 0x30, ← u16At bytes 0x32)

/-- The part of `read` before the section table. -/
def readHeader (bytes : List UInt8) : Checked String Header := do
  if getRange bytes 0 4 ≠ some [0x7f, 0x45, 0x4c, 0x46] then .fail "not an ELF file"
  else
    let fileClass ← readClass bytes
    if bytes[5]? ≠ some 1 then .fail "only little-endian ELF is handled"
    else if bytes.length < fileHeaderSize fileClass then .fail "truncated ELF header"
    else if (← .expect bytes[6]?) ≠ 1 ∨ (← u32At bytes 0x14) ≠ 1 then
      .fail "unsupported ELF header version"
    else if (← u16At bytes (headerSizeOffset fileClass)).toNat ≠ fileHeaderSize fileClass then
      .fail "unsupported ELF header size"
    else
      let kind ← u16At bytes 0x10
      let machine ← u16At bytes 0x12
      let flags ← u32At bytes (flagsOffset fileClass)
      let (shoff, shentsize, shnum, shstrndx) ← tableFields bytes fileClass
      let osAbi ← .expect bytes[7]?
      let abiVersion ← .expect bytes[8]?
      pure ⟨fileClass, kind, machine, flags, osAbi, abiVersion, shoff, shentsize, shnum, shstrndx⟩

/-- The variables of the loop over the section headers. -/
structure SectionLoop where
  sections : List Section
  budget : NameBudget
  symtab : Option RawSection
  deriving DecidableEq, Repr

/-- One round of the loop over the section headers. -/
def readSection (bytes : List UInt8) (shoff : ℕ) (fileClass : Class) (names : List UInt8)
    (s : SectionLoop) (index : ℕ) : Checked String SectionLoop := do
  let raw ← rawSection bytes shoff index fileClass
  let (name, budget) ← s.budget.read names raw.nameOffset.toNat
  let raw := { raw with name := name }
  pure ⟨s.sections ++ [raw.toSection], budget,
    if raw.kind = shtSymtab then some raw else s.symtab⟩

/-- The number of sections: the field of the header, or the size in the header of section 0. -/
def sectionCount (header : Header) (first : RawSection) : ℕ :=
  if header.shnumField = 0 then first.size.toNat else header.shnumField.toNat

/-- The table of the section names. -/
def sectionNames (bytes : List UInt8) (header : Header) (shstrndx : ℕ) :
    Checked String (List UInt8) := do
  if shstrndx = 0 then pure []
  else
    let names ← rawSection bytes header.shoff.toNat shstrndx header.fileClass
    if names.kind ≠ shtStrtab then .fail "invalid section name table type"
    else tableBytes bytes names

/-- The part of `read` from the section table on: the sections and the symbols. -/
def readTables (bytes : List UInt8) (header : Header) :
    Checked String (List Section × List Symbol) := do
  let shoff := header.shoff.toNat
  let first ← rawSection bytes shoff 0 header.fileClass
  let shnum := sectionCount header first
  if shnum > 0xffff + 1 then .fail "unsupported ELF section count"
  else
    let tableEnd ← .okOr ((checkedMul shnum header.shentsize.toNat).bind (checkedAdd shoff))
      "section table range overflow"
    if tableEnd > bytes.length then .fail "truncated section table"
    else
      let shstrndx :=
        if header.shstrndxField = shnXindex then first.link.toNat else header.shstrndxField.toNat
      if shstrndx ≥ shnum then
        .fail ("section name table index " ++ toString shstrndx ++ " is out of range")
      else
        let names ← sectionNames bytes header shstrndx
        let s ← (List.range shnum).foldlM (readSection bytes shoff header.fileClass names)
          ⟨[], .new bytes.length, none⟩
        match s.symtab with
        | none => pure (s.sections, [])
        | some symtab =>
          let symbols ← readSymbols bytes shoff shnum header.fileClass symtab s.budget
          pure (s.sections, symbols.1)

/-- `read`. -/
def read (bytes : List UInt8) : Checked String Object := do
  let header ← readHeader bytes
  let object (sections : List Section) (symbols : List Symbol) : Object :=
    ⟨header.fileClass, header.kind, header.machine, header.flags, header.osAbi, header.abiVersion,
      sections, symbols⟩
  let stride := headerStride header.fileClass
  if header.shoff = 0 then
    if (header.shentsize = 0 ∨ header.shentsize.toNat = stride) ∧ header.shnumField = 0 ∧
        header.shstrndxField = 0 then pure (object [] [])
    else .fail "inconsistent absent ELF section table"
  else if header.shentsize.toNat ≠ stride then
    .fail ("unsupported ELF section-header stride " ++ toString header.shentsize.toNat)
  else if ¬ (header.shnumField < shnLoreserve ∧
      (header.shstrndxField < shnLoreserve ∨ header.shstrndxField = shnXindex)) then
    .fail "reserved ELF section indices require extended encoding"
  else
    let tables ← readTables bytes header
    pure (object tables.1 tables.2)

end Elf

end ArosTools
