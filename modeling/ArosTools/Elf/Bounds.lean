import ArosTools.Elf.Reader

/-!
# What the ELF reader returns

`File` describes the fields of an ELF file by their places in it, without reading it. The reader's
sections and symbols are those fields.

* `read_returns` : it returns on every byte string.
* `elf_reader_bounds` : what it accepts, and when the sections of the symbols exist.
-/

namespace ArosTools

namespace Elf

/-! ### The fields of a file -/

/-- The number at an offset of a file, of a width in bytes. -/
def fieldAt (bytes : List UInt8) (start width : ℕ) : ℕ := ofLe ((bytes.drop start).take width)

namespace File

/-- `EI_CLASS`. -/
def fileClass (bytes : List UInt8) : Class := if bytes[4]? = some 1 then .elf32 else .elf64

/-- `e_shoff`. -/
def shoff (bytes : List UInt8) : ℕ :=
  match fileClass bytes with
  | .elf32 => fieldAt bytes 0x20 4
  | .elf64 => fieldAt bytes 0x28 8

/-- Where the header of a section is. -/
def headerAt (bytes : List UInt8) (index : ℕ) : ℕ :=
  shoff bytes + index * headerStride (fileClass bytes)

/-- `sh_type`. -/
def sectionKind (bytes : List UInt8) (index : ℕ) : ℕ := fieldAt bytes (headerAt bytes index + 4) 4

/-- `sh_offset`. -/
def sectionOffset (bytes : List UInt8) (index : ℕ) : ℕ :=
  match fileClass bytes with
  | .elf32 => fieldAt bytes (headerAt bytes index + 0x10) 4
  | .elf64 => fieldAt bytes (headerAt bytes index + 0x18) 8

/-- `sh_size`. -/
def sectionSize (bytes : List UInt8) (index : ℕ) : ℕ :=
  match fileClass bytes with
  | .elf32 => fieldAt bytes (headerAt bytes index + 0x14) 4
  | .elf64 => fieldAt bytes (headerAt bytes index + 0x20) 8

/-- `e_shnum`, or the size of section 0 in its place. -/
def sectionTotal (bytes : List UInt8) : ℕ :=
  let shnum := match fileClass bytes with
    | .elf32 => fieldAt bytes 0x30 2
    | .elf64 => fieldAt bytes 0x3c 2
  if shoff bytes = 0 then 0 else if shnum = 0 then sectionSize bytes 0 else shnum

/-- The symbol table, the last section of its type. -/
def symbolTable (bytes : List UInt8) : Option ℕ :=
  ((List.range (sectionTotal bytes)).filter (sectionKind bytes · = shtSymtab.toNat)).getLast?

/-- `st_shndx` of a symbol. -/
def symbolSection (bytes : List UInt8) (table symbol : ℕ) : ℕ :=
  fieldAt bytes (sectionOffset bytes table + symbol * symbolStride (fileClass bytes) +
    match fileClass bytes with | .elf32 => 0xe | .elf64 => 6) 2

/-- The `st_shndx` fields of a file. -/
def symbolSections (bytes : List UInt8) : List ℕ :=
  match symbolTable bytes with
  | none => []
  | some table =>
    (List.range (sectionSize bytes table / symbolStride (fileClass bytes))).map
      (symbolSection bytes table)

end File

/-! ### Fields read -/

section Fields

variable {bytes r : List UInt8} {start stop width : ℕ}

theorem wordAt_eq_ok :
    wordAt width bytes start = .ok r ↔
      start + width < 2 ^ 64 ∧ start + width ≤ bytes.length ∧
        r = (bytes.drop start).take width := by
  rw [wordAt, Checked.bind_eq_ok]
  constructor
  · rintro ⟨stop, hstop, hr⟩
    obtain ⟨rfl, hlt⟩ := checkedAdd_eq_some.mp (Checked.expect_eq_ok.mp hstop)
    obtain ⟨-, hle, rfl⟩ := getRange_eq_some.mp (Checked.okOr_eq_ok.mp hr)
    rw [Nat.add_sub_cancel_left]
    exact ⟨hlt, hle, rfl⟩
  · rintro ⟨hlt, hle, rfl⟩
    refine ⟨start + width, Checked.expect_eq_ok.mpr (checkedAdd_of_lt hlt),
      Checked.okOr_eq_ok.mpr (getRange_eq_some.mpr ⟨by omega, hle, ?_⟩)⟩
    rw [Nat.add_sub_cancel_left]

theorem wordAt_returns (h : start + width < 2 ^ 64) : (wordAt width bytes start).Returns := by
  refine Checked.Returns.bind (Checked.returns_expect ?_) fun _ _ => Checked.returns_okOr _ _
  rw [checkedAdd_of_lt h]
  rfl

theorem fieldAt_lt (bytes : List UInt8) (start width : ℕ) :
    fieldAt bytes start width < 256 ^ width :=
  (ofLe_lt _).trans_le (Nat.pow_le_pow_right (by decide) (List.length_take_le _ _))

theorem u16At_returns (h : start + 2 < 2 ^ 64) : (u16At bytes start).Returns :=
  (wordAt_returns h).bind fun _ _ => Checked.returns_pure _

theorem u32At_returns (h : start + 4 < 2 ^ 64) : (u32At bytes start).Returns :=
  (wordAt_returns h).bind fun _ _ => Checked.returns_pure _

theorem u64At_returns (h : start + 8 < 2 ^ 64) : (u64At bytes start).Returns :=
  (wordAt_returns h).bind fun _ _ => Checked.returns_pure _

theorem u32WideAt_returns (h : start + 4 < 2 ^ 64) : (u32WideAt bytes start).Returns :=
  (u32At_returns h).bind fun _ _ => Checked.returns_pure _

theorem u16At_ok {v : UInt16} (h : u16At bytes start = .ok v) : v.toNat = fieldAt bytes start 2 := by
  obtain ⟨r, hr, hv⟩ := Checked.bind_eq_ok.mp h
  obtain ⟨-, -, rfl⟩ := wordAt_eq_ok.mp hr
  cases hv
  exact UInt16.toNat_ofNat_of_lt' (fieldAt_lt bytes start 2)

theorem u32At_ok {v : UInt32} (h : u32At bytes start = .ok v) : v.toNat = fieldAt bytes start 4 := by
  obtain ⟨r, hr, hv⟩ := Checked.bind_eq_ok.mp h
  obtain ⟨-, -, rfl⟩ := wordAt_eq_ok.mp hr
  cases hv
  exact UInt32.toNat_ofNat_of_lt' (fieldAt_lt bytes start 4)

theorem u64At_ok {v : UInt64} (h : u64At bytes start = .ok v) : v.toNat = fieldAt bytes start 8 := by
  obtain ⟨r, hr, hv⟩ := Checked.bind_eq_ok.mp h
  obtain ⟨-, -, rfl⟩ := wordAt_eq_ok.mp hr
  cases hv
  exact UInt64.toNat_ofNat_of_lt' (fieldAt_lt bytes start 8)

theorem u32WideAt_ok {v : UInt64} (h : u32WideAt bytes start = .ok v) :
    v.toNat = fieldAt bytes start 4 := by
  obtain ⟨u, hu, hv⟩ := Checked.bind_eq_ok.mp h
  cases hv
  exact (UInt32.toNat_toUInt64 u).trans (u32At_ok hu)

/-- A field of a part of the file is a field of the file. -/
theorem fieldAt_getRange {part : List UInt8} (h : getRange bytes start stop = some part)
    {offset width : ℕ} (hinside : start + offset + width ≤ stop) :
    fieldAt part offset width = fieldAt bytes (start + offset) width := by
  obtain ⟨-, -, rfl⟩ := getRange_eq_some.mp h
  rw [fieldAt, fieldAt, List.drop_take, List.drop_drop, List.take_take,
    min_eq_left (by omega)]

end Fields

/-! ### Names -/

section Names

variable {budget budget' : NameBudget} {table name : List UInt8} {start : ℕ}

theorem NameBudget.read_returns (budget : NameBudget) (table : List UInt8) (start : ℕ) :
    (budget.read table start).Returns := by
  unfold NameBudget.read
  split
  · exact Checked.returns_pure _
  · refine (Checked.returns_okOr _ _).bind fun rest _ => ?_
    refine (Checked.returns_okOr _ _).bind fun size hsize => ?_
    split
    · exact Checked.returns_fail _
    · have hlt : size < rest.length :=
        (List.findIdx?_eq_some_iff_findIdx_eq.mp (Checked.okOr_eq_ok.mp hsize)).1
      refine (Checked.returns_expect (getRange_isSome (by omega) (by omega))).bind fun _ _ => ?_
      dsimp only
      split
      · exact Checked.returns_fail _
      · exact Checked.returns_pure _

/-- A name is paid for from the budget. -/
theorem NameBudget.read_ok (h : budget.read table start = .ok (name, budget')) :
    name.length + budget'.left = budget.left := by
  unfold NameBudget.read at h
  split at h
  · cases h
    exact Nat.zero_add _
  · obtain ⟨rest, -, h⟩ := Checked.bind_eq_ok.mp h
    obtain ⟨size, -, h⟩ := Checked.bind_eq_ok.mp h
    split at h
    · cases h
    · obtain ⟨slice, -, h⟩ := Checked.bind_eq_ok.mp h
      dsimp only at h
      split at h
      · cases h
      · cases h
        dsimp only
        omega

end Names

/-! ### Section headers read -/

section Headers

variable {bytes header : List UInt8} {shoff index : ℕ} {fileClass : Class} {raw : RawSection}

theorem sectionFields_returns (bytes : List UInt8) (index : UInt16) (fileClass : Class) :
    (sectionFields bytes index fileClass).Returns := by
  cases fileClass with
  | elf32 =>
    refine (u32At_returns (by omega)).bind fun _ _ => (u32At_returns (by omega)).bind fun _ _ => ?_
    refine (u32WideAt_returns (by omega)).bind fun _ _ => ?_
    refine (u32WideAt_returns (by omega)).bind fun _ _ => ?_
    refine (u32WideAt_returns (by omega)).bind fun _ _ => ?_
    refine (u32WideAt_returns (by omega)).bind fun _ _ => ?_
    refine (u32At_returns (by omega)).bind fun _ _ => ?_
    refine (u32WideAt_returns (by omega)).bind fun _ _ => ?_
    exact (u32WideAt_returns (by omega)).bind fun _ _ => Checked.returns_pure _
  | elf64 =>
    refine (u32At_returns (by omega)).bind fun _ _ => (u32At_returns (by omega)).bind fun _ _ => ?_
    refine (u64At_returns (by omega)).bind fun _ _ => ?_
    refine (u64At_returns (by omega)).bind fun _ _ => ?_
    refine (u64At_returns (by omega)).bind fun _ _ => ?_
    refine (u64At_returns (by omega)).bind fun _ _ => ?_
    refine (u32At_returns (by omega)).bind fun _ _ => ?_
    refine (u64At_returns (by omega)).bind fun _ _ => ?_
    exact (u64At_returns (by omega)).bind fun _ _ => Checked.returns_pure _

theorem rawSection_returns (bytes : List UInt8) (shoff index : ℕ) (fileClass : Class) :
    (rawSection bytes shoff index fileClass).Returns := by
  unfold rawSection
  refine (Checked.returns_okOr _ _).bind fun start _ => ?_
  refine (Checked.returns_okOr _ _).bind fun stop _ => ?_
  refine (Checked.returns_okOr _ _).bind fun header _ => ?_
  refine (sectionFields_returns _ _ _).bind fun raw _ => ?_
  split
  · exact Checked.returns_pure _
  · exact Checked.returns_fail _

theorem tableBytes_returns (bytes : List UInt8) (header : RawSection) :
    (tableBytes bytes header).Returns :=
  (Checked.returns_okOr _ _).bind fun _ _ => Checked.returns_okOr _ _

/-- Where the offset and the size of a section stand in its header, and their width. -/
def extentFields : Class → ℕ × ℕ × ℕ
  | .elf32 => (0x10, 0x14, 4)
  | .elf64 => (0x18, 0x20, 8)

theorem sectionFields_ok {index : UInt16} (h : sectionFields bytes index fileClass = .ok raw) :
    raw.name = [] ∧ raw.kind.toNat = fieldAt bytes 4 4 ∧
      raw.offset.toNat = fieldAt bytes (extentFields fileClass).1 (extentFields fileClass).2.2 ∧
      raw.size.toNat = fieldAt bytes (extentFields fileClass).2.1 (extentFields fileClass).2.2 := by
  cases fileClass with
  | elf32 =>
    obtain ⟨nameOffset, -, h⟩ := Checked.bind_eq_ok.mp h
    obtain ⟨kind, hkind, h⟩ := Checked.bind_eq_ok.mp h
    obtain ⟨flags, -, h⟩ := Checked.bind_eq_ok.mp h
    obtain ⟨address, -, h⟩ := Checked.bind_eq_ok.mp h
    obtain ⟨offset, hoffset, h⟩ := Checked.bind_eq_ok.mp h
    obtain ⟨size, hsize, h⟩ := Checked.bind_eq_ok.mp h
    obtain ⟨link, -, h⟩ := Checked.bind_eq_ok.mp h
    obtain ⟨entsize, -, h⟩ := Checked.bind_eq_ok.mp h
    obtain ⟨align, -, h⟩ := Checked.bind_eq_ok.mp h
    cases h
    exact ⟨rfl, u32At_ok hkind, u32WideAt_ok hoffset, u32WideAt_ok hsize⟩
  | elf64 =>
    obtain ⟨nameOffset, -, h⟩ := Checked.bind_eq_ok.mp h
    obtain ⟨kind, hkind, h⟩ := Checked.bind_eq_ok.mp h
    obtain ⟨flags, -, h⟩ := Checked.bind_eq_ok.mp h
    obtain ⟨address, -, h⟩ := Checked.bind_eq_ok.mp h
    obtain ⟨offset, hoffset, h⟩ := Checked.bind_eq_ok.mp h
    obtain ⟨size, hsize, h⟩ := Checked.bind_eq_ok.mp h
    obtain ⟨link, -, h⟩ := Checked.bind_eq_ok.mp h
    obtain ⟨entsize, -, h⟩ := Checked.bind_eq_ok.mp h
    obtain ⟨align, -, h⟩ := Checked.bind_eq_ok.mp h
    cases h
    exact ⟨rfl, u32At_ok hkind, u64At_ok hoffset, u64At_ok hsize⟩

/-- A header read from the section table. -/
structure HeaderOf (bytes : List UInt8) (shoff : ℕ) (fileClass : Class) (index : ℕ)
    (raw : Section) : Prop where
  number : raw.index.toNat = index
  kind : raw.kind.toNat = fieldAt bytes (shoff + index * headerStride fileClass + 4) 4
  offset : raw.offset.toNat =
    fieldAt bytes (shoff + index * headerStride fileClass + (extentFields fileClass).1)
      (extentFields fileClass).2.2
  size : raw.size.toNat =
    fieldAt bytes (shoff + index * headerStride fileClass + (extentFields fileClass).2.1)
      (extentFields fileClass).2.2

theorem rawSection_ok (h : rawSection bytes shoff index fileClass = .ok raw) :
    HeaderOf bytes shoff fileClass index raw.toSection := by
  unfold rawSection at h
  obtain ⟨start, hstart, hrest⟩ := Checked.bind_eq_ok.mp h
  obtain ⟨stop, hstop, hrest⟩ := Checked.bind_eq_ok.mp hrest
  obtain ⟨header, hheader, hrest⟩ := Checked.bind_eq_ok.mp hrest
  obtain ⟨fields, hfields, hresult⟩ := Checked.bind_eq_ok.mp hrest
  obtain ⟨offset, hoffset, hstart⟩ := Option.bind_eq_some_iff.mp (Checked.okOr_eq_ok.mp hstart)
  obtain ⟨rfl, -⟩ := checkedMul_eq_some.mp hoffset
  obtain ⟨rfl, -⟩ := checkedAdd_eq_some.mp hstart
  obtain ⟨rfl, -⟩ := checkedAdd_eq_some.mp (Checked.okOr_eq_ok.mp hstop)
  have hpart := Checked.okOr_eq_ok.mp hheader
  obtain ⟨-, hkind, hoffset, hsize⟩ := sectionFields_ok hfields
  have hextent : (extentFields fileClass).1 + (extentFields fileClass).2.2 ≤
      headerStride fileClass ∧ (extentFields fileClass).2.1 + (extentFields fileClass).2.2 ≤
      headerStride fileClass ∧ 4 + 4 ≤ headerStride fileClass := by
    cases fileClass <;> decide
  split at hresult
  · rename_i hindex
    cases hresult
    refine ⟨UInt16.toNat_ofNat_of_lt' hindex, ?_, ?_, ?_⟩
    · exact hkind.trans (fieldAt_getRange hpart (by omega))
    · exact hoffset.trans (fieldAt_getRange hpart (by omega))
    · exact hsize.trans (fieldAt_getRange hpart (by omega))
  · cases hresult

theorem tableBytes_ok {table : List UInt8} (h : tableBytes bytes raw = .ok table) :
    getRange bytes raw.offset.toNat (raw.offset.toNat + raw.size.toNat) = some table ∧
      table.length = raw.size.toNat := by
  obtain ⟨stop, hstop, h⟩ := Checked.bind_eq_ok.mp h
  obtain ⟨rfl, -⟩ := checkedAdd_eq_some.mp (Checked.okOr_eq_ok.mp hstop)
  have hrange := Checked.okOr_eq_ok.mp h
  refine ⟨hrange, ?_⟩
  rw [length_of_getRange hrange, Nat.add_sub_cancel_left]

end Headers

/-! ### Symbols read -/

section Symbols

variable {bytes table names : List UInt8} {shoff shnum start index : ℕ} {fileClass : Class}
  {symtab : RawSection} {budget budget' : NameBudget} {symbols : List Symbol}

/-- Where `st_shndx` stands in a symbol entry. -/
def shndxField : Class → ℕ
  | .elf32 => 0xe
  | .elf64 => 6

theorem expect_checkedAdd_returns {a b : ℕ} (h : a + b < 2 ^ 64) :
    (Checked.expect (checkedAdd a b) : Checked String ℕ).Returns :=
  Checked.returns_expect (by rw [checkedAdd_of_lt h]; rfl)

theorem expect_checkedAdd_ok {a b c : ℕ}
    (h : (Checked.expect (checkedAdd a b) : Checked String ℕ) = .ok c) : c = a + b :=
  (checkedAdd_eq_some.mp (Checked.expect_eq_ok.mp h)).1

theorem symbolFields_returns (h : start + symbolStride fileClass < 2 ^ 64) :
    (symbolFields table start fileClass).Returns := by
  cases fileClass with
  | elf32 =>
    have h : start + 16 < 2 ^ 64 := h
    refine (u32At_returns (by omega)).bind fun _ _ => ?_
    refine (expect_checkedAdd_returns (by omega)).bind fun _ _ => ?_
    refine (Checked.returns_okOr _ _).bind fun _ _ => ?_
    refine (expect_checkedAdd_returns (by omega)).bind fun _ hc => ?_
    obtain rfl := expect_checkedAdd_ok hc
    refine (u16At_returns (by omega)).bind fun _ _ => ?_
    refine (expect_checkedAdd_returns (by omega)).bind fun _ hc => ?_
    obtain rfl := expect_checkedAdd_ok hc
    refine (u32WideAt_returns (by omega)).bind fun _ _ => ?_
    refine (expect_checkedAdd_returns (by omega)).bind fun _ hc => ?_
    obtain rfl := expect_checkedAdd_ok hc
    exact (u32WideAt_returns (by omega)).bind fun _ _ => Checked.returns_pure _
  | elf64 =>
    have h : start + 24 < 2 ^ 64 := h
    refine (u32At_returns (by omega)).bind fun _ _ => ?_
    refine (expect_checkedAdd_returns (by omega)).bind fun _ _ => ?_
    refine (Checked.returns_okOr _ _).bind fun _ _ => ?_
    refine (expect_checkedAdd_returns (by omega)).bind fun _ hc => ?_
    obtain rfl := expect_checkedAdd_ok hc
    refine (u16At_returns (by omega)).bind fun _ _ => ?_
    refine (expect_checkedAdd_returns (by omega)).bind fun _ hc => ?_
    obtain rfl := expect_checkedAdd_ok hc
    refine (u64At_returns (by omega)).bind fun _ _ => ?_
    refine (expect_checkedAdd_returns (by omega)).bind fun _ hc => ?_
    obtain rfl := expect_checkedAdd_ok hc
    exact (u64At_returns (by omega)).bind fun _ _ => Checked.returns_pure _

theorem symbolFields_ok {name : UInt32} {info : UInt8} {shndx : UInt16} {value size : UInt64}
    (h : symbolFields table start fileClass = .ok (name, info, shndx, value, size)) :
    shndx.toNat = fieldAt table (start + shndxField fileClass) 2 := by
  cases fileClass with
  | elf32 =>
    obtain ⟨name, -, h⟩ := Checked.bind_eq_ok.mp h
    obtain ⟨_, -, h⟩ := Checked.bind_eq_ok.mp h
    obtain ⟨info, -, h⟩ := Checked.bind_eq_ok.mp h
    obtain ⟨place, hplace, h⟩ := Checked.bind_eq_ok.mp h
    obtain ⟨shndx, hshndx, h⟩ := Checked.bind_eq_ok.mp h
    obtain ⟨_, -, h⟩ := Checked.bind_eq_ok.mp h
    obtain ⟨value, -, h⟩ := Checked.bind_eq_ok.mp h
    obtain ⟨_, -, h⟩ := Checked.bind_eq_ok.mp h
    obtain ⟨size, -, h⟩ := Checked.bind_eq_ok.mp h
    cases h
    rw [u16At_ok hshndx, expect_checkedAdd_ok hplace]
    rfl
  | elf64 =>
    obtain ⟨name, -, h⟩ := Checked.bind_eq_ok.mp h
    obtain ⟨_, -, h⟩ := Checked.bind_eq_ok.mp h
    obtain ⟨info, -, h⟩ := Checked.bind_eq_ok.mp h
    obtain ⟨place, hplace, h⟩ := Checked.bind_eq_ok.mp h
    obtain ⟨shndx, hshndx, h⟩ := Checked.bind_eq_ok.mp h
    obtain ⟨_, -, h⟩ := Checked.bind_eq_ok.mp h
    obtain ⟨value, -, h⟩ := Checked.bind_eq_ok.mp h
    obtain ⟨_, -, h⟩ := Checked.bind_eq_ok.mp h
    obtain ⟨size, -, h⟩ := Checked.bind_eq_ok.mp h
    cases h
    rw [u16At_ok hshndx, expect_checkedAdd_ok hplace]
    rfl

/-- The bytes of the names of some symbols. -/
def symbolNameBytes (symbols : List Symbol) : ℕ := (symbols.map (·.name.length)).sum

/-- What the loop over the symbols has done after the first `count` of them. -/
structure SymbolsRead (table : List UInt8) (fileClass : Class) (budget : NameBudget) (count : ℕ)
    (s : List Symbol × NameBudget) : Prop where
  homes : s.1.map (·.home) = (List.range count).map fun index =>
    Home.of (UInt16.ofNat
      (fieldAt table (index * symbolStride fileClass + shndxField fileClass) 2))
  names : symbolNameBytes s.1 + s.2.left = budget.left

theorem readSymbol_ok {s s' : List Symbol × NameBudget}
    (hs : SymbolsRead table fileClass budget index s)
    (h : readSymbol table names fileClass s index = .ok s') :
    SymbolsRead table fileClass budget (index + 1) s' := by
  unfold readSymbol at h
  obtain ⟨start, hstart, h⟩ := Checked.bind_eq_ok.mp h
  obtain ⟨rfl, -⟩ := checkedMul_eq_some.mp (Checked.expect_eq_ok.mp hstart)
  obtain ⟨⟨name, info, shndx, value, size⟩, hfields, h⟩ := Checked.bind_eq_ok.mp h
  obtain ⟨⟨text, left⟩, hname, h⟩ := Checked.bind_eq_ok.mp h
  cases h
  have hshndx : UInt16.ofNat shndx.toNat = shndx := UInt16.ofNat_toNat
  refine ⟨?_, ?_⟩
  · rw [List.map_append, hs.homes, List.range_succ, List.map_append, List.map_singleton,
      List.map_singleton, ← symbolFields_ok hfields, hshndx]
  · have hpaid := NameBudget.read_ok hname
    have hnames := hs.names
    simp only [symbolNameBytes, List.map_append, List.sum_append, List.map_singleton,
      List.sum_singleton] at hnames ⊢
    omega

theorem readSymbol_returns (hlength : table.length < 2 ^ 64)
    (hindex : index < table.length / symbolStride fileClass) (s : List Symbol × NameBudget) :
    (readSymbol table names fileClass s index).Returns := by
  have hentry : index * symbolStride fileClass + symbolStride fileClass < 2 ^ 64 := by
    have hle : (index + 1) * symbolStride fileClass ≤ table.length :=
      (Nat.mul_le_mul_right _ hindex).trans (Nat.div_mul_le_self _ _)
    rw [Nat.succ_mul] at hle
    omega
  unfold readSymbol
  have hmul : (checkedMul index (symbolStride fileClass)).isSome := by
    rw [checkedMul_of_lt (by omega)]
    rfl
  refine (Checked.returns_expect hmul).bind fun start hstart => ?_
  obtain ⟨rfl, -⟩ := checkedMul_eq_some.mp (Checked.expect_eq_ok.mp hstart)
  refine (symbolFields_returns hentry).bind fun fields _ => ?_
  obtain ⟨name, info, shndx, value, size⟩ := fields
  exact (NameBudget.read_returns _ _ _).bind fun _ _ => Checked.returns_pure _

theorem readSymbols_returns (bytes : List UInt8) (shoff shnum : ℕ) (fileClass : Class)
    (symtab : RawSection) (budget : NameBudget) :
    (readSymbols bytes shoff shnum fileClass symtab budget).Returns := by
  unfold readSymbols
  split
  · exact Checked.returns_fail _
  · refine (rawSection_returns _ _ _ _).bind fun strtab _ => ?_
    split
    · exact Checked.returns_fail _
    · refine (tableBytes_returns _ _).bind fun names _ => ?_
      split
      · exact Checked.returns_fail _
      · refine (tableBytes_returns _ _).bind fun table htable => ?_
        split
        · exact Checked.returns_fail _
        · -- the size of the table is a 64-bit field, so no offset into it overflows
          have hlength : table.length < 2 ^ 64 := by
            rw [(tableBytes_ok htable).2]
            exact symtab.size.toNat_lt
          exact .foldlM_mem (fun s index hindex =>
            readSymbol_returns hlength (List.mem_range.mp hindex) s) _

/-- The symbols of a table: one for each entry, with the home its `st_shndx` stands for. -/
theorem readSymbols_ok
    (h : readSymbols bytes shoff shnum fileClass symtab budget = .ok (symbols, budget')) :
    symtab.entsize.toNat = symbolStride fileClass ∧
    symbols.map (·.home) =
      (List.range (symtab.size.toNat / symbolStride fileClass)).map (fun index =>
        Home.of (UInt16.ofNat (fieldAt bytes (symtab.offset.toNat +
          index * symbolStride fileClass + shndxField fileClass) 2))) ∧
    symbolNameBytes symbols ≤ budget.left := by
  unfold readSymbols at h
  split at h
  · cases h
  obtain ⟨strtab, -, h⟩ := Checked.bind_eq_ok.mp h
  split at h
  · cases h
  obtain ⟨names, -, h⟩ := Checked.bind_eq_ok.mp h
  split at h
  · cases h
  rename_i hentsize
  obtain ⟨table, htable, h⟩ := Checked.bind_eq_ok.mp h
  split at h
  · cases h
  obtain ⟨hrange, hlength⟩ := tableBytes_ok htable
  have hread := Except.foldlM_range (motive := SymbolsRead table fileClass budget) h
    ⟨rfl, Nat.zero_add _⟩ fun index s s' _ hs hstep => readSymbol_ok hs hstep
  refine ⟨not_not.mp hentsize, ?_, ?_⟩
  · rw [hread.homes, hlength]
    refine List.map_congr_left fun index hindex => ?_
    have hentry : (index + 1) * symbolStride fileClass ≤ symtab.size.toNat :=
      (Nat.mul_le_mul_right _ (List.mem_range.mp hindex)).trans (Nat.div_mul_le_self _ _)
    have hfield : shndxField fileClass + 2 ≤ symbolStride fileClass := by
      cases fileClass <;> decide
    rw [Nat.succ_mul] at hentry
    rw [fieldAt_getRange hrange (by omega), Nat.add_assoc]
  · have hnames := hread.names
    dsimp only at hnames
    omega

end Symbols

/-! ### Sections read -/

section Sections

variable {bytes names : List UInt8} {shoff shnum index : ℕ} {fileClass : Class}
  {budget : NameBudget} {s s' : SectionLoop}

/-- The bytes of the names of some sections. -/
def sectionNameBytes (sections : List Section) : ℕ := (sections.map (·.name.length)).sum

/-- What the loop over the section headers has done after the first `count` of them. -/
structure SectionsRead (bytes : List UInt8) (shoff : ℕ) (fileClass : Class) (budget : NameBudget)
    (count : ℕ) (s : SectionLoop) : Prop where
  length : s.sections.length = count
  headers : ∀ i (h : i < s.sections.length), HeaderOf bytes shoff fileClass i s.sections[i]
  names : sectionNameBytes s.sections + s.budget.left = budget.left
  symtab : s.symtab.map (·.toSection) = (s.sections.filter (·.kind = shtSymtab)).getLast?

theorem readSection_ok (hs : SectionsRead bytes shoff fileClass budget index s)
    (h : readSection bytes shoff fileClass names s index = .ok s') :
    SectionsRead bytes shoff fileClass budget (index + 1) s' := by
  unfold readSection at h
  obtain ⟨raw, hraw, h⟩ := Checked.bind_eq_ok.mp h
  obtain ⟨⟨name, left⟩, hname, h⟩ := Checked.bind_eq_ok.mp h
  cases h
  have hheader := rawSection_ok hraw
  refine ⟨by simp [hs.length], fun i hi => ?_, ?_, ?_⟩
  · rw [List.length_append, List.length_singleton] at hi
    dsimp only
    rw [List.getElem_append]
    split
    · exact hs.headers i _
    · have hlast : i = index := by
        have := hs.length
        omega
      subst hlast
      rw [List.getElem_singleton]
      exact ⟨hheader.number, hheader.kind, hheader.offset, hheader.size⟩
  · have hpaid := NameBudget.read_ok hname
    have hnames := hs.names
    simp only [sectionNameBytes, List.map_append, List.sum_append, List.map_singleton,
      List.sum_singleton] at hnames ⊢
    omega
  · dsimp only
    rw [List.filter_append]
    split
    · rename_i hkind
      simp [hkind]
    · rename_i hkind
      simp [hkind, hs.symtab]

theorem readSection_returns (bytes : List UInt8) (shoff : ℕ) (fileClass : Class)
    (names : List UInt8) (s : SectionLoop) (index : ℕ) :
    (readSection bytes shoff fileClass names s index).Returns :=
  (rawSection_returns _ _ _ _).bind fun _ _ =>
    (NameBudget.read_returns _ _ _).bind fun _ _ => Checked.returns_pure _

end Sections

/-! ### The whole file -/

section Whole

variable {bytes : List UInt8} {header : Header}

theorem tableFields_returns (bytes : List UInt8) (fileClass : Class) :
    (tableFields bytes fileClass).Returns := by
  cases fileClass with
  | elf32 =>
    refine (u32WideAt_returns (by omega)).bind fun _ _ => ?_
    refine (u16At_returns (by omega)).bind fun _ _ => (u16At_returns (by omega)).bind fun _ _ => ?_
    exact (u16At_returns (by omega)).bind fun _ _ => Checked.returns_pure _
  | elf64 =>
    refine (u64At_returns (by omega)).bind fun _ _ => ?_
    refine (u16At_returns (by omega)).bind fun _ _ => (u16At_returns (by omega)).bind fun _ _ => ?_
    exact (u16At_returns (by omega)).bind fun _ _ => Checked.returns_pure _

theorem readClass_returns (bytes : List UInt8) : (readClass bytes).Returns := by
  unfold readClass
  split
  · exact Checked.returns_pure _
  split
  · exact Checked.returns_pure _
  · exact Checked.returns_fail _

theorem readHeader_returns (bytes : List UInt8) : (readHeader bytes).Returns := by
  unfold readHeader
  split
  · exact Checked.returns_fail _
  refine (readClass_returns _).bind fun fileClass _ => ?_
  split
  · exact Checked.returns_fail _
  split
  · exact Checked.returns_fail _
  rename_i hlength
  have hlong : 52 ≤ bytes.length := by
    cases fileClass with
    | elf32 => exact not_lt.mp hlength
    | elf64 => exact (by decide : 52 ≤ 64).trans (not_lt.mp hlength)
  have hbyte : ∀ i, i < 52 → (Checked.expect bytes[i]? : Checked String UInt8).Returns :=
    fun i hi => Checked.returns_expect (by simp; omega)
  refine (hbyte 6 (by omega)).bind fun _ _ => (u32At_returns (by omega)).bind fun _ _ => ?_
  split
  · exact Checked.returns_fail _
  refine (u16At_returns (by cases fileClass <;> decide)).bind fun _ _ => ?_
  split
  · exact Checked.returns_fail _
  refine (u16At_returns (by omega)).bind fun _ _ => (u16At_returns (by omega)).bind fun _ _ => ?_
  refine (u32At_returns (by cases fileClass <;> decide)).bind fun _ _ => ?_
  refine (tableFields_returns _ _).bind fun fields _ => ?_
  obtain ⟨shoff, shentsize, shnum, shstrndx⟩ := fields
  refine (hbyte 7 (by omega)).bind fun _ _ => (hbyte 8 (by omega)).bind fun _ _ => ?_
  exact Checked.returns_pure _

theorem readTables_returns (bytes : List UInt8) (header : Header) :
    (readTables bytes header).Returns := by
  unfold readTables
  refine (rawSection_returns _ _ _ _).bind fun first _ => ?_
  dsimp only
  split
  · exact Checked.returns_fail _
  refine (Checked.returns_okOr _ _).bind fun tableEnd _ => ?_
  split
  · exact Checked.returns_fail _
  generalize (if header.shstrndxField = shnXindex then first.link.toNat
    else header.shstrndxField.toNat) = shstrndx
  split
  · exact Checked.returns_fail _
  have hnames : (sectionNames bytes header shstrndx).Returns := by
    unfold sectionNames
    split
    · exact Checked.returns_pure _
    · refine (rawSection_returns _ _ _ _).bind fun names _ => ?_
      split
      · exact Checked.returns_fail _
      · exact tableBytes_returns _ _
  refine hnames.bind fun names _ => ?_
  refine (Checked.Returns.foldlM (readSection_returns _ _ _ _) _ _).bind fun s _ => ?_
  split
  · exact Checked.returns_pure _
  · exact (readSymbols_returns _ _ _ _ _ _).bind fun _ _ => Checked.returns_pure _

/-- The reader returns on every byte string. -/
theorem read_returns (bytes : List UInt8) : (read bytes).Returns := by
  unfold read
  refine (readHeader_returns _).bind fun header _ => ?_
  dsimp only
  split
  · split
    · exact Checked.returns_pure _
    · exact Checked.returns_fail _
  split
  · exact Checked.returns_fail _
  split
  · exact Checked.returns_fail _
  · exact (readTables_returns _ _).bind fun _ _ => Checked.returns_pure _

theorem readClass_ok {fileClass : Class} (h : readClass bytes = .ok fileClass) :
    fileClass = File.fileClass bytes := by
  unfold readClass at h
  unfold File.fileClass
  split at h
  · rename_i hclass
    cases h
    rw [if_pos hclass]
  · rename_i hclass
    rw [if_neg hclass]
    split at h
    · cases h
      rfl
    · cases h

/-- The header fields that say where the sections are. -/
theorem readHeader_ok (h : readHeader bytes = .ok header) :
    header.fileClass = File.fileClass bytes ∧ header.shoff.toNat = File.shoff bytes ∧
      header.shnumField.toNat = match File.fileClass bytes with
        | .elf32 => fieldAt bytes 0x30 2
        | .elf64 => fieldAt bytes 0x3c 2 := by
  unfold readHeader at h
  split at h
  · cases h
  obtain ⟨fileClass, hclass, h⟩ := Checked.bind_eq_ok.mp h
  split at h
  · cases h
  split at h
  · cases h
  obtain ⟨_, -, h⟩ := Checked.bind_eq_ok.mp h
  obtain ⟨_, -, h⟩ := Checked.bind_eq_ok.mp h
  split at h
  · cases h
  obtain ⟨_, -, h⟩ := Checked.bind_eq_ok.mp h
  split at h
  · cases h
  obtain ⟨_, -, h⟩ := Checked.bind_eq_ok.mp h
  obtain ⟨_, -, h⟩ := Checked.bind_eq_ok.mp h
  obtain ⟨_, -, h⟩ := Checked.bind_eq_ok.mp h
  obtain ⟨⟨shoff, shentsize, shnum, shstrndx⟩, hfields, h⟩ := Checked.bind_eq_ok.mp h
  obtain ⟨_, -, h⟩ := Checked.bind_eq_ok.mp h
  obtain ⟨_, -, h⟩ := Checked.bind_eq_ok.mp h
  cases h
  refine ⟨readClass_ok hclass, ?_⟩
  unfold File.shoff
  rw [← readClass_ok hclass]
  dsimp only
  cases fileClass with
  | elf32 =>
    obtain ⟨shoff, hshoff, hrest⟩ := Checked.bind_eq_ok.mp hfields
    obtain ⟨shentsize, -, hrest⟩ := Checked.bind_eq_ok.mp hrest
    obtain ⟨shnum, hshnum, hrest⟩ := Checked.bind_eq_ok.mp hrest
    obtain ⟨shstrndx, -, hrest⟩ := Checked.bind_eq_ok.mp hrest
    cases hrest
    exact ⟨u32WideAt_ok hshoff, u16At_ok hshnum⟩
  | elf64 =>
    obtain ⟨shoff, hshoff, hrest⟩ := Checked.bind_eq_ok.mp hfields
    obtain ⟨shentsize, -, hrest⟩ := Checked.bind_eq_ok.mp hrest
    obtain ⟨shnum, hshnum, hrest⟩ := Checked.bind_eq_ok.mp hrest
    obtain ⟨shstrndx, -, hrest⟩ := Checked.bind_eq_ok.mp hrest
    cases hrest
    exact ⟨u64At_ok hshoff, u16At_ok hshnum⟩

section HeaderOf

variable {index : ℕ} {raw : Section}

theorem HeaderOf.kind_eq (h : HeaderOf bytes (File.shoff bytes) (File.fileClass bytes) index raw) :
    raw.kind.toNat = File.sectionKind bytes index := h.kind

theorem HeaderOf.offset_eq
    (h : HeaderOf bytes (File.shoff bytes) (File.fileClass bytes) index raw) :
    raw.offset.toNat = File.sectionOffset bytes index := by
  rw [h.offset, File.sectionOffset, File.headerAt]
  cases File.fileClass bytes <;> rfl

theorem HeaderOf.size_eq (h : HeaderOf bytes (File.shoff bytes) (File.fileClass bytes) index raw) :
    raw.size.toNat = File.sectionSize bytes index := by
  rw [h.size, File.sectionSize, File.headerAt]
  cases File.fileClass bytes <;> rfl

end HeaderOf

theorem sectionCount_eq {first : RawSection} (hheader : readHeader bytes = .ok header)
    (hshoff : header.shoff ≠ 0)
    (hfirst : HeaderOf bytes (File.shoff bytes) (File.fileClass bytes) 0 first.toSection) :
    sectionCount header first = File.sectionTotal bytes := by
  obtain ⟨-, hoffset, hshnum⟩ := readHeader_ok hheader
  have hpresent : File.shoff bytes ≠ 0 := by
    rw [← hoffset]
    exact fun h => hshoff (UInt64.toNat_inj.mp h)
  have hzero : header.shnumField = 0 ↔ header.shnumField.toNat = 0 := UInt16.toNat_inj.symm
  rw [sectionCount, File.sectionTotal, if_neg hpresent, ← hshnum, hfirst.size_eq]
  simp only [hzero]

/-- The sections and the symbols of the tables, against the fields of the file. -/
theorem readTables_ok {sections : List Section} {symbols : List Symbol}
    (hheader : readHeader bytes = .ok header) (hshoff : header.shoff ≠ 0)
    (h : readTables bytes header = .ok (sections, symbols)) :
    sections.length = File.sectionTotal bytes ∧
    (∀ i (h : i < sections.length),
      HeaderOf bytes (File.shoff bytes) (File.fileClass bytes) i sections[i]) ∧
    sectionNameBytes sections + symbolNameBytes symbols ≤ (NameBudget.new bytes.length).left ∧
    match (sections.filter (·.kind = shtSymtab)).getLast? with
    | none => symbols = []
    | some symtab =>
      symtab.entsize.toNat = symbolStride (File.fileClass bytes) ∧
      symbols.map (·.home) =
        (List.range (symtab.size.toNat / symbolStride (File.fileClass bytes))).map fun index => Home.of (UInt16.ofNat (fieldAt bytes (symtab.offset.toNat +
          index * symbolStride (File.fileClass bytes) + shndxField (File.fileClass bytes)) 2)) := by
  obtain ⟨hclass, hoffset, hshnum⟩ := readHeader_ok hheader
  unfold readTables at h
  obtain ⟨first, hfirst, h⟩ := Checked.bind_eq_ok.mp h
  dsimp only at h
  split at h
  · cases h
  obtain ⟨tableEnd, -, h⟩ := Checked.bind_eq_ok.mp h
  split at h
  · cases h
  generalize (if header.shstrndxField = shnXindex then first.link.toNat
    else header.shstrndxField.toNat) = shstrndx at h
  split at h
  · cases h
  obtain ⟨names, -, h⟩ := Checked.bind_eq_ok.mp h
  obtain ⟨s, hs, h⟩ := Checked.bind_eq_ok.mp h
  have hread := Except.foldlM_range (motive := SectionsRead bytes header.shoff.toNat
    header.fileClass (.new bytes.length)) hs
    ⟨rfl, nofun, Nat.zero_add _, rfl⟩ fun index s s' _ hs hstep => readSection_ok hs hstep
  rw [hclass, hoffset] at hread
  have htotal : sectionCount header first = File.sectionTotal bytes := by
    have hfirst := rawSection_ok hfirst
    rw [hclass, hoffset] at hfirst
    exact sectionCount_eq hheader hshoff hfirst
  have hnames := hread.names
  have hsymtab := hread.symtab
  split at h
  · rename_i hnone
    cases h
    rw [hnone] at hsymtab
    refine ⟨hread.length.trans htotal, hread.headers, ?_, ?_⟩
    · have : symbolNameBytes [] = 0 := rfl
      omega
    · rw [← hsymtab]
      rfl
  · rename_i symtab hsome
    obtain ⟨⟨symbols, left⟩, hsymbols, h⟩ := Checked.bind_eq_ok.mp h
    cases h
    rw [hsome] at hsymtab
    obtain ⟨hentsize, hhomes, hpaid⟩ := readSymbols_ok hsymbols
    rw [hclass] at hentsize hhomes
    refine ⟨hread.length.trans htotal, hread.headers, ?_, ?_⟩
    · dsimp only
      omega
    · rw [← hsymtab]
      exact ⟨hentsize, hhomes⟩

end Whole

/-! ### The sections of the symbols -/

section Homes

variable {bytes : List UInt8} {object : Object}

theorem getLast?_filter_range {α : Type} {p : α → Bool} {q : ℕ → Bool} (l : List α)
    (h : ∀ i (hi : i < l.length), p l[i] = q i) :
    (l.filter p).getLast? = ((List.range l.length).filter q).getLast?.bind (l[·]?) := by
  induction l using List.reverseRecOn with
  | nil => rfl
  | append_singleton l a ih =>
    have hlast : p a = q l.length := by simpa using h l.length (by simp)
    have hinit : ∀ i (hi : i < l.length), p l[i] = q i := fun i hi => by
      rw [← h i (by simp; omega), List.getElem_append_left hi]
    rw [List.length_append, List.length_singleton, List.range_succ, List.filter_append,
      List.filter_append]
    cases hq : q l.length with
    | true => simp [hlast, hq]
    | false =>
      simp only [List.filter_cons, hlast, hq, List.filter_nil, Bool.false_eq_true, if_false,
        List.append_nil]
      rw [ih hinit]
      cases hfound : ((List.range l.length).filter q).getLast? with
      | none => rfl
      | some i =>
        have hi : i < l.length :=
          List.mem_range.mp (List.mem_filter.mp (List.mem_of_getLast? hfound)).1
        simp [List.getElem?_append_left hi]

/-- What the sections and the symbols of an accepted file are. -/
structure Reads (bytes : List UInt8) (object : Object) : Prop where
  length : object.sections.length = File.sectionTotal bytes
  headers : ∀ i (h : i < object.sections.length),
    HeaderOf bytes (File.shoff bytes) (File.fileClass bytes) i object.sections[i]
  names : sectionNameBytes object.sections + symbolNameBytes object.symbols ≤
    (NameBudget.new bytes.length).left
  symbols : match (object.sections.filter (·.kind = shtSymtab)).getLast? with
    | none => object.symbols = []
    | some symtab =>
      symtab.entsize.toNat = symbolStride (File.fileClass bytes) ∧
      object.symbols.map (·.home) =
        (List.range (symtab.size.toNat / symbolStride (File.fileClass bytes))).map fun index =>
          Home.of (UInt16.ofNat (fieldAt bytes (symtab.offset.toNat +
            index * symbolStride (File.fileClass bytes) + shndxField (File.fileClass bytes)) 2))

theorem read_ok (h : read bytes = .ok object) : Reads bytes object := by
  unfold read at h
  obtain ⟨header, hheader, h⟩ := Checked.bind_eq_ok.mp h
  dsimp only at h
  split at h
  · rename_i hshoff
    split at h
    · cases h
      have htotal : File.sectionTotal bytes = 0 := by
        rw [File.sectionTotal, if_pos]
        rw [← (readHeader_ok hheader).2.1, hshoff]
        rfl
      exact ⟨htotal.symm, nofun, Nat.zero_le _, rfl⟩
    · cases h
  · rename_i hshoff
    split at h
    · cases h
    split at h
    · cases h
    obtain ⟨⟨sections, symbols⟩, htables, h⟩ := Checked.bind_eq_ok.mp h
    cases h
    obtain ⟨hlength, hheaders, hnames, hsymbols⟩ := readTables_ok hheader hshoff htables
    exact ⟨hlength, hheaders, hnames, hsymbols⟩

/-- The symbol table of the file is the last section that is one. -/
theorem Reads.symbolTable (h : Reads bytes object) :
    (object.sections.filter (·.kind = shtSymtab)).getLast? =
      (File.symbolTable bytes).bind (object.sections[·]?) := by
  rw [File.symbolTable, ← h.length]
  refine getLast?_filter_range _ fun i hi => ?_
  rw [← (h.headers i hi).kind_eq]
  simp only [UInt32.toNat_inj]

/-- Each symbol has the home its `st_shndx` stands for. -/
theorem Reads.homes (h : Reads bytes object) :
    object.symbols.map (·.home) =
      (File.symbolSections bytes).map fun shndx => Home.of (UInt16.ofNat shndx) := by
  have hsymbols := h.symbols
  have htable := h.symbolTable
  unfold File.symbolSections
  cases hfile : File.symbolTable bytes with
  | none =>
    rw [hfile] at htable
    rw [htable] at hsymbols
    exact congrArg _ hsymbols
  | some table =>
    have hbound : table < object.sections.length := by
      rw [h.length]
      exact List.mem_range.mp (List.mem_filter.mp (List.mem_of_getLast? hfile)).1
    rw [hfile, Option.bind_some, List.getElem?_eq_getElem hbound] at htable
    rw [htable] at hsymbols
    rw [hsymbols.2, (h.headers table hbound).size_eq, (h.headers table hbound).offset_eq,
      List.map_map]
    refine List.map_congr_left fun index _ => ?_
    rw [Function.comp_apply, File.symbolSection]
    cases File.fileClass bytes <;> rfl

theorem shndx_lt {shndx : ℕ} (h : shndx ∈ File.symbolSections bytes) : shndx < 2 ^ 16 := by
  unfold File.symbolSections at h
  split at h
  · cases h
  · obtain ⟨index, -, rfl⟩ := List.mem_map.mp h
    exact fieldAt_lt _ _ 2

theorem Home.of_eq_inSection {shndx index : UInt16} :
    Home.of shndx = .inSection index ↔ shndx ≠ shnUndef ∧ shndx ≠ shnAbs ∧ shndx = index := by
  unfold Home.of
  split_ifs with habs hundef
  · simp [habs]
  · simp [hundef]
  · simp [habs, hundef]

/-- **What the ELF reader guarantees.** It returns on every byte string. In what it accepts, section
`i` has the index `i`, there is one symbol for each entry of the symbol table, and the names stay
within the budget; the sections of the symbols exist and are not reserved exactly when no `st_shndx`
of the file other than `SHN_UNDEF` and `SHN_ABS` is reserved or past the sections. -/
theorem elf_reader_bounds (bytes : List UInt8) :
    (read bytes).Returns ∧ ∀ object, read bytes = .ok object →
      (∀ i (h : i < object.sections.length), object.sections[i].index.toNat = i) ∧
      object.symbols.length =
        ((object.sections.filter (·.kind = shtSymtab)).getLast?.elim 0 fun symtab =>
          symtab.size.toNat / symtab.entsize.toNat) ∧
      (object.sections.map (·.name.length)).sum + (object.symbols.map (·.name.length)).sum ≤
        (NameBudget.new bytes.length).left ∧
      ((∀ symbol ∈ object.symbols, ∀ index, symbol.home = .inSection index →
          index.toNat < object.sections.length ∧ index < shnLoreserve) ↔
        ∀ shndx ∈ File.symbolSections bytes, shndx = shnUndef.toNat ∨ shndx = shnAbs.toNat ∨
          shndx < File.sectionTotal bytes ∧ shndx < shnLoreserve.toNat) := by
  refine ⟨read_returns bytes, fun object hread => ?_⟩
  have h := read_ok hread
  refine ⟨fun i hi => (h.headers i hi).number, ?_, h.names, ?_⟩
  · have hsymbols := h.symbols
    split at hsymbols
    · rename_i hnone
      rw [hnone, hsymbols]
      rfl
    · rename_i symtab hsome
      have hlength := congrArg List.length hsymbols.2
      rw [List.length_map, List.length_map, List.length_range] at hlength
      rw [hsome, Option.elim_some, hsymbols.1, hlength]
  · have hhomes : (∀ symbol ∈ object.symbols, ∀ index, symbol.home = .inSection index →
        index.toNat < object.sections.length ∧ index < shnLoreserve) ↔
        ∀ home ∈ object.symbols.map (·.home), ∀ index, home = .inSection index →
          index.toNat < object.sections.length ∧ index < shnLoreserve := by
      rw [List.forall_mem_map]
    rw [hhomes, h.homes, List.forall_mem_map, h.length]
    refine forall₂_congr fun shndx hshndx => ?_
    have hword : (UInt16.ofNat shndx).toNat = shndx := UInt16.toNat_ofNat_of_lt' (shndx_lt hshndx)
    simp only [Home.of_eq_inSection, ← UInt16.toNat_inj, UInt16.lt_iff_toNat_lt, ne_eq, hword]
    constructor
    · intro hsection
      by_cases hundef : shndx = shnUndef.toNat
      · exact .inl hundef
      · by_cases habs : shndx = shnAbs.toNat
        · exact .inr (.inl habs)
        · have := hsection (UInt16.ofNat shndx) ⟨hundef, habs, hword.symm⟩
          rw [hword] at this
          exact .inr (.inr this)
    · rintro hshndx index ⟨hundef, habs, hindex⟩
      rw [← hindex]
      exact (hshndx.resolve_left hundef).resolve_left habs

end Homes

/-- The header of a section in a 64-bit file. -/
def sectionHeader64 (kind offset size link entsize : ℕ) : List UInt8 :=
  leBytes 4 0 ++ leBytes 4 kind ++ leBytes 8 0 ++ leBytes 8 0 ++ leBytes 8 offset ++
    leBytes 8 size ++ leBytes 4 link ++ leBytes 4 0 ++ leBytes 8 1 ++ leBytes 8 entsize

/-- A relocatable file with three sections and one symbol, a common block of eight bytes. -/
def commonSymbol : List UInt8 :=
  [0x7f, 0x45, 0x4c, 0x46, 2, 1, 1, 15, 1] ++ List.replicate 7 0 ++
    leBytes 2 1 ++ leBytes 2 62 ++ leBytes 4 1 ++ leBytes 8 0 ++ leBytes 8 0 ++ leBytes 8 64 ++
    leBytes 4 0 ++ leBytes 2 64 ++ leBytes 2 0 ++ leBytes 2 0 ++ leBytes 2 64 ++ leBytes 2 3 ++
    leBytes 2 1 ++
  sectionHeader64 0 0 0 0 0 ++ sectionHeader64 3 256 1 0 0 ++ sectionHeader64 2 257 24 1 24 ++
  [0] ++
  (leBytes 4 0 ++ [0x11, 0] ++ leBytes 2 0xfff2 ++ leBytes 8 8 ++ leBytes 8 8)

/-- The index `SHN_COMMON` becomes a section number. -/
theorem read_common_section :
    ¬ ∀ bytes object, read bytes = .ok object → ∀ symbol ∈ object.symbols, ∀ index,
      symbol.home = .inSection index →
        index.toNat < object.sections.length ∧ index < shnLoreserve := by
  intro h
  have hread : (read commonSymbol).toOption.map (fun object =>
      (object.symbols.map (·.home), object.sections.length)) =
      some ([.inSection 0xfff2], 3) := by decide +kernel
  cases hobject : read commonSymbol with
  | error e => rw [hobject] at hread; cases hread
  | ok object =>
    rw [hobject] at hread
    obtain ⟨hhomes, hlength⟩ := Prod.mk.inj (Option.some.inj hread)
    obtain ⟨symbol, hsymbols, hhome⟩ := List.map_eq_singleton_iff.mp hhomes
    have hmem : symbol ∈ object.symbols := by rw [hsymbols]; exact List.mem_singleton_self _
    have hindex := (h commonSymbol object hobject symbol hmem 0xfff2 hhome).2
    exact absurd hindex (by decide)

end Elf

end ArosTools
