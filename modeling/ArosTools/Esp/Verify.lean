import ArosTools.Esp.Partition
import ArosTools.Program.Except

/-!
# The independent table verifier agrees with the encoder

`verifyEspPartitionTable` reads a table record by record.  It accepts what the encoder writes
(`verify_encodeTable`) and nothing else (`encodeTable_of_verify`); `esp_table_exact` puts both
together for the tables made from a CSV source.
-/

namespace ArosTools

namespace Esp

/-- A measured table and its validated entries. -/
structure EspPartitionFacts where
  sha256 : Sha256Digest
  sizeBytes : ℕ
  partitions : List EspPartition
  deriving DecidableEq, Repr

namespace Verify

/-- The verifier's own range check. -/
def validateRangesFrom (tableStart tableEnd flashBytes : ℕ) :
    List EspPartition → List EspPartition → Except String Unit
  | _, [] => .ok ()
  | previous, partition :: rest =>
    let start := partition.offset.toNat
    let stop := start + partition.size.toNat
    let alignment := if partition.kind = 0 then 0x10000 else sectorBytes
    if previous.any fun p => p.name == partition.name then .error "duplicate partition label"
    else if partition.flags &&& ~~~3 ≠ 0 then .error "unsupported partition flags"
    else if partition.size = 0 || start % alignment ≠ 0 || stop > flashBytes then
      .error "partition range is empty, unaligned or exceeds flash capacity"
    else if partition.kind = 0 && partition.size.toNat % sectorBytes ≠ 0 then
      .error "unsigned app partition size is not sector aligned"
    else if start < tableEnd && tableStart < stop then
      .error "partition overlaps the reserved table sector"
    else if start < tableEnd then
      .error "partition lies before the reserved table sector ends"
    else if previous.any fun p =>
        start < p.offset.toNat + p.size.toNat && p.offset.toNat < stop then
      .error "partition ranges overlap"
    else validateRangesFrom tableStart tableEnd flashBytes (previous ++ [partition]) rest

/-- Check labels, flags and ranges of a list of partitions. -/
def validateRanges (partitions : List EspPartition) (tableStart tableEnd flashBytes : ℕ) :
    Except String Unit :=
  validateRangesFrom tableStart tableEnd flashBytes [] partitions

theorem validateRangesFrom_eq (tableStart tableEnd flashBytes : ℕ)
    (previous partitions : List EspPartition) :
    validateRangesFrom tableStart tableEnd flashBytes previous partitions =
      Esp.validateRangesFrom tableStart tableEnd flashBytes previous partitions := by
  induction partitions generalizing previous with
  | nil => rfl
  | cons p rest ih => rw [validateRangesFrom, Esp.validateRangesFrom, ih]

end Verify

/-- The whole records of a table. -/
def chunks : ℕ → Bytes → List Bytes
  | 0, _ => []
  | k + 1, bytes => bytes.take recordBytes :: chunks k (bytes.drop recordBytes)

/-- The word at an offset of a record. -/
def word (record : Bytes) (offset : ℕ) : UInt32 :=
  UInt32.ofNat (ofLe ((record.drop offset).take 4))

/-- Read a partition record. -/
def decodeRecord (record : Bytes) : Except String EspPartition := do
  let label := (record.drop 12).take 16
  let labelEnd := (label.findIdx? (· == 0)).getD 16
  if labelEnd = 0 || (label.take labelEnd).any (fun b => !(0x21 ≤ b && b ≤ 0x7e)) ||
      (label.drop labelEnd).any (fun b => b ≠ 0) then
    .error "partition label is empty, nonportable or has invalid padding"
  else do
    let name ← (fromUtf8 (label.take labelEnd)).elim (.error "partition label is not UTF-8") .ok
    pure ⟨name, record.getD 2 0, record.getD 3 0, word record 4, word record 8, word record 28⟩

/-- Read the records from `index` on: the partitions, and whether an erased record ended them. -/
def readRecords (digests : Digests) (bytes : Bytes) :
    ℕ → List EspPartition → Bool → List Bytes → Except String (List EspPartition × Bool)
  | _, partitions, _, [] => .ok (partitions, false)
  | index, partitions, checksumSeen, record :: rest =>
    if record = List.replicate recordBytes 0xff then
      if !checksumSeen then .error "partition table ends before its MD5 checksum"
      else if (bytes.drop (index * recordBytes)).any (fun b => b ≠ 0xff) then
        .error "partition table contains non-erased trailing data"
      else .ok (partitions, true)
    else if record.take 2 = [0xeb, 0xeb] then
      if checksumSeen || partitions = [] ||
          (record.drop 2).take 14 ≠ List.replicate 14 0xff then
        .error "invalid partition MD5 record"
      else if record.drop 16 ≠ (digests.md5 (bytes.take (index * recordBytes))).toList then
        .error "partition MD5 checksum differs"
      else readRecords digests bytes (index + 1) partitions true rest
    else if checksumSeen || record.take 2 ≠ [0xaa, 0x50] then
      .error "unsupported partition record or record after checksum"
    else do
      let partition ← decodeRecord record
      readRecords digests bytes (index + 1) (partitions ++ [partition]) checksumSeen rest

/-- Validate every record, the checksum, the padding and the exact source entries. -/
def verifyEspPartitionTable (digests : Digests) (bytes : Bytes) (tableOffset : UInt32)
    (flashBytes : UInt64) (expected : List EspPartition) : Except String EspPartitionFacts := do
  let tableStart := tableOffset.toNat
  let tableEnd := tableStart + sectorBytes
  if flashBytes = 0 || flashBytes > 2 ^ 32 || tableStart % sectorBytes ≠ 0 ||
      tableEnd > flashBytes.toNat || expected = [] then
    .error "invalid source partition geometry"
  else if bytes.length ≠ tableBytes then .error "unsupported unsigned partition-table size"
  else do
    let (partitions, endSeen) ← readRecords digests bytes 0 [] false
      (chunks (bytes.length / recordBytes) bytes)
    if !endSeen then .error "partition table has no erased end marker"
    else do
      Verify.validateRanges partitions tableStart tableEnd flashBytes.toNat
      if partitions ≠ expected then
        .error "partition table differs from resolved source entries"
      else pure ⟨digests.sha256Bytes bytes, bytes.length, partitions⟩

/-! ### Records -/

/-- A label that a record can hold and the verifier accepts. -/
structure GoodLabel (name : String) : Prop where
  nonempty : ascii name ≠ []
  short : (ascii name).length ≤ 16
  portable : ∀ b ∈ ascii name, 0x21 ≤ b ∧ b ≤ 0x7e

theorem fromUtf8_ascii (name : String) : fromUtf8 (ascii name) = some name := by
  have harray : (⟨(ascii name).toArray⟩ : ByteArray) = name.toByteArray := by
    simp [ascii]
  rw [fromUtf8, harray, String.fromUTF8?, dif_pos name.isValidUTF8]
  rfl

theorem ascii_of_fromUtf8 {bytes : Bytes} {name : String} (h : fromUtf8 bytes = some name) :
    ascii name = bytes := by
  unfold fromUtf8 String.fromUTF8? at h
  split_ifs at h
  cases h
  simp [ascii, String.fromUTF8]

theorem slice_of_cut {r a b c : Bytes} {start length : ℕ} (h : r = a ++ b ++ c)
    (ha : a.length = start) (hb : b.length = length) : (r.drop start).take length = b := by
  subst h ha hb
  rw [List.append_assoc, List.drop_left, List.take_left]

theorem word_of_cut {r a c : Bytes} {offset : ℕ} {x : UInt32} (h : r = a ++ leBytes 4 x.toNat ++ c)
    (ha : a.length = offset) : word r offset = x := by
  rw [word, slice_of_cut h ha (length_leBytes _ _), ofLe_leBytes x.toNat_lt, UInt32.ofNat_toNat]

section Record

variable {p : EspPartition}

theorem length_labelField (h : (ascii p.name).length ≤ 16) : (labelField p.name).length = 16 := by
  simp only [labelField, List.length_append, List.length_replicate]
  omega

theorem length_record (h : (ascii p.name).length ≤ 16) : (record p).length = recordBytes := by
  simp only [record, List.length_append, length_leBytes, length_labelField h, List.length_cons,
    List.length_nil, recordBytes]

theorem findIdx_labelField (h : GoodLabel p.name) :
    ((labelField p.name).findIdx? (· == 0)).getD 16 = (ascii p.name).length := by
  have hzero : ∀ b ∈ ascii p.name, (b == 0) = false := by
    intro b hb
    rw [beq_eq_false_iff_ne]
    rintro rfl
    exact absurd (h.portable 0 hb).1 (by decide)
  rw [labelField, List.findIdx?_append, List.findIdx?_eq_none_iff.mpr hzero, Option.none_or]
  have hshort := h.short
  cases hk : 16 - (ascii p.name).length with
  | zero =>
    simp only [List.replicate_zero, List.findIdx?_nil, Option.map_none, Option.getD_none]
    omega
  | succ k =>
    rw [List.replicate_succ, List.findIdx?_cons]
    simp

/-- The verifier reads back the record of a partition. -/
theorem decodeRecord_record (h : GoodLabel p.name) : decodeRecord (record p) = .ok p := by
  have hlabel := length_labelField h.short
  have hcut₁ : record p = [0xaa, 0x50, p.kind, p.subtype] ++ leBytes 4 p.offset.toNat ++
      (leBytes 4 p.size.toNat ++ labelField p.name ++ leBytes 4 p.flags.toNat) := by
    simp [record]
  have hcut₂ : record p = ([0xaa, 0x50, p.kind, p.subtype] ++ leBytes 4 p.offset.toNat) ++
      leBytes 4 p.size.toNat ++ (labelField p.name ++ leBytes 4 p.flags.toNat) := by
    simp [record]
  have hcut₃ : record p = ([0xaa, 0x50, p.kind, p.subtype] ++ leBytes 4 p.offset.toNat ++
      leBytes 4 p.size.toNat) ++ labelField p.name ++ leBytes 4 p.flags.toNat := rfl
  have hcut₄ : record p = ([0xaa, 0x50, p.kind, p.subtype] ++ leBytes 4 p.offset.toNat ++
      leBytes 4 p.size.toNat ++ labelField p.name) ++ leBytes 4 p.flags.toNat ++ [] := by
    simp [record]
  have hslice : ((record p).drop 12).take 16 = labelField p.name :=
    slice_of_cut hcut₃ (by simp) hlabel
  have htake : (labelField p.name).take (ascii p.name).length = ascii p.name := List.take_left
  have hdrop : (labelField p.name).drop (ascii p.name).length =
      List.replicate (16 - (ascii p.name).length) 0 := List.drop_left
  have hoffset : word (record p) 4 = p.offset := word_of_cut hcut₁ rfl
  have hsize : word (record p) 8 = p.size := word_of_cut hcut₂ (by simp)
  have hflags : word (record p) 28 = p.flags := word_of_cut hcut₄ (by simp [hlabel])
  unfold decodeRecord
  dsimp only
  rw [hslice, findIdx_labelField h, htake, hdrop, fromUtf8_ascii, hoffset, hsize, hflags, if_neg]
  · rfl
  · simp only [Bool.or_eq_true, decide_eq_true_eq, List.any_eq_true, List.mem_replicate,
      List.length_eq_zero_iff]
    rintro ((hnil | ⟨b, hb, hbad⟩) | ⟨b, ⟨-, rfl⟩, hb⟩)
    · exact h.nonempty hnil
    · have hgood := h.portable b hb
      simp [hgood.1, hgood.2] at hbad
    · exact hb rfl

end Record

/-- The fields of a record of the right length. -/
theorem record_split {r : Bytes} (h : r.length = recordBytes) :
    r = r.take 2 ++ [r.getD 2 0, r.getD 3 0] ++ (r.drop 4).take 4 ++ (r.drop 8).take 4 ++
      (r.drop 12).take 16 ++ (r.drop 28).take 4 := by
  rw [recordBytes] at h
  have hlast : (r.drop 28).take 4 = r.drop 28 := List.take_of_length_le (by simp [h])
  have htwo : r.drop 2 = [r.getD 2 0, r.getD 3 0] ++ r.drop 4 := by
    rw [List.drop_eq_getElem_cons (by omega), List.drop_eq_getElem_cons (by omega)]
    simp [List.getD_eq_getElem?_getD, h]
  have hcut : ∀ a b, r.drop a = (r.drop a).take b ++ r.drop (a + b) := by
    intro a b
    rw [← List.drop_drop, List.take_append_drop]
  conv_lhs => rw [← List.take_append_drop 2 r, htwo, hcut 4 4, hcut 8 4, hcut 12 16]
  simp only [hlast, List.append_assoc]

/-- A record that the verifier reads is the record of what it read. -/
theorem record_of_decodeRecord {r : Bytes} {p : EspPartition} (hlen : r.length = recordBytes)
    (hhead : r.take 2 = [0xaa, 0x50]) (h : decodeRecord r = .ok p) :
    record p = r ∧ GoodLabel p.name := by
  unfold decodeRecord at h
  dsimp only at h
  obtain ⟨hgood, h⟩ := ite_error_ok h
  obtain ⟨name, hname, h⟩ := Except.bind_ok h
  cases h
  have hbytes := ascii_of_fromUtf8 (elim_error_ok hname)
  generalize hlabel : (r.drop 12).take 16 = label at hgood hbytes
  have hlen16 : label.length = 16 := by simp [← hlabel, hlen, recordBytes]
  generalize hend : (label.findIdx? (· == 0)).getD 16 = stop at hgood hbytes
  have hstop : stop ≤ 16 := by
    rw [← hend]
    cases hidx : label.findIdx? (· == 0) with
    | none => simp
    | some i =>
      have := (List.findIdx?_eq_some_iff_getElem.mp hidx).1
      simp only [Option.getD_some]
      omega
  have hlenname : (ascii name).length = stop := by
    rw [hbytes, List.length_take]
    omega
  simp only [Bool.or_eq_true, decide_eq_true_eq, not_or, Bool.not_eq_true, List.any_eq_false]
    at hgood
  obtain ⟨⟨hne, hportable⟩, hpad⟩ := hgood
  have hfield : labelField name = label := by
    have hzeros : label.drop stop = List.replicate (16 - stop) 0 := by
      rw [List.eq_replicate_iff]
      refine ⟨by rw [List.length_drop]; omega, fun b hb => ?_⟩
      have hb' := hpad b hb
      simpa using hb'
    rw [labelField, hlenname, hbytes, ← hzeros, List.take_append_drop]
  have hword : ∀ k, k + 4 ≤ 32 → leBytes 4 (word r k).toNat = (r.drop k).take 4 := by
    intro k hk
    have hfour : ((r.drop k).take 4).length = 4 := by
      rw [recordBytes] at hlen
      rw [List.length_take, List.length_drop]
      omega
    have hlt := ofLe_lt ((r.drop k).take 4)
    have hle := leBytes_ofLe ((r.drop k).take 4)
    rw [hfour] at hlt hle
    rw [word, UInt32.toNat_ofNat', Nat.mod_eq_of_lt (show _ < 2 ^ 32 from hlt), hle]
  constructor
  · conv_rhs => rw [record_split hlen, hhead]
    simp only [record, hword 4 (by decide), hword 8 (by decide), hword 28 (by decide), hfield,
      hlabel, List.append_assoc, List.cons_append, List.nil_append]
  · refine ⟨fun hnil => hne ?_, hlenname ▸ hstop, fun b hb => ?_⟩
    · rw [← hlenname, hnil]
      rfl
    · have hb' := hportable b (hbytes ▸ hb)
      simpa using hb'

/-! ### Tables -/

theorem length_digestRecord (digest : Vector UInt8 16) :
    (digestRecord digest).length = recordBytes := by
  simp [digestRecord, recordBytes]

theorem digestRecord_of_fields {r : Bytes} {digest : Vector UInt8 16}
    (h₁ : r.take 2 = [0xeb, 0xeb]) (h₂ : (r.drop 2).take 14 = List.replicate 14 0xff)
    (h₃ : r.drop 16 = digest.toList) : r = digestRecord digest := by
  have hcut : r.drop 2 = (r.drop 2).take 14 ++ r.drop 16 := by
    rw [show (16 : ℕ) = 2 + 14 from rfl, ← List.drop_drop, List.take_append_drop]
  conv_lhs => rw [← List.take_append_drop 2 r, hcut, h₁, h₂, h₃]
  rfl

theorem digestRecord_fields (digest : Vector UInt8 16) :
    (digestRecord digest).take 2 = [0xeb, 0xeb] ∧
      ((digestRecord digest).drop 2).take 14 = List.replicate 14 0xff ∧
      (digestRecord digest).drop 16 = digest.toList := by
  refine ⟨rfl, ?_, ?_⟩
  · exact slice_of_cut rfl rfl (by simp)
  · rw [digestRecord, List.drop_left' (by simp)]

theorem length_chunks (k : ℕ) (bytes : Bytes) : (chunks k bytes).length = k := by
  induction k generalizing bytes with
  | zero => rfl
  | succ k ih => rw [chunks, List.length_cons, ih]

theorem chunks_flatten {records : List Bytes} (h : ∀ r ∈ records, r.length = recordBytes) :
    chunks records.length records.flatten = records := by
  induction records with
  | nil => rfl
  | cons r rest ih =>
    have hr := h r (by simp)
    rw [List.length_cons, chunks, List.flatten_cons, ← hr, List.take_left, List.drop_left,
      ih fun x hx => h x (by simp [hx])]

theorem flatten_chunks {k : ℕ} {bytes : Bytes} (h : bytes.length = k * recordBytes) :
    (chunks k bytes).flatten = bytes ∧ ∀ r ∈ chunks k bytes, r.length = recordBytes := by
  induction k generalizing bytes with
  | zero =>
    have hnil : bytes = [] := List.length_eq_zero_iff.mp (by omega)
    simp [chunks, hnil]
  | succ k ih =>
    rw [Nat.succ_mul] at h
    obtain ⟨hflat, hall⟩ := ih (show (bytes.drop recordBytes).length = k * recordBytes by
      rw [List.length_drop]; omega)
    refine ⟨by rw [chunks, List.flatten_cons, hflat, List.take_append_drop], ?_⟩
    intro r hr
    rw [chunks, List.mem_cons] at hr
    rcases hr with rfl | hr
    · rw [List.length_take]
      omega
    · exact hall r hr

section Reading

variable {digests : Digests} {bytes : Bytes}

/-- The records of partitions are read one after the other. -/
theorem readRecords_records {index : ℕ} {before ps : List EspPartition} (rest : List Bytes)
    (h : ∀ p ∈ ps, GoodLabel p.name) :
    readRecords digests bytes index before false (ps.map record ++ rest) =
      readRecords digests bytes (index + ps.length) (before ++ ps) false rest := by
  induction ps generalizing index before with
  | nil => simp
  | cons p ps ih =>
    have hff : record p ≠ List.replicate recordBytes 0xff := by
      intro heq
      have := congrArg List.head? heq
      simp [record, recordBytes] at this
    have heb : (record p).take 2 ≠ [0xeb, 0xeb] := by
      rw [show (record p).take 2 = [0xaa, 0x50] from rfl]
      decide
    rw [List.map_cons, List.cons_append, readRecords, if_neg hff, if_neg heb,
      if_neg (by rw [show (record p).take 2 = [0xaa, 0x50] from rfl]; simp),
      decodeRecord_record (h p (by simp))]
    change readRecords digests bytes (index + 1) (before ++ [p]) false (ps.map record ++ rest) = _
    rw [ih fun q hq => h q (by simp [hq]), List.length_cons, List.append_assoc]
    congr 1
    omega

/-- What an accepted table consists of after its checksum. -/
theorem readRecords_checked {index : ℕ} {before ps : List EspPartition} {records : List Bytes}
    (h : readRecords digests bytes index before true records = .ok (ps, true)) :
    ps = before ∧ records ≠ [] ∧ ∀ b ∈ bytes.drop (index * recordBytes), b = 0xff := by
  cases records with
  | nil => cases h
  | cons r rest =>
    rw [readRecords] at h
    split_ifs at h with h₁ h₂ h₃ h₄ h₅ h₆
    · cases h
      refine ⟨rfl, by simp, fun b hb => ?_⟩
      rw [List.any_eq_true] at h₃
      by_contra hne
      exact h₃ ⟨b, hb, by simpa using hne⟩
    all_goals simp_all

/-- What an accepted table consists of. -/
theorem readRecords_spec {index : ℕ} {before ps : List EspPartition} {records : List Bytes}
    (hlen : ∀ r ∈ records, r.length = recordBytes)
    (h : readRecords digests bytes index before false records = .ok (ps, true)) :
    ∃ new tail, ps = before ++ new ∧ (∀ p ∈ new, GoodLabel p.name) ∧ tail ≠ [] ∧
      records = new.map record ++
        digestRecord (digests.md5 (bytes.take ((index + new.length) * recordBytes))) :: tail ∧
      ∀ b ∈ bytes.drop ((index + new.length + 1) * recordBytes), b = 0xff := by
  induction records generalizing index before with
  | nil => cases h
  | cons r rest ih =>
    rw [readRecords] at h
    split_ifs at h with h₁ h₂ h₃ h₄ h₅ h₆ h₇
    · simp at h₂
    · -- the checksum record
      simp only [Bool.false_or, Bool.or_eq_true, decide_eq_true_eq, not_or, not_not, ne_eq]
        at h₅ h₆
      obtain ⟨rfl, hrest, hff⟩ := readRecords_checked h
      refine ⟨[], rest, by simp, by simp, hrest, ?_, by simpa using hff⟩
      simp only [List.map_nil, List.nil_append, List.length_nil, Nat.add_zero]
      rw [← digestRecord_of_fields h₄ h₅.2 h₆]
    · -- a partition record
      simp only [Bool.false_or, decide_eq_true_eq, ne_eq, not_not] at h₇
      obtain ⟨p, hp, h⟩ := Except.bind_ok h
      obtain ⟨hrecord, hgood⟩ := record_of_decodeRecord (hlen r (by simp)) h₇ hp
      obtain ⟨new, tail, rfl, hall, hne, htail, hff⟩ := ih (fun x hx => hlen x (by simp [hx])) h
      refine ⟨p :: new, tail, by simp, ?_, hne, ?_, ?_⟩
      · intro q hq
        rcases List.mem_cons.mp hq with rfl | hq
        · exact hgood
        · exact hall q hq
      · rw [htail, List.map_cons, hrecord, List.length_cons, List.cons_append,
          show index + (new.length + 1) = index + 1 + new.length by omega]
      · rw [List.length_cons, show index + (new.length + 1) + 1 = index + 1 + new.length + 1
          by omega]
        exact hff

end Reading

/-! ### Whole tables -/

section Table

variable {digests : Digests} {bytes : Bytes} {ps : List EspPartition}

theorem length_flatMap_record (h : ∀ p ∈ ps, GoodLabel p.name) :
    (ps.flatMap record).length = ps.length * recordBytes := by
  induction ps with
  | nil => simp
  | cons p ps ih =>
    have hp := length_record (h p (by simp)).short
    have hps := ih fun q hq => h q (by simp [hq])
    rw [List.flatMap_cons, List.length_append, hp, hps, List.length_cons, Nat.succ_mul]
    omega

/-- The records of a table: partitions, checksum, and `k` erased ones. -/
def tableRecords (digests : Digests) (ps : List EspPartition) (k : ℕ) : List Bytes :=
  ps.map record ++ digestRecord (digests.md5 (ps.flatMap record)) ::
    List.replicate k (List.replicate recordBytes 0xff)

theorem encodeTable_eq {k : ℕ} (h : ∀ p ∈ ps, GoodLabel p.name)
    (hk : (ps.length + 1 + k) * recordBytes = tableBytes) :
    encodeTable digests ps = (tableRecords digests ps k).flatten := by
  have hlen := length_flatMap_record h
  have hdigest := length_digestRecord (digests.md5 (ps.flatMap record))
  have hhead : (ps.flatMap record ++ digestRecord (digests.md5 (ps.flatMap record))).length +
      k * recordBytes = tableBytes := by
    rw [List.length_append, hlen, hdigest, ← hk]
    ring
  rw [encodeTable, resize, List.take_of_length_le (by omega), ← hhead, Nat.add_sub_cancel_left,
    tableRecords, List.flatten_append, List.flatten_cons, List.flatten_replicate_replicate,
    ← List.flatMap_def, List.append_assoc]

theorem length_encodeTable (digests : Digests) (ps : List EspPartition) :
    (encodeTable digests ps).length = tableBytes := by
  rw [encodeTable, resize, List.length_append, List.length_take, List.length_replicate]
  omega

theorem length_tableRecords (digests : Digests) (ps : List EspPartition) (k : ℕ) :
    (tableRecords digests ps k).length = ps.length + 1 + k := by
  simp only [tableRecords, List.length_append, List.length_map, List.length_cons,
    List.length_replicate]
  omega

theorem length_of_mem_tableRecords {k : ℕ} {r : Bytes} (h : ∀ p ∈ ps, GoodLabel p.name)
    (hr : r ∈ tableRecords digests ps k) : r.length = recordBytes := by
  rw [tableRecords, List.mem_append, List.mem_map, List.mem_cons, List.mem_replicate] at hr
  rcases hr with ⟨p, hp, rfl⟩ | rfl | ⟨-, rfl⟩
  · exact length_record (h p hp).short
  · exact length_digestRecord _
  · exact List.length_replicate

/-- The verifier reads every record of an encoded table. -/
theorem readRecords_tableRecords {k : ℕ} (hne : ps ≠ []) (h : ∀ p ∈ ps, GoodLabel p.name) :
    readRecords digests (tableRecords digests ps (k + 1)).flatten 0 [] false
      (tableRecords digests ps (k + 1)) = .ok (ps, true) := by
  have hlen := length_flatMap_record h
  set digest := digests.md5 (ps.flatMap record) with hdigest
  obtain ⟨h₁, h₂, h₃⟩ := digestRecord_fields digest
  have hcut : (tableRecords digests ps (k + 1)).flatten = ps.flatMap record ++
      (digestRecord digest ++ List.replicate ((k + 1) * recordBytes) 0xff) := by
    rw [tableRecords, List.flatten_append, List.flatten_cons, List.flatten_replicate_replicate,
      ← List.flatMap_def]
  generalize (tableRecords digests ps (k + 1)).flatten = bytes at hcut
  have htake : bytes.take (ps.length * recordBytes) = ps.flatMap record := by
    rw [hcut, List.take_left' hlen]
  have hdrop : bytes.drop ((ps.length + 1) * recordBytes) =
      List.replicate ((k + 1) * recordBytes) 0xff := by
    rw [hcut, ← List.append_assoc, List.drop_left']
    rw [List.length_append, hlen, length_digestRecord]
    ring
  have hff : digestRecord digest ≠ List.replicate recordBytes 0xff := by
    intro heq
    have := congrArg List.head? heq
    simp [digestRecord, recordBytes] at this
  rw [tableRecords, readRecords_records _ h, ← hdigest, Nat.zero_add, List.nil_append,
    readRecords, if_neg hff, if_pos h₁, if_neg (by simp [hne, h₂]),
    if_neg (by rw [htake, h₃]; exact not_not.mpr rfl), List.replicate_succ, readRecords,
    if_pos rfl, if_neg (by simp), if_neg]
  rw [hdrop]
  simp

variable {tableOffset : UInt32} {flashBytes : UInt64}

theorem geometry_eq (tableOffset : UInt32) (flashBytes : UInt64) :
    (flashBytes = 0 || flashBytes > 2 ^ 32 || tableOffset.toNat % sectorBytes ≠ 0 ||
      tableOffset.toNat + sectorBytes > flashBytes.toNat : Bool) =
      !validGeometry tableOffset flashBytes := by
  rw [validGeometry, Bool.not_not]

/-- The verifier accepts an encoded table of partitions that keep the range rules. -/
theorem verify_encodeTable (hgeometry : validGeometry tableOffset flashBytes = true)
    (hne : ps ≠ []) (hfit : (ps.length + 2) * recordBytes ≤ tableBytes)
    (hlabels : ∀ p ∈ ps, GoodLabel p.name)
    (hranges : validateRanges ps tableOffset.toNat (tableOffset.toNat + sectorBytes)
      flashBytes.toNat = .ok ()) :
    verifyEspPartitionTable digests (encodeTable digests ps) tableOffset flashBytes ps =
      .ok ⟨digests.sha256Bytes (encodeTable digests ps), tableBytes, ps⟩ := by
  obtain ⟨k, hk⟩ : ∃ k, ps.length + 1 + (k + 1) = 96 := by
    rw [recordBytes, tableBytes] at hfit
    exact ⟨94 - ps.length, by omega⟩
  have htable := @encodeTable_eq digests ps (k + 1) hlabels (by rw [hk]; rfl)
  have hchunks : chunks (tableBytes / recordBytes) (encodeTable digests ps) =
      tableRecords digests ps (k + 1) := by
    have hcount : tableBytes / recordBytes = (tableRecords digests ps (k + 1)).length := by
      rw [length_tableRecords, hk]
      rfl
    rw [htable, hcount, chunks_flatten fun r hr => length_of_mem_tableRecords hlabels hr]
  have hread : readRecords digests (encodeTable digests ps) 0 [] false
      (chunks (tableBytes / recordBytes) (encodeTable digests ps)) = .ok (ps, true) := by
    rw [hchunks, htable, readRecords_tableRecords hne hlabels]
  unfold verifyEspPartitionTable
  dsimp only
  rw [geometry_eq, hgeometry, length_encodeTable, if_neg (by simp [hne]), if_neg (by simp), hread]
  change (do
    Verify.validateRanges ps _ _ _
    if ps ≠ ps then .error "partition table differs from resolved source entries" else pure _) = _
  rw [Verify.validateRanges, Verify.validateRangesFrom_eq, ← validateRanges, hranges]
  simp only [ne_eq, not_true_eq_false, if_false]
  rfl

/-- A table that the verifier accepts is the encoded one. -/
theorem encodeTable_of_verify {facts : EspPartitionFacts}
    (h : verifyEspPartitionTable digests bytes tableOffset flashBytes ps = .ok facts) :
    facts.partitions = ps ∧ (ps.length + 2) * recordBytes ≤ tableBytes ∧
      bytes = encodeTable digests ps := by
  unfold verifyEspPartitionTable at h
  dsimp only at h
  obtain ⟨-, h⟩ := ite_error_ok h
  obtain ⟨hlen, h⟩ := ite_error_ok h
  rw [not_not] at hlen
  obtain ⟨⟨partitions, endSeen⟩, hread, h⟩ := Except.bind_ok h
  obtain ⟨hend, h⟩ := ite_error_ok h
  obtain ⟨-, -, h⟩ := Except.bind_ok h
  obtain ⟨hsame, h⟩ := ite_error_ok h
  simp only [ne_eq, not_not, Bool.not_eq_true, Bool.not_eq_false'] at hsame hend
  cases h
  subst hsame hend
  obtain ⟨hflat, hall⟩ := flatten_chunks (show bytes.length = 96 * recordBytes from hlen)
  rw [hlen, show tableBytes / recordBytes = 96 from rfl] at hread
  obtain ⟨_, tail, rfl, hlabels, htail, hrecords, hff⟩ := readRecords_spec hall hread
  have hcount := congrArg List.length hrecords
  rw [length_chunks, List.length_append, List.length_map, List.length_cons] at hcount
  have htail' := List.length_pos_iff.mpr htail
  simp only [Nat.zero_add] at hrecords hff
  have hsize := length_flatMap_record hlabels
  rw [hrecords, List.flatten_append, List.flatten_cons, ← List.flatMap_def] at hflat
  have htake : bytes.take (partitions.length * recordBytes) = partitions.flatMap record := by
    rw [← hflat, List.take_left' hsize]
  rw [htake] at hflat
  have hdrop : bytes.drop ((partitions.length + 1) * recordBytes) = tail.flatten := by
    rw [← hflat, ← List.append_assoc, List.drop_left']
    rw [List.length_append, hsize, length_digestRecord]
    ring
  have hpad : tail.flatten = List.replicate (tail.length * recordBytes) 0xff := by
    rw [← hdrop, List.eq_replicate_iff]
    refine ⟨?_, hff⟩
    rw [List.length_drop, hlen, show tableBytes = 96 * recordBytes from rfl, hcount]
    simp only [recordBytes]
    omega
  refine ⟨rfl, ?_, ?_⟩
  · simp only [recordBytes, tableBytes]
    omega
  · rw [@encodeTable_eq _ _ tail.length hlabels, tableRecords, List.flatten_append,
      List.flatten_cons, List.flatten_replicate_replicate, ← List.flatMap_def, ← hpad, hflat]
    rw [show tableBytes = 96 * recordBytes from rfl, hcount]
    ring

end Table

/-! ### What the source parser accepts -/

theorem labelByte_portable {b : UInt8} (h : labelByte b = true) : 0x21 ≤ b ∧ b ≤ 0x7e := by
  simp only [labelByte, Bool.or_eq_true, Bool.and_eq_true, decide_eq_true_eq, beq_iff_eq,
    UInt8.le_iff_toNat_le, ← UInt8.toNat_inj] at h ⊢
  simp only [UInt8.reduceToNat] at h ⊢
  omega

theorem goodLabel_of_parseLine {line : Text} {previousEnd : ℕ} {p : EspPartition}
    (h : parseLine line previousEnd = .ok p) : GoodLabel p.name := by
  unfold parseLine at h
  obtain ⟨-, h⟩ := ite_error_ok h
  dsimp only at h
  split at h
  · obtain ⟨-, h⟩ := ite_error_ok h
    obtain ⟨hlabel, h⟩ := ite_error_ok h
    obtain ⟨_, -, h⟩ := Except.bind_ok h
    obtain ⟨-, h⟩ := ite_error_ok h
    obtain ⟨_, -, h⟩ := Except.bind_ok h
    obtain ⟨_, -, h⟩ := Except.bind_ok h
    obtain ⟨_, -, h⟩ := Except.bind_ok h
    obtain ⟨_, -, h⟩ := Except.bind_ok h
    obtain ⟨-, h⟩ := ite_error_ok h
    cases h
    simp only [Bool.or_eq_true, decide_eq_true_eq, Bool.not_eq_true', not_or,
      Bool.not_eq_false, List.all_eq_true] at hlabel
    obtain ⟨⟨⟨⟨hne, hshort⟩, hbytes⟩, -⟩, -⟩ := hlabel
    exact ⟨hne, Nat.le_of_not_lt hshort, fun b hb => labelByte_portable (hbytes b hb)⟩
  · cases h

theorem goodLabel_of_parseLines {index previousEnd : ℕ} {before ps : List EspPartition}
    {lines : List Text} (h : parseLines index previousEnd before lines = .ok ps)
    (hbefore : ∀ p ∈ before, GoodLabel p.name) : ∀ p ∈ ps, GoodLabel p.name := by
  induction lines generalizing index previousEnd before with
  | nil =>
    cases h
    exact hbefore
  | cons line rest ih =>
    rw [parseLines] at h
    obtain ⟨-, h⟩ := ite_error_ok h
    dsimp only at h
    split_ifs at h with hskip
    · exact ih h hbefore
    · obtain ⟨p, hp, h⟩ := Except.bind_ok h
      refine ih h fun q hq => ?_
      rcases List.mem_append.mp hq with hq | hq
      · exact hbefore q hq
      · rw [List.mem_singleton.mp hq]
        exact goodLabel_of_parseLine (mapError_ok hp)

section Source

variable {digests : Digests} {bytes : Bytes} {tableOffset : UInt32} {flashBytes : UInt64}

/-- What the verifier relies on holds of every parsed source. -/
theorem parse_spec {source : EspPartitionSource}
    (h : parseEspPartitionSource digests bytes tableOffset flashBytes = .ok source) :
    validGeometry tableOffset flashBytes = true ∧ source.partitions ≠ [] ∧
      (∀ p ∈ source.partitions, GoodLabel p.name) ∧
      validateRanges source.partitions tableOffset.toNat (tableOffset.toNat + sectorBytes)
        flashBytes.toNat = .ok () := by
  unfold parseEspPartitionSource at h
  obtain ⟨-, h⟩ := ite_error_ok h
  obtain ⟨text, -, h⟩ := Except.bind_ok h
  obtain ⟨hgeometry, h⟩ := ite_error_ok h
  obtain ⟨partitions, hlines, h⟩ := Except.bind_ok h
  obtain ⟨hne, h⟩ := ite_error_ok h
  obtain ⟨⟨⟩, hranges, h⟩ := Except.bind_ok h
  obtain ⟨_, -, h⟩ := Except.bind_ok h
  cases h
  rw [Bool.not_eq_true', Bool.not_eq_false] at hgeometry
  exact ⟨hgeometry, hne, goodLabel_of_parseLines hlines (by simp), hranges⟩

/-- **The encoder and the verifier agree.**  The verifier accepts every table that the encoder
makes from a source, with the same geometry and the parsed partitions, and returns exactly
those; and every table that it accepts for some partitions fits the encoder's budget and is
byte for byte the one that the encoder writes for them. -/
theorem esp_table_exact (digests : Digests) (tableOffset : UInt32) (flashBytes : UInt64) :
    (∀ source expected artifact,
      encodeEspPartitionSource digests source expected tableOffset flashBytes = .ok artifact →
      parseEspPartitionSource digests source tableOffset flashBytes = .ok artifact.source ∧
      artifact.bytes = encodeTable digests artifact.source.partitions ∧
      verifyEspPartitionTable digests artifact.bytes tableOffset flashBytes
        artifact.source.partitions =
          .ok ⟨artifact.sha256, tableBytes, artifact.source.partitions⟩) ∧
    ∀ bytes partitions facts,
      verifyEspPartitionTable digests bytes tableOffset flashBytes partitions = .ok facts →
      facts.partitions = partitions ∧ (partitions.length + 2) * recordBytes ≤ tableBytes ∧
      bytes = encodeTable digests partitions := by
  refine ⟨fun source expected artifact h => ?_, fun bytes partitions facts h =>
    encodeTable_of_verify h⟩
  unfold encodeEspPartitionSource at h
  obtain ⟨-, h⟩ := ite_error_ok h
  obtain ⟨-, h⟩ := ite_error_ok h
  obtain ⟨parsed, hparse, h⟩ := Except.bind_ok h
  obtain ⟨hfit, h⟩ := ite_error_ok h
  cases h
  obtain ⟨hgeometry, hne, hlabels, hranges⟩ := parse_spec hparse
  exact ⟨hparse, rfl, verify_encodeTable hgeometry hne (by omega) hlabels hranges⟩

/-- Stand-ins for the hash functions. -/
def sampleDigests : Digests := ⟨fun _ => Vector.replicate 16 7, fun bytes => bytes.take 4⟩

/-- A source with one application partition. -/
def sampleSource : Bytes := ascii "a,app,factory,0x10000,1M\n"

theorem esp_table_exact_sample : ∃ artifact facts,
    encodeEspPartitionSource sampleDigests sampleSource (ascii "a,ap") 0x8000 0x400000 =
      .ok artifact ∧
    verifyEspPartitionTable sampleDigests artifact.bytes 0x8000 0x400000
      artifact.source.partitions = .ok facts ∧
    artifact.bytes = encodeTable sampleDigests artifact.source.partitions := by
  have hok : (encodeEspPartitionSource sampleDigests sampleSource (ascii "a,ap") 0x8000
      0x400000).isOk = true := by
    decide
  obtain ⟨artifact, hartifact⟩ := Except.exists_of_isOk hok
  obtain ⟨encoded, accepted⟩ := esp_table_exact sampleDigests 0x8000 0x400000
  obtain ⟨-, -, hverify⟩ := encoded _ _ _ hartifact
  exact ⟨artifact, _, hartifact, hverify, (accepted _ _ _ hverify).2.2⟩

end Source

end Esp

end ArosTools
