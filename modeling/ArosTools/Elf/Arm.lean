import ArosTools.Bytes.Leb128
import ArosTools.Fs.Basic
import ArosTools.Program.BTree
import Mathlib.Data.Nat.Bitwise

/-!
# ARM build attributes

The file attributes of an ARM ELF object: vendor blocks, in the one of `aeabi` a file scope, and in
that the attributes, each a tag and a value.  Every block says how long it is.

* `decode` : the reader; indices, slices and shifts that would panic are outcomes of their own.
* `uleb_eq_ok` : the numbers it reads are the shortest encodings of 64-bit numbers.
* `attributes_decoded` : **what it accepts are blocks of exactly the lengths they declare**, and it
  returns on every input.
-/

namespace ArosTools

namespace Elf

namespace Arm

/-- `Value`: one decoded file attribute. -/
inductive Value where
  | integer (value : ℕ)
  | string (value : List UInt8)
  | compatibility (flag : ℕ) (vendor : List UInt8)
  deriving DecidableEq, Repr

/-- `MAX_SECTION_SIZE` -/
def maxSectionSize : ℕ := 65536

/-- `MAX_VALUES` -/
def maxValues : ℕ := 256

/-- `MAX_NTBS_SIZE` -/
def maxNtbsSize : ℕ := 4096

/-! ### Numbers, strings and blocks -/

/-- The loop of `uleb`, with this many rounds left. -/
def ulebFrom : ℕ → ℕ → ℕ → List UInt8 → Checked String (ℕ × List UInt8)
  | 0, _, _, _ => .fail "ARM attribute integer overflow"
  | _ + 1, _, _, [] => .fail "truncated ARM attribute integer"
  | left + 1, index, value, byte :: bytes =>
    if index = 9 ∧ 1 < byte then .fail "ARM attribute integer overflow"
    else
      let value := value ||| ((byte &&& 0x7f).toNat <<< (index * 7)) % 2 ^ 64
      if byte &&& 0x80 = 0 then
        if index = 0 ∨ byte ≠ 0 then .ok (value, bytes)
        else .fail "non-canonical ARM attribute integer"
      else ulebFrom left (index + 1) value bytes

/-- `uleb`: a number and the bytes after it. -/
def uleb (bytes : List UInt8) : Checked String (ℕ × List UInt8) := ulebFrom 10 0 0 bytes

/-- `ntbs`: a string up to its NUL, and the bytes after that. -/
def ntbs (bytes : List UInt8) : Checked String (List UInt8 × List UInt8) := do
  let size ← .okOr (bytes.findIdx? (· = 0)) "unterminated ARM attribute string"
  if maxNtbsSize < size then .fail "ARM attribute string exceeds 4096 bytes"
  else
    let value ← .expect (getRange bytes 0 size)
    let rest ← .expect (getRange bytes (size + 1) bytes.length)
    pure (value, rest)

/-- `block`: a block with its length field, and the bytes after it.  The length counts the tag bytes
in front of its field. -/
def block (bytes : List UInt8) (tagBytes : ℕ) : Checked String (List UInt8 × List UInt8) := do
  let header ← .okOr (getRange bytes 0 4) "truncated ARM attribute length"
  let length := ofLe header
  if length < tagBytes then .fail "invalid ARM attribute length"
  else if length - tagBytes < 4 then .fail "ARM attribute block shorter than its header"
  else
    let result ← .okOr (getRange bytes 0 (length - tagBytes))
      "ARM attribute block exceeds enclosing range"
    let rest ← .expect (getRange bytes (length - tagBytes) bytes.length)
    pure (result, rest)

/-! ### Attributes -/

/-- `is_known_integer_tag` -/
def isKnownIntegerTag (tag : ℕ) : Bool := tag ∈ [34, 36, 38, 42, 44, 46, 48, 50, 52]

/-- The value of a tag in the loop of `attributes`, and the bytes after it. -/
def attributeValue (tag : ℕ) (bytes : List UInt8) : Checked String (Value × List UInt8) :=
  if tag = 4 ∨ tag = 5 then do
    let (value, bytes) ← ntbs bytes
    pure (.string value, bytes)
  else if tag = 32 then do
    let (flag, bytes) ← uleb bytes
    let (vendor, bytes) ← ntbs bytes
    pure (.compatibility flag vendor, bytes)
  else if (6 ≤ tag ∧ tag ≤ 31) ∨ isKnownIntegerTag tag then do
    let (value, bytes) ← uleb bytes
    pure (.integer value, bytes)
  else if 65 ≤ tag ∧ 64 ≤ tag % 128 then
    if tag % 2 = 1 then do
      let (value, bytes) ← ntbs bytes
      pure (.string value, bytes)
    else do
      let (value, bytes) ← uleb bytes
      pure (.integer value, bytes)
  else .fail ("unknown mandatory ARM attribute " ++ toString tag)

/-- The loop of `attributes`. -/
def attributesFrom : ℕ → BTreeMap ℕ Value → List UInt8 → Checked String (BTreeMap ℕ Value)
  | _, values, [] => .ok values
  | 0, _, _ :: _ => .error .diverges
  | fuel + 1, values, byte :: bytes =>
    if maxValues ≤ values.len then .fail "too many ARM attributes"
    else do
      let (tag, bytes) ← uleb (byte :: bytes)
      if (values.get tag).isSome then .fail ("duplicate ARM attribute " ++ toString tag)
      else if tag = 64 then .fail "ARM Tag_nodefaults is unsupported"
      else do
        let (value, bytes) ← attributeValue tag bytes
        attributesFrom fuel (values.insert tag value) bytes

/-- `attributes`; every round takes a byte. -/
def attributes (bytes : List UInt8) : Checked String (BTreeMap ℕ Value) :=
  attributesFrom bytes.length .new bytes

/-! ### Scopes and vendors -/

/-- The loop of `file_scope`. -/
def fileScopeFrom : ℕ → Option (BTreeMap ℕ Value) → List UInt8 →
    Checked String (Option (BTreeMap ℕ Value))
  | _, fileAttributes, [] => .ok fileAttributes
  | 0, _, _ :: _ => .error .diverges
  | fuel + 1, fileAttributes, byte :: bytes => do
    let (scope, body) ← uleb (byte :: bytes)
    let tagBytes := (byte :: bytes).length - body.length
    if scope = 1 then
      if fileAttributes.isSome then .fail "duplicate ARM file attribute scopes"
      else do
        let (subsection, body) ← block body tagBytes
        let inner ← .expect (getRange subsection 4 subsection.length)
        let values ← attributes inner
        fileScopeFrom fuel (some values) body
    else if scope = 2 then .fail "ARM section-scoped attributes are unsupported"
    else if scope = 3 then .fail "ARM symbol-scoped attributes are unsupported"
    else .fail ("unsupported ARM attribute scope " ++ toString scope)

/-- `file_scope` -/
def fileScope (body : List UInt8) : Checked String (BTreeMap ℕ Value) := do
  let fileAttributes ← fileScopeFrom body.length none body
  .okOr fileAttributes "missing ARM file attribute scope"

/-- The name of the vendor whose attributes are read. -/
def aeabiName : List UInt8 := [0x61, 0x65, 0x61, 0x62, 0x69]

/-- The loop of `decode`. -/
def vendorsFrom : ℕ → List (List UInt8) → Option (BTreeMap ℕ Value) → List UInt8 →
    Checked String (Option (BTreeMap ℕ Value))
  | _, _, aeabi, [] => .ok aeabi
  | 0, _, _, _ :: _ => .error .diverges
  | fuel + 1, vendorNames, aeabi, byte :: bytes => do
    let (vendorBlock, remaining) ← block (byte :: bytes) 0
    let body ← .expect (getRange vendorBlock 4 vendorBlock.length)
    let (vendorName, body) ← ntbs body
    if vendorName ∈ vendorNames then .fail "duplicate ARM attribute vendor"
    else if vendorName = aeabiName then
      if aeabi.isSome then .fail "duplicate aeabi vendor"
      else do
        let values ← fileScope body
        vendorsFrom fuel (vendorName :: vendorNames) (some values) remaining
    else vendorsFrom fuel (vendorName :: vendorNames) aeabi remaining

/-- `decode` -/
def decode (bytes : List UInt8) : Checked String (BTreeMap ℕ Value) :=
  if maxSectionSize < bytes.length then .fail "ARM attributes exceed 64 KiB"
  else if bytes.head? ≠ some 0x41 then .fail "unsupported attribute format"
  else do
    let remaining ← .expect (getRange bytes 1 bytes.length)
    let aeabi ← vendorsFrom remaining.length [] none remaining
    .okOr aeabi "missing aeabi file attributes"

/-! ### Numbers -/

theorem and_low (byte : UInt8) : (byte &&& 0x7f).toNat = byte.toNat % 128 := by
  rw [UInt8.toNat_and]
  exact Nat.and_two_pow_sub_one_eq_mod byte.toNat 7

theorem and_high_eq_zero (byte : UInt8) : byte &&& 0x80 = 0 ↔ byte.toNat < 128 := by
  have hlt := byte.toNat_lt
  have hand : (byte &&& 0x80).toNat = 2 ^ 7 * (byte.toNat.testBit 7).toNat := by
    rw [UInt8.toNat_and, Nat.and_comm]
    exact Nat.two_pow_and byte.toNat 7
  rw [← UInt8.toNat_inj, hand, Nat.testBit_eq_decide_div_mod_eq]
  by_cases h : byte.toNat / 2 ^ 7 % 2 = 1
  · simp only [h, decide_true, Bool.toNat_true]
    exact ⟨fun h => absurd h (by decide), fun h => by omega⟩
  · simp only [h, decide_false, Bool.toNat_false, Nat.mul_zero]
    exact ⟨fun _ => by omega, fun _ => rfl⟩

theorem or_shift {value low k : ℕ} (h : value < 2 ^ k) :
    value ||| low <<< k = value + low * 2 ^ k := by
  rw [Nat.or_comm, Nat.shiftLeft_eq, Nat.mul_comm, ← Nat.two_pow_add_eq_or_of_lt h, Nat.add_comm]

/-- The numbers a loop reads that has got so far. -/
theorem ulebFrom_eq_ok {left index value result : ℕ} {bytes rest : List UInt8}
    (hleft : left + index = 10) (hvalue : value < 2 ^ (index * 7)) :
    ulebFrom left index value bytes = .ok (result, rest) ↔
      ∃ more, result = value + more * 2 ^ (index * 7) ∧ result < 2 ^ 64 ∧
        (index = 0 ∨ more ≠ 0) ∧ bytes = Leb128.encode more ++ rest := by
  induction left generalizing index value bytes with
  | zero =>
    obtain rfl : index = 10 := by omega
    refine ⟨fun h => by simp [ulebFrom, Checked.fail] at h, ?_⟩
    rintro ⟨more, rfl, hlt, hmore, -⟩
    have : 1 ≤ more := by omega
    omega
  | succ left ih =>
    cases bytes with
    | nil =>
      refine ⟨fun h => by simp [ulebFrom, Checked.fail] at h, ?_⟩
      rintro ⟨more, -, -, -, h⟩
      exact absurd (List.append_eq_nil_iff.mp h.symm).1 (Leb128.encode_ne_nil more)
    | cons byte bytes =>
      have hindex : index ≤ 9 := by omega
      have hbyte := byte.toNat_lt
      have hpow : (2 : ℕ) ^ (index * 7) * 128 = 2 ^ ((index + 1) * 7) := by
        rw [Nat.add_mul, Nat.pow_add]
      have hsixty : 2 ^ (index * 7) ≤ 2 ^ 63 := Nat.pow_le_pow_right (by decide) (by omega)
      rw [ulebFrom]
      by_cases hover : index = 9 ∧ 1 < byte
      · rw [if_pos hover]
        obtain ⟨rfl, hone⟩ := hover
        refine ⟨fun h => by simp [Checked.fail] at h, ?_⟩
        rintro ⟨more, rfl, hlt, -, hbytes⟩
        have hmore : more = byte.toNat := by
          rcases Nat.lt_or_ge byte.toNat 128 with h | h
          · exact ((Leb128.encode_append_last h).mp hbytes).1
          · obtain ⟨-, hhigh, -⟩ := (Leb128.encode_append_more h).mp hbytes
            omega
        have : 1 < byte.toNat := hone
        omega
      rw [if_neg hover]
      -- No bit is shifted out.
      have hfits : (byte.toNat % 128 + 1) * 2 ^ (index * 7) ≤ 2 ^ 64 := by
        rcases Nat.lt_or_ge index 9 with h | h
        · have : 2 ^ (index * 7) ≤ 2 ^ 56 := Nat.pow_le_pow_right (by decide) (by omega)
          calc (byte.toNat % 128 + 1) * 2 ^ (index * 7) ≤ 128 * 2 ^ 56 :=
                Nat.mul_le_mul (by omega) this
            _ ≤ 2 ^ 64 := by decide
        · obtain rfl : index = 9 := by omega
          have : ¬ 1 < byte.toNat := fun h => hover ⟨rfl, h⟩
          omega
      rw [Nat.add_mul, Nat.one_mul] at hfits
      have hlow : (byte.toNat % 128) * 2 ^ (index * 7) < 2 ^ 64 := by omega
      have hor : value ||| ((byte &&& 0x7f).toNat <<< (index * 7)) % 2 ^ 64 =
          value + byte.toNat % 128 * 2 ^ (index * 7) := by
        rw [and_low, Nat.shiftLeft_eq, Nat.mod_eq_of_lt hlow, ← Nat.shiftLeft_eq, or_shift hvalue,
          Nat.shiftLeft_eq]
      simp only [hor]
      by_cases hend : byte &&& 0x80 = 0
      · have hsmall := (and_high_eq_zero byte).mp hend
        have hmod : byte.toNat % 128 = byte.toNat := Nat.mod_eq_of_lt hsmall
        have hzero : (index = 0 ∨ byte ≠ 0) ↔ (index = 0 ∨ byte.toNat ≠ 0) := by
          rw [ne_eq, ne_eq, ← UInt8.toNat_inj]
          rfl
        simp only [if_pos hend, hmod, Leb128.encode_append_last hsmall]
        rw [hmod] at hlow
        by_cases hfirst : index = 0 ∨ byte.toNat ≠ 0
        · rw [if_pos (hzero.mpr hfirst)]
          constructor
          · intro h
            cases h
            rw [hmod] at hfits
            exact ⟨byte.toNat, rfl, by omega, hfirst, rfl, rfl⟩
          · rintro ⟨more, rfl, -, -, rfl, rfl⟩
            rfl
        · rw [if_neg (fun h => hfirst (hzero.mp h))]
          refine ⟨fun h => by simp [Checked.fail] at h, ?_⟩
          rintro ⟨more, -, -, hmore, rfl, -⟩
          exact absurd hmore hfirst
      · have hlarge : 128 ≤ byte.toNat := Nat.not_lt.mp fun h => hend ((and_high_eq_zero byte).mpr h)
        have hgrown : value + byte.toNat % 128 * 2 ^ (index * 7) < 2 ^ ((index + 1) * 7) := by
          have : (byte.toNat % 128 + 1) * 2 ^ (index * 7) ≤ 128 * 2 ^ (index * 7) :=
            Nat.mul_le_mul_right _ (by omega)
          rw [Nat.add_mul, Nat.one_mul] at this
          omega
        have hmore : ∀ more : ℕ, value + byte.toNat % 128 * 2 ^ (index * 7) +
            more * 2 ^ ((index + 1) * 7) =
              value + (128 * more + byte.toNat % 128) * 2 ^ (index * 7) := by
          intro more
          rw [← hpow]
          ring
        rw [if_neg hend, ih (by omega) hgrown]
        simp only [Leb128.encode_append_more hlarge, hmore]
        constructor
        · rintro ⟨more, rfl, hlt, hne, rfl⟩
          refine ⟨128 * more + byte.toNat % 128, rfl, hlt, .inr (by omega), by omega, by omega, ?_⟩
          have hdiv : (128 * more + byte.toNat % 128) / 128 = more := by omega
          rw [hdiv]
        · rintro ⟨more, rfl, hlt, -, hmod, hdiv, rfl⟩
          refine ⟨more / 128, ?_, hlt, .inr hdiv, rfl⟩
          have hsplit : 128 * (more / 128) + byte.toNat % 128 = more := by omega
          rw [hsplit]

/-- **`uleb` reads the shortest encodings of 64-bit numbers**, and nothing else. -/
theorem uleb_eq_ok {bytes rest : List UInt8} {value : ℕ} :
    uleb bytes = .ok (value, rest) ↔ value < 2 ^ 64 ∧ bytes = Leb128.encode value ++ rest := by
  rw [uleb, ulebFrom_eq_ok rfl (by decide)]
  constructor
  · rintro ⟨more, rfl, hlt, -, rfl⟩
    rw [Nat.zero_mul, Nat.pow_zero, Nat.mul_one, Nat.zero_add] at hlt ⊢
    exact ⟨hlt, rfl⟩
  · rintro ⟨hlt, rfl⟩
    exact ⟨value, by simp, hlt, .inl rfl, rfl⟩

theorem ulebFrom_returns (left index value : ℕ) (bytes : List UInt8) :
    (ulebFrom left index value bytes).Returns := by
  induction left generalizing index value bytes with
  | zero => exact Checked.returns_fail _
  | succ left ih =>
    cases bytes with
    | nil => exact Checked.returns_fail _
    | cons byte bytes =>
      rw [ulebFrom]
      split_ifs
      · exact Checked.returns_fail _
      · exact Checked.returns_ok _
      · exact Checked.returns_fail _
      · exact ih _ _ _

theorem uleb_returns (bytes : List UInt8) : (uleb bytes).Returns := ulebFrom_returns 10 0 0 bytes

/-- A number takes at least one byte. -/
theorem length_uleb {bytes rest : List UInt8} {value : ℕ} (h : uleb bytes = .ok (value, rest)) :
    rest.length < bytes.length := by
  obtain ⟨-, rfl⟩ := uleb_eq_ok.mp h
  have := Leb128.length_encode_pos value
  rw [List.length_append]
  omega

/-! ### Strings and blocks -/

theorem eq_take_of_getRange {bytes front : List UInt8} {stop : ℕ}
    (h : getRange bytes 0 stop = some front) : front = bytes.take stop := by
  obtain ⟨-, -, rfl⟩ := getRange_eq_some.mp h
  rw [List.drop_zero, Nat.sub_zero]

theorem eq_drop_of_getRange {bytes back : List UInt8} {start : ℕ}
    (h : getRange bytes start bytes.length = some back) : back = bytes.drop start := by
  obtain ⟨-, -, rfl⟩ := getRange_eq_some.mp h
  exact List.take_of_length_le (by rw [List.length_drop])

/-- A string that can be read. -/
def IsNtbs (value : List UInt8) : Prop := 0 ∉ value ∧ value.length ≤ maxNtbsSize

theorem findIdx?_nul {value : List UInt8} (h : 0 ∉ value) (rest : List UInt8) :
    (value ++ 0 :: rest).findIdx? (· = 0) = some value.length := by
  have hnone : value.findIdx? (· = 0) = none :=
    List.findIdx?_eq_none_iff.mpr fun b hb => decide_eq_false fun hzero => h (hzero ▸ hb)
  have hhead : (0 :: rest).findIdx? (fun b => decide (b = 0)) = some 0 := by
    rw [List.findIdx?_cons]
    rfl
  rw [List.findIdx?_append, hnone, hhead]
  simp

theorem ntbs_eq_ok {bytes value rest : List UInt8} :
    ntbs bytes = .ok (value, rest) ↔ IsNtbs value ∧ bytes = value ++ 0 :: rest := by
  constructor
  · intro h
    obtain ⟨size, hsize, h⟩ := Checked.bind_eq_ok.mp h
    have hfound := Checked.okOr_eq_ok.mp hsize
    obtain ⟨hlt, hzero, hbefore⟩ := List.findIdx?_eq_some_iff_getElem.mp hfound
    split_ifs at h with hlong
    · cases h
    obtain ⟨front, hfront, h⟩ := Checked.bind_eq_ok.mp h
    obtain ⟨back, hback, h⟩ := Checked.bind_eq_ok.mp h
    cases h
    obtain rfl := eq_take_of_getRange (Checked.expect_eq_ok.mp hfront)
    obtain rfl := eq_drop_of_getRange (Checked.expect_eq_ok.mp hback)
    refine ⟨⟨fun hmem => ?_, ?_⟩, ?_⟩
    · obtain ⟨i, hi, hget⟩ := List.mem_iff_getElem.mp hmem
      rw [List.length_take] at hi
      rw [List.getElem_take] at hget
      exact absurd (decide_eq_true hget) (hbefore i (by omega))
    · rw [List.length_take]
      omega
    · have hcell : bytes[size] = 0 := of_decide_eq_true hzero
      rw [← hcell, ← List.drop_eq_getElem_cons hlt, List.take_append_drop]
  · rintro ⟨⟨hnul, hlength⟩, rfl⟩
    have hfront : getRange (value ++ 0 :: rest) 0 value.length = some value :=
      getRange_of_split (a := []) (c := 0 :: rest) rfl rfl (by simp)
    have hback : getRange (value ++ 0 :: rest) (value.length + 1) (value ++ 0 :: rest).length =
        some rest :=
      getRange_of_split (a := value ++ [0]) (c := []) (by simp) (by simp)
        (by simp only [List.length_append, List.length_cons, List.length_nil]; omega)
    refine Checked.bind_eq_ok.mpr ⟨_, Checked.okOr_eq_ok.mpr (findIdx?_nul hnul rest), ?_⟩
    rw [if_neg (Nat.not_lt.mpr hlength)]
    refine Checked.bind_eq_ok.mpr ⟨_, Checked.expect_eq_ok.mpr hfront, ?_⟩
    exact Checked.bind_eq_ok.mpr ⟨_, Checked.expect_eq_ok.mpr hback, rfl⟩

theorem ntbs_returns (bytes : List UInt8) : (ntbs bytes).Returns := by
  refine (Checked.returns_okOr _ _).bind fun size hsize => ?_
  obtain ⟨hlt, -, -⟩ := List.findIdx?_eq_some_iff_getElem.mp (Checked.okOr_eq_ok.mp hsize)
  split_ifs
  · exact Checked.returns_fail _
  refine (Checked.returns_expect (getRange_isSome (by omega) (by omega))).bind fun _ _ => ?_
  refine (Checked.returns_expect (getRange_isSome (by omega) (by omega))).bind fun _ _ => ?_
  exact Checked.returns_pure _

/-- **A block is as long as it declares**, and at least as long as its length field. -/
theorem block_eq_ok {bytes result rest : List UInt8} {tagBytes : ℕ} :
    block bytes tagBytes = .ok (result, rest) ↔
      4 ≤ result.length ∧ ofLe (result.take 4) = result.length + tagBytes ∧
        bytes = result ++ rest := by
  constructor
  · intro h
    obtain ⟨header, hheader, h⟩ := Checked.bind_eq_ok.mp h
    obtain rfl := eq_take_of_getRange (Checked.okOr_eq_ok.mp hheader)
    simp only at h
    split_ifs at h with hsmall hshort
    · cases h
    · cases h
    obtain ⟨front, hfront, h⟩ := Checked.bind_eq_ok.mp h
    obtain ⟨back, hback, h⟩ := Checked.bind_eq_ok.mp h
    cases h
    obtain ⟨-, hle, -⟩ := getRange_eq_some.mp (Checked.okOr_eq_ok.mp hfront)
    obtain rfl := eq_take_of_getRange (Checked.okOr_eq_ok.mp hfront)
    obtain rfl := eq_drop_of_getRange (Checked.expect_eq_ok.mp hback)
    rw [List.length_take, Nat.min_eq_left hle, List.take_take, Nat.min_eq_left (by omega)]
    exact ⟨by omega, by omega, (List.take_append_drop _ _).symm⟩
  · rintro ⟨hfour, hlength, rfl⟩
    have hheader : getRange (result ++ rest) 0 4 = some (result.take 4) := by
      refine getRange_eq_some.mpr ⟨by omega, by rw [List.length_append]; omega, ?_⟩
      rw [List.drop_zero, Nat.sub_zero, List.take_append_of_le_length hfour]
    have hsize : ofLe (result.take 4) - tagBytes = result.length := by omega
    have hfront : getRange (result ++ rest) 0 result.length = some result :=
      getRange_of_split (a := []) (c := rest) rfl rfl (by simp)
    have hback : getRange (result ++ rest) result.length (result ++ rest).length = some rest :=
      getRange_of_split (a := result) (c := []) (by simp) rfl (by rw [List.length_append])
    refine Checked.bind_eq_ok.mpr ⟨_, Checked.okOr_eq_ok.mpr hheader, ?_⟩
    simp only [hsize]
    rw [if_neg (by omega), if_neg (by omega)]
    refine Checked.bind_eq_ok.mpr ⟨_, Checked.okOr_eq_ok.mpr hfront, ?_⟩
    exact Checked.bind_eq_ok.mpr ⟨_, Checked.expect_eq_ok.mpr hback, rfl⟩

theorem block_returns (bytes : List UInt8) (tagBytes : ℕ) : (block bytes tagBytes).Returns := by
  refine (Checked.returns_okOr _ _).bind fun header _ => ?_
  simp only
  split_ifs
  · exact Checked.returns_fail _
  · exact Checked.returns_fail _
  refine (Checked.returns_okOr _ _).bind fun result hresult => ?_
  obtain ⟨-, hle, -⟩ := getRange_eq_some.mp (Checked.okOr_eq_ok.mp hresult)
  refine (Checked.returns_expect (getRange_isSome hle (Nat.le_refl _))).bind fun _ _ => ?_
  exact Checked.returns_pure _

/-! ### Attributes -/

/-- The bytes of a value. -/
def Value.bytes : Value → List UInt8
  | .integer value => Leb128.encode value
  | .string value => value ++ [0]
  | .compatibility flag vendor => Leb128.encode flag ++ (vendor ++ [0])

/-- The tags of integers. -/
def IntegerTag (tag : ℕ) : Prop :=
  (6 ≤ tag ∧ tag ≤ 31) ∨ isKnownIntegerTag tag ∨ (65 ≤ tag ∧ 64 ≤ tag % 128 ∧ tag % 2 = 0)

/-- The tags of strings. -/
def StringTag (tag : ℕ) : Prop :=
  tag = 4 ∨ tag = 5 ∨ (65 ≤ tag ∧ 64 ≤ tag % 128 ∧ tag % 2 = 1)

/-- A value that a tag can have. -/
def Carries (tag : ℕ) : Value → Prop
  | .integer value => IntegerTag tag ∧ value < 2 ^ 64
  | .string value => StringTag tag ∧ IsNtbs value
  | .compatibility flag vendor => tag = 32 ∧ flag < 2 ^ 64 ∧ IsNtbs vendor

theorem uleb_bind_ok {bytes rest : List UInt8} {β : Type} {b : β}
    {f : ℕ × List UInt8 → Checked String (β × List UInt8)} :
    (uleb bytes >>= f) = .ok (b, rest) ↔ ∃ value middle, value < 2 ^ 64 ∧
      bytes = Leb128.encode value ++ middle ∧ f (value, middle) = .ok (b, rest) := by
  rw [Checked.bind_eq_ok]
  constructor
  · rintro ⟨⟨value, middle⟩, h, hf⟩
    obtain ⟨hlt, rfl⟩ := uleb_eq_ok.mp h
    exact ⟨value, middle, hlt, rfl, hf⟩
  · rintro ⟨value, middle, hlt, rfl, hf⟩
    exact ⟨_, uleb_eq_ok.mpr ⟨hlt, rfl⟩, hf⟩

theorem ntbs_bind_ok {bytes rest : List UInt8} {β : Type} {b : β}
    {f : List UInt8 × List UInt8 → Checked String (β × List UInt8)} :
    (ntbs bytes >>= f) = .ok (b, rest) ↔ ∃ value middle, IsNtbs value ∧
      bytes = value ++ 0 :: middle ∧ f (value, middle) = .ok (b, rest) := by
  rw [Checked.bind_eq_ok]
  constructor
  · rintro ⟨⟨value, middle⟩, h, hf⟩
    obtain ⟨hvalue, rfl⟩ := ntbs_eq_ok.mp h
    exact ⟨value, middle, hvalue, rfl, hf⟩
  · rintro ⟨value, middle, hvalue, rfl, hf⟩
    exact ⟨_, ntbs_eq_ok.mpr ⟨hvalue, rfl⟩, hf⟩

theorem string_eq_ok {bytes rest : List UInt8} {value : Value} :
    (do let (value, bytes) ← ntbs bytes; pure (Value.string value, bytes)) =
        (.ok (value, rest) : Checked String (Value × List UInt8)) ↔
      ∃ s, value = .string s ∧ IsNtbs s ∧ bytes = value.bytes ++ rest := by
  rw [ntbs_bind_ok]
  constructor
  · rintro ⟨s, middle, hs, rfl, ⟨⟩⟩
    exact ⟨s, rfl, hs, by simp [Value.bytes]⟩
  · rintro ⟨s, rfl, hs, rfl⟩
    exact ⟨s, rest, hs, by simp [Value.bytes], rfl⟩

theorem integer_eq_ok {bytes rest : List UInt8} {value : Value} :
    (do let (value, bytes) ← uleb bytes; pure (Value.integer value, bytes)) =
        (.ok (value, rest) : Checked String (Value × List UInt8)) ↔
      ∃ n, value = .integer n ∧ n < 2 ^ 64 ∧ bytes = value.bytes ++ rest := by
  rw [uleb_bind_ok]
  constructor
  · rintro ⟨n, middle, hn, rfl, ⟨⟩⟩
    exact ⟨n, rfl, hn, rfl⟩
  · rintro ⟨n, rfl, hn, rfl⟩
    exact ⟨n, rest, hn, rfl, rfl⟩

theorem compatibility_eq_ok {bytes rest : List UInt8} {value : Value} :
    (do
      let (flag, bytes) ← uleb bytes
      let (vendor, bytes) ← ntbs bytes
      pure (Value.compatibility flag vendor, bytes)) =
        (.ok (value, rest) : Checked String (Value × List UInt8)) ↔
      ∃ flag vendor, value = .compatibility flag vendor ∧ flag < 2 ^ 64 ∧ IsNtbs vendor ∧
        bytes = value.bytes ++ rest := by
  rw [uleb_bind_ok]
  constructor
  · rintro ⟨flag, middle, hflag, rfl, h⟩
    obtain ⟨vendor, middle, hvendor, rfl, ⟨⟩⟩ := ntbs_bind_ok.mp h
    exact ⟨flag, vendor, rfl, hflag, hvendor, by simp [Value.bytes]⟩
  · rintro ⟨flag, vendor, rfl, hflag, hvendor, rfl⟩
    refine ⟨flag, vendor ++ 0 :: rest, hflag, by simp [Value.bytes], ?_⟩
    exact ntbs_bind_ok.mpr ⟨vendor, rest, hvendor, rfl, rfl⟩

section

variable {tag : ℕ} {value : Value}

theorem carries_string (h : StringTag tag) :
    Carries tag value ↔ ∃ s, value = .string s ∧ IsNtbs s := by
  cases value with
  | string s => simp [Carries, h]
  | integer n =>
    refine ⟨fun hc => ?_, fun ⟨_, hs, _⟩ => by cases hs⟩
    obtain ⟨htag, -⟩ := hc
    simp only [IntegerTag, StringTag, isKnownIntegerTag, List.mem_cons, List.not_mem_nil, or_false,
      decide_eq_true_eq] at h htag
    omega
  | compatibility flag vendor =>
    refine ⟨fun hc => ?_, fun ⟨_, hs, _⟩ => by cases hs⟩
    obtain ⟨htag, -, -⟩ := hc
    simp only [StringTag] at h
    omega

theorem carries_integer (h : IntegerTag tag) :
    Carries tag value ↔ ∃ n, value = .integer n ∧ n < 2 ^ 64 := by
  simp only [IntegerTag, isKnownIntegerTag, List.mem_cons, List.not_mem_nil, or_false,
    decide_eq_true_eq] at h
  cases value with
  | integer n => simp only [Carries, IntegerTag, isKnownIntegerTag]; simp; tauto
  | string s =>
    refine ⟨fun hc => ?_, fun ⟨_, hs, _⟩ => by cases hs⟩
    obtain ⟨htag, -⟩ := hc
    simp only [StringTag] at htag
    omega
  | compatibility flag vendor =>
    refine ⟨fun hc => ?_, fun ⟨_, hs, _⟩ => by cases hs⟩
    obtain ⟨htag, -, -⟩ := hc
    omega

theorem carries_compatibility (h : tag = 32) :
    Carries tag value ↔
      ∃ flag vendor, value = .compatibility flag vendor ∧ flag < 2 ^ 64 ∧ IsNtbs vendor := by
  subst h
  cases value with
  | compatibility flag vendor => simp [Carries]
  | integer n =>
    refine ⟨fun hc => absurd hc.1 (by unfold IntegerTag; decide), fun ⟨_, _, hs, _⟩ => by cases hs⟩
  | string s =>
    refine ⟨fun hc => absurd hc.1 (by unfold StringTag; decide), fun ⟨_, _, hs, _⟩ => by cases hs⟩

/-- A tag of no kind has no value. -/
theorem not_carries (hstring : ¬ StringTag tag) (hcompatibility : tag ≠ 32)
    (hinteger : ¬ IntegerTag tag) : ¬ Carries tag value := by
  cases value with
  | integer n => exact fun h => hinteger h.1
  | string s => exact fun h => hstring h.1
  | compatibility flag vendor => exact fun h => hcompatibility h.1

end

/-- The values that are read for a tag. -/
theorem attributeValue_eq_ok {tag : ℕ} {bytes rest : List UInt8} {value : Value} :
    attributeValue tag bytes = .ok (value, rest) ↔ Carries tag value ∧ bytes = value.bytes ++ rest := by
  unfold attributeValue
  split_ifs with h₁ h₂ h₃ h₄ h₅
  · rw [string_eq_ok, carries_string (by unfold StringTag; omega)]
    tauto
  · rw [compatibility_eq_ok, carries_compatibility h₂]
    simp only [exists_and_right, ← and_assoc]
  · rw [integer_eq_ok, carries_integer (by unfold IntegerTag; tauto)]
    tauto
  · rw [string_eq_ok, carries_string (by unfold StringTag; omega)]
    tauto
  · rw [integer_eq_ok, carries_integer (by unfold IntegerTag; omega)]
    tauto
  · refine ⟨fun h => (by cases h), fun h => absurd h.1 (not_carries ?_ h₂ ?_)⟩
    · unfold StringTag
      omega
    · rintro (h | h | ⟨h, h', -⟩)
      · exact h₃ (.inl h)
      · exact h₃ (.inr h)
      · exact h₄ ⟨h, h'⟩

theorem attributeValue_returns (tag : ℕ) (bytes : List UInt8) :
    (attributeValue tag bytes).Returns := by
  unfold attributeValue
  split_ifs
  · exact (ntbs_returns bytes).bind fun _ _ => Checked.returns_pure _
  · refine (uleb_returns bytes).bind fun _ _ => ?_
    exact (ntbs_returns _).bind fun _ _ => Checked.returns_pure _
  · exact (uleb_returns bytes).bind fun _ _ => Checked.returns_pure _
  · exact (ntbs_returns bytes).bind fun _ _ => Checked.returns_pure _
  · exact (uleb_returns bytes).bind fun _ _ => Checked.returns_pure _
  · exact Checked.returns_fail _

/-- The bytes of a tag and its value. -/
def attributeBytes (a : ℕ × Value) : List UInt8 := Leb128.encode a.1 ++ a.2.bytes

/-- A tag and a value that can be read. -/
def ValidAttribute (a : ℕ × Value) : Prop := a.1 < 2 ^ 64 ∧ a.1 ≠ 64 ∧ Carries a.1 a.2

theorem len_insert_new {values : BTreeMap ℕ Value} {tag : ℕ} {value : Value}
    (h : values.get tag = none) : (values.insert tag value).len = values.len + 1 := by
  have hkey := BTreeMap.get_eq_none.mp h
  obtain ⟨entries, hincreasing⟩ := values
  simp only [BTreeMap.insert, BTreeMap.alter, BTreeMap.len, BTreeMap.keys] at hkey ⊢
  clear h hincreasing
  induction entries with
  | nil => rfl
  | cons e entries ih =>
    rw [List.map_cons, List.mem_cons, not_or] at hkey
    rw [BTreeMap.alterEntries, if_neg hkey.1]
    split_ifs
    · rfl
    · rw [List.length_cons, ih hkey.2, List.length_cons]

theorem attributeBytes_ne_nil (a : ℕ × Value) : attributeBytes a ≠ [] := fun h =>
  Leb128.encode_ne_nil a.1 (List.append_eq_nil_iff.mp h).1

/-- The attributes that a loop reads which has got so far. -/
def Reads (values : BTreeMap ℕ Value) (bytes : List UInt8) (result : BTreeMap ℕ Value) : Prop :=
  ∃ attributes : List (ℕ × Value), bytes = attributes.flatMap attributeBytes ∧
    (∀ a ∈ attributes, ValidAttribute a) ∧ (attributes.map Prod.fst).Nodup ∧
    (∀ a ∈ attributes, values.get a.1 = none) ∧
    (attributes = [] ∨ values.len + attributes.length ≤ maxValues) ∧
    result = attributes.foldl (fun m a => m.insert a.1 a.2) values

theorem reads_nil {values result : BTreeMap ℕ Value} : Reads values [] result ↔ result = values := by
  constructor
  · rintro ⟨attributes, hbytes, -, -, -, -, rfl⟩
    cases attributes with
    | nil => rfl
    | cons a attributes =>
      exact absurd (List.append_eq_nil_iff.mp hbytes.symm).1 (attributeBytes_ne_nil a)
  · rintro rfl
    exact ⟨[], rfl, by simp, by simp, by simp, .inl rfl, rfl⟩

/-- The first attribute that is read, and the others. -/
theorem reads_cons {values result : BTreeMap ℕ Value} {bytes : List UInt8} (hbytes : bytes ≠ []) :
    Reads values bytes result ↔ values.len < maxValues ∧ ∃ tag value rest,
      ValidAttribute (tag, value) ∧ values.get tag = none ∧
        bytes = attributeBytes (tag, value) ++ rest ∧ Reads (values.insert tag value) rest result := by
  constructor
  · rintro ⟨attributes, rfl, hvalid, hnodup, hnew, hlen, rfl⟩
    cases attributes with
    | nil => exact absurd rfl hbytes
    | cons a attributes =>
      rw [List.map_cons, List.nodup_cons] at hnodup
      have hlen := hlen.resolve_left (List.cons_ne_nil _ _)
      rw [List.length_cons] at hlen
      have hfresh := hnew a List.mem_cons_self
      refine ⟨by omega, a.1, a.2, attributes.flatMap attributeBytes, hvalid a List.mem_cons_self,
        hfresh, rfl, attributes, rfl, fun b hb => hvalid b (List.mem_cons_of_mem a hb), hnodup.2,
        fun b hb => ?_, .inr ?_, rfl⟩
      · have hne : b.1 ≠ a.1 := fun h => hnodup.1 (h ▸ List.mem_map_of_mem hb)
        rw [BTreeMap.get_insert, if_neg hne]
        exact hnew b (List.mem_cons_of_mem a hb)
      · rw [len_insert_new hfresh]
        omega
  · rintro ⟨hlt, tag, value, rest, hvalid, hfresh, rfl, attributes, rfl, hvalids, hnodup, hnew, hlen,
      rfl⟩
    rw [len_insert_new hfresh] at hlen
    have hne : ∀ b ∈ attributes, b.1 ≠ tag := by
      intro b hb htag
      have hnone := hnew b hb
      rw [BTreeMap.get_insert, if_pos htag] at hnone
      cases hnone
    refine ⟨(tag, value) :: attributes, rfl, ?_, ?_, ?_, .inr ?_, rfl⟩
    · exact List.forall_mem_cons.mpr ⟨hvalid, hvalids⟩
    · rw [List.map_cons, List.nodup_cons]
      refine ⟨fun hmem => ?_, hnodup⟩
      obtain ⟨b, hb, htag⟩ := List.mem_map.mp hmem
      exact hne b hb htag
    · refine List.forall_mem_cons.mpr ⟨hfresh, fun b hb => ?_⟩
      have hnone := hnew b hb
      rwa [BTreeMap.get_insert, if_neg (hne b hb)] at hnone
    · rw [List.length_cons]
      rcases hlen with rfl | hlen
      · rw [List.length_nil]
        omega
      · omega

/-- What the loop over the attributes accepts. -/
theorem attributesFrom_eq_ok {fuel : ℕ} {values result : BTreeMap ℕ Value} {bytes : List UInt8}
    (hfuel : bytes.length ≤ fuel) :
    attributesFrom fuel values bytes = .ok result ↔ Reads values bytes result := by
  induction fuel generalizing values bytes with
  | zero =>
    obtain rfl : bytes = [] := List.length_eq_zero_iff.mp (by omega)
    rw [reads_nil, attributesFrom, Except.ok.injEq]
    exact eq_comm
  | succ fuel ih =>
    cases bytes with
    | nil =>
      rw [reads_nil, attributesFrom, Except.ok.injEq]
      exact eq_comm
    | cons byte bytes =>
      rw [attributesFrom, reads_cons (List.cons_ne_nil _ _)]
      constructor
      · intro h
        split_ifs at h with hmany
        · cases h
        obtain ⟨⟨tag, middle⟩, htag, h⟩ := Checked.bind_eq_ok.mp h
        have hshorter := length_uleb htag
        obtain ⟨htagLt, hbytes⟩ := uleb_eq_ok.mp htag
        simp only at h
        split_ifs at h with hsome hnodefaults
        · cases h
        · cases h
        obtain ⟨⟨value, rest⟩, hvalue, hloop⟩ := Checked.bind_eq_ok.mp h
        obtain ⟨hcarries, rfl⟩ := attributeValue_eq_ok.mp hvalue
        rw [List.length_append, List.length_cons] at hshorter
        rw [List.length_cons] at hfuel
        have hrest : rest.length ≤ fuel := by omega
        refine ⟨by omega, tag, value, rest, ⟨htagLt, hnodefaults, hcarries⟩, ?_, ?_,
          (ih hrest).mp hloop⟩
        · exact Option.not_isSome_iff_eq_none.mp hsome
        · rw [hbytes, attributeBytes, List.append_assoc]
      · rintro ⟨hlt, tag, value, rest, ⟨htagLt, hnodefaults, hcarries⟩, hfresh, hbytes, hreads⟩
        rw [attributeBytes, List.append_assoc] at hbytes
        have htag : uleb (byte :: bytes) = .ok (tag, value.bytes ++ rest) :=
          uleb_eq_ok.mpr ⟨htagLt, hbytes⟩
        have hshorter := length_uleb htag
        rw [List.length_append, List.length_cons] at hshorter
        rw [List.length_cons] at hfuel
        rw [if_neg (Nat.not_le.mpr hlt)]
        refine Checked.bind_eq_ok.mpr ⟨_, htag, ?_⟩
        simp only [hfresh, Option.isSome_none, Bool.false_eq_true, if_false, if_neg hnodefaults]
        refine Checked.bind_eq_ok.mpr ⟨_, attributeValue_eq_ok.mpr ⟨hcarries, rfl⟩, ?_⟩
        have hrest : rest.length ≤ fuel := by omega
        exact (ih hrest).mpr hreads

theorem attributesFrom_returns {fuel : ℕ} {values : BTreeMap ℕ Value} {bytes : List UInt8}
    (hfuel : bytes.length ≤ fuel) : (attributesFrom fuel values bytes).Returns := by
  induction fuel generalizing values bytes with
  | zero =>
    obtain rfl : bytes = [] := List.length_eq_zero_iff.mp (by omega)
    exact Checked.returns_ok _
  | succ fuel ih =>
    cases bytes with
    | nil => exact Checked.returns_ok _
    | cons byte bytes =>
      rw [attributesFrom]
      split_ifs
      · exact Checked.returns_fail _
      refine (uleb_returns _).bind fun tag htag => ?_
      obtain ⟨tag, middle⟩ := tag
      have hshorter := length_uleb htag
      simp only
      split_ifs
      · exact Checked.returns_fail _
      · exact Checked.returns_fail _
      refine (attributeValue_returns _ _).bind fun value hvalue => ?_
      obtain ⟨value, rest⟩ := value
      obtain ⟨-, rfl⟩ := attributeValue_eq_ok.mp hvalue
      rw [List.length_append, List.length_cons] at hshorter
      rw [List.length_cons] at hfuel
      have hrest : rest.length ≤ fuel := by omega
      exact ih hrest

theorem attributes_returns (bytes : List UInt8) : (attributes bytes).Returns :=
  attributesFrom_returns (Nat.le_refl _)

/-- **The attributes are tags and values one after the other**, no tag twice and not too many. -/
theorem attributes_eq_ok {bytes : List UInt8} {values : BTreeMap ℕ Value} :
    attributes bytes = .ok values ↔
      ∃ attributes : List (ℕ × Value), bytes = attributes.flatMap attributeBytes ∧
        (∀ a ∈ attributes, ValidAttribute a) ∧ (attributes.map Prod.fst).Nodup ∧
        attributes.length ≤ maxValues ∧ values = BTreeMap.collect attributes := by
  rw [attributes, attributesFrom_eq_ok (Nat.le_refl _)]
  constructor
  · rintro ⟨attributes, rfl, hvalid, hnodup, -, hlen, rfl⟩
    refine ⟨attributes, rfl, hvalid, hnodup, ?_, rfl⟩
    rcases hlen with rfl | hlen
    · exact Nat.zero_le _
    · exact (Nat.le_add_left _ _).trans hlen
  · rintro ⟨attributes, rfl, hvalid, hnodup, hlen, rfl⟩
    refine ⟨attributes, rfl, hvalid, hnodup, fun _ _ => rfl, .inr ?_, rfl⟩
    have hempty : (BTreeMap.new : BTreeMap ℕ Value).len = 0 := rfl
    omega

/-! ### Scopes -/

/-- A block with its length field, in front of which stand tag bytes that its length counts. -/
def blockBytes (tagBytes : ℕ) (contents : List UInt8) : List UInt8 :=
  leBytes 4 (tagBytes + 4 + contents.length) ++ contents

theorem length_blockBytes (tagBytes : ℕ) (contents : List UInt8) :
    (blockBytes tagBytes contents).length = contents.length + 4 := by
  rw [blockBytes, List.length_append, length_leBytes, Nat.add_comm]

/-- **A block that is read is its length field and its contents.** -/
theorem block_contents {bytes result rest : List UInt8} {tagBytes : ℕ} :
    block bytes tagBytes = .ok (result, rest) ↔
      ∃ contents, result = blockBytes tagBytes contents ∧
        tagBytes + 4 + contents.length < 2 ^ 32 ∧ bytes = result ++ rest := by
  rw [block_eq_ok]
  constructor
  · rintro ⟨hfour, hlength, rfl⟩
    have hfield : (result.take 4).length = 4 := by rw [List.length_take]; omega
    have hlt := ofLe_lt (result.take 4)
    have hle := leBytes_ofLe (result.take 4)
    have hsize : ofLe (result.take 4) = tagBytes + 4 + (result.drop 4).length := by
      rw [List.length_drop]
      omega
    rw [hfield, hsize] at hlt hle
    refine ⟨result.drop 4, ?_, hlt, rfl⟩
    rw [blockBytes, hle, List.take_append_drop]
  · rintro ⟨contents, rfl, hlt, rfl⟩
    refine ⟨by rw [length_blockBytes]; omega, ?_, rfl⟩
    have hfield : (blockBytes tagBytes contents).take 4 =
        leBytes 4 (tagBytes + 4 + contents.length) :=
      List.take_left' (length_leBytes 4 _)
    rw [hfield, ofLe_leBytes hlt, length_blockBytes]
    omega

theorem drop_blockBytes (tagBytes : ℕ) (contents : List UInt8) :
    getRange (blockBytes tagBytes contents) 4 (blockBytes tagBytes contents).length =
      some contents :=
  getRange_of_split (a := leBytes 4 (tagBytes + 4 + contents.length)) (c := [])
    (List.append_nil _).symm (length_leBytes 4 _).symm (by
      rw [length_blockBytes, length_leBytes, Nat.add_comm])

/-- After one file scope there is no other. -/
theorem fileScopeFrom_some {fuel : ℕ} {values : BTreeMap ℕ Value}
    {result : Option (BTreeMap ℕ Value)} {body : List UInt8} :
    fileScopeFrom fuel (some values) body = .ok result ↔ body = [] ∧ result = some values := by
  cases body with
  | nil =>
    rw [fileScopeFrom, Except.ok.injEq]
    exact ⟨fun h => ⟨rfl, h.symm⟩, fun h => h.2.symm⟩
  | cons byte bytes =>
    refine ⟨fun h => ?_, fun h => absurd h.1 (List.cons_ne_nil _ _)⟩
    cases fuel with
    | zero => cases h
    | succ fuel =>
      obtain ⟨⟨scope, body⟩, -, h⟩ := Checked.bind_eq_ok.mp h
      simp only [Option.isSome_some, if_true] at h
      split_ifs at h
      · cases h
      · cases h
      · cases h
      · cases h

/-- **A file scope is its tag and one block of attributes**, and nothing follows. -/
theorem fileScope_eq_ok {body : List UInt8} {values : BTreeMap ℕ Value} :
    fileScope body = .ok values ↔ ∃ contents, attributes contents = .ok values ∧
      1 + 4 + contents.length < 2 ^ 32 ∧ body = Leb128.encode 1 ++ blockBytes 1 contents := by
  unfold fileScope
  cases body with
  | nil =>
    refine ⟨fun h => (by cases h), ?_⟩
    rintro ⟨contents, -, -, hbody⟩
    exact absurd (List.append_eq_nil_iff.mp hbody.symm).1 (Leb128.encode_ne_nil 1)
  | cons byte bytes =>
    have hone : (Leb128.encode 1).length = 1 := by rw [Leb128.encode_of_lt (by decide)]; rfl
    constructor
    · intro h
      obtain ⟨found, hloop, hfound⟩ := Checked.bind_eq_ok.mp h
      obtain rfl := Checked.okOr_eq_ok.mp hfound
      obtain ⟨⟨scope, body⟩, hscope, hloop⟩ := Checked.bind_eq_ok.mp hloop
      obtain ⟨-, hbytes⟩ := uleb_eq_ok.mp hscope
      simp only [Option.isSome_none, Bool.false_eq_true, if_false] at hloop
      split_ifs at hloop with hfile
      · subst hfile
        obtain ⟨⟨subsection, rest⟩, hblock, hloop⟩ := Checked.bind_eq_ok.mp hloop
        obtain ⟨inner, hinner, hloop⟩ := Checked.bind_eq_ok.mp hloop
        obtain ⟨attributes, hattributes, hloop⟩ := Checked.bind_eq_ok.mp hloop
        obtain ⟨rfl, hvalues⟩ := fileScopeFrom_some.mp hloop
        obtain rfl := Option.some.inj hvalues
        rw [hbytes, List.length_append, hone, Nat.add_sub_cancel] at hblock
        obtain ⟨contents, rfl, hlt, hbody⟩ := block_contents.mp hblock
        obtain rfl : contents = inner :=
          Option.some.inj ((drop_blockBytes 1 contents).symm.trans (Checked.expect_eq_ok.mp hinner))
        refine ⟨contents, hattributes, hlt, ?_⟩
        rw [hbytes, hbody, List.append_nil]
      · cases hloop
      · cases hloop
      · cases hloop
    · rintro ⟨contents, hattributes, hlt, hbody⟩
      have hscope : uleb (byte :: bytes) = .ok (1, blockBytes 1 contents) :=
        uleb_eq_ok.mpr ⟨by decide, hbody⟩
      have htag : (byte :: bytes).length - (blockBytes 1 contents).length = 1 := by
        rw [hbody, List.length_append, hone, Nat.add_sub_cancel]
      have hblock : block (blockBytes 1 contents) 1 = .ok (blockBytes 1 contents, []) :=
        block_contents.mpr ⟨contents, rfl, hlt, (List.append_nil _).symm⟩
      refine Checked.bind_eq_ok.mpr ⟨some values, ?_, rfl⟩
      refine Checked.bind_eq_ok.mpr ⟨_, hscope, ?_⟩
      simp only [htag, if_true, Option.isSome_none, Bool.false_eq_true, if_false]
      refine Checked.bind_eq_ok.mpr ⟨_, hblock, ?_⟩
      refine Checked.bind_eq_ok.mpr ⟨_, Checked.expect_eq_ok.mpr (drop_blockBytes 1 contents), ?_⟩
      refine Checked.bind_eq_ok.mpr ⟨_, hattributes, ?_⟩
      exact fileScopeFrom_some.mpr ⟨rfl, rfl⟩

theorem fileScopeFrom_returns {fuel : ℕ} {fileAttributes : Option (BTreeMap ℕ Value)}
    {body : List UInt8} (hfuel : body.length ≤ fuel) :
    (fileScopeFrom fuel fileAttributes body).Returns := by
  induction fuel generalizing fileAttributes body with
  | zero =>
    obtain rfl : body = [] := List.length_eq_zero_iff.mp (by omega)
    exact Checked.returns_ok _
  | succ fuel ih =>
    cases body with
    | nil => exact Checked.returns_ok _
    | cons byte bytes =>
      rw [fileScopeFrom]
      refine (uleb_returns _).bind fun scope hscope => ?_
      obtain ⟨scope, body⟩ := scope
      have hshorter := length_uleb hscope
      simp only
      split_ifs
      · exact Checked.returns_fail _
      · refine (block_returns _ _).bind fun result hblock => ?_
        obtain ⟨subsection, rest⟩ := result
        obtain ⟨hfour, -, rfl⟩ := block_eq_ok.mp hblock
        rw [List.length_append, List.length_cons] at hshorter
        rw [List.length_cons] at hfuel
        have hrest : rest.length ≤ fuel := by omega
        refine (Checked.returns_expect (getRange_isSome hfour (Nat.le_refl _))).bind fun _ _ => ?_
        exact (attributes_returns _).bind fun _ _ => ih hrest
      · exact Checked.returns_fail _
      · exact Checked.returns_fail _
      · exact Checked.returns_fail _

theorem fileScope_returns (body : List UInt8) : (fileScope body).Returns :=
  (fileScopeFrom_returns (Nat.le_refl _)).bind fun _ _ => Checked.returns_okOr _ _

/-! ### Vendors -/

/-- The bytes of a vendor's block, from its name and what follows. -/
def vendorBytes (vendor : List UInt8 × List UInt8) : List UInt8 :=
  blockBytes 0 (vendor.1 ++ 0 :: vendor.2)

/-- A vendor whose block can be read. -/
def ValidVendor (vendor : List UInt8 × List UInt8) : Prop :=
  IsNtbs vendor.1 ∧ 4 + (vendor.1 ++ 0 :: vendor.2).length < 2 ^ 32

/-- What a vendor adds to the attributes found so far. -/
def VendorValues (vendor : List UInt8 × List UInt8) (aeabi next : Option (BTreeMap ℕ Value)) : Prop :=
  (vendor.1 = aeabiName ∧ aeabi = none ∧ ∃ values, fileScope vendor.2 = .ok values ∧
    next = some values) ∨ (vendor.1 ≠ aeabiName ∧ next = aeabi)

/-- One round over the vendors. -/
theorem vendorsFrom_cons {fuel : ℕ} {names : List (List UInt8)}
    {aeabi result : Option (BTreeMap ℕ Value)} {byte : UInt8} {bytes : List UInt8} :
    vendorsFrom (fuel + 1) names aeabi (byte :: bytes) = .ok result ↔
      ∃ vendor rest next, ValidVendor vendor ∧ byte :: bytes = vendorBytes vendor ++ rest ∧
        vendor.1 ∉ names ∧ VendorValues vendor aeabi next ∧
        vendorsFrom fuel (vendor.1 :: names) next rest = .ok result := by
  rw [vendorsFrom]
  constructor
  · intro h
    obtain ⟨⟨vendorBlock, rest⟩, hblock, h⟩ := Checked.bind_eq_ok.mp h
    obtain ⟨contents, rfl, hlt, hbytes⟩ := block_contents.mp hblock
    obtain ⟨inner, hinner, h⟩ := Checked.bind_eq_ok.mp h
    obtain rfl : contents = inner :=
      Option.some.inj ((drop_blockBytes 0 contents).symm.trans (Checked.expect_eq_ok.mp hinner))
    obtain ⟨⟨name, body⟩, hname, hnamed⟩ := Checked.bind_eq_ok.mp h
    obtain ⟨hntbs, rfl⟩ := ntbs_eq_ok.mp hname
    simp only at hnamed
    rw [Nat.zero_add] at hlt
    split_ifs at hnamed with hmem haeabi hsome
    · cases hnamed
    · cases hnamed
    · obtain ⟨values, hvalues, hloop⟩ := Checked.bind_eq_ok.mp hnamed
      exact ⟨(name, body), rest, some values, ⟨hntbs, hlt⟩, hbytes, hmem,
        .inl ⟨haeabi, Option.not_isSome_iff_eq_none.mp hsome, values, hvalues, rfl⟩, hloop⟩
    · exact ⟨(name, body), rest, aeabi, ⟨hntbs, hlt⟩, hbytes, hmem, .inr ⟨haeabi, rfl⟩, hnamed⟩
  · rintro ⟨⟨name, body⟩, rest, next, ⟨hntbs, hlt⟩, hbytes, hmem, hvalues, hloop⟩
    refine Checked.bind_eq_ok.mpr ⟨(blockBytes 0 (name ++ 0 :: body), rest), ?_, ?_⟩
    · exact block_contents.mpr ⟨_, rfl, by rwa [Nat.zero_add], hbytes⟩
    refine Checked.bind_eq_ok.mpr ⟨_, Checked.expect_eq_ok.mpr (drop_blockBytes 0 _), ?_⟩
    refine Checked.bind_eq_ok.mpr ⟨_, ntbs_eq_ok.mpr ⟨hntbs, rfl⟩, ?_⟩
    simp only [if_neg hmem]
    rcases hvalues with ⟨haeabi, rfl, values, hscope, rfl⟩ | ⟨haeabi, rfl⟩
    · simp only [if_pos haeabi, Option.isSome_none, Bool.false_eq_true, if_false]
      exact Checked.bind_eq_ok.mpr ⟨_, hscope, hloop⟩
    · simp only [if_neg haeabi]
      exact hloop

/-- The vendors that a loop reads which has got so far. -/
def ReadsVendors (names : List (List UInt8)) (aeabi : Option (BTreeMap ℕ Value))
    (bytes : List UInt8) (result : Option (BTreeMap ℕ Value)) : Prop :=
  ∃ vendors : List (List UInt8 × List UInt8), bytes = vendors.flatMap vendorBytes ∧
    (∀ v ∈ vendors, ValidVendor v) ∧ (vendors.map Prod.fst).Nodup ∧
    (∀ v ∈ vendors, v.1 ∉ names) ∧
    ((∀ v ∈ vendors, v.1 ≠ aeabiName) ∧ result = aeabi ∨
      ∃ contents values, (aeabiName, contents) ∈ vendors ∧ fileScope contents = .ok values ∧
        result = some values)

theorem vendorBytes_ne_nil (vendor : List UInt8 × List UInt8) : vendorBytes vendor ≠ [] := by
  intro h
  have := length_blockBytes 0 (vendor.1 ++ 0 :: vendor.2)
  rw [vendorBytes] at h
  rw [h] at this
  simp at this

theorem readsVendors_nil {names : List (List UInt8)} {aeabi result : Option (BTreeMap ℕ Value)} :
    ReadsVendors names aeabi [] result ↔ result = aeabi := by
  constructor
  · rintro ⟨vendors, hbytes, -, -, -, hresult⟩
    cases vendors with
    | nil =>
      rcases hresult with ⟨-, h⟩ | ⟨_, _, hmem, -⟩
      · exact h
      · cases hmem
    | cons v vendors =>
      exact absurd (List.append_eq_nil_iff.mp hbytes.symm).1 (vendorBytes_ne_nil v)
  · rintro rfl
    exact ⟨[], rfl, by simp, by simp, by simp, .inl ⟨by simp, rfl⟩⟩

/-- The first vendor that is read, and the others. -/
theorem readsVendors_cons {names : List (List UInt8)} {aeabi result : Option (BTreeMap ℕ Value)}
    {bytes : List UInt8} (hbytes : bytes ≠ []) (haeabi : aeabi = none ∨ aeabiName ∈ names) :
    ReadsVendors names aeabi bytes result ↔
      ∃ vendor rest next, ValidVendor vendor ∧ bytes = vendorBytes vendor ++ rest ∧
        vendor.1 ∉ names ∧ VendorValues vendor aeabi next ∧
        ReadsVendors (vendor.1 :: names) next rest result := by
  constructor
  · rintro ⟨vendors, rfl, hvalid, hnodup, hnew, hresult⟩
    cases vendors with
    | nil => exact absurd rfl hbytes
    | cons v vendors =>
      rw [List.map_cons, List.nodup_cons] at hnodup
      have hothers : ∀ w ∈ vendors, w.1 ∉ v.1 :: names := by
        intro w hw hmem
        rcases List.mem_cons.mp hmem with h | h
        · exact hnodup.1 (h ▸ List.mem_map_of_mem hw)
        · exact hnew w (List.mem_cons_of_mem v hw) h
      have hrest := fun w hw => hvalid w (List.mem_cons_of_mem v hw)
      have hfresh := hnew v List.mem_cons_self
      rcases hresult with ⟨hnone, rfl⟩ | ⟨contents, values, hmem, hscope, rfl⟩
      · exact ⟨v, _, result, hvalid v List.mem_cons_self, rfl, hfresh,
          .inr ⟨hnone v List.mem_cons_self, rfl⟩, vendors, rfl, hrest, hnodup.2, hothers,
          .inl ⟨fun w hw => hnone w (List.mem_cons_of_mem v hw), rfl⟩⟩
      · rcases List.mem_cons.mp hmem with rfl | hmem
        · have hfirst := haeabi.resolve_right hfresh
          refine ⟨(aeabiName, contents), _, some values, hvalid _ List.mem_cons_self, rfl, hfresh,
            .inl ⟨rfl, hfirst, values, hscope, rfl⟩, vendors, rfl, hrest, hnodup.2, hothers,
            .inl ⟨fun w hw heq => ?_, rfl⟩⟩
          exact hothers w hw (heq ▸ List.mem_cons_self)
        · have hne : v.1 ≠ aeabiName := fun heq =>
            hnodup.1 (heq ▸ List.mem_map_of_mem hmem)
          exact ⟨v, _, aeabi, hvalid v List.mem_cons_self, rfl, hfresh, .inr ⟨hne, rfl⟩, vendors,
            rfl, hrest, hnodup.2, hothers, .inr ⟨contents, values, hmem, hscope, rfl⟩⟩
  · rintro ⟨v, rest, next, hvalid, rfl, hfresh, hvalues, vendors, rfl, hrest, hnodup, hothers,
      hresult⟩
    refine ⟨v :: vendors, rfl, List.forall_mem_cons.mpr ⟨hvalid, hrest⟩, ?_, ?_, ?_⟩
    · rw [List.map_cons, List.nodup_cons]
      refine ⟨fun hmem => ?_, hnodup⟩
      obtain ⟨w, hw, hname⟩ := List.mem_map.mp hmem
      exact hothers w hw (hname ▸ List.mem_cons_self)
    · exact List.forall_mem_cons.mpr
        ⟨hfresh, fun w hw hmem => hothers w hw (List.mem_cons_of_mem _ hmem)⟩
    · rcases hresult with ⟨hnone, rfl⟩ | ⟨contents, values, hmem, hscope, rfl⟩
      · rcases hvalues with ⟨hname, -, values, hscope, rfl⟩ | ⟨hname, rfl⟩
        · exact .inr ⟨v.2, values, by rw [← hname]; exact List.mem_cons_self, hscope, rfl⟩
        · exact .inl ⟨List.forall_mem_cons.mpr ⟨hname, hnone⟩, rfl⟩
      · exact .inr ⟨contents, values, List.mem_cons_of_mem v hmem, hscope, rfl⟩

theorem VendorValues.aeabi {vendor : List UInt8 × List UInt8}
    {aeabi next : Option (BTreeMap ℕ Value)} {names : List (List UInt8)}
    (h : VendorValues vendor aeabi next) (haeabi : aeabi = none ∨ aeabiName ∈ names) :
    next = none ∨ aeabiName ∈ vendor.1 :: names := by
  rcases h with ⟨hname, -⟩ | ⟨-, rfl⟩
  · exact .inr (hname ▸ List.mem_cons_self)
  · exact haeabi.imp_right (List.mem_cons_of_mem _)

theorem length_rest_lt {vendor : List UInt8 × List UInt8} {bytes rest : List UInt8}
    (h : bytes = vendorBytes vendor ++ rest) : rest.length < bytes.length := by
  have := List.length_pos_iff.mpr (vendorBytes_ne_nil vendor)
  rw [h, List.length_append]
  omega

/-- What the loop over the vendors accepts. -/
theorem vendorsFrom_eq_ok {fuel : ℕ} {names : List (List UInt8)}
    {aeabi result : Option (BTreeMap ℕ Value)} {bytes : List UInt8} (hfuel : bytes.length ≤ fuel)
    (haeabi : aeabi = none ∨ aeabiName ∈ names) :
    vendorsFrom fuel names aeabi bytes = .ok result ↔ ReadsVendors names aeabi bytes result := by
  induction fuel generalizing names aeabi bytes with
  | zero =>
    obtain rfl : bytes = [] := List.length_eq_zero_iff.mp (by omega)
    rw [readsVendors_nil, vendorsFrom, Except.ok.injEq]
    exact eq_comm
  | succ fuel ih =>
    cases bytes with
    | nil =>
      rw [readsVendors_nil, vendorsFrom, Except.ok.injEq]
      exact eq_comm
    | cons byte bytes =>
      rw [vendorsFrom_cons, readsVendors_cons (List.cons_ne_nil _ _) haeabi]
      refine exists_congr fun vendor => exists_congr fun rest => exists_congr fun next => ?_
      refine and_congr_right fun _ => and_congr_right fun hbytes => and_congr_right fun _ =>
        and_congr_right fun hvalues => ih ?_ (hvalues.aeabi haeabi)
      have := length_rest_lt hbytes
      omega

theorem vendorsFrom_returns {fuel : ℕ} {names : List (List UInt8)}
    {aeabi : Option (BTreeMap ℕ Value)} {bytes : List UInt8} (hfuel : bytes.length ≤ fuel) :
    (vendorsFrom fuel names aeabi bytes).Returns := by
  induction fuel generalizing names aeabi bytes with
  | zero =>
    obtain rfl : bytes = [] := List.length_eq_zero_iff.mp (by omega)
    exact Checked.returns_ok _
  | succ fuel ih =>
    cases bytes with
    | nil => exact Checked.returns_ok _
    | cons byte bytes =>
      rw [vendorsFrom]
      refine (block_returns _ _).bind fun result hblock => ?_
      obtain ⟨vendorBlock, rest⟩ := result
      obtain ⟨hfour, -, hbytes⟩ := block_eq_ok.mp hblock
      have hrest : rest.length ≤ fuel := by
        rw [hbytes, List.length_append] at hfuel
        omega
      refine (Checked.returns_expect (getRange_isSome hfour (Nat.le_refl _))).bind fun _ _ => ?_
      refine (ntbs_returns _).bind fun name _ => ?_
      obtain ⟨name, body⟩ := name
      simp only
      split_ifs
      · exact Checked.returns_fail _
      · exact Checked.returns_fail _
      · exact (fileScope_returns _).bind fun _ _ => ih hrest
      · exact ih hrest

theorem decode_returns (bytes : List UInt8) : (decode bytes).Returns := by
  unfold decode
  split_ifs with hlong hformat
  · exact Checked.returns_fail _
  · exact Checked.returns_fail _
  have hone : 1 ≤ bytes.length := by
    cases bytes with
    | nil => exact absurd (not_not.mp hformat) (by simp)
    | cons byte bytes => simp
  refine (Checked.returns_expect (getRange_isSome hone (Nat.le_refl _))).bind fun _ _ => ?_
  exact (vendorsFrom_returns (Nat.le_refl _)).bind fun _ _ => Checked.returns_okOr _ _

/-- **The section is a format byte and one block a vendor**, and the attributes are those in the
block of `aeabi`. -/
theorem decode_eq_ok {bytes : List UInt8} {values : BTreeMap ℕ Value} :
    decode bytes = .ok values ↔ bytes.length ≤ maxSectionSize ∧
      ∃ vendors : List (List UInt8 × List UInt8), bytes = 0x41 :: vendors.flatMap vendorBytes ∧
        (∀ v ∈ vendors, ValidVendor v) ∧ (vendors.map Prod.fst).Nodup ∧
        ∃ contents, (aeabiName, contents) ∈ vendors ∧ fileScope contents = .ok values := by
  have hloop : ∀ {rest : List UInt8} {result : Option (BTreeMap ℕ Value)},
      vendorsFrom rest.length [] none rest = .ok result ↔ ReadsVendors [] none rest result :=
    vendorsFrom_eq_ok (Nat.le_refl _) (.inl rfl)
  have hback : ∀ {byte : UInt8} {rest : List UInt8},
      getRange (byte :: rest) 1 (byte :: rest).length = some rest := fun {byte rest} =>
    getRange_of_split (a := [byte]) (c := []) (by simp) rfl (by simp [Nat.add_comm])
  unfold decode
  constructor
  · intro h
    split_ifs at h with hlong hformat
    · cases h
    · cases h
    obtain ⟨rest, hrest, h⟩ := Checked.bind_eq_ok.mp h
    obtain ⟨found, hfound, h⟩ := Checked.bind_eq_ok.mp h
    obtain rfl := Checked.okOr_eq_ok.mp h
    cases bytes with
    | nil => exact absurd (not_not.mp hformat) (by simp)
    | cons byte bytes =>
      obtain rfl : bytes = rest := Option.some.inj (hback.symm.trans (Checked.expect_eq_ok.mp hrest))
      obtain rfl : byte = 0x41 := Option.some.inj (not_not.mp hformat)
      obtain ⟨vendors, rfl, hvalid, hnodup, -, hresult⟩ := hloop.mp hfound
      refine ⟨Nat.not_lt.mp hlong, vendors, rfl, hvalid, hnodup, ?_⟩
      rcases hresult with ⟨-, hnone⟩ | ⟨contents, values', hmem, hscope, hsome⟩
      · cases hnone
      · obtain rfl := Option.some.inj hsome
        exact ⟨contents, hmem, hscope⟩
  · rintro ⟨hlong, vendors, rfl, hvalid, hnodup, contents, hmem, hscope⟩
    rw [if_neg (Nat.not_lt.mpr hlong), if_neg (by simp)]
    refine Checked.bind_eq_ok.mpr ⟨_, Checked.expect_eq_ok.mpr hback, ?_⟩
    refine Checked.bind_eq_ok.mpr ⟨some values, hloop.mpr ?_, rfl⟩
    exact ⟨vendors, rfl, hvalid, hnodup, by simp, .inr ⟨contents, values, hmem, hscope, rfl⟩⟩

/-- **What the reader accepts are blocks of exactly the lengths they declare.**  Numbers are the
shortest encodings of 64-bit numbers; on no input does a reader panic or run on. -/
theorem attributes_decoded (bytes : List UInt8) :
    (∀ value rest, uleb bytes = .ok (value, rest) ↔
      value < 2 ^ 64 ∧ bytes = Leb128.encode value ++ rest) ∧
    (∀ tagBytes result rest, block bytes tagBytes = .ok (result, rest) ↔
      4 ≤ result.length ∧ ofLe (result.take 4) = result.length + tagBytes ∧
        bytes = result ++ rest) ∧
    (∀ values, attributes bytes = .ok values ↔
      ∃ attributes : List (ℕ × Value), bytes = attributes.flatMap attributeBytes ∧
        (∀ a ∈ attributes, ValidAttribute a) ∧ (attributes.map Prod.fst).Nodup ∧
        attributes.length ≤ maxValues ∧ values = BTreeMap.collect attributes) ∧
    (∀ values, fileScope bytes = .ok values ↔ ∃ contents, attributes contents = .ok values ∧
      1 + 4 + contents.length < 2 ^ 32 ∧ bytes = Leb128.encode 1 ++ blockBytes 1 contents) ∧
    (∀ values, decode bytes = .ok values ↔ bytes.length ≤ maxSectionSize ∧
      ∃ vendors : List (List UInt8 × List UInt8), bytes = 0x41 :: vendors.flatMap vendorBytes ∧
        (∀ v ∈ vendors, ValidVendor v) ∧ (vendors.map Prod.fst).Nodup ∧
        ∃ contents, (aeabiName, contents) ∈ vendors ∧ fileScope contents = .ok values) ∧
    (uleb bytes).Returns ∧ (∀ tagBytes, (block bytes tagBytes).Returns) ∧
    (attributes bytes).Returns ∧ (fileScope bytes).Returns ∧ (decode bytes).Returns :=
  ⟨fun _ _ => uleb_eq_ok, fun _ _ _ => block_eq_ok, fun _ => attributes_eq_ok,
    fun _ => fileScope_eq_ok, fun _ => decode_eq_ok, uleb_returns bytes, block_returns bytes,
    attributes_returns bytes, fileScope_returns bytes, decode_returns bytes⟩

/-- The attributes of a section that says which architecture it is for. -/
example : decode ([0x41, 0x11, 0, 0, 0] ++ aeabiName ++ [0, 1, 7, 0, 0, 0, 6, 10]) =
    .ok (BTreeMap.collect [(6, .integer 10)]) := by decide

end Arm

end Elf

end ArosTools
