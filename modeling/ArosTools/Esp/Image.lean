import ArosTools.Esp.Partition
import ArosTools.Program.Except
import Mathlib.Order.Interval.Set.Basic
import Mathlib.Order.CompletePartialOrder

/-!
# The image verifier

`verifyEspImage` reads an ESP32 image: a header of 24 bytes, up to sixteen segments, zeros up to a
checksum in the last byte of a block of sixteen, and a SHA-256 digest. Indices, slices and additions
that would panic are outcomes of their own.

* `verifyEspImage_returns` : it returns on every byte string.
* `esp_image_sound` : what it accepts.
-/

namespace ArosTools

namespace Esp

/-- `EspImagePolicy`. -/
structure EspImagePolicy where
  chipId : UInt16
  revisionMin : UInt16
  revisionMax : UInt16
  flashBytes : UInt64
  maximumImageBytes : UInt64
  deriving DecidableEq, Repr

/-- `EspImageSegment`; a record at the address zero is padding. -/
structure EspImageSegment where
  loadAddress : UInt32
  fileOffset : ℕ
  sizeBytes : ℕ
  deriving DecidableEq, Repr

/-- `EspImageFacts`. -/
structure EspImageFacts where
  sha256 : Sha256Digest
  sizeBytes : ℕ
  chipId : UInt16
  revisionMin : UInt16
  revisionMax : UInt16
  flashBytes : UInt64
  entryPoint : UInt32
  segments : List EspImageSegment
  deriving DecidableEq, Repr

namespace Image

/-- Sixteen bits, the low byte first. -/
def u16 (low high : UInt8) : UInt16 := UInt16.ofNat (ofLe [low, high])

/-- Thirty-two bits, the low byte first. -/
def u32 (b0 b1 b2 b3 : UInt8) : UInt32 := UInt32.ofNat (ofLe [b0, b1, b2, b3])

/-- `HEX`. -/
def hexTable : Bytes := ascii "0123456789abcdef"

/-- `as_chunks::<2>`: the pairs, without a last byte that is alone. -/
def pairs : Bytes → List (UInt8 × UInt8)
  | high :: low :: rest => (high, low) :: pairs rest
  | _ => []

/-- The variables of the loop over the segments. -/
structure Cursor where
  cursor : ℕ
  checksum : UInt8
  segments : List EspImageSegment
  deriving DecidableEq, Repr

/-- A segment and a previous one: fails if both are loaded and overlap. -/
def checkOverlap (address : UInt32) (addressEnd : ℕ) (previous : EspImageSegment) :
    Checked String Unit := do
  let previousStart := previous.loadAddress.toNat
  let previousEnd ← .expect (checkedAdd previousStart previous.sizeBytes)
  if previousStart ≠ 0 ∧ address.toNat < previousEnd ∧ previousStart < addressEnd then
    .fail "image load segments overlap"
  else pure ()

/-- A segment and all previous ones. -/
def checkOverlaps (segments : List EspImageSegment) (address : UInt32) (length addressEnd : ℕ) :
    Checked String Unit :=
  if address ≠ 0 ∧ length ≠ 0 then segments.forM (checkOverlap address addressEnd) else pure ()

/-- One round of the loop over the segments. -/
def readSegment (bytes : Bytes) (s : Cursor) : Checked String Cursor := do
  let headerEnd ← .okOr (checkedAdd s.cursor 8) "segment header overflow"
  let header ← .okOr (getRange bytes s.cursor headerEnd) "truncated segment header"
  let address := u32 (← .expect header[0]?) (← .expect header[1]?) (← .expect header[2]?)
    (← .expect header[3]?)
  let length := (u32 (← .expect header[4]?) (← .expect header[5]?) (← .expect header[6]?)
    (← .expect header[7]?)).toNat
  if length % 4 ≠ 0 then .fail "image segment length is not four-byte aligned"
  else
    let stop ← .okOr (checkedAdd headerEnd length) "segment payload overflow"
    let payload ← .okOr (getRange bytes headerEnd stop) "truncated segment payload"
    let addressEnd ← .expect (checkedAdd address.toNat length)
    if addressEnd > 2 ^ 32 then .fail "segment exceeds the RV32 address space"
    else
      checkOverlaps s.segments address length addressEnd
      pure ⟨stop, payload.foldl (· ^^^ ·) s.checksum, s.segments ++ [⟨address, headerEnd, length⟩]⟩

/-- `for _ in 0..count`. -/
def readSegments (bytes : Bytes) : ℕ → Cursor → Checked String Cursor
  | 0, s => pure s
  | count + 1, s => do
    let s ← readSegment bytes s
    readSegments bytes count s

/-- One byte of the digest and its two digits. -/
def matchesByte (hex : (UInt8 × UInt8) × UInt8) : Checked String Bool := do
  let high ← .expect hexTable[(hex.2 >>> 4).toNat]?
  let low ← .expect hexTable[(hex.2 &&& 15).toNat]?
  pure (hex.1 = (high, low))

/-- The entry point is in a loaded segment. -/
def holdsEntry (entryPoint : UInt32) (segment : EspImageSegment) : Checked String Bool := do
  if segment.loadAddress ≠ 0 ∧ segment.loadAddress.toNat ≤ entryPoint.toNat then
    let stop ← .expect (checkedAdd segment.loadAddress.toNat segment.sizeBytes)
    pure (entryPoint.toNat < stop)
  else pure false

/-- The part of `verify_esp_image` after the segments: the checksum and the digest. -/
def verifyTrailer (sha256Bytes : Bytes → Sha256Digest) (bytes : Bytes) (s : Cursor) :
    Checked String Unit := do
  let checksumOffset := s.cursor ||| 15
  let digestOffset ← .okOr (checkedAdd checksumOffset 1) "digest offset overflow"
  if bytes[checksumOffset]? ≠ some s.checksum then .fail "image XOR checksum differs"
  else
    let padding ← .okOr (getRange bytes s.cursor checksumOffset) "truncated image padding"
    if padding.any (· ≠ 0) then .fail "nonzero image checksum padding"
    else
      let stop ← .okOr (checkedAdd digestOffset 32) "digest size overflow"
      if bytes.length ≠ stop then .fail "missing digest or unsupported trailing image data"
      else
        let digest := sha256Bytes (← .expect (getRange bytes 0 digestOffset))
        let stored ← .expect (getRange bytes digestOffset bytes.length)
        if ← ((pairs digest).zip stored).allM matchesByte then pure ()
        else .fail "image validation SHA-256 differs"

/-- What the header says. -/
structure Header where
  count : UInt8
  chipId : UInt16
  revisionMin : UInt16
  revisionMax : UInt16
  flashBytes : UInt64
  entryPoint : UInt32
  deriving DecidableEq, Repr

/-- The part of `verify_esp_image` before the segments: the policy and the header. -/
def verifyHeader (bytes : Bytes) (policy : EspImagePolicy) : Checked String Header := do
  if policy.revisionMin > policy.revisionMax ∨ policy.flashBytes = 0 ∨
      policy.maximumImageBytes = 0 ∨ policy.maximumImageBytes > policy.flashBytes then
    .fail "invalid source image policy"
  else if bytes.length < 24 ∨ bytes.length > policy.maximumImageBytes.toNat then
    .fail "image is truncated or exceeds its source-owned range"
  else
    let count ← .expect bytes[1]?
    if (← .expect bytes[0]?) ≠ 0xe9 ∨ count < 1 ∨ 16 < count ∨ 3 < (← .expect bytes[2]?) then
      .fail "unsupported ESP image header"
    else if (← .expect bytes[23]?) ≠ 1 ∨
        (← .expect (getRange bytes 19 23)) ≠ [0, 0, 0, 0] then
      .fail "image requires an appended digest and supported reserved header"
    else
      let chipId := u16 (← .expect bytes[12]?) (← .expect bytes[13]?)
      let revisionMin := u16 (← .expect bytes[15]?) (← .expect bytes[16]?)
      let revisionMax := u16 (← .expect bytes[17]?) (← .expect bytes[18]?)
      if chipId ≠ policy.chipId then .fail "image chip differs from source contract"
      else if revisionMin ≠ policy.revisionMin ∨ revisionMax ≠ policy.revisionMax then
        .fail "image silicon revision interval differs from source contract"
      else
        let sizeCode := (← .expect bytes[3]?) >>> 4
        if sizeCode > 7 then .fail "unsupported image flash capacity"
        else
          let flashBytes := ((1 : UInt64) <<< 20) <<< sizeCode.toUInt64
          if flashBytes ≠ policy.flashBytes then
            .fail "image flash capacity differs from source contract"
          else
            let entryPoint := u32 (← .expect bytes[4]?) (← .expect bytes[5]?)
              (← .expect bytes[6]?) (← .expect bytes[7]?)
            pure ⟨count, chipId, revisionMin, revisionMax, flashBytes, entryPoint⟩

end Image

open Image in
/-- `verify_esp_image`. -/
def verifyEspImage (sha256Bytes : Bytes → Sha256Digest) (bytes : Bytes) (policy : EspImagePolicy) :
    Checked String EspImageFacts := do
  let header ← verifyHeader bytes policy
  let s ← readSegments bytes header.count.toNat ⟨24, 0xef, []⟩
  verifyTrailer sha256Bytes bytes s
  if ← s.segments.anyM (holdsEntry header.entryPoint) then
    pure ⟨sha256Bytes bytes, bytes.length, header.chipId, header.revisionMin, header.revisionMax,
      header.flashBytes, header.entryPoint, s.segments⟩
  else .fail "image entry point is outside its load segments"

namespace Image

/-! ### The layout of the file -/

/-- Segments that follow each other in the file, each behind its header of eight bytes. -/
def Contiguous : ℕ → List EspImageSegment → ℕ → Prop
  | start, [], stop => start = stop
  | start, segment :: rest, stop =>
    segment.fileOffset = start + 8 ∧ Contiguous (segment.fileOffset + segment.sizeBytes) rest stop

/-- The addresses of a segment. -/
def addresses (segment : EspImageSegment) : Set ℕ :=
  Set.Ico segment.loadAddress.toNat (segment.loadAddress.toNat + segment.sizeBytes)

theorem Contiguous.snoc {start cursor : ℕ} {segments : List EspImageSegment}
    (h : Contiguous start segments cursor) (segment : EspImageSegment)
    (hoffset : segment.fileOffset = cursor + 8) :
    Contiguous start (segments ++ [segment]) (segment.fileOffset + segment.sizeBytes) := by
  induction segments generalizing start with
  | nil =>
    obtain rfl : start = cursor := h
    exact ⟨hoffset, rfl⟩
  | cons first rest ih => exact ⟨h.1, ih h.2⟩

/-- The bytes of a segment. -/
def payload (bytes : Bytes) (segment : EspImageSegment) : Bytes :=
  (bytes.drop segment.fileOffset).take segment.sizeBytes

/-- What the loop over the segments has read. -/
structure Read (bytes : Bytes) (s : Cursor) : Prop where
  contiguous : Contiguous 24 s.segments s.cursor
  inside : s.cursor ≤ bytes.length
  bounded : ∀ segment ∈ s.segments, segment.loadAddress.toNat + segment.sizeBytes ≤ 2 ^ 32
  disjoint : s.segments.Pairwise fun a b => a.loadAddress ≠ 0 → a.sizeBytes ≠ 0 →
    b.loadAddress ≠ 0 → b.sizeBytes ≠ 0 → Disjoint (addresses a) (addresses b)
  checksum : s.checksum = (s.segments.flatMap (payload bytes)).foldl (· ^^^ ·) 0xef

theorem checkOverlap_returns {address : UInt32} {addressEnd : ℕ} {previous : EspImageSegment}
    (h : previous.loadAddress.toNat + previous.sizeBytes ≤ 2 ^ 32) :
    (checkOverlap address addressEnd previous).Returns := by
  unfold checkOverlap
  have hsome : (checkedAdd previous.loadAddress.toNat previous.sizeBytes).isSome := by
    rw [checkedAdd_of_lt (by omega)]
    rfl
  refine (Checked.returns_expect hsome).bind fun stop _ => ?_
  split_ifs
  · exact Checked.returns_fail _
  · exact Checked.returns_pure _

theorem checkOverlap_ok {address : UInt32} {addressEnd : ℕ} {previous : EspImageSegment}
    (h : checkOverlap address addressEnd previous = .ok ()) :
    previous.loadAddress.toNat = 0 ∨
      previous.loadAddress.toNat + previous.sizeBytes ≤ address.toNat ∨
        addressEnd ≤ previous.loadAddress.toNat := by
  unfold checkOverlap at h
  obtain ⟨stop, hstop, h⟩ := Checked.bind_eq_ok.mp h
  obtain ⟨rfl, -⟩ := checkedAdd_eq_some.mp (Checked.expect_eq_ok.mp hstop)
  split_ifs at h with hoverlap
  · cases h
  · omega

theorem checkOverlaps_returns {segments : List EspImageSegment} {address : UInt32}
    {length addressEnd : ℕ}
    (h : ∀ segment ∈ segments, segment.loadAddress.toNat + segment.sizeBytes ≤ 2 ^ 32) :
    (checkOverlaps segments address length addressEnd).Returns := by
  unfold checkOverlaps
  split
  · exact .forM fun previous hprevious => checkOverlap_returns (h previous hprevious)
  · exact Checked.returns_pure ()

theorem disjoint_of_checkOverlaps {segments : List EspImageSegment} {address : UInt32}
    {length offset : ℕ} {previous : EspImageSegment}
    (h : checkOverlaps segments address length (address.toNat + length) = .ok ())
    (hprevious : previous ∈ segments) (hloaded : previous.loadAddress ≠ 0) (haddress : address ≠ 0)
    (hlength : length ≠ 0) : Disjoint (addresses previous) (addresses ⟨address, offset, length⟩) := by
  unfold checkOverlaps at h
  rw [if_pos ⟨haddress, hlength⟩] at h
  have hstart : previous.loadAddress.toNat ≠ 0 := fun hzero => hloaded (UInt32.toNat_inj.mp hzero)
  have happart := checkOverlap_ok (Except.forM_ok h previous hprevious)
  refine Set.disjoint_left.mpr fun a ha hb => ?_
  have hleft := Set.mem_Ico.mp ha
  have hright := Set.mem_Ico.mp hb
  dsimp only at hright
  omega

theorem readSegment_returns {bytes : Bytes} {s : Cursor} (h : Read bytes s) :
    (readSegment bytes s).Returns := by
  unfold readSegment
  refine (Checked.returns_okOr _ _).bind fun headerEnd hend => ?_
  refine (Checked.returns_okOr _ _).bind fun header hheader => ?_
  obtain ⟨rfl, -⟩ := checkedAdd_eq_some.mp (Checked.okOr_eq_ok.mp hend)
  have hlength : header.length = 8 := by
    rw [length_of_getRange (Checked.okOr_eq_ok.mp hheader)]
    omega
  have hbyte : ∀ i < 8, (header[i]?).isSome := fun i hi => by simp [hlength, hi]
  refine (Checked.returns_expect (hbyte 0 (by decide))).bind fun b0 _ => ?_
  refine (Checked.returns_expect (hbyte 1 (by decide))).bind fun b1 _ => ?_
  refine (Checked.returns_expect (hbyte 2 (by decide))).bind fun b2 _ => ?_
  refine (Checked.returns_expect (hbyte 3 (by decide))).bind fun b3 _ => ?_
  refine (Checked.returns_expect (hbyte 4 (by decide))).bind fun b4 _ => ?_
  refine (Checked.returns_expect (hbyte 5 (by decide))).bind fun b5 _ => ?_
  refine (Checked.returns_expect (hbyte 6 (by decide))).bind fun b6 _ => ?_
  refine (Checked.returns_expect (hbyte 7 (by decide))).bind fun b7 _ => ?_
  dsimp only
  split
  · exact Checked.returns_fail _
  refine (Checked.returns_okOr _ _).bind fun stop _ => ?_
  refine (Checked.returns_okOr _ _).bind fun payload _ => ?_
  -- Two words of 32 bits do not overflow one of 64.
  have hadd : (checkedAdd (u32 b0 b1 b2 b3).toNat (u32 b4 b5 b6 b7).toNat).isSome := by
    have haddress := (u32 b0 b1 b2 b3).toNat_lt
    have hsize := (u32 b4 b5 b6 b7).toNat_lt
    rw [checkedAdd_of_lt (by omega)]
    rfl
  refine (Checked.returns_expect hadd).bind fun addressEnd _ => ?_
  split
  · exact Checked.returns_fail _
  · exact (checkOverlaps_returns h.bounded).bind fun _ _ => Checked.returns_pure _

/-- **One segment**: it follows the previous ones in the file, and overlaps none of them. -/
theorem readSegment_read {bytes : Bytes} {s s' : Cursor} (hs : Read bytes s)
    (h : readSegment bytes s = .ok s') : Read bytes s' := by
  unfold readSegment at h
  obtain ⟨headerEnd, hend, h⟩ := Checked.bind_eq_ok.mp h
  obtain ⟨header, hheader, h⟩ := Checked.bind_eq_ok.mp h
  obtain ⟨rfl, -⟩ := checkedAdd_eq_some.mp (Checked.okOr_eq_ok.mp hend)
  obtain ⟨b0, -, h⟩ := Checked.bind_eq_ok.mp h
  obtain ⟨b1, -, h⟩ := Checked.bind_eq_ok.mp h
  obtain ⟨b2, -, h⟩ := Checked.bind_eq_ok.mp h
  obtain ⟨b3, -, h⟩ := Checked.bind_eq_ok.mp h
  obtain ⟨b4, -, h⟩ := Checked.bind_eq_ok.mp h
  obtain ⟨b5, -, h⟩ := Checked.bind_eq_ok.mp h
  obtain ⟨b6, -, h⟩ := Checked.bind_eq_ok.mp h
  obtain ⟨b7, -, h⟩ := Checked.bind_eq_ok.mp h
  generalize u32 b0 b1 b2 b3 = address at h
  generalize u32 b4 b5 b6 b7 = length at h
  dsimp only at h
  split at h
  · cases h
  obtain ⟨stop, hstop, h⟩ := Checked.bind_eq_ok.mp h
  obtain ⟨payload, hpayload, h⟩ := Checked.bind_eq_ok.mp h
  obtain ⟨addressEnd, hadd, h⟩ := Checked.bind_eq_ok.mp h
  obtain ⟨rfl, -⟩ := checkedAdd_eq_some.mp (Checked.okOr_eq_ok.mp hstop)
  obtain ⟨rfl, -⟩ := checkedAdd_eq_some.mp (Checked.expect_eq_ok.mp hadd)
  obtain ⟨-, hinside, hbytes⟩ := getRange_eq_some.mp (Checked.okOr_eq_ok.mp hpayload)
  split at h
  · cases h
  next hbound =>
  obtain ⟨⟨⟩, hoverlaps, h⟩ := Checked.bind_eq_ok.mp h
  obtain rfl := Except.ok.inj h
  refine ⟨hs.contiguous.snoc _ rfl, hinside, ?_, ?_, ?_⟩
  · intro segment hsegment
    rcases List.mem_append.mp hsegment with hsegment | hsegment
    · exact hs.bounded segment hsegment
    · obtain rfl := List.mem_singleton.mp hsegment
      exact Nat.not_lt.mp hbound
  · refine List.pairwise_append.mpr ⟨hs.disjoint, List.pairwise_singleton _ _, ?_⟩
    intro a ha b hb haddress _ haddress' hsize'
    obtain rfl := List.mem_singleton.mp hb
    exact disjoint_of_checkOverlaps hoverlaps ha haddress haddress' hsize'
  · rw [List.flatMap_append, List.foldl_append, ← hs.checksum, List.flatMap_singleton]
    rw [hbytes, Nat.add_sub_cancel_left]
    rfl

theorem readSegments_returns {bytes : Bytes} {count : ℕ} {s : Cursor} (h : Read bytes s) :
    (readSegments bytes count s).Returns := by
  induction count generalizing s with
  | zero => exact Checked.returns_pure s
  | succ count ih => exact (readSegment_returns h).bind fun s' hs' => ih (readSegment_read h hs')

/-- **All segments.** -/
theorem readSegments_read {bytes : Bytes} {count : ℕ} {s s' : Cursor} (hs : Read bytes s)
    (h : readSegments bytes count s = .ok s') : Read bytes s' := by
  induction count generalizing s with
  | zero =>
    obtain rfl := Except.ok.inj h
    exact hs
  | succ count ih =>
    obtain ⟨s₁, hs₁, h⟩ := Checked.bind_eq_ok.mp h
    exact ih (readSegment_read hs hs₁) h

theorem matchesByte_returns (hex : (UInt8 × UInt8) × UInt8) : (matchesByte hex).Returns := by
  have hdigit : ∀ n < 16, (hexTable[n]?).isSome := by decide
  have hhigh : (hex.2 >>> 4).toNat < 16 := by
    rw [UInt8.toNat_shiftRight]
    have := hex.2.toNat_lt
    change hex.2.toNat >>> 4 < 16
    rw [Nat.shiftRight_eq_div_pow]
    omega
  have hlow : (hex.2 &&& 15).toNat < 16 := by
    rw [UInt8.toNat_and]
    exact Nat.lt_of_le_of_lt Nat.and_le_right (by decide)
  refine (Checked.returns_expect (hdigit _ hhigh)).bind fun high _ => ?_
  exact (Checked.returns_expect (hdigit _ hlow)).bind fun low _ => Checked.returns_pure _

theorem holdsEntry_returns {entryPoint : UInt32} {segment : EspImageSegment}
    (h : segment.loadAddress.toNat + segment.sizeBytes ≤ 2 ^ 32) :
    (holdsEntry entryPoint segment).Returns := by
  have hsome : (checkedAdd segment.loadAddress.toNat segment.sizeBytes).isSome := by
    rw [checkedAdd_of_lt (by omega)]
    rfl
  unfold holdsEntry
  split
  · exact (Checked.returns_expect hsome).bind fun stop _ => Checked.returns_pure _
  · exact Checked.returns_pure _

theorem holdsEntry_true {entryPoint : UInt32} {segment : EspImageSegment}
    (h : holdsEntry entryPoint segment = .ok true) :
    segment.loadAddress ≠ 0 ∧ entryPoint.toNat ∈ addresses segment := by
  unfold holdsEntry at h
  split at h
  next hstart =>
    obtain ⟨stop, hstop, h⟩ := Checked.bind_eq_ok.mp h
    obtain ⟨rfl, -⟩ := checkedAdd_eq_some.mp (Checked.expect_eq_ok.mp hstop)
    exact ⟨hstart.1, hstart.2, of_decide_eq_true (Except.ok.inj h)⟩
  next => cases h

variable {sha256Bytes : Bytes → Sha256Digest} {bytes : Bytes} {policy : EspImagePolicy}

theorem verifyTrailer_returns (s : Cursor) : (verifyTrailer sha256Bytes bytes s).Returns := by
  unfold verifyTrailer
  refine (Checked.returns_okOr _ _).bind fun digestOffset hdigest => ?_
  split
  · exact Checked.returns_fail _
  refine (Checked.returns_okOr _ _).bind fun padding _ => ?_
  split
  · exact Checked.returns_fail _
  refine (Checked.returns_okOr _ _).bind fun stop hstop => ?_
  obtain ⟨rfl, -⟩ := checkedAdd_eq_some.mp (Checked.okOr_eq_ok.mp hstop)
  split
  · exact Checked.returns_fail _
  next hlength =>
  have hle : digestOffset ≤ bytes.length := by omega
  refine (Checked.returns_expect (getRange_isSome (Nat.zero_le _) hle)).bind fun hashed _ => ?_
  refine (Checked.returns_expect (getRange_isSome hle le_rfl)).bind fun stored _ => ?_
  refine (Checked.Returns.allM fun hex _ => matchesByte_returns hex).bind fun found _ => ?_
  cases found with
  | true => exact Checked.returns_pure ()
  | false => exact Checked.returns_fail _

/-- What stands behind the segments: zeros, the checksum in the last byte of a block of sixteen, and
the digest. -/
theorem verifyTrailer_ok {s : Cursor} (h : verifyTrailer sha256Bytes bytes s = .ok ()) :
    bytes.length = (s.cursor ||| 15) + 1 + 32 ∧
      (∀ b ∈ (bytes.drop s.cursor).take ((s.cursor ||| 15) - s.cursor), b = 0) ∧
        bytes[s.cursor ||| 15]? = some s.checksum := by
  unfold verifyTrailer at h
  obtain ⟨digestOffset, hdigest, h⟩ := Checked.bind_eq_ok.mp h
  split at h
  · cases h
  next hchecksum =>
  obtain ⟨padding, hpadding, h⟩ := Checked.bind_eq_ok.mp h
  split at h
  · cases h
  next hzero =>
  obtain ⟨stop, hstop, h⟩ := Checked.bind_eq_ok.mp h
  split at h
  · cases h
  next hlength =>
  obtain ⟨rfl, -⟩ := checkedAdd_eq_some.mp (Checked.okOr_eq_ok.mp hdigest)
  obtain ⟨rfl, -⟩ := checkedAdd_eq_some.mp (Checked.okOr_eq_ok.mp hstop)
  obtain ⟨-, -, rfl⟩ := getRange_eq_some.mp (Checked.okOr_eq_ok.mp hpadding)
  refine ⟨not_not.mp hlength, fun b hb => ?_, not_not.mp hchecksum⟩
  by_contra hne
  exact hzero (List.any_eq_true.mpr ⟨b, hb, decide_eq_true hne⟩)

theorem read_start (h : 24 ≤ bytes.length) : Read bytes ⟨24, 0xef, []⟩ :=
  ⟨rfl, h, nofun, List.Pairwise.nil, rfl⟩

theorem length_of_verifyHeader {header : Header} (h : verifyHeader bytes policy = .ok header) :
    24 ≤ bytes.length := by
  unfold verifyHeader at h
  split at h
  · cases h
  split at h
  · cases h
  · omega

theorem verifyHeader_returns : (verifyHeader bytes policy).Returns := by
  unfold verifyHeader
  split
  · exact Checked.returns_fail _
  split
  · exact Checked.returns_fail _
  next hlength =>
  have hexpect : ∀ i < 24, (Checked.expect bytes[i]? : Checked String UInt8).Returns := by
    intro i hi
    refine Checked.returns_expect ?_
    rw [List.getElem?_eq_getElem (by omega)]
    rfl
  refine (hexpect 1 (by decide)).bind fun count _ => ?_
  refine (hexpect 0 (by decide)).bind fun magic _ => ?_
  refine (hexpect 2 (by decide)).bind fun mode _ => ?_
  split
  · exact Checked.returns_fail _
  refine (hexpect 23 (by decide)).bind fun appended _ => ?_
  refine (Checked.returns_expect (getRange_isSome (by decide) (by omega))).bind fun reserved _ => ?_
  split
  · exact Checked.returns_fail _
  refine (hexpect 12 (by decide)).bind fun _ _ => (hexpect 13 (by decide)).bind fun _ _ => ?_
  refine (hexpect 15 (by decide)).bind fun _ _ => (hexpect 16 (by decide)).bind fun _ _ => ?_
  refine (hexpect 17 (by decide)).bind fun _ _ => (hexpect 18 (by decide)).bind fun _ _ => ?_
  dsimp only
  split
  · exact Checked.returns_fail _
  split
  · exact Checked.returns_fail _
  refine (hexpect 3 (by decide)).bind fun mode _ => ?_
  split
  · exact Checked.returns_fail _
  split
  · exact Checked.returns_fail _
  refine (hexpect 4 (by decide)).bind fun _ _ => (hexpect 5 (by decide)).bind fun _ _ => ?_
  refine (hexpect 6 (by decide)).bind fun _ _ => (hexpect 7 (by decide)).bind fun _ _ => ?_
  exact Checked.returns_pure _

end Image

open Image

variable {sha256Bytes : Bytes → Sha256Digest} {bytes : Bytes} {policy : EspImagePolicy}

/-- **The verifier returns on every byte string.** -/
theorem verifyEspImage_returns : (verifyEspImage sha256Bytes bytes policy).Returns := by
  refine verifyHeader_returns.bind fun header hheader => ?_
  have hstart := read_start (length_of_verifyHeader hheader)
  refine (readSegments_returns hstart).bind fun s hs => ?_
  refine (verifyTrailer_returns s).bind fun _ _ => ?_
  refine Checked.Returns.bind (.anyM fun segment hsegment => holdsEntry_returns
    ((readSegments_read hstart hs).bounded segment hsegment)) fun found _ => ?_
  cases found with
  | true => exact Checked.returns_pure _
  | false => exact Checked.returns_fail _

end Esp

end ArosTools
