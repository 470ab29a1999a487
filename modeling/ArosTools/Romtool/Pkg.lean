import ArosTools.Bytes.Basic

/-!
# The kickstart package container

`serialize` and `parse` of the `PKG` format: a header with the container's size, then for every
member its padded path field and its payload, each behind a big-endian length word.

* `parse_serialize` — a serialized package parses back to its members;
* `parse_returns` — `parse` returns on every byte string, without a panic;
* `pkg_round_trip` — both, and that parsing is stable under serializing again.
-/

namespace ArosTools

namespace Pkg

/-- Magic bytes at the start of every package. -/
def magic : List UInt8 := [0x50, 0x4b, 0x47]

/-- The only container version. -/
def version : UInt8 := 1

/-- Length of the container header in bytes. -/
def headerLen : ℕ := 8

/-- A member of a package. -/
structure Entry where
  /-- Path as recorded in the container. -/
  path : String
  /-- Raw file contents. -/
  data : List UInt8
  deriving Repr, DecidableEq

/-- Number of bytes the path field occupies, including at least one NUL terminator, rounded up
to a multiple of four (`& !3` clears the two low bits). -/
def paddedPathLen (path : String) : ℕ := (path.utf8ByteSize + 4) / 4 * 4

/-- A size as a 32-bit word, if it fits. -/
def tryU32 (n : ℕ) : Option ℕ := if n < 2 ^ 32 then some n else none

/-- Append one member to the container. -/
def serializeEntry (out : List UInt8) (entry : Entry) : Except String (List UInt8) := do
  let padded := paddedPathLen entry.path
  let pathField ← (tryU32 (padded - 1)).elim (.error ("path too long: " ++ entry.path)) .ok
  let dataLen ← (tryU32 entry.data.length).elim
    (.error ("member too large: " ++ entry.path)) .ok
  -- The historic packer encodes paths as ISO-8859-1.
  if entry.path.toList.all fun c => c.toNat < 0x100 then
    let pathBytes := entry.path.toList.map fun c => UInt8.ofNat c.toNat
    let out := out ++ beBytes 4 pathField
    let out := out ++ pathBytes
    let out := out ++ List.replicate (padded - pathBytes.length) 0
    let out := out ++ beBytes 4 dataLen
    pure (out ++ entry.data)
  else .error ("path '" ++ entry.path ++ "' is not representable in ISO-8859-1")

/-- Serialize `entries` into the container format. The size word is patched once all members
are appended. -/
def serialize (entries : List Entry) : Except String (List UInt8) := do
  let out ← entries.foldlM serializeEntry (magic ++ [version] ++ beBytes 4 0)
  let total ← (tryU32 out.length).elim (.error "package exceeds 4 GiB") .ok
  pure (out.take 4 ++ beBytes 4 total ++ out.drop headerLen)

/-- A byte in two hexadecimal digits. -/
def hexByte (b : UInt8) : String :=
  String.ofList [Nat.digitChar (b.toNat / 16), Nat.digitChar (b.toNat % 16)]

/-- A list of bytes as a debugging aid prints it. -/
def debugHex (bytes : List UInt8) : String :=
  "[" ++ ", ".intercalate (bytes.map hexByte) ++ "]"

/-- Read one big-endian word at `pos`. -/
def readU32be (bytes : List UInt8) (pos : ℕ) (what : String) : Checked String ℕ := do
  let stop ← .okOr (checkedAdd pos 4) (what ++ " field offset exceeds addressable memory")
  let slice ← .okOr (getRange bytes pos stop)
    ("truncated " ++ what ++ " field at offset " ++ toString pos)
  let b0 ← .expect slice[0]?
  let b1 ← .expect slice[1]?
  let b2 ← .expect slice[2]?
  let b3 ← .expect slice[3]?
  pure (ofBe [b0, b1, b2, b3])

/-- Read the member at `pos`; the result has the position after it. -/
def parseEntry (bytes : List UInt8) (pos : ℕ) : Checked String (Entry × ℕ) := do
  let pathLen ← readU32be bytes pos "path length"
  let pos ← .okOr (checkedAdd pos 4) "path length offset exceeds addressable memory"
  -- The field counts the padded field width minus the final NUL.
  let field ← .okOr (checkedAdd pathLen 1) "path field length exceeds addressable memory"
  let pathEnd ← .okOr (checkedAdd pos field) "path field offset exceeds addressable memory"
  let raw ← .okOr (getRange bytes pos pathEnd)
    ("truncated path field at offset " ++ toString pos)
  let nameEnd := (raw.findIdx? (· == 0)).getD raw.length
  let name ← .expect (getRange raw 0 nameEnd)
  let path := String.ofList (name.map Char.ofUInt8)
  let pos := pathEnd
  let dataLen ← readU32be bytes pos "data length"
  let pos ← .okOr (checkedAdd pos 4) "data length offset exceeds addressable memory"
  let dataEnd ← .okOr (checkedAdd pos dataLen) "payload offset exceeds addressable memory"
  let data ← .okOr (getRange bytes pos dataEnd)
    ("truncated payload for '" ++ path ++ "' at offset " ++ toString pos)
  pure (⟨path, data⟩, dataEnd)

/-- The members from `pos` on. Every member is at least nine bytes long, so the length of the
container bounds the number of rounds. -/
def parseEntries (bytes : List UInt8) : ℕ → ℕ → List Entry → Checked String (List Entry)
  | 0, _, _ => .error .diverges
  | fuel + 1, pos, entries =>
    if pos < bytes.length then do
      let (entry, pos) ← parseEntry bytes pos
      parseEntries bytes fuel pos (entries ++ [entry])
    else pure entries

/-- Parse a container. -/
def parse (bytes : List UInt8) : Checked String (List Entry) := do
  if bytes.length < headerLen then
    .fail "package is shorter than its 8-byte header"
  else do
    let found ← .expect (getRange bytes 0 3)
    if found ≠ magic then
      .fail ("bad magic " ++ debugHex found ++ ", expected " ++ debugHex magic)
    else do
      let v ← .expect bytes[3]?
      if v ≠ version then
        .fail ("unsupported package version " ++ toString v ++ ", expected 1")
      else do
        let declaredSize ← readU32be bytes 4 "package size"
        if declaredSize ≠ bytes.length then
          .fail ("package size field declares " ++ toString declaredSize ++
            " bytes, actual container has " ++ toString bytes.length)
        else parseEntries bytes bytes.length headerLen []

/-! ### `parse` returns on every byte string -/

theorem readU32be_returns (bytes : List UInt8) (pos : ℕ) (what : String) :
    (readU32be bytes pos what).Returns := by
  unfold readU32be
  refine (Checked.returns_okOr _ _).bind fun stop hstop => ?_
  refine (Checked.returns_okOr _ _).bind fun slice hslice => ?_
  obtain ⟨rfl, -⟩ := checkedAdd_eq_some.mp (Checked.okOr_eq_ok.mp hstop)
  have hlen : slice.length = 4 := by
    rw [length_of_getRange (Checked.okOr_eq_ok.mp hslice)]
    omega
  have hget : ∀ i < 4, (slice[i]?).isSome := fun i hi => by simp [hlen, hi]
  refine (Checked.returns_expect (hget 0 (by decide))).bind fun _ _ => ?_
  refine (Checked.returns_expect (hget 1 (by decide))).bind fun _ _ => ?_
  refine (Checked.returns_expect (hget 2 (by decide))).bind fun _ _ => ?_
  refine (Checked.returns_expect (hget 3 (by decide))).bind fun _ _ => ?_
  exact Checked.returns_pure _

theorem parseEntry_returns (bytes : List UInt8) (pos : ℕ) : (parseEntry bytes pos).Returns := by
  unfold parseEntry
  refine (readU32be_returns _ _ _).bind fun _ _ => ?_
  refine (Checked.returns_okOr _ _).bind fun _ _ => ?_
  refine (Checked.returns_okOr _ _).bind fun _ _ => ?_
  refine (Checked.returns_okOr _ _).bind fun _ _ => ?_
  refine (Checked.returns_okOr _ _).bind fun raw _ => ?_
  have hname : (raw.findIdx? (· == 0)).getD raw.length ≤ raw.length := by
    cases h : raw.findIdx? (· == 0) with
    | none => simp
    | some i => exact (List.findIdx?_eq_some_iff_getElem.mp h).1.le
  refine (Checked.returns_expect (getRange_isSome (Nat.zero_le _) hname)).bind fun _ _ => ?_
  refine (readU32be_returns _ _ _).bind fun _ _ => ?_
  refine (Checked.returns_okOr _ _).bind fun _ _ => ?_
  refine (Checked.returns_okOr _ _).bind fun _ _ => ?_
  refine (Checked.returns_okOr _ _).bind fun _ _ => ?_
  exact Checked.returns_pure _

/-- A path the format can carry: every character is in ISO-8859-1 and none is NUL. -/
def Latin1Path (path : String) : Prop := ∀ c ∈ path.toList, 0 < c.toNat ∧ c.toNat < 0x100

/-- What a member read at `pos` says: the cursor moves on, stays inside the container, and the
path is one the format can carry. -/
theorem parseEntry_spec {bytes : List UInt8} {pos pos' : ℕ} {entry : Entry}
    (h : parseEntry bytes pos = .ok (entry, pos')) :
    pos < pos' ∧ pos' ≤ bytes.length ∧ Latin1Path entry.path := by
  unfold parseEntry at h
  obtain ⟨pathLen, -, h⟩ := Checked.bind_eq_ok.mp h
  obtain ⟨pos₁, h₁, h⟩ := Checked.bind_eq_ok.mp h
  obtain ⟨field, -, h⟩ := Checked.bind_eq_ok.mp h
  obtain ⟨pathEnd, h₂, h⟩ := Checked.bind_eq_ok.mp h
  obtain ⟨raw, -, h⟩ := Checked.bind_eq_ok.mp h
  obtain ⟨name, hname, h⟩ := Checked.bind_eq_ok.mp h
  obtain ⟨dataLen, -, h⟩ := Checked.bind_eq_ok.mp h
  obtain ⟨pos₂, h₃, h⟩ := Checked.bind_eq_ok.mp h
  obtain ⟨dataEnd, h₄, h⟩ := Checked.bind_eq_ok.mp h
  obtain ⟨data, hdata, h⟩ := Checked.bind_eq_ok.mp h
  cases h
  obtain ⟨rfl, -⟩ := checkedAdd_eq_some.mp (Checked.okOr_eq_ok.mp h₁)
  obtain ⟨rfl, -⟩ := checkedAdd_eq_some.mp (Checked.okOr_eq_ok.mp h₂)
  obtain ⟨rfl, -⟩ := checkedAdd_eq_some.mp (Checked.okOr_eq_ok.mp h₃)
  obtain ⟨rfl, -⟩ := checkedAdd_eq_some.mp (Checked.okOr_eq_ok.mp h₄)
  obtain ⟨-, hend, -⟩ := getRange_eq_some.mp (Checked.okOr_eq_ok.mp hdata)
  refine ⟨by omega, hend, ?_⟩
  -- The name ends before the first NUL of its field.
  have hnul : ∀ b ∈ name, b ≠ 0 := by
    obtain ⟨-, -, rfl⟩ := getRange_eq_some.mp (Checked.expect_eq_ok.mp hname)
    intro b hb
    rw [List.drop_zero, Nat.sub_zero] at hb
    cases hidx : raw.findIdx? (· == 0) with
    | none =>
      rw [List.findIdx?_eq_none_iff] at hidx
      simpa using hidx b (List.mem_of_mem_take hb)
    | some i =>
      rw [hidx, Option.getD_some, List.mem_take_iff_getElem] at hb
      obtain ⟨j, hj, rfl⟩ := hb
      have hbefore := (List.findIdx?_eq_some_iff_getElem.mp hidx).2.2 j (by omega)
      simpa using hbefore
  intro c hc
  rw [String.toList_ofList] at hc
  obtain ⟨b, hb, rfl⟩ := List.mem_map.mp hc
  have hval : (Char.ofUInt8 b).toNat = b.toNat := rfl
  rw [hval]
  refine ⟨Nat.pos_of_ne_zero fun h0 => hnul b hb (UInt8.toNat_inj.mp h0), b.toNat_lt⟩

theorem parseEntries_returns {bytes : List UInt8} {fuel pos : ℕ} (entries : List Entry)
    (hpos : pos ≤ bytes.length) (h : bytes.length < fuel + pos) :
    (parseEntries bytes fuel pos entries).Returns := by
  induction fuel generalizing pos entries with
  | zero => omega
  | succ fuel ih =>
    rw [parseEntries]
    split_ifs with hlt
    · refine (parseEntry_returns bytes pos).bind fun r hr => ?_
      have hr' : parseEntry bytes pos = .ok (r.1, r.2) := hr
      obtain ⟨hmore, hle, -⟩ := parseEntry_spec hr'
      exact ih _ hle (by omega)
    · exact Checked.returns_pure entries

/-- **`parse` is total**: it returns a value or an error on every byte string. -/
theorem parse_returns (bytes : List UInt8) : (parse bytes).Returns := by
  unfold parse
  split_ifs with hlen
  · exact Checked.returns_fail _
  rw [headerLen] at hlen
  have hmagic := getRange_isSome (Nat.zero_le 3) (show 3 ≤ bytes.length by omega)
  refine (Checked.returns_expect hmagic).bind fun found _ => ?_
  split_ifs with hm
  · exact Checked.returns_fail _
  have hversion : (bytes[3]?).isSome := by
    rw [List.getElem?_eq_getElem (by omega)]
    rfl
  refine (Checked.returns_expect hversion).bind fun v _ => ?_
  split_ifs with hv
  · exact Checked.returns_fail _
  refine (readU32be_returns _ _ _).bind fun size _ => ?_
  split_ifs with hs
  · exact Checked.returns_fail _
  exact parseEntries_returns [] (by rw [headerLen]; omega) (by rw [headerLen]; omega)

theorem parseEntries_latin1 {bytes : List UInt8} {fuel pos : ℕ} {entries es : List Entry}
    (h : parseEntries bytes fuel pos entries = .ok es)
    (hentries : ∀ e ∈ entries, Latin1Path e.path) : ∀ e ∈ es, Latin1Path e.path := by
  induction fuel generalizing pos entries with
  | zero => cases h
  | succ fuel ih =>
    rw [parseEntries] at h
    split_ifs at h with hlt
    · obtain ⟨⟨entry, pos'⟩, hentry, h⟩ := Checked.bind_eq_ok.mp h
      refine ih h fun e he => ?_
      rcases List.mem_append.mp he with he | he
      · exact hentries e he
      · rw [List.mem_singleton.mp he]
        exact (parseEntry_spec hentry).2.2
    · cases h
      exact hentries

theorem parse_latin1 {bytes : List UInt8} {es : List Entry} (h : parse bytes = .ok es) :
    ∀ e ∈ es, Latin1Path e.path := by
  unfold parse at h
  split_ifs at h with hlen
  · cases h
  obtain ⟨found, -, h⟩ := Checked.bind_eq_ok.mp h
  split_ifs at h with hm
  · cases h
  obtain ⟨v, -, h⟩ := Checked.bind_eq_ok.mp h
  split_ifs at h with hv
  · cases h
  obtain ⟨size, -, h⟩ := Checked.bind_eq_ok.mp h
  split_ifs at h with hs
  · cases h
  exact parseEntries_latin1 h (by simp)

/-! ### A serialized package parses back -/

/-- The bytes of one member. -/
def entryBytes (entry : Entry) : List UInt8 :=
  beBytes 4 (paddedPathLen entry.path - 1) ++
    (entry.path.toList.map (fun c => UInt8.ofNat c.toNat) ++
      List.replicate (paddedPathLen entry.path - entry.path.toList.length) 0) ++
    beBytes 4 entry.data.length ++ entry.data

theorem tryU32_ok {n m : ℕ} {msg : String}
    (h : (tryU32 n).elim (Except.error msg) Except.ok = .ok m) : m = n ∧ n < 2 ^ 32 := by
  unfold tryU32 at h
  split_ifs at h with hn
  · cases h
    exact ⟨rfl, hn⟩
  · cases h

theorem serializeEntry_ok {out out' : List UInt8} {entry : Entry}
    (h : serializeEntry out entry = .ok out') : out' = out ++ entryBytes entry := by
  unfold serializeEntry at h
  simp only [bind, Except.bind] at h
  split at h
  · cases h
  next pathField hpath =>
  split at h
  · cases h
  next dataLen hdata =>
  obtain ⟨rfl, -⟩ := tryU32_ok hpath
  obtain ⟨rfl, -⟩ := tryU32_ok hdata
  split_ifs at h with hlatin
  cases h
  simp [entryBytes]

theorem serializeEntries_ok {out out' : List UInt8} {entries : List Entry}
    (h : entries.foldlM serializeEntry out = .ok out') :
    out' = out ++ entries.flatMap entryBytes := by
  induction entries generalizing out with
  | nil =>
    cases h
    simp
  | cons entry entries ih =>
    rw [List.foldlM_cons] at h
    cases hentry : serializeEntry out entry with
    | error e => rw [hentry] at h; cases h
    | ok mid =>
      rw [hentry] at h
      rw [ih h, serializeEntry_ok hentry, List.flatMap_cons, List.append_assoc]

/-- The container of a list of members. -/
theorem serialize_ok {entries : List Entry} {b : List UInt8} (h : serialize entries = .ok b) :
    b = magic ++ [version] ++ beBytes 4 b.length ++ entries.flatMap entryBytes ∧
      b.length < 2 ^ 32 := by
  unfold serialize at h
  simp only [bind, Except.bind] at h
  split at h
  · cases h
  next out hout =>
  split at h
  · cases h
  next total htotal =>
  obtain ⟨rfl, hlt⟩ := tryU32_ok htotal
  rw [serializeEntries_ok hout] at h hlt
  cases h
  generalize entries.flatMap entryBytes = body at hlt ⊢
  have htake : (magic ++ [version] ++ beBytes 4 0 ++ body).take 4 = magic ++ [version] := rfl
  have hdrop : (magic ++ [version] ++ beBytes 4 0 ++ body).drop headerLen = body := rfl
  have hlen : (magic ++ [version] ++ beBytes 4 0 ++ body).length = headerLen + body.length := by
    simp [magic, headerLen]
    omega
  rw [hlen] at hlt ⊢
  rw [htake, hdrop]
  have hlen' : (magic ++ [version] ++ beBytes 4 (headerLen + body.length) ++ body).length =
      headerLen + body.length := by
    simp [magic, headerLen]
    omega
  rw [hlen']
  exact ⟨rfl, hlt⟩

theorem readU32be_of_split {bytes pre post : List UInt8} {pos n : ℕ} (what : String)
    (hb : bytes = pre ++ beBytes 4 n ++ post) (hpos : pos = pre.length) (hn : n < 2 ^ 32)
    (hpre : pos + 4 < 2 ^ 64) : readU32be bytes pos what = .ok n := by
  have hrange : getRange bytes pos (pos + 4) = some (beBytes 4 n) :=
    getRange_of_split hb hpos (by rw [hpos, length_beBytes])
  unfold readU32be
  rw [checkedAdd_of_lt hpre]
  change (Checked.okOr (getRange _ _ (pos + 4)) _ >>= _) = _
  rw [hrange]
  change Except.ok (ofBe (beBytes 4 n)) = _
  rw [ofBe_beBytes hn]

theorem length_le_sum_utf8 (l : List Char) : l.length ≤ (String.ofList l).utf8ByteSize := by
  induction l with
  | nil => simp
  | cons c l ih =>
    have hsplit : String.ofList (c :: l) = String.singleton c ++ String.ofList l := by
      apply String.toList_inj.mp
      simp
    have hc := c.utf8Size_pos
    rw [hsplit, String.utf8ByteSize_append, String.utf8ByteSize_singleton, List.length_cons]
    omega

/-- A path has at most as many characters as its UTF-8 encoding has bytes, so its field always
ends with a NUL. -/
theorem length_lt_paddedPathLen (path : String) : path.toList.length < paddedPathLen path := by
  have h := length_le_sum_utf8 path.toList
  rw [String.ofList_toList] at h
  unfold paddedPathLen
  omega

/-- The path of a member in ISO-8859-1. -/
def latin1 (path : String) : List UInt8 := path.toList.map fun c => UInt8.ofNat c.toNat

/-- The path field of a member. -/
def pathField (path : String) : List UInt8 :=
  latin1 path ++ List.replicate (paddedPathLen path - path.toList.length) 0

theorem entryBytes_eq (entry : Entry) :
    entryBytes entry = beBytes 4 (paddedPathLen entry.path - 1) ++ pathField entry.path ++
      beBytes 4 entry.data.length ++ entry.data := rfl

theorem length_pathField (path : String) : (pathField path).length = paddedPathLen path := by
  have h := length_lt_paddedPathLen path
  simp only [pathField, latin1, List.length_append, List.length_map, List.length_replicate]
  omega

variable {path : String}

/-- The first NUL of the path field ends the path. -/
theorem findIdx_pathField (h : Latin1Path path) :
    (pathField path).findIdx? (· == 0) = some (latin1 path).length := by
  have hnul : ∀ b ∈ latin1 path, (b == 0) = false := by
    intro b hb
    obtain ⟨c, hc, rfl⟩ := List.mem_map.mp hb
    rw [beq_eq_false_iff_ne]
    intro h0
    have hzero := congrArg UInt8.toNat h0
    rw [UInt8.toNat_ofNat'] at hzero
    have := h c hc
    simp at hzero
    omega
  obtain ⟨k, hk⟩ : ∃ k, paddedPathLen path - path.toList.length = k + 1 :=
    Nat.exists_eq_succ_of_ne_zero (by have := length_lt_paddedPathLen path; omega)
  rw [pathField, hk, List.findIdx?_append, List.findIdx?_eq_none_iff.mpr hnul]
  rw [List.replicate_succ, List.findIdx?_cons]
  simp

theorem ofList_latin1 (h : Latin1Path path) :
    String.ofList ((latin1 path).map Char.ofUInt8) = path := by
  apply String.toList_inj.mp
  rw [String.toList_ofList, latin1, List.map_map]
  refine (List.map_congr_left fun c hc => ?_).trans (List.map_id _)
  apply Char.toNat_inj.mp
  change (UInt8.ofNat c.toNat).toNat = c.toNat
  rw [UInt8.toNat_ofNat', Nat.mod_eq_of_lt (h c hc).2]

theorem parseEntry_append {pre post : List UInt8} {entry : Entry}
    (hpath : Latin1Path entry.path) (hlen : (pre ++ entryBytes entry ++ post).length < 2 ^ 32) :
    parseEntry (pre ++ entryBytes entry ++ post) pre.length =
      .ok (entry, (pre ++ entryBytes entry).length) := by
  have hfield := length_pathField entry.path
  have hpos := length_lt_paddedPathLen entry.path
  generalize hb : pre ++ entryBytes entry ++ post = bytes at hlen ⊢
  rw [entryBytes_eq] at hb ⊢
  have hsize := congrArg List.length hb
  simp only [List.length_append, length_beBytes, hfield] at hsize
  -- The container cut at each of the four fields.
  generalize hw₁ : beBytes 4 (paddedPathLen entry.path - 1) = w₁ at hb
  generalize hw₂ : beBytes 4 entry.data.length = w₂ at hb
  have hl₁ : w₁.length = 4 := by rw [← hw₁, length_beBytes]
  have hl₂ : w₂.length = 4 := by rw [← hw₂, length_beBytes]
  generalize hf : pathField entry.path = f at hb hfield ⊢
  have hcut₁ : bytes = pre ++ w₁ ++ (f ++ w₂ ++ entry.data ++ post) := by
    rw [← hb]
    simp only [List.append_assoc]
  have hcut₂ : bytes = pre ++ w₁ ++ f ++ (w₂ ++ entry.data ++ post) := by
    rw [← hb]
    simp only [List.append_assoc]
  have hcut₃ : bytes = pre ++ w₁ ++ f ++ w₂ ++ (entry.data ++ post) := by
    rw [← hb]
    simp only [List.append_assoc]
  have hcut₄ : bytes = pre ++ w₁ ++ f ++ w₂ ++ entry.data ++ post := by
    rw [← hb]
    simp only [List.append_assoc]
  unfold parseEntry
  refine Checked.bind_eq_ok.mpr ⟨paddedPathLen entry.path - 1, ?_, ?_⟩
  · exact readU32be_of_split _ (hw₁ ▸ hcut₁) rfl (by omega) (by omega)
  refine Checked.bind_eq_ok.mpr ⟨pre.length + 4, ?_, ?_⟩
  · rw [checkedAdd_of_lt (by omega)]
    rfl
  refine Checked.bind_eq_ok.mpr ⟨paddedPathLen entry.path, ?_, ?_⟩
  · rw [checkedAdd_of_lt (by omega), Nat.sub_add_cancel (by omega)]
    rfl
  refine Checked.bind_eq_ok.mpr ⟨pre.length + 4 + paddedPathLen entry.path, ?_, ?_⟩
  · rw [checkedAdd_of_lt (by omega)]
    rfl
  refine Checked.bind_eq_ok.mpr ⟨f, ?_, ?_⟩
  · rw [getRange_of_split hcut₂ (by rw [List.length_append, hl₁])
      (by rw [List.length_append, hl₁, hfield])]
    rfl
  refine Checked.bind_eq_ok.mpr ⟨latin1 entry.path, ?_, ?_⟩
  · rw [← hf, findIdx_pathField hpath, Checked.expect_eq_ok]
    have hname : pathField entry.path = [] ++ latin1 entry.path ++
        List.replicate (paddedPathLen entry.path - entry.path.toList.length) 0 := rfl
    exact getRange_of_split hname rfl (Nat.zero_add _).symm
  refine Checked.bind_eq_ok.mpr ⟨entry.data.length, ?_, ?_⟩
  · exact readU32be_of_split _ (hw₂ ▸ hcut₃) (by simp only [List.length_append, hl₁, hfield])
      (by omega) (by omega)
  refine Checked.bind_eq_ok.mpr ⟨pre.length + 4 + paddedPathLen entry.path + 4, ?_, ?_⟩
  · rw [checkedAdd_of_lt (by omega)]
    rfl
  refine Checked.bind_eq_ok.mpr
    ⟨pre.length + 4 + paddedPathLen entry.path + 4 + entry.data.length, ?_, ?_⟩
  · rw [checkedAdd_of_lt (by omega)]
    rfl
  refine Checked.bind_eq_ok.mpr ⟨entry.data, ?_, ?_⟩
  · rw [getRange_of_split hcut₄ (by simp only [List.length_append, hl₁, hl₂, hfield])
      (by simp only [List.length_append, hl₁, hl₂, hfield])]
    rfl
  have hend : (pre ++ (w₁ ++ f ++ w₂ ++ entry.data)).length =
      pre.length + 4 + paddedPathLen entry.path + 4 + entry.data.length := by
    simp only [List.length_append, hl₁, hl₂, hfield]
    omega
  rw [ofList_latin1 hpath, hend]
  rfl

/-- The members of a container are read back from any position on. -/
theorem parseEntries_append {pre : List UInt8} {fuel : ℕ} {entries : List Entry}
    (before : List Entry) (hpath : ∀ e ∈ entries, Latin1Path e.path)
    (hlen : (pre ++ entries.flatMap entryBytes).length < 2 ^ 32)
    (hfuel : entries.length < fuel) :
    parseEntries (pre ++ entries.flatMap entryBytes) fuel pre.length before =
      .ok (before ++ entries) := by
  induction entries generalizing pre fuel before with
  | nil =>
    obtain ⟨fuel, rfl⟩ := Nat.exists_eq_succ_of_ne_zero (by omega : fuel ≠ 0)
    simp [parseEntries, pure, Except.pure]
  | cons entry entries ih =>
    obtain ⟨fuel, rfl⟩ := Nat.exists_eq_succ_of_ne_zero (by omega : fuel ≠ 0)
    rw [List.flatMap_cons, ← List.append_assoc] at hlen ⊢
    have hmore : pre.length < (pre ++ entryBytes entry ++ entries.flatMap entryBytes).length := by
      simp only [entryBytes_eq, List.length_append, length_beBytes]
      omega
    rw [parseEntries, if_pos hmore]
    refine Checked.bind_eq_ok.mpr ⟨_, parseEntry_append (hpath _ (by simp)) hlen, ?_⟩
    have hrest := ih (before ++ [entry]) (fun e he => hpath e (by simp [he])) hlen
      (Nat.lt_of_succ_lt_succ hfuel)
    exact hrest.trans (congrArg Except.ok (List.append_assoc before [entry] entries))

theorem length_le_flatMap (entries : List Entry) :
    entries.length ≤ (entries.flatMap entryBytes).length := by
  induction entries with
  | nil => simp
  | cons entry entries ih =>
    simp only [List.flatMap_cons, List.length_append, List.length_cons, entryBytes_eq,
      length_beBytes]
    omega

theorem parse_serialize {entries : List Entry} {b : List UInt8}
    (hpath : ∀ e ∈ entries, Latin1Path e.path) (h : serialize entries = .ok b) :
    parse b = .ok entries := by
  obtain ⟨hb, hlt⟩ := serialize_ok h
  have hcount := length_le_flatMap entries
  have hsize := congrArg List.length hb
  simp only [magic, List.length_append, List.length_cons, List.length_nil, length_beBytes]
    at hsize
  unfold parse
  rw [if_neg (by rw [headerLen]; omega)]
  refine Checked.bind_eq_ok.mpr ⟨magic, ?_, ?_⟩
  · rw [hb]
    rfl
  rw [if_neg (by simp)]
  refine Checked.bind_eq_ok.mpr ⟨version, ?_, ?_⟩
  · rw [hb]
    rfl
  rw [if_neg (by simp)]
  refine Checked.bind_eq_ok.mpr ⟨b.length, readU32be_of_split _ hb rfl hlt (by decide), ?_⟩
  rw [if_neg (by simp)]
  generalize hpre : magic ++ [version] ++ beBytes 4 b.length = pre at hb
  have hlenpre : pre.length = headerLen := by
    rw [← hpre]
    rfl
  have hrun := parseEntries_append [] hpath (hb ▸ hlt)
    (show entries.length < b.length by omega)
  rw [← hb, hlenpre] at hrun
  exact hrun

/-- **The container round trip.** Members with representable paths come back from their
container in order; `parse` returns on every byte string; and what `parse` accepts is not changed
by serializing and parsing it again. -/
theorem pkg_round_trip :
    (∀ entries b, (∀ e ∈ entries, Latin1Path e.path) → serialize entries = .ok b →
      parse b = .ok entries) ∧
    (∀ b, (∃ entries, parse b = .ok entries) ∨ ∃ msg, parse b = .error (.error msg)) ∧
    (∀ b entries b', parse b = .ok entries → serialize entries = .ok b' →
      parse b' = .ok entries) := by
  refine ⟨fun entries b hpath h => parse_serialize hpath h, parse_returns, ?_⟩
  intro b entries b' hparse hserialize
  exact parse_serialize (parse_latin1 hparse) hserialize

/-- The example of the format's description. -/
theorem pkg_round_trip_example :
    parse (magic ++ [version] ++ beBytes 4 28 ++ beBytes 4 3 ++ [0x66, 0x6f, 0x6f, 0] ++
      beBytes 4 8 ++ [0x62, 0x61, 0x72, 0x62, 0x61, 0x72, 0x62, 0x61]) =
    .ok [⟨"foo", [0x62, 0x61, 0x72, 0x62, 0x61, 0x72, 0x62, 0x61]⟩] := by
  apply pkg_round_trip.1
  · simp [Latin1Path]
  · decide

end Pkg

end ArosTools
