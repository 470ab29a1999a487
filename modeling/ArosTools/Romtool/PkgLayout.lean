import ArosTools.Romtool.Pkg
import Mathlib.Order.Bounds.Basic

/-!
# The byte layout of a package

`serialize` is to write the bytes of the historic packer, which encodes a path in ISO-8859-1 and
pads these bytes. The width of the path field is computed from the UTF-8 encoding instead, where a
character from `0x80` on has two bytes.

* `utf8ByteSize_latin1` : the difference between the two encodings.
* `serialize_reference_iff` : exactly when the container is the one of the reference layout.
-/

namespace ArosTools

namespace Pkg

/-- The least multiple of four greater than the number of characters of a path. -/
def referencePathLen (path : String) : ℕ := (path.toList.length + 4) / 4 * 4

/-- The number of characters of a path that are not in ASCII. -/
def nonAscii (path : String) : ℕ := path.toList.countP fun c => 0x80 ≤ c.toNat

/-- A member whose path field has the given width. -/
def referenceEntry (entry : Entry) : List UInt8 :=
  beBytes 4 (referencePathLen entry.path - 1) ++
    (latin1 entry.path ++
      List.replicate (referencePathLen entry.path - entry.path.toList.length) 0) ++
    beBytes 4 entry.data.length ++ entry.data

/-- The container of the reference layout. -/
def reference (entries : List Entry) : List UInt8 :=
  magic ++ [version] ++ beBytes 4 (headerLen + (entries.flatMap referenceEntry).length) ++
    entries.flatMap referenceEntry

variable {path : String}

theorem utf8Size_latin1 {c : Char} (h : c.toNat < 0x100) :
    c.utf8Size = if 0x80 ≤ c.toNat then 2 else 1 := by
  have hval : c.val.toNat = c.toNat := rfl
  split_ifs with hhigh
  · refine Char.utf8Size_eq_two_iff.mpr ⟨?_, ?_⟩
    · rw [UInt32.lt_iff_toNat_lt, hval]
      exact hhigh
    · rw [UInt32.le_iff_toNat_le, hval]
      exact Nat.le_of_lt (h.trans (by decide))
  · refine Char.utf8Size_eq_one_iff.mpr ?_
    rw [UInt32.le_iff_toNat_le, hval]
    exact Nat.le_of_lt_succ (Nat.not_le.mp hhigh)

theorem utf8ByteSize_ofList (chars : List Char) (h : ∀ c ∈ chars, c.toNat < 0x100) :
    (String.ofList chars).utf8ByteSize =
      chars.length + chars.countP fun c => 0x80 ≤ c.toNat := by
  induction chars with
  | nil => rfl
  | cons c chars ih =>
    have hsplit : String.ofList (c :: chars) = String.singleton c ++ String.ofList chars := by
      apply String.toList_inj.mp
      simp
    have hrest := ih fun d hd => h d (List.mem_cons_of_mem c hd)
    rw [hsplit, String.utf8ByteSize_append, String.utf8ByteSize_singleton, hrest,
      utf8Size_latin1 (h c (by simp)), List.length_cons, List.countP_cons]
    split_ifs with hhigh hsame hsame
    · omega
    · exact absurd (decide_eq_true hhigh) hsame
    · exact absurd (of_decide_eq_true hsame) hhigh
    · omega

/-- The UTF-8 encoding has one byte more for each character that is not in ASCII. -/
theorem utf8ByteSize_latin1 (h : Latin1Path path) :
    path.utf8ByteSize = path.toList.length + nonAscii path := by
  have hsize := utf8ByteSize_ofList path.toList fun c hc => (h c hc).2
  rwa [String.ofList_toList] at hsize

theorem referencePathLen_le (h : Latin1Path path) : referencePathLen path ≤ paddedPathLen path := by
  have hsize := utf8ByteSize_latin1 h
  unfold referencePathLen paddedPathLen
  omega

theorem paddedPathLen_eq_iff (h : Latin1Path path) :
    paddedPathLen path = referencePathLen path ↔ path.toList.length % 4 + nonAscii path < 4 := by
  have hsize := utf8ByteSize_latin1 h
  unfold referencePathLen paddedPathLen
  omega

theorem isLeast_referencePathLen (path : String) :
    IsLeast {width | 4 ∣ width ∧ path.toList.length < width} (referencePathLen path) := by
  refine ⟨⟨Dvd.intro_left _ rfl, ?_⟩, fun width hwidth => ?_⟩
  · unfold referencePathLen
    omega
  · obtain ⟨⟨k, rfl⟩, hlt⟩ := hwidth
    unfold referencePathLen
    omega

theorem length_entryBytes (entry : Entry) :
    (entryBytes entry).length = paddedPathLen entry.path + (8 + entry.data.length) := by
  rw [entryBytes_eq]
  simp only [List.length_append, length_beBytes, length_pathField]
  omega

theorem length_referenceEntry (entry : Entry) :
    (referenceEntry entry).length = referencePathLen entry.path + (8 + entry.data.length) := by
  have hlt := (isLeast_referencePathLen entry.path).1.2
  simp only [referenceEntry, latin1, List.length_append, length_beBytes, List.length_map,
    List.length_replicate]
  omega

theorem entryBytes_eq_reference {entry : Entry}
    (h : paddedPathLen entry.path = referencePathLen entry.path) :
    entryBytes entry = referenceEntry entry := by
  rw [entryBytes_eq, pathField, referenceEntry, h]

/-- Members that are together as long as in the reference layout are so one by one. -/
theorem padded_eq_of_length_le : ∀ {entries : List Entry}, (∀ e ∈ entries, Latin1Path e.path) →
    (entries.flatMap entryBytes).length ≤ (entries.flatMap referenceEntry).length →
    ∀ e ∈ entries, paddedPathLen e.path = referencePathLen e.path := by
  intro entries
  induction entries with
  | nil => exact fun _ _ e he => nomatch he
  | cons entry entries ih =>
    intro hlatin hlength e he
    have hle : ∀ l : List Entry, (∀ e ∈ l, Latin1Path e.path) →
        (l.flatMap referenceEntry).length ≤ (l.flatMap entryBytes).length := by
      intro l hl
      induction l with
      | nil => exact Nat.le_refl _
      | cons a l ihl =>
        have ha := referencePathLen_le (hl a (by simp))
        have hrest := ihl fun e he => hl e (List.mem_cons_of_mem a he)
        rw [List.flatMap_cons, List.flatMap_cons, List.length_append, List.length_append,
          length_entryBytes, length_referenceEntry]
        omega
    have hfirst := referencePathLen_le (hlatin entry (by simp))
    have hlatin' : ∀ e ∈ entries, Latin1Path e.path :=
      fun e he => hlatin e (List.mem_cons_of_mem entry he)
    have hrest := hle entries hlatin'
    rw [List.flatMap_cons, List.flatMap_cons, List.length_append, List.length_append,
      length_entryBytes, length_referenceEntry] at hlength
    rcases List.mem_cons.mp he with rfl | he
    · omega
    · exact ih hlatin' (by omega) e he

/-- **Exactly when the container has the reference layout.** The path field always holds the
ISO-8859-1 bytes of the path and then NULs. Its width is the least multiple of four that leaves room
for a NUL, and the container that of the reference layout, unless the characters that are not in
ASCII lift the width over the next multiple. -/
theorem serialize_reference_iff {entries : List Entry} {b : List UInt8}
    (hlatin : ∀ e ∈ entries, Latin1Path e.path) (h : serialize entries = .ok b) :
    b = magic ++ [version] ++ beBytes 4 b.length ++ entries.flatMap (fun e =>
        beBytes 4 ((pathField e.path).length - 1) ++ pathField e.path ++
          beBytes 4 e.data.length ++ e.data) ∧
      (∀ e ∈ entries, ∃ count, pathField e.path = latin1 e.path ++ List.replicate count 0) ∧
      ((∀ e ∈ entries, IsLeast {width | 4 ∣ width ∧ (latin1 e.path).length < width}
          (pathField e.path).length) ↔
        ∀ e ∈ entries, e.path.toList.length % 4 + nonAscii e.path < 4) ∧
      (b = reference entries ↔
        ∀ e ∈ entries, e.path.toList.length % 4 + nonAscii e.path < 4) := by
  obtain ⟨hb, -⟩ := serialize_ok h
  have hmember : ∀ e : Entry, beBytes 4 ((pathField e.path).length - 1) ++ pathField e.path ++
      beBytes 4 e.data.length ++ e.data = entryBytes e := by
    intro e
    rw [length_pathField, entryBytes_eq]
  have hpadded : (∀ e ∈ entries, paddedPathLen e.path = referencePathLen e.path) ↔
      ∀ e ∈ entries, e.path.toList.length % 4 + nonAscii e.path < 4 :=
    forall₂_congr fun e he => paddedPathLen_eq_iff (hlatin e he)
  refine ⟨?_, fun e _ => ⟨_, rfl⟩, ?_, ?_⟩
  · simp only [hmember]
    exact hb
  · rw [← hpadded]
    refine forall₂_congr fun e he => ?_
    have hleast := isLeast_referencePathLen e.path
    rw [length_pathField, latin1, List.length_map]
    exact ⟨fun h => h.unique hleast, fun h => h ▸ hleast⟩
  · rw [← hpadded]
    constructor
    · -- The path fields are never narrower, so one that is wider would make the container longer.
      intro hreference
      refine padded_eq_of_length_le hlatin ?_
      have hlength := congrArg List.length hb
      rw [hreference] at hlength
      simp only [reference, List.length_append, length_beBytes] at hlength
      omega
    · intro hsame
      have hbody : entries.flatMap entryBytes = entries.flatMap referenceEntry := by
        rw [List.flatMap_def, List.flatMap_def,
          List.map_congr_left fun e he => entryBytes_eq_reference (hsame e he)]
      have hlength := congrArg List.length hb
      simp only [List.length_append, length_beBytes, magic, List.length_cons, List.length_nil,
        hbody] at hlength
      rw [hb, hbody, reference, hlength]
      rfl

/-- The member of the format's description. -/
def fooEntry : Entry := ⟨"foo", [0x62, 0x61, 0x72, 0x62, 0x61, 0x72, 0x62, 0x61]⟩

theorem serialize_reference_iff_foo :
    magic ++ [version] ++ beBytes 4 28 ++ beBytes 4 3 ++ [0x66, 0x6f, 0x6f, 0] ++ beBytes 4 8 ++
      [0x62, 0x61, 0x72, 0x62, 0x61, 0x72, 0x62, 0x61] = reference [fooEntry] := by
  have hserialize : serialize [fooEntry] = .ok (magic ++ [version] ++ beBytes 4 28 ++ beBytes 4 3 ++
      [0x66, 0x6f, 0x6f, 0] ++ beBytes 4 8 ++
      [0x62, 0x61, 0x72, 0x62, 0x61, 0x72, 0x62, 0x61]) := by decide
  refine (serialize_reference_iff ?_ hserialize).2.2.2.mpr ?_
  · simp [Latin1Path, fooEntry]
  · decide

/-- The path `abé` has three bytes in ISO-8859-1, and its field eight where four are enough. -/
theorem serialize_not_reference :
    Latin1Path "ab\u00e9" ∧
      serialize [⟨"ab\u00e9", []⟩] = .ok (magic ++ [version] ++ beBytes 4 24 ++ beBytes 4 7 ++
        [0x61, 0x62, 0xe9, 0, 0, 0, 0, 0] ++ beBytes 4 0) ∧
      reference [⟨"ab\u00e9", []⟩] = magic ++ [version] ++ beBytes 4 20 ++ beBytes 4 3 ++
        [0x61, 0x62, 0xe9, 0] ++ beBytes 4 0 := by
  refine ⟨?_, by decide, by decide⟩
  simp [Latin1Path]

end Pkg

end ArosTools
