import ArosTools.Toolchain.PayloadArchive

/-!
# Reading back what was written

A header that `write_tar_header` writes is read back field by field (`writeTarHeader_reads`), a PAX
record is parsed back (`paxRecord_text`), and a whole member is read as the entries that describe it
(`writePaxEntry_spells`).
-/

namespace ArosTools

namespace Toolchain

/-! ### Octal numbers -/

theorem length_octalDigits (w n : ℕ) : (octalDigits w n).length = w := by
  induction w generalizing n with
  | zero => rfl
  | succ w ih => rw [octalDigits, List.length_append, ih, List.length_singleton]

theorem readDigits_concat (radix n : ℕ) (text : Bytes) (b : UInt8) :
    readDigits radix n (text ++ [b]) = (readDigits radix n text).bind fun m =>
      (digitOf radix b).map fun d => m * radix + d := by
  induction text generalizing n with
  | nil =>
    simp only [List.nil_append, readDigits, bind, Option.bind_some]
    cases digitOf radix b <;> rfl
  | cons c text ih =>
    simp only [List.cons_append, readDigits, bind]
    cases digitOf radix c with
    | none => rfl
    | some d => exact ih _

theorem digitOf_octal {d : ℕ} (h : d < 8) : digitOf 8 (UInt8.ofNat (0x30 + d)) = some d := by
  interval_cases d <;> rfl

theorem readDigits_octalDigits {w n : ℕ} (h : n < 8 ^ w) :
    readDigits 8 0 (octalDigits w n) = some n := by
  induction w generalizing n with
  | zero =>
    have : n = 0 := by simpa using h
    rw [this]
    rfl
  | succ w ih =>
    have hdiv : n / 8 < 8 ^ w := Nat.div_lt_of_lt_mul (by rw [Nat.pow_succ] at h; omega)
    rw [octalDigits, readDigits_concat, ih hdiv, digitOf_octal (Nat.mod_lt _ (by decide))]
    simp only [Option.bind_some, Option.map_some, Option.some.injEq]
    omega

/-- Octal text is made of digits. -/
theorem digit_of_mem_octalDigits {w n : ℕ} {b : UInt8} (h : b ∈ octalDigits w n) :
    0x30 ≤ b ∧ b ≤ 0x37 := by
  induction w generalizing n with
  | zero => cases h
  | succ w ih =>
    rw [octalDigits, List.mem_append, List.mem_singleton] at h
    rcases h with h | rfl
    · exact ih h
    · have hmod : n % 8 < 8 := Nat.mod_lt _ (by decide)
      generalize n % 8 = d at hmod
      interval_cases d <;> decide

theorem parseUnsigned_octalDigits {w n : ℕ} (hw : w ≠ 0) (h : n < 8 ^ w) (hlimit : n < 2 ^ 64) :
    parseUnsigned 8 (2 ^ 64) (octalDigits w n) = some n := by
  have hne : octalDigits w n ≠ [] := by
    intro hnil
    have := length_octalDigits w n
    rw [hnil] at this
    exact hw this.symm
  have hstrip : stripPlus (octalDigits w n) = octalDigits w n := by
    cases hdigits : octalDigits w n with
    | nil => rfl
    | cons b rest =>
      have hb := digit_of_mem_octalDigits (w := w) (n := n) (b := b) (by rw [hdigits]; exact .head _)
      rw [stripPlus, if_neg]
      rintro rfl
      exact absurd hb.1 (by decide)
  rw [parseUnsigned, hstrip, if_neg hne, readDigits_octalDigits h, Option.filter_some,
    if_pos (decide_eq_true hlimit)]

theorem dropWhile_isSpace {text : Bytes} (h : ∀ b ∈ text, 0x30 ≤ b) :
    text.dropWhile Ustar.isSpace = text := by
  cases text with
  | nil => rfl
  | cons b rest =>
    have hb : (0x30 : UInt8) ≤ b := h b (.head _)
    have hspace : Ustar.isSpace b = false := by
      have h₁ : b ≠ 0x20 := by
        rintro rfl
        exact absurd hb (by decide)
      have h₂ : ¬ b ≤ 0x0d := fun hle => absurd (UInt8.le_trans hb hle) (by decide)
      simp [Ustar.isSpace, h₁, h₂]
    rw [List.dropWhile_cons, hspace]
    simp

/-- A number field is read back. -/
theorem number_of_field {offset width w n : ℕ} {block end_ : Bytes}
    (hfield : Ustar.field offset width block = octalDigits w n ++ 0 :: end_)
    (hw : w ≠ 0) (h : n < 8 ^ w) (hlimit : n < 2 ^ 64) :
    Ustar.number offset width block = some n := by
  have hdigits : ∀ b ∈ octalDigits w n, 0x30 ≤ b := fun b hb => (digit_of_mem_octalDigits hb).1
  have htext : Ustar.text offset width block = octalDigits w n := by
    rw [Ustar.text, hfield, List.takeWhile_append_of_pos]
    · simp
    · intro b hb
      refine decide_eq_true ?_
      rintro rfl
      exact absurd (hdigits 0 hb) (by decide)
  rw [Ustar.number, htext, dropWhile_isSpace hdigits,
    dropWhile_isSpace fun b hb => hdigits b (List.mem_reverse.mp hb), List.reverse_reverse]
  exact parseUnsigned_octalDigits hw h hlimit

/-! ### Texts -/

theorem length_writeTarString (width : ℕ) (value : Bytes) :
    (writeTarString width value).length = width := by
  simp only [writeTarString, List.length_append, List.length_replicate, List.length_take]
  omega

theorem tarCharacters_ne {value : Bytes} {c : UInt8} (hc : c ≠ 0x3f) (h : c ∉ value) :
    c ∉ tarCharacters value := by
  intro hmem
  obtain ⟨b, hb, heq⟩ := List.mem_filterMap.mp hmem
  split_ifs at heq
  · cases heq
    exact h hb
  · cases heq
    exact hc rfl

theorem tarCharacters_of_ascii {value : Bytes} (h : value.any (0x80 ≤ ·) = false) :
    tarCharacters value = value := by
  rw [tarCharacters]
  induction value with
  | nil => rfl
  | cons b value ih =>
    rw [List.any_cons, Bool.or_eq_false_iff] at h
    have hb : b < 0x80 := by simpa using h.1
    rw [List.filterMap_cons_some (by rw [if_pos hb]), ih h.2]

/-- A text field is read back up to its width. -/
theorem text_of_field {offset width : ℕ} {block value : Bytes}
    (hfield : Ustar.field offset width block = writeTarString width value) (hvalue : 0 ∉ value) :
    Ustar.text offset width block = (tarCharacters value).take width := by
  have hzero : ∀ b ∈ (tarCharacters value).take width, decide (b ≠ 0) = true := by
    intro b hb
    refine decide_eq_true ?_
    rintro rfl
    exact tarCharacters_ne (by decide) hvalue (List.mem_of_mem_take hb)
  rw [Ustar.text, hfield, writeTarString, List.takeWhile_append_of_pos hzero]
  cases width - ((tarCharacters value).take width).length with
  | zero => simp
  | succ n => simp [List.replicate_succ]

theorem hasOnlyTrailingNuls_writeTarString (width : ℕ) {value : Bytes} (hvalue : 0 ∉ value) :
    hasOnlyTrailingNuls (writeTarString width value) = true := by
  have hzero : ∀ b ∈ (tarCharacters value).take width, decide (b ≠ 0) = true := by
    intro b hb
    refine decide_eq_true ?_
    rintro rfl
    exact tarCharacters_ne (by decide) hvalue (List.mem_of_mem_take hb)
  rw [hasOnlyTrailingNuls, writeTarString, List.dropWhile_append_of_pos hzero, List.all_eq_true]
  intro b hb
  have := (List.dropWhile_sublist _).subset hb
  simpa using List.eq_of_mem_replicate this

/-! ### Headers -/

section

variable (name : Bytes) (mode uid gid size mtime : ℕ) (kind : UInt8) (target : Bytes)

/-- The part of a header before its checksum. -/
def headerBefore : Bytes :=
  writeTarString 100 name ++ (octalDigits 7 mode ++ [0]) ++ (octalDigits 7 uid ++ [0]) ++
    (octalDigits 7 gid ++ [0]) ++ (octalDigits 11 size ++ [0]) ++ (octalDigits 11 mtime ++ [0])

/-- The part of a header after its checksum. -/
def headerAfter : Bytes :=
  [kind] ++ writeTarString 100 target ++ ustarMagic ++ List.replicate 247 0

/-- The sum of the bytes of a header. -/
def headerSum : ℕ :=
  ((headerBefore name mode uid gid size mtime ++ List.replicate 8 0x20 ++
    headerAfter kind target).map UInt8.toNat).sum

/-- The header that `write_tar_header` writes. -/
def headerBlock : Bytes :=
  headerBefore name mode uid gid size mtime ++
    octalDigits 6 (headerSum name mode uid gid size mtime kind target) ++ [0, 0x20] ++
    headerAfter kind target

theorem writeTarHeader_ok (hmode : mode < 8 ^ 7) (huid : uid < 8 ^ 7) (hgid : gid < 8 ^ 7)
    (hsize : size < 8 ^ 11) (hmtime : mtime < 8 ^ 11) :
    writeTarHeader name mode uid gid size mtime kind target =
      .ok (headerBlock name mode uid gid size mtime kind target) := by
  have hoctal : ∀ {width value : ℕ}, value < 8 ^ (width - 1) →
      writeTarOctal width value = .ok (octalDigits (width - 1) value ++ [0]) :=
    fun h => if_neg (Nat.not_le.mpr h)
  rw [writeTarHeader, hoctal hmode, hoctal huid, hoctal hgid, hoctal hsize, hoctal hmtime]
  rfl

theorem length_headerBefore : (headerBefore name mode uid gid size mtime).length = 148 := by
  simp only [headerBefore, List.length_append, length_writeTarString, length_octalDigits,
    List.length_singleton]

theorem length_headerAfter : (headerAfter kind target).length = 356 := by
  simp only [headerAfter, List.length_append, length_writeTarString, List.length_singleton,
    List.length_replicate]
  rfl

theorem length_headerBlock :
    (headerBlock name mode uid gid size mtime kind target).length = 512 := by
  simp only [headerBlock, List.length_append, length_headerBefore, length_headerAfter,
    length_octalDigits, List.length_cons, List.length_nil]

theorem headerSum_lt : headerSum name mode uid gid size mtime kind target < 8 ^ 6 := by
  have hle := List.sum_le_card_nsmul ((headerBefore name mode uid gid size mtime ++
    List.replicate 8 0x20 ++ headerAfter kind target).map UInt8.toNat) 255 (by
      intro n hn
      obtain ⟨b, -, rfl⟩ := List.mem_map.mp hn
      exact Nat.le_of_lt_succ b.toNat_lt)
  rw [List.length_map, List.length_append, List.length_append, length_headerBefore,
    length_headerAfter, List.length_replicate] at hle
  exact lt_of_le_of_lt hle (by decide)

theorem field_of_append {offset width : ℕ} {a f b : Bytes} (ha : a.length = offset)
    (hf : f.length = width) : Ustar.field offset width (a ++ (f ++ b)) = f := by
  rw [Ustar.field, List.drop_left' ha, List.take_left' hf]

theorem checksum_headerBlock :
    Ustar.checksum (headerBlock name mode uid gid size mtime kind target) =
      headerSum name mode uid gid size mtime kind target := by
  have htake : (headerBlock name mode uid gid size mtime kind target).take 148 =
      headerBefore name mode uid gid size mtime := by
    rw [headerBlock, List.append_assoc, List.append_assoc]
    exact List.take_left' (length_headerBefore ..)
  have hdrop : (headerBlock name mode uid gid size mtime kind target).drop 156 =
      headerAfter kind target := by
    refine List.drop_left' ?_
    simp only [List.length_append, length_headerBefore, length_octalDigits, List.length_cons,
      List.length_nil]
  rw [Ustar.checksum, htake, hdrop]
  rfl

theorem number_checksum :
    Ustar.number 148 8 (headerBlock name mode uid gid size mtime kind target) =
      some (Ustar.checksum (headerBlock name mode uid gid size mtime kind target)) := by
  have hsum := headerSum_lt name mode uid gid size mtime kind target
  rw [checksum_headerBlock]
  refine @number_of_field _ _ 6 _ _ ([0x20]) ?_ (by decide) hsum
    (hsum.trans (by decide))
  rw [headerBlock, List.append_assoc, List.append_assoc]
  rw [← List.append_assoc (octalDigits 6 _)]
  refine field_of_append (length_headerBefore ..) ?_
  rw [List.length_append, length_octalDigits]
  rfl

/-- A header, field by field. -/
theorem headerBlock_eq : headerBlock name mode uid gid size mtime kind target =
    writeTarString 100 name ++ ((octalDigits 7 mode ++ [0]) ++ ((octalDigits 7 uid ++ [0]) ++
      ((octalDigits 7 gid ++ [0]) ++ ((octalDigits 11 size ++ [0]) ++
        ((octalDigits 11 mtime ++ [0]) ++
          ((octalDigits 6 (headerSum name mode uid gid size mtime kind target) ++ [0, 0x20]) ++
            ([kind] ++ (writeTarString 100 target ++
              (ustarMagic ++ List.replicate 247 0))))))))) := by
  simp only [headerBlock, headerBefore, headerAfter, List.append_assoc]

theorem field_skip {n offset width : ℕ} {a b : Bytes} (ha : a.length = n) :
    Ustar.field (n + offset) width (a ++ b) = Ustar.field offset width b := by
  rw [Ustar.field, Ustar.field, List.drop_append, List.drop_eq_nil_of_le (by omega), ha,
    List.nil_append, Nat.add_sub_cancel_left]

theorem length_octalField (w n : ℕ) : (octalDigits w n ++ [0]).length = w + 1 := by
  rw [List.length_append, length_octalDigits, List.length_singleton]

theorem field_name : Ustar.field 0 100 (headerBlock name mode uid gid size mtime kind target) =
    writeTarString 100 name := by
  rw [headerBlock_eq]
  exact field_of_append (a := []) rfl (length_writeTarString ..)

theorem field_mode : Ustar.field 100 8 (headerBlock name mode uid gid size mtime kind target) =
    octalDigits 7 mode ++ [0] := by
  rw [headerBlock_eq]
  exact field_of_append (length_writeTarString ..) (length_octalField ..)

theorem field_uid : Ustar.field 108 8 (headerBlock name mode uid gid size mtime kind target) =
    octalDigits 7 uid ++ [0] := by
  rw [headerBlock_eq, show 108 = 100 + 8 from rfl, field_skip (length_writeTarString ..)]
  exact field_of_append (length_octalField ..) (length_octalField ..)

theorem field_gid : Ustar.field 116 8 (headerBlock name mode uid gid size mtime kind target) =
    octalDigits 7 gid ++ [0] := by
  rw [headerBlock_eq, show 116 = 100 + (8 + 8) from rfl, field_skip (length_writeTarString ..),
    field_skip (length_octalField ..)]
  exact field_of_append (length_octalField ..) (length_octalField ..)

theorem field_size : Ustar.field 124 12 (headerBlock name mode uid gid size mtime kind target) =
    octalDigits 11 size ++ [0] := by
  rw [headerBlock_eq, show 124 = 100 + (8 + (8 + 8)) from rfl,
    field_skip (length_writeTarString ..), field_skip (length_octalField ..),
    field_skip (length_octalField ..)]
  exact field_of_append (length_octalField ..) (length_octalField ..)

theorem field_mtime : Ustar.field 136 12 (headerBlock name mode uid gid size mtime kind target) =
    octalDigits 11 mtime ++ [0] := by
  rw [headerBlock_eq, show 136 = 100 + (8 + (8 + (8 + 12))) from rfl,
    field_skip (length_writeTarString ..), field_skip (length_octalField ..),
    field_skip (length_octalField ..), field_skip (length_octalField ..)]
  exact field_of_append (length_octalField ..) (length_octalField ..)

/-- The fields from the type on. -/
theorem field_after (offset width : ℕ) :
    Ustar.field (156 + offset) width (headerBlock name mode uid gid size mtime kind target) =
      Ustar.field offset width (headerAfter kind target) := by
  refine field_skip ?_
  simp only [List.length_append, length_headerBefore, length_octalDigits, List.length_cons,
    List.length_nil]

theorem field_target : Ustar.field 157 100 (headerBlock name mode uid gid size mtime kind target) =
    writeTarString 100 target := by
  rw [show 157 = 156 + 1 from rfl, field_after, headerAfter, List.append_assoc, List.append_assoc]
  exact field_of_append (List.length_singleton ..) (length_writeTarString ..)

theorem length_ustarMagic : ustarMagic.length = 8 := by decide

theorem field_magic : Ustar.field 257 8 (headerBlock name mode uid gid size mtime kind target) =
    ustarMagic := by
  rw [show 257 = 156 + (1 + 100) from rfl, field_after, headerAfter, List.append_assoc,
    List.append_assoc, field_skip (List.length_singleton ..)]
  exact field_of_append (length_writeTarString ..) length_ustarMagic

theorem field_prefix :
    Ustar.field 345 155 (headerBlock name mode uid gid size mtime kind target) =
      List.replicate 155 0 := by
  rw [show 345 = 156 + (1 + (100 + (8 + 80))) from rfl, field_after, headerAfter,
    List.append_assoc, List.append_assoc, field_skip (List.length_singleton ..),
    field_skip (length_writeTarString ..), field_skip length_ustarMagic]
  decide

theorem typeFlag_headerBlock :
    Ustar.typeFlag (headerBlock name mode uid gid size mtime kind target) = kind := by
  have hfield := field_after name mode uid gid size mtime kind target 0 1
  have hkind : Ustar.field 0 1 (headerAfter kind target) = [kind] := rfl
  rw [hkind, Ustar.field, Nat.add_zero] at hfield
  have hget : (headerBlock name mode uid gid size mtime kind target)[156]? = some kind := by
    rw [← Nat.add_zero 156, ← List.getElem?_drop, ← List.getElem?_take_of_lt (Nat.zero_lt_one),
      hfield]
    rfl
  rw [Ustar.typeFlag, List.getD_eq_getElem?_getD, hget]
  rfl

/-- What a header holds of a link target. -/
def heldTarget (value : Bytes) : Option Bytes :=
  if (tarCharacters value).take 100 = [] then none else some ((tarCharacters value).take 100)

/-- What the reader reports of the header. -/
structure HeaderReads (header : TarHeader) : Prop where
  entryType : header.entryType = kind
  path : header.pathBytes = (tarCharacters name).take 100
  link : header.linkNameBytes = heldTarget target
  size : header.size = some size
  mode : header.mode = some mode
  uid : header.uid = some uid
  gid : header.gid = some gid
  mtime : header.mtime = some mtime
  ustar : header.ustar = true
  strings : validateTarHeaderStringFields header = .ok ()

/-- A text that a header can hold. -/
def HeaderText (value : Bytes) : Prop := 0 ∉ value ∧ 0x5c ∉ value

variable {name mode uid gid size mtime kind target}

theorem isUstar_headerBlock :
    Ustar.isUstar (headerBlock name mode uid gid size mtime kind target) = true := by
  rw [Ustar.isUstar, field_magic]
  decide

theorem path_headerBlock (hname : HeaderText name) :
    Ustar.path (headerBlock name mode uid gid size mtime kind target) =
      (tarCharacters name).take 100 := by
  have hpre : Ustar.text 345 155 (headerBlock name mode uid gid size mtime kind target) = [] := by
    rw [Ustar.text, field_prefix]
    rfl
  rw [Ustar.path, hpre, if_neg (by simp), text_of_field (field_name ..) hname.1]

theorem linkName_headerBlock (htarget : HeaderText target) :
    Ustar.linkName (headerBlock name mode uid gid size mtime kind target) =
      heldTarget target := by
  rw [Ustar.linkName, text_of_field (field_target ..) htarget.1, heldTarget]

/-- What a header holds of a text is clean. -/
theorem HeaderText.clean {value : Bytes} (h : HeaderText value) :
    ((tarCharacters value).take 100).any (fun b => b = 0 || b = 0x5c) = false := by
  rw [List.any_eq_false]
  intro b hb
  have hb := List.mem_of_mem_take hb
  have h₁ : b ≠ 0 := fun heq => tarCharacters_ne (by decide) h.1 (heq ▸ hb)
  have h₂ : b ≠ 0x5c := fun heq => tarCharacters_ne (by decide) h.2 (heq ▸ hb)
  simp [h₁, h₂]

theorem strings_headerBlock (hname : HeaderText name) (htarget : HeaderText target) :
    validateTarHeaderStringFields
      (tarHeader (headerBlock name mode uid gid size mtime kind target)) = .ok () := by
  have hlinks : (Ustar.linkName (headerBlock name mode uid gid size mtime kind target)).any
      (fun link => link.any fun b => b = 0 || b = 0x5c) = false := by
    rw [linkName_headerBlock htarget, heldTarget]
    by_cases hempty : (tarCharacters target).take 100 = []
    · rw [if_pos hempty]
      rfl
    · rw [if_neg hempty]
      exact htarget.clean
  have hpaths := hname.clean
  rw [← @path_headerBlock _ mode uid gid size mtime kind target hname] at hpaths
  have h₁ := field_name name mode uid gid size mtime kind target
  have h₂ := field_target name mode uid gid size mtime kind target
  have h₃ := field_prefix name mode uid gid size mtime kind target
  rw [Ustar.field] at h₁ h₂ h₃
  rw [List.drop_zero] at h₁
  have hpre : hasOnlyTrailingNuls (List.replicate 155 0) = true := by decide
  simp only [validateTarHeaderStringFields, tarHeader, h₁, h₂, h₃, hlinks, hpaths, hpre,
    hasOnlyTrailingNuls_writeTarString 100 hname.1,
    hasOnlyTrailingNuls_writeTarString 100 htarget.1, Bool.not_false, Bool.and_true, Bool.or_true,
    check, if_true]

theorem number_of_octalField {offset width w n : ℕ} {block : Bytes}
    (hfield : Ustar.field offset width block = octalDigits w n ++ [0]) (hw : w ≠ 0)
    (h : n < 8 ^ w) (hlimit : 8 ^ w ≤ 2 ^ 64) : Ustar.number offset width block = some n :=
  number_of_field hfield hw h (lt_of_lt_of_le h hlimit)

/-- **A header is read back field by field.** -/
theorem headerBlock_reads (hname : HeaderText name) (htarget : HeaderText target)
    (hmode : mode < 8 ^ 7) (huid : uid < 8 ^ 7) (hgid : gid < 8 ^ 7) (hsize : size < 8 ^ 11)
    (hmtime : mtime < 8 ^ 11) :
    HeaderReads name mode uid gid size mtime kind target
      (tarHeader (headerBlock name mode uid gid size mtime kind target)) := by
  have h7 : 8 ^ 7 ≤ 2 ^ 64 := by decide
  have h11 : 8 ^ 11 ≤ 2 ^ 64 := by decide
  have hmode := number_of_octalField (field_mode name mode uid gid size mtime kind target)
    (by decide) hmode h7
  have huid := number_of_octalField (field_uid name mode uid gid size mtime kind target)
    (by decide) huid h7
  have hgid := number_of_octalField (field_gid name mode uid gid size mtime kind target)
    (by decide) hgid h7
  have hsize := number_of_octalField (field_size name mode uid gid size mtime kind target)
    (by decide) hsize h11
  have hmtime := number_of_octalField (field_mtime name mode uid gid size mtime kind target)
    (by decide) hmtime h11
  refine ⟨?_, ?_, ?_, ?_, ?_, ?_, ?_, ?_, ?_, strings_headerBlock hname htarget⟩ <;>
    simp only [tarHeader]
  · exact typeFlag_headerBlock ..
  · exact path_headerBlock hname
  · exact linkName_headerBlock htarget
  · exact hsize
  · exact hmode
  · exact huid
  · exact hgid
  · exact hmtime
  · exact isUstar_headerBlock

end

/-! ### PAX records -/

theorem decimalDigits_eq (n : ℕ) : decimalDigits n = Nat.log 10 n + 1 := by
  fun_induction decimalDigits n with
  | case1 n h => rw [Nat.log_of_lt h]
  | case2 n h ih => rw [ih, Nat.log_of_one_lt_of_le (by decide) (Nat.not_lt.mp h)]

theorem length_natText (n : ℕ) : (natText n).length = decimalDigits n := by
  rw [decimalDigits_eq, natText]
  split_ifs with h
  · rw [h]
    rfl
  · rw [List.length_map, List.length_reverse, Nat.length_digits 10 n (by decide) h]

theorem decimalDigits_mono {m n : ℕ} (h : m ≤ n) : decimalDigits m ≤ decimalDigits n := by
  rw [decimalDigits_eq, decimalDigits_eq]
  exact Nat.succ_le_succ (Nat.log_mono_right h)

theorem decimalDigits_le (n : ℕ) : 2 * decimalDigits n ≤ n + 2 := by
  rw [decimalDigits_eq]
  by_cases hn : n = 0
  · rw [hn]
    decide
  · have hpow : ∀ k : ℕ, 2 * k ≤ 10 ^ k := by
      intro k
      induction k with
      | zero => decide
      | succ k ih =>
        have := Nat.one_le_pow k 10 (by decide)
        rw [Nat.pow_succ]
        omega
    have := (hpow (Nat.log 10 n)).trans (Nat.pow_log_le_self 10 hn)
    omega

/-- The loop finds the length that counts its own digits. -/
theorem paxLength_fixed {base fuel length : ℕ} (hlength : length ≤ base + decimalDigits length)
    (hfuel : 2 * base + 2 < length + fuel) :
    paxLength base fuel length = base + decimalDigits (paxLength base fuel length) := by
  induction fuel generalizing length with
  | zero =>
    have := decimalDigits_le length
    omega
  | succ fuel ih =>
    rw [paxLength]
    by_cases hnext : base + decimalDigits length = length
    · simp only [if_pos hnext]
      exact hnext.symm
    · simp only [if_neg hnext]
      refine ih ?_ (by omega)
      exact Nat.add_le_add_left (decimalDigits_mono hlength) base

/-- The length of a record. -/
theorem length_paxRecordText (key : String) (value : Bytes) :
    ∃ length, length = (paxRecordText key value).length ∧
      paxRecordText key value = natText length ++ 0x20 :: (ascii key ++ 0x3d :: (value ++ [0x0a])) := by
  have hfixed := @paxLength_fixed ((ascii key).length + value.length + 3)
    ((ascii key).length + value.length + 3 + 2) ((ascii key).length + value.length + 3 + 1)
    (Nat.add_le_add_left (by rw [decimalDigits_eq]; omega) _) (by omega)
  refine ⟨_, ?_, by rw [paxRecordText]; simp only [List.append_assoc, List.singleton_append]; rfl⟩
  rw [paxRecordText]
  simp only [List.length_append, List.length_singleton, length_natText]
  omega

theorem natText_head {n : ℕ} (h : 1 < (natText n).length) : (natText n).head? ≠ some 0x30 := by
  unfold natText at h ⊢
  split_ifs at h ⊢ with hn
  · exact absurd h (by decide)
  · have hne : Nat.digits 10 n ≠ [] := Nat.digits_ne_nil_iff_ne_zero.mpr hn
    have hlast := Nat.getLast_digit_ne_zero 10 hn
    have hlt : (Nat.digits 10 n).getLast hne < 10 :=
      Nat.digits_lt_base (by decide) (List.getLast_mem hne)
    rw [List.head?_map, List.head?_reverse, List.getLast?_eq_some_getLast hne]
    simp only [Option.map_some, ne_eq, Option.some.injEq]
    intro heq
    have htoNat := congrArg UInt8.toNat heq
    rw [toNat_digitByte hlt] at htoNat
    have hthirty : (0x30 : UInt8).toNat = 0x30 := rfl
    omega

/-- A text that a PAX record can hold. -/
structure PaxText (value : Bytes) : Prop where
  nonempty : value ≠ []
  text : HeaderText value
  utf8 : isUtf8 value = true

/-- **A PAX record is parsed back**, whatever follows it. -/
theorem paxRecord_text {key : String} {value rest : Bytes} (hkey : 0x3d ∉ ascii key)
    (hvalue : PaxText value) (hlength : (paxRecordText key value).length < 2 ^ 64) :
    paxRecord (paxRecordText key value ++ rest) = .ok (ascii key, value, rest) := by
  obtain ⟨length, hlen, htext⟩ := length_paxRecordText key value
  have hdigits : ∀ b ∈ natText length, decide (b ≠ 0x20) = true := by
    intro b hb
    refine decide_eq_true ?_
    rintro rfl
    exact absurd (digit_of_mem_natText hb).1 (by decide)
  have hsplit : paxRecordText key value ++ rest =
      natText length ++ 0x20 :: (ascii key ++ 0x3d :: (value ++ [0x0a]) ++ rest) := by
    rw [htext]
    simp
  have htakeWhile : (paxRecordText key value ++ rest).takeWhile (fun b => decide (b ≠ 0x20)) =
      natText length := by
    rw [hsplit, List.takeWhile_append_of_pos hdigits]
    simp
  have hcontains : (paxRecordText key value ++ rest).contains 0x20 = true := by
    rw [hsplit]
    simp
  have hnumber : (decide (natText length ≠ []) &&
      (natText length).all (fun b => decide (0x30 ≤ b) && decide (b ≤ 0x39)) &&
      !(decide (1 < (natText length).length) && decide ((natText length).head? = some 0x30))) =
        true := by
    have hall : (natText length).all (fun b => decide (0x30 ≤ b) && decide (b ≤ 0x39)) = true := by
      rw [List.all_eq_true]
      intro b hb
      simpa using digit_of_mem_natText hb
    by_cases hlong : 1 < (natText length).length
    · simp [natText_ne_nil, hall, natText_head hlong]
    · simp [natText_ne_nil, hall, hlong]
  have hrecord : (paxRecordText key value ++ rest).take length = paxRecordText key value :=
    List.take_left' hlen.symm
  have hafter : (paxRecordText key value ++ rest).drop length = rest := List.drop_left' hlen.symm
  have hlast : (paxRecordText key value).getLast? = some 0x0a := by
    have hconcat : paxRecordText key value =
        (natText length ++ 0x20 :: (ascii key ++ 0x3d :: value)) ++ [0x0a] := by
      rw [htext]
      simp
    rw [hconcat, List.getLast?_append]
    rfl
  have hkeyValue : ((paxRecordText key value).drop ((natText length).length + 1)).dropLast =
      ascii key ++ 0x3d :: value := by
    have hdrop : (paxRecordText key value).drop ((natText length).length + 1) =
        (ascii key ++ 0x3d :: value) ++ [0x0a] := by
      have : paxRecordText key value = (natText length ++ [0x20]) ++
          ((ascii key ++ 0x3d :: value) ++ [0x0a]) := by
        rw [htext]
        simp
      rw [this]
      exact List.drop_left' (by simp)
    rw [hdrop, List.dropLast_concat]
  have hkeyTake : (ascii key ++ 0x3d :: value).takeWhile (fun b => decide (b ≠ 0x3d)) =
      ascii key := by
    rw [List.takeWhile_append_of_pos]
    · simp
    · intro b hb
      exact decide_eq_true fun heq => hkey (heq ▸ hb)
  have hvalueDrop : (ascii key ++ 0x3d :: value).drop ((ascii key).length + 1) = value := by
    have : ascii key ++ 0x3d :: value = (ascii key ++ [0x3d]) ++ value := by simp
    rw [this]
    exact List.drop_left' (by simp)
  have hbounds : (decide ((natText length).length + 3 < length) &&
      decide (length ≤ (paxRecordText key value ++ rest).length)) = true := by
    have hcount := congrArg List.length htext
    have hpos : 0 < value.length := List.length_pos_of_ne_nil hvalue.nonempty
    simp only [List.length_append, List.length_cons, List.length_nil] at hcount
    rw [Bool.and_eq_true, decide_eq_true_eq, decide_eq_true_eq, List.length_append]
    omega
  have hclean : (!value.any fun b => decide (b = 0) || decide (b = 0x5c)) = true := by
    rw [Bool.not_eq_true', List.any_eq_false]
    intro b hb
    have h₁ : b ≠ 0 := fun heq => hvalue.text.1 (heq ▸ hb)
    have h₂ : b ≠ 0x5c := fun heq => hvalue.text.2 (heq ▸ hb)
    simp [h₁, h₂]
  have hnum : parseUnsigned 10 (2 ^ 64) (natText length) = some length :=
    parseUnsigned_natText (hlen ▸ hlength)
  unfold paxRecord
  rw [check_true hcontains]
  simp only [htakeWhile, bind, Except.bind]
  rw [check_true hnumber]
  simp only [hnum, require]
  rw [check_true hbounds]
  simp only [hrecord, hlast, decide_true, check_true, hkeyValue]
  rw [check_true (by simp)]
  simp only [hkeyTake, hvalueDrop]
  rw [check_true hclean, check_true hvalue.utf8, hafter]
  rfl

theorem paxRecordText_ne_nil (key : String) (value : Bytes) : paxRecordText key value ≠ [] := by
  obtain ⟨length, -, htext⟩ := length_paxRecordText key value
  rw [htext]
  simp

theorem paxOverrides_record {key : String} {value rest : Bytes} {overrides : PaxOverrides}
    {fuel : ℕ} (hkey : 0x3d ∉ ascii key) (hvalue : PaxText value)
    (hlength : (paxRecordText key value).length < 2 ^ 64) :
    paxOverrides (fuel + 1) overrides (paxRecordText key value ++ rest) =
      (addPaxOverride overrides (ascii key) value).bind fun overrides =>
        paxOverrides fuel overrides rest := by
  have hrecord := @paxRecord_text _ _ rest hkey hvalue hlength
  cases htext : paxRecordText key value ++ rest with
  | nil => exact absurd (List.append_eq_nil_iff.mp htext).1 (paxRecordText_ne_nil key value)
  | cons b bytes =>
    rw [htext] at hrecord
    rw [paxOverrides, hrecord]
    rfl

/-- What a member's extension says. -/
def overridesOf (name : Bytes) (kind : UInt8) (target : Bytes) : PaxOverrides :=
  ⟨if needsPax name then some name else none,
    if kind = 0x32 && needsPax target then some target else none⟩

theorem addPaxOverride_path {name : Bytes} (h : name ≠ []) :
    addPaxOverride ⟨none, none⟩ (ascii "path") name = .ok ⟨some name, none⟩ := by
  simp [addPaxOverride, h]

theorem addPaxOverride_linkpath {target : Bytes} {path : Option Bytes} (h : target ≠ []) :
    addPaxOverride ⟨path, none⟩ (ascii "linkpath") target = .ok ⟨path, some target⟩ := by
  have hdiffer : ascii "linkpath" ≠ ascii "path" := by decide
  simp [addPaxOverride, hdiffer, h]

theorem paxOverrides_end {fuel : ℕ} {overrides : PaxOverrides} :
    paxOverrides fuel overrides [] = .ok overrides := by
  cases fuel <;> rfl

/-- The records of an extension, one of them at least. -/
theorem paxOverrides_records {name target : Bytes} {path link : Bool} (hname : PaxText name)
    (htarget : link = true → PaxText target) {records : Bytes}
    (hrecords : records = (if path then paxRecordText "path" name else []) ++
      if link then paxRecordText "linkpath" target else [])
    (hlength : records.length < 2 ^ 64) :
    paxOverrides records.length ⟨none, none⟩ records =
      .ok ⟨if path then some name else none, if link then some target else none⟩ := by
  have hpath : 0x3d ∉ ascii "path" := by decide
  have hlinkpath : 0x3d ∉ ascii "linkpath" := by decide
  have hlast : ∀ {fuel : ℕ} {overrides : Option Bytes}, link = true → 0 < fuel →
      (paxRecordText "linkpath" target).length < 2 ^ 64 →
      paxOverrides fuel ⟨overrides, none⟩ (paxRecordText "linkpath" target) =
        .ok ⟨overrides, some target⟩ := by
    intro fuel overrides hlink hfuel hlength
    obtain ⟨fuel, rfl⟩ : ∃ n, fuel = n + 1 := ⟨fuel - 1, by omega⟩
    have hrecord := @paxOverrides_record _ _ [] ⟨overrides, none⟩ fuel hlinkpath
      (htarget hlink) hlength
    rw [List.append_nil] at hrecord
    rw [hrecord, addPaxOverride_linkpath (htarget hlink).nonempty]
    exact paxOverrides_end
  have hposLink := List.length_pos_of_ne_nil (paxRecordText_ne_nil "linkpath" target)
  cases path with
  | false =>
    cases link with
    | false => rw [hrecords]; exact paxOverrides_end
    | true =>
      simp only [Bool.false_eq_true, if_false, if_true, List.nil_append] at hrecords ⊢
      rw [hrecords] at hlength ⊢
      exact hlast rfl hposLink hlength
  | true =>
    have hposPath := List.length_pos_of_ne_nil (paxRecordText_ne_nil "path" name)
    simp only [if_true] at hrecords ⊢
    have hsum := congrArg List.length hrecords
    rw [List.length_append] at hsum
    obtain ⟨fuel, hfuel⟩ : ∃ n, records.length = n + 1 := ⟨records.length - 1, by omega⟩
    rw [hfuel, hrecords, paxOverrides_record hpath hname (by omega),
      addPaxOverride_path hname.nonempty]
    cases link with
    | false => exact paxOverrides_end
    | true =>
      simp only [if_true] at hsum ⊢
      exact hlast rfl (by omega) (by omega)

/-- **A member's extension is parsed back.** -/
theorem parsePaxOverrides_records {name target : Bytes} {kind : UInt8} (hname : PaxText name)
    (htarget : kind = 0x32 → PaxText target)
    (hlength : (paxRecords name kind target).length < 2 ^ 64)
    (hne : paxRecords name kind target ≠ []) :
    parsePaxOverrides (paxRecords name kind target) = .ok (overridesOf name kind target) := by
  have hoverrides : paxOverrides (paxRecords name kind target).length ⟨none, none⟩
      (paxRecords name kind target) = .ok (overridesOf name kind target) :=
    @paxOverrides_records _ _ (needsPax name) (decide (kind = 0x32) && needsPax target)
      hname (fun hlink => htarget (by simpa using ((Bool.and_eq_true _ _).mp hlink).1)) _ rfl hlength
  have hsome : ((overridesOf name kind target).path.isSome ||
      (overridesOf name kind target).linkpath.isSome) = true := by
    by_contra hnone
    rw [Bool.not_eq_true, Bool.or_eq_false_iff] at hnone
    refine hne ?_
    rw [paxRecords, if_neg, if_neg]
    · rfl
    · intro h
      simp [overridesOf, h] at hnone
    · intro h
      simp [overridesOf, h] at hnone
  unfold parsePaxOverrides
  rw [hoverrides]
  exact congrArg (fun x : Contract Unit => x.bind fun _ => .ok (overridesOf name kind target))
    (check_true hsome)

/-! ### Members -/

/-- The entry of an extension. -/
def extensionEntry (records : Bytes) : Ustar.Entry :=
  ⟨headerBlock (ascii "././@PaxHeader") 0 0 0 records.length 0 0x78 [], records.length, records⟩

/-- The entry of a member itself. -/
def mainEntry (name : Bytes) (mode epoch : ℕ) (kind : UInt8) (target payload : Bytes) :
    Ustar.Entry :=
  ⟨headerBlock name mode 0 0 payload.length epoch kind target, payload.length, payload⟩

/-- The entries that a member is read as. -/
def memberEntries (name : Bytes) (mode epoch : ℕ) (kind : UInt8) (target : Bytes)
    (payload : Option Bytes) : List Ustar.Entry :=
  (if paxRecords name kind target = [] then []
    else [extensionEntry (paxRecords name kind target)]) ++
    [mainEntry name mode epoch kind target (payload.getD [])]

theorem headerBlock_nonzero {name target : Bytes} {mode uid gid size mtime : ℕ} {kind : UInt8}
    (hkind : kind ≠ 0) :
    (headerBlock name mode uid gid size mtime kind target).all (· = 0) = false := by
  have hflag := typeFlag_headerBlock name mode uid gid size mtime kind target
  by_contra hall
  rw [Bool.not_eq_false, List.all_eq_true] at hall
  rw [Ustar.typeFlag, List.getD_eq_getElem?_getD] at hflag
  cases hget : (headerBlock name mode uid gid size mtime kind target)[156]? with
  | none =>
    rw [hget] at hflag
    exact hkind hflag.symm
  | some b =>
    have hb : b = 0 := by simpa using hall b (List.mem_of_getElem? hget)
    rw [hget, hb] at hflag
    exact hkind hflag.symm

/-- A header and its payload. -/
theorem headerBlock_spells {name target payload : Bytes} {mode mtime : ℕ} {kind : UInt8}
    (hkind : kind ≠ 0) (hsize : payload.length < 8 ^ 11) :
    Ustar.Spells (headerBlock name mode 0 0 payload.length mtime kind target ++ payload ++
        writeTarPadding payload.length)
      [⟨headerBlock name mode 0 0 payload.length mtime kind target, payload.length, payload⟩] := by
  have h11 : 8 ^ 11 ≤ 2 ^ 64 := by decide
  exact Ustar.spells_entry (length_headerBlock ..) (number_checksum ..)
    (number_of_octalField (field_size ..) (by decide) hsize h11) (headerBlock_nonzero hkind)

/-- **A member is read as the entries that describe it.** -/
theorem writePaxEntry_spells {name target : Bytes} {mode epoch : ℕ} {kind : UInt8}
    {payload : Option Bytes} (hkind : kind ≠ 0) (hmode : mode < 8 ^ 7) (hepoch : epoch < 8 ^ 11)
    (hsize : (payload.getD []).length < 8 ^ 11)
    (hrecords : (paxRecords name kind target).length < 8 ^ 11) :
    ∃ bytes, writePaxEntry name mode epoch kind target payload = .ok bytes ∧
      Ustar.Spells bytes (memberEntries name mode epoch kind target payload) := by
  have hmember : ∃ bytes, bytes = headerBlock name mode 0 0 (payload.getD []).length epoch kind
      target ++ payload.elim [] (fun data => data ++ writeTarPadding (payload.getD []).length) ∧
      Ustar.Spells bytes [⟨headerBlock name mode 0 0 (payload.getD []).length epoch kind target,
        (payload.getD []).length, payload.getD []⟩] := by
    refine ⟨_, rfl, ?_⟩
    have hspells := @headerBlock_spells name target _ mode epoch _ hkind hsize
    cases payload with
    | none => simpa [writeTarPadding] using hspells
    | some data => rw [List.append_assoc] at hspells; exact hspells
  obtain ⟨member, hbytes, hspells⟩ := hmember
  have hheader := writeTarHeader_ok name mode 0 0 (payload.getD []).length epoch kind target hmode
    (by decide) (by decide) hsize hepoch
  have hlength : payload.elim 0 List.length = (payload.getD []).length := by cases payload <;> rfl
  by_cases hnil : paxRecords name kind target = []
  · refine ⟨member, ?_, ?_⟩
    · rw [writePaxEntry]
      simp only [hnil, if_true, hlength, bind, Except.bind, hheader, pure, Except.pure,
        List.nil_append]
      rw [← hbytes]
    · rw [memberEntries]
      simp only [hnil, if_true, List.nil_append]
      exact hspells
  · have hpax := writeTarHeader_ok (ascii "././@PaxHeader") 0 0 0
      (paxRecords name kind target).length 0 0x78 [] (by decide) (by decide) (by decide) hrecords
      (by decide)
    refine ⟨headerBlock (ascii "././@PaxHeader") 0 0 0 (paxRecords name kind target).length 0 0x78
      [] ++ paxRecords name kind target ++ writeTarPadding (paxRecords name kind target).length ++
        member, ?_, ?_⟩
    · rw [writePaxEntry]
      simp only [if_neg hnil, hlength, bind, Except.bind, hheader, hpax, pure, Except.pure]
      rw [List.append_assoc _ (headerBlock _ _ _ _ _ _ _ _), ← hbytes]
    · rw [memberEntries]
      simp only [if_neg hnil]
      exact Ustar.spells_append (headerBlock_spells (by decide) hrecords) hspells

end Toolchain

end ArosTools
