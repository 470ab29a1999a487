import ArosTools.Board.DiskScan
import ArosTools.Board.SdDiskSafety
import ArosTools.Program.Separator

/-!
# What a disk fingerprint says

A fingerprint is the hash of six texts put together with separators that may occur in the texts
themselves: the identity and the model of a disk are whatever the device reports.  Two different
disks have one fingerprint exactly when a border between two of the texts can be moved.

* `Unmovable` : no border can be moved.
* `sameDisk_of_material`, `unmovable_of_separates` : the two directions.
* `token_separates` : a write token says which artifact and which fingerprint it is for.
* `fingerprint_separates_iff` : **a fingerprint is that of one disk only if no border can be
  moved**.
* `moved_border` : two disks with one fingerprint.
-/

namespace ArosTools

namespace DiskInventory

open Str

/-! ### Texts without blanks at their ends -/

/-- A text that does not begin with a blank. -/
def Opens (text : Text) : Prop := ∀ c rest, text = c :: rest → isWhitespace c = false

/-- A text that does not end in a blank. -/
def Closes (text : Text) : Prop := ∀ front c, text = front ++ [c] → isWhitespace c = false

theorem Opens.of_append {a b : Text} (h : Opens (a ++ b)) : Opens a := by
  rintro c rest rfl
  exact h c (rest ++ b) rfl

theorem Closes.of_append {a b : Text} (h : Closes (a ++ b)) : Closes b := by
  rintro front c rfl
  exact h (a ++ front) c (List.append_assoc _ _ _).symm

theorem Opens.append {a b : Text} (ha : Opens a) (hb : Opens b) : Opens (a ++ b) := by
  intro c rest h
  cases a with
  | nil => exact hb c rest h
  | cons d a => exact ha c a (by rw [(List.cons.inj h).1])

theorem Closes.append {a b : Text} (ha : Closes a) (hb : Closes b) : Closes (a ++ b) := by
  intro front c h
  rcases List.eq_nil_or_concat' b with rfl | ⟨b, d, rfl⟩
  · exact ha front c (by rw [← h, List.append_nil])
  · rw [← List.append_assoc] at h
    obtain ⟨-, hd⟩ := List.append_inj' h rfl
    exact hb b c (by rw [List.cons.inj hd |>.1])

theorem Opens.append_left {a b : Text} (ha : Opens a) (hne : a ≠ []) : Opens (a ++ b) := by
  obtain ⟨d, a, rfl⟩ := List.exists_cons_of_ne_nil hne
  intro c rest h
  exact ha c a (by rw [(List.cons.inj h).1])

theorem Closes.append_right {a b : Text} (hb : Closes b) (hne : b ≠ []) : Closes (a ++ b) := by
  intro front c h
  obtain ⟨b, d, rfl⟩ := (List.eq_nil_or_concat' b).resolve_left hne
  rw [← List.append_assoc] at h
  obtain ⟨-, hd⟩ := List.append_inj' h rfl
  exact hb b c (by rw [List.cons.inj hd |>.1])

theorem opens_of_word {text : Text} (h : Word text) : Opens text := by
  rintro c rest rfl
  obtain ⟨d, tail, heq, hd⟩ := h.head
  rw [(List.cons.inj heq).1]
  exact hd

theorem closes_of_word {text : Text} (h : Word text) : Closes text := by
  rintro front c rfl
  obtain ⟨init, d, heq, hd⟩ := h.last
  obtain ⟨-, hlast⟩ := List.append_inj' heq rfl
  rw [(List.cons.inj hlast).1]
  exact hd

theorem word_of {text : Text} (hne : text ≠ []) (ho : Opens text) (hc : Closes text) :
    Word text := by
  refine ⟨?_, ?_⟩
  · obtain ⟨c, rest, rfl⟩ := List.exists_cons_of_ne_nil hne
    exact ⟨c, rest, rfl, ho c rest rfl⟩
  · obtain ⟨front, c, rfl⟩ := (List.eq_nil_or_concat' text).resolve_left hne
    exact ⟨front, c, rfl, hc front c rfl⟩

/-- A text without control characters. -/
def Plain (text : Text) : Prop := ∀ c ∈ text, isControl c = false

theorem Plain.append {a b : Text} (ha : Plain a) (hb : Plain b) : Plain (a ++ b) :=
  fun c hc => (List.mem_append.mp hc).elim (ha c) (hb c)

theorem Plain.of_append {a b : Text} (h : Plain (a ++ b)) : Plain a ∧ Plain b :=
  ⟨fun c hc => h c (List.mem_append_left b hc), fun c hc => h c (List.mem_append_right a hc)⟩

theorem safeMetadata_iff {text : Text} : safeMetadata text = true ↔ Word text ∧ Plain text := by
  simp only [safeMetadata, Bool.and_eq_true, decide_eq_true_eq, Bool.not_eq_true', List.any_eq_false,
    Bool.not_eq_true]
  constructor
  · rintro ⟨⟨hne, htrim⟩, hplain⟩
    rcases trim_cases text with h | h
    · exact absurd (htrim.symm.trans h) hne
    · exact ⟨htrim ▸ h, hplain⟩
  · rintro ⟨hword, hplain⟩
    exact ⟨⟨hword.ne_nil, hword.trim_eq⟩, hplain⟩

/-! ### The separators -/

/-- The separators of the text that is hashed. -/
def deviceMark : Text := lit "\\ndevice="

def identityMark : Text := lit "\\nidentity="

def sizeMark : Text := lit "\\nsize="

def modelMark : Text := lit "\\nmodel="

def transportMark : Text := lit "\\ntransport="

theorem separator_identityMark : Separator '\\' identityMark := ⟨_, rfl, by decide⟩

theorem separator_sizeMark : Separator '\\' sizeMark := ⟨_, rfl, by decide⟩

theorem separator_modelMark : Separator '\\' modelMark := ⟨_, rfl, by decide⟩

theorem separator_transportMark : Separator '\\' transportMark := ⟨_, rfl, by decide⟩

theorem modelMark_ne_sizeMark (a b : Text) : modelMark ++ a ≠ sizeMark ++ b := by
  intro h
  simp [modelMark, sizeMark, lit] at h

theorem backslash_notMem_decimal (n : ℕ) : '\\' ∉ decimal n := by
  intro h
  exact absurd (Nat.isDigit_of_mem_toDigits (by decide) (by decide) h) (by decide)

theorem safe_identityMark : safeMetadata identityMark = true := by decide

theorem safe_sizeMark : safeMetadata sizeMark = true := by decide

theorem safe_modelMark : safeMetadata modelMark = true := by decide

theorem safe_transportMark : safeMetadata transportMark = true := by decide

theorem fingerprintMaterial_eq (platform : DiskPlatform) (devicePath : Text) (sizeBytes : UInt64)
    (identity model transport : Text) :
    fingerprintMaterial platform devicePath sizeBytes identity model transport =
      lit "aros-board-sd-disk-v1\\nplatform=" ++ (platform.label ++ (deviceMark ++ (devicePath ++
        (identityMark ++ (identity ++ (sizeMark ++ (decimal sizeBytes.toNat ++ (modelMark ++
          (model ++ (transportMark ++ (transport ++ lit "\\n"))))))))))) := by
  simp only [fingerprintMaterial, deviceMark, identityMark, sizeMark, modelMark, transportMark,
    List.append_assoc]

/-- A safe text after a separator stays safe when more text comes in front of it. -/
theorem safe_before {w s text : Text} (hw : Opens w) (hplain : Plain w)
    (hs : safeMetadata s = true) (h : safeMetadata text = true) :
    safeMetadata (w ++ (s ++ text)) = true := by
  obtain ⟨hsword, hsplain⟩ := safeMetadata_iff.mp hs
  obtain ⟨hword, htext⟩ := safeMetadata_iff.mp h
  refine safeMetadata_iff.mpr ⟨word_of ?_ ?_ ?_, hplain.append (hsplain.append htext)⟩
  · simp [hsword.ne_nil]
  · exact hw.append ((opens_of_word hsword).append (opens_of_word hword))
  · rw [← List.append_assoc]
    exact (closes_of_word hword).append_right hword.ne_nil

/-- A safe text before a separator stays safe when more text comes behind it. -/
theorem safe_after {text s w : Text} (h : safeMetadata text = true) (hs : safeMetadata s = true)
    (hw : Closes w) (hplain : Plain w) : safeMetadata (text ++ (s ++ w)) = true := by
  obtain ⟨hsword, hsplain⟩ := safeMetadata_iff.mp hs
  obtain ⟨hword, htext⟩ := safeMetadata_iff.mp h
  refine safeMetadata_iff.mpr ⟨word_of ?_ ?_ ?_, htext.append (hsplain.append hplain)⟩
  · simp [hword.ne_nil]
  · exact (opens_of_word hword).append_left hword.ne_nil
  · exact (closes_of_word hword).append ((closes_of_word hsword).append hw)

theorem digit_of_mem_toDigits {n : ℕ} {c : Char} (h : c ∈ Nat.toDigits 10 n) :
    48 ≤ c.toNat ∧ c.toNat ≤ 57 := by
  have hdigit := Nat.isDigit_of_mem_toDigits (by decide) (by decide) h
  simp only [Char.isDigit, Bool.and_eq_true, decide_eq_true_eq, UInt32.le_iff_toNat_le] at hdigit
  exact hdigit

theorem safe_decimal (n : ℕ) : safeMetadata (decimal n) = true := by
  have hdigit : ∀ c ∈ decimal n, isWhitespace c = false ∧ isControl c = false := by
    intro c hc
    obtain ⟨hlow, hhigh⟩ := digit_of_mem_toDigits hc
    simp only [isWhitespace, isControl, Bool.or_eq_false_iff, Bool.and_eq_false_iff,
      decide_eq_false_iff_not]
    omega
  refine safeMetadata_iff.mpr ⟨word_of Nat.toDigits_ne_nil ?_ ?_, fun c hc => (hdigit c hc).2⟩
  · intro c rest h
    exact (hdigit c (h ▸ List.mem_cons_self)).1
  · intro front c h
    exact (hdigit c (h ▸ List.mem_append_right _ (List.mem_singleton_self c))).1

/-- A size between its separators. -/
theorem safe_size (n : ℕ) : safeMetadata (sizeMark ++ (decimal n ++ modelMark)) = true :=
  safe_before (opens_of_word (safeMetadata_iff.mp safe_sizeMark).1)
    (safeMetadata_iff.mp safe_sizeMark).2 (safe_decimal n) safe_modelMark

/-! ### Borders -/

/-- The six texts of two candidates are the same. -/
structure SameDisk (c c' : DiskCandidate) : Prop where
  platform : c.platform = c'.platform
  devicePath : c.devicePath = c'.devicePath
  identity : c.identity = c'.identity
  sizeBytes : c.sizeBytes = c'.sizeBytes
  model : c.model = c'.model
  transport : c.transport = c'.transport

/-- No border between two texts of a candidate can be moved.  The text before a border may contain
the separator itself, and so may the text behind it; the border moves there unless one of the texts
would then be no `safe_metadata`.  The size has a separator on either side, and both move with
it. -/
structure Unmovable (c : DiskCandidate) : Prop where
  device : ∀ path w, c.devicePath = path ++ (identityMark ++ w) → safeMetadata path = true → ¬ Opens w
  identityFront : ∀ w identity, c.identity = w ++ (identityMark ++ identity) →
    safeMetadata identity = true → ¬ Closes w
  identityBack : ∀ identity (size : UInt64) w, c.identity = identity ++ (sizeMark ++
    (decimal size.toNat ++ (modelMark ++ w))) → size ≠ 0 → safeMetadata identity = true → ¬ Opens w
  modelFront : ∀ w (size : UInt64) model, c.model = w ++ (sizeMark ++
    (decimal size.toNat ++ (modelMark ++ model))) → size ≠ 0 → safeMetadata model = true → ¬ Closes w
  modelBack : ∀ model w, c.model = model ++ (transportMark ++ w) → safeMetadata model = true →
    ¬ Opens w
  transport : ∀ w transport, c.transport = w ++ (transportMark ++ transport) →
    safeMetadata transport = true → ¬ Closes w

/-- The text of a candidate after its platform. -/
def fieldText (c : DiskCandidate) : Text :=
  c.devicePath ++ (identityMark ++ (c.identity ++ (sizeMark ++ (decimal c.sizeBytes.toNat ++
    (modelMark ++ (c.model ++ (transportMark ++ c.transport)))))))

/-- The texts of a candidate are safe metadata. -/
structure SafeTexts (c : DiskCandidate) : Prop where
  devicePath : safeMetadata c.devicePath = true
  identity : safeMetadata c.identity = true
  sizeBytes : c.sizeBytes ≠ 0
  model : safeMetadata c.model = true
  transport : safeMetadata c.transport = true

section

variable {c c' : DiskCandidate}

theorem opens_of_safe {text : Text} (h : safeMetadata text = true) : Opens text :=
  opens_of_word (safeMetadata_iff.mp h).1

theorem closes_of_safe {text : Text} (h : safeMetadata text = true) : Closes text :=
  closes_of_word (safeMetadata_iff.mp h).1

theorem ne_nil_of_safe {text : Text} (h : safeMetadata text = true) : text ≠ [] :=
  (safeMetadata_iff.mp h).1.ne_nil

/-- The border in front of the identity lies where it does in another candidate. -/
theorem same_front (h : Unmovable c) (hs' : SafeTexts c')
    (heq : c.devicePath ++ (identityMark ++ c.identity) =
      c'.devicePath ++ (identityMark ++ c'.identity)) :
    c.devicePath = c'.devicePath ∧ c.identity = c'.identity := by
  rcases Separator.cut_cases separator_identityMark separator_identityMark heq with
    ⟨hpath, hrest⟩ | ⟨w, hpath, hidentity⟩ | ⟨w, hpath, hidentity⟩
  · exact ⟨hpath, List.append_cancel_left hrest⟩
  · have hw : Closes w := ((hpath ▸ closes_of_safe hs'.devicePath).of_append).of_append
    exact absurd hw (h.identityFront w _ hidentity hs'.identity)
  · have hw : Opens w := (hidentity ▸ opens_of_safe hs'.identity).of_append
    exact absurd hw (h.device _ w hpath hs'.devicePath)

/-- The border behind the model lies where it does in another candidate. -/
theorem same_back (h : Unmovable c) (hs' : SafeTexts c')
    (heq : c.model ++ (transportMark ++ c.transport) =
      c'.model ++ (transportMark ++ c'.transport)) :
    c.model = c'.model ∧ c.transport = c'.transport := by
  rcases Separator.cut_cases separator_transportMark separator_transportMark heq with
    ⟨hmodel, hrest⟩ | ⟨w, hmodel, htransport⟩ | ⟨w, hmodel, htransport⟩
  · exact ⟨hmodel, List.append_cancel_left hrest⟩
  · have hw : Closes w := ((hmodel ▸ closes_of_safe hs'.model).of_append).of_append
    exact absurd hw (h.transport w _ htransport hs'.transport)
  · have hw : Opens w := (htransport ▸ opens_of_safe hs'.transport).of_append
    exact absurd hw (h.modelBack _ w hmodel hs'.model)

/-- The size of another candidate does not lie behind that of this one. -/
theorem size_not_behind (h : Unmovable c) (hs : SafeTexts c) (hs' : SafeTexts c') {w : Text}
    (hfront : c'.devicePath ++ (identityMark ++ c'.identity) =
      (c.devicePath ++ (identityMark ++ c.identity)) ++ (sizeMark ++ w))
    (hback : decimal c.sizeBytes.toNat ++ (modelMark ++ (c.model ++ (transportMark ++ c.transport))) =
      w ++ (sizeMark ++ (decimal c'.sizeBytes.toNat ++ (modelMark ++ (c'.model ++
        (transportMark ++ c'.transport)))))) : False := by
  rcases Separator.cut_first separator_modelMark separator_sizeMark
    (backslash_notMem_decimal _) hback with ⟨-, hmarks⟩ | ⟨v, rfl, hrest⟩
  · exact modelMark_ne_sizeMark _ _ hmarks
  have hv : Closes v := by
    have hidentity : Closes (c'.devicePath ++ (identityMark ++ c'.identity)) :=
      ((closes_of_safe hs'.identity).append_right (ne_nil_of_safe hs'.identity)).append_right
        (by simp [identityMark, lit])
    rw [hfront] at hidentity
    exact hidentity.of_append.of_append.of_append.of_append
  have hcut : c.model ++ (transportMark ++ c.transport) =
      (v ++ (sizeMark ++ (decimal c'.sizeBytes.toNat ++ (modelMark ++ c'.model)))) ++
        (transportMark ++ c'.transport) := by
    rw [hrest]
    simp only [List.append_assoc]
  rcases Separator.cut_cases separator_transportMark separator_transportMark hcut with
    ⟨hmodel, -⟩ | ⟨x, hmodel, htransport⟩ | ⟨x, hmodel, -⟩
  · exact h.modelFront v _ _ hmodel hs'.sizeBytes hs'.model hv
  · -- The model of the other candidate reaches into the transport.
    have hx : Closes x := by
      have hclose : Closes (v ++ (sizeMark ++ (decimal c'.sizeBytes.toNat ++
          (modelMark ++ c'.model)))) :=
        ((((closes_of_safe hs'.model).append_right (ne_nil_of_safe hs'.model)).append_right
          (by simp [modelMark, lit])).append_right (by simp [modelMark, lit])).append_right
            (by simp [sizeMark, lit])
      rw [hmodel] at hclose
      exact hclose.of_append.of_append
    exact h.transport x _ htransport hs'.transport hx
  · -- The model ends in that of the other candidate and the beginning of its transport.
    obtain ⟨hword, hplain⟩ := safeMetadata_iff.mp hs.model
    have hsplit : c.model = v ++ (sizeMark ++ (decimal c'.sizeBytes.toNat ++ (modelMark ++
        (c'.model ++ (transportMark ++ x))))) := by
      rw [hmodel]
      simp only [List.append_assoc]
    have hne : c'.model ++ (transportMark ++ x) ≠ [] := by simp [transportMark, lit]
    have hsafe : safeMetadata (c'.model ++ (transportMark ++ x)) = true := by
      rw [hsplit] at hword hplain
      refine safeMetadata_iff.mpr ⟨word_of hne ?_ ?_, ?_⟩
      · exact (opens_of_safe hs'.model).append_left (ne_nil_of_safe hs'.model)
      · exact (closes_of_word hword).of_append.of_append.of_append.of_append
      · exact hplain.of_append.2.of_append.2.of_append.2.of_append.2
    exact h.modelFront v _ _ hsplit hs'.sizeBytes hsafe hv

/-- The size of another candidate does not lie before that of this one. -/
theorem size_not_before (h : Unmovable c) (hs : SafeTexts c) (hs' : SafeTexts c') {w : Text}
    (hfront : c.devicePath ++ (identityMark ++ c.identity) =
      (c'.devicePath ++ (identityMark ++ c'.identity)) ++ (sizeMark ++ w))
    (hback : decimal c'.sizeBytes.toNat ++ (modelMark ++ (c'.model ++
        (transportMark ++ c'.transport))) =
      w ++ (sizeMark ++ (decimal c.sizeBytes.toNat ++ (modelMark ++ (c.model ++
        (transportMark ++ c.transport)))))) : False := by
  rcases Separator.cut_first separator_modelMark separator_sizeMark
    (backslash_notMem_decimal _) hback with ⟨-, hmarks⟩ | ⟨v, rfl, hrest⟩
  · exact modelMark_ne_sizeMark _ _ hmarks
  have hv : Opens v := by
    have hmodel : Opens (c'.model ++ (transportMark ++ c'.transport)) :=
      (opens_of_safe hs'.model).append_left (ne_nil_of_safe hs'.model)
    rw [hrest] at hmodel
    exact hmodel.of_append
  have hcut : c.devicePath ++ (identityMark ++ c.identity) =
      c'.devicePath ++ (identityMark ++ (c'.identity ++ (sizeMark ++
        (decimal c'.sizeBytes.toNat ++ (modelMark ++ v))))) := by
    rw [hfront]
    simp only [List.append_assoc]
  rcases Separator.cut_cases separator_identityMark separator_identityMark hcut with
    ⟨-, hidentity⟩ | ⟨x, hpath, hidentity⟩ | ⟨x, hpath, hidentity⟩
  · exact h.identityBack _ _ v (List.append_cancel_left hidentity) hs'.sizeBytes hs'.identity hv
  · -- The device path of the other candidate reaches into the identity.
    have hx : Closes x := ((hpath ▸ closes_of_safe hs'.devicePath).of_append).of_append
    obtain ⟨hword, hplain⟩ := safeMetadata_iff.mp hs.identity
    rw [hidentity] at hword hplain
    refine h.identityFront x _ hidentity (safeMetadata_iff.mpr ⟨word_of ?_ ?_ ?_, ?_⟩) hx
    · simp [sizeMark, lit]
    · exact (opens_of_safe hs'.identity).append_left (ne_nil_of_safe hs'.identity)
    · exact (closes_of_word hword).of_append.of_append
    · exact hplain.of_append.2.of_append.2
  · -- The identity of the other candidate begins in the device path.
    have hx : Opens x := by
      have hopen : Opens (c'.identity ++ (sizeMark ++ (decimal c'.sizeBytes.toNat ++
          (modelMark ++ v)))) :=
        (opens_of_safe hs'.identity).append_left (ne_nil_of_safe hs'.identity)
      rw [hidentity] at hopen
      exact hopen.of_append
    exact h.device _ x hpath hs'.devicePath hx

theorem decimal_toNat_injective {n n' : UInt64} (h : decimal n.toNat = decimal n'.toNat) :
    n = n' := UInt64.toNat_inj.mp (decimal_injective h)

/-- Two candidates with the same text after the platform have the same texts, if no border of the
one can be moved. -/
theorem same_of_fieldText (h : Unmovable c) (hs : SafeTexts c) (hs' : SafeTexts c')
    (heq : fieldText c = fieldText c') :
    c.devicePath = c'.devicePath ∧ c.identity = c'.identity ∧ c.sizeBytes = c'.sizeBytes ∧
      c.model = c'.model ∧ c.transport = c'.transport := by
  have hcut : ∀ c : DiskCandidate, fieldText c =
      (c.devicePath ++ (identityMark ++ c.identity)) ++ (sizeMark ++ (decimal c.sizeBytes.toNat ++
        (modelMark ++ (c.model ++ (transportMark ++ c.transport))))) := by
    intro c
    simp only [fieldText, List.append_assoc]
  rw [hcut c, hcut c'] at heq
  rcases Separator.cut_cases separator_sizeMark separator_sizeMark heq with
    ⟨hfront, hback⟩ | ⟨w, hfront, hback⟩ | ⟨w, hfront, hback⟩
  · obtain ⟨hsize, hback⟩ := Separator.cut_unique separator_modelMark (backslash_notMem_decimal _)
      (backslash_notMem_decimal _) (List.append_cancel_left hback)
    obtain ⟨hpath, hidentity⟩ := same_front h hs' hfront
    obtain ⟨hmodel, htransport⟩ := same_back h hs' hback
    exact ⟨hpath, hidentity, decimal_toNat_injective hsize, hmodel, htransport⟩
  · exact (size_not_behind h hs hs' hfront hback).elim
  · exact (size_not_before h hs hs' hfront hback).elim

end

/-! ### Candidates of an inventory -/

section

variable (sha256 : Bytes → Sha256Digest)

/-- A candidate is what `make_candidate` makes of its texts, which are all safe metadata. -/
structure Inventoried (c : DiskCandidate) : Prop where
  made : makeCandidate sha256 c.platform c.devicePath c.rawDevicePath c.sizeBytes c.identity c.model
    c.transport = some c
  devicePath : safeMetadata c.devicePath = true

variable {sha256} {c c' : DiskCandidate} {platform : DiskPlatform}
  {path raw identity model transport : Text} {size : UInt64}

theorem inventoried_of_make
    (h : makeCandidate sha256 platform path raw size identity model transport = some c)
    (hpath : safeMetadata path = true) : Inventoried sha256 c := by
  have hmade := h
  unfold makeCandidate at h
  split_ifs at h
  cases h
  exact ⟨hmade, hpath⟩

theorem Inventoried.safe (h : Inventoried sha256 c) : SafeTexts c := by
  have hmade := h.made
  unfold makeCandidate at hmade
  split_ifs at hmade with hguard
  simp only [Bool.or_eq_true, decide_eq_true_eq, Bool.not_eq_true', not_or, Bool.not_eq_false]
    at hguard
  obtain ⟨⟨⟨hsize, hidentity⟩, hmodel⟩, htransport⟩ := hguard
  exact ⟨h.devicePath, hidentity, hsize, hmodel, htransport⟩

theorem Inventoried.fingerprint (h : Inventoried sha256 c) :
    c.fingerprint = sha256 (bytes (lit "aros-board-sd-disk-v1\\nplatform=" ++ (c.platform.label ++
      (deviceMark ++ (fieldText c ++ lit "\\n"))))) := by
  have hmade := h.made
  unfold makeCandidate at hmade
  split_ifs at hmade with hguard
  have hfingerprint := congrArg DiskCandidate.fingerprint (Option.some.inj hmade)
  rw [← hfingerprint]
  simp only [fingerprintMaterial_eq, fieldText, List.append_assoc]

theorem exists_inventoried (platform : DiskPlatform) (hpath : safeMetadata path = true)
    (hidentity : safeMetadata identity = true) (hsize : size ≠ 0)
    (hmodel : safeMetadata model = true) (htransport : safeMetadata transport = true) :
    ∃ c, Inventoried sha256 c ∧ c.platform = platform ∧ c.devicePath = path ∧
      c.identity = identity ∧ c.sizeBytes = size ∧ c.model = model ∧ c.transport = transport := by
  have hmade : makeCandidate sha256 platform path path size identity model transport = some _ :=
    if_neg (by simp [hidentity, hsize, hmodel, htransport])
  exact ⟨_, inventoried_of_make hmade hpath, rfl, rfl, rfl, rfl, rfl, rfl⟩

theorem label_injective : Function.Injective DiskPlatform.label := by
  intro a b h
  cases a <;> cases b <;> first | rfl | exact absurd h (by decide)

theorem length_label (platform : DiskPlatform) : platform.label.length = 5 := by
  cases platform <;> rfl

/-- Two candidates with one fingerprint have the same texts, if no border of the one can be
moved. -/
theorem sameDisk_of_unmovable (hinj : Function.Injective sha256) (hc : Inventoried sha256 c)
    (hc' : Inventoried sha256 c') (h : Unmovable c) (heq : c'.fingerprint = c.fingerprint) :
    SameDisk c' c := by
  rw [hc.fingerprint, hc'.fingerprint] at heq
  have htext := List.append_cancel_left (bytes_injective (hinj heq))
  obtain ⟨hlabel, hrest⟩ := List.append_inj htext (by rw [length_label, length_label])
  have hfields := List.append_cancel_right (List.append_cancel_left hrest)
  obtain ⟨hpath, hidentity, hsize, hmodel, htransport⟩ :=
    same_of_fieldText h hc.safe hc'.safe hfields.symm
  exact ⟨label_injective hlabel, hpath.symm, hidentity.symm, hsize.symm, hmodel.symm,
    htransport.symm⟩

/-- The fingerprint of a candidate is that of no other disk. -/
def Separates (sha256 : Bytes → Sha256Digest) (c : DiskCandidate) : Prop :=
  ∀ c', Inventoried sha256 c' → c'.fingerprint = c.fingerprint → SameDisk c' c

/-- Other texts that are put together to the same text would have the same fingerprint. -/
theorem same_of_separates (hsep : Separates sha256 c) (hc : Inventoried sha256 c)
    (hpath : safeMetadata path = true) (hidentity : safeMetadata identity = true) (hsize : size ≠ 0)
    (hmodel : safeMetadata model = true) (htransport : safeMetadata transport = true)
    (heq : path ++ (identityMark ++ (identity ++ (sizeMark ++ (decimal size.toNat ++ (modelMark ++
      (model ++ (transportMark ++ transport))))))) = fieldText c) :
    path = c.devicePath ∧ identity = c.identity ∧ model = c.model ∧ transport = c.transport := by
  obtain ⟨c', hc', hplatform, rfl, rfl, rfl, rfl, rfl⟩ := @exists_inventoried sha256 _ _ _ _ _
    c.platform hpath hidentity hsize hmodel htransport
  have hsame := hsep c' hc' (by
    rw [hc.fingerprint, hc'.fingerprint, hplatform, ← heq]
    rfl)
  exact ⟨hsame.devicePath, hsame.identity, hsame.model, hsame.transport⟩

theorem ne_append_mark {a s w : Text} (hs : s ≠ []) : a ≠ a ++ (s ++ w) := by
  intro h
  have hlength := congrArg List.length h
  have hpos := List.length_pos_of_ne_nil hs
  simp only [List.length_append] at hlength
  omega

theorem ne_mark_append {a s w : Text} (hs : s ≠ []) : w ++ (s ++ a) ≠ a := by
  intro h
  have hlength := congrArg List.length h
  have hpos := List.length_pos_of_ne_nil hs
  simp only [List.length_append] at hlength
  omega

/-- A fingerprint of one disk only is that of texts whose borders cannot be moved. -/
theorem unmovable_of_separates (hc : Inventoried sha256 c) (hsep : Separates sha256 c) :
    Unmovable c := by
  obtain ⟨hpath, hidentity, hsize, hmodel, htransport⟩ := hc.safe
  have hplain : ∀ {text}, safeMetadata text = true → Plain text :=
    fun h => (safeMetadata_iff.mp h).2
  constructor
  · intro path w hsplit hsafe hw
    have hpiece : Plain w := (hsplit ▸ hplain hpath : Plain _).of_append.2.of_append.2
    obtain ⟨hmoved, -⟩ := same_of_separates hsep hc hsafe
      (safe_before hw hpiece safe_identityMark hidentity) hsize hmodel htransport
      (by rw [fieldText, hsplit]; simp only [List.append_assoc])
    exact ne_append_mark (ne_nil_of_safe safe_identityMark) (hmoved.trans hsplit)
  · intro w identity hsplit hsafe hw
    have hpiece : Plain w := (hsplit ▸ hplain hidentity : Plain _).of_append.1
    obtain ⟨-, hmoved, -⟩ := same_of_separates hsep hc
      (safe_after hpath safe_identityMark hw hpiece) hsafe hsize hmodel htransport
      (by rw [fieldText, hsplit]; simp only [List.append_assoc])
    exact ne_mark_append (ne_nil_of_safe safe_identityMark) (hsplit.symm.trans hmoved.symm)
  · intro identity size w hsplit hne hsafe hw
    have hpiece : Plain w :=
      (hsplit ▸ hplain hidentity : Plain _).of_append.2.of_append.2.of_append.2.of_append.2
    obtain ⟨-, hmoved, -⟩ := same_of_separates hsep hc hpath hsafe hne
      (safe_before hw hpiece (safe_size c.sizeBytes.toNat) hmodel) htransport
      (by rw [fieldText, hsplit]; simp only [List.append_assoc])
    exact ne_append_mark (ne_nil_of_safe safe_sizeMark) (hmoved.trans hsplit)
  · intro w size model hsplit hne hsafe hw
    have hpiece : Plain w := (hsplit ▸ hplain hmodel : Plain _).of_append.1
    obtain ⟨-, -, hmoved, -⟩ := same_of_separates hsep hc hpath
      (safe_after hidentity (safe_size c.sizeBytes.toNat) hw hpiece) hne hsafe htransport
      (by rw [fieldText, hsplit]; simp only [List.append_assoc])
    have hlength := congrArg List.length (hsplit.symm.trans hmoved.symm)
    simp only [List.length_append, sizeMark, lit] at hlength
    have hpos : 0 < "\\nsize=".toList.length := by decide
    omega
  · intro model w hsplit hsafe hw
    have hpiece : Plain w := (hsplit ▸ hplain hmodel : Plain _).of_append.2.of_append.2
    obtain ⟨-, -, hmoved, -⟩ := same_of_separates hsep hc hpath hidentity hsize hsafe
      (safe_before hw hpiece safe_transportMark htransport)
      (by rw [fieldText, hsplit]; simp only [List.append_assoc])
    exact ne_append_mark (ne_nil_of_safe safe_transportMark) (hmoved.trans hsplit)
  · intro w transport hsplit hsafe hw
    have hpiece : Plain w := (hsplit ▸ hplain htransport : Plain _).of_append.1
    obtain ⟨-, -, -, hmoved⟩ := same_of_separates hsep hc hpath hidentity hsize
      (safe_after hmodel safe_transportMark hw hpiece) hsafe
      (by rw [fieldText, hsplit]; simp only [List.append_assoc])
    exact ne_mark_append (ne_nil_of_safe safe_transportMark) (hsplit.symm.trans hmoved.symm)

/-! ### Write tokens -/

/-- The fields of a candidate that the writer reads. -/
def DiskCandidate.forWriter (c : DiskCandidate) : SdDisk.DiskCandidate where
  scanId := c.scanId
  fingerprint := c.fingerprint
  sizeBytes := c.sizeBytes.toNat
  identity := bytes c.identity
  model := bytes c.model
  transport := bytes c.transport
  wholeDisk := c.wholeDisk
  removable := c.removable
  writable := c.writable
  mounted := c.mounted

/-- A lower-case hexadecimal digit. -/
def isHexDigit (b : UInt8) : Bool := (0x30 ≤ b && b ≤ 0x39) || (0x61 ≤ b && b ≤ 0x66)

/-- The digests of an artifact are those of two files. -/
structure OfFiles (sha256 : Bytes → Sha256Digest) (artifact : SdDisk.VerifiedImageArtifact) :
    Prop where
  manifest : ∃ bytes, sha256 bytes = artifact.manifestSha256
  image : ∃ bytes, sha256 bytes = artifact.imageSha256

/-- What a write token stands for. -/
structure SameWrite (artifact artifact' : SdDisk.VerifiedImageArtifact) (c c' : DiskCandidate) :
    Prop where
  manifestSha256 : artifact.manifestSha256 = artifact'.manifestSha256
  imageSha256 : artifact.imageSha256 = artifact'.imageSha256
  imageSizeBytes : artifact.imageSizeBytes = artifact'.imageSizeBytes
  minimumDeviceBytes : artifact.minimumDeviceBytes = artifact'.minimumDeviceBytes
  fingerprint : c.fingerprint = c'.fingerprint

theorem toNat_ofNat_digit {n : ℕ} {c : Char} (h : c ∈ Nat.toDigits 10 n) :
    (UInt8.ofNat c.toNat).toNat = c.toNat := by
  rw [UInt8.toNat_ofNat', Nat.mod_eq_of_lt]
  exact (digit_of_mem_toDigits h).2.trans_lt (by decide)

theorem decimalText_injective : Function.Injective SdDisk.decimalText := by
  intro m n h
  have hread : ∀ n, (SdDisk.decimalText n).map (fun b => Char.ofNat b.toNat) = Nat.toDigits 10 n := by
    intro n
    rw [SdDisk.decimalText, List.map_map]
    conv_rhs => rw [← List.map_id (Nat.toDigits 10 n)]
    refine List.map_congr_left fun c hc => ?_
    simp [toNat_ofNat_digit hc]
  exact decimal_injective ((hread m).symm.trans ((congrArg _ h).trans (hread n)))

theorem backslash_notMem_decimalText (n : ℕ) : (0x5c : UInt8) ∉ SdDisk.decimalText n := by
  intro h
  obtain ⟨c, hc, hbyte⟩ := List.mem_map.mp h
  obtain ⟨-, hhigh⟩ := digit_of_mem_toDigits hc
  have hvalue : c.toNat = 92 := (toNat_ofNat_digit hc).symm.trans (congrArg UInt8.toNat hbyte)
  omega

/-- A write token says which artifact and which fingerprint it is for. -/
theorem token_separates (hinj : Function.Injective sha256)
    (hhex : ∀ bytes, ∀ b ∈ sha256 bytes, isHexDigit b = true)
    {artifact artifact' : SdDisk.VerifiedImageArtifact} (h : OfFiles sha256 artifact)
    (h' : OfFiles sha256 artifact')
    (heq : SdDisk.confirmationToken sha256 artifact c.forWriter =
      SdDisk.confirmationToken sha256 artifact' c'.forWriter) : SameWrite artifact artifact' c c' := by
  have hdigest : ∀ bytes, (0x5c : UInt8) ∉ sha256 bytes :=
    fun bytes hmem => absurd (hhex bytes _ hmem) (by decide)
  have himage : Separator (0x5c : UInt8) (ascii "\\nimage=") := ⟨_, rfl, by decide⟩
  have hsize : Separator (0x5c : UInt8) (ascii "\\nimage_size=") := ⟨_, rfl, by decide⟩
  have hminimum : Separator (0x5c : UInt8) (ascii "\\nminimum_device=") := ⟨_, rfl, by decide⟩
  have hdisk : Separator (0x5c : UInt8) (ascii "\\ndisk=") := ⟨_, rfl, by decide⟩
  obtain ⟨⟨manifest, hm⟩, image, hi⟩ := h
  obtain ⟨⟨manifest', hm'⟩, image', hi'⟩ := h'
  have htext := hinj (List.append_cancel_left heq)
  simp only [List.append_assoc] at htext
  have htext := List.append_cancel_left htext
  obtain ⟨h1, htext⟩ := himage.cut_unique (hm ▸ hdigest _) (hm' ▸ hdigest _) htext
  obtain ⟨h2, htext⟩ := hsize.cut_unique (hi ▸ hdigest _) (hi' ▸ hdigest _) htext
  obtain ⟨h3, htext⟩ := hminimum.cut_unique (backslash_notMem_decimalText _)
    (backslash_notMem_decimalText _) htext
  obtain ⟨h4, htext⟩ := hdisk.cut_unique (backslash_notMem_decimalText _)
    (backslash_notMem_decimalText _) htext
  exact ⟨h1, h2, decimalText_injective h3, decimalText_injective h4, List.append_cancel_right htext⟩

/-- **A fingerprint is that of one disk only exactly when no border can be moved**; a token always
says which artifact and which fingerprint it is for. -/
theorem fingerprint_separates_iff (hinj : Function.Injective sha256)
    (hhex : ∀ bytes, ∀ b ∈ sha256 bytes, isHexDigit b = true) (hc : Inventoried sha256 c) :
    (Separates sha256 c ∧ ∀ artifact artifact' c', OfFiles sha256 artifact →
      OfFiles sha256 artifact' →
        SdDisk.confirmationToken sha256 artifact c.forWriter =
          SdDisk.confirmationToken sha256 artifact' c'.forWriter →
        SameWrite artifact artifact' c c') ↔ Unmovable c := by
  constructor
  · exact fun h => unmovable_of_separates hc h.1
  · intro h
    exact ⟨fun c' hc' heq => sameDisk_of_unmovable hinj hc hc' h heq,
      fun _ _ _ ha ha' heq => token_separates hinj hhex ha ha' heq⟩

/-- Texts without a backslash cannot be moved. -/
theorem unmovable_of_notMem (hpath : '\\' ∉ c.devicePath) (hidentity : '\\' ∉ c.identity)
    (hmodel : '\\' ∉ c.model) (htransport : '\\' ∉ c.transport) : Unmovable c := by
  have hmark : ∀ {text a s b : Text}, '\\' ∉ text → Separator '\\' s → text ≠ a ++ (s ++ b) := by
    rintro _ a s b h hs rfl
    exact h (List.mem_append_right _ (List.mem_append_left _ hs.mem))
  exact
    { device := fun _ _ h => absurd h (hmark hpath separator_identityMark)
      identityFront := fun _ _ h => absurd h (hmark hidentity separator_identityMark)
      identityBack := fun _ _ _ h => absurd h (hmark hidentity separator_sizeMark)
      modelFront := fun _ _ _ h => absurd h (hmark hmodel separator_sizeMark)
      modelBack := fun _ _ h => absurd h (hmark hmodel separator_transportMark)
      transport := fun _ _ h => absurd h (hmark htransport separator_transportMark) }

end

/-! ### Two disks with one fingerprint -/

/-- The node of an empty card with a serial number, a size and a model. -/
def plainCard (serial : String) (size : UInt64) (model : String) : JsonValue :=
  .object (nodeFields "disk" "/dev/sdb" ++
    [(lit "pkname", .null), (lit "rm", .bool true), (lit "hotplug", .bool true),
      (lit "ro", .bool false), (lit "tran", .string (lit "usb")), (lit "size", .number (.posInt size)),
      (lit "model", .string (lit model)), (lit "serial", .string (lit serial))])

/-- A size and a model within a serial number, and an identity within a model, make one text. -/
theorem fingerprint_eq_of_moved (sha256 : Bytes → Sha256Digest) :
    ∃ c c', linuxCandidateFromNode sha256 (plainCard "A\\nsize=1\\nmodel=B" 2 "C") = some c ∧
      linuxCandidateFromNode sha256 (plainCard "A" 1 "B\\nsize=2\\nmodel=C") = some c' ∧
      c.fingerprint = c'.fingerprint ∧ c.identity ≠ c'.identity ∧ c.sizeBytes ≠ c'.sizeBytes ∧
      c.model ≠ c'.model := by
  have hidentity : lit "serial:A\\nsize=1\\nmodel=B" ≠ lit "serial:A" := by decide
  have hsize : (2 : UInt64) ≠ 1 := by decide
  have hmodel : lit "C" ≠ lit "B\\nsize=2\\nmodel=C" := by decide
  exact ⟨_, _, rfl, rfl, rfl, hidentity, hsize, hmodel⟩

/-! ### The card of the scan -/

/-- The text of the card. -/
def cardText : Bytes :=
  bytes (fingerprintMaterial .linux (lit "/dev/sdb") 33554432 (lit "serial:CARD-01")
    (lit "ACME Reader") (lit "usb"))

/-- A hash function that knows the digest of the card; every other text has a longer one. -/
def cardHash (text : Bytes) : Sha256Digest :=
  if text = cardText then cardDigest
  else List.replicate 66 0x30 ++ text.flatMap fun b => hexDigits 2 b.toNat

theorem isHexDigit_hexDigits {w n : ℕ} : ∀ b ∈ hexDigits w n, isHexDigit b = true := by
  have hdigit : ∀ d < 16, isHexDigit (hexDigit d) = true := by decide
  induction w generalizing n with
  | zero => exact fun b hb => absurd hb List.not_mem_nil
  | succ w ih =>
    intro b hb
    rcases List.mem_append.mp hb with hb | hb
    · exact ih b hb
    · rw [List.mem_singleton.mp hb]
      exact hdigit _ (Nat.mod_lt n (by decide))

theorem hexText_injective :
    Function.Injective fun text : Bytes => text.flatMap fun b => hexDigits 2 b.toNat := by
  intro a
  induction a with
  | nil =>
    intro b h
    cases b with
    | nil => rfl
    | cons x b => exact absurd (congrArg List.length h) (by simp [length_hexDigits]; omega)
  | cons x a ih =>
    intro b h
    cases b with
    | nil => exact absurd (congrArg List.length h) (by simp [length_hexDigits])
    | cons y b =>
      simp only [List.flatMap_cons] at h
      obtain ⟨hx, hrest⟩ := List.append_inj h (by rw [length_hexDigits, length_hexDigits])
      rw [UInt8.toNat_inj.mp (hexDigits_inj x.toNat_lt y.toNat_lt hx), ih hrest]

theorem cardHash_injective : Function.Injective cardHash := by
  have hlength : ∀ text : Bytes, cardDigest ≠
      List.replicate 66 0x30 ++ text.flatMap fun b => hexDigits 2 b.toNat := by
    intro text h
    have hle := congrArg List.length h
    have hdigest : cardDigest.length = 64 := by decide
    rw [hdigest, List.length_append, List.length_replicate] at hle
    omega
  intro a b h
  unfold cardHash at h
  split_ifs at h with ha hb hb
  · rw [ha, hb]
  · exact absurd h (hlength b)
  · exact absurd h.symm (hlength a)
  · exact hexText_injective (List.append_cancel_left h)

/-- Two disks have one fingerprint, under a hash that is injective. -/
theorem moved_border : Function.Injective cardHash ∧
    ∃ c c', linuxCandidateFromNode cardHash (plainCard "A\\nsize=1\\nmodel=B" 2 "C") = some c ∧
      linuxCandidateFromNode cardHash (plainCard "A" 1 "B\\nsize=2\\nmodel=C") = some c' ∧
      c.fingerprint = c'.fingerprint ∧ c.identity ≠ c'.identity ∧ c.sizeBytes ≠ c'.sizeBytes ∧
      c.model ≠ c'.model :=
  ⟨cardHash_injective, fingerprint_eq_of_moved cardHash⟩

theorem isHexDigit_cardHash (text : Bytes) : ∀ b ∈ cardHash text, isHexDigit b = true := by
  intro b hb
  unfold cardHash at hb
  split_ifs at hb
  · revert b
    exact @of_decide_eq_true _ (List.decidableBAll _ _) rfl
  · rcases List.mem_append.mp hb with hb | hb
    · rw [(List.mem_replicate.mp hb).2]
      decide
    · obtain ⟨x, -, hx⟩ := List.mem_flatMap.mp hb
      exact isHexDigit_hexDigits b hx

theorem inventoried_card : Inventoried cardHash cardCandidate := by
  have hhash : cardHash cardText = cardDigest := if_pos rfl
  refine ⟨?_, by decide⟩
  have hmake : makeCandidate cardHash .linux (lit "/dev/sdb") (lit "/dev/sdb") 33554432
      (lit "serial:CARD-01") (lit "ACME Reader") (lit "usb") = some
        { cardCandidate with
          scanId := bytes (lit "linux-") ++ (cardHash cardText).take 16
          fingerprint := cardHash cardText } := by rfl
  rw [hhash] at hmake
  exact hmake

theorem fingerprint_separates_card : Separates cardHash cardCandidate := by
  refine ((fingerprint_separates_iff cardHash_injective isHexDigit_cardHash inventoried_card).mpr
    ?_).1
  exact unmovable_of_notMem (by decide) (by decide) (by decide) (by decide)

end DiskInventory

end ArosTools
