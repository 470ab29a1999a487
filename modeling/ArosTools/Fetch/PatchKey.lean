import ArosTools.Program.Separator
import ArosTools.Program.Utf8Text

/-!
# The key of a patch declaration

Patches are cached under the digest of their declaration: the name, the subdirectory, the options,
the origins and the digests declared for the four files that the patch may come from. A field ends
at a mark: a byte that occurs in none of them.

* `patchDeclarationKey` : the key, for a digest that is a parameter.
* `patch_key_separates` : **two declarations with the same key are the same.**
-/

namespace ArosTools

namespace Fetch

open Str

/-! ### The key -/

/-- `Sha256Digest`: the text of a digest. -/
structure DeclaredDigest where
  text : Text
  hex : text.length = 64 ∧ ∀ c ∈ text, ('0' ≤ c ∧ c ≤ '9') ∨ ('a' ≤ c ∧ c ≤ 'f')
  deriving DecidableEq

/-- `PatchSpec` -/
structure PatchSpec where
  name : Text
  subdirectory : Option Text
  options : List Text
  deriving DecidableEq

/-- `FetchRequest`: where patches come from, and the digests declared for files. -/
structure FetchRequest where
  patchOrigins : List Text
  checksums : Text → Option DeclaredDigest

/-- The files a patch may come from: itself and its archives. -/
def patchCandidates (name : Text) : List Text :=
  name :: ["tar.bz2", "tar.gz", "zip"].map fun suffix => name ++ '.' :: lit suffix

/-- What the declaration says of a candidate's digest. -/
def digestBytes (request : FetchRequest) (candidate : Text) : List UInt8 :=
  match request.checksums candidate with
  | some digest => 0x3d :: bytes digest.text
  | none => []

/-- The bytes that `patch_declaration_key` hashes. -/
def patchDeclaration (patch : PatchSpec) (request : FetchRequest) : List UInt8 :=
  bytes (lit "aros-fetch-patch-declaration-v1") ++ [0] ++ bytes patch.name ++ [0] ++
    (patch.subdirectory.elim [] bytes ++
      ((patch.options.map bytes).flatMap (0 :: ·) ++
        ((request.patchOrigins.map bytes).flatMap (0xff :: ·) ++
          (patchCandidates patch.name).flatMap fun candidate =>
            0xfe :: (bytes candidate ++ digestBytes request candidate))))

/-- `patch_declaration_key`, for a digest of bytes. -/
def patchDeclarationKey (sha256Bytes : List UInt8 → Text) (patch : PatchSpec)
    (request : FetchRequest) : Text :=
  sha256Bytes (patchDeclaration patch request)

/-! ### Marks -/

/-- The bytes that fields end at. -/
def IsMark (b : UInt8) : Prop := b = 0 ∨ b = 0xff ∨ b = 0xfe

/-- No byte of a character is one of the two marks beyond UTF-8. -/
theorem utf8EncodeChar_lt {c : Char} {b : UInt8} (hb : b ∈ String.utf8EncodeChar c) : b < 0xf8 := by
  rw [String.utf8EncodeChar] at hb
  split_ifs at hb with hone
  · simp only [List.mem_cons, List.not_mem_nil, or_false] at hb
    rw [UInt8.lt_iff_toNat_lt, hb]
    simp only [UInt8.toNat_ofNat', UInt8.reduceToNat]
    omega
  all_goals
    simp only [List.mem_cons, List.not_mem_nil, or_false] at hb
    rw [UInt8.lt_iff_toNat_lt]
    rcases hb with rfl | rfl | rfl | rfl <;>
      simp only [UInt8.toNat_ofNat', UInt8.reduceToNat] <;> omega

theorem notMark_bytes {text : Text} (h : '\x00' ∉ text) : ∀ b ∈ bytes text, ¬ IsMark b := by
  intro b hb hmark
  rw [bytes_eq_flatMap, List.mem_flatMap] at hb
  obtain ⟨c, hc, hb⟩ := hb
  have hlt := utf8EncodeChar_lt hb
  rcases hmark with rfl | rfl | rfl
  · rcases Nat.lt_or_ge c.toNat 0x80 with hascii | hwide
    · rw [utf8EncodeChar_ascii hascii, List.mem_singleton] at hb
      have hzero := congrArg UInt8.toNat hb
      rw [byte, UInt8.toNat_ofNat'] at hzero
      have hnul : c = '\x00' := Char.toNat_inj.mp (by
        have : (0 : UInt8).toNat = 0 := rfl
        have : '\x00'.toNat = 0 := rfl
        omega)
      exact h (hnul ▸ hc)
    · exact absurd (utf8EncodeChar_wide hwide hb) (by decide)
  · exact absurd hlt (by decide)
  · exact absurd hlt (by decide)

/-- The text fields of a declaration contain no NUL. -/
structure NulFree (patch : PatchSpec) (request : FetchRequest) : Prop where
  name : '\x00' ∉ patch.name
  subdirectory : ∀ path ∈ patch.subdirectory, '\x00' ∉ path
  options : ∀ option ∈ patch.options, '\x00' ∉ option
  origins : ∀ origin ∈ request.patchOrigins, '\x00' ∉ origin

namespace NulFree

variable {patch : PatchSpec} {request : FetchRequest}

theorem notMark_subdirectory (h : NulFree patch request) :
    ∀ b ∈ patch.subdirectory.elim [] bytes, ¬ IsMark b := by
  cases hpath : patch.subdirectory with
  | none => simp
  | some path => exact notMark_bytes (h.subdirectory path hpath)

theorem notMark_options (h : NulFree patch request) :
    ∀ field ∈ patch.options.map bytes, ∀ b ∈ field, ¬ IsMark b := by
  rintro field hfield
  obtain ⟨option, hoption, rfl⟩ := List.mem_map.mp hfield
  exact notMark_bytes (h.options option hoption)

theorem notMark_origins (h : NulFree patch request) :
    ∀ field ∈ request.patchOrigins.map bytes, ∀ b ∈ field, ¬ IsMark b := by
  rintro field hfield
  obtain ⟨origin, horigin, rfl⟩ := List.mem_map.mp hfield
  exact notMark_bytes (h.origins origin horigin)

theorem candidate (h : NulFree patch request) :
    ∀ candidate ∈ patchCandidates patch.name, '\x00' ∉ candidate := by
  intro candidate hmem
  rcases List.mem_cons.mp hmem with rfl | hmem
  · exact h.name
  · obtain ⟨suffix, hsuffix, rfl⟩ := List.mem_map.mp hmem
    have hclean : ∀ suffix ∈ ["tar.bz2", "tar.gz", "zip"], '\x00' ∉ '.' :: lit suffix := by decide
    rw [List.mem_append, not_or]
    exact ⟨h.name, hclean suffix hsuffix⟩

end NulFree

/-! ### Digests of candidates -/

theorem notMark_digestBytes (request : FetchRequest) (candidate : Text) :
    ∀ b ∈ digestBytes request candidate, ¬ IsMark b := by
  unfold digestBytes
  cases request.checksums candidate with
  | none => simp
  | some digest =>
    have hnul : '\x00' ∉ digest.text := fun hmem => by
      rcases digest.hex.2 _ hmem with ⟨h, -⟩ | ⟨h, -⟩
      · exact absurd h (by decide)
      · exact absurd h (by decide)
    exact List.forall_mem_cons.mpr ⟨by unfold IsMark; decide, notMark_bytes hnul⟩

theorem checksums_eq_of_digestBytes {request request' : FetchRequest} {candidate : Text}
    (h : digestBytes request candidate = digestBytes request' candidate) :
    request.checksums candidate = request'.checksums candidate := by
  unfold digestBytes at h
  cases hdigest : request.checksums candidate with
  | none =>
    cases hdigest' : request'.checksums candidate with
    | none => rfl
    | some digest' => simp [hdigest, hdigest'] at h
  | some digest =>
    cases hdigest' : request'.checksums candidate with
    | none => simp [hdigest, hdigest'] at h
    | some digest' =>
      simp only [hdigest, hdigest', List.cons.injEq, true_and] at h
      have htext := bytes_injective h
      obtain ⟨text, hex⟩ := digest
      obtain ⟨text', hex'⟩ := digest'
      cases htext
      rfl

/-- The digests of candidates, each behind its name. -/
theorem candidates_unique {candidates : List Text} {request request' : FetchRequest}
    (hnul : ∀ candidate ∈ candidates, '\x00' ∉ candidate)
    (h : candidates.flatMap (fun c => 0xfe :: (bytes c ++ digestBytes request c)) =
      candidates.flatMap fun c => 0xfe :: (bytes c ++ digestBytes request' c)) :
    ∀ candidate ∈ candidates, request.checksums candidate = request'.checksums candidate := by
  have hfields : ∀ r : FetchRequest, candidates.flatMap
      (fun c => 0xfe :: (bytes c ++ digestBytes r c)) =
        (candidates.map fun c => bytes c ++ digestBytes r c).flatMap (0xfe :: ·) ++ [] := by
    intro r
    rw [List.append_nil, List.flatMap_map]
  have hclean : ∀ r : FetchRequest, ∀ field ∈ candidates.map fun c => bytes c ++ digestBytes r c,
      ∀ b ∈ field, ¬ IsMark b := by
    rintro r field hfield b hb
    obtain ⟨c, hc, rfl⟩ := List.mem_map.mp hfield
    rcases List.mem_append.mp hb with hb | hb
    · exact notMark_bytes (hnul c hc) b hb
    · exact notMark_digestBytes r c b hb
  have hend : BeginsWith (fun x => IsMark x ∧ x ≠ 0xfe) [] := fun x hx => by cases hx
  rw [hfields, hfields] at h
  obtain ⟨hmap, -⟩ := fields_unique (.inr (.inr rfl)) (hclean request) (hclean request') hend hend h
  intro candidate hmem
  have hsame := List.map_inj_left.mp hmap candidate hmem
  exact checksums_eq_of_digestBytes (List.append_cancel_left hsame)

/-- **Two declarations with the same key are the same**: in their names, subdirectories, options and
origins and in the digests of their candidates. -/
theorem patch_key_separates (sha256Bytes : List UInt8 → Text)
    (hsha : Function.Injective sha256Bytes) (patch patch' : PatchSpec)
    (request request' : FetchRequest) (h : NulFree patch request) (h' : NulFree patch' request')
    (hkey : patchDeclarationKey sha256Bytes patch request =
      patchDeclarationKey sha256Bytes patch' request') :
    patch.name = patch'.name ∧
      patch.subdirectory.getD [] = patch'.subdirectory.getD [] ∧
      patch.options = patch'.options ∧ request.patchOrigins = request'.patchOrigins ∧
      ∀ candidate ∈ patchCandidates patch.name,
        request.checksums candidate = request'.checksums candidate := by
  have hbytes := hsha hkey
  simp only [patchDeclaration, List.append_assoc] at hbytes
  have hbytes := List.append_cancel_left (List.append_cancel_left hbytes)
  -- The name ends at the first NUL.
  have hzero : ∀ rest : List UInt8, BeginsWith IsMark ([0] ++ rest) := by
    intro rest x hx
    obtain rfl : 0 = x := by simpa using hx
    exact .inl rfl
  obtain ⟨hname, hbytes⟩ := piece_unique (notMark_bytes h.name) (notMark_bytes h'.name) (hzero _)
    (hzero _) hbytes
  have hname := bytes_injective hname
  have hbytes := List.append_cancel_left hbytes
  -- Behind it, every part ends at a mark of the parts behind.
  have hcandidates : ∀ {p : PatchSpec} {r : FetchRequest},
      BeginsWith (fun x => IsMark x ∧ x ≠ 0xff) ((patchCandidates p.name).flatMap fun candidate =>
        0xfe :: (bytes candidate ++ digestBytes r candidate)) := by
    intro p r x hx
    obtain rfl : 0xfe = x := by simpa [patchCandidates] using hx
    exact ⟨.inr (.inr rfl), by decide⟩
  have horigins : ∀ {p : PatchSpec} {r : FetchRequest}, BeginsWith (fun x => IsMark x ∧ x ≠ 0)
      ((r.patchOrigins.map bytes).flatMap (0xff :: ·) ++
        (patchCandidates p.name).flatMap fun candidate =>
          0xfe :: (bytes candidate ++ digestBytes r candidate)) := by
    intro p r
    refine .fields ⟨.inr (.inl rfl), by decide⟩ fun x hx => ?_
    obtain rfl : 0xfe = x := by simpa [patchCandidates] using hx
    exact ⟨.inr (.inr rfl), by decide⟩
  obtain ⟨hsubdirectory, hbytes⟩ := piece_unique h.notMark_subdirectory h'.notMark_subdirectory
    (.fields (.inl rfl) horigins.marked) (.fields (.inl rfl) horigins.marked) hbytes
  obtain ⟨hoptions, hbytes⟩ := fields_unique (.inl rfl) h.notMark_options h'.notMark_options horigins
    horigins hbytes
  obtain ⟨horigin, hbytes⟩ := fields_unique (.inr (.inl rfl)) h.notMark_origins h'.notMark_origins
    hcandidates hcandidates hbytes
  refine ⟨hname, ?_, List.map_injective_iff.mpr bytes_injective hoptions,
    List.map_injective_iff.mpr bytes_injective horigin, ?_⟩
  · have hgetD : ∀ path : Option Text, bytes (path.getD []) = path.elim [] bytes := by
      intro path
      cases path <;> rfl
    refine bytes_injective ?_
    rw [hgetD, hgetD]
    exact hsubdirectory
  · rw [← hname] at hbytes
    exact candidates_unique h.candidate hbytes

/-- The character with the number of a byte. -/
def latinChar (b : UInt8) : Char :=
  Char.ofNatAux b.toNat (.inl (by have := b.toNat_lt; omega))

/-- Bytes as the characters with their numbers. -/
def latin (bytes : List UInt8) : Text := bytes.map latinChar

theorem latin_injective : Function.Injective latin := by
  refine List.map_injective_iff.mpr fun a b h => UInt8.toNat_inj.mp ?_
  have hvalid : ∀ c : UInt8, (latinChar c).toNat = c.toNat := fun c => rfl
  rw [← hvalid, ← hvalid, h]

/-- A patch without a subdirectory and with an empty one. -/
theorem patch_key_empty_subdirectory :
    patchDeclarationKey latin ⟨lit "fix.patch", none, [lit "-p1"]⟩ ⟨[lit "a"], fun _ => none⟩ =
      patchDeclarationKey latin ⟨lit "fix.patch", some [], [lit "-p1"]⟩ ⟨[lit "a"], fun _ => none⟩ ∧
    (none : Option Text).getD [] = (some []).getD [] :=
  have hkey : patchDeclarationKey latin ⟨lit "fix.patch", none, [lit "-p1"]⟩
      ⟨[lit "a"], fun _ => none⟩ =
        patchDeclarationKey latin ⟨lit "fix.patch", some [], [lit "-p1"]⟩
          ⟨[lit "a"], fun _ => none⟩ := rfl
  ⟨hkey, (patch_key_separates latin latin_injective _ _ _ _
    ⟨by decide, by simp, by decide, by decide⟩ ⟨by decide, by simp, by decide, by decide⟩
    hkey).2.1⟩

end Fetch

end ArosTools
