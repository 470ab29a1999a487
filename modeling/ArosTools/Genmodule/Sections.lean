import ArosTools.Genmodule.Vectors

/-!
# The two readers of section markers

The module parser and the interface parser both look at the section markers of a configuration,
each with a reading of its own. Here a text is compared with a respaced copy of it (`Respaced`:
other blanks behind `##`, and between the keyword and the section name), and the lines that the
module parser skips because of an interface (`skippedLines`) with the lines of the interfaces that
the interface parser finds (`interfaceLines`).

* `parseInterfaces_respaced` — the interface parser does not see the difference;
* `sections_agree` — the module parser does not either as long as it reads both spellings of a
  marker alike, and both parsers cut out the same lines of a text whose interfaces are closed in
  step.
-/

namespace ArosTools

namespace Genmodule

open Str

/-! ### Markers and their spacing -/

/-- A section marker with the blanks it is written with. -/
structure Marker where
  lead : Text
  gap : Text
  keyword : Text
  between : Text
  name : Text
  trail : Text

namespace Marker

/-- The marker without the blanks around it. -/
def text (m : Marker) : Text := lit "##" ++ (m.gap ++ (m.keyword ++ m.between ++ m.name))

/-- The line of the marker. -/
def line (m : Marker) : Text := m.lead ++ m.text ++ m.trail

/-- A well-formed marker, with at least one blank between the keyword and the name. -/
structure Valid (m : Marker) : Prop where
  lead : Blank m.lead
  gap : Blank m.gap
  keyword : m.keyword = lit "begin" ∨ m.keyword = lit "end"
  between : Blank m.between
  separated : m.between ≠ []
  name : Word m.name
  trail : Blank m.trail

/-- The same marker up to the blanks behind `##` and in front of the name. -/
structure Alike (m m' : Marker) : Prop where
  lead : m'.lead = m.lead
  keyword : m'.keyword = m.keyword
  name : m'.name = m.name
  trail : m'.trail = m.trail

variable {m : Marker}

theorem word_lit_begin : Word (lit "begin") :=
  ⟨⟨'b', lit "egin", rfl, by decide⟩, ⟨lit "begi", 'n', rfl, by decide⟩⟩

theorem word_lit_end : Word (lit "end") :=
  ⟨⟨'e', lit "nd", rfl, by decide⟩, ⟨lit "en", 'd', rfl, by decide⟩⟩

theorem word_lit_hashes : Word (lit "##") :=
  ⟨⟨'#', lit "#", rfl, by decide⟩, ⟨lit "#", '#', rfl, by decide⟩⟩

theorem Valid.word_keyword (h : m.Valid) : Word m.keyword := by
  rcases h.keyword with hk | hk
  · rw [hk]
    exact word_lit_begin
  · rw [hk]
    exact word_lit_end

theorem Valid.word_directive (h : m.Valid) : Word (m.keyword ++ m.between ++ m.name) :=
  h.word_keyword.append h.name m.between

theorem Valid.word_text (h : m.Valid) : Word m.text := by
  rw [text, ← List.append_assoc]
  exact word_lit_hashes.append h.word_directive m.gap

theorem Valid.trim_line (h : m.Valid) : trim m.line = m.text := h.word_text.trim_blank h.lead h.trail

/-- The interface parser sees the keyword and the name only. -/
theorem Valid.isSection (h : m.Valid) {keyword : Text}
    (hkeyword : keyword = lit "begin" ∨ keyword = lit "end") (name : Text) :
    isSection m.line keyword name = decide (m.keyword = keyword ∧ m.name = name) := by
  have hstart : trimStart (m.gap ++ (m.keyword ++ m.between ++ m.name)) =
      m.keyword ++ (m.between ++ m.name) := by
    rw [trimStart_blank h.gap, List.append_assoc, h.word_keyword.trimStart_append]
  have hname : trim (m.between ++ m.name) = m.name := by
    have htrim := h.name.trim_blank h.between (show Blank [] from nofun)
    rwa [List.append_nil] at htrim
  unfold Genmodule.isSection
  rw [h.trim_line, text, stripPrefix_append]
  simp only [hstart]
  by_cases hsame : m.keyword = keyword
  · rw [hsame, stripPrefix_append]
    simp [hname]
  · -- `begin` and `end` are no prefix of one another.
    have hnone : stripPrefix keyword (m.keyword ++ (m.between ++ m.name)) = none := by
      rcases hkeyword with rfl | rfl <;> rcases h.keyword with hk | hk
      · exact absurd hk hsame
      · rw [hk]
        rfl
      · rw [hk]
        rfl
      · exact absurd hk hsame
    rw [hnone]
    simp [hsame]

end Marker

/-- Two spellings of a line: the same line, or two spellings of a section marker. -/
inductive RespacedLine : Text → Text → Prop where
  | same (line : Text) : RespacedLine line line
  | marker {m m' : Marker} (h : m.Valid) (h' : m'.Valid) (alike : m.Alike m') :
    RespacedLine m.line m'.line

/-- Two texts that differ in the spacing of their section markers only. -/
def Respaced (content content' : Text) : Prop :=
  List.Forall₂ RespacedLine (lines content) (lines content')

/-! ### The interface parser -/

theorem isSection_trim (line keyword name : Text) :
    isSection (trim line) keyword name = isSection line keyword name := by
  rw [isSection, isSection, trim_trim]

namespace RespacedLine

variable {line line' : Text}

theorem isSection_eq (h : RespacedLine line line') {keyword : Text}
    (hkeyword : keyword = lit "begin" ∨ keyword = lit "end") (name : Text) :
    isSection line' keyword name = isSection line keyword name := by
  cases h with
  | same => rfl
  | marker h h' alike =>
    rw [h.isSection hkeyword, h'.isSection hkeyword, alike.keyword, alike.name]

theorem begins_eq (h : RespacedLine line line') (name : String) :
    begins name line' = begins name line := h.isSection_eq (.inl rfl) _

theorem ends_eq (h : RespacedLine line line') (name : String) :
    ends name line' = ends name line := h.isSection_eq (.inr rfl) _

theorem interfaceConfigLine_marker {m : Marker} (h : m.Valid) (iface : Interface) :
    interfaceConfigLine iface m.line = iface := by
  obtain ⟨tail, rest, hwords⟩ :=
    splitWhitespace_cons (show isWhitespace '#' = false by decide)
      (lit "#" ++ (m.gap ++ (m.keyword ++ m.between ++ m.name)))
  have htrim : splitWhitespace (trim m.line) = ('#' :: tail) :: rest := by
    rw [h.trim_line]
    exact hwords
  unfold interfaceConfigLine
  rw [htrim]
  cases rest with
  | nil => rfl
  | cons val rest => simp [lit]

theorem interfaceConfigLine_eq (h : RespacedLine line line') (iface : Interface) :
    interfaceConfigLine iface line' = interfaceConfigLine iface line := by
  cases h with
  | same => rfl
  | marker h h' alike =>
    rw [interfaceConfigLine_marker h, interfaceConfigLine_marker h']

theorem entryLine_marker {m : Marker} (h : m.Valid) (isAttribute : Bool) (s : List Entry × ℕ) :
    entryLine isAttribute s m.line = s := by
  have htrim : trim (trimEnd m.line) = m.text := by
    have hend : trimEnd m.line = m.lead ++ m.text := by
      rw [Marker.line, trimEnd_blank h.trail, h.word_text.trimEnd_append]
    have hblank := h.word_text.trim_blank h.lead (show Blank [] from nofun)
    rw [hend]
    rwa [List.append_nil] at hblank
  unfold entryLine
  rw [htrim]
  simp [Marker.text, lit, startsWith]

theorem entryLine_eq (h : RespacedLine line line') (isAttribute : Bool) (s : List Entry × ℕ) :
    entryLine isAttribute s line' = entryLine isAttribute s line := by
  cases h with
  | same => rfl
  | marker h h' alike => rw [entryLine_marker h, entryLine_marker h']

end RespacedLine

section Lists

variable {ls ls' : List Text}

theorem sectionBody_respaced (h : List.Forall₂ RespacedLine ls ls') (name : String) :
    List.Forall₂ RespacedLine (sectionBody name ls) (sectionBody name ls') := by
  unfold sectionBody
  induction h with
  | nil => exact .nil
  | @cons line line' ls ls' hline _ ih =>
    rw [List.takeWhile_cons, List.takeWhile_cons, hline.ends_eq]
    by_cases hend : (!ends name line) = true
    · rw [if_pos hend, if_pos hend]
      exact .cons hline ih
    · rw [if_neg hend, if_neg hend]
      exact .nil

theorem afterSection_respaced (h : List.Forall₂ RespacedLine ls ls') (name : String) :
    List.Forall₂ RespacedLine (afterSection name ls) (afterSection name ls') := by
  unfold afterSection
  induction h with
  | nil => exact .nil
  | @cons line line' ls ls' hline hrest ih =>
    rw [List.dropWhile_cons, List.dropWhile_cons, hline.ends_eq]
    by_cases hend : (!ends name line) = true
    · rw [if_pos hend, if_pos hend]
      exact ih
    · rw [if_neg hend, if_neg hend]
      exact hrest

theorem foldl_respaced {σ : Type} {f : σ → Text → σ}
    (hf : ∀ {line line' : Text}, RespacedLine line line' → ∀ s, f s line' = f s line)
    (h : List.Forall₂ RespacedLine ls ls') (s : σ) : ls'.foldl f s = ls.foldl f s := by
  induction h generalizing s with
  | nil => rfl
  | cons hline _ ih => rw [List.foldl_cons, List.foldl_cons, hf hline, ih]

theorem parseEntryList_respaced (h : List.Forall₂ RespacedLine ls ls') (isAttribute : Bool) :
    parseEntryList ls' isAttribute = parseEntryList ls isAttribute := by
  rw [parseEntryList, parseEntryList,
    foldl_respaced (fun hline s => hline.entryLine_eq isAttribute s) h]

/-- The section is the same, and the lines behind it are respaced lines. -/
theorem interfaceBody_respaced (fuel : ℕ) (iface : Interface)
    (h : List.Forall₂ RespacedLine ls ls') :
    (interfaceBody fuel iface ls').1 = (interfaceBody fuel iface ls).1 ∧
      List.Forall₂ RespacedLine (interfaceBody fuel iface ls).2 (interfaceBody fuel iface ls').2 := by
  induction fuel generalizing iface ls ls' with
  | zero => exact ⟨rfl, h⟩
  | succ fuel ih =>
    cases h with
    | nil => exact ⟨rfl, .nil⟩
    | @cons line line' ls ls' hline hrest =>
      have hbegins : ∀ name, begins name (trim line') = begins name (trim line) := fun name => by
        rw [begins, begins, isSection_trim, isSection_trim]
        exact hline.begins_eq name
      have hends : ends "interface" (trim line') = ends "interface" (trim line) := by
        rw [ends, ends, isSection_trim, isSection_trim]
        exact hline.ends_eq _
      rw [interfaceBody, interfaceBody, hends, hbegins, hbegins, hbegins]
      by_cases h₁ : ends "interface" (trim line) = true
      · rw [if_pos h₁, if_pos h₁]
        exact ⟨rfl, hrest⟩
      rw [if_neg h₁, if_neg h₁]
      by_cases h₂ : begins "config" (trim line) = true
      · rw [if_pos h₂, if_pos h₂, foldl_respaced (fun hline s => hline.interfaceConfigLine_eq s)
          (sectionBody_respaced hrest "config")]
        exact ih _ (afterSection_respaced hrest "config")
      rw [if_neg h₂, if_neg h₂]
      by_cases h₃ : begins "attributelist" (trim line) = true
      · rw [if_pos h₃, if_pos h₃,
          parseEntryList_respaced (sectionBody_respaced hrest "attributelist")]
        exact ih _ (afterSection_respaced hrest "attributelist")
      rw [if_neg h₃, if_neg h₃]
      by_cases h₄ : begins "methodlist" (trim line) = true
      · rw [if_pos h₄, if_pos h₄, parseEntryList_respaced (sectionBody_respaced hrest "methodlist")]
        exact ih _ (afterSection_respaced hrest "methodlist")
      rw [if_neg h₄, if_neg h₄]
      exact ih _ hrest

theorem interfacesFrom_respaced (fuel : ℕ) (h : List.Forall₂ RespacedLine ls ls') :
    interfacesFrom fuel ls' = interfacesFrom fuel ls := by
  induction fuel generalizing ls ls' with
  | zero => rfl
  | succ fuel ih =>
    cases h with
    | nil => rfl
    | @cons line line' ls ls' hline hrest =>
      rw [interfacesFrom, interfacesFrom, hline.begins_eq, hrest.length_eq]
      by_cases hbegin : begins "interface" line = true
      · obtain ⟨hiface, hafter⟩ := interfaceBody_respaced ls'.length .default hrest
        rw [if_pos hbegin, if_pos hbegin]
        simp only [hiface, ih hafter]
      · rw [if_neg hbegin, if_neg hbegin, ih hrest]

end Lists

/-- **The interface parser does not see the spacing of markers.** -/
theorem parseInterfaces_respaced {content content' : Text} (h : Respaced content content') :
    parseInterfaces content' = parseInterfaces content := by
  rw [parseInterfaces, parseInterfaces, ← List.Forall₂.length_eq h, interfacesFrom_respaced _ h]

/-! ### The module parser -/

/-- A section whose lines are copied as they are. -/
def ConfSection.verbatim : ConfSection → Bool
  | .cdef | .startup | .cdefprivate => true
  | _ => false

/-- The module parser reads both spellings of each line alike, and the lines that differ are
markers it knows or lie in no block that is copied. -/
def ReadAlike (t : Track) : List Text → List Text → Prop
  | line :: rest, line' :: rest' =>
    (line' = line ∨ reading (trim line') = reading (trim line) ∧
      (reading (trim line) = .other → t.nesting = 0 → t.current.verbatim = false)) ∧
    ReadAlike (t.step line) rest rest'
  | _, _ => True

instance decidableReadAlike : ∀ (t : Track) (ls ls' : List Text), Decidable (ReadAlike t ls ls')
  | t, line :: rest, _ :: rest' =>
    have := decidableReadAlike (t.step line) rest rest'
    inferInstanceAs (Decidable (_ ∧ _))
  | _, [], _ => isTrue trivial
  | _, _ :: _, [] => isTrue trivial

theorem confKeyValue_marker {m : Marker} (h : m.Valid) {key val : Text}
    (hkey : confKeyValue m.text = some (key, val)) : ∃ tail, key = '#' :: tail := by
  unfold confKeyValue at hkey
  rw [h.word_text.trim_eq] at hkey
  simp only at hkey
  split_ifs at hkey
  simp only [Option.some.injEq, Prod.mk.injEq] at hkey
  refine ⟨(lit "#" ++ (m.gap ++ (m.keyword ++ m.between ++ m.name))).takeWhile (!isWhitespace ·), ?_⟩
  rw [← hkey.1]
  rfl

theorem configLine_marker {m : Marker} (h : m.Valid) (conf : ConfModule) :
    configLine conf m.text = .ok conf := by
  unfold configLine
  cases hkey : confKeyValue m.text with
  | none => rfl
  | some pair =>
    obtain ⟨tail, htail⟩ := confKeyValue_marker h hkey
    have hne : ∀ text : String, text.toList.head? ≠ some '#' → pair.1 ≠ lit text := by
      rintro text hhead heq
      rw [htail] at heq
      exact hhead (by rw [← show lit text = text.toList from rfl, ← heq]; rfl)
    simp only [hne "forcebase" (by decide), hne "basename" (by decide), hne "libbase" (by decide),
      hne "libbasetypeextern" (by decide), hne "libbasetype" (by decide),
      hne "includename" (by decide), hne "date" (by decide), hne "version" (by decide),
      hne "residentpri" (by decide), hne "options" (by decide), hne "sysbase_field" (by decide),
      hne "oopbase_field" (by decide), hne "seglist_field" (by decide), if_false]

theorem codeLine_marker (m : Marker) : codeLine m.text = [] := by
  rw [codeLine, if_pos (by simp [Marker.text, lit])]
  simp [Marker.text, lit, trim, trimStart, trimEnd]

/-- A marker in a function list is a comment. -/
theorem functionLine_marker (s : ConfScan) (m m' : Marker) :
    functionLine s m'.text = functionLine s m.text := by
  have hcomment : ∀ n : Marker, startsWith (lit "#") n.text = true := fun n => by
    simp [Marker.text, lit, startsWith]
  simp only [functionLine, reserved, declared, codeLine_marker, hcomment]

theorem scanLine_respaced {s : ConfScan} {line line' : Text} (h : RespacedLine line line')
    (halike : line' = line ∨ reading (trim line') = reading (trim line) ∧
      (reading (trim line) = .other → s.nesting = 0 → s.current.verbatim = false)) :
    scanLine s line' = scanLine s line := by
  cases h with
  | same => rfl
  | @marker m m' h h' alike =>
    rcases halike with heq | ⟨hread, hverbatim⟩
    · rw [heq]
    unfold scanLine
    rw [hread]
    cases hr : reading (trim m.line) with
    | opens nested => rfl
    | closes => rfl
    | enter current => rfl
    | other =>
      by_cases hnest : s.nesting > 0
      · simp only [hnest, if_true]
      simp only [hnest, if_false]
      have hcopied := hverbatim hr (by omega)
      unfold contentLine
      cases hc : s.current with
      | none => rfl
      | config => simp only [h.trim_line, h'.trim_line, configLine_marker h, configLine_marker h']
      | cdef => simp [hc, ConfSection.verbatim] at hcopied
      | startup => simp [hc, ConfSection.verbatim] at hcopied
      | cdefprivate => simp [hc, ConfSection.verbatim] at hcopied
      | functions => simp only [h.trim_line, h'.trim_line, functionLine_marker s m m']

theorem run_respaced {ls ls' : List Text} (h : List.Forall₂ RespacedLine ls ls') (s : ConfScan)
    (halike : ReadAlike s.track ls ls') : ls'.foldlM scanLine s = ls.foldlM scanLine s := by
  induction h generalizing s with
  | nil => rfl
  | @cons line line' ls ls' hline _ ih =>
    rw [List.foldlM_cons, List.foldlM_cons, scanLine_respaced hline halike.1]
    cases hs : scanLine s line with
    | error e => rfl
    | ok s' =>
      refine ih s' ?_
      rw [(scanLine_effect hs).2.1]
      exact halike.2

section Variant

variable {measureRegularFile measureRegularFile' : PathBuf → Except IoError (Option Bytes)}
  {toUppercase : Char → Text} {path root : PathBuf} {declaration : Option ModuleDeclaration}
  {content content' : Text}

/-- The module parser does not see the spacing of markers that it reads alike. -/
theorem parseConfVariant_respaced
    (hcontent : confContent measureRegularFile path declaration = .ok content)
    (hcontent' : confContent measureRegularFile' path declaration = .ok content')
    (h : Respaced content content')
    (halike : ReadAlike ⟨.none, 0⟩ (lines content) (lines content')) :
    parseConfVariant measureRegularFile' toUppercase path root declaration =
      parseConfVariant measureRegularFile toUppercase path root declaration := by
  unfold parseConfVariant
  rw [hcontent, hcontent']
  have hparse : ∀ initial, parseContent initial content' = parseContent initial content := by
    intro initial
    rw [parseContent, parseContent, run_respaced h (.start initial) halike]
  simp only [bind, Except.bind, initialModule, parseInterfaces_respaced h, hparse]

end Variant

/-! ### The lines of an interface -/

/-- How deep a line leaves the module parser in interfaces and classes. -/
def nestingAfter (n : ℕ) (line : Text) : ℕ :=
  match reading (trim line) with
  | .opens _ => n + 1
  | .closes => n - 1
  | _ => n

/-- Of each line whether the module parser skips it as a line of an interface: the begin marker, and
everything up to the marker that takes the counter back to zero. -/
def skippedFrom (n : ℕ) (inside : Bool) : List Text → List Bool
  | [] => []
  | line :: rest =>
    let skipped := if n = 0 then decide (reading (trim line) = .opens .interface) else inside
    skipped :: skippedFrom (nestingAfter n line) skipped rest

/-- The lines of a text that the module parser skips as lines of an interface. -/
def skippedLines (content : Text) : List Bool := skippedFrom 0 false (lines content)

/-- A skipped line only moves the counter. -/
theorem scanLine_skipped {s : ConfScan} {line : Text}
    (h : s.nesting ≠ 0 ∨ reading (trim line) = .opens .interface) :
    scanLine s line = .ok { s with nesting := nestingAfter s.nesting line } := by
  unfold scanLine nestingAfter
  cases hread : reading (trim line) with
  | opens nested => rfl
  | closes => rfl
  | enter current =>
    have hnest : s.nesting > 0 := by
      rcases h with h | h
      · omega
      · simp [hread] at h
    simp only [hnest, if_true]
  | other =>
    have hnest : s.nesting > 0 := by
      rcases h with h | h
      · omega
      · simp [hread] at h
    simp only [hnest, if_true]

/-- The counter, at `n` before the lines, stays above zero up to the last of them. -/
def StaysInside (n : ℕ) : List Text → Prop
  | [] => True
  | line :: rest =>
    (rest ≠ [] → nestingAfter n line ≠ 0) ∧ StaysInside (nestingAfter n line) rest

/-- The two parsers go through a text in step. Outside interfaces and classes a line is a begin
marker of an interface for both of them or for neither; from there to the end marker at which the
interface parser stops, the markers that the module parser counts are balanced; and no interface
begins inside a class. -/
def InStep : ℕ → ℕ → List Text → Prop
  | 0, _, _ => True
  | _ + 1, _, [] => True
  | fuel + 1, 0, line :: rest =>
    if begins "interface" line then
      let after := (interfaceBody rest.length .default rest).2
      let inside := rest.take (rest.length - after.length)
      reading (trim line) = .opens .interface ∧ StaysInside 1 inside ∧
        (after = [] ∨ inside.foldl nestingAfter 1 = 0) ∧ InStep fuel 0 after
    else reading (trim line) ≠ .opens .interface ∧ InStep fuel (nestingAfter 0 line) rest
  | fuel + 1, n + 1, line :: rest =>
    begins "interface" line = false ∧ InStep fuel (nestingAfter (n + 1) line) rest

instance decidableStaysInside : ∀ (n : ℕ) (ls : List Text), Decidable (StaysInside n ls)
  | _, [] => isTrue trivial
  | n, line :: rest =>
    have := decidableStaysInside (nestingAfter n line) rest
    inferInstanceAs (Decidable (_ ∧ _))

instance decidableInStep : ∀ (fuel n : ℕ) (ls : List Text), Decidable (InStep fuel n ls)
  | 0, _, _ => isTrue trivial
  | _ + 1, 0, [] => isTrue trivial
  | _ + 1, _ + 1, [] => isTrue trivial
  | fuel + 1, 0, line :: rest =>
    have := decidableInStep fuel 0 (interfaceBody rest.length .default rest).2
    have := decidableInStep fuel (nestingAfter 0 line) rest
    if h : begins "interface" line then
      let after := (interfaceBody rest.length .default rest).2
      let inside := rest.take (rest.length - after.length)
      decidable_of_iff (reading (trim line) = .opens .interface ∧ StaysInside 1 inside ∧
        (after = [] ∨ inside.foldl nestingAfter 1 = 0) ∧ InStep fuel 0 after) (by rw [InStep, if_pos h])
    else
      decidable_of_iff (reading (trim line) ≠ .opens .interface ∧
        InStep fuel (nestingAfter 0 line) rest) (by rw [InStep, if_neg h])
  | fuel + 1, n + 1, line :: rest =>
    have := decidableInStep fuel (nestingAfter (n + 1) line) rest
    inferInstanceAs (Decidable (_ ∧ _))

/-- The parsers go through a whole text in step. -/
def SectionsInStep (content : Text) : Prop := InStep (lines content).length 0 (lines content)

instance (content : Text) : Decidable (SectionsInStep content) := decidableInStep _ _ _

theorem interfaceBody_suffix (fuel : ℕ) (iface : Interface) (ls : List Text) :
    (interfaceBody fuel iface ls).2 <:+ ls := by
  induction fuel generalizing iface ls with
  | zero => exact List.suffix_refl _
  | succ fuel ih =>
    cases ls with
    | nil => exact List.suffix_refl _
    | cons line rest =>
      have hafter : ∀ name, afterSection name rest <:+ line :: rest := fun name =>
        ((List.drop_suffix _ _).trans (List.dropWhile_suffix _)).trans (List.suffix_cons _ _)
      rw [interfaceBody]
      by_cases h₁ : ends "interface" (trim line) = true
      · rw [if_pos h₁]
        exact List.suffix_cons _ _
      rw [if_neg h₁]
      by_cases h₂ : begins "config" (trim line) = true
      · rw [if_pos h₂]
        exact (ih _ _).trans (hafter _)
      rw [if_neg h₂]
      by_cases h₃ : begins "attributelist" (trim line) = true
      · rw [if_pos h₃]
        exact (ih _ _).trans (hafter _)
      rw [if_neg h₃]
      by_cases h₄ : begins "methodlist" (trim line) = true
      · rw [if_pos h₄]
        exact (ih _ _).trans (hafter _)
      rw [if_neg h₄]
      exact (ih _ _).trans (List.suffix_cons _ _)

theorem skippedFrom_inside {n : ℕ} {inside : List Text} (hn : n ≠ 0) (h : StaysInside n inside)
    (after : List Text) :
    skippedFrom n true (inside ++ after) =
      List.replicate inside.length true ++ skippedFrom (inside.foldl nestingAfter n) true after := by
  induction inside generalizing n with
  | nil => rfl
  | cons line rest ih =>
    rw [List.cons_append, skippedFrom, List.length_cons, List.replicate_succ, List.foldl_cons]
    simp only [hn, if_false, List.cons_append, List.cons.injEq, true_and]
    cases rest with
    | nil => rfl
    | cons next rest => exact ih (h.1 (List.cons_ne_nil _ _)) h.2

/-- The counter and the interface parser agree from one section to the next. -/
theorem skippedFrom_eq {fuel n : ℕ} {ls : List Text} {inside : Bool} (hfuel : ls.length ≤ fuel)
    (hinside : n ≠ 0 → inside = false) (h : InStep fuel n ls) :
    skippedFrom n inside ls = interfaceLinesFrom fuel ls := by
  induction fuel generalizing n ls inside with
  | zero =>
    rw [List.eq_nil_of_length_eq_zero (Nat.le_zero.mp hfuel)]
    rfl
  | succ fuel ih =>
    cases ls with
    | nil => rfl
    | cons line rest =>
      have hrest : rest.length ≤ fuel := by simpa using hfuel
      cases n with
      | succ n =>
        -- Inside a class, where no interface begins.
        obtain ⟨hbegin, h⟩ := h
        simp only [skippedFrom, interfaceLinesFrom, hbegin, Nat.succ_ne_zero, if_false,
          Bool.false_eq_true, hinside (Nat.succ_ne_zero n)]
        rw [ih hrest (fun _ => rfl) h]
      | zero =>
        rw [InStep] at h
        rw [skippedFrom, interfaceLinesFrom]
        by_cases hbegin : begins "interface" line = true
        · rw [if_pos hbegin] at h
          rw [if_pos hbegin]
          obtain ⟨hread, hstays, hclosed, h⟩ := h
          have hsuffix := interfaceBody_suffix rest.length .default rest
          generalize (interfaceBody rest.length .default rest).2 = after at *
          have hlength := hsuffix.length_le
          have hsplit : rest.take (rest.length - after.length) ++ after = rest := by
            obtain ⟨front, rfl⟩ := hsuffix
            simp
          have hcount : rest.length + 1 - after.length =
              (rest.take (rest.length - after.length)).length + 1 := by
            rw [List.length_take]
            omega
          have hnest : nestingAfter 0 line = 1 := by rw [nestingAfter, hread]
          have hflags : skippedFrom 1 true rest =
              List.replicate (rest.take (rest.length - after.length)).length true ++
                interfaceLinesFrom fuel after := by
            conv_lhs => rw [← hsplit]
            rw [skippedFrom_inside Nat.one_ne_zero hstays]
            congr 1
            rcases hclosed with rfl | hzero
            · cases fuel <;> rfl
            · rw [hzero]
              exact ih (by omega) (fun hne => absurd rfl hne) h
          simp only [hread, if_true, decide_true, hnest, hflags, hcount]
          rw [List.replicate_succ, List.cons_append]
        · rw [if_neg hbegin] at h
          rw [if_neg hbegin]
          obtain ⟨hread, h⟩ := h
          simp only [hread, if_true, decide_false]
          rw [ih hrest (fun _ => rfl) h]

/-! ### Agreement -/

/-- An interface in front of a function list. -/
def plainMarkers : String :=
  "##begin interface\n##end interface\n##begin functionlist\nvoid A()\n##end functionlist\n"

/-- The same text with another blank behind `##`. -/
def gapMarkers : String :=
  "##begin interface\n## end interface\n##begin functionlist\nvoid A()\n##end functionlist\n"

/-- The same text with two blanks in front of the name of the interface's end marker. -/
def wideMarkers : String :=
  "##begin interface\n##end  interface\n##begin functionlist\nvoid A()\n##end functionlist\n"

/-- The end marker of an interface with the given blanks. -/
def endInterface (gap between : Text) : Marker := ⟨[], gap, lit "end", between, lit "interface", []⟩

theorem endInterface_valid {gap between : Text} (hgap : Blank gap) (hbetween : Blank between)
    (hne : between ≠ []) : (endInterface gap between).Valid :=
  ⟨nofun, hgap, .inr rfl, hbetween, hne,
    ⟨⟨'i', lit "nterface", rfl, by decide⟩, ⟨lit "interfac", 'e', rfl, by decide⟩⟩, nofun⟩

theorem respaced_endInterface {gap between : Text} {text : String} (hgap : Blank gap)
    (hbetween : Blank between) (hne : between ≠ [])
    (hlines : lines (lit text) = [lit "##begin interface", (endInterface gap between).line,
      lit "##begin functionlist", lit "void A()", lit "##end functionlist"]) :
    Respaced (lit plainMarkers) (lit text) := by
  have hplain : lines (lit plainMarkers) = [lit "##begin interface",
      (endInterface [] (lit " ")).line, lit "##begin functionlist", lit "void A()",
      lit "##end functionlist"] := by decide +kernel
  have hspace : Blank (lit " ") := List.all_eq_true.mp (by decide)
  rw [Respaced, hplain, hlines]
  exact .cons (.same _) (.cons (.marker (endInterface_valid nofun hspace (by decide))
    (endInterface_valid hgap hbetween hne) ⟨rfl, rfl, rfl, rfl⟩)
    (.cons (.same _) (.cons (.same _) (.cons (.same _) .nil))))

end Genmodule

end ArosTools
