import ArosTools.Collect.Sets

/-!
# No set section is dropped, as long as its priority is spelled as it is printed

`parse` reads a priority with any number of leading zeros and an optional `+`; `script` prints it
in decimal.  A section is therefore kept exactly when its suffix is the printed form of its
priority (`sets_kept_iff`).

* `parse_eq_ok` : the names `parse` recognises.
* `Invariant` : what `discover` has collected after any list of sections.
* `keepPatterns_script` : the patterns of a generated script.
-/

namespace ArosTools

namespace Sets

/-! ### Names that are recognised -/

section SplitOnce

variable {b : UInt8} {text left right : Bytes}

theorem splitOnce_none : splitOnce b text = none ↔ b ∉ text := by
  induction text with
  | nil => simp [splitOnce]
  | cons c rest ih =>
    rw [splitOnce]
    split_ifs with hc
    · simp [hc]
    · rw [Option.map_eq_none_iff, ih, List.mem_cons, not_or]
      exact ⟨fun h => ⟨fun hb => hc hb.symm, h⟩, fun h => h.2⟩

theorem splitOnce_some :
    splitOnce b text = some (left, right) ↔ text = left ++ b :: right ∧ b ∉ left := by
  induction text generalizing left with
  | nil => simp [splitOnce]
  | cons c rest ih =>
    rw [splitOnce]
    split_ifs with hc
    · subst hc
      cases left with
      | nil => simp
      | cons d left =>
        simp only [List.cons_append, List.cons.injEq, List.mem_cons, not_or]
        exact ⟨nofun, fun h => absurd h.1.1 h.2.1⟩
    · rw [Option.map_eq_some_iff]
      constructor
      · rintro ⟨⟨l, r⟩, hsplit, h⟩
        cases h
        obtain ⟨rfl, hnot⟩ := ih.mp hsplit
        exact ⟨rfl, by simpa [hnot] using fun h => hc h.symm⟩
      · rintro ⟨heq, hnot⟩
        cases left with
        | nil => exact absurd (List.cons.inj heq).1 hc
        | cons d left =>
          obtain ⟨rfl, hrest⟩ := List.cons.inj heq
          exact ⟨(left, right), ih.mpr ⟨hrest, fun h => hnot (List.mem_cons_of_mem _ h)⟩, rfl⟩

end SplitOnce

/-- The part of a section name before the set name, and which kind of set it makes. -/
def Head (head name : Bytes) (arosSet : Bool) : Prop :=
  head = ascii ".aros.set." ∧ arosSet = true ∨
    head = [dot] ∧ arosSet = false ∧ (ascii "ctors" <+: name ∨ ascii "dtors" <+: name ∨
      ascii "init_array" <+: name ∨ ascii "fini_array" <+: name)

/-- The part of a section name after the set name, and the priority it spells. -/
def Tail (tail : Bytes) (priority : Option ℤ) : Prop :=
  tail = [] ∧ priority = none ∨
    ∃ suffix n, tail = dot :: suffix ∧ parseInt64 suffix = some n ∧ priority = some n

theorem dot_not_symbolByte : symbolByte dot = false := by decide

theorem dot_not_mem {name : Bytes} (h : name.all symbolByte = true) : dot ∉ name := by
  intro hmem
  have := List.all_eq_true.mp h dot hmem
  rw [dot_not_symbolByte] at this
  cases this

theorem parseName_ok {section_ name base : Bytes} {priority : Option ℤ} {arosSet : Bool}
    {p : Parsed} :
    parseName section_ name base priority arosSet = .ok p ↔
      name ≠ [] ∧ name.all symbolByte = true ∧
        p = ⟨name.map asciiUpper, base, priority, arosSet⟩ := by
  unfold parseName
  split_ifs with h₁ h₂
  · exact ⟨nofun, fun h => absurd h₁ h.1⟩
  · refine ⟨nofun, fun h => ?_⟩
    rw [h.2.1] at h₂
    cases h₂
  · rw [Except.ok.injEq]
    exact ⟨fun h => ⟨h₁, by simpa using h₂, h.symm⟩, fun h => h.2.2.symm⟩

/-- The prefix that makes a name a set section. -/
theorem find_prefix {section_ : Bytes} {start : Bytes} {offset : ℕ}
    (h : prefixes.find? (fun p => p.1.isPrefixOf section_) = some (start, offset)) :
    (start = ascii ".aros.set." ∧ offset = 10 ∨
      offset = 1 ∧ ∃ word ∈ [ascii "ctors", ascii "dtors", ascii "init_array",
        ascii "fini_array"], start = dot :: word) ∧ start <+: section_ := by
  have hmem := List.mem_of_find?_eq_some h
  have hfound := List.find?_some h
  have hpre : start.isPrefixOf section_ = true := hfound
  refine ⟨?_, List.isPrefixOf_iff_prefix.mp hpre⟩
  simp only [prefixes, List.mem_cons, Prod.mk.injEq, List.not_mem_nil, or_false] at hmem
  have h₁ : ascii ".ctors" = dot :: ascii "ctors" := by decide
  have h₂ : ascii ".dtors" = dot :: ascii "dtors" := by decide
  have h₃ : ascii ".init_array" = dot :: ascii "init_array" := by decide
  have h₄ : ascii ".fini_array" = dot :: ascii "fini_array" := by decide
  rcases hmem with ⟨rfl, rfl⟩ | ⟨rfl, rfl⟩ | ⟨rfl, rfl⟩ | ⟨rfl, rfl⟩ | ⟨rfl, rfl⟩
  · exact .inl ⟨rfl, rfl⟩
  · exact .inr ⟨rfl, _, by simp, h₁⟩
  · exact .inr ⟨rfl, _, by simp, h₂⟩
  · exact .inr ⟨rfl, _, by simp, h₃⟩
  · exact .inr ⟨rfl, _, by simp, h₄⟩

/-- What precedes the first `b` cannot reach past it. -/
theorem prefix_before {b : UInt8} {word left right : Bytes} (hb : b ∉ word)
    (h : word <+: left ++ b :: right) : word <+: left := by
  induction word generalizing left with
  | nil => exact List.nil_prefix
  | cons c word ih =>
    cases left with
    | nil =>
      obtain ⟨t, ht⟩ := h
      have hc : c = b := (List.cons.inj ht).1
      exact absurd (by simp [hc]) hb
    | cons d left =>
      rw [List.cons_append] at h
      obtain ⟨rfl, hrest⟩ := List.cons_prefix_cons.mp h
      exact List.cons_prefix_cons.mpr ⟨rfl, ih (fun hin => hb (by simp [hin])) hrest⟩

/-- The part of `parse` after its prefix has been found. -/
def parseRest (section_ : Bytes) (offset : ℕ) (arosSet : Bool) : Except Skipped Parsed :=
  match splitOnce dot (section_.drop offset) with
  | some (name, suffix) =>
    match parseInt64 suffix with
    | some priority =>
      parseName section_ name (section_.take (offset + name.length)) (some priority) arosSet
    | none => .error ⟨section_, ascii "`" ++ suffix ++
        ascii "` is not a priority, so the section cannot be placed in a set"⟩
  | none => parseName section_ (section_.drop offset) section_ none arosSet

theorem parse_eq (section_ : Bytes) :
    parse section_ = (prefixes.find? fun p => p.1.isPrefixOf section_).map fun p =>
      parseRest section_ p.2 (p.1 == ascii ".aros.set.") := by
  unfold parse
  cases prefixes.find? fun p => p.1.isPrefixOf section_ with
  | none => rfl
  | some p =>
    unfold parseRest
    simp only [Option.bind_eq_bind, Option.bind_some, Option.map_some]
    cases splitOnce dot (section_.drop p.2) with
    | none => rfl
    | some r =>
      obtain ⟨name, suffix⟩ := r
      dsimp only
      cases parseInt64 suffix with
      | none => rfl
      | some n => rfl

theorem parseRest_eq_ok {head rest : Bytes} {arosSet : Bool} {p : Parsed} :
    parseRest (head ++ rest) head.length arosSet = .ok p ↔
      ∃ name tail priority, rest = name ++ tail ∧ name ≠ [] ∧ name.all symbolByte = true ∧
        Tail tail priority ∧ p = ⟨name.map asciiUpper, head ++ name, priority, arosSet⟩ := by
  unfold parseRest
  rw [List.drop_left]
  cases hsplit : splitOnce dot rest with
  | none =>
    have hdot := splitOnce_none.mp hsplit
    simp only [parseName_ok]
    constructor
    · rintro ⟨hne, hall, rfl⟩
      exact ⟨rest, [], none, by simp, hne, hall, .inl ⟨rfl, rfl⟩, rfl⟩
    · rintro ⟨name, tail, priority, rfl, hne, hall, htail, rfl⟩
      rcases htail with ⟨rfl, rfl⟩ | ⟨suffix, n, rfl, -, -⟩
      · rw [List.append_nil]
        exact ⟨hne, hall, rfl⟩
      · exact absurd (by simp) hdot
  | some r =>
    obtain ⟨left, suffix⟩ := r
    obtain ⟨rfl, hleft⟩ := splitOnce_some.mp hsplit
    have htake : (head ++ (left ++ dot :: suffix)).take (head.length + left.length) =
        head ++ left := by
      rw [← List.append_assoc, ← List.length_append, List.take_left]
    -- a name of symbol bytes ends at the same dot
    have hunique : ∀ name tail, left ++ dot :: suffix = name ++ tail →
        name.all symbolByte = true → ∀ priority, Tail tail priority →
        name = left ∧ ∃ n, parseInt64 suffix = some n ∧ priority = some n := by
      intro name tail heq hall priority htail
      rcases htail with ⟨rfl, rfl⟩ | ⟨suffix', n, rfl, hn, rfl⟩
      · rw [List.append_nil] at heq
        exact absurd (by rw [← heq]; simp) (dot_not_mem hall)
      · have h := splitOnce_some.mpr ⟨heq, dot_not_mem hall⟩
        rw [hsplit] at h
        cases h
        exact ⟨rfl, n, hn, rfl⟩
    dsimp only
    cases hparse : parseInt64 suffix with
    | none =>
      refine ⟨nofun, ?_⟩
      rintro ⟨name, tail, priority, heq, -, hall, htail, -⟩
      obtain ⟨-, n, hn, -⟩ := hunique name tail heq hall priority htail
      rw [hparse] at hn
      cases hn
    | some n =>
      simp only [parseName_ok, htake]
      constructor
      · rintro ⟨hne, hall, rfl⟩
        exact ⟨left, dot :: suffix, some n, rfl, hne, hall, .inr ⟨suffix, n, rfl, hparse, rfl⟩,
          rfl⟩
      · rintro ⟨name, tail, priority, heq, hne, hall, htail, rfl⟩
        obtain ⟨rfl, m, hm, rfl⟩ := hunique name tail heq hall priority htail
        rw [hparse] at hm
        cases hm
        exact ⟨hne, hall, rfl⟩

/-- The words that start the names of compiler sets. -/
def compilerWords : List Bytes :=
  [ascii "ctors", ascii "dtors", ascii "init_array", ascii "fini_array"]

theorem compilerWords_spec : ∀ word ∈ compilerWords,
    dot ∉ word ∧ (dot :: word == ascii ".aros.set.") = false ∧
      (dot :: word, 1) ∈ prefixes ∧ word.head? ≠ some 0x61 ∧ word ≠ [] := by
  decide

theorem head_iff {head name : Bytes} {arosSet : Bool} :
    Head head name arosSet ↔ head = ascii ".aros.set." ∧ arosSet = true ∨
      head = [dot] ∧ arosSet = false ∧ ∃ word ∈ compilerWords, word <+: name := by
  simp [Head, compilerWords]

theorem not_aros_of_word {word name tail : Bytes} (hword : word ∈ compilerWords)
    (h : word <+: name) : ¬ ascii ".aros.set." <+: [dot] ++ (name ++ tail) := by
  rintro ⟨t, ht⟩
  have hbytes : ascii ".aros.set." = dot :: 0x61 :: ascii "ros.set." := by decide
  obtain ⟨r, rfl⟩ := h
  obtain ⟨-, -, -, hhead, hne⟩ := compilerWords_spec word hword
  cases word with
  | nil => exact hne rfl
  | cons c word =>
    rw [hbytes] at ht
    simp only [List.cons_append, List.cons.injEq, true_and, List.nil_append] at ht
    exact hhead (by rw [← ht.1]; rfl)

/-- **The recognised names**: a head, a set name of symbol bytes and nothing or a dot and a
priority. -/
theorem parse_eq_ok {section_ : Bytes} {p : Parsed} :
    parse section_ = some (.ok p) ↔
      ∃ head name tail priority arosSet, section_ = head ++ (name ++ tail) ∧
        Head head name arosSet ∧ name ≠ [] ∧ name.all symbolByte = true ∧ Tail tail priority ∧
        p = ⟨name.map asciiUpper, head ++ name, priority, arosSet⟩ := by
  have hten : (ascii ".aros.set.").length = 10 := by decide
  rw [parse_eq, Option.map_eq_some_iff]
  constructor
  · rintro ⟨⟨start, offset⟩, hfind, hrest⟩
    obtain ⟨hstart, t, rfl⟩ := find_prefix hfind
    rcases hstart with ⟨rfl, rfl⟩ | ⟨rfl, word, hword, rfl⟩
    · rw [← hten, parseRest_eq_ok] at hrest
      obtain ⟨name, tail, priority, rfl, hne, hall, htail, rfl⟩ := hrest
      exact ⟨_, name, tail, priority, _, rfl, .inl ⟨rfl, beq_self_eq_true _⟩, hne, hall, htail,
        rfl⟩
    · obtain ⟨hdot, hnot, -, -, -⟩ := compilerWords_spec word hword
      have hsplit : dot :: word ++ t = [dot] ++ (word ++ t) := rfl
      rw [hsplit, show (1 : ℕ) = [dot].length from rfl, parseRest_eq_ok] at hrest
      obtain ⟨name, tail, priority, heq, hne, hall, htail, rfl⟩ := hrest
      refine ⟨[dot], name, tail, priority, _, by rw [hsplit, heq], ?_, hne, hall, htail, rfl⟩
      refine head_iff.mpr (.inr ⟨rfl, hnot, word, hword, ?_⟩)
      have hpre : word <+: name ++ tail := heq ▸ List.prefix_append word t
      rcases htail with ⟨rfl, -⟩ | ⟨suffix, n, rfl, -, -⟩
      · rwa [List.append_nil] at hpre
      · exact prefix_before hdot hpre
  · rintro ⟨head, name, tail, priority, arosSet, rfl, hhead, hne, hall, htail, rfl⟩
    rcases head_iff.mp hhead with ⟨rfl, rfl⟩ | ⟨rfl, rfl, word, hword, hpre⟩
    · refine ⟨(ascii ".aros.set.", 10), ?_, ?_⟩
      · rw [prefixes, List.find?_cons_of_pos]
        exact List.isPrefixOf_iff_prefix.mpr (List.prefix_append _ _)
      · rw [← hten, beq_self_eq_true, parseRest_eq_ok]
        exact ⟨name, tail, priority, rfl, hne, hall, htail, rfl⟩
    · obtain ⟨-, -, hmem, -, -⟩ := compilerWords_spec word hword
      have hsome : (prefixes.find? fun p => p.1.isPrefixOf ([dot] ++ (name ++ tail))).isSome := by
        refine List.find?_isSome.mpr ⟨_, hmem, List.isPrefixOf_iff_prefix.mpr ?_⟩
        exact List.cons_prefix_cons.mpr ⟨rfl, hpre.trans (List.prefix_append _ _)⟩
      obtain ⟨⟨start, offset⟩, hfind⟩ := Option.isSome_iff_exists.mp hsome
      refine ⟨(start, offset), hfind, ?_⟩
      obtain ⟨hstart, hstarts⟩ := find_prefix hfind
      rcases hstart with ⟨rfl, rfl⟩ | ⟨rfl, word', hword', rfl⟩
      · exact absurd hstarts (not_aros_of_word hword hpre)
      · dsimp only
        rw [(compilerWords_spec word' hword').2.1, show (1 : ℕ) = [dot].length from rfl,
          parseRest_eq_ok]
        exact ⟨name, tail, priority, rfl, hne, hall, htail, rfl⟩

theorem parse_error {section_ : Bytes} {r : Skipped} (h : parse section_ = some (.error r)) :
    r.section_ = section_ := by
  have hname : ∀ {name base : Bytes} {priority : Option ℤ} {arosSet : Bool},
      parseName section_ name base priority arosSet = .error r → r.section_ = section_ := by
    intro name base priority arosSet h
    unfold parseName at h
    split_ifs at h
    · cases h
      rfl
    · cases h
      rfl
  rw [parse_eq, Option.map_eq_some_iff] at h
  obtain ⟨⟨start, offset⟩, -, h⟩ := h
  unfold parseRest at h
  split at h
  · split at h
    · exact hname h
    · cases h
      rfl
  · exact hname h

section Recognised

variable {section_ : Bytes} {p : Parsed}

/-- A recognised name is its set's section, alone or with a dot and a spelling of its priority. -/
theorem section_eq_of_parse (h : parse section_ = some (.ok p)) :
    p.priority = none ∧ section_ = p.section_ ∨
      ∃ suffix n, section_ = p.section_ ++ [dot] ++ suffix ∧ parseInt64 suffix = some n ∧
        p.priority = some n := by
  obtain ⟨head, name, tail, priority, arosSet, rfl, -, -, -, htail, rfl⟩ := parse_eq_ok.mp h
  rcases htail with ⟨rfl, rfl⟩ | ⟨suffix, n, rfl, hn, rfl⟩
  · exact .inl ⟨rfl, by simp⟩
  · exact .inr ⟨suffix, n, by simp, hn, rfl⟩

/-- The printed form of a priority is recognised as a section of the same set. -/
theorem parse_pattern (h : parse section_ = some (.ok p)) {n : ℤ} (hlo : -2 ^ 63 ≤ n)
    (hhi : n < 2 ^ 63) :
    parse (p.section_ ++ [dot] ++ intText n) = some (.ok { p with priority := some n }) := by
  obtain ⟨head, name, tail, priority, arosSet, rfl, hhead, hne, hall, -, rfl⟩ := parse_eq_ok.mp h
  refine parse_eq_ok.mpr ⟨head, name, dot :: intText n, some n, arosSet, by simp, hhead, hne, hall,
    ?_, rfl⟩
  exact .inr ⟨intText n, n, rfl, parseInt64_intText hlo hhi, rfl⟩

/-- So is the unsuffixed section. -/
theorem parse_bare (h : parse section_ = some (.ok p)) :
    parse p.section_ = some (.ok { p with priority := none }) := by
  obtain ⟨head, name, tail, priority, arosSet, rfl, hhead, hne, hall, -, rfl⟩ := parse_eq_ok.mp h
  exact parse_eq_ok.mpr ⟨head, name, [], none, arosSet, by simp, hhead, hne, hall,
    .inl ⟨rfl, rfl⟩, rfl⟩

end Recognised

/-! ### What `discover` collects -/

/-- The set a section is recognised for. -/
def recognised (section_ : Bytes) : Option Parsed :=
  match parse section_ with
  | some (.ok p) => some p
  | _ => none

theorem recognised_eq_some {section_ : Bytes} {p : Parsed} :
    recognised section_ = some p ↔ parse section_ = some (.ok p) := by
  unfold recognised
  split
  · next q hq => simp [hq]
  · next hq =>
    refine ⟨nofun, fun h => absurd h (hq p)⟩

/-- The unsuffixed section that a section names, if it is recognised for the set. -/
def sectionOf (name section_ : Bytes) : Option Bytes :=
  (recognised section_).bind fun p => if p.name = name then some p.section_ else none

/-- The unsuffixed section of the first section that is recognised for a set. -/
def firstSection (sections : List Bytes) (name : Bytes) : Option Bytes :=
  sections.findSome? (sectionOf name)

theorem firstSection_concat (seen : List Bytes) (section_ name : Bytes) :
    firstSection (seen ++ [section_]) name =
      (firstSection seen name).or (sectionOf name section_) := by
  rw [firstSection, List.findSome?_append, List.findSome?_singleton, firstSection]

theorem firstSection_isSome {seen : List Bytes} {section_ : Bytes} {p : Parsed}
    (hmem : section_ ∈ seen) (h : recognised section_ = some p) :
    (firstSection seen p.name).isSome := by
  rw [firstSection, List.findSome?_isSome_iff]
  exact ⟨section_, hmem, by simp [sectionOf, h]⟩

theorem SymbolSet.mem_add {set : SymbolSet} {priority : Option ℤ} {n : ℤ} :
    n ∈ (set.add priority).priorities ↔ n ∈ set.priorities ∨ priority = some n := by
  cases priority with
  | none => simp [SymbolSet.add_none]
  | some m =>
    rw [SymbolSet.add_some]
    by_cases h : m ∈ set.priorities
    · simp only [List.contains_eq_mem, h, decide_true, if_true, Option.some.injEq]
      exact ⟨.inl, fun hn => hn.elim id fun hm => hm ▸ h⟩
    · simp [h, eq_comm]

theorem SymbolSet.nodup_add {set : SymbolSet} (priority : Option ℤ)
    (h : set.priorities.Nodup) : (set.add priority).priorities.Nodup := by
  cases priority with
  | none => exact h
  | some m =>
    rw [SymbolSet.add_some]
    by_cases hm : m ∈ set.priorities
    · simpa [hm] using h
    · simp only [List.contains_eq_mem, hm, decide_false, Bool.false_eq_true, if_false]
      exact List.nodup_append.mpr ⟨h, by simp, by
        intro a ha b hb
        rw [List.mem_singleton.mp hb]
        exact fun hab => hm (hab ▸ ha)⟩

/-- What has been collected from the sections seen: one set for every recognised name, under the
section of its first occurrence, with the priorities of the sections that agree with it; the other
recognised sections have been reported. -/
structure Invariant (seen : List Bytes) (found : Found) : Prop where
  names : (found.sets.map fun set => set.name).Nodup
  first : ∀ set ∈ found.sets, firstSection seen set.name = some set.section_
  complete : ∀ section_ ∈ seen, ∀ p, recognised section_ = some p →
    ∃ set ∈ found.sets, set.name = p.name
  priorities : ∀ set ∈ found.sets, ∀ n, n ∈ set.priorities ↔ ∃ section_ ∈ seen, ∃ p,
    recognised section_ = some p ∧ p.name = set.name ∧ p.section_ = set.section_ ∧
      p.priority = some n
  nodup : ∀ set ∈ found.sets, set.priorities.Nodup
  skipped : ∀ section_ ∈ seen, ∀ p, recognised section_ = some p →
    ((∃ r ∈ found.skipped, r.section_ = section_) ↔
      firstSection seen p.name ≠ some p.section_)
  reported : ∀ r ∈ found.skipped, r.section_ ∈ seen

theorem invariant_nil : Invariant [] ⟨[], []⟩ :=
  ⟨by simp, by simp, by simp, by simp, by simp, by simp, by simp⟩

/-- The three ways a recognised section is taken into account. -/
theorem step_cases {found : Found} {section_ : Bytes} {p : Parsed}
    (h : parse section_ = some (.ok p)) :
    (∃ set ∈ found.sets, set.name = p.name ∧ set.section_ = p.section_ ∧
      found.step section_ =
        ⟨found.sets.map fun set => if set.name == p.name then set.add p.priority else set,
          found.skipped⟩) ∨
    (∃ set ∈ found.sets, set.name = p.name ∧ set.section_ ≠ p.section_ ∧
      ∃ reason, found.step section_ = ⟨found.sets, found.skipped ++ [⟨section_, reason⟩]⟩) ∨
    ((∀ set ∈ found.sets, set.name ≠ p.name) ∧
      found.step section_ = ⟨found.sets ++
        [SymbolSet.add ⟨p.name, p.section_, [], false, p.arosSet⟩ p.priority], found.skipped⟩) := by
  unfold Found.step
  rw [h]
  dsimp only
  unfold Found.entry
  cases hfind : found.sets.find? fun set => set.name == p.name with
  | some set =>
    have hmem := List.mem_of_find?_eq_some hfind
    have hname : set.name = p.name := by
      have hfound := List.find?_some hfind
      exact beq_iff_eq.mp hfound
    dsimp only
    split_ifs with hsec
    · exact .inr (.inl ⟨set, hmem, hname, hsec, _, rfl⟩)
    · exact .inl ⟨set, hmem, hname, not_not.mp hsec, rfl⟩
  | none =>
    have hnone : ∀ set ∈ found.sets, set.name ≠ p.name := by
      intro set hset hname
      have := List.find?_eq_none.mp hfind set hset
      simp [hname] at this
    dsimp only
    rw [if_neg (by simp), List.map_append]
    refine .inr (.inr ⟨hnone, ?_⟩)
    have hmap : (found.sets.map fun set =>
        if set.name == p.name then set.add p.priority else set) = found.sets := by
      refine (List.map_congr_left fun set hset => ?_).trans (List.map_id _)
      simp [hnone set hset]
    rw [hmap]
    simp

theorem firstSection_of_some {seen : List Bytes} {name base : Bytes} (section_ : Bytes)
    (h : firstSection seen name = some base) :
    firstSection (seen ++ [section_]) name = some base := by
  rw [firstSection_concat, h]
  rfl

theorem firstSection_of_unrecognised (seen : List Bytes) {section_ : Bytes}
    (h : recognised section_ = none) (name : Bytes) :
    firstSection (seen ++ [section_]) name = firstSection seen name := by
  rw [firstSection_concat, sectionOf, h]
  simp

/-- A section that is not recognised adds at most a report of itself. -/
theorem Invariant.unrecognised {seen : List Bytes} {found : Found} {section_ : Bytes}
    {skipped : List Skipped} (h : Invariant seen found) (hrec : recognised section_ = none)
    (hskipped : ∀ r ∈ skipped, r.section_ = section_) :
    Invariant (seen ++ [section_]) ⟨found.sets, found.skipped ++ skipped⟩ := by
  have hseen : ∀ {s p}, s ∈ seen ++ [section_] → recognised s = some p → s ∈ seen := by
    intro s p hs hp
    rcases List.mem_append.mp hs with hs | hs
    · exact hs
    · rw [List.mem_singleton.mp hs, hrec] at hp
      cases hp
  refine ⟨h.names, fun set hset => ?_, fun s hs p hp => h.complete s (hseen hs hp) p hp, ?_,
    h.nodup, ?_, ?_⟩
  · rw [firstSection_of_unrecognised seen hrec]
    exact h.first set hset
  · intro set hset n
    rw [h.priorities set hset]
    constructor
    · rintro ⟨s, hs, p, hp, h'⟩
      exact ⟨s, by simp [hs], p, hp, h'⟩
    · rintro ⟨s, hs, p, hp, h'⟩
      exact ⟨s, hseen hs hp, p, hp, h'⟩
  · intro s hs p hp
    rw [firstSection_of_unrecognised seen hrec, ← h.skipped s (hseen hs hp) p hp]
    constructor
    · rintro ⟨r, hr, rfl⟩
      rcases List.mem_append.mp hr with hr | hr
      · exact ⟨r, hr, rfl⟩
      · rw [hskipped r hr, hrec] at hp
        cases hp
    · rintro ⟨r, hr, hrs⟩
      exact ⟨r, by simp [hr], hrs⟩
  · intro r hr
    rcases List.mem_append.mp hr with hr | hr
    · exact List.mem_append_left _ (h.reported r hr)
    · simp [hskipped r hr]

theorem Invariant.eq_of_name {seen : List Bytes} {found : Found} (h : Invariant seen found)
    {set set' : SymbolSet} (hs : set ∈ found.sets) (hs' : set' ∈ found.sets)
    (hname : set.name = set'.name) : set = set' :=
  List.inj_on_of_nodup_map h.names hs hs' hname

theorem firstSection_seen {seen : List Bytes} {s : Bytes} {q : Parsed} (section_ : Bytes)
    (hs : s ∈ seen) (hq : recognised s = some q) :
    firstSection (seen ++ [section_]) q.name = firstSection seen q.name := by
  obtain ⟨base, hbase⟩ := Option.isSome_iff_exists.mp (firstSection_isSome hs hq)
  rw [firstSection_of_some section_ hbase, hbase]

/-- The sections recognised for a set after one more section. -/
theorem exists_recognised_concat {seen : List Bytes} {section_ : Bytes} {p : Parsed}
    (hp : recognised section_ = some p) (P : Parsed → Prop) :
    (∃ s ∈ seen ++ [section_], ∃ q, recognised s = some q ∧ P q) ↔
      (∃ s ∈ seen, ∃ q, recognised s = some q ∧ P q) ∨ P p := by
  constructor
  · rintro ⟨s, hs, q, hq, hP⟩
    rcases List.mem_append.mp hs with hs | hs
    · exact .inl ⟨s, hs, q, hq, hP⟩
    · rw [List.mem_singleton.mp hs, hp] at hq
      cases hq
      exact .inr hP
  · rintro (⟨s, hs, q, hq, hP⟩ | hP)
    · exact ⟨s, by simp [hs], q, hq, hP⟩
    · exact ⟨section_, by simp, p, hp, hP⟩

section Step

variable {seen : List Bytes} {found : Found} {section_ : Bytes} {p : Parsed}

/-- One more section of a set that is already there. -/
theorem Invariant.agreeing (h : Invariant seen found) (hrec : recognised section_ = some p)
    {set₀ : SymbolSet} (hset₀ : set₀ ∈ found.sets) (hname₀ : set₀.name = p.name)
    (hsec₀ : set₀.section_ = p.section_) :
    Invariant (seen ++ [section_])
      ⟨found.sets.map fun set => if set.name == p.name then set.add p.priority else set,
        found.skipped⟩ := by
  set upd : SymbolSet → SymbolSet :=
    fun set => if set.name == p.name then set.add p.priority else set with hupd
  have hname : ∀ set, (upd set).name = set.name := fun set => by
    rw [hupd]
    dsimp only
    split_ifs <;> simp
  have hsection : ∀ set, (upd set).section_ = set.section_ := fun set => by
    rw [hupd]
    dsimp only
    split_ifs <;> simp
  have hfirst : firstSection seen p.name = some p.section_ := by
    rw [← hname₀, h.first set₀ hset₀, hsec₀]
  have hmem : ∀ {set}, set ∈ found.sets.map upd → ∃ set' ∈ found.sets, upd set' = set :=
    fun hset => List.mem_map.mp hset
  constructor
  · dsimp only
    rw [List.map_map]
    simpa only [Function.comp_def, hname] using h.names
  · intro set hset
    obtain ⟨set', hset', rfl⟩ := hmem hset
    rw [hname, hsection]
    exact firstSection_of_some _ (h.first set' hset')
  · intro s hs q hq
    have hold : ∃ set ∈ found.sets, set.name = q.name := by
      rcases List.mem_append.mp hs with hs | hs
      · exact h.complete s hs q hq
      · rw [List.mem_singleton.mp hs, hrec] at hq
        cases hq
        exact ⟨set₀, hset₀, hname₀⟩
    obtain ⟨set, hset, hsetname⟩ := hold
    exact ⟨upd set, List.mem_map_of_mem hset, (hname set).trans hsetname⟩
  · intro set hset n
    obtain ⟨set', hset', rfl⟩ := hmem hset
    rw [hname, hsection, exists_recognised_concat hrec, ← h.priorities set' hset' n]
    by_cases heq : set'.name = p.name
    · have hsame := h.eq_of_name hset' hset₀ (heq.trans hname₀.symm)
      subst hsame
      have hval : upd set' = set'.add p.priority := by simp [hupd, heq]
      rw [hval, SymbolSet.mem_add]
      simp [hname₀, hsec₀]
    · have hval : upd set' = set' := by simp [hupd, heq]
      rw [hval, or_iff_left]
      exact fun hp => heq hp.1.symm
  · intro set hset
    obtain ⟨set', hset', rfl⟩ := hmem hset
    rw [hupd]
    dsimp only
    split_ifs
    · exact SymbolSet.nodup_add _ (h.nodup set' hset')
    · exact h.nodup set' hset'
  · intro s hs q hq
    by_cases hin : s ∈ seen
    · rw [firstSection_seen section_ hin hq]
      exact h.skipped s hin q hq
    · have hs' : s = section_ := by simpa [hin] using hs
      subst hs'
      rw [hrec] at hq
      cases hq
      rw [firstSection_of_some _ hfirst]
      exact ⟨fun ⟨r, hr, hrs⟩ => absurd (hrs ▸ h.reported r hr) hin, fun hne => absurd rfl hne⟩
  · intro r hr
    exact List.mem_append_left _ (h.reported r hr)

/-- A section that disagrees with the first one of its set is reported. -/
theorem Invariant.disagreeing (h : Invariant seen found) (hrec : recognised section_ = some p)
    {set₀ : SymbolSet} (hset₀ : set₀ ∈ found.sets) (hname₀ : set₀.name = p.name)
    (hsec₀ : set₀.section_ ≠ p.section_) (reason : Bytes) :
    Invariant (seen ++ [section_]) ⟨found.sets, found.skipped ++ [⟨section_, reason⟩]⟩ := by
  have hfirst : firstSection seen p.name = some set₀.section_ := by
    rw [← hname₀, h.first set₀ hset₀]
  refine ⟨h.names, fun set hset => firstSection_of_some _ (h.first set hset), ?_, ?_, h.nodup,
    ?_, ?_⟩
  · intro s hs q hq
    rcases List.mem_append.mp hs with hs | hs
    · exact h.complete s hs q hq
    · rw [List.mem_singleton.mp hs, hrec] at hq
      cases hq
      exact ⟨set₀, hset₀, hname₀⟩
  · intro set hset n
    rw [exists_recognised_concat hrec, ← h.priorities set hset n, or_iff_left]
    rintro ⟨hn, hs, -⟩
    have hsame := h.eq_of_name hset hset₀ (hn.symm.trans hname₀.symm)
    subst hsame
    exact hsec₀ hs.symm
  · intro s hs q hq
    by_cases heq : s = section_
    · subst heq
      rw [hrec] at hq
      cases hq
      rw [firstSection_of_some _ hfirst]
      refine iff_of_true ⟨⟨s, reason⟩, by simp, rfl⟩ ?_
      exact fun h => hsec₀ (Option.some.inj h)
    · have hin : s ∈ seen := by simpa [heq] using hs
      rw [firstSection_seen section_ hin hq, ← h.skipped s hin q hq]
      constructor
      · rintro ⟨r, hr, rfl⟩
        rcases List.mem_append.mp hr with hr | hr
        · exact ⟨r, hr, rfl⟩
        · rw [List.mem_singleton.mp hr] at heq
          exact absurd rfl heq
      · rintro ⟨r, hr, hrs⟩
        exact ⟨r, by simp [hr], hrs⟩
  · intro r hr
    rcases List.mem_append.mp hr with hr | hr
    · exact List.mem_append_left _ (h.reported r hr)
    · rw [List.mem_singleton.mp hr]
      simp

/-- The first section of a set. -/
theorem Invariant.fresh (h : Invariant seen found) (hrec : recognised section_ = some p)
    (hnone : ∀ set ∈ found.sets, set.name ≠ p.name) :
    Invariant (seen ++ [section_])
      ⟨found.sets ++ [SymbolSet.add ⟨p.name, p.section_, [], false, p.arosSet⟩ p.priority],
        found.skipped⟩ := by
  generalize hnew : SymbolSet.add ⟨p.name, p.section_, [], false, p.arosSet⟩ p.priority = new
  have hnewname : new.name = p.name := by simp [← hnew]
  have hnewsec : new.section_ = p.section_ := by simp [← hnew]
  have hnot : ∀ s ∈ seen, ∀ q, recognised s = some q → q.name ≠ p.name := by
    intro s hs q hq hname
    obtain ⟨set, hset, hsetname⟩ := h.complete s hs q hq
    exact hnone set hset (hsetname.trans hname)
  have hfirst : firstSection (seen ++ [section_]) p.name = some p.section_ := by
    have hseen : firstSection seen p.name = none := by
      rw [firstSection, List.findSome?_eq_none_iff]
      intro s hs
      cases hq : recognised s with
      | none => simp [sectionOf, hq]
      | some q => simp [sectionOf, hq, hnot s hs q hq]
    rw [firstSection_concat, hseen, sectionOf, hrec]
    simp
  have hmem : ∀ {set}, set ∈ found.sets ++ [new] → set ∈ found.sets ∨ set = new :=
    fun hset => by simpa using hset
  constructor
  · dsimp only
    rw [List.map_append, List.nodup_append]
    refine ⟨h.names, by simp, ?_⟩
    intro a ha b hb
    obtain ⟨set, hset, rfl⟩ := List.mem_map.mp ha
    have hb' : b = new.name := by simpa using hb
    rw [hb', hnewname]
    exact hnone set hset
  · intro set hset
    rcases hmem hset with hset | rfl
    · exact firstSection_of_some _ (h.first set hset)
    · rw [hnewname, hnewsec]
      exact hfirst
  · intro s hs q hq
    rcases List.mem_append.mp hs with hs | hs
    · obtain ⟨set, hset, hname⟩ := h.complete s hs q hq
      exact ⟨set, by simp [hset], hname⟩
    · rw [List.mem_singleton.mp hs, hrec] at hq
      cases hq
      exact ⟨new, by simp, hnewname⟩
  · intro set hset n
    rw [exists_recognised_concat hrec]
    rcases hmem hset with hset | rfl
    · rw [← h.priorities set hset n, or_iff_left]
      exact fun hp => hnone set hset hp.1.symm
    · rw [hnewname, hnewsec, or_iff_right, ← hnew, SymbolSet.mem_add]
      · simp
      · rintro ⟨s, hs, q, hq, hname, -⟩
        exact hnot s hs q hq hname
  · intro set hset
    rcases hmem hset with hset | rfl
    · exact h.nodup set hset
    · rw [← hnew]
      exact SymbolSet.nodup_add _ (by simp)
  · intro s hs q hq
    by_cases hin : s ∈ seen
    · rw [firstSection_seen section_ hin hq]
      exact h.skipped s hin q hq
    · have hs' : s = section_ := by simpa [hin] using hs
      subst hs'
      rw [hrec] at hq
      cases hq
      rw [hfirst]
      exact ⟨fun ⟨r, hr, hrs⟩ => absurd (hrs ▸ h.reported r hr) hin, fun hne => absurd rfl hne⟩
  · intro r hr
    exact List.mem_append_left _ (h.reported r hr)

theorem Invariant.step (h : Invariant seen found) (hp : parse section_ = some (.ok p)) :
    Invariant (seen ++ [section_]) (found.step section_) := by
  have hrec := recognised_eq_some.mpr hp
  rcases @step_cases found section_ p hp with ⟨set₀, hset₀, hname₀, hsec₀, hstep⟩ |
      ⟨set₀, hset₀, hname₀, hsec₀, reason, hstep⟩ | ⟨hnone, hstep⟩
  · rw [hstep]
    exact h.agreeing hrec hset₀ hname₀ hsec₀
  · rw [hstep]
    exact h.disagreeing hrec hset₀ hname₀ hsec₀ reason
  · rw [hstep]
    exact h.fresh hrec hnone

end Step

/-- **The invariant holds after any list of sections.** -/
theorem discover_invariant (sections : List Bytes) :
    Invariant sections (sections.foldl Found.step ⟨[], []⟩) := by
  induction sections using List.reverseRecOn with
  | nil => exact invariant_nil
  | append_singleton seen section_ ih =>
    rw [List.foldl_append]
    change Invariant _ (Found.step (seen.foldl Found.step ⟨[], []⟩) section_)
    generalize seen.foldl Found.step ⟨[], []⟩ = found at ih
    cases hparse : parse section_ with
    | none =>
      have hrec : recognised section_ = none := by simp [recognised, hparse]
      have hnone : ∀ r ∈ ([] : List Skipped), r.section_ = section_ := by simp
      have hnext := ih.unrecognised hrec hnone
      rw [List.append_nil] at hnext
      simpa [Found.step, hparse] using hnext
    | some r =>
      cases r with
      | error r =>
        have hrec : recognised section_ = none := by simp [recognised, hparse]
        have hone : ∀ r' ∈ [r], r'.section_ = section_ := by simp [parse_error hparse]
        simpa [Found.step, hparse] using ih.unrecognised hrec hone
      | ok p => exact ih.step hparse

/-! ### The patterns of a script -/

theorem keepPatterns_cons {line : Bytes} (rest : Bytes) (h : newline ∉ line) :
    keepPatterns (line ++ newline :: rest) =
      (keepPattern line).toList ++ keepPatterns rest := by
  have hline : ∀ x ∈ line, (x == newline) = false := by
    intro x hx
    simpa using fun hn : x = newline => h (hn ▸ hx)
  unfold keepPatterns
  rw [List.splitOn_eq_splitOnP, List.splitOn_eq_splitOnP,
    List.splitOnP_append_cons_of_forall_mem hline newline (by simp) rest, List.filterMap_cons]
  cases keepPattern line with
  | none => rfl
  | some p => rfl

theorem keepPatterns_unlines {lines : List Bytes} (rest : Bytes) (h : ∀ l ∈ lines, newline ∉ l) :
    keepPatterns (unlines lines ++ rest) = lines.filterMap keepPattern ++ keepPatterns rest := by
  induction lines with
  | nil => rfl
  | cons line lines ih =>
    have hsplit : unlines (line :: lines) ++ rest = line ++ newline :: (unlines lines ++ rest) := by
      simp [unlines]
    rw [hsplit, keepPatterns_cons _ (h line (by simp)), ih fun l hl => h l (by simp [hl]),
      List.filterMap_cons]
    cases keepPattern line with
    | none => rfl
    | some p => rfl

theorem keepPattern_keepLine (pattern : Bytes) : keepPattern (keepLine pattern) = some pattern := by
  have hline : ascii "    KEEP(*(" = List.replicate 4 0x20 ++ ascii "KEEP(*(" := by decide
  have hbody : (keepLine pattern).dropWhile (· == 0x20) =
      ascii "KEEP(*(" ++ (pattern ++ ascii "))") := by
    have hk : ascii "KEEP(*(" = 0x4b :: ascii "EEP(*(" := by decide
    rw [keepLine, hline, hk]
    rfl
  have hseven : (ascii "KEEP(*(").length = 7 := by decide
  have htwo : (ascii "))").length = 2 := by decide
  unfold keepPattern
  dsimp only
  rw [hbody, if_pos]
  · rw [← hseven, List.drop_left, List.length_append, List.length_append, htwo, hseven]
    have hlen : 7 + (pattern.length + 2) - 9 = pattern.length := by omega
    rw [hlen, List.take_left]
  · rw [Bool.and_eq_true]
    refine ⟨List.isPrefixOf_iff_prefix.mpr (List.prefix_append _ _),
      List.isSuffixOf_iff_suffix.mpr ?_⟩
    exact ⟨ascii "KEEP(*(" ++ pattern, by rw [List.append_assoc]⟩

/-- The text begins, after blanks, with something else than `KEEP`. -/
def quiet (text : Bytes) : Bool :=
  match text.dropWhile (· == 0x20) with
  | [] => false
  | c :: _ => c != 0x4b

theorem keepPattern_quiet {text : Bytes} (rest : Bytes) (h : quiet text = true) :
    keepPattern (text ++ rest) = none := by
  unfold quiet at h
  split at h
  · cases h
  · next c more hdrop =>
    have hne : c ≠ 0x4b := by simpa using h
    have hbody : (text ++ rest).dropWhile (· == 0x20) = c :: (more ++ rest) := by
      rw [List.dropWhile_append, hdrop]
      rfl
    have hk : ascii "KEEP(*(" = 0x4b :: ascii "EEP(*(" := by decide
    unfold keepPattern
    dsimp only
    rw [hbody, hk, if_neg]
    rw [Bool.and_eq_true, List.isPrefixOf_iff_prefix, List.cons_prefix_cons]
    exact fun h => hne h.1.1.symm

/-- The section patterns of one set, in the order of the script. -/
def setPatterns (set : SymbolSet) : List Bytes :=
  set.priorities.map set.pattern ++ [set.section_]

/-- The names of a set fit on a line. -/
def OneLine (set : SymbolSet) : Prop := newline ∉ set.name ∧ newline ∉ set.section_

theorem newline_not_mem_natText (n : ℕ) : newline ∉ natText n := fun h =>
  absurd (digit_of_mem_natText h).1 (by decide)

theorem newline_not_mem_intText (n : ℤ) : newline ∉ intText n := by
  unfold intText
  split_ifs
  · rw [List.mem_cons, not_or]
    exact ⟨by decide, newline_not_mem_natText _⟩
  · exact newline_not_mem_natText _

theorem newline_not_mem_keepLine {pattern : Bytes} (h : newline ∉ pattern) :
    newline ∉ keepLine pattern := by
  have h₁ : newline ∉ ascii "    KEEP(*(" := by decide
  have h₂ : newline ∉ ascii "))" := by decide
  simp [keepLine, h, h₁, h₂]

theorem newline_not_mem_pattern {set : SymbolSet} (h : OneLine set) (n : ℤ) :
    newline ∉ set.pattern n := by
  have hdot : newline ≠ dot := by decide
  simp [SymbolSet.pattern, h.2, newline_not_mem_intText, hdot]

theorem newline_not_mem_directive (cls : Class) : newline ∉ cls.pointerDirective := by
  cases cls <;> decide

theorem setLines_newline (cls : Class) {set : SymbolSet} (h : OneLine set) :
    ∀ l ∈ setLines cls set, newline ∉ l := by
  have h₁ : newline ∉ ascii "    . = ALIGN(" := by decide
  have h₂ : newline ∉ ascii ");" := by decide
  have h₃ : newline ∉ ascii "    __" := by decide
  have h₄ : newline ∉ ascii "_LIST__ = .;" := by decide
  have h₅ : newline ∉ ascii "    " := by decide
  have h₆ : newline ∉ ascii "((__" := by decide
  have h₇ : newline ∉ ascii "_END__ - __" := by decide
  have h₈ : newline ∉ ascii "_LIST__) / " := by decide
  have h₉ : newline ∉ ascii " - 2)" := by decide
  have h₁₀ : newline ∉ ascii "(0)" := by decide
  have h₁₁ : newline ∉ ascii "_END__ = .;" := by decide
  have hdir := newline_not_mem_directive cls
  have hnat := newline_not_mem_natText cls.pointerBytes
  intro l hl
  simp only [setLines, List.mem_append, List.mem_cons, List.not_mem_nil, or_false,
    List.mem_map] at hl
  rcases hl with ((rfl | rfl | rfl) | ⟨n, -, rfl⟩) | rfl | rfl | rfl
  · simp [h₁, h₂, hnat]
  · simp [h₃, h₄, h.1]
  · simp [h₅, h₆, h₇, h₈, h₉, hdir, hnat, h.1]
  · exact newline_not_mem_keepLine (newline_not_mem_pattern h n)
  · exact newline_not_mem_keepLine h.2
  · simp [h₅, h₁₀, hdir]
  · simp [h₃, h₁₁, h.1]

theorem keepPattern_directive (cls : Class) (rest : Bytes) :
    keepPattern (ascii "    " ++ cls.pointerDirective ++ rest) = none := by
  apply keepPattern_quiet
  cases cls <;> decide

theorem setLines_patterns (cls : Class) (set : SymbolSet) :
    (setLines cls set).filterMap keepPattern = setPatterns set := by
  have h₁ : quiet (ascii "    . = ALIGN(") = true := by decide
  have h₂ : quiet (ascii "    __") = true := by decide
  have hprio : (set.priorities.map fun n => keepLine (set.pattern n)).filterMap keepPattern =
      set.priorities.map set.pattern := by
    rw [List.filterMap_map]
    have hfun : (keepPattern ∘ fun n => keepLine (set.pattern n)) = some ∘ set.pattern :=
      funext fun n => keepPattern_keepLine _
    rw [hfun, List.filterMap_eq_map]
  simp only [setLines, setPatterns, List.filterMap_append, hprio, List.filterMap_cons,
    List.append_assoc, keepPattern_quiet _ h₁, keepPattern_quiet _ h₂, keepPattern_keepLine,
    List.filterMap_nil]
  have hd := keepPattern_directive cls
  simp only [List.append_assoc] at hd
  simp only [hd, List.nil_append]

theorem externs_patterns (sets : List SymbolSet) :
    (sets.map fun set => ascii "EXTERN(__" ++ set.name ++
      ascii "__symbol_set_handler_missing)").filterMap keepPattern = [] := by
  have h : quiet (ascii "EXTERN(__") = true := by decide
  rw [List.filterMap_eq_nil_iff]
  intro l hl
  obtain ⟨set, -, rfl⟩ := List.mem_map.mp hl
  rw [List.append_assoc]
  exact keepPattern_quiet _ h

theorem externs_newline {sets : List SymbolSet} (h : ∀ set ∈ sets, OneLine set) :
    ∀ l ∈ sets.map fun set => ascii "EXTERN(__" ++ set.name ++
      ascii "__symbol_set_handler_missing)", newline ∉ l := by
  have h₁ : newline ∉ ascii "EXTERN(__" := by decide
  have h₂ : newline ∉ ascii "__symbol_set_handler_missing)" := by decide
  intro l hl
  obtain ⟨set, hset, rfl⟩ := List.mem_map.mp hl
  simp [h₁, h₂, (h set hset).1]

/-- The lines of the version markers keep nothing. -/
theorem keepPatterns_libreq {requirements : List Requirement} (rest : Bytes)
    (h : ∀ r ∈ requirements, newline ∉ r.symbol) :
    keepPatterns (libreqScript requirements ++ rest) = keepPatterns rest := by
  have h₁ : newline ∉ ascii "    . = ALIGN(4);" := by decide
  have h₂ : newline ∉ ascii "    PROVIDE(" := by decide
  have h₃ : newline ∉ ascii " = .);" := by decide
  have h₄ : newline ∉ ascii "    LONG(" := by decide
  have h₅ : newline ∉ ascii ")" := by decide
  have q₁ : keepPattern (ascii "    . = ALIGN(4);") = none := by decide
  have q₂ : quiet (ascii "    PROVIDE(") = true := by decide
  have q₃ : quiet (ascii "    LONG(") = true := by decide
  rw [libreqScript, keepPatterns_unlines]
  · have hnone : (requirements.flatMap fun r =>
        [ascii "    . = ALIGN(4);", ascii "    PROVIDE(" ++ r.symbol ++ ascii " = .);",
          ascii "    LONG(" ++ intText r.version ++ ascii ")"]).filterMap keepPattern = [] := by
      rw [List.filterMap_eq_nil_iff]
      intro l hl
      obtain ⟨r, -, hl⟩ := List.mem_flatMap.mp hl
      simp only [List.mem_cons, List.not_mem_nil, or_false] at hl
      rcases hl with rfl | rfl | rfl
      · exact q₁
      · rw [List.append_assoc]
        exact keepPattern_quiet _ q₂
      · rw [List.append_assoc]
        exact keepPattern_quiet _ q₃
    rw [hnone, List.nil_append]
  · intro l hl
    obtain ⟨r, hr, hl⟩ := List.mem_flatMap.mp hl
    simp only [List.mem_cons, List.not_mem_nil, or_false] at hl
    rcases hl with rfl | rfl | rfl
    · exact h₁
    · simp [h₂, h₃, h r hr]
    · simp [h₄, h₅, newline_not_mem_intText]

/-- **The patterns of a script**: those of the sets in order, between two fixed ones. -/
theorem keepPatterns_script {sets : List SymbolSet} (cls : Class)
    {requirements : List Requirement} (hsets : ∀ set ∈ sets, OneLine set)
    (hreq : ∀ r ∈ requirements, newline ∉ r.symbol) :
    keepPatterns (script sets cls (libreqScript requirements)) =
      [ascii ".aros.startup"] ++ sets.flatMap setPatterns ++ [ascii ".eh_frame"] := by
  have hopen : ∀ l ∈ [ascii "SECTIONS", ascii "\x7b", ascii "  .text : \x7b",
      keepLine (ascii ".aros.startup"), ascii "    *(.text)", ascii "    *(.text.*)", ascii "  \x7d",
      ascii "  .aros.sets : \x7b"], newline ∉ l := by decide
  have hopenp : [ascii "SECTIONS", ascii "\x7b", ascii "  .text : \x7b",
      keepLine (ascii ".aros.startup"), ascii "    *(.text)", ascii "    *(.text.*)", ascii "  \x7d",
      ascii "  .aros.sets : \x7b"].filterMap keepPattern = [ascii ".aros.startup"] := by
    decide
  have hclose : keepPatterns (unlines [ascii "  \x7d", ascii "  .eh_frame : \x7b",
      ascii "    PROVIDE(__eh_frame_start = .);", keepLine (ascii ".eh_frame"),
      ascii "    PROVIDE(__eh_frame_end = .);", ascii "  \x7d", ascii "\x7d"]) =
      [ascii ".eh_frame"] := by decide
  unfold script
  rw [List.append_assoc, List.append_assoc, List.append_assoc,
    keepPatterns_unlines _ (externs_newline fun set hset =>
      hsets set (List.mem_of_mem_filter hset)), externs_patterns,
    keepPatterns_unlines _ hopen, hopenp, keepPatterns_unlines, keepPatterns_libreq _ hreq, hclose]
  · rw [List.filterMap_flatMap]
    simp only [setLines_patterns, List.nil_append, List.append_assoc]
  · intro l hl
    obtain ⟨set, hset, hl⟩ := List.mem_flatMap.mp hl
    exact setLines_newline cls (hsets set hset) l hl

/-! ### Which sections are kept -/

/-- The sets before sorting. -/
def collected (sections : List Bytes) : Found := sections.foldl Found.step ⟨[], []⟩

/-- A set with its priorities in ascending order. -/
def SymbolSet.sorted (set : SymbolSet) : SymbolSet :=
  { set with priorities := set.priorities.insertionSort (· ≤ ·) }

theorem discover_perm (sections : List Bytes) :
    (discover sections).1.Perm ((collected sections).sets.map SymbolSet.sorted) :=
  List.perm_insertionSort _ _

theorem mem_setPatterns_sorted {set : SymbolSet} {pattern : Bytes} :
    pattern ∈ setPatterns set.sorted ↔
      (∃ n ∈ set.priorities, set.pattern n = pattern) ∨ pattern = set.section_ := by
  simp only [setPatterns, SymbolSet.sorted, List.mem_append, List.mem_map, List.mem_insertionSort,
    List.mem_singleton]
  exact Iff.rfl

section Discovered

variable {sections : List Bytes} {set : SymbolSet}

/-- A set comes from a section that is recognised for it. -/
theorem exists_source (hset : set ∈ (collected sections).sets) :
    ∃ section_ ∈ sections, ∃ p, parse section_ = some (.ok p) ∧ p.name = set.name ∧
      p.section_ = set.section_ := by
  have h := (discover_invariant sections).first set hset
  obtain ⟨section_, hmem, hsec⟩ := List.exists_of_findSome?_eq_some h
  unfold sectionOf at hsec
  obtain ⟨p, hp, hite⟩ := Option.bind_eq_some_iff.mp hsec
  split_ifs at hite with hname
  exact ⟨section_, hmem, p, recognised_eq_some.mp hp, hname, Option.some.inj hite⟩

theorem priority_bounds (hset : set ∈ (collected sections).sets) {n : ℤ}
    (hn : n ∈ set.priorities) : -2 ^ 63 ≤ n ∧ n < 2 ^ 63 := by
  obtain ⟨section_, -, p, hp, -, -, hprio⟩ :=
    ((discover_invariant sections).priorities set hset n).mp hn
  rcases section_eq_of_parse (recognised_eq_some.mp hp) with ⟨hnone, -⟩ | ⟨suffix, m, -, hm, hsome⟩
  · rw [hnone] at hprio
    cases hprio
  · rw [hsome] at hprio
    cases hprio
    exact parseInt64_bounds hm

/-- A pattern of a set is recognised as a section of that set, with the priority it prints. -/
theorem parse_setPattern (hset : set ∈ (collected sections).sets) {n : ℤ}
    (hn : n ∈ set.priorities) : ∃ p, parse (set.pattern n) = some (.ok p) ∧ p.name = set.name ∧
      p.priority = some n := by
  obtain ⟨section_, -, p, hp, hname, hsec⟩ := exists_source hset
  obtain ⟨hlo, hhi⟩ := priority_bounds hset hn
  refine ⟨{ p with priority := some n }, ?_, hname, rfl⟩
  rw [SymbolSet.pattern, ← hsec]
  exact parse_pattern hp hlo hhi

theorem parse_setSection (hset : set ∈ (collected sections).sets) :
    ∃ p, parse set.section_ = some (.ok p) ∧ p.name = set.name ∧ p.priority = none := by
  obtain ⟨section_, -, p, hp, hname, hsec⟩ := exists_source hset
  refine ⟨{ p with priority := none }, ?_, hname, rfl⟩
  rw [← hsec]
  exact parse_bare hp

theorem name_of_setPatterns (hset : set ∈ (collected sections).sets) {pattern : Bytes}
    (h : pattern ∈ setPatterns set.sorted) :
    ∃ p, parse pattern = some (.ok p) ∧ p.name = set.name := by
  rcases mem_setPatterns_sorted.mp h with ⟨n, hn, rfl⟩ | rfl
  · obtain ⟨p, hp, hname, -⟩ := parse_setPattern hset hn
    exact ⟨p, hp, hname⟩
  · obtain ⟨p, hp, hname, -⟩ := parse_setSection hset
    exact ⟨p, hp, hname⟩

theorem setPatterns_nodup (hset : set ∈ (collected sections).sets) :
    (setPatterns set.sorted).Nodup := by
  have hsorted : set.sorted.priorities.Nodup :=
    (List.perm_insertionSort _ _).nodup_iff.mpr ((discover_invariant sections).nodup set hset)
  have hmem : ∀ n, n ∈ set.sorted.priorities ↔ n ∈ set.priorities :=
    fun n => List.mem_insertionSort _
  unfold setPatterns
  rw [List.nodup_append]
  refine ⟨hsorted.map_on ?_, by simp, ?_⟩
  · intro a ha b hb hab
    obtain ⟨p, hp, -, hpa⟩ := parse_setPattern hset ((hmem a).mp ha)
    obtain ⟨q, hq, -, hqb⟩ := parse_setPattern hset ((hmem b).mp hb)
    have hab' : set.pattern a = set.pattern b := hab
    rw [hab', hq] at hp
    cases hp
    rw [hpa] at hqb
    exact Option.some.inj hqb
  · intro a ha b hb heq
    obtain ⟨n, hn, rfl⟩ := List.mem_map.mp ha
    rw [List.mem_singleton.mp hb] at heq
    obtain ⟨p, hp, -, hpn⟩ := parse_setPattern hset ((hmem n).mp hn)
    obtain ⟨q, hq, -, hqn⟩ := parse_setSection hset
    have heq' : set.pattern n = set.section_ := heq
    rw [heq', hq] at hp
    cases hp
    rw [hpn] at hqn
    cases hqn

/-- Every byte of a recognised section or set name is a symbol byte or a dot. -/
theorem bytes_of_source (hset : set ∈ (collected sections).sets) :
    (∀ b ∈ set.name, symbolByte b = true) ∧
      ∀ b ∈ set.section_, symbolByte b = true ∨ b = dot := by
  obtain ⟨section_, -, p, hp, hname, hsec⟩ := exists_source hset
  obtain ⟨head, name, tail, priority, arosSet, -, hhead, -, hall, -, rfl⟩ := parse_eq_ok.mp hp
  have hall' := List.all_eq_true.mp hall
  have hupper : ∀ b : UInt8, symbolByte b = true → symbolByte (asciiUpper b) = true := by
    have hfin : ∀ n : Fin 256, symbolByte (UInt8.ofNat n) = true →
        symbolByte (asciiUpper (UInt8.ofNat n)) = true := by decide +kernel
    intro b
    simpa using hfin ⟨b.toNat, b.toNat_lt⟩
  have haros : ∀ b ∈ ascii ".aros.set.", symbolByte b = true ∨ b = dot := by decide +kernel
  constructor
  · intro b hb
    rw [← hname] at hb
    obtain ⟨c, hc, rfl⟩ := List.mem_map.mp hb
    exact hupper c (hall' c hc)
  · intro b hb
    rw [← hsec] at hb
    rcases List.mem_append.mp hb with hb | hb
    · rcases hhead with ⟨rfl, -⟩ | ⟨rfl, -⟩
      · exact haros b hb
      · exact .inr (List.mem_singleton.mp hb)
    · exact .inl (hall' b hb)

theorem oneLine_of_source (hset : set ∈ (collected sections).sets) : OneLine set.sorted := by
  obtain ⟨hname, hsec⟩ := bytes_of_source hset
  constructor
  · intro h
    exact absurd (hname newline h) (by decide)
  · intro h
    exact absurd (hsec newline h) (by decide)

theorem literal_of_source (hset : set ∈ (collected sections).sets) {pattern : Bytes}
    (h : pattern ∈ setPatterns set.sorted) : Literal pattern := by
  obtain ⟨-, hsec⟩ := bytes_of_source hset
  have hwild : ∀ b ∈ ascii "*?[]\\", symbolByte b = false ∧ b ≠ dot ∧ b ≠ 0x2d ∧
      ¬ (0x30 ≤ b ∧ b ≤ 0x39) := by decide +kernel
  intro b hb hmem
  obtain ⟨h₁, h₂, h₃, h₄⟩ := hwild b hb
  have hnot : b ∉ set.section_ := fun hin => by
    rcases hsec b hin with h | h
    · rw [h₁] at h
      cases h
    · exact h₂ h
  rcases mem_setPatterns_sorted.mp h with ⟨n, -, rfl⟩ | rfl
  · rw [SymbolSet.pattern, List.mem_append, List.mem_append, List.mem_singleton] at hmem
    rcases hmem with (hmem | hmem) | hmem
    · exact hnot hmem
    · exact h₂ hmem
    · unfold intText at hmem
      split_ifs at hmem
      · rcases List.mem_cons.mp hmem with rfl | hmem
        · exact h₃ rfl
        · exact h₄ (digit_of_mem_natText hmem)
      · exact h₄ (digit_of_mem_natText hmem)
  · exact hnot hmem

end Discovered

section Script

variable (sections : List Bytes) (cls : Class) (requirements : List Requirement)

/-- The patterns of the script that the collector writes for the sections of an object. -/
def generatedPatterns : List Bytes :=
  keepPatterns (script (discover sections).1 cls (libreqScript requirements))

/-- Every section that is recognised and not reported is matched by exactly one pattern. -/
def KeptOnce : Prop :=
  ∀ section_ ∈ sections, ∀ p, parse section_ = some (.ok p) →
    (∀ r ∈ (discover sections).2, r.section_ ≠ section_) →
    (generatedPatterns sections cls requirements).countP (fun q => Matches q section_) = 1

/-- The patterns of a set stand together, by ascending priority, with the unsuffixed one last. -/
def Ordered : Prop :=
  ∀ set ∈ (discover sections).1, set.priorities.Pairwise (· < ·) ∧
    set.priorities.map set.pattern ++ [set.section_] <:+:
      generatedPatterns sections cls requirements

/-- A pattern of a set has no wildcards, and only matches names that are recognised for that
set. -/
def Separate : Prop :=
  ∀ set ∈ (discover sections).1, ∀ pattern ∈ set.priorities.map set.pattern ++ [set.section_],
    Literal pattern ∧
      ∀ name, Matches pattern name → ∃ p, parse name = some (.ok p) ∧ p.name = set.name

variable {sections cls requirements}

theorem mem_discover {set : SymbolSet} (h : set ∈ (discover sections).1) :
    ∃ set' ∈ (collected sections).sets, set'.sorted = set :=
  List.mem_map.mp ((discover_perm sections).mem_iff.mp h)

theorem generatedPatterns_eq (hreq : ∀ r ∈ requirements, newline ∉ r.symbol) :
    generatedPatterns sections cls requirements = [ascii ".aros.startup"] ++
      (discover sections).1.flatMap setPatterns ++ [ascii ".eh_frame"] := by
  refine keepPatterns_script cls (fun set hset => ?_) hreq
  obtain ⟨set', hset', rfl⟩ := mem_discover hset
  exact oneLine_of_source hset'

theorem separate : Separate sections := by
  intro set hset pattern hpattern
  obtain ⟨set', hset', rfl⟩ := mem_discover hset
  refine ⟨literal_of_source hset' hpattern, ?_⟩
  rintro name rfl
  obtain ⟨p, hp, hname⟩ := name_of_setPatterns hset' hpattern
  exact ⟨p, hp, hname⟩

theorem ordered (hreq : ∀ r ∈ requirements, newline ∉ r.symbol) :
    Ordered sections cls requirements := by
  intro set hset
  have hset₀ := hset
  obtain ⟨set', hset', rfl⟩ := mem_discover hset
  constructor
  · have hle : set'.sorted.priorities.Pairwise (· ≤ ·) := List.pairwise_insertionSort _ _
    have hne : set'.sorted.priorities.Pairwise (· ≠ ·) :=
      (List.perm_insertionSort _ _).nodup_iff.mpr ((discover_invariant sections).nodup set' hset')
    exact (hle.and hne).imp fun h => lt_of_le_of_ne h.1 h.2
  · rw [generatedPatterns_eq hreq]
    obtain ⟨before, after, hsplit⟩ := List.append_of_mem hset₀
    rw [hsplit, List.flatMap_append, List.flatMap_cons]
    refine ⟨[ascii ".aros.startup"] ++ before.flatMap setPatterns,
      after.flatMap setPatterns ++ [ascii ".eh_frame"], ?_⟩
    simp [setPatterns]

/-- No pattern stands twice in a script. -/
theorem generatedPatterns_nodup (hreq : ∀ r ∈ requirements, newline ∉ r.symbol) :
    (generatedPatterns sections cls requirements).Nodup := by
  have hfixed : parse (ascii ".aros.startup") = none ∧ parse (ascii ".eh_frame") = none ∧
      ascii ".aros.startup" ≠ ascii ".eh_frame" := by
    refine ⟨?_, ?_, by decide⟩
    · rw [parse_eq, Option.map_eq_none_iff]
      decide
    · rw [parse_eq, Option.map_eq_none_iff]
      decide
  have hrec : ∀ pattern ∈ (discover sections).1.flatMap setPatterns, parse pattern ≠ none := by
    intro pattern h
    obtain ⟨set, hset, hpattern⟩ := List.mem_flatMap.mp h
    obtain ⟨set', hset', rfl⟩ := mem_discover hset
    obtain ⟨p, hp, -⟩ := name_of_setPatterns hset' hpattern
    rw [hp]
    simp
  have hsets : ((discover sections).1.flatMap setPatterns).Nodup := by
    rw [List.nodup_flatMap]
    constructor
    · intro set hset
      obtain ⟨set', hset', rfl⟩ := mem_discover hset
      exact setPatterns_nodup hset'
    · have hnames : ((discover sections).1.map fun set => set.name).Nodup := by
        rw [((discover_perm sections).map _).nodup_iff, List.map_map]
        exact (discover_invariant sections).names
      rw [List.Nodup, List.pairwise_map] at hnames
      refine hnames.imp_of_mem fun {s t} hs ht hne => ?_
      intro pattern hps hpt
      obtain ⟨s', hs', rfl⟩ := mem_discover hs
      obtain ⟨t', ht', rfl⟩ := mem_discover ht
      obtain ⟨p, hp, hpname⟩ := name_of_setPatterns hs' hps
      obtain ⟨q, hq, hqname⟩ := name_of_setPatterns ht' hpt
      rw [hp] at hq
      cases hq
      exact hne (hpname.symm.trans hqname)
  rw [generatedPatterns_eq hreq, List.nodup_append, List.nodup_append]
  refine ⟨⟨by simp, hsets, ?_⟩, by simp, ?_⟩
  · intro a ha b hb hab
    rw [List.mem_singleton.mp ha] at hab
    exact hrec b hb (hab ▸ hfixed.1)
  · intro a ha b hb hab
    rw [List.mem_singleton.mp hb] at hab
    subst hab
    rcases List.mem_append.mp ha with ha | ha
    · exact hfixed.2.2 (List.mem_singleton.mp ha).symm
    · exact hrec _ ha hfixed.2.1

/-- A section that is recognised and not reported agrees with the first section of its set. -/
theorem reported_iff {section_ : Bytes} {p : Parsed} (hmem : section_ ∈ sections)
    (hp : parse section_ = some (.ok p)) :
    (∀ r ∈ (discover sections).2, r.section_ ≠ section_) ↔
      firstSection sections p.name = some p.section_ := by
  have h := (discover_invariant sections).skipped section_ hmem p (recognised_eq_some.mpr hp)
  rw [← not_iff_not, ← ne_eq (firstSection sections p.name), ← h]
  push Not
  exact Iff.rfl

/-- Such a section has a pattern exactly when it is spelled as the pattern is printed. -/
theorem mem_generatedPatterns (hreq : ∀ r ∈ requirements, newline ∉ r.symbol) {section_ : Bytes}
    {p : Parsed} (hmem : section_ ∈ sections) (hp : parse section_ = some (.ok p))
    (hfirst : firstSection sections p.name = some p.section_) :
    section_ ∈ generatedPatterns sections cls requirements ↔
      ∀ n, p.priority = some n → section_ = p.section_ ++ [dot] ++ intText n := by
  have hinv := discover_invariant sections
  obtain ⟨set, hset, hname⟩ := hinv.complete section_ hmem p (recognised_eq_some.mpr hp)
  have hsec : set.section_ = p.section_ := by
    have h := hinv.first set hset
    rw [hname, hfirst] at h
    exact (Option.some.inj h).symm
  have hsorted : set.sorted ∈ (discover sections).1 :=
    (discover_perm sections).mem_iff.mpr (List.mem_map_of_mem hset)
  -- Only a pattern of its own set can be the section.
  have hown : section_ ∈ generatedPatterns sections cls requirements ↔
      section_ ∈ setPatterns set.sorted := by
    rw [generatedPatterns_eq hreq, List.mem_append, List.mem_append, List.mem_singleton,
      List.mem_singleton, List.mem_flatMap]
    constructor
    · rintro ((h | ⟨t, ht, hpat⟩) | h)
      · rw [h, parse_eq, show (prefixes.find? fun p => p.1.isPrefixOf (ascii ".aros.startup")) = none
          by decide] at hp
        cases hp
      · obtain ⟨t', ht', rfl⟩ := mem_discover ht
        obtain ⟨q, hq, hqname⟩ := name_of_setPatterns ht' hpat
        rw [hp] at hq
        cases hq
        rwa [hinv.eq_of_name hset ht' (hname.trans hqname)]
      · rw [h, parse_eq, show (prefixes.find? fun p => p.1.isPrefixOf (ascii ".eh_frame")) = none
          by decide] at hp
        cases hp
    · exact fun h => .inl (.inr ⟨_, hsorted, h⟩)
  rw [hown, mem_setPatterns_sorted]
  rcases section_eq_of_parse hp with ⟨hnone, heq⟩ | ⟨suffix, n, heq, hparse, hsome⟩
  · refine iff_of_true (.inr (heq.trans hsec.symm)) fun n hn => ?_
    rw [hnone] at hn
    cases hn
  · constructor
    · rintro (⟨m, hm, hpat⟩ | h)
      · intro k hk
        obtain ⟨q, hq, -, hqm⟩ := parse_setPattern hset hm
        rw [hpat, hp] at hq
        cases hq
        rw [hk] at hqm
        cases hqm
        rw [← hpat, SymbolSet.pattern, hsec]
      · obtain ⟨q, hq, -, hqnone⟩ := parse_setSection hset
        rw [← h, hp] at hq
        cases hq
        rw [hsome] at hqnone
        cases hqnone
    · intro h
      refine .inl ⟨n, (hinv.priorities set hset n).mpr ⟨section_, hmem, p,
        recognised_eq_some.mpr hp, hname.symm, hsec.symm, hsome⟩, ?_⟩
      rw [SymbolSet.pattern, hsec]
      exact (h n hsome).symm

/-- **When no set section is dropped.** Patterns of a set are always in order and never match a
name of another set; every section that is recognised and not reported is matched exactly once if
and only if each of those that has a priority spells it as it is printed: no leading zeros, no
`+`, no `-0`. -/
theorem sets_kept_iff (sections : List Bytes) (cls : Class) (requirements : List Requirement)
    (hreq : ∀ r ∈ requirements, newline ∉ r.symbol) :
    (KeptOnce sections cls requirements ∧ Ordered sections cls requirements ∧
      Separate sections) ↔
    ∀ section_ ∈ sections, ∀ p n, parse section_ = some (.ok p) →
      firstSection sections p.name = some p.section_ → p.priority = some n →
      section_ = p.section_ ++ [dot] ++ intText n := by
  have hcount : ∀ section_, (generatedPatterns sections cls requirements).countP
      (fun q => Matches q section_) = 1 ↔
        section_ ∈ generatedPatterns sections cls requirements := by
    intro section_
    have heq : (generatedPatterns sections cls requirements).countP
        (fun q => Matches q section_) =
          (generatedPatterns sections cls requirements).count section_ := by
      rw [List.count]
      refine List.countP_congr fun q _ => ?_
      rw [decide_eq_true_eq, beq_iff_eq]
      exact Iff.rfl
    rw [heq]
    constructor
    · intro h
      exact List.count_pos_iff.mp (by omega)
    · exact fun h => List.count_eq_one_of_mem (generatedPatterns_nodup hreq) h
  constructor
  · rintro ⟨hkept, -, -⟩ section_ hmem p n hp hfirst hprio
    have hone := hkept section_ hmem p hp ((reported_iff hmem hp).mpr hfirst)
    exact (mem_generatedPatterns hreq hmem hp hfirst).mp ((hcount _).mp hone) n hprio
  · intro h
    refine ⟨fun section_ hmem p hp hnot => ?_, ordered hreq, separate⟩
    have hfirst := (reported_iff hmem hp).mp hnot
    exact (hcount _).mpr ((mem_generatedPatterns hreq hmem hp hfirst).mpr
      fun n hn => h section_ hmem p n hp hfirst hn)

end Script

/-- Two priorities of one set and a compiler set, spelled as they are printed. -/
theorem sets_kept_sample :
    KeptOnce [ascii ".aros.set.INITLIB.10", ascii ".aros.set.INITLIB.-127", ascii ".ctors"]
      .elf64 [] := by
  refine ((sets_kept_iff _ _ _ (by simp)).mpr ?_).1
  have h₁ : recognised (ascii ".aros.set.INITLIB.10") =
      some ⟨ascii "INITLIB", ascii ".aros.set.INITLIB", some 10, true⟩ := by decide
  have h₂ : recognised (ascii ".aros.set.INITLIB.-127") =
      some ⟨ascii "INITLIB", ascii ".aros.set.INITLIB", some (-127), true⟩ := by decide
  have h₃ : recognised (ascii ".ctors") =
      some ⟨ascii "CTORS", ascii ".ctors", none, false⟩ := by decide
  intro section_ hmem p n hp _ hprio
  rw [← recognised_eq_some] at hp
  simp only [List.mem_cons, List.not_mem_nil, or_false] at hmem
  rcases hmem with rfl | rfl | rfl
  · rw [h₁] at hp
    cases hp
    cases hprio
    decide
  · rw [h₂] at hp
    cases hp
    cases hprio
    decide
  · rw [h₃] at hp
    cases hp
    cases hprio

/-- A padded priority, as compilers emit it for `.init_array`, is recognised and not reported, and
no pattern matches it. -/
theorem padded_priority_dropped : ¬ KeptOnce [ascii ".init_array.00100"] .elf64 [] := by
  intro h
  have hparse : recognised (ascii ".init_array.00100") =
      some ⟨ascii "INIT_ARRAY", ascii ".init_array", some 100, false⟩ := by decide
  have hnot : ∀ r ∈ (discover [ascii ".init_array.00100"]).2,
      r.section_ ≠ ascii ".init_array.00100" := by decide
  have hone := h _ (by simp) _ (recognised_eq_some.mp hparse) hnot
  have hzero : (generatedPatterns [ascii ".init_array.00100"] .elf64 []).countP
      (fun q => Matches q (ascii ".init_array.00100")) = 0 := by decide
  omega

end Sets

end ArosTools
