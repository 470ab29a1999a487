import ArosTools.Genmodule.Conf
import ArosTools.Program.Except

/-!
# The library vectors of a module

The vectors that `parseConfVariant` hands out are compared with a plain numbering of the function
list: `declarations` numbers the declarations of a list of lines one by one, with a step for every
blank line and every reserved vector, and without a bound on the numbers. `functionList` are the
lines of a configuration that stand in its function lists, and `vectorStart` is the vector the
first of these lists starts with.

* `functions_vectors` — the functions of the module carry the numbers of that numbering, cut off
  at the largest `u32`;
* `conf_vectors` — vectors grow, lie at or above the module's first vector, and fit the table that
  `functionsCount` sizes.
-/

namespace ArosTools

namespace Genmodule

open Str

/-! ### The numbering -/

/-- The declarations of a function list with their numbers, counted up from `v`. -/
def declarations (v : ℕ) : List Text → List (Text × ℕ)
  | [] => []
  | line :: rest =>
    match declared line with
    | some f => (f.name, v) :: declarations (v + 1) rest
    | none => declarations (v + reserved line) rest

/-- The largest vector. -/
def maxLvo : ℕ := 2 ^ 32 - 1

/-- A declaration with the vector it is given. -/
def numbered (d : Text × ℕ) : Text × ℕ := (d.1, min d.2 maxLvo)

/-- The declarations that the module keeps. -/
def kept (ds : List (Text × ℕ)) : List (Text × ℕ) := ds.filter fun d => !isStandardVector d.1

/-- The name and the vector of a function. -/
def Function.vector (f : Function) : Text × ℕ := (f.name, f.lvo)

theorem declarations_ge {v : ℕ} {list : List Text} {d : Text × ℕ} (h : d ∈ declarations v list) :
    v ≤ d.2 := by
  induction list generalizing v with
  | nil => cases h
  | cons line rest ih =>
    unfold declarations at h
    split at h
    · rcases List.mem_cons.mp h with rfl | h
      · exact le_rfl
      · have := ih h
        omega
    · have := ih h
      omega

/-- The numbers of a list grow strictly. -/
theorem declarations_increasing (v : ℕ) (list : List Text) :
    (declarations v list).Pairwise fun d e => d.2 < e.2 := by
  induction list generalizing v with
  | nil => exact List.Pairwise.nil
  | cons line rest ih =>
    unfold declarations
    split
    · refine List.pairwise_cons.mpr ⟨fun e he => ?_, ih _⟩
      have := declarations_ge he
      omega
    · exact ih _

/-! ### Where the lines of a function list stand -/

/-- The section a line belongs to, and how deep it lies in interfaces and classes. -/
structure Track where
  current : ConfSection
  nesting : ℕ

/-- The track after a line. -/
def Track.step (t : Track) (line : Text) : Track :=
  match reading (trim line) with
  | .opens _ => { t with nesting := t.nesting + 1 }
  | .closes => { t with nesting := t.nesting - 1 }
  | .enter current => if t.nesting > 0 then t else { t with current := current }
  | .other => t

/-- A line of a function list of the module. -/
def Track.Listed (t : Track) (line : Text) : Prop :=
  reading (trim line) = .other ∧ t.nesting = 0 ∧ t.current = .functions

instance (t : Track) (line : Text) : Decidable (t.Listed line) := by
  unfold Track.Listed
  infer_instance

/-- The lines of the function lists, trimmed. -/
def functionList (t : Track) : List Text → List Text
  | [] => []
  | line :: rest =>
    if t.Listed line then trim line :: functionList (t.step line) rest
    else functionList (t.step line) rest

/-- The track of a state. -/
def ConfScan.track (s : ConfScan) : Track := ⟨s.current, s.nesting⟩

/-- A line that opens a function list of the module. -/
def ConfScan.OpensList (s : ConfScan) (line : Text) : Prop :=
  reading (trim line) = .enter .functions ∧ s.nesting = 0

instance (s : ConfScan) (line : Text) : Decidable (s.OpensList line) := by
  unfold ConfScan.OpensList
  infer_instance

/-- The vector the first function list starts with: the first vector of the module as it stands
when that list is opened. -/
def vectorStart (s : ConfScan) : List Text → ℕ
  | [] => s.conf.firstVector
  | line :: rest =>
    if s.OpensList line then s.conf.firstVector
    else match scanLine s line with
      | .ok s' => vectorStart s' rest
      | .error _ => s.conf.firstVector

/-! ### One line -/

theorem modifyLast_vectors {g : Function → Function} (h : ∀ f, (g f).vector = f.vector)
    (functions : List Function) :
    (modifyLast g functions).map Function.vector = functions.map Function.vector := by
  unfold modifyLast
  cases hlast : functions.getLast? with
  | none => rfl
  | some last =>
    obtain ⟨front, rfl⟩ := List.getLast?_eq_some_iff.mp hlast
    simp [h]

theorem ConfScan.modifyLast_vectors {s : ConfScan} {g : Function → Function}
    (h : ∀ f, (g f).vector = f.vector) :
    (s.modifyLast g).conf.functions.map Function.vector = s.conf.functions.map Function.vector :=
  Genmodule.modifyLast_vectors h _

theorem saturatingAdd_min (v n : ℕ) : saturatingAdd (min v maxLvo) n = min (v + n) maxLvo := by
  unfold saturatingAdd maxLvo
  omega

/-- A line that starts with a dot declares nothing. -/
theorem declared_directive {trimmed : Text} {start : String}
    (h : stripPrefix (lit ("." ++ start)) (codeLine trimmed) ≠ none) : declared trimmed = none := by
  obtain ⟨rest, hrest⟩ := Option.ne_none_iff_exists'.mp h
  have hcode := stripPrefix_some hrest
  have hlit : lit ("." ++ start) = '.' :: start.toList := by
    simp [lit, String.toList_append]
  rw [hlit] at hcode
  unfold declared
  rw [if_neg]
  rw [hcode]
  simp [startsWith, lit]

theorem reserved_eq_zero {trimmed : Text} {f : Function} (h : declared trimmed = some f) :
    reserved trimmed = 0 := by
  have hskip : stripPrefix (lit ".skip") (codeLine trimmed) = none := by
    by_contra hne
    rw [@declared_directive trimmed "skip" hne] at h
    cases h
  unfold declared at h
  simp only at h
  split_ifs at h with hcode
  rw [reserved, if_neg (fun hempty => hcode.1 hempty.1), hskip]

/-- What a line of a function list does to the vectors. -/
theorem functionLine_vectors (s : ConfScan) (trimmed : Text) {v : ℕ} (hlvo : s.lvo = min v maxLvo) :
    (∃ f, declared trimmed = some f ∧
      (functionLine s trimmed).lvo = min (v + 1) maxLvo ∧
      (functionLine s trimmed).conf.functions.map Function.vector =
        s.conf.functions.map Function.vector ++ (kept [(f.name, v)]).map numbered) ∨
    (declared trimmed = none ∧ (functionLine s trimmed).lvo = min (v + reserved trimmed) maxLvo ∧
      (functionLine s trimmed).conf.functions.map Function.vector =
        s.conf.functions.map Function.vector) := by
  have hreserved : saturatingAdd s.lvo (reserved trimmed) = min (v + reserved trimmed) maxLvo := by
    rw [hlvo, saturatingAdd_min]
  have hdot : ∀ text : String, codeLine trimmed = lit ("." ++ text) → declared trimmed = none := by
    intro text hcode
    refine @declared_directive trimmed text ?_
    rw [hcode]
    simpa using congrArg (· ≠ none) (stripPrefix_append (lit ("." ++ text)) [])
  unfold functionLine
  simp only [hreserved]
  by_cases hprivate : codeLine trimmed = lit ".private"
  · rw [if_pos hprivate]
    exact .inr ⟨hdot "private" hprivate, rfl, ConfScan.modifyLast_vectors fun _ => rfl⟩
  by_cases hnovararg : codeLine trimmed = lit ".novararg"
  · rw [if_neg hprivate, if_pos hnovararg]
    exact .inr ⟨hdot "novararg" hnovararg, rfl, ConfScan.modifyLast_vectors fun _ => rfl⟩
  rw [if_neg hprivate, if_neg hnovararg]
  cases hversion : stripPrefix (lit ".version") (codeLine trimmed) with
  | some rest =>
    have hnone : declared trimmed = none :=
      @declared_directive trimmed "version" (hversion ▸ Option.some_ne_none rest)
    cases hparse : parseU32 (trim rest) with
    | some version => exact .inr ⟨hnone, by simp [hparse], by simp [hparse]⟩
    | none => exact .inr ⟨hnone, by simp [hparse], by simp [hparse]⟩
  | none =>
    cases halias : stripPrefix (lit ".alias") (codeLine trimmed) with
    | some rest =>
      have hnone : declared trimmed = none :=
        @declared_directive trimmed "alias" (halias ▸ Option.some_ne_none rest)
      by_cases hempty : trim rest = []
      · exact .inr ⟨hnone, by simp [hempty], by simp [hempty]⟩
      · refine .inr ⟨hnone, ?_, ?_⟩
        · simp [hempty, ConfScan.modifyLast]
        · simp only [hempty, if_false]
          exact ConfScan.modifyLast_vectors fun _ => rfl
    | none =>
      cases hdeclared : declared trimmed with
      | none => exact .inr ⟨rfl, rfl, rfl⟩
      | some f =>
        have hzero := reserved_eq_zero hdeclared
        refine .inl ⟨f, rfl, ?_, ?_⟩
        · simp only [declare]
          rw [hzero, Nat.add_zero, saturatingAdd_min]
        · by_cases hname : isStandardVector f.name = true
          · simp [declare, hname, kept]
          · simp [declare, hname, kept, numbered, Function.vector, hzero]

theorem functionLine_frame (s : ConfScan) (trimmed : Text) :
    (functionLine s trimmed).conf.modType = s.conf.modType ∧
      (functionLine s trimmed).conf.options = s.conf.options ∧
      (functionLine s trimmed).lvoReady = s.lvoReady ∧
      (functionLine s trimmed).track = s.track := by
  unfold functionLine declare ConfScan.modifyLast ConfScan.track
  grind

/-! ### The starting point -/

/-- A configuration with at least the options of another one, for the same module type. -/
structure Extends (m m' : ConfModule) : Prop where
  modType : m'.modType = m.modType
  options : ∀ flag, m.options.contains flag = true → m'.options.contains flag = true

namespace Extends

variable {m m' m'' : ConfModule}

theorem refl (m : ConfModule) : Extends m m := ⟨rfl, fun _ h => h⟩

theorem trans (h : Extends m m') (h' : Extends m' m'') : Extends m m'' :=
  ⟨h'.modType.trans h.modType, fun flag hflag => h'.options flag (h.options flag hflag)⟩

theorem of_eq (hmod : m'.modType = m.modType) (hoptions : m'.options = m.options) : Extends m m' :=
  ⟨hmod, fun _ h => hoptions ▸ h⟩

theorem insert (m : ConfModule) (flag : ConfOption) :
    Extends m { m with options := m.options.insert flag } :=
  ⟨rfl, fun _ h => ConfModuleOptions.contains_insert flag h⟩

/-- The first vector only ever moves down, to the one of `options noresident`. -/
theorem firstVector_le (h : Extends m m') : m'.firstVector ≤ m.firstVector := by
  unfold ConfModule.firstVector
  rw [h.modType]
  cases hm : m.noresident with
  | true =>
    have hm' : m'.noresident = true := h.options _ hm
    rw [hm']
  | false =>
    cases m'.noresident with
    | true => exact firstLvo_noresident_le ..
    | false => exact le_rfl

end Extends

theorem optionWord_extends {m m' : ConfModule} {opt : Text} (h : optionWord m opt = .ok m') :
    Extends m m' ∧ m'.functions = m.functions := by
  have hinsert : ∀ {flag other : ConfOption} {detail : String},
      insertOption m flag other detail = .ok m' → Extends m m' ∧ m'.functions = m.functions := by
    intro flag other detail h
    unfold insertOption at h
    split_ifs at h
    cases h
    exact ⟨.insert .., rfl⟩
  have hflag : ∀ {flag : ConfOption}, Except.ok { m with options := m.options.insert flag } =
      (.ok m' : Except IoError ConfModule) → Extends m m' ∧ m'.functions = m.functions := by
    rintro flag ⟨⟩
    exact ⟨.insert .., rfl⟩
  unfold optionWord at h
  simp only at h
  split_ifs at h
  · exact hinsert h
  · exact hinsert h
  · exact hinsert h
  · exact hinsert h
  · exact hflag h
  · exact hflag h
  · exact hflag h
  · cases h
    exact ⟨.refl _, rfl⟩

theorem optionWords_extends {m m' : ConfModule} {opts : List Text}
    (h : opts.foldlM optionWord m = .ok m') : Extends m m' ∧ m'.functions = m.functions := by
  induction opts generalizing m with
  | nil =>
    cases h
    exact ⟨.refl _, rfl⟩
  | cons opt opts ih =>
    obtain ⟨m₁, h₁, h₂⟩ := Except.bind_ok h
    obtain ⟨hextends, hfunctions⟩ := optionWord_extends h₁
    obtain ⟨hrest, hrestFunctions⟩ := ih h₂
    exact ⟨hextends.trans hrest, hrestFunctions.trans hfunctions⟩

theorem versionNumbers_frame (m : ConfModule) (val : Text) :
    (versionNumbers m val).modType = m.modType ∧ (versionNumbers m val).options = m.options ∧
      (versionNumbers m val).functions = m.functions := by
  unfold versionNumbers
  cases hmajor : parseU32 (trim ((split (· = '.') val).headD [])) with
  | none => simp only [hmajor, and_self]
  | some major => simp only [hmajor, and_self]

/-- A config line keeps the functions, and only adds options. -/
theorem configLine_extends {m m' : ConfModule} {trimmed : Text}
    (h : configLine m trimmed = .ok m') : Extends m m' ∧ m'.functions = m.functions := by
  have hsame : ∀ {n : ConfModule}, (.ok n : Except IoError ConfModule) = .ok m' →
      n.modType = m.modType → n.options = m.options → n.functions = m.functions →
      Extends m m' ∧ m'.functions = m.functions := by
    rintro n ⟨⟩ hmod hoptions hfunctions
    exact ⟨.of_eq hmod hoptions, hfunctions⟩
  unfold configLine at h
  split at h
  · exact hsame h rfl rfl rfl
  -- One case for each key, in the order of the source.
  refine ite_ok_elim h (fun h => hsame h rfl rfl rfl) fun h => ?_
  refine ite_ok_elim h (fun h => hsame h rfl rfl rfl) fun h => ?_
  refine ite_ok_elim h (fun h => ?_) fun h => ?_
  · cases h
    exact ⟨⟨rfl, fun _ hflag => ConfModuleOptions.contains_insert _ hflag⟩, rfl⟩
  refine ite_ok_elim h (fun h => hsame h rfl rfl rfl) fun h => ?_
  refine ite_ok_elim h (fun h => hsame h rfl rfl rfl) fun h => ?_
  refine ite_ok_elim h (fun h => hsame h rfl rfl rfl) fun h => ?_
  refine ite_ok_elim h (fun h => hsame h rfl rfl rfl) fun h => ?_
  refine ite_ok_elim h (fun h => ?_) fun h => ?_
  · obtain ⟨hmod, hoptions, hfunctions⟩ := versionNumbers_frame m _
    exact hsame h hmod hoptions hfunctions
  refine ite_ok_elim h (fun h => hsame h rfl rfl rfl) fun h => ?_
  refine ite_ok_elim h optionWords_extends fun h => ?_
  refine ite_ok_elim h (fun h => hsame h rfl rfl rfl) fun h => ?_
  refine ite_ok_elim h (fun h => hsame h rfl rfl rfl) fun h => ?_
  exact ite_ok_elim h (fun h => hsame h rfl rfl rfl) fun h => hsame h rfl rfl rfl

/-! ### One line of a configuration -/

/-- What a line does to the vectors: it is a line of a function list, it opens the first list, or it
leaves the vectors alone. -/
inductive LineEffect (s s' : ConfScan) (line : Text) : Prop where
  | listed (h : s.track.Listed line) (hs : s' = functionLine s (trim line))
  | opened (h : s.OpensList line) (hready : s.lvoReady = false)
      (hs : s' = { s with current := .functions, lvo := s.conf.firstVector, lvoReady := true })
  | aside (h : ¬ s.track.Listed line) (hopen : s.OpensList line → s.lvoReady = true)
      (hcurrent : s'.current = .functions → s.current = .functions ∨ s.OpensList line)
      (hlvo : s'.lvo = s.lvo) (hready : s'.lvoReady = s.lvoReady)
      (hfunctions : s'.conf.functions = s.conf.functions)

theorem contentLine_aside {s s' : ConfScan} {line : Text} (h : contentLine s line = .ok s')
    (hcurrent : s.current ≠ .functions) :
    s'.track = s.track ∧ s'.lvo = s.lvo ∧ s'.lvoReady = s.lvoReady ∧ Extends s.conf s'.conf ∧
      s'.conf.functions = s.conf.functions := by
  unfold contentLine at h
  cases hc : s.current with
  | none =>
    rw [hc] at h
    cases h
    exact ⟨rfl, rfl, rfl, .refl _, rfl⟩
  | config =>
    rw [hc] at h
    obtain ⟨conf, hconf, h⟩ := Except.bind_ok h
    cases h
    obtain ⟨hextends, hfunctions⟩ := configLine_extends hconf
    exact ⟨by simp [ConfScan.track, hc], rfl, rfl, hextends, hfunctions⟩
  | cdef =>
    rw [hc] at h
    cases h
    exact ⟨by simp [ConfScan.track, hc], rfl, rfl, .of_eq rfl rfl, rfl⟩
  | startup =>
    rw [hc] at h
    cases h
    exact ⟨by simp [ConfScan.track, hc], rfl, rfl, .of_eq rfl rfl, rfl⟩
  | cdefprivate =>
    rw [hc] at h
    cases h
    exact ⟨by simp [ConfScan.track, hc], rfl, rfl, .of_eq rfl rfl, rfl⟩
  | functions => exact absurd hc hcurrent


/-- Each line has one of the three effects, moves the track, and only adds options. -/
theorem scanLine_effect {s s' : ConfScan} {line : Text} (h : scanLine s line = .ok s') :
    LineEffect s s' line ∧ s'.track = s.track.step line ∧ Extends s.conf s'.conf := by
  -- A marker is no line of a list, and only a functionlist marker opens one.
  have hmarker : ∀ {r : Reading}, reading (trim line) = r → r ≠ .other → ¬ s.track.Listed line :=
    fun hr hne hl => hne (hr.symm.trans hl.1)
  have hnone : ∀ {r : Reading}, reading (trim line) = r → r ≠ .enter .functions →
      ¬ s.OpensList line := fun hr hne ho => hne (hr.symm.trans ho.1)
  unfold scanLine at h
  cases hread : reading (trim line) with
  | opens nested =>
    rw [hread] at h
    cases h
    refine ⟨.aside (hmarker hread nofun) (fun ho => absurd ho (hnone hread nofun)) .inl rfl rfl rfl,
      ?_, .refl _⟩
    simp only [ConfScan.track, Track.step, hread]
  | closes =>
    rw [hread] at h
    cases h
    refine ⟨.aside (hmarker hread nofun) (fun ho => absurd ho (hnone hread nofun)) .inl rfl rfl rfl,
      ?_, .refl _⟩
    simp only [ConfScan.track, Track.step, hread]
  | enter current =>
    rw [hread] at h
    by_cases hnest : s.nesting > 0
    · simp only [hnest, if_true] at h
      cases h
      refine ⟨.aside (hmarker hread nofun) (fun ho => absurd ho.2 (by omega)) .inl rfl rfl rfl, ?_,
        .refl _⟩
      simp only [ConfScan.track, Track.step, hread, hnest, if_true]
    simp only [hnest, if_false] at h
    by_cases hfirst : current = .functions ∧ s.lvoReady = false
    · rw [enterSection, if_pos hfirst] at h
      cases h
      obtain ⟨rfl, hready⟩ := hfirst
      refine ⟨.opened ⟨hread, by omega⟩ hready rfl, ?_, .refl _⟩
      simp only [ConfScan.track, Track.step, hread, hnest, if_false]
    · rw [enterSection, if_neg hfirst] at h
      cases h
      refine ⟨.aside (hmarker hread nofun) (fun ho => ?_) (fun hc => ?_) rfl rfl rfl, ?_, .refl _⟩
      · have hc : current = .functions := by simpa [hread] using ho.1
        by_contra hready
        exact hfirst ⟨hc, by simpa using hready⟩
      · exact .inr ⟨by rw [hread, ← hc], by omega⟩
      · simp only [ConfScan.track, Track.step, hread, hnest, if_false]
  | other =>
    rw [hread] at h
    by_cases hnest : s.nesting > 0
    · simp only [hnest, if_true] at h
      cases h
      refine ⟨.aside (fun hl => absurd hl.2.1 ?_) (fun ho => absurd ho (hnone hread nofun)) .inl rfl
        rfl rfl, ?_, .refl _⟩
      · simp only [ConfScan.track]
        omega
      · simp only [ConfScan.track, Track.step, hread]
    simp only [hnest, if_false] at h
    by_cases hcurrent : s.current = .functions
    · rw [contentLine, hcurrent] at h
      cases h
      obtain ⟨hmod, hoptions, -, htrack⟩ := functionLine_frame s (trim line)
      refine ⟨.listed ⟨hread, Nat.eq_zero_of_not_pos hnest, hcurrent⟩ rfl, ?_,
        .of_eq hmod hoptions⟩
      rw [htrack, Track.step, hread]
    · obtain ⟨htrack, hlvo, hready, hextends, hfunctions⟩ := contentLine_aside h hcurrent
      have hsame : s'.current = s.current := congrArg Track.current htrack
      refine ⟨.aside (fun hl => hcurrent hl.2.2) (fun ho => absurd ho (hnone hread nofun))
        (fun hc => .inl (hsame ▸ hc)) hlvo hready hfunctions, ?_, hextends⟩
      rw [htrack, Track.step, hread]

/-! ### The whole text -/

theorem run_extends {list : List Text} {s s' : ConfScan} (h : list.foldlM scanLine s = .ok s') :
    Extends s.conf s'.conf := by
  induction list generalizing s with
  | nil =>
    cases h
    exact .refl _
  | cons line rest ih =>
    obtain ⟨s₁, h₁, h₂⟩ := Except.bind_ok h
    exact (scanLine_effect h₁).2.2.trans (ih h₂)

/-- Once a list was opened, the functions take the numbers that follow. -/
theorem run_ready {list : List Text} {s s' : ConfScan} {v : ℕ}
    (h : list.foldlM scanLine s = .ok s') (hready : s.lvoReady = true)
    (hlvo : s.lvo = min v maxLvo) :
    s'.conf.functions.map Function.vector = s.conf.functions.map Function.vector ++
      (kept (declarations v (functionList s.track list))).map numbered := by
  induction list generalizing s v with
  | nil =>
    cases h
    simp [functionList, declarations, kept]
  | cons line rest ih =>
    obtain ⟨s₁, h₁, h₂⟩ := Except.bind_ok h
    obtain ⟨heffect, htrack, -⟩ := scanLine_effect h₁
    cases heffect with
    | listed hlisted hs =>
      rw [functionList, if_pos hlisted, ← htrack, declarations]
      have hready₁ : s₁.lvoReady = true := by
        rw [hs, (functionLine_frame s _).2.2.1, hready]
      rcases functionLine_vectors s (trim line) hlvo with ⟨f, hf, hnext, hfunctions⟩ |
          ⟨hf, hnext, hfunctions⟩
      · rw [ih h₂ hready₁ (hs ▸ hnext), hs, hfunctions, hf, List.append_assoc, ← List.map_append]
        simp only [kept, ← List.filter_append, List.singleton_append]
      · rw [ih h₂ hready₁ (hs ▸ hnext), hs, hfunctions, hf]
    | opened hopen hfirst hs =>
      rw [hready] at hfirst
      cases hfirst
    | aside hlisted hopen hcurrent hlvo₁ hready₁ hfunctions =>
      rw [functionList, if_neg hlisted, ← htrack,
        ih h₂ (hready₁.trans hready) (hlvo₁.trans hlvo), hfunctions]

/-- Before the first list is opened, no line belongs to a list. -/
theorem run_fresh {list : List Text} {s s' : ConfScan} (h : list.foldlM scanLine s = .ok s')
    (hready : s.lvoReady = false) (hcurrent : s.current ≠ .functions) :
    s'.conf.functions.map Function.vector = s.conf.functions.map Function.vector ++
      (kept (declarations (vectorStart s list) (functionList s.track list))).map numbered := by
  induction list generalizing s with
  | nil =>
    cases h
    simp [functionList, declarations, kept]
  | cons line rest ih =>
    obtain ⟨s₁, h₁, h₂⟩ := Except.bind_ok h
    obtain ⟨heffect, htrack, -⟩ := scanLine_effect h₁
    have hlisted : ¬ s.track.Listed line := fun hl => hcurrent hl.2.2
    rw [functionList, if_neg hlisted, ← htrack, vectorStart]
    cases heffect with
    | listed hl hs => exact absurd hl hlisted
    | opened hopen hfirst hs =>
      rw [if_pos hopen]
      subst hs
      refine run_ready h₂ rfl ?_
      have := firstLvo_lt s.conf.modType s.conf.noresident
      simp only [ConfModule.firstVector, maxLvo]
      omega
    | aside hl hopen hcurrent₁ hlvo hready₁ hfunctions =>
      have hopen' : ¬ s.OpensList line := fun ho => by
        rw [hready] at hopen
        cases hopen ho
      rw [if_neg hopen', h₁, ← hfunctions]
      refine ih h₂ (hready₁.trans hready) fun hc => ?_
      rcases hcurrent₁ hc with hc | hc
      · exact hcurrent hc
      · exact hopen' hc

theorem vectorStart_ge {list : List Text} {s s' : ConfScan} (h : list.foldlM scanLine s = .ok s') :
    s'.conf.firstVector ≤ vectorStart s list := by
  induction list generalizing s with
  | nil =>
    cases h
    exact le_rfl
  | cons line rest ih =>
    obtain ⟨s₁, h₁, h₂⟩ := Except.bind_ok h
    rw [vectorStart]
    by_cases hopen : s.OpensList line
    · rw [if_pos hopen]
      exact (run_extends h).firstVector_le
    · rw [if_neg hopen, h₁]
      exact ih h₂

/-! ### The vectors of a module -/

/-- The state before the first line of a configuration. -/
def confStart (toUppercase : Char → Text) (path root : PathBuf)
    (declaration : Option ModuleDeclaration) (content : Text) : ConfScan :=
  .start (initialModule toUppercase (lossyText (fileStem (path.fileName.getD []))) path root
    declaration content)

/-- The function declarations of a configuration with their numbers. -/
def confDeclarations (toUppercase : Char → Text) (path root : PathBuf)
    (declaration : Option ModuleDeclaration) (content : Text) : List (Text × ℕ) :=
  let s := confStart toUppercase path root declaration content
  declarations (vectorStart s (lines content)) (functionList s.track (lines content))

section Variant

variable {measureRegularFile : PathBuf → Except IoError (Option Bytes)}
  {toUppercase : Char → Text} {path root : PathBuf} {declaration : Option ModuleDeclaration}
  {content : Text} {m : ConfModule}

theorem parseConfVariant_content
    (hcontent : confContent measureRegularFile path declaration = .ok content) :
    parseConfVariant measureRegularFile toUppercase path root declaration =
      (match path.fileName with
      | none => .ok none
      | some file => do
        let m ← parseContent (initialModule toUppercase (lossyText (fileStem file)) path root
          declaration content) content
        .ok (some m)) := by
  unfold parseConfVariant
  rw [hcontent]
  rfl

/-- What an accepted configuration went through. -/
theorem parseConfVariant_run (hcontent : confContent measureRegularFile path declaration = .ok content)
    (h : parseConfVariant measureRegularFile toUppercase path root declaration = .ok (some m)) :
    ∃ s, (lines content).foldlM scanLine (confStart toUppercase path root declaration content) =
        .ok s ∧ m = resolveDefaults s.conf ∧ validateModuleOutputNames m = .ok () := by
  rw [parseConfVariant_content hcontent] at h
  cases hfile : path.fileName with
  | none =>
    rw [hfile] at h
    cases h
  | some file =>
    rw [hfile] at h
    obtain ⟨m', hparse, hm⟩ := Except.bind_ok h
    cases hm
    obtain ⟨s, hrun, h⟩ := Except.bind_ok hparse
    obtain ⟨⟨⟩, hvalid, h⟩ := Except.bind_ok h
    cases h
    refine ⟨s, ?_, rfl, hvalid⟩
    rw [confStart, hfile]
    exact hrun

/-- The functions carry the numbers of their declarations, up to the largest `u32`. -/
theorem functions_vectors (hcontent : confContent measureRegularFile path declaration = .ok content)
    (h : parseConfVariant measureRegularFile toUppercase path root declaration = .ok (some m)) :
    m.functions.map Function.vector =
      (kept (confDeclarations toUppercase path root declaration content)).map numbered := by
  obtain ⟨s, hrun, rfl, -⟩ := parseConfVariant_run hcontent h
  exact run_fresh hrun rfl nofun

theorem firstVector_le_declaration
    (hcontent : confContent measureRegularFile path declaration = .ok content)
    (h : parseConfVariant measureRegularFile toUppercase path root declaration = .ok (some m))
    {d : Text × ℕ} (hd : d ∈ confDeclarations toUppercase path root declaration content) :
    m.firstVector ≤ (numbered d).2 := by
  obtain ⟨s, hrun, rfl, -⟩ := parseConfVariant_run hcontent h
  have hstart := vectorStart_ge hrun
  have hge := declarations_ge hd
  have hlt := firstLvo_lt s.conf.modType s.conf.noresident
  change s.conf.firstVector ≤ _
  simp only [numbered, maxLvo, ConfModule.firstVector] at *
  omega

theorem lvo_le_functionsCount {f : Function} (hf : f ∈ m.functions) : f.lvo ≤ functionsCount m := by
  have hmem : f.lvo ∈ m.functions.map Function.lvo := List.mem_map_of_mem hf
  unfold functionsCount
  cases hmax : (m.functions.map Function.lvo).max? with
  | none =>
    rw [List.max?_eq_none_iff] at hmax
    rw [hmax] at hmem
    cases hmem
  | some count => exact (List.max?_eq_some_iff.mp hmax).2 _ hmem

/-- **Vectors are handed out in order and inside the table.** The functions a module keeps are its
declarations under the numbers of the plain numbering, cut off at the largest `u32`; they grow
strictly below that bound. Every vector is at or above the first vector of the module, and every
function's vector lies inside the table that `FUNCTIONS_COUNT` sizes. -/
theorem conf_vectors (hcontent : confContent measureRegularFile path declaration = .ok content)
    (h : parseConfVariant measureRegularFile toUppercase path root declaration = .ok (some m)) :
    let ds := confDeclarations toUppercase path root declaration content
    m.functions.map Function.vector = (kept ds).map numbered ∧
      (ds.Pairwise fun d e => d.2 < e.2) ∧
      ((ds.map numbered).Pairwise fun d e => d.2 < e.2 ∨ d.2 = maxLvo ∧ e.2 = maxLvo) ∧
      (∀ d ∈ ds, m.firstVector ≤ (numbered d).2) ∧
      ∀ f ∈ m.functions, m.firstVector ≤ f.lvo ∧ f.lvo ≤ functionsCount m := by
  intro ds
  have hvectors := functions_vectors hcontent h
  have hincreasing : ds.Pairwise fun d e => d.2 < e.2 := declarations_increasing _ _
  have hfirst : ∀ d ∈ ds, m.firstVector ≤ (numbered d).2 :=
    fun d hd => firstVector_le_declaration hcontent h hd
  refine ⟨hvectors, hincreasing, ?_, hfirst, fun f hf => ⟨?_, lvo_le_functionsCount hf⟩⟩
  · refine List.pairwise_map.mpr (hincreasing.imp fun {d e} hlt => ?_)
    simp only [numbered]
    omega
  · have hmem : f.vector ∈ (kept ds).map numbered := hvectors ▸ List.mem_map_of_mem hf
    obtain ⟨d, hd, hvector⟩ := List.mem_map.mp hmem
    have hle := hfirst d (List.mem_filter.mp hd).1
    rwa [hvector] at hle

end Variant

/-- A configuration file next to the scan root. -/
def exampleConf : PathBuf := ⟨false, [.normal (ascii "example.conf")]⟩

/-- One file with the given text. -/
def oneFile (text : String) : PathBuf → Except IoError (Option Bytes) :=
  fun _ => .ok (some (ascii text))

/-- The module of a library with the given configuration. -/
def libraryOf (text : String) : Except IoError (Option ConfModule) :=
  parseConfVariant (oneFile text) (fun c => [c]) exampleConf ⟨false, []⟩
    (some ⟨lit "example", lit "library", none⟩)

/-- A value of an accepted configuration. -/
def ofLibrary {α : Type} (text : String) (f : ConfModule → α) : Option α :=
  ((libraryOf text).toOption.bind id).map f

theorem of_ofLibrary {α : Type} {text : String} {f : ConfModule → α} {a : α}
    (h : ofLibrary text f = some a) : ∃ m, libraryOf text = .ok (some m) ∧ f m = a := by
  unfold ofLibrary at h
  cases hparse : libraryOf text with
  | error e =>
    rw [hparse] at h
    cases h
  | ok o =>
    rw [hparse] at h
    cases o with
    | none => cases h
    | some m => exact ⟨m, rfl, Option.some.inj h⟩

/-- A library with a comment, a blank line and reserved vectors between its functions. -/
def spacedLibrary : String :=
  "##begin functionlist\nvoid A()\n# comment\n\n.skip 2\nvoid B()\n##end functionlist\n"

/-- The vectors of that library. -/
theorem conf_vectors_library :
    confContent (oneFile spacedLibrary) exampleConf (some ⟨lit "example", lit "library", none⟩) =
        .ok (lit spacedLibrary) ∧
      ∃ m, libraryOf spacedLibrary = .ok (some m) ∧
        m.functions.map Function.vector = [(lit "A", 5), (lit "B", 9)] ∧
        ∀ f ∈ m.functions, m.firstVector ≤ f.lvo ∧ f.lvo ≤ functionsCount m := by
  have hcontent : confContent (oneFile spacedLibrary) exampleConf
      (some ⟨lit "example", lit "library", none⟩) = .ok (lit spacedLibrary) := by decide +kernel
  have hvectors : ofLibrary spacedLibrary (fun m => m.functions.map Function.vector) =
      some [(lit "A", 5), (lit "B", 9)] := by decide +kernel
  obtain ⟨m, hm, hm_vectors⟩ := of_ofLibrary hvectors
  obtain ⟨-, -, -, -, hbounds⟩ := conf_vectors hcontent hm
  exact ⟨hcontent, m, hm, hm_vectors, hbounds⟩

/-- The numbers a library's declarations get. -/
def libraryDeclarations (text : String) : List (Text × ℕ) :=
  (confDeclarations (fun c => [c]) exampleConf ⟨false, []⟩
    (some ⟨lit "example", lit "library", none⟩) (lit text)).map numbered

/-- A list that ends in the name of a skeleton vector. -/
def skeletonLast : String := "##begin functionlist\nvoid Foo()\nvoid open()\n##end functionlist\n"

/-- A list that reserves every vector. -/
def allReserved : String :=
  "##begin functionlist\n.skip 4294967295\nvoid A()\nvoid B()\n##end functionlist\n"

/-- A list in front of the config section, as a base configuration and its override make one. -/
def lateNoresident : String :=
  "##begin functionlist\nvoid A()\n##end functionlist\n##begin config\noptions noresident\n##end config\n"

/-- A declaration with the name of a skeleton vector takes a vector above the table; the counter
stops at the largest `u32`, where two functions share a vector; and a `noresident` that is read
behind the function list moves the module's first vector below the one its functions start with. -/
theorem conf_vectors_fail :
    (libraryDeclarations skeletonLast = [(lit "Foo", 5), (lit "open", 6)] ∧
      ofLibrary skeletonLast functionsCount = some 5) ∧
    ofLibrary allReserved (fun m => m.functions.map Function.vector) =
      some [(lit "A", 4294967295), (lit "B", 4294967295)] ∧
    ofLibrary lateNoresident (fun m => (m.firstVector, m.functions.map Function.vector)) =
      some (1, [(lit "A", 5)]) := by
  decide +kernel

end Genmodule

end ArosTools
