import ArosTools.Collect.ArgumentTokens

/-!
# Both readers of a command line see the same output

`collectFrom_induction` is the rule for the scanner of emulations; `collectFrom_normalizeFrom`
says that a normalized command line selects nothing, and `collectFrom_follows` that this stays so
when flags are taken out and the output is replaced.  `replace_output_agrees` puts these together
with what the parser and the replacement make of the same tokens.
-/

namespace ArosTools

namespace Engine

open Token

/-! ### The emulation scanner on tokens -/

/-- The argument could be an emulation option. -/
def readsEmulation (w : OsString) : Bool :=
  startsWith (toStringLossy w) "-m" || startsWith (toStringLossy w) "--emu"

namespace Token

/-- A token that selects no emulation. -/
def Quiet : Token → Prop
  | word w => hasAttachedValue (toStringLossy w) = true ∨ readsEmulation w = false
  | pair o _ => takesSeparateValue (toStringLossy o) = true

/-- A word that may not be followed by an emulation option. -/
def Wary : Token → Prop
  | word w => hasAttachedValue (toStringLossy w) = false ∧ startsWith (toStringLossy w) "-" = true ∧
      isKnownFlag (toStringLossy w) = false
  | pair _ _ => False

/-- The first argument of a token. -/
def head : Token → OsString
  | word w => w
  | pair o _ => o

end Token

theorem precedesEmulation_token (t : Token) (rest : List OsString) :
    precedesEmulation (t.words ++ rest) = readsEmulation t.head := by
  cases t <;> rfl

theorem stripPrefix_emulation {text : Bytes} (h : startsWith text "--emu" = false) :
    stripPrefix text "--emulation=" = none := by
  rw [stripPrefix_eq_none, ← Bool.not_eq_true]
  intro hlong
  obtain ⟨rest, rfl⟩ := List.isPrefixOf_iff_prefix.mp hlong
  rw [show ascii "--emulation=" = ascii "--emu" ++ ascii "lation=" by decide,
    List.append_assoc, startsWith_append] at h
  cases h

section Collect

variable {k : ℕ} {t : Token} {rest : List OsString} {found : List UserEmulation}

theorem collectFrom_boundary {args : List OsString} (h : Boundary args) :
    collectUserEmulationsFrom k args = .ok [] := by
  cases args with
  | nil => rfl
  | cons w rest => exact collectUserEmulationsFrom_separator h

/-- The scanner passes over a quiet token. -/
theorem collectFrom_quiet (hvalid : t.Valid) (hquiet : t.Quiet)
    (hwary : t.Wary → precedesEmulation rest = false) :
    collectUserEmulationsFrom k (t.words ++ rest) =
      collectUserEmulationsFrom (k + t.words.length) rest := by
  cases t with
  | pair o v =>
    have hstop := (operandOptions_facts _ (mem_operandOptions.mpr hvalid)).1
    rw [Token.words, List.cons_append, collectUserEmulationsFrom.eq_def]
    simp only [hstop, if_false, show takesSeparateValue (toStringLossy o) = true from hquiet,
      if_true]
    rfl
  | word w =>
    obtain ⟨hstop, htakes⟩ := hvalid
    obtain ⟨hsep, hm, hem⟩ := takesOperand_eq_false.mp htakes
    rw [Token.words, List.cons_append, collectUserEmulationsFrom.eq_def]
    simp only [hstop, hsep, hm, hem, decide_false, Bool.or_false, Bool.false_eq_true, if_false]
    cases hattached : hasAttachedValue (toStringLossy w) with
    | true => rfl
    | false =>
      rcases hquiet with hcontra | hreads
      · rw [hattached] at hcontra
        cases hcontra
      rw [readsEmulation, Bool.or_eq_false_iff] at hreads
      obtain ⟨hshort, hlong⟩ := hreads
      simp only [stripPrefix_emulation hlong, hlong, stripPrefix_eq_none.mpr hshort,
        Bool.false_eq_true, if_false]
      rw [if_neg]
      · rfl
      · intro hambiguous
        simp only [Bool.and_eq_true, Bool.not_eq_true', List.nil_append] at hambiguous
        rw [hwary ⟨hattached, hambiguous.1.1, hambiguous.1.2⟩] at hambiguous
        cases hambiguous.2

/-- What the scanner finds first: nothing, or an emulation. -/
theorem collectFrom_cases (hvalid : t.Valid)
    (h : collectUserEmulationsFrom k (t.words ++ rest) = .ok found) :
    t.Quiet ∧ (t.Wary → precedesEmulation rest = false) ∧
        collectUserEmulationsFrom (k + t.words.length) rest = .ok found ∨
      ∃ value more, found = ⟨k, k + t.words.length, value⟩ :: more ∧
        collectUserEmulationsFrom (k + t.words.length) rest = .ok more ∧
        readsEmulation t.head = true := by
  cases t with
  | pair o v =>
    have hstop := (operandOptions_facts _ (mem_operandOptions.mpr hvalid)).1
    cases hsep : takesSeparateValue (toStringLossy o) with
    | true =>
      rw [collectFrom_quiet hvalid hsep nofun] at h
      exact .inl ⟨hsep, nofun, h⟩
    | false =>
      have hem : toStringLossy o = ascii "-m" ∨ toStringLossy o = ascii "--emulation" := by
        simpa [Valid, takesOperand, hsep] using hvalid
      have hattached : hasAttachedValue (toStringLossy o) = false := by
        rcases hem with hem | hem <;> rw [hem] <;> decide
      have hem' : (decide (toStringLossy o = ascii "-m") ||
          decide (toStringLossy o = ascii "--emulation")) = true := by simpa using hem
      rw [Token.words, List.cons_append, collectUserEmulationsFrom.eq_def] at h
      simp only [hstop, hsep, hattached, hem', Bool.false_eq_true, if_false, if_true,
        List.cons_append, List.nil_append] at h
      cases hvalue : toStr v with
      | none =>
        rw [hvalue] at h
        cases h
      | some value =>
        rw [hvalue] at h
        obtain ⟨_, -, h⟩ := Except.bind_ok h
        obtain ⟨more, hmore, h⟩ := Except.bind_ok h
        cases h
        refine .inr ⟨value, more, rfl, hmore, ?_⟩
        rw [Token.head, readsEmulation]
        rcases hem with hem | hem <;> rw [hem] <;> decide
  | word w =>
    obtain ⟨hstop, htakes⟩ := id hvalid
    obtain ⟨hsep, hm, hem⟩ := takesOperand_eq_false.mp htakes
    by_cases hquiet : (word w).Quiet
    · by_cases hwary : (word w).Wary → precedesEmulation rest = false
      · rw [collectFrom_quiet hvalid hquiet hwary] at h
        exact .inl ⟨hquiet, hwary, h⟩
      · -- an unknown option in front of a possible emulation is refused
        rw [Classical.not_imp] at hwary
        obtain ⟨⟨hattached, hdash, hknown⟩, hnext⟩ := hwary
        have hreads := hquiet.resolve_left (by simp [hattached])
        rw [readsEmulation, Bool.or_eq_false_iff] at hreads
        obtain ⟨hshort, hlong⟩ := hreads
        rw [Token.words, List.cons_append, collectUserEmulationsFrom.eq_def] at h
        simp only [hstop, hsep, hm, hem, decide_false, Bool.or_false, Bool.false_eq_true, if_false,
          stripPrefix_emulation hlong, hlong, stripPrefix_eq_none.mpr hshort, hattached, hdash, hknown] at h
        simp [hnext] at h
    · simp only [Quiet, not_or, Bool.not_eq_true, Bool.not_eq_false] at hquiet
      obtain ⟨hattached, hreads⟩ := hquiet
      refine .inr ?_
      rw [Token.words, List.cons_append, collectUserEmulationsFrom.eq_def] at h
      simp only [hstop, hsep, hm, hem, decide_false, Bool.or_false, Bool.false_eq_true, if_false,
        hattached, List.nil_append] at h
      cases hlong : stripPrefix (toStringLossy w) "--emulation=" with
      | some value =>
        rw [hlong] at h
        obtain ⟨_, -, h⟩ := Except.bind_ok h
        obtain ⟨more, hmore, h⟩ := Except.bind_ok h
        cases h
        exact ⟨value, more, rfl, hmore, hreads⟩
      | none =>
        rw [hlong] at h
        obtain ⟨hemu, h⟩ := ite_error_ok h
        cases hshort : stripPrefix (toStringLossy w) "-m" with
        | some value =>
          rw [hshort] at h
          obtain ⟨_, -, h⟩ := Except.bind_ok h
          obtain ⟨more, hmore, h⟩ := Except.bind_ok h
          cases h
          exact ⟨value, more, rfl, hmore, hreads⟩
        | none =>
          rw [readsEmulation, stripPrefix_eq_none.mp hshort, Bool.false_or] at hreads
          exact absurd hreads hemu

theorem collectFrom_lone {o : OsString} (h : takesOperand (toStringLossy o) = true) :
    ∃ e, collectUserEmulationsFrom k [o] = .error e := by
  have hstop := (operandOptions_facts _ (mem_operandOptions.mpr h)).1
  rw [collectUserEmulationsFrom.eq_def]
  simp only [hstop, if_false]
  cases hsep : takesSeparateValue (toStringLossy o) with
  | true => exact ⟨_, rfl⟩
  | false =>
    have hem : toStringLossy o = ascii "-m" ∨ toStringLossy o = ascii "--emulation" := by
      simpa [takesOperand, hsep] using h
    have hattached : hasAttachedValue (toStringLossy o) = false := by
      rcases hem with hem | hem <;> rw [hem] <;> decide
    have hem' : (decide (toStringLossy o = ascii "-m") ||
        decide (toStringLossy o = ascii "--emulation")) = true := by simpa using hem
    simp only [hattached, hem', Bool.false_eq_true, if_false, if_true]
    exact ⟨_, rfl⟩

/-- The scanner's rule of induction: a property of what it finds, established at the boundary, for
a quiet token and for an emulation. -/
theorem collectFrom_induction {P : ℕ → List OsString → List UserEmulation → Prop}
    (hstop : ∀ k args, Boundary args → P k args [])
    (hquiet : ∀ k (t : Token) rest found, t.Valid → t.Quiet → (t.Wary → precedesEmulation rest = false) →
      collectUserEmulationsFrom (k + t.words.length) rest = .ok found →
      P (k + t.words.length) rest found → P k (t.words ++ rest) found)
    (hemulation : ∀ k (t : Token) rest value more, t.Valid → readsEmulation t.head = true →
      collectUserEmulationsFrom (k + t.words.length) rest = .ok more →
      P (k + t.words.length) rest more → P k (t.words ++ rest) (⟨k, k + t.words.length, value⟩ :: more))
    {args : List OsString} (h : collectUserEmulationsFrom k args = .ok found) : P k args found := by
  induction hn : args.length using Nat.strong_induction_on generalizing k args found with
  | _ n ih =>
    subst hn
    rcases next_token args with hboundary | ⟨t, rest, hvalid, rfl⟩ | ⟨o, rfl, hlone⟩
    · rw [collectFrom_boundary hboundary] at h
      cases h
      exact hstop k args hboundary
    · have hlen : rest.length < (t.words ++ rest).length := by
        rw [List.length_append]
        have : 0 < t.words.length := by cases t <;> simp [Token.words]
        omega
      rcases collectFrom_cases hvalid h with ⟨hq, hwary, hrest⟩ | ⟨value, more, rfl, hrest, hreads⟩
      · exact hquiet k t rest found hvalid hq hwary hrest (ih _ hlen hrest rfl)
      · exact hemulation k t rest value more hvalid hreads hrest (ih _ hlen hrest rfl)
    · obtain ⟨e, he⟩ := @collectFrom_lone k o hlone
      rw [he] at h
      cases h

theorem start_le {args : List OsString} (h : collectUserEmulationsFrom k args = .ok found) :
    ∀ e ∈ found, k ≤ e.start := by
  refine collectFrom_induction (P := fun k _ found => ∀ e ∈ found, k ≤ e.start)
    (fun _ _ _ => by simp) (fun k t rest found _ _ _ _ ih e he => ?_)
    (fun k t rest value more _ _ _ ih e he => ?_) h
  · have := ih e he
    omega
  · rcases List.mem_cons.mp he with rfl | he
    · exact le_rfl
    · have := ih e he
      omega

theorem normalizeFrom_nil {skip : ℕ} (args : List OsString) (h : skip ≤ k) :
    normalizeFrom k skip [] args = args := by
  induction args generalizing k with
  | nil => rfl
  | cons arg rest ih => rw [normalizeFrom_cons, if_neg (by omega), ih (by omega)]

theorem normalizeFrom_word {skip : ℕ} {w : OsString} (hskip : skip ≤ k)
    (h : ∀ e ∈ found, k + 1 ≤ e.start) :
    normalizeFrom k skip found (w :: rest) = w :: normalizeFrom (k + 1) skip found rest := by
  cases found with
  | nil => rw [normalizeFrom_cons, if_neg (by omega)]
  | cons e more =>
    have := h e (by simp)
    rw [normalizeFrom_cons, if_neg (by omega)]
    exact if_neg (by omega)

theorem normalizeFrom_quiet {skip : ℕ} (hskip : skip ≤ k)
    (h : ∀ e ∈ found, k + t.words.length ≤ e.start) :
    normalizeFrom k skip found (t.words ++ rest) =
      t.words ++ normalizeFrom (k + t.words.length) skip found rest := by
  cases t with
  | word w => exact normalizeFrom_word hskip h
  | pair o v =>
    have h' : ∀ e ∈ found, k + 2 ≤ e.start := h
    rw [Token.words, List.cons_append,
      normalizeFrom_word hskip fun e he => by have := h' e he; omega, List.cons_append,
      normalizeFrom_word (by omega) h']
    rfl

theorem normalizeFrom_emulation {skip : ℕ} {value : Bytes} {more : List UserEmulation}
    (hskip : skip ≤ k) :
    normalizeFrom k skip (⟨k, k + t.words.length, value⟩ :: more) (t.words ++ rest) =
      normalizeFrom (k + t.words.length) (k + t.words.length) more rest := by
  cases t with
  | word w =>
    rw [Token.words, List.cons_append, normalizeFrom_cons, if_neg (by omega)]
    exact if_pos rfl
  | pair o v =>
    rw [Token.words, List.cons_append, normalizeFrom_cons, if_neg (by omega)]
    dsimp only
    rw [if_pos rfl, List.cons_append, normalizeFrom_cons]
    exact if_pos (by simp)

/-- Without its selections, a command line selects nothing. -/
theorem collectFrom_normalizeFrom {args : List OsString}
    (h : collectUserEmulationsFrom k args = .ok found) (skip k' : ℕ) (hskip : skip ≤ k) :
    collectUserEmulationsFrom k' (normalizeFrom k skip found args) = .ok [] ∧
      (precedesEmulation (normalizeFrom k skip found args) = true →
        precedesEmulation args = true) := by
  refine collectFrom_induction (P := fun k args found => ∀ skip k', skip ≤ k →
    collectUserEmulationsFrom k' (normalizeFrom k skip found args) = .ok [] ∧
      (precedesEmulation (normalizeFrom k skip found args) = true →
        precedesEmulation args = true))
    (fun k args hboundary skip k' hskip => ?_)
    (fun k t rest found hvalid hquiet hwary hrest ih skip k' hskip => ?_)
    (fun k t rest value more hvalid hreads hrest ih skip k' hskip => ?_) h skip k' hskip
  · rw [normalizeFrom_nil _ hskip]
    exact ⟨collectFrom_boundary hboundary, id⟩
  · obtain ⟨hnone, hprecedes⟩ := ih skip (k' + t.words.length) (by omega)
    rw [normalizeFrom_quiet hskip (start_le hrest)]
    refine ⟨?_, fun h => by rwa [precedesEmulation_token] at h ⊢⟩
    rw [collectFrom_quiet hvalid hquiet, hnone]
    intro hw
    rw [← Bool.not_eq_true]
    intro hcontra
    have := hprecedes hcontra
    rw [hwary hw] at this
    cases this
  · rw [normalizeFrom_emulation hskip]
    obtain ⟨hnone, -⟩ := ih (k + t.words.length) k' le_rfl
    exact ⟨hnone, fun _ => by rwa [precedesEmulation_token]⟩

end Collect

/-! ### Changed tokens under the scanner -/

/-- A token that the scanner passes over wherever it passes over another one. -/
structure Follows (t t' : Token) : Prop where
  valid : t'.Valid
  quiet : t'.Quiet
  wary : t'.Wary → t.Wary
  head : readsEmulation t'.head = true → readsEmulation t.head = true

theorem follows_rewrite {t : Token} (hvalid : t.Valid) (hquiet : t.Quiet) : Follows t t.rewrite := by
  rcases rewrite_cases t with h | ⟨w, -, -, h⟩
  · rw [h]
    exact ⟨hvalid, hquiet, id, id⟩
  · refine ⟨valid_rewrite hvalid, ?_, ?_, ?_⟩ <;> rw [h]
    · right
      rw [readsEmulation, toStringLossy_r]
      decide
    · rintro ⟨-, -, hknown⟩
      rw [toStringLossy_r] at hknown
      exact absurd hknown (by decide)
    · intro hreads
      rw [Token.head, readsEmulation, toStringLossy_r] at hreads
      exact absurd hreads (by decide)

theorem follows_pair {t : Token} {o p : OsString}
    (h : toStringLossy o = ascii "-o" ∨ toStringLossy o = ascii "--output") :
    Follows t (pair o p) := by
  refine ⟨?_, ?_, nofun, fun hreads => ?_⟩
  · rw [Valid]
    rcases h with h | h <;> rw [h] <;> decide
  · rw [Quiet]
    rcases h with h | h <;> rw [h] <;> decide
  · rw [Token.head, readsEmulation] at hreads
    rcases h with h | h <;> rw [h] at hreads <;> exact absurd hreads (by decide)

theorem hasAttachedValue_joined {p : Bytes} (hp : p ≠ []) :
    hasAttachedValue (ascii "--output=" ++ p) = true ∧ hasAttachedValue (ascii "-o" ++ p) = true := by
  constructor
  · rw [hasAttachedValue,
      show ascii "--output=" = 0x2d :: 0x2d :: 0x6f :: ascii "utput=" by decide, startsWith,
      startsWith, show ascii "--" = [0x2d, 0x2d] by decide,
      show ascii "--emu" = [0x2d, 0x2d, 0x65, 0x6d, 0x75] by decide,
      show ascii "utput=" = [0x75, 0x74, 0x70, 0x75, 0x74, 0x3d] by decide]
    simp [List.isPrefixOf]
  · have hpos := List.length_pos_iff.mpr hp
    rw [hasAttachedValue, if_neg]
    · rw [attachedPrefixes, List.any_cons, startsWith_append, List.length_append]
      simp [hpos]
    · rw [startsWith, show ascii "-o" = [0x2d, 0x6f] by decide,
        show ascii "--" = [0x2d, 0x2d] by decide]
      simp

theorem not_emulation_joined (p : Bytes) :
    (startsWith (ascii "--output=" ++ p) "-m" || startsWith (ascii "--output=" ++ p) "--emu") = false ∧
      (startsWith (ascii "-o" ++ p) "-m" || startsWith (ascii "-o" ++ p) "--emu") = false := by
  rw [startsWith, startsWith, startsWith, startsWith,
    show ascii "--output=" = 0x2d :: 0x2d :: 0x6f :: ascii "utput=" by decide,
    show ascii "-o" = [0x2d, 0x6f] by decide,
    show ascii "-m" = [0x2d, 0x6d] by decide,
    show ascii "--emu" = [0x2d, 0x2d, 0x65, 0x6d, 0x75] by decide]
  simp [List.isPrefixOf]

theorem readsEmulation_joined {p : Bytes} (h : toStringLossy p = p) :
    readsEmulation (ascii "--output=" ++ p) = false ∧ readsEmulation (ascii "-o" ++ p) = false := by
  rw [readsEmulation, readsEmulation, text_long h, text_short h]
  exact not_emulation_joined p

theorem follows_replace {t : Token} {p value : Bytes} (hvalid : t.Valid)
    (hout : t.output = some value) (hp : t.CanName p) : Follows t (t.replace p) := by
  cases t with
  | pair o v =>
    refine follows_pair ?_
    by_contra hnot
    rw [Token.output, if_neg (by simpa using hnot)] at hout
    cases hout
  | word w =>
    have hvalid' := valid_replace hvalid hout hp
    obtain ⟨hne, htext⟩ := hp
    obtain ⟨hlong, hshort⟩ := hasAttachedValue_joined hne
    obtain ⟨hlong', hshort'⟩ := readsEmulation_joined htext
    rcases replace_word_cases p hout with ⟨-, heq⟩ | ⟨-, heq⟩
    · rw [heq] at hvalid' ⊢
      refine ⟨hvalid', .inl ?_, ?_, ?_⟩
      · rwa [text_long htext]
      · rintro ⟨hattached, -⟩
        rw [text_long htext, hlong] at hattached
        cases hattached
      · rw [Token.head, hlong']
        exact fun h => by cases h
    · rw [heq] at hvalid' ⊢
      refine ⟨hvalid', .inl ?_, ?_, ?_⟩
      · rwa [text_short htext]
      · rintro ⟨hattached, -⟩
        rw [text_short htext, hshort] at hattached
        cases hattached
      · rw [Token.head, hshort']
        exact fun h => by cases h

/-- Where the scanner finds nothing, it finds nothing among tokens that follow. -/
theorem collectFrom_follows {tokens tokens' : List Token} {tail tail' : List OsString} {k : ℕ}
    (hfollows : List.Forall₂ (fun t t' => t.Valid ∧ (t.Quiet → Follows t t')) tokens tokens')
    (h : collectUserEmulationsFrom k (words tokens ++ tail) = .ok [])
    (htail : ∀ k, collectUserEmulationsFrom k tail' = .ok [])
    (hhead : precedesEmulation tail' = true → precedesEmulation tail = true) (k' : ℕ) :
    collectUserEmulationsFrom k' (words tokens' ++ tail') = .ok [] ∧
      (precedesEmulation (words tokens' ++ tail') = true →
        precedesEmulation (words tokens ++ tail) = true) := by
  induction hfollows generalizing k k' with
  | nil => exact ⟨htail k', hhead⟩
  | @cons t t' tokens tokens' ht _ ih =>
    obtain ⟨hvalid, hfollow⟩ := ht
    rw [words_cons, List.append_assoc] at h
    rcases collectFrom_cases hvalid h with ⟨hquiet, hwary, hrest⟩ | ⟨_, _, hcontra, -⟩
    · obtain ⟨hvalid', hquiet', hwary', hhead'⟩ := hfollow hquiet
      obtain ⟨hnone, hprecedes⟩ := ih hrest (k' + t'.words.length)
      rw [words_cons, List.append_assoc, words_cons, List.append_assoc]
      refine ⟨?_, ?_⟩
      · rw [collectFrom_quiet hvalid' hquiet' fun hw => ?_, hnone]
        rw [← Bool.not_eq_true]
        intro hcontra
        have := hprecedes hcontra
        rw [hwary (hwary' hw)] at this
        cases this
      · rw [precedesEmulation_token, precedesEmulation_token]
        exact hhead'
    · cases hcontra

theorem quiet_of_collectFrom {tokens : List Token} {tail : List OsString} {k : ℕ}
    (hvalid : ∀ t ∈ tokens, t.Valid)
    (h : collectUserEmulationsFrom k (words tokens ++ tail) = .ok []) : ∀ t ∈ tokens, t.Quiet := by
  induction tokens generalizing k with
  | nil => simp
  | cons t tokens ih =>
    rw [words_cons, List.append_assoc] at h
    rcases collectFrom_cases (hvalid t (by simp)) h with ⟨hquiet, -, hrest⟩ | ⟨_, _, hcontra, -⟩
    · intro u hu
      rcases List.mem_cons.mp hu with rfl | hu
      · exact hquiet
      · exact ih (fun u hu => hvalid u (by simp [hu])) hrest u hu
    · cases hcontra

/-! ### Plain emulation operands -/

/-- Every operand of an emulation option on a command line is plain. -/
def plainEmulations : List OsString → Bool
  | [] => true
  | arg :: rest =>
    let text := toStringLossy arg
    if text = ascii "--" then true
    else if takesOperand text then
      match rest with
      | [] => true
      | value :: rest =>
        (!(text = ascii "-m" || text = ascii "--emulation") || plainOperand value) &&
          plainEmulations rest
    else plainEmulations rest

/-- The emulation that is passed on reads as nothing else: the configured one, or those on the
command line where none is configured. -/
def plainSelection (emulation : Option Bytes) (args : List OsString) : Bool :=
  match emulation with
  | some emulation => plainOperand emulation
  | none => plainEmulations args

theorem plain_of_plainEmulations {tokens : List Token} {after : List OsString}
    (hvalid : ∀ t ∈ tokens, t.Valid) (h : plainEmulations (words tokens ++ after) = true) :
    ∀ t ∈ tokens, t.Plain := by
  induction tokens with
  | nil => simp
  | cons t tokens ih =>
    have hrest := ih fun u hu => hvalid u (by simp [hu])
    have ht := hvalid t (by simp)
    intro u hu
    cases t with
    | word w =>
      obtain ⟨hstop, htakes⟩ := ht
      have htail : plainEmulations (words tokens ++ after) = true := by
        rw [words_cons, Token.words, List.cons_append, List.cons_append,
          plainEmulations.eq_def] at h
        simpa only [hstop, htakes, Bool.false_eq_true, if_false, List.nil_append] using h
      rcases List.mem_cons.mp hu with rfl | hu
      · trivial
      · exact hrest htail u hu
    | pair o v =>
      have hstop := (operandOptions_facts _ (mem_operandOptions.mpr ht)).1
      rw [words_cons, Token.words, List.cons_append, List.cons_append, plainEmulations.eq_def] at h
      simp only [hstop, if_false, show takesOperand (toStringLossy o) = true from ht, if_true,
        List.cons_append, List.nil_append, Bool.and_eq_true, Bool.or_eq_true, Bool.not_eq_true',
        Bool.or_eq_false_iff, decide_eq_false_iff_not] at h
      rcases List.mem_cons.mp hu with rfl | hu
      · intro hem
        rcases h.1 with hnot | hplain
        · exact (hem.elim hnot.1 hnot.2).elim
        · exact hplain
      · exact hrest h.2 u hu

theorem plain_of_quiet {t : Token} (h : t.Quiet) : t.Plain := by
  cases t with
  | word w => trivial
  | pair o v =>
    intro hem
    rw [Quiet] at h
    rcases hem with hem | hem <;> rw [hem] at h <;> exact absurd h (by decide)

/-! ### Normalized command lines -/

theorem validateEmulation_ascii {e : Bytes} (h : validateEmulation e = .ok ()) :
    toStringLossy e = e := by
  obtain ⟨hall, -⟩ := ite_error_ok h
  simp only [Bool.or_eq_true, Bool.not_eq_true', not_or, Bool.not_eq_false, List.all_eq_true]
    at hall
  refine toStringLossy_of_ascii fun b hb => ?_
  have hbyte := hall.2 b hb
  simp only [emulationByte, Bool.or_eq_true, Bool.and_eq_true, decide_eq_true_eq, beq_iff_eq,
    UInt8.le_iff_toNat_le, ← UInt8.toNat_inj, UInt8.lt_iff_toNat_lt, UInt8.reduceToNat] at hbyte ⊢
  omega

/-- A command line that starts with the configured emulation and selects no other is normal. -/
theorem normalizeEmulation_again {e : Bytes} {driver : Option Bytes} {rest : List OsString}
    (hvalid : validateEmulation e = .ok ())
    (hdriver : validateDriverEmulation driver = .ok ())
    (h : collectUserEmulationsFrom 2 rest = .ok []) :
    normalizeEmulation (some e) driver (ascii "-m" :: e :: rest) =
      .ok (ascii "-m" :: e :: rest) := by
  have hm : toStringLossy (ascii "-m") = ascii "-m" := by decide
  have hcollect : collectUserEmulations (ascii "-m" :: e :: rest) = .ok [⟨0, 2, e⟩] := by
    rw [collectUserEmulations, collectUserEmulationsFrom.eq_def]
    simp only [hm, show ascii "-m" ≠ ascii "--" by decide, if_false,
      show takesSeparateValue (ascii "-m") = false by decide, Bool.false_eq_true,
      show hasAttachedValue (ascii "-m") = false by decide, decide_true, Bool.true_or,
      if_true, toStr, validateEmulation_ascii hvalid, hvalid, Nat.zero_add, h]
    rfl
  have hnormal : normalizeFrom 0 0 [⟨0, 2, e⟩] (ascii "-m" :: e :: rest) = rest := by
    have hemulation := @normalizeFrom_emulation 0 (.pair (ascii "-m") e) rest 0 e [] le_rfl
    rw [normalizeFrom_nil _ (by omega)] at hemulation
    exact hemulation
  have hsame : ([⟨0, 2, e⟩] : List UserEmulation).any (conflicting e driver) = false := by
    simp [conflicting]
  refine Except.bind_eq_ok.mpr ⟨(), hvalid, Except.bind_eq_ok.mpr ⟨(), hdriver,
    Except.bind_eq_ok.mpr ⟨_, hcollect, ?_⟩⟩⟩
  rw [hsame, if_neg Bool.false_ne_true, hnormal]

/-- A token and what becomes of it: emulations stay, and the scanner passes over the rest as
before. -/
structure Changes (t t' : Token) : Prop where
  valid : t.Valid
  follows : t.Quiet → Follows t t'
  same : ¬ t.Quiet → t' = t

theorem changes_rewrite {t : Token} (h : t.Valid) : Changes t t.rewrite := by
  refine ⟨h, follows_rewrite h, fun hquiet => ?_⟩
  rcases rewrite_cases t with heq | ⟨w, rfl, hflag, -⟩
  · exact heq
  · have hflags : ∀ text ∈ collectorFlags.map ascii,
        (startsWith text "-m" || startsWith text "--emu") = false := by decide
    exact absurd (.inr (hflags _ hflag)) hquiet

theorem changes_replace {t : Token} {p value : Bytes} (h : t.Valid) (hout : t.output = some value)
    (hp : t.CanName p) : Changes t (t.replace p) := by
  refine ⟨h, fun _ => follows_replace h hout hp, fun hquiet => absurd ?_ hquiet⟩
  cases t with
  | pair o v =>
    have hcase : toStringLossy o = ascii "-o" ∨ toStringLossy o = ascii "--output" := by
      by_contra hnot
      rw [Token.output, if_neg (by simpa using hnot)] at hout
      cases hout
    rw [Quiet]
    rcases hcase with hcase | hcase <;> rw [hcase] <;> decide
  | word w =>
    rcases joined_cases hout with htext | ⟨htext, hne⟩
    · right
      rw [readsEmulation, htext]
      exact (not_emulation_joined value).1
    · left
      rw [htext]
      exact (hasAttachedValue_joined hne).2

section Normal

variable {emulation driver : Option Bytes} {args given after : List OsString} {tokens : List Token}

/-- The tokens of a normalized command line with a configured emulation. -/
theorem tokens_of_normalize {e : Bytes} (h : normalizeEmulation (some e) driver args = .ok given)
    (hgiven : given = words tokens ++ after) (hvalid : ∀ t ∈ tokens, t.Valid)
    (hafter : Boundary after) :
    ∃ rest, tokens = pair (ascii "-m") e :: rest ∧ validateEmulation e = .ok () ∧
      validateDriverEmulation driver = .ok () ∧
      collectUserEmulationsFrom 2 (words rest ++ after) = .ok [] := by
  obtain ⟨⟨⟩, he, h⟩ := Except.bind_ok h
  obtain ⟨⟨⟩, hdriver, h⟩ := Except.bind_ok h
  obtain ⟨found, hfound, h⟩ := Except.bind_ok h
  obtain ⟨-, h⟩ := ite_error_ok h
  cases h
  have hm : toStringLossy (ascii "-m") = ascii "-m" := by decide
  have hnone := (collectFrom_normalizeFrom hfound 0 2 le_rfl).1
  cases tokens with
  | nil =>
    rw [words_nil, List.nil_append] at hgiven
    rw [← hgiven, Boundary, hm] at hafter
    exact absurd hafter (by decide)
  | cons t rest =>
    cases t with
    | word w =>
      rw [words_cons, Token.words, List.append_assoc, List.cons_append, List.cons.injEq] at hgiven
      have htakes := (hvalid (.word w) (by simp)).2
      rw [← hgiven.1, hm] at htakes
      exact absurd htakes (by decide)
    | pair o v =>
      rw [words_cons, Token.words, List.append_assoc, List.cons_append, List.cons.injEq,
        List.cons_append, List.cons.injEq, List.nil_append] at hgiven
      obtain ⟨rfl, rfl, hrest⟩ := hgiven
      rw [hrest] at hnone
      exact ⟨rest, rfl, he, hdriver, hnone⟩

/-- A normalized command line stays normal when its tokens change. -/
theorem normalizeEmulation_changes (h : normalizeEmulation emulation driver args = .ok given)
    (hgiven : given = words tokens ++ after) (hvalid : ∀ t ∈ tokens, t.Valid)
    (hafter : Boundary after) {tokens' : List Token} {tail : List OsString}
    (hchanges : List.Forall₂ Changes tokens tokens')
    (htail : ∀ k, collectUserEmulationsFrom k tail = .ok [])
    (hhead : precedesEmulation tail = true → precedesEmulation after = true) :
    normalizeEmulation emulation driver (words tokens' ++ tail) = .ok (words tokens' ++ tail) := by
  cases emulation with
  | none =>
    obtain ⟨hdriver, -⟩ := ite_error_ok h
    exact if_neg hdriver
  | some e =>
    obtain ⟨rest, rfl, he, hdriver, hnone⟩ := tokens_of_normalize h hgiven hvalid hafter
    cases hchanges with
    | @cons _ t' _ rest' ht hrest =>
      have hsame := ht.same (by
        intro hquiet
        exact absurd (show takesSeparateValue _ = true from hquiet) (by decide))
      subst hsame
      have hfollows := collectFrom_follows (hrest.imp fun t t' h => ⟨h.valid, h.follows⟩) hnone
        htail hhead 2
      exact normalizeEmulation_again he hdriver hfollows.1

theorem plain_of_plainSelection (h : normalizeEmulation emulation driver args = .ok given)
    (hplain : plainSelection emulation args = true) (hgiven : given = words tokens ++ after)
    (hvalid : ∀ t ∈ tokens, t.Valid) (hafter : Boundary after) : ∀ t ∈ tokens, t.Plain := by
  cases emulation with
  | none =>
    obtain ⟨-, h⟩ := ite_error_ok h
    cases h
    subst hgiven
    exact plain_of_plainEmulations hvalid hplain
  | some e =>
    obtain ⟨rest, rfl, -, -, hnone⟩ := tokens_of_normalize h hgiven hvalid hafter
    intro t ht
    rcases List.mem_cons.mp ht with rfl | ht
    · exact fun _ => hplain
    · exact plain_of_quiet
        (quiet_of_collectFrom (fun u hu => hvalid u (by simp [hu])) hnone t ht)

end Normal

/-! ### The position of the output -/

/-- How an output is spelled: as an argument of its own, or attached to its option. -/
inductive OutputForm where
  | separate
  | short
  | long
  deriving DecidableEq, Repr

namespace OutputForm

/-- The argument that spells an output. -/
def spell (p : Bytes) : OutputForm → OsString
  | separate => p
  | short => ascii "-o" ++ p
  | long => ascii "--output=" ++ p

/-- The argument spells the given output. -/
def Spells (w : OsString) (p : Bytes) : OutputForm → Prop
  | separate => w = p
  | short => toStringLossy w = ascii "-o" ++ p
  | long => toStringLossy w = ascii "--output=" ++ p

/-- The parser reads back an output spelled so: none is empty, and an attached one is text. -/
def Accepts (p : Bytes) (form : OutputForm) : Prop :=
  p ≠ [] ∧ (form = separate ∨ toStringLossy p = p)

end OutputForm

/-- Where in its token an output stands. -/
theorem position_of_output {t : Token} {value : Bytes} (hout : t.output = some value) :
    ∃ i w form, OutputForm.Spells w value form ∧
      (∀ p, form.Accepts p → t.CanName p) ∧
      ∀ a b : List OsString, (a ++ (t.words ++ b))[a.length + i]? = some w ∧
        ∀ p, a ++ ((t.replace p).words ++ b) =
          (a ++ (t.words ++ b)).set (a.length + i) (form.spell p) := by
  cases t with
  | pair o v =>
    have hv : v = value := by
      rw [Token.output] at hout
      split_ifs at hout
      exact Option.some.inj hout
    refine ⟨1, v, .separate, hv, fun p hp => hp.1, fun a b => ⟨?_, fun p => ?_⟩⟩
    · simp [Token.words]
    · simp [Token.words, Token.replace, OutputForm.spell]
  | word w =>
    rcases joined_cases hout with htext | ⟨htext, hne⟩
    · refine ⟨0, w, .long, htext, fun p hp => ⟨hp.1, hp.2.resolve_left (by decide)⟩,
        fun a b => ⟨by simp [Token.words], fun p => ?_⟩⟩
      rw [Token.replace, htext, not_startsWith_long]
      simp [Token.words, OutputForm.spell]
    · refine ⟨0, w, .short, htext, fun p hp => ⟨hp.1, hp.2.resolve_left (by decide)⟩,
        fun a b => ⟨by simp [Token.words], fun p => ?_⟩⟩
      rw [Token.replace, htext, startsWith_append]
      simp [Token.words, OutputForm.spell]

/-- The request that is made of the arguments of another one, with the output `p`. -/
def EngineRequest.reread (request : EngineRequest) (args : List OsString) (p : Bytes) :
    EngineRequest :=
  { request with
    args := args
    output := p
    mode := if request.mode = .final && !request.stripOutput && !request.ignoreUndefined then .final
      else .incremental
    stripOutput := false
    ignoreUndefined := false }

/-- An argument as it was given or, if it is a flag for the collector only, as `-r`. -/
def Passed (given passed : OsString) : Prop :=
  passed = given ∨ toStringLossy given ∈ collectorFlags.map ascii ∧ passed = ascii "-r"

theorem passed_words (tokens : List Token) :
    List.Forall₂ Passed (words tokens) (words (tokens.map rewrite)) := by
  induction tokens with
  | nil => exact .nil
  | cons t tokens ih =>
    rw [List.map_cons, words_cons, words_cons]
    refine List.rel_append ?_ ih
    cases t with
    | pair o v => exact .cons (.inl rfl) (.cons (.inl rfl) .nil)
    | word w =>
      rcases rewrite_cases (word w) with h | ⟨_, ⟨⟩, hflag, h⟩
      · rw [h]
        exact .cons (.inl rfl) .nil
      · rw [h]
        exact .cons (.inr ⟨hflag, rfl⟩) .nil

theorem passed_refl (args : List OsString) : List.Forall₂ Passed args args :=
  List.forall₂_same.mpr fun _ _ => .inl rfl

section Layout

variable {name linker strip : Bytes} {emulation driver default : Option Bytes}
  {args : List OsString} {request : EngineRequest}

/-- The arguments of a request as tokens around the one that names its output, and what reading
them with another output yields. -/
structure Layout (emulation driver : Option Bytes) (request : EngineRequest) (pre : List Token)
    (t : Token) (post : List Token) (after : List OsString) (s : Selections) : Prop where
  args : request.args = words pre ++ (t.words ++ (words post ++ after))
  boundary : Boundary after
  valid : ∀ u ∈ pre ++ post, u.Valid
  named : t.Valid ∧ t.output = some request.output
  skipped : ∀ u ∈ pre, u.output = none ∧ u.Plain
  passed : ∀ u ∈ pre ++ post, u.rewrite = u
  selected : request.sysroot = s.sysroot ∧ request.mode = s.mode ∧
    request.stripOutput = s.stripOutput ∧ request.ignoreUndefined = s.ignoreUndefined
  effects : ∀ p, t.CanName p →
    effects {} (pre ++ t.replace p :: post) = some (s.settle.withOutput (some p))
  normal : ∀ p, t.CanName p →
    normalizeEmulation emulation driver (words (pre ++ t.replace p :: post) ++ after) =
      .ok (words (pre ++ t.replace p :: post) ++ after)

theorem rewrite_of_output {t : Token} {value : Bytes} (h : t.output = some value) :
    t.rewrite = t := by
  rcases rewrite_cases t with heq | ⟨w, rfl, hflag, -⟩
  · exact heq
  · rw [Token.output, (collectorFlags_facts _ hflag).1] at h
    cases h

theorem replace_of_layout {pre post : List Token} {t : Token} {after : List OsString}
    {s : Selections} (h : Layout emulation driver request pre t post after s) (p : Bytes) :
    replaceOutput p request.args =
      .ok (words pre ++ ((t.replace p).words ++ (words post ++ after))) := by
  obtain ⟨hargs, -, hvalid, ⟨ht, hout⟩, hskipped, -, -, -, -⟩ := h
  rw [hargs]
  clear hargs
  induction pre with
  | nil => exact replaceOutput_hit ht hout
  | cons u pre ih =>
    have hu := hskipped u (by simp)
    rw [words_cons, List.append_assoc,
      replaceOutput_skip (hvalid u (by simp)) hu.1 hu.2,
      ih (fun x hx => hvalid x (by simp at hx ⊢; tauto)) fun x hx => hskipped x (by simp [hx])]
    simp [Except.map]

theorem changes_map_rewrite {tokens : List Token} (h : ∀ t ∈ tokens, t.Valid) :
    List.Forall₂ Changes tokens (tokens.map rewrite) := by
  rw [List.forall₂_map_right_iff, List.forall₂_same]
  exact fun t ht => changes_rewrite (h t ht)

theorem rewritten_of_mem_map {tokens : List Token} {u : Token} (h : u ∈ tokens.map rewrite) :
    u.rewrite = u := by
  obtain ⟨t, -, rfl⟩ := List.mem_map.mp h
  exact rewrite_rewrite t

theorem valid_of_mem_map {tokens : List Token} (hvalid : ∀ t ∈ tokens, t.Valid) {u : Token}
    (h : u ∈ tokens.map rewrite) : u.Valid := by
  obtain ⟨t, ht, rfl⟩ := List.mem_map.mp h
  exact valid_rewrite (hvalid t ht)

theorem skipped_of_mem_map {tokens : List Token} (hnone : ∀ t ∈ tokens, t.output = none)
    (hplain : ∀ t ∈ tokens, t.Plain) {u : Token} (h : u ∈ tokens.map rewrite) :
    u.output = none ∧ u.Plain := by
  obtain ⟨t, ht, rfl⟩ := List.mem_map.mp h
  exact ⟨(output_rewrite t).trans (hnone t ht), plain_rewrite (hplain t ht)⟩

/-- The layout of a command line that names its output. -/
theorem layout_of_named {given : List OsString} {pre post : List Token} {t : Token}
    {after : List OsString} {s₁ s : Selections} {value : Bytes}
    (hgiven : normalizeEmulation emulation driver args = .ok given)
    (hwords : given = words (pre ++ t :: post) ++ after)
    (hvalid : ∀ u ∈ pre ++ t :: post, u.Valid) (hplain : ∀ u ∈ pre ++ t :: post, u.Plain)
    (hafter : Boundary after) (ht : t.output = some value) (hpre : effects {} pre = some s₁)
    (hpost : effects (s₁.withOutput (some value)) post = some s)
    (hpreNone : ∀ u ∈ pre, u.output = none) (hpostNone : ∀ u ∈ post, u.output = none) :
    Layout emulation driver ⟨name, linker, strip, emulation,
      words ((pre ++ t :: post).map rewrite) ++ after, value, s.sysroot, s.mode, s.stripOutput,
      s.ignoreUndefined⟩ (pre.map rewrite) t (post.map rewrite) after s := by
  have hpreValid : ∀ u ∈ pre, u.Valid := fun u hu => hvalid u (by simp [hu])
  have hpostValid : ∀ u ∈ post, u.Valid := fun u hu => hvalid u (by simp [hu])
  have htValid := hvalid t (by simp)
  refine ⟨?_, hafter, ?_, ⟨htValid, ht⟩, ?_, ?_, ⟨rfl, rfl, rfl, rfl⟩, fun p hp => ?_, fun p hp => ?_⟩
  · rw [List.map_append, List.map_cons, rewrite_of_output ht, words_append, words_cons]
    simp only [List.append_assoc]
  · intro u hu
    rcases List.mem_append.mp hu with hu | hu
    · exact valid_of_mem_map hpreValid hu
    · exact valid_of_mem_map hpostValid hu
  · intro u hu
    exact skipped_of_mem_map hpreNone (fun u hu => hplain u (by simp [hu])) hu
  · intro u hu
    rcases List.mem_append.mp hu with hu | hu <;> exact rewritten_of_mem_map hu
  · have hfirst := effects_rewrite hpreNone hpre none
    have hlast := effects_rewrite hpostNone hpost (some p)
    rw [effects_append, show (({} : Selections)) = ({} : Selections).settle.withOutput none from rfl,
      hfirst, Option.bind_some, effects_cons]
    have hne : p ≠ [] := by
      cases t with
      | word w => exact hp.1
      | pair o v => exact hp
    have heffect : (t.replace p).effect (s₁.settle.withOutput none) =
        some (s₁.settle.withOutput (some p)) := by
      rw [effect, output_replace ht hp]
      exact if_pos ⟨rfl, hne⟩
    rw [heffect]
    exact hlast
  · refine normalizeEmulation_changes hgiven hwords hvalid hafter ?_
      (fun k => collectFrom_boundary hafter) id
    exact List.rel_append (changes_map_rewrite hpreValid)
      (.cons (changes_replace htValid ht hp) (changes_map_rewrite hpostValid))

/-- The layout of a command line that names no output: the default one is put in front of the
operand boundary. -/
theorem layout_of_default {given : List OsString} {tokens : List Token} {after : List OsString}
    {s : Selections} {d : Bytes} (hgiven : normalizeEmulation emulation driver args = .ok given)
    (hwords : given = words tokens ++ after) (hvalid : ∀ u ∈ tokens, u.Valid)
    (hplain : ∀ u ∈ tokens, u.Plain) (hafter : Boundary after)
    (heffects : effects {} tokens = some s) (hnone : ∀ u ∈ tokens, u.output = none) :
    Layout emulation driver ⟨name, linker, strip, emulation,
      words (tokens.map rewrite) ++ [ascii "-o", d] ++ after, d, s.sysroot, s.mode, s.stripOutput,
      s.ignoreUndefined⟩ (tokens.map rewrite) (pair (ascii "-o") d) [] after s := by
  have ho : toStringLossy (ascii "-o") = ascii "-o" := by decide
  have houtput : ∀ p, (pair (ascii "-o") p).output = some p := by
    intro p
    rw [Token.output, ho]
    rfl
  have hpair : ∀ p, Follows (pair (ascii "-o") p) (pair (ascii "-o") p) := fun p =>
    follows_pair (.inl ho)
  refine ⟨by simp [Token.words], hafter, ?_, ⟨(hpair d).valid, houtput d⟩, ?_, ?_,
    ⟨rfl, rfl, rfl, rfl⟩, fun p hp => ?_, fun p hp => ?_⟩
  · intro u hu
    rw [List.append_nil] at hu
    exact valid_of_mem_map hvalid hu
  · intro u hu
    exact skipped_of_mem_map hnone hplain hu
  · intro u hu
    rw [List.append_nil] at hu
    exact rewritten_of_mem_map hu
  · have hfirst := effects_rewrite hnone heffects none
    rw [effects_append, show (({} : Selections)) = ({} : Selections).settle.withOutput none from rfl,
      hfirst, Option.bind_some, effects_cons]
    have heffect : (pair (ascii "-o") p).effect (s.settle.withOutput none) =
        some (s.settle.withOutput (some p)) := by
      rw [effect, houtput p]
      exact if_pos ⟨rfl, hp⟩
    rw [Token.replace, heffect]
    rfl
  · have htail : words (tokens.map rewrite ++ [pair (ascii "-o") p]) ++ after =
        words (tokens.map rewrite) ++ ((pair (ascii "-o") p).words ++ after) := by
      simp [words_append]
    rw [Token.replace, htail]
    refine normalizeEmulation_changes hgiven hwords hvalid hafter (changes_map_rewrite hvalid)
      (fun k => ?_) fun hreads => ?_
    · rw [collectFrom_quiet (hpair p).valid (hpair p).quiet fun h => by cases h]
      exact collectFrom_boundary hafter
    · rw [precedesEmulation_token, Token.head, readsEmulation, ho] at hreads
      exact absurd hreads (by decide)

/-- What the parser reads from the arguments of a request with another output. -/
theorem parse_of_layout {pre post : List Token} {t : Token} {after : List OsString}
    {s : Selections} (h : Layout emulation driver request pre t post after s)
    (hrequest : request.name = name ∧ request.linker = linker ∧ request.strip = strip ∧
      request.emulation = emulation) {p : Bytes} (hp : t.CanName p) :
    parseConfigured name linker strip emulation driver default
        (words pre ++ ((t.replace p).words ++ (words post ++ after))) =
      .ok (request.reread (words pre ++ ((t.replace p).words ++ (words post ++ after))) p) := by
  have hargs : words pre ++ ((t.replace p).words ++ (words post ++ after)) =
      words (pre ++ t.replace p :: post) ++ after := by
    simp [words_append]
  have hvalid : ∀ u ∈ pre ++ t.replace p :: post, u.Valid := by
    intro u hu
    rcases List.mem_append.mp hu with hu | hu
    · exact h.valid u (by simp [hu])
    · rcases List.mem_cons.mp hu with rfl | hu
      · exact valid_replace h.named.1 h.named.2 hp
      · exact h.valid u (by simp [hu])
  have hpassed : (pre ++ t.replace p :: post).map rewrite = pre ++ t.replace p :: post := by
    refine (List.map_congr_left fun u hu => ?_).trans (List.map_id _)
    rcases List.mem_append.mp hu with hu | hu
    · exact h.passed u (by simp [hu])
    · rcases List.mem_cons.mp hu with rfl | hu
      · exact rewrite_replace h.named.2 hp
      · exact h.passed u (by simp [hu])
  have hread := readArgs_words hvalid (h.effects p hp) h.boundary
  rw [hpassed] at hread
  obtain ⟨hsysroot, hmode, hstrip, hignore⟩ := h.selected
  obtain ⟨rfl, rfl, rfl, rfl⟩ := hrequest
  rw [hargs]
  refine Except.bind_eq_ok.mpr ⟨_, h.normal p hp, Except.bind_eq_ok.mpr ⟨_, hread, ?_⟩⟩
  simp only [Selections.settle, Selections.withOutput, EngineRequest.reread, hsysroot, hmode,
    hstrip, hignore]
  rfl

/-- Every accepted command line has a layout. -/
theorem layout_of_parse
    (h : parseConfigured name linker strip emulation driver default args = .ok request)
    (hplain : plainSelection emulation args = true) :
    (request.name = name ∧ request.linker = linker ∧ request.strip = strip ∧
      request.emulation = emulation) ∧
    (∃ given before after, normalizeEmulation emulation driver args = .ok given ∧
      List.Forall₂ Passed given (before ++ after) ∧
      (request.args = before ++ after ∨
        default = some request.output ∧
          request.args = before ++ [ascii "-o", request.output] ++ after)) ∧
    ∃ pre t post after s, Layout emulation driver request pre t post after s := by
  obtain ⟨given, hgiven, h⟩ := Except.bind_ok h
  obtain ⟨⟨s, before, after⟩, hread, h⟩ := Except.bind_ok h
  obtain ⟨tokens, hwords, hvalid, hafter, heffects, hbefore⟩ := tokens_of_readArgs hread
  dsimp only at hwords hvalid hafter heffects hbefore h
  subst hbefore
  have hall := plain_of_plainSelection hgiven hplain hwords hvalid hafter
  have hpassed : List.Forall₂ Passed given (words (tokens.map rewrite) ++ after) := by
    rw [hwords]
    exact List.rel_append (passed_words tokens) (passed_refl after)
  rcases effects_split heffects rfl with ⟨hnone, hnames⟩ |
    ⟨pre, t, post, s₁, value, rfl, ht, hout, hpre, hpost, hpreNone, hpostNone⟩
  · rw [hnone] at h
    dsimp only at h
    cases default with
    | none => cases h
    | some d =>
      cases h
      exact ⟨⟨rfl, rfl, rfl, rfl⟩, ⟨_, _, _, hgiven, hpassed, .inr ⟨rfl, rfl⟩⟩, _, _, _, _, _,
        layout_of_default hgiven hwords hvalid hall hafter heffects hnames⟩
  · rw [hout] at h
    cases h
    exact ⟨⟨rfl, rfl, rfl, rfl⟩, ⟨_, _, _, hgiven, hpassed, .inl rfl⟩, _, _, _, _, _,
      layout_of_named hgiven hwords hvalid hall hafter ht hpre hpost hpreNone hpostNone⟩

/-- **Parsing and replacement agree.**  Take any command line that the parser accepts, and let no
emulation that is passed on read as another option.  The arguments of the request are those given,
in their order, with the flags for the collector turned into `-r` and, if none named an output,
with the default one put in front of the operand boundary.  One argument, at a position that does
not depend on the replacement, spells the recorded output; the replacement succeeds with every
path and changes this argument only; and, for a path that the spelling can carry, parsing the
result yields the same request with the new output, save that the flags taken out are not seen
again. -/
theorem replace_output_agrees (name linker strip : Bytes) (emulation driver default : Option Bytes)
    (args : List OsString) (request : EngineRequest)
    (h : parseConfigured name linker strip emulation driver default args = .ok request)
    (hplain : plainSelection emulation args = true) :
    (∃ given before after, normalizeEmulation emulation driver args = .ok given ∧
      List.Forall₂ Passed given (before ++ after) ∧
      (request.args = before ++ after ∨
        default = some request.output ∧
          request.args = before ++ [ascii "-o", request.output] ++ after)) ∧
    ∃ i w form, request.args[i]? = some w ∧ OutputForm.Spells w request.output form ∧ ∀ p,
      replaceOutput p request.args = .ok (request.args.set i (form.spell p)) ∧
      (form.Accepts p →
        parseConfigured name linker strip emulation driver default
            (request.args.set i (form.spell p)) =
          .ok (request.reread (request.args.set i (form.spell p)) p)) := by
  obtain ⟨hrequest, hpassed, pre, t, post, after, s, hlayout⟩ := layout_of_parse h hplain
  refine ⟨hpassed, ?_⟩
  obtain ⟨i, w, form, hspells, haccepts, hposition⟩ := position_of_output hlayout.named.2
  obtain ⟨hget, hset⟩ := hposition (words pre) (words post ++ after)
  rw [← hlayout.args] at hget
  refine ⟨(words pre).length + i, w, form, hget, hspells, fun p => ?_⟩
  rw [replace_of_layout hlayout p, hset p, ← hlayout.args]
  refine ⟨rfl, fun hp => ?_⟩
  have hparse := @parse_of_layout name linker strip emulation driver default request pre post t
    after s hlayout hrequest p (haccepts p hp)
  rwa [hset p, ← hlayout.args] at hparse

theorem replace_output_agrees_sample :
    (parseConfigured [] [] [] none none none
        (["-m", "elf", "-L", "-olib", "-oout", "a.a"].map ascii)).isOk = true ∧
      ∃ request i w form,
        parseConfigured [] [] [] none none none
          (["-m", "elf", "-L", "-olib", "-oout", "a.a"].map ascii) = .ok request ∧
        request.args[i]? = some w ∧ OutputForm.Spells w request.output form ∧
        replaceOutput (ascii "new") request.args =
          .ok (request.args.set i (form.spell (ascii "new"))) ∧
        parseConfigured [] [] [] none none none (request.args.set i (form.spell (ascii "new"))) =
          .ok (request.reread (request.args.set i (form.spell (ascii "new"))) (ascii "new")) := by
  have hok : (parseConfigured [] [] [] none none none
      (["-m", "elf", "-L", "-olib", "-oout", "a.a"].map ascii)).isOk = true := by decide +kernel
  obtain ⟨request, hrequest⟩ := Except.exists_of_isOk hok
  obtain ⟨-, i, w, form, hget, hspells, hall⟩ := replace_output_agrees _ _ _ _ _ _ _ request
    hrequest (by decide +kernel)
  obtain ⟨hreplace, hparse⟩ := hall (ascii "new")
  exact ⟨hok, request, i, w, form, hrequest, hget, hspells, hreplace,
    hparse ⟨by decide, .inr (by decide)⟩⟩

/-- Flags that the parser takes out are not seen again, an empty path is refused by the second
reading, and an emulation that reads as an option is taken for one. -/
theorem replace_output_exceptions :
    (∃ request, parseConfigured [] [] [] none none none (["-s", "-o", "a"].map ascii) =
        .ok request ∧ request.stripOutput = true ∧
      replaceOutput (ascii "b") request.args = .ok (["-r", "-o", "b"].map ascii) ∧
      (parseConfigured [] [] [] none none none (["-r", "-o", "b"].map ascii)).map
        (fun r => (r.stripOutput, r.mode)) = .ok (false, .incremental)) ∧
    (parseConfigured [] [] [] none none none (["-o", ""].map ascii)).isOk = false ∧
    ∃ request, parseConfigured [] [] [] none none none (["-m", "-ofoo", "-o", "out"].map ascii) =
        .ok request ∧ request.output = ascii "out" ∧
      replaceOutput (ascii "b") request.args = .ok (["-m", "-ob", "-o", "out"].map ascii) := by
  refine ⟨⟨⟨[], [], [], none, ["-r", "-o", "a"].map ascii, ascii "a", none, .final, true, false⟩,
    ?_, ?_, ?_, ?_⟩, ?_, ⟨⟨[], [], [], none, ["-m", "-ofoo", "-o", "out"].map ascii, ascii "out", none,
    .final, false, false⟩, ?_, ?_, ?_⟩⟩ <;> decide +kernel

end Layout

end Engine

end ArosTools
