import ArosTools.Program.Except
import ArosTools.Transpiler.Genmf

/-!
# The provenance of expanded text

The output of an expansion is a sequence of pieces, each with its record. `Tiles` says that the
records lie one after another, with the right lines; `Built` says how the pieces are kept in the
state of an expansion. Which pieces are written does not depend on the budgets nor on which records
are kept, so two expansions of the same input that both succeed write the same pieces (`Agree`).

* `appendOutput_built` — one text;
* `expandTemplate_agree`, `writeReferences_agree` — the recursion;
* `expand_text_tiles` — whole expansions, with all records and with those of `#MM` lines only.
-/

namespace ArosTools

namespace Genmf

/-! ### Pieces -/

/-- A piece of the output and its record. -/
structure Piece where
  text : Text
  span : ExpandedLineProvenance

/-- The text of some pieces. -/
def textOf (pieces : List Piece) : Text := pieces.flatMap Piece.text

/-- The pieces lie one after another from the byte `offset` in the line `line` on; each contains a
newline only at its end. -/
def Tiles : ℕ → ℕ → List Piece → Prop
  | _, _, [] => True
  | offset, line, piece :: pieces =>
    piece.text ≠ [] ∧ '\n' ∉ piece.text.dropLast ∧ piece.span.outputStartByte = offset ∧
      piece.span.outputEndByte = offset + len piece.text ∧ piece.span.outputLine = line ∧
      Tiles (offset + len piece.text) (line + piece.text.count '\n') pieces

/-- The piece begins with a directive. -/
def Piece.isDirective (piece : Piece) : Bool := (lit "#MM").isPrefixOf piece.text

theorem len_append (a b : Text) : len (a ++ b) = len a + len b := by
  simp [len]

theorem textOf_append (a b : List Piece) : textOf (a ++ b) = textOf a ++ textOf b :=
  List.flatMap_append

theorem Tiles.append {a b : List Piece} {offset line : ℕ} (ha : Tiles offset line a)
    (hb : Tiles (offset + len (textOf a)) (line + (textOf a).count '\n') b) :
    Tiles offset line (a ++ b) := by
  induction a generalizing offset line with
  | nil => exact hb
  | cons piece a ih =>
    obtain ⟨hne, hnewline, hstart, hstop, hline, htiles⟩ := ha
    refine ⟨hne, hnewline, hstart, hstop, hline, ih htiles ?_⟩
    have htext : textOf (piece :: a) = piece.text ++ textOf a := rfl
    rw [htext, len_append, List.count_append, ← Nat.add_assoc, ← Nat.add_assoc] at hb
    exact hb

/-! ### Segments -/

/-- A line with its newline, if it has one. -/
def IsSegment (segment : Text) : Prop := segment ≠ [] ∧ '\n' ∉ segment.dropLast

theorem splitInclusive_flatten (text : Text) : (splitInclusive text).flatten = text := by
  induction text with
  | nil => rfl
  | cons c rest ih =>
    rw [splitInclusive]
    by_cases hc : c = '\n'
    · rw [if_pos hc, List.flatten_cons, ih]
      rfl
    · rw [if_neg hc]
      split
      · next hnil =>
        rw [hnil] at ih
        rw [← ih]
        rfl
      · next line lines hcons =>
        rw [hcons] at ih
        rw [← ih]
        rfl

theorem splitInclusive_segments (text : Text) : ∀ segment ∈ splitInclusive text, IsSegment segment := by
  induction text with
  | nil => exact nofun
  | cons c rest ih =>
    rw [splitInclusive]
    by_cases hc : c = '\n'
    · rw [if_pos hc]
      exact List.forall_mem_cons.mpr ⟨⟨by simp, by simp⟩, ih⟩
    · rw [if_neg hc]
      split
      · exact List.forall_mem_cons.mpr ⟨⟨by simp, by simp⟩, nofun⟩
      · next line lines hcons =>
        rw [hcons] at ih
        obtain ⟨⟨hne, hnewline⟩, hlines⟩ := List.forall_mem_cons.mp ih
        refine List.forall_mem_cons.mpr ⟨⟨by simp, ?_⟩, hlines⟩
        -- the line is not empty, so its last character is not the one in front
        rw [List.dropLast_cons_of_ne_nil hne, List.mem_cons, not_or]
        exact ⟨fun h => hc h.symm, hnewline⟩

theorem IsSegment.count {segment : Text} (h : IsSegment segment) :
    segment.count '\n' = if segment.getLast? = some '\n' then 1 else 0 := by
  obtain ⟨init, last, rfl⟩ := (List.eq_nil_or_concat' segment).resolve_left h.1
  have hinit : '\n' ∉ init := by
    have := h.2
    rwa [List.dropLast_concat] at this
  rw [List.count_append, List.count_eq_zero_of_not_mem hinit, List.getLast?_concat]
  by_cases hlast : last = '\n'
  · rw [hlast]
    rfl
  · rw [if_neg (by simpa using hlast), List.count_singleton]
    simpa using hlast

/-- The pieces that segments become, from the byte `start` in the line `line` on. -/
def segmentPieces (origin : LineOrigin) (stack : List MacroExpansionFrame) :
    ℕ → ℕ → ℕ → List Text → List Piece
  | _, _, _, [] => []
  | start, line, lineOffset, segment :: segments =>
    let newlines := if segment.getLast? = some '\n' then 1 else 0
    ⟨segment, segmentProvenance origin stack start line (origin.line.map (· + lineOffset)) segment⟩ ::
      segmentPieces origin stack (start + len segment) (line + newlines) (lineOffset + newlines)
        segments

theorem segmentPieces_text {origin : LineOrigin} {stack : List MacroExpansionFrame}
    {start line lineOffset : ℕ} {segments : List Text} :
    textOf (segmentPieces origin stack start line lineOffset segments) = segments.flatten := by
  induction segments generalizing start line lineOffset with
  | nil => rfl
  | cons segment segments ih =>
    rw [segmentPieces, List.flatten_cons, ← ih]
    rfl

theorem segmentPieces_tiles {origin : LineOrigin} {stack : List MacroExpansionFrame}
    {start line lineOffset : ℕ} {segments : List Text}
    (h : ∀ segment ∈ segments, IsSegment segment) :
    Tiles start line (segmentPieces origin stack start line lineOffset segments) := by
  induction segments generalizing start line lineOffset with
  | nil => trivial
  | cons segment segments ih =>
    obtain ⟨hsegment, hsegments⟩ := List.forall_mem_cons.mp h
    refine ⟨hsegment.1, hsegment.2, rfl, rfl, rfl, ?_⟩
    rw [hsegment.count]
    exact ih hsegments

/-! ### One text -/

variable {platform : Platform} {limits : Limits} {runtime runtime' : ExpansionRuntime}

theorem require_ok {α : Type} {value : Option α} {e : GenmfError} {a : α}
    (h : require value e = .ok a) : value = some a := by
  cases value with
  | none => cases h
  | some b => exact congrArg some (Except.ok.inj h)

/-- The pieces whose records are kept. -/
def kept (metadataOnly : Bool) (pieces : List Piece) : List ExpandedLineProvenance :=
  (pieces.filter fun piece => !metadataOnly || piece.isDirective).map Piece.span

theorem kept_append (metadataOnly : Bool) (a b : List Piece) :
    kept metadataOnly (a ++ b) = kept metadataOnly a ++ kept metadataOnly b := by
  simp [kept]

theorem kept_recorded {segment : Text} {span : ExpandedLineProvenance}
    (h : recorded limits segment = true) :
    kept limits.metadataProvenanceOnly [⟨segment, span⟩] = [span] := by
  have hkept : (!limits.metadataProvenanceOnly || Piece.isDirective ⟨segment, span⟩) = true := h
  simp [kept, hkept]

theorem kept_not_recorded {segment : Text} {span : ExpandedLineProvenance}
    (h : ¬ recorded limits segment = true) :
    kept limits.metadataProvenanceOnly [⟨segment, span⟩] = [] := by
  have hkept : ¬ (!limits.metadataProvenanceOnly || Piece.isDirective ⟨segment, span⟩) = true := h
  simp [kept, hkept]

/-- What recording some pieces does to the state. -/
structure Records (runtime : ExpansionRuntime) (metadataOnly : Bool) (pieces : List Piece)
    (newlines : ℕ) (runtime' : ExpansionRuntime) : Prop where
  sawCommon : runtime'.sawCommon = runtime.sawCommon
  stack : runtime'.stack = runtime.stack
  output : runtime'.output = runtime.output
  provenance : runtime'.provenance = runtime.provenance ++ kept metadataOnly pieces
  outputLine : runtime'.outputLine = runtime.outputLine + newlines

theorem recordSegment_records {origin : LineOrigin} {start : ℕ} {sourceLine : Option ℕ}
    {segment : Text}
    (h : recordSegment platform limits origin start sourceLine segment runtime = .ok runtime') :
    Records runtime limits.metadataProvenanceOnly [⟨segment,
      segmentProvenance origin runtime.stack start runtime.outputLine sourceLine segment⟩] 0
      runtime' := by
  unfold recordSegment at h
  by_cases hrecorded : recorded limits segment = true
  · rw [if_pos hrecorded] at h
    obtain ⟨cost, -, h⟩ := Except.bind_ok h
    obtain ⟨budget, -, ⟨⟩⟩ := Except.bind_ok h
    exact ⟨rfl, rfl, rfl, by rw [kept_recorded hrecorded], rfl⟩
  · rw [if_neg hrecorded] at h
    cases h
    exact ⟨rfl, rfl, rfl, by rw [kept_not_recorded hrecorded, List.append_nil], rfl⟩

theorem appendSegments_records {origin : LineOrigin} {segments : List Text}
    {byteOffset lineOffset : ℕ}
    (h : appendSegments platform limits origin segments byteOffset lineOffset runtime =
      .ok runtime') (hsegments : ∀ segment ∈ segments, IsSegment segment) :
    Records runtime limits.metadataProvenanceOnly (segmentPieces origin runtime.stack
      (len runtime.output + byteOffset) runtime.outputLine lineOffset segments)
      (segments.flatten.count '\n') runtime' := by
  induction segments generalizing byteOffset lineOffset runtime with
  | nil =>
    cases h
    exact ⟨rfl, rfl, rfl, (List.append_nil _).symm, rfl⟩
  | cons segment segments ih =>
    obtain ⟨hsegment, hsegments⟩ := List.forall_mem_cons.mp hsegments
    obtain ⟨_, -, h⟩ := Except.bind_ok h
    obtain ⟨start, hstart, h⟩ := Except.bind_ok h
    obtain ⟨_, -, h⟩ := Except.bind_ok h
    obtain ⟨runtime₁, hrecord, h⟩ := Except.bind_ok h
    obtain ⟨offset, hoffset, h⟩ := Except.bind_ok h
    obtain ⟨hstart, -⟩ := checkedAdd_eq_some.mp (require_ok hstart)
    obtain ⟨hoffset, -⟩ := checkedAdd_eq_some.mp (require_ok hoffset)
    have hfirst := recordSegment_records hrecord
    -- the rest of the segments, one line further if this one ends with a newline
    obtain ⟨newlines, hnewlines, hrest⟩ : ∃ newlines,
        newlines = (if segment.getLast? = some '\n' then 1 else 0) ∧
        Records { runtime₁ with outputLine := runtime₁.outputLine + newlines }
          limits.metadataProvenanceOnly (segmentPieces origin runtime₁.stack
            (len runtime₁.output + offset) (runtime₁.outputLine + newlines)
            (lineOffset + newlines) segments) (segments.flatten.count '\n') runtime' := by
      by_cases hnewline : segment.getLast? = some '\n'
      · rw [if_pos hnewline] at h
        obtain ⟨lineOffset', hlineOffset, h⟩ := Except.bind_ok h
        obtain ⟨outputLine, houtputLine, h⟩ := Except.bind_ok h
        obtain ⟨rfl, -⟩ := checkedAdd_eq_some.mp (require_ok hlineOffset)
        obtain ⟨rfl, -⟩ := checkedAdd_eq_some.mp (require_ok houtputLine)
        exact ⟨1, (if_pos hnewline).symm, ih h hsegments⟩
      · rw [if_neg hnewline] at h
        exact ⟨0, (if_neg hnewline).symm, ih h hsegments⟩
    have hline : runtime₁.outputLine = runtime.outputLine := hfirst.outputLine
    refine ⟨hrest.sawCommon.trans hfirst.sawCommon, hrest.stack.trans hfirst.stack,
      hrest.output.trans hfirst.output, ?_, ?_⟩
    · rw [hrest.provenance, hfirst.provenance, segmentPieces, ← hnewlines, hfirst.stack,
        hfirst.output, hline, hoffset, hstart, Nat.add_assoc, List.append_assoc, ← kept_append,
        List.singleton_append]
    · rw [hrest.outputLine, hline, List.flatten_cons, List.count_append, hsegment.count, ← hnewlines,
        Nat.add_assoc]

/-! ### States -/

/-- The state holds these pieces. -/
structure Built (metadataOnly : Bool) (pieces : List Piece) (runtime : ExpansionRuntime) :
    Prop where
  output : runtime.output = textOf pieces
  tiles : Tiles 0 1 pieces
  outputLine : runtime.outputLine = 1 + (textOf pieces).count '\n'
  provenance : runtime.provenance = kept metadataOnly pieces

/-- **Appending a text appends its segments as pieces.** -/
theorem appendOutput_built {text : Text} {origin : LineOrigin} {pieces : List Piece}
    (hbuilt : Built limits.metadataProvenanceOnly pieces runtime)
    (h : appendOutput platform limits text origin runtime = .ok runtime') :
    Built limits.metadataProvenanceOnly (pieces ++ segmentPieces origin runtime.stack
        (len runtime.output) runtime.outputLine 0 (splitInclusive text)) runtime' ∧
      runtime'.stack = runtime.stack ∧ runtime'.sawCommon = runtime.sawCommon := by
  obtain ⟨_, -, h⟩ := Except.bind_ok h
  obtain ⟨budget, -, h⟩ := Except.bind_ok h
  obtain ⟨runtime₁, hsegments, ⟨⟩⟩ := Except.bind_ok h
  have hrecords := appendSegments_records hsegments (splitInclusive_segments text)
  refine ⟨⟨?_, ?_, ?_, ?_⟩, hrecords.stack, hrecords.sawCommon⟩
  · rw [textOf_append, segmentPieces_text, splitInclusive_flatten, ← hbuilt.output]
    exact congrArg (· ++ text) hrecords.output
  · refine hbuilt.tiles.append ?_
    rw [Nat.zero_add, ← hbuilt.outputLine, ← hbuilt.output]
    exact segmentPieces_tiles (splitInclusive_segments text)
  · rw [textOf_append, segmentPieces_text, List.count_append, ← Nat.add_assoc, ← hbuilt.outputLine]
    exact hrecords.outputLine
  · rw [kept_append, ← hbuilt.provenance]
    exact hrecords.provenance

/-! ### Two expansions -/

variable {bounds : Bounds} {m₁ m₂ : Bool} {s₁ s₂ s₁' s₂' : ExpansionRuntime}

/-- The two states hold the same pieces, whatever records they keep. -/
structure Agree (m₁ m₂ : Bool) (s₁ s₂ : ExpansionRuntime) : Prop where
  pieces : ∃ pieces, Built m₁ pieces s₁ ∧ Built m₂ pieces s₂
  stack : s₁.stack = s₂.stack
  sawCommon : s₁.sawCommon = s₂.sawCommon

theorem Built.output_eq {pieces : List Piece} (h₁ : Built m₁ pieces s₁) (h₂ : Built m₂ pieces s₂) :
    s₁.output = s₂.output := h₁.output.trans h₂.output.symm

theorem Built.outputLine_eq {pieces : List Piece} (h₁ : Built m₁ pieces s₁)
    (h₂ : Built m₂ pieces s₂) : s₁.outputLine = s₂.outputLine :=
  h₁.outputLine.trans h₂.outputLine.symm

/-- What changes neither the output nor its records keeps two states in agreement. -/
theorem Agree.update (h : Agree m₁ m₂ s₁ s₂) {b₁ b₂ : Budget} {stack : List MacroExpansionFrame}
    {sawCommon : Bool} :
    Agree m₁ m₂ ⟨sawCommon, stack, b₁, s₁.provenance, s₁.outputLine, s₁.output⟩
      ⟨sawCommon, stack, b₂, s₂.provenance, s₂.outputLine, s₂.output⟩ := by
  obtain ⟨pieces, h₁, h₂⟩ := h.pieces
  exact ⟨⟨pieces, ⟨h₁.output, h₁.tiles, h₁.outputLine, h₁.provenance⟩,
    ⟨h₂.output, h₂.tiles, h₂.outputLine, h₂.provenance⟩⟩, rfl, rfl⟩

theorem appendOutput_agree {text : Text} {origin : LineOrigin} (h : Agree m₁ m₂ s₁ s₂)
    (h₁ : appendOutput platform ⟨bounds, m₁⟩ text origin s₁ = .ok s₁')
    (h₂ : appendOutput platform ⟨bounds, m₂⟩ text origin s₂ = .ok s₂') : Agree m₁ m₂ s₁' s₂' := by
  obtain ⟨pieces, hbuilt₁, hbuilt₂⟩ := h.pieces
  obtain ⟨hnew₁, hstack₁, hcommon₁⟩ := appendOutput_built hbuilt₁ h₁
  obtain ⟨hnew₂, hstack₂, hcommon₂⟩ := appendOutput_built hbuilt₂ h₂
  rw [h.stack, hbuilt₁.output_eq hbuilt₂, hbuilt₁.outputLine_eq hbuilt₂] at hnew₁
  refine ⟨⟨_, hnew₁, hnew₂⟩, ?_, ?_⟩
  · rw [hstack₁, hstack₂, h.stack]
  · rw [hcommon₁, hcommon₂, h.sawCommon]

theorem appendLines_agree {origin : Origin} {lines : List (Text × ℕ)} (h : Agree m₁ m₂ s₁ s₂)
    (h₁ : appendLines platform ⟨bounds, m₁⟩ origin lines s₁ = .ok s₁')
    (h₂ : appendLines platform ⟨bounds, m₂⟩ origin lines s₂ = .ok s₂') :
    Agree m₁ m₂ s₁' s₂' := by
  induction lines generalizing s₁ s₂ with
  | nil =>
    cases h₁
    cases h₂
    exact h
  | cons line lines ih =>
    obtain ⟨line, index⟩ := line
    obtain ⟨number₁, hnumber₁, h₁⟩ := Except.bind_ok h₁
    obtain ⟨number₂, hnumber₂, h₂⟩ := Except.bind_ok h₂
    rw [hnumber₁] at hnumber₂
    cases hnumber₂
    obtain ⟨t₁, ht₁, h₁⟩ := Except.bind_ok h₁
    obtain ⟨t₂, ht₂, h₂⟩ := Except.bind_ok h₂
    exact ih (appendOutput_agree h ht₁ ht₂) h₁ h₂

/-- A call that is read twice is the same. -/
theorem joinCall_agree {origin : Origin} {callStartLine : ℕ} {rest : List Text} {call : Text}
    {b₁ b₂ : Budget} {r₁ r₂ : Text × ℕ × Budget}
    (h₁ : joinCall bounds origin callStartLine rest call b₁ = .ok r₁)
    (h₂ : joinCall bounds origin callStartLine rest call b₂ = .ok r₂) :
    r₁.1 = r₂.1 ∧ r₁.2.1 = r₂.2.1 := by
  induction rest generalizing call b₁ b₂ r₁ r₂ with
  | nil =>
    cases h₁
    cases h₂
    exact ⟨rfl, rfl⟩
  | cons next rest ih =>
    rw [joinCall] at h₁ h₂
    by_cases hcontinued : hasGenmfContinuation call = true
    · rw [if_pos hcontinued] at h₁ h₂
      obtain ⟨_, -, h₁⟩ := Except.bind_ok h₁
      obtain ⟨_, -, h₂⟩ := Except.bind_ok h₂
      obtain ⟨_, -, h₁⟩ := Except.bind_ok h₁
      obtain ⟨_, -, h₂⟩ := Except.bind_ok h₂
      obtain ⟨_, -, h₁⟩ := Except.bind_ok h₁
      obtain ⟨_, -, h₂⟩ := Except.bind_ok h₂
      obtain ⟨⟨call₁, count₁, budget₁⟩, hcall₁, ⟨⟩⟩ := Except.bind_ok h₁
      obtain ⟨⟨call₂, count₂, budget₂⟩, hcall₂, ⟨⟩⟩ := Except.bind_ok h₂
      obtain ⟨hcall, hcount⟩ := ih hcall₁ hcall₂
      exact ⟨hcall, congrArg (· + 1) hcount⟩
    · rw [if_neg hcontinued] at h₁ h₂
      cases h₁
      cases h₂
      exact ⟨rfl, rfl⟩

/-- A line that is substituted twice is the same. -/
theorem substituteArguments_agree {line : Text} {template : Template}
    {values : BTreeMap Text (Option Text)} {b₁ b₂ : Budget} {r₁ r₂ : Text × Budget}
    (h₁ : substituteArguments bounds line template values b₁ = .ok r₁)
    (h₂ : substituteArguments bounds line template values b₂ = .ok r₂) : r₁.1 = r₂.1 := by
  obtain ⟨_, -, h₁⟩ := Except.bind_ok h₁
  obtain ⟨_, -, h₂⟩ := Except.bind_ok h₂
  cases hreferences : findArgumentReferences line template.arguments with
  | nil =>
    rw [hreferences] at h₁ h₂
    cases h₁
    cases h₂
    rfl
  | cons reference references =>
    rw [hreferences] at h₁ h₂
    obtain ⟨output₁, houtput₁, h₁⟩ := Except.bind_ok h₁
    obtain ⟨output₂, houtput₂, h₂⟩ := Except.bind_ok h₂
    obtain ⟨_, -, ⟨⟩⟩ := Except.bind_ok h₁
    obtain ⟨_, -, ⟨⟩⟩ := Except.bind_ok h₂
    rw [houtput₁] at houtput₂
    exact Except.ok.inj houtput₂

theorem substituteBody_agree {template : Template} {values : BTreeMap Text (Option Text)}
    {lines : List Text} {bytes : ℕ} {b₁ b₂ : Budget} {r₁ r₂ : List Text × Budget}
    (h₁ : substituteBody bounds template values lines bytes b₁ = .ok r₁)
    (h₂ : substituteBody bounds template values lines bytes b₂ = .ok r₂) : r₁.1 = r₂.1 := by
  induction lines generalizing bytes b₁ b₂ r₁ r₂ with
  | nil =>
    cases h₁
    cases h₂
    rfl
  | cons line lines ih =>
    obtain ⟨⟨value₁, budget₁⟩, hvalue₁, h₁⟩ := Except.bind_ok h₁
    obtain ⟨⟨value₂, budget₂⟩, hvalue₂, h₂⟩ := Except.bind_ok h₂
    obtain ⟨next₁, hnext₁, h₁⟩ := Except.bind_ok h₁
    obtain ⟨next₂, hnext₂, h₂⟩ := Except.bind_ok h₂
    obtain ⟨_, -, h₁⟩ := Except.bind_ok h₁
    obtain ⟨_, -, h₂⟩ := Except.bind_ok h₂
    obtain ⟨⟨values₁, budget₁'⟩, hvalues₁, ⟨⟩⟩ := Except.bind_ok h₁
    obtain ⟨⟨values₂, budget₂'⟩, hvalues₂, ⟨⟩⟩ := Except.bind_ok h₂
    have hvalue : value₁ = value₂ := substituteArguments_agree hvalue₁ hvalue₂
    subst hvalue
    rw [hnext₁] at hnext₂
    cases hnext₂
    exact congrArg (value₁ :: ·) (ih hvalues₁ hvalues₂)

/-- Two ways to expand a call keep two states in agreement. -/
def ExpandsAlike (m₁ m₂ : Bool)
    (expand₁ expand₂ : Text → Text → Option SourceLineLocation → ExpansionRuntime →
      Expansion ExpansionRuntime) : Prop :=
  ∀ name argumentText invocation s₁ s₂ s₁' s₂', Agree m₁ m₂ s₁ s₂ →
    expand₁ name argumentText invocation s₁ = .ok s₁' →
    expand₂ name argumentText invocation s₂ = .ok s₂' → Agree m₁ m₂ s₁' s₂'

/-- **Writing lines with their calls keeps two states in agreement.** -/
theorem writeReferences_agree
    {expand₁ expand₂ : Text → Text → Option SourceLineLocation → ExpansionRuntime →
      Expansion ExpansionRuntime} (hexpand : ExpandsAlike m₁ m₂ expand₁ expand₂)
    {origin : Origin} {lines : List Text} {references : List TemplateReference} {start : ℕ}
    (h : Agree m₁ m₂ s₁ s₂)
    (h₁ : writeReferences platform ⟨bounds, m₁⟩ expand₁ origin lines references start s₁ = .ok s₁')
    (h₂ : writeReferences platform ⟨bounds, m₂⟩ expand₂ origin lines references start s₂ =
      .ok s₂') : Agree m₁ m₂ s₁' s₂' := by
  induction references generalizing start s₁ s₂ with
  | nil => exact appendLines_agree h h₁ h₂
  | cons reference references ih =>
    obtain ⟨t₁, ht₁, h₁⟩ := Except.bind_ok h₁
    obtain ⟨t₂, ht₂, h₂⟩ := Except.bind_ok h₂
    have hlines := appendLines_agree h ht₁ ht₂
    obtain ⟨_, -, h₁⟩ := Except.bind_ok h₁
    obtain ⟨_, -, h₂⟩ := Except.bind_ok h₂
    obtain ⟨number₁, hnumber₁, h₁⟩ := Except.bind_ok h₁
    obtain ⟨number₂, hnumber₂, h₂⟩ := Except.bind_ok h₂
    rw [hnumber₁] at hnumber₂
    cases hnumber₂
    obtain ⟨⟨call₁, count₁, budget₁⟩, hcall₁, h₁⟩ := Except.bind_ok h₁
    obtain ⟨⟨call₂, count₂, budget₂⟩, hcall₂, h₂⟩ := Except.bind_ok h₂
    -- the call is the same in both, so both expand the same template with the same arguments
    obtain ⟨hcall, hcount⟩ := joinCall_agree hcall₁ hcall₂
    dsimp only at hcall hcount
    subst hcall hcount
    obtain ⟨u₁, hu₁, h₁⟩ := Except.bind_ok h₁
    obtain ⟨u₂, hu₂, h₂⟩ := Except.bind_ok h₂
    refine ih ?_ h₁ h₂
    refine hexpand _ _ _ _ _ _ _ ?_ (mapError_ok hu₁) (mapError_ok hu₂)
    rw [hlines.stack, hlines.sawCommon]
    exact hlines.update

/-- **Expanding a call keeps two states in agreement.** -/
theorem expandTemplate_agree {templates : Templates} (depth : ℕ) :
    ExpandsAlike m₁ m₂ (expandTemplate platform ⟨bounds, m₁⟩ templates depth)
      (expandTemplate platform ⟨bounds, m₂⟩ templates depth) := by
  -- the recursion is on the depth that is left
  induction depth with
  | zero =>
    intro name argumentText invocation s₁ s₂ s₁' s₂' h h₁ h₂
    obtain ⟨_, -, h₁⟩ := Except.bind_ok h₁
    obtain ⟨_, -, h₁⟩ := Except.bind_ok h₁
    cases h₁
  | succ depth ih =>
    intro name argumentText invocation s₁ s₂ s₁' s₂' h h₁ h₂
    obtain ⟨template, htemplate₁, h₁⟩ := Except.bind_ok h₁
    obtain ⟨template₂, htemplate₂, h₂⟩ := Except.bind_ok h₂
    rw [htemplate₁] at htemplate₂
    cases htemplate₂
    obtain ⟨_, -, h₁⟩ := Except.bind_ok h₁
    obtain ⟨_, -, h₂⟩ := Except.bind_ok h₂
    obtain ⟨_, -, h₁⟩ := Except.bind_ok h₁
    obtain ⟨_, -, h₂⟩ := Except.bind_ok h₂
    obtain ⟨values, hvalues₁, h₁⟩ := Except.bind_ok h₁
    obtain ⟨values₂, hvalues₂, h₂⟩ := Except.bind_ok h₂
    rw [hvalues₁] at hvalues₂
    cases hvalues₂
    obtain ⟨_, -, h₁⟩ := Except.bind_ok h₁
    obtain ⟨_, -, h₂⟩ := Except.bind_ok h₂
    obtain ⟨_, -, h₁⟩ := Except.bind_ok h₁
    obtain ⟨_, -, h₂⟩ := Except.bind_ok h₂
    obtain ⟨⟨lines, budget₁⟩, hlines₁, h₁⟩ := Except.bind_ok h₁
    obtain ⟨⟨lines₂, budget₂⟩, hlines₂, h₂⟩ := Except.bind_ok h₂
    have hlines : lines = lines₂ := substituteBody_agree hlines₁ hlines₂
    subst hlines
    obtain ⟨t₁, ht₁, ⟨⟩⟩ := Except.bind_ok h₁
    obtain ⟨t₂, ht₂, ⟨⟩⟩ := Except.bind_ok h₂
    have hbody : Agree m₁ m₂ t₁ t₂ := by
      refine writeReferences_agree ih ?_ ht₁ ht₂
      rw [h.stack, h.sawCommon]
      exact h.update
    rw [hbody.stack, hbody.sawCommon]
    exact hbody.update

theorem appendCommon_agree {templates : Templates} (h : Agree m₁ m₂ s₁ s₂)
    (h₁ : appendCommon platform ⟨bounds, m₁⟩ templates s₁ = .ok s₁')
    (h₂ : appendCommon platform ⟨bounds, m₂⟩ templates s₂ = .ok s₂') : Agree m₁ m₂ s₁' s₂' := by
  unfold appendCommon at h₁ h₂
  rw [← h.sawCommon] at h₂
  by_cases hcommon : s₁.sawCommon = true
  · rw [if_pos hcommon] at h₁ h₂
    cases h₁
    cases h₂
    exact h
  · rw [if_neg hcommon] at h₁ h₂
    obtain ⟨t₁, ht₁, h₁⟩ := Except.bind_ok h₁
    obtain ⟨t₂, ht₂, h₂⟩ := Except.bind_ok h₂
    have happend := appendOutput_agree h ht₁ ht₂
    by_cases htemplate : (templates.get (lit "common")).isSome = true
    · rw [if_pos htemplate] at h₁ h₂
      exact expandTemplate_agree _ _ _ _ _ _ _ _ happend h₁ h₂
    · rw [if_neg htemplate] at h₁ h₂
      cases h₁
      cases h₂
      exact happend

/-! ### Whole expansions -/

/-- Two expansions of the same input write the same pieces. -/
theorem expandText_agree {source : Text} {sourceFile templateFile : FilePath}
    {expanded₁ expanded₂ : ExpandedText}
    (h₁ : expandText platform ⟨bounds, m₁⟩ source sourceFile templateFile = .ok expanded₁)
    (h₂ : expandText platform ⟨bounds, m₂⟩ source sourceFile templateFile = .ok expanded₂) :
    ∃ pieces, Tiles 0 1 pieces ∧ expanded₁.text = textOf pieces ∧ expanded₂.text = textOf pieces ∧
      expanded₁.provenance = kept m₁ pieces ∧ expanded₂.provenance = kept m₂ pieces := by
  obtain ⟨_, -, h₁⟩ := Except.bind_ok h₁
  obtain ⟨_, -, h₂⟩ := Except.bind_ok h₂
  obtain ⟨_, -, h₁⟩ := Except.bind_ok h₁
  obtain ⟨_, -, h₂⟩ := Except.bind_ok h₂
  obtain ⟨canonical, hcanonical₁, h₁⟩ := Except.bind_ok h₁
  obtain ⟨canonical₂, hcanonical₂, h₂⟩ := Except.bind_ok h₂
  rw [hcanonical₁] at hcanonical₂
  cases hcanonical₂
  obtain ⟨loader, hloader₁, h₁⟩ := Except.bind_ok h₁
  obtain ⟨loader₂, hloader₂, h₂⟩ := Except.bind_ok h₂
  rw [hloader₁] at hloader₂
  cases hloader₂
  obtain ⟨s₁, hs₁, h₁⟩ := Except.bind_ok h₁
  obtain ⟨s₂, hs₂, h₂⟩ := Except.bind_ok h₂
  obtain ⟨t₁, ht₁, ⟨⟩⟩ := Except.bind_ok h₁
  obtain ⟨t₂, ht₂, ⟨⟩⟩ := Except.bind_ok h₂
  have hstart : Agree m₁ m₂ ⟨false, [], loader.budget, [], 1, []⟩
      ⟨false, [], loader.budget, [], 1, []⟩ :=
    ⟨⟨[], ⟨rfl, trivial, rfl, rfl⟩, ⟨rfl, trivial, rfl, rfl⟩⟩, rfl, rfl⟩
  have hlines := writeReferences_agree (expandTemplate_agree bounds.maxMacroDepth) hstart hs₁ hs₂
  obtain ⟨pieces, hbuilt₁, hbuilt₂⟩ := (appendCommon_agree hlines ht₁ ht₂).pieces
  exact ⟨pieces, hbuilt₁.tiles, hbuilt₁.output, hbuilt₂.output, hbuilt₁.provenance,
    hbuilt₂.provenance⟩

/-- **The provenance of an expansion tiles its text.** With all records kept, they are those of
pieces that make up the text, lie one after another from byte 0 in line 1 on and contain a newline
only at their end. An expansion of the same input that keeps the records of directives only gives,
if it succeeds, the same text and of those records exactly the ones whose piece begins with `#MM`. -/
theorem expand_text_tiles {source : Text} {sourceFile templateFile : FilePath}
    {expanded : ExpandedText}
    (h : expandText platform ⟨bounds, false⟩ source sourceFile templateFile = .ok expanded) :
    ∃ pieces, expanded.text = textOf pieces ∧ expanded.provenance = pieces.map Piece.span ∧
      Tiles 0 1 pieces ∧
      ∀ metadata, expandText platform ⟨bounds, true⟩ source sourceFile templateFile = .ok metadata →
        metadata.text = expanded.text ∧
        metadata.provenance = (pieces.filter Piece.isDirective).map Piece.span := by
  have hall : ∀ pieces : List Piece, kept false pieces = pieces.map Piece.span := by
    intro pieces
    simp [kept]
  cases hmetadata : expandText platform ⟨bounds, true⟩ source sourceFile templateFile with
  | error e =>
    -- nothing to compare with: the pieces of the expansion itself
    obtain ⟨pieces, htiles, htext, -, hprovenance, -⟩ := expandText_agree h h
    exact ⟨pieces, htext, hprovenance.trans (hall pieces), htiles, nofun⟩
  | ok metadata =>
    obtain ⟨pieces, htiles, htext, htext', hprovenance, hprovenance'⟩ :=
      expandText_agree h hmetadata
    refine ⟨pieces, htext, hprovenance.trans (hall pieces), htiles, fun metadata' heq => ?_⟩
    cases heq
    exact ⟨htext'.trans htext.symm, hprovenance'⟩

/-- A platform with one template file. -/
def demoPlatform : Platform where
  canonical path := .ok path
  read _ _ := .ok (ascii "%define lib name=/A\n#MM lib-%(name)\nall:\n%end\n")
  provenanceSize := 160
  locationSize := 32
  frameSize := 136

/-- `Limits::default`. -/
def defaultBounds : Bounds where
  maxSourceBytes := 1024 * 1024
  maxTemplateBytes := 8 * 1024 * 1024
  maxTemplateFiles := 256
  maxDefinitions := 16384
  maxLines := 65536
  maxOutputBytes := 16 * 1024 * 1024
  maxWorkBytes := 64 * 1024 * 1024
  maxIncludeDepth := 32
  maxMacroDepth := 32

/-- A source with a call and a last line without a newline. -/
def demoExpansion (metadataOnly : Bool) : Expansion ExpandedText :=
  expandText demoPlatform ⟨defaultBounds, metadataOnly⟩ (lit "%lib name=a\n#MM b") (ascii "/s")
    (ascii "/t/m")

theorem expand_text_tiles_demo : ∃ expanded metadata pieces,
    demoExpansion false = .ok expanded ∧ demoExpansion true = .ok metadata ∧
      expanded.text = lit "#MM lib-a\nall:\n#MM b\n" ∧ expanded.text = textOf pieces ∧
      expanded.provenance = pieces.map Piece.span ∧ Tiles 0 1 pieces ∧
      metadata.provenance = (pieces.filter Piece.isDirective).map Piece.span := by
  have htext : (demoExpansion false).toOption.map ExpandedText.text =
      some (lit "#MM lib-a\nall:\n#MM b\n") := by decide +kernel
  obtain ⟨metadata, hmetadata⟩ := Except.exists_of_isOk (x := demoExpansion true)
    (by decide +kernel)
  cases hexpanded : demoExpansion false with
  | error e =>
    rw [hexpanded] at htext
    cases htext
  | ok expanded =>
    rw [hexpanded] at htext
    obtain ⟨pieces, hpieces, hprovenance, htiles, hsame⟩ := expand_text_tiles hexpanded
    exact ⟨expanded, metadata, pieces, rfl, hmetadata, Option.some.inj htext, hpieces, hprovenance,
      htiles, (hsame metadata hmetadata).2⟩

end Genmf

end ArosTools
