import ArosTools.Program.Text

/-!
# Linker response files

`parseResponse` reads the arguments of a response file. A backslash takes the next character as it
is, also between quotes; single and double quotes keep whitespace in an argument; and whitespace
separates the arguments.

A text is a sequence of `Element`s, whitespace characters and pieces of arguments, with an
unfinished piece at its end at most. Each piece carries that it is one.

* `exists_elements` : every text is such a sequence.
* `parse_elements` : what the reader makes of one.
* `response_file_inverts` : **every way of writing a list of arguments is read back**, and the
  reader fails exactly on the texts that leave a quote or an escape open.
-/

namespace ArosTools

namespace ResponseFile

open Str

/-- The variables of `parse_response`. -/
structure Reader where
  arguments : List Text := []
  token : Text := []
  quote : Option Char := none
  escaped : Bool := false
  started : Bool := false
  deriving DecidableEq, Repr

/-- One round of `parse_response`. -/
def Reader.step (s : Reader) (character : Char) : Reader :=
  if s.escaped then
    { s with token := s.token ++ [character], escaped := false, started := true }
  else if character = '\\' then { s with escaped := true, started := true }
  else
    match s.quote with
    | some expected =>
      if character = expected then { s with quote := none, started := true }
      else { s with token := s.token ++ [character], started := true }
    | none =>
      if character = '\x27' ∨ character = '\x22' then
        { s with quote := some character, started := true }
      else if isWhitespace character then
        if s.started then
          { s with arguments := s.arguments ++ [s.token], token := [], started := false }
        else s
      else { s with token := s.token ++ [character], started := true }

/-- `parse_response`. -/
def parseResponse (body : Text) : Except String (List Text) :=
  let s := body.foldl Reader.step {}
  if s.escaped ∨ s.quote.isSome then
    .error "unterminated escape or quote in linker response file"
  else if s.started then .ok (s.arguments ++ [s.token])
  else .ok s.arguments

/-! ### Ways of writing an argument -/

/-- The two quotes. -/
inductive Quote where
  | single
  | double
  deriving DecidableEq, Repr

/-- The character of a quote. -/
def Quote.char : Quote → Char
  | .single => '\x27'
  | .double => '\x22'

/-- A character between quotes. -/
inductive Item (quote : Quote) where
  | plain (c : Char) (h : c ≠ quote.char ∧ c ≠ '\\')
  | escape (c : Char)

/-- A character that stands for itself outside of quotes. -/
def Ordinary (c : Char) : Prop :=
  c ≠ '\\' ∧ c ≠ '\x27' ∧ c ≠ '\x22' ∧ isWhitespace c = false

/-- A piece of an argument. -/
inductive Piece where
  | plain (c : Char) (h : Ordinary c)
  | escape (c : Char)
  | quoted (quote : Quote) (items : List (Item quote))

namespace Item

variable {quote : Quote}

/-- How an item is written. -/
def text : Item quote → Text
  | plain c _ => [c]
  | escape c => ['\\', c]

/-- What an item stands for. -/
def denotes : Item quote → Char
  | plain c _ => c
  | escape c => c

end Item

namespace Piece

/-- How a piece is written. -/
def text : Piece → Text
  | plain c _ => [c]
  | escape c => ['\\', c]
  | quoted quote items => quote.char :: items.flatMap Item.text ++ [quote.char]

/-- What a piece stands for. -/
def denotes : Piece → Text
  | plain c _ => [c]
  | escape c => [c]
  | quoted _ items => items.map Item.denotes

end Piece

/-- A piece that is not finished: an escape without its character, or a quote that is open, possibly
with such an escape in it. -/
inductive Unfinished : Text → Prop
  | escape : Unfinished ['\\']
  | quote (quote : Quote) (items : List (Item quote)) :
      Unfinished (quote.char :: items.flatMap Item.text)
  | escapeInQuote (quote : Quote) (items : List (Item quote)) :
      Unfinished (quote.char :: items.flatMap Item.text ++ ['\\'])

/-- A part of a text. -/
inductive Element where
  | blank (c : Char) (h : isWhitespace c = true)
  | piece (p : Piece)

/-- How an element is written. -/
def Element.text : Element → Text
  | blank c _ => [c]
  | piece p => p.text

/-! ### What the reader makes of them -/

/-- The reader between two elements. -/
structure Reader.Between (s : Reader) : Prop where
  quote : s.quote = none
  escaped : s.escaped = false

theorem Quote.char_ne (quote : Quote) : quote.char ≠ '\\' := by cases quote <;> decide

theorem Quote.char_cases (quote : Quote) : quote.char = '\x27' ∨ quote.char = '\x22' := by
  cases quote <;> decide

theorem foldl_items {quote : Quote} (items : List (Item quote)) {s : Reader}
    (hquote : s.quote = some quote.char) (hescaped : s.escaped = false)
    (hstarted : s.started = true) :
    (items.flatMap Item.text).foldl Reader.step s =
      { s with token := s.token ++ items.map Item.denotes } := by
  induction items generalizing s with
  | nil => simp
  | cons item items ih =>
    have hitem : item.text.foldl Reader.step s =
        { s with token := s.token ++ [item.denotes] } := by
      cases item with
      | plain c h => simp [Item.text, Item.denotes, Reader.step, hescaped, hquote, h.1, h.2, hstarted]
      | escape c => simp [Item.text, Item.denotes, Reader.step, hescaped, hstarted]
    have hrest := @ih { s with token := s.token ++ [item.denotes] } hquote hescaped hstarted
    rw [List.flatMap_cons, List.foldl_append, hitem, hrest]
    simp

/-- A quote that is opened. -/
theorem step_quote {s : Reader} (h : s.Between) (quote : Quote) :
    s.step quote.char = { s with quote := some quote.char, started := true } := by
  simp [Reader.step, h.quote, h.escaped, quote.char_ne, quote.char_cases]

theorem foldl_piece {s : Reader} (h : s.Between) (p : Piece) :
    p.text.foldl Reader.step s = { s with token := s.token ++ p.denotes, started := true } := by
  cases p with
  | plain c hc =>
    obtain ⟨h₁, h₂, h₃, h₄⟩ := hc
    simp [Piece.text, Piece.denotes, Reader.step, h.quote, h.escaped, h₁, h₂, h₃, h₄]
  | escape c => simp [Piece.text, Piece.denotes, Reader.step, h.escaped]
  | quoted quote items =>
    have hitems := @foldl_items quote items { s with quote := some quote.char, started := true } rfl
      h.escaped rfl
    rw [Piece.text, List.cons_append, List.foldl_cons, step_quote h, List.foldl_append, hitems]
    simp [Reader.step, Piece.denotes, h.quote, h.escaped, quote.char_ne]

/-- An element, as the reader takes it. -/
def Reader.read (s : Reader) : Element → Reader
  | .blank _ _ =>
    if s.started then { s with arguments := s.arguments ++ [s.token], token := [], started := false }
    else s
  | .piece p => { s with token := s.token ++ p.denotes, started := true }

theorem foldl_element {s : Reader} (h : s.Between) (e : Element) :
    e.text.foldl Reader.step s = s.read e ∧ (s.read e).Between := by
  cases e with
  | blank c hc =>
    have hne : c ≠ '\\' ∧ c ≠ '\x27' ∧ c ≠ '\x22' := by
      refine ⟨?_, ?_, ?_⟩ <;> rintro rfl <;> exact absurd hc (by decide)
    constructor
    · simp [Element.text, Reader.step, Reader.read, h.quote, h.escaped, hne, hc]
    · unfold Reader.read
      dsimp only
      split_ifs
      · exact ⟨h.quote, h.escaped⟩
      · exact h
  | piece p => exact ⟨foldl_piece h p, h.quote, h.escaped⟩

/-- **A sequence of elements.** -/
theorem parse_elements {s : Reader} (h : s.Between) (elements : List Element) :
    (elements.flatMap Element.text).foldl Reader.step s = elements.foldl Reader.read s ∧
      (elements.foldl Reader.read s).Between := by
  induction elements generalizing s with
  | nil => exact ⟨rfl, h⟩
  | cons e elements ih =>
    obtain ⟨hread, hbetween⟩ := foldl_element h e
    rw [List.flatMap_cons, List.foldl_append, hread]
    exact ih hbetween

/-- An unfinished piece leaves the reader in an escape or a quote. -/
theorem foldl_unfinished {s : Reader} (h : s.Between) {tail : Text} (htail : Unfinished tail) :
    (tail.foldl Reader.step s).escaped = true ∨ (tail.foldl Reader.step s).quote.isSome = true := by
  cases htail with
  | escape =>
    refine .inl ?_
    simp [Reader.step, h.escaped]
  | quote quote items =>
    refine .inr ?_
    have hitems := @foldl_items quote items { s with quote := some quote.char, started := true } rfl
      h.escaped rfl
    rw [List.foldl_cons, step_quote h, hitems]
    rfl
  | escapeInQuote quote items =>
    refine .inl ?_
    have hitems := @foldl_items quote items { s with quote := some quote.char, started := true } rfl
      h.escaped rfl
    rw [List.cons_append, List.foldl_cons, step_quote h, List.foldl_append, hitems]
    simp [Reader.step, h.escaped]

/-! ### Every text -/

/-- The text behind an opening quote. -/
theorem exists_items (quote : Quote) (text : Text) :
    ∃ items : List (Item quote), (∃ rest, text = items.flatMap Item.text ++ quote.char :: rest) ∨
      text = items.flatMap Item.text ∨ text = items.flatMap Item.text ++ ['\\'] := by
  induction hn : text.length using Nat.strong_induction_on generalizing text with
  | _ n ih =>
    subst hn
    match text with
    | [] => exact ⟨[], .inr (.inl rfl)⟩
    | c :: rest =>
      have hcons : ∀ item : Item quote, ∀ rest', c :: rest = item.text ++ rest' →
          ∃ items : List (Item quote),
            (∃ rest'', c :: rest = items.flatMap Item.text ++ quote.char :: rest'') ∨
              c :: rest = items.flatMap Item.text ∨
                c :: rest = items.flatMap Item.text ++ ['\\'] := by
        intro item rest' heq
        have hlength : rest'.length < (c :: rest).length := by
          have hpos : 0 < item.text.length := by cases item <;> simp [Item.text]
          rw [heq, List.length_append]
          omega
        obtain ⟨items, hitems⟩ := ih _ hlength rest' rfl
        refine ⟨item :: items, ?_⟩
        rw [heq, List.flatMap_cons]
        rcases hitems with ⟨rest'', rfl⟩ | rfl | rfl
        · exact .inl ⟨rest'', by rw [List.append_assoc]⟩
        · exact .inr (.inl rfl)
        · exact .inr (.inr (by rw [List.append_assoc]))
      by_cases hquote : c = quote.char
      · exact ⟨[], .inl ⟨rest, by rw [hquote]; rfl⟩⟩
      by_cases hescape : c = '\\'
      · subst hescape
        match rest with
        | [] => exact ⟨[], .inr (.inr rfl)⟩
        | d :: rest => exact hcons (.escape d) rest rfl
      · exact hcons (.plain c ⟨hquote, hescape⟩) rest rfl

/-- **Every text is a sequence of elements, with an unfinished piece at its end at most.** -/
theorem exists_elements (text : Text) : ∃ (elements : List Element) (tail : Text),
    text = elements.flatMap Element.text ++ tail ∧ (tail = [] ∨ Unfinished tail) := by
  induction hn : text.length using Nat.strong_induction_on generalizing text with
  | _ n ih =>
    subst hn
    match text with
    | [] => exact ⟨[], [], rfl, .inl rfl⟩
    | c :: rest =>
      have hcons : ∀ e : Element, ∀ rest', c :: rest = e.text ++ rest' →
          ∃ (elements : List Element) (tail : Text),
            c :: rest = elements.flatMap Element.text ++ tail ∧ (tail = [] ∨ Unfinished tail) := by
        intro e rest' heq
        have hlength : rest'.length < (c :: rest).length := by
          have hpos : 0 < e.text.length := by
            rcases e with _ | p
            · simp [Element.text]
            · cases p <;> simp [Element.text, Piece.text]
          rw [heq, List.length_append]
          omega
        obtain ⟨elements, tail, rfl, htail⟩ := ih _ hlength rest' rfl
        exact ⟨e :: elements, tail, by rw [heq, List.flatMap_cons, List.append_assoc], htail⟩
      by_cases hescape : c = '\\'
      · subst hescape
        match rest with
        | [] => exact ⟨[], _, rfl, .inr .escape⟩
        | d :: rest => exact hcons (.piece (.escape d)) rest rfl
      by_cases hquote : ∃ quote : Quote, c = quote.char
      · obtain ⟨quote, rfl⟩ := hquote
        obtain ⟨items, ⟨rest', rfl⟩ | rfl | rfl⟩ := exists_items quote rest
        · refine hcons (.piece (.quoted quote items)) rest' ?_
          simp [Element.text, Piece.text]
        · exact ⟨[], _, rfl, .inr (.quote quote items)⟩
        · exact ⟨[], _, rfl, .inr (.escapeInQuote quote items)⟩
      · cases hblank : isWhitespace c with
        | true => exact hcons (.blank c hblank) rest rfl
        | false =>
          refine hcons (.piece (.plain c ⟨hescape, ?_, ?_, hblank⟩)) rest rfl
          · exact fun h => hquote ⟨.single, h⟩
          · exact fun h => hquote ⟨.double, h⟩

/-! ### Lists of arguments -/

/-- An argument as it is written; the empty one needs a pair of quotes. -/
structure Written where
  pieces : List Piece
  nonempty : pieces ≠ []

namespace Written

/-- How the argument is written. -/
def text (w : Written) : Text := w.pieces.flatMap Piece.text

/-- The argument. -/
def denotes (w : Written) : Text := w.pieces.flatMap Piece.denotes

end Written

/-- The arguments that a reader has when the text ends. -/
def Reader.result (s : Reader) : List Text :=
  if s.started then s.arguments ++ [s.token] else s.arguments

theorem parseResponse_of_between {body : Text} {s : Reader}
    (h : body.foldl Reader.step {} = s) (hs : s.Between) : parseResponse body = .ok s.result := by
  unfold parseResponse Reader.result
  rw [h]
  simp only [hs.quote, hs.escaped, Option.isSome_none, Bool.false_eq_true, or_self, if_false]
  split_ifs <;> rfl

theorem foldl_pieces (pieces : List Piece) {s : Reader} (h : s.Between) (hne : pieces ≠ []) :
    (pieces.flatMap Piece.text).foldl Reader.step s =
      { s with token := s.token ++ pieces.flatMap Piece.denotes, started := true } := by
  induction pieces generalizing s with
  | nil => exact absurd rfl hne
  | cons p pieces ih =>
    rw [List.flatMap_cons, List.foldl_append, foldl_piece h]
    cases pieces with
    | nil => simp
    | cons q pieces =>
      have hrest := @ih { s with token := s.token ++ p.denotes, started := true }
        ⟨h.quote, h.escaped⟩ (by simp)
      rw [hrest]
      simp

theorem step_blank {s : Reader} {c : Char} (h : s.Between) (hc : isWhitespace c = true) :
    s.step c = s.read (.blank c hc) := (foldl_element h (.blank c hc)).1

/-- Whitespace while no argument is begun. -/
theorem foldl_blank {gap : Text} {s : Reader} (h : s.Between) (hstarted : s.started = false)
    (hgap : ∀ c ∈ gap, isWhitespace c = true) : gap.foldl Reader.step s = s := by
  induction gap with
  | nil => rfl
  | cons c gap ih =>
    have hc : s.step c = s := by
      rw [step_blank h (hgap c (by simp)), Reader.read, hstarted]
      rfl
    rw [List.foldl_cons, hc]
    exact ih fun d hd => hgap d (List.mem_cons_of_mem c hd)

/-- Whitespace after an argument. -/
theorem foldl_gap {gap : Text} {s : Reader} (h : s.Between) (hstarted : s.started = true)
    (hgap : ∀ c ∈ gap, isWhitespace c = true) (hne : gap ≠ []) :
    gap.foldl Reader.step s =
      { s with arguments := s.arguments ++ [s.token], token := [], started := false } := by
  obtain ⟨c, gap, rfl⟩ := List.exists_cons_of_ne_nil hne
  rw [List.foldl_cons, step_blank h (hgap c (by simp)), Reader.read, if_pos hstarted]
  exact foldl_blank ⟨h.quote, h.escaped⟩ rfl fun d hd => hgap d (List.mem_cons_of_mem c hd)

/-- The reader over a list of arguments. -/
theorem foldl_words {words : List (Written × Text)} {s : Reader} (h : s.Between)
    (hstarted : s.started = false) (htoken : s.token = [])
    (hblank : ∀ w ∈ words, ∀ c ∈ w.2, isWhitespace c = true)
    (hgaps : ∀ w ∈ words.dropLast, w.2 ≠ []) :
    ((words.flatMap fun w => w.1.text ++ w.2).foldl Reader.step s).Between ∧
      ((words.flatMap fun w => w.1.text ++ w.2).foldl Reader.step s).result =
        s.arguments ++ words.map fun w => w.1.denotes := by
  induction words generalizing s with
  | nil =>
    refine ⟨h, ?_⟩
    simp [Reader.result, hstarted]
  | cons w words ih =>
    have hword : w.1.text.foldl Reader.step s =
        { s with token := w.1.denotes, started := true } := by
      have hpieces := foldl_pieces w.1.pieces h w.1.nonempty
      rw [htoken] at hpieces
      exact hpieces
    rw [List.flatMap_cons, List.append_assoc, List.foldl_append, hword]
    by_cases hgap : w.2 = []
    · -- Only the last argument may go without whitespace behind it.
      have hlast : words = [] := by
        by_contra hne
        refine hgaps w ?_ hgap
        rw [List.dropLast_cons_of_ne_nil hne]
        exact List.mem_cons_self
      subst hlast
      rw [hgap]
      exact ⟨⟨h.quote, h.escaped⟩, rfl⟩
    · have hnext := @foldl_gap w.2 { s with token := w.1.denotes, started := true }
        ⟨h.quote, h.escaped⟩ rfl (hblank w (by simp)) hgap
      rw [List.foldl_append, hnext]
      have hgaps' : ∀ v ∈ words.dropLast, v.2 ≠ [] := by
        intro v hv
        refine hgaps v ?_
        cases words with
        | nil => cases hv
        | cons u words => exact List.mem_cons_of_mem w hv
      obtain ⟨hbetween, hresult⟩ := @ih
        { s with arguments := s.arguments ++ [w.1.denotes], token := [], started := false }
        ⟨h.quote, h.escaped⟩ rfl rfl (fun v hv => hblank v (List.mem_cons_of_mem w hv)) hgaps'
      refine ⟨hbetween, hresult.trans ?_⟩
      simp

/-- **Response files invert quoting.** Every list of arguments is read back from every way of
writing it; every argument can be written; and the reader fails exactly on the texts that end in an
unfinished piece. -/
theorem response_file_inverts :
    (∀ (lead : Text) (words : List (Written × Text)), (∀ c ∈ lead, isWhitespace c = true) →
      (∀ w ∈ words, ∀ c ∈ w.2, isWhitespace c = true) → (∀ w ∈ words.dropLast, w.2 ≠ []) →
      parseResponse (lead ++ words.flatMap fun w => w.1.text ++ w.2) =
        .ok (words.map fun w => w.1.denotes)) ∧
    (∀ argument : Text, ∃ w : Written, w.denotes = argument) ∧
    ∀ body : Text, (∃ e, parseResponse body = .error e) ↔
      ∃ (elements : List Element) (tail : Text),
        body = elements.flatMap Element.text ++ tail ∧ Unfinished tail := by
  have hinitial : ({} : Reader).Between := ⟨rfl, rfl⟩
  refine ⟨fun lead words hlead hblank hgaps => ?_, fun argument => ?_, fun body => ⟨?_, ?_⟩⟩
  · obtain ⟨hbetween, hresult⟩ := foldl_words hinitial rfl rfl hblank hgaps
    have hfold : (lead ++ words.flatMap fun w => w.1.text ++ w.2).foldl Reader.step {} =
        (words.flatMap fun w => w.1.text ++ w.2).foldl Reader.step {} := by
      rw [List.foldl_append, foldl_blank hinitial rfl hlead]
    rw [parseResponse_of_between hfold hbetween, hresult]
    rfl
  · refine ⟨⟨[.quoted .double (argument.map Item.escape)], by simp⟩, ?_⟩
    simp [Written.denotes, Piece.denotes, Function.comp_def, Item.denotes]
  · rintro ⟨e, he⟩
    obtain ⟨elements, tail, rfl, rfl | htail⟩ := exists_elements body
    · rw [List.append_nil] at he
      obtain ⟨hread, hbetween⟩ := parse_elements hinitial elements
      rw [parseResponse_of_between hread hbetween] at he
      cases he
    · exact ⟨elements, tail, rfl, htail⟩
  · rintro ⟨elements, tail, rfl, htail⟩
    obtain ⟨hread, hbetween⟩ := parse_elements hinitial elements
    have hopen := foldl_unfinished hbetween htail
    refine ⟨"unterminated escape or quote in linker response file", ?_⟩
    unfold parseResponse
    rw [List.foldl_append, hread]
    exact if_pos hopen

end ResponseFile

end ArosTools
