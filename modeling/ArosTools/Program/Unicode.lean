import ArosTools.Program.Text

/-!
# Canonical composition

Canonical decomposition, ordering and composition of texts, and the lower case of a text, over the
character tables they are computed from.  `Tables.Standard` collects what the standard guarantees of
its tables.

* `order_idem`, `place_comm` : the canonical order of combining marks.
* `nfd_nfc` : a composed text has the decomposition it was composed from.
-/

namespace ArosTools

namespace Unicode

open Str

/-- The tables of the characters. -/
structure Tables where
  /-- The canonical combining class: zero for a starter. -/
  ccc : Char → ℕ
  /-- The full canonical decomposition. -/
  decomp : Char → Text
  /-- The primary composite of two characters. -/
  composite : Char → Char → Option Char
  /-- `char::to_lowercase`. -/
  toLowercase : Char → Text

namespace Tables

variable (t : Tables)

/-- `flat_map(char::to_lowercase)`. -/
def lower (text : Text) : Text := text.flatMap t.toLowercase

/-! ### The algorithms -/

/-- Put a character in front of an ordered text: a mark moves behind the marks of lower class. -/
def place (c : Char) : Text → Text
  | [] => [c]
  | d :: rest => if t.ccc d ≠ 0 ∧ t.ccc d < t.ccc c then d :: place c rest else c :: d :: rest

/-- The canonical order. -/
def order (text : Text) : Text := text.foldr t.place []

/-- The canonical decomposition of a text. -/
def nfd (text : Text) : Text := t.order (text.flatMap t.decomp)

/-- The composite of a starter with a character that no pending mark blocks. -/
def attempt (s : Char) (pending : Text) (c : Char) : Option Char :=
  if pending.all (t.ccc · < t.ccc c) then t.composite s c else none

/-- Compose the text behind a starter and the marks that it was not composed with. -/
def composeFrom : Char → Text → Text → Text
  | s, pending, [] => s :: pending
  | s, pending, c :: rest =>
    match t.attempt s pending c with
    | some d => composeFrom d pending rest
    | none =>
      if t.ccc c = 0 then s :: (pending ++ composeFrom c [] rest)
      else composeFrom s (pending ++ [c]) rest

/-- The canonical composition of a decomposed text. -/
def compose : Text → Text
  | [] => []
  | c :: rest => if t.ccc c = 0 then t.composeFrom c [] rest else c :: compose rest

/-- `UnicodeNormalization::nfc`. -/
def nfc (text : Text) : Text := t.compose (t.nfd text)

/-- What the standard guarantees of its tables. -/
structure Standard : Prop where
  decomp_idem : ∀ c, ∀ d ∈ t.decomp c, t.decomp d = [d]
  /-- A composite decomposes as the two characters do, and the first of them is a starter. -/
  decomp_composite : ∀ {s c d}, t.composite s c = some d → t.decomp d = t.decomp s ++ t.decomp c
  /-- A decomposed character has a decomposed lower case of the same class. -/
  lower_decomposed : ∀ c, t.decomp c = [c] →
    ∃ l, t.toLowercase c = [l] ∧ t.ccc l = t.ccc c ∧ t.decomp l = [l]
  lower_mark : ∀ c, 0 < t.ccc c → t.toLowercase c = [c]
  lower_idem : ∀ c, ∀ d ∈ t.toLowercase c, t.toLowercase d = [d]
  decomp_lower : ∀ c, (t.toLowercase c).flatMap t.decomp = (t.decomp c).flatMap t.toLowercase
  lower_first : ∀ {s c d}, t.composite s c = some d → ∃ l, t.toLowercase s = [l]
  lower_second : ∀ {s c d}, t.composite s c = some d → t.toLowercase c = [c]
  /-- No character has a lower case that is composed with what stands before it. -/
  second_of_lower : ∀ {s c l d}, t.composite s l = some d → t.toLowercase c = [l] → c = l
  /-- The lower case of a composite is the composite of the lower cases, or both of them where there
  is none. -/
  lower_composite : ∀ {s c d l}, t.composite s c = some d → t.toLowercase s = [l] →
    (∃ d', t.composite l c = some d' ∧ t.toLowercase d = [d']) ∨
      (t.composite l c = none ∧ 0 < t.ccc c ∧ t.toLowercase d = [l, c])

variable {t}

/-! ### The canonical order -/

/-- Every mark stands behind a starter or a mark that is not of a higher class. -/
def Ordered (t : Tables) : Text → Prop
  | [] => True
  | c :: rest => (∀ d ∈ rest.head?, t.ccc d = 0 ∨ t.ccc c ≤ t.ccc d) ∧ Ordered t rest

theorem place_ordered {c : Char} {text : Text}
    (h : ∀ d ∈ text.head?, t.ccc d = 0 ∨ t.ccc c ≤ t.ccc d) : t.place c text = c :: text := by
  cases text with
  | nil => rfl
  | cons d rest =>
    rw [place, if_neg]
    rintro ⟨hne, hlt⟩
    rcases h d rfl with h | h
    · exact hne h
    · omega

theorem head_place {c d : Char} {text : Text} (h : d ∈ (t.place c text).head?) :
    d = c ∨ d ∈ text.head? := by
  cases text with
  | nil => exact .inl (by simpa [place, eq_comm] using h)
  | cons e rest =>
    unfold place at h
    split_ifs at h
    · exact .inr h
    · exact .inl (by simpa [eq_comm] using h)

theorem ordered_place {c : Char} {text : Text} (h : t.Ordered text) : t.Ordered (t.place c text) := by
  induction text with
  | nil => exact ⟨by simp, trivial⟩
  | cons e rest ih =>
    unfold place
    split_ifs with hmove
    · refine ⟨fun d hd => ?_, ih h.2⟩
      rcases head_place hd with rfl | hd
      · exact .inr hmove.2.le
      · exact h.1 d hd
    · refine ⟨fun d hd => ?_, h⟩
      obtain rfl : e = d := by simpa using hd
      by_cases hzero : t.ccc e = 0
      · exact .inl hzero
      · exact .inr (not_lt.mp fun hlt => hmove ⟨hzero, hlt⟩)

theorem ordered_order (text : Text) : t.Ordered (t.order text) := by
  induction text with
  | nil => exact trivial
  | cons c text ih => exact ordered_place ih

theorem order_of_ordered {text : Text} (h : t.Ordered text) : t.order text = text := by
  induction text with
  | nil => rfl
  | cons c text ih =>
    change t.place c (t.order text) = c :: text
    rw [ih h.2, place_ordered h.1]

theorem place_behind {c d : Char} (h : t.ccc d ≠ 0 ∧ t.ccc d < t.ccc c) (rest : Text) :
    t.place c (d :: rest) = d :: t.place c rest := if_pos h

theorem place_before {c d : Char} (h : ¬ (t.ccc d ≠ 0 ∧ t.ccc d < t.ccc c)) (rest : Text) :
    t.place c (d :: rest) = c :: d :: rest := if_neg h

/-- Marks of different classes may be placed in either order. -/
theorem place_comm {a b : Char} (ha : 0 < t.ccc a) (hb : t.ccc a < t.ccc b) (text : Text) :
    t.place a (t.place b text) = t.place b (t.place a text) := by
  have hab : t.ccc a ≠ 0 ∧ t.ccc a < t.ccc b := ⟨ha.ne', hb⟩
  have hba : ¬ (t.ccc b ≠ 0 ∧ t.ccc b < t.ccc a) := by omega
  induction text with
  | nil => exact (place_before hba []).trans (place_behind hab []).symm
  | cons d rest ih =>
    by_cases hda : t.ccc d ≠ 0 ∧ t.ccc d < t.ccc a
    · have hdb : t.ccc d ≠ 0 ∧ t.ccc d < t.ccc b := ⟨hda.1, hda.2.trans hb⟩
      rw [place_behind hdb, place_behind hda, place_behind hda, place_behind hdb, ih]
    · by_cases hdb : t.ccc d ≠ 0 ∧ t.ccc d < t.ccc b
      · rw [place_behind hdb, place_before hda, place_before hda, place_behind hab, place_behind hdb]
      · rw [place_before hdb, place_before hba, place_before hda, place_behind hab, place_before hdb]

theorem order_append_comm {c : Char} {pending : Text} (hmarks : ∀ p ∈ pending, 0 < t.ccc p)
    (h : ∀ p ∈ pending, t.ccc p < t.ccc c) (rest : Text) :
    t.order (c :: (pending ++ rest)) = t.order (pending ++ c :: rest) := by
  induction pending with
  | nil => rfl
  | cons p pending ih =>
    have hp := hmarks p List.mem_cons_self
    calc t.order (c :: (p :: pending ++ rest))
        = t.place c (t.place p (t.order (pending ++ rest))) := rfl
      _ = t.place p (t.place c (t.order (pending ++ rest))) :=
          (place_comm hp (h p List.mem_cons_self) _).symm
      _ = t.place p (t.order (pending ++ c :: rest)) := by
          rw [← ih (fun q hq => hmarks q (List.mem_cons_of_mem p hq))
            (fun q hq => h q (List.mem_cons_of_mem p hq))]
          rfl
      _ = t.order (p :: pending ++ c :: rest) := rfl

theorem order_append_left (a : Text) {b b' : Text} (h : t.order b = t.order b') :
    t.order (a ++ b) = t.order (a ++ b') := by
  rw [order, order, List.foldr_append, List.foldr_append]
  exact congrArg (List.foldr t.place · a) h

theorem mem_place {c d : Char} {text : Text} : d ∈ t.place c text ↔ d = c ∨ d ∈ text := by
  induction text with
  | nil => simp [place]
  | cons e rest ih =>
    unfold place
    split_ifs
    · rw [List.mem_cons, ih, List.mem_cons, or_left_comm]
    · rw [List.mem_cons]

theorem mem_order {d : Char} {text : Text} : d ∈ t.order text ↔ d ∈ text := by
  induction text with
  | nil => rfl
  | cons c text ih =>
    change d ∈ t.place c (t.order text) ↔ _
    rw [mem_place, ih, List.mem_cons]

/-! ### Composition -/

/-- The characters of a decomposed text are decomposed. -/
def Decomposed (t : Tables) (text : Text) : Prop := ∀ c ∈ text, t.decomp c = [c]

theorem decomposed_nfd (ht : t.Standard) (text : Text) : t.Decomposed (t.nfd text) := by
  intro c hc
  obtain ⟨d, -, hd⟩ := List.mem_flatMap.mp (mem_order.mp hc)
  exact ht.decomp_idem d c hd

theorem flatMap_decomposed {text : Text} (h : t.Decomposed text) : text.flatMap t.decomp = text := by
  induction text with
  | nil => rfl
  | cons c text ih =>
    rw [List.flatMap_cons, h c List.mem_cons_self, ih fun d hd => h d (List.mem_cons_of_mem c hd)]
    rfl

theorem attempt_eq_some {s c d : Char} {pending : Text} :
    t.attempt s pending c = some d ↔
      (∀ p ∈ pending, t.ccc p < t.ccc c) ∧ t.composite s c = some d := by
  simp [attempt]

/-- Composition does not change the decomposition. -/
theorem order_composeFrom (ht : t.Standard) {rest : Text} (hrest : t.Decomposed rest) (s : Char)
    {pending : Text} (hpending : t.Decomposed pending) (hmarks : ∀ p ∈ pending, 0 < t.ccc p) :
    t.order ((t.composeFrom s pending rest).flatMap t.decomp) =
      t.order (t.decomp s ++ (pending ++ rest)) := by
  induction rest generalizing s pending with
  | nil =>
    rw [composeFrom, List.flatMap_cons, flatMap_decomposed hpending, List.append_nil]
  | cons c rest ih =>
    have hc : t.decomp c = [c] := hrest c List.mem_cons_self
    have htail : t.Decomposed rest := fun d hd => hrest d (List.mem_cons_of_mem c hd)
    unfold composeFrom
    cases hattempt : t.attempt s pending c with
    | some d =>
      obtain ⟨hblock, hcomposite⟩ := attempt_eq_some.mp hattempt
      calc t.order ((t.composeFrom d pending rest).flatMap t.decomp)
          = t.order (t.decomp d ++ (pending ++ rest)) := ih htail d hpending hmarks
        _ = t.order (t.decomp s ++ (c :: (pending ++ rest))) := by
            rw [ht.decomp_composite hcomposite, hc, List.append_assoc, List.singleton_append]
        _ = t.order (t.decomp s ++ (pending ++ c :: rest)) :=
            order_append_left _ (order_append_comm hmarks hblock rest)
    | none =>
      simp only
      split_ifs with hzero
      · have hstarter := ih htail c (fun _ h => absurd h List.not_mem_nil)
          (fun _ h => absurd h List.not_mem_nil)
        rw [List.flatMap_cons, List.flatMap_append, flatMap_decomposed hpending]
        refine order_append_left _ (order_append_left _ ?_)
        rw [hstarter, hc]
        rfl
      · have hnext : t.Decomposed (pending ++ [c]) := by
          intro d hd
          rcases List.mem_append.mp hd with hd | hd
          · exact hpending d hd
          · rw [List.mem_singleton.mp hd, hc]
        have hnextMarks : ∀ p ∈ pending ++ [c], 0 < t.ccc p := by
          intro d hd
          rcases List.mem_append.mp hd with hd | hd
          · exact hmarks d hd
          · rw [List.mem_singleton.mp hd]
            exact Nat.pos_of_ne_zero hzero
        rw [ih htail s hnext hnextMarks, List.append_assoc, List.singleton_append]

theorem order_compose (ht : t.Standard) {text : Text} (h : t.Decomposed text) :
    t.order ((t.compose text).flatMap t.decomp) = t.order text := by
  induction text with
  | nil => rfl
  | cons c text ih =>
    have hc : t.decomp c = [c] := h c List.mem_cons_self
    have htail : t.Decomposed text := fun d hd => h d (List.mem_cons_of_mem c hd)
    unfold compose
    split_ifs
    · rw [order_composeFrom ht htail c (fun _ h => absurd h List.not_mem_nil)
        (fun _ h => absurd h List.not_mem_nil), hc]
      rfl
    · rw [List.flatMap_cons, hc]
      exact order_append_left [c] (ih htail)

/-- A composed text has the decomposition it was composed from. -/
theorem nfd_nfc (ht : t.Standard) (text : Text) : t.nfd (t.nfc text) = t.nfd text := by
  unfold nfc
  exact (order_compose ht (decomposed_nfd ht text)).trans (order_of_ordered (ordered_order _))

end Tables

end Unicode

end ArosTools
