import ArosTools.Program.Unicode
import Mathlib.Data.List.Forall2

/-!
# Lower case after composition

Texts are folded by composing them and then taking the lower case of every character.  A capital may
have no composite with a mark with which its lower case has one: then the folded text is no composed
one, and the text with the lower case in the first place is folded to another.

* `Settles` : no mark is composed with a lower case that is not composed with the capital.
* `Respelled` : canonically equivalent spellings and lower cases.
* `fold_respelled` : all spellings of a text that settles are folded to the same.
* `settles_of_fold_lower` : a text that is folded as its lower case is settles.
-/

namespace ArosTools

namespace Unicode

namespace Tables

open Str

variable (t : Tables)

/-- `nfc().flat_map(char::to_lowercase)`. -/
def fold (text : Text) : Text := t.lower (t.nfc text)

/-- From a starter and its pending marks on, composition goes on alike for the lower case: whatever
is not composed is not composed with the lower case either, and a composite that falls apart in
lower case has no pending mark to be put in front of. -/
def SettledFrom : Char → Text → Text → Prop
  | _, _, [] => True
  | s, pending, c :: rest =>
    match t.attempt s pending c with
    | some d => ((∃ l, t.toLowercase d = [l]) ∨ pending = []) ∧ SettledFrom d pending rest
    | none =>
      (∀ l marks, t.lower (s :: pending) = l :: marks → t.attempt l marks c = none) ∧
        if t.ccc c = 0 then SettledFrom c [] rest else SettledFrom s (pending ++ [c]) rest

/-- `SettledFrom` the first starter of a decomposed text. -/
def SettledText : Text → Prop
  | [] => True
  | c :: rest => if t.ccc c = 0 then t.SettledFrom c [] rest else SettledText rest

/-- No mark of a text is composed with a lower case that is not composed with the capital. -/
def Settles (text : Text) : Prop := t.SettledText (t.nfd text)

/-- Some of the characters in lower case. -/
inductive LowerSome : Text → Text → Prop
  | nil : LowerSome [] []
  | keep {p q : Text} (c : Char) (h : LowerSome p q) : LowerSome (c :: p) (c :: q)
  | lower {p q : Text} (c : Char) (h : LowerSome p q) : LowerSome (c :: p) (t.toLowercase c ++ q)

/-- A text arises from another one by canonically equivalent spellings and lower cases. -/
inductive Respelled : Text → Text → Prop
  | canonical {p q : Text} (h : t.nfd q = t.nfd p) : Respelled p q
  | lowerSome {p q : Text} (h : t.LowerSome p q) : Respelled p q
  | trans {p q r : Text} (hpq : Respelled p q) (hqr : Respelled q r) : Respelled p r

variable {t}

/-! ### Lower case -/

theorem lower_append (a b : Text) : t.lower (a ++ b) = t.lower a ++ t.lower b :=
  List.flatMap_append

theorem lower_cons (c : Char) (text : Text) : t.lower (c :: text) = t.toLowercase c ++ t.lower text :=
  List.flatMap_cons

theorem lower_marks (ht : t.Standard) {marks : Text} (h : ∀ c ∈ marks, 0 < t.ccc c) :
    t.lower marks = marks := by
  induction marks with
  | nil => rfl
  | cons c marks ih =>
    rw [lower_cons, ht.lower_mark c (h c List.mem_cons_self),
      ih fun d hd => h d (List.mem_cons_of_mem c hd)]
    rfl

theorem lower_fixed {text : Text} (h : ∀ c ∈ text, t.toLowercase c = [c]) : t.lower text = text := by
  induction text with
  | nil => rfl
  | cons c text ih =>
    rw [lower_cons, h c List.mem_cons_self, ih fun d hd => h d (List.mem_cons_of_mem c hd)]
    rfl

theorem lower_lower (ht : t.Standard) (text : Text) : t.lower (t.lower text) = t.lower text := by
  refine lower_fixed fun c hc => ?_
  obtain ⟨d, -, hd⟩ := List.mem_flatMap.mp hc
  exact ht.lower_idem d c hd

theorem lower_of_mem (ht : t.Standard) {c l : Char} (h : t.toLowercase c = [l]) :
    t.toLowercase l = [l] := ht.lower_idem c l (h ▸ List.mem_cons_self)

/-! ### Characters in lower case or not -/

/-- The character itself, or its lower case. -/
def Lowered (t : Tables) (c c' : Char) : Prop := c' = c ∨ t.toLowercase c = [c']

theorem Lowered.lower_eq (ht : t.Standard) {c c' : Char} (h : t.Lowered c c') :
    t.toLowercase c' = t.toLowercase c := by
  rcases h with rfl | h
  · rfl
  · rw [lower_of_mem ht h, h]

theorem Lowered.ccc_eq (ht : t.Standard) {c c' : Char} (h : t.Lowered c c')
    (hc : t.decomp c = [c]) : t.ccc c' = t.ccc c := by
  rcases h with rfl | h
  · rfl
  · obtain ⟨l, hl, hccc, -⟩ := ht.lower_decomposed c hc
    obtain rfl : l = c' := by simpa using hl.symm.trans h
    exact hccc

theorem Lowered.eq_of_mark (ht : t.Standard) {c c' : Char} (h : t.Lowered c c')
    (hc : 0 < t.ccc c) : c' = c := by
  rcases h with rfl | h
  · rfl
  · simpa using (h.symm.trans (ht.lower_mark c hc))

theorem Lowered.eq_of_second (ht : t.Standard) {s c c' d : Char} (h : t.Lowered c c')
    (hc : t.composite s c = some d) : c' = c := by
  rcases h with rfl | h
  · rfl
  · simpa using (h.symm.trans (ht.lower_second hc))

/-- A lower case is not composed with what stands before it, unless it is the character itself. -/
theorem Lowered.attempt_none (ht : t.Standard) {s c c' : Char} {pending : Text}
    (h : t.Lowered c c') (hne : c' ≠ c) : t.attempt s pending c' = none := by
  cases hattempt : t.attempt s pending c' with
  | none => rfl
  | some d =>
    rcases h with h | h
    · exact absurd h hne
    · exact absurd (ht.second_of_lower (attempt_eq_some.mp hattempt).2 h).symm hne

/-! ### Texts that settle -/

/-- The state of a composition, and that of the same text with some characters in lower case: the
same, or the lower case. -/
def Related (t : Tables) (s : Char) (pending : Text) (s' : Char) (pending' : Text) : Prop :=
  (s' = s ∧ pending' = pending) ∨ t.lower (s :: pending) = s' :: pending'

theorem Related.lower_eq (ht : t.Standard) {s s' : Char} {pending pending' : Text}
    (h : t.Related s pending s' pending') : t.lower (s' :: pending') = t.lower (s :: pending) := by
  rcases h with ⟨rfl, rfl⟩ | h
  · rfl
  · rw [← h, lower_lower ht]

theorem forall_mem_snoc {α : Type} {p : α → Prop} {l : List α} {a : α} (hl : ∀ b ∈ l, p b)
    (ha : p a) : ∀ b ∈ l ++ [a], p b := by
  intro b hb
  rcases List.mem_append.mp hb with hb | hb
  · exact hl b hb
  · exact List.mem_singleton.mp hb ▸ ha

/-- From related states on, a text that settles and the same text with some characters in lower case
are folded to the same, and that text settles, too. -/
theorem lower_composeFrom (ht : t.Standard) {rest rest' : Text}
    (h : List.Forall₂ t.Lowered rest rest') (hdec : t.Decomposed rest) {s s' : Char}
    {pending pending' : Text} (hmarks : ∀ p ∈ pending, 0 < t.ccc p)
    (hrel : t.Related s pending s' pending') (hset : t.SettledFrom s pending rest) :
    t.lower (t.composeFrom s' pending' rest') = t.lower (t.composeFrom s pending rest) ∧
      t.SettledFrom s' pending' rest' := by
  induction h generalizing s s' pending pending' with
  | nil => exact ⟨hrel.lower_eq ht, trivial⟩
  | @cons c c' rest rest' hc h ih =>
    have htail : t.Decomposed rest := fun d hd => hdec d (List.mem_cons_of_mem c hd)
    have hccc := hc.ccc_eq ht (hdec c List.mem_cons_self)
    unfold composeFrom SettledFrom
    unfold SettledFrom at hset
    cases hattempt : t.attempt s pending c with
    | some d =>
      simp only [hattempt] at hset
      obtain ⟨hsingle, hset⟩ := hset
      obtain ⟨hblock, hcomposite⟩ := attempt_eq_some.mp hattempt
      obtain rfl := hc.eq_of_second ht hcomposite
      rcases hrel with ⟨rfl, rfl⟩ | hrel
      · rw [hattempt]
        obtain ⟨heq, hset'⟩ := ih htail hmarks (.inl ⟨rfl, rfl⟩) hset
        exact ⟨heq, hsingle, hset'⟩
      · obtain ⟨l, hl⟩ := ht.lower_first hcomposite
        obtain ⟨rfl, rfl⟩ : l = s' ∧ pending = pending' := by
          rw [lower_cons, hl, lower_marks ht hmarks] at hrel
          exact List.cons.inj hrel
        rcases ht.lower_composite hcomposite hl with ⟨d', hd', hlower⟩ | ⟨hnone, hmark, hlower⟩
        · -- The lower case of the composite is the composite of the lower case.
          rw [attempt_eq_some.mpr ⟨hblock, hd'⟩]
          obtain ⟨heq, hset'⟩ := ih htail hmarks
            (.inr (by rw [lower_cons, hlower, lower_marks ht hmarks]; rfl)) hset
          exact ⟨heq, .inl ⟨d', lower_of_mem ht hlower⟩, hset'⟩
        · -- The lower case of the composite are the two lower cases.
          obtain rfl : pending = [] := by
            rcases hsingle with ⟨x, hx⟩ | hnil
            · rw [hlower] at hx
              exact absurd hx (by simp)
            · exact hnil
          have hattempt' : t.attempt l [] c' = none := by
            rw [attempt, hnone, ite_self]
          rw [hattempt']
          obtain ⟨heq, hset'⟩ := ih htail hmarks
            (.inr (by rw [lower_cons, hlower]; rfl) : t.Related d [] l [c']) hset
          simp only [hmark.ne', if_false, List.nil_append]
          refine ⟨heq, fun x marks hx => ?_, hset'⟩
          rw [lower_cons, lower_of_mem ht hl] at hx
          obtain ⟨rfl, rfl⟩ := List.cons.inj hx
          exact hattempt'
    | none =>
      simp only [hattempt] at hset
      obtain ⟨hlower, hset⟩ := hset
      have hattempt' : t.attempt s' pending' c' = none := by
        by_cases hne : c' = c
        · subst hne
          rcases hrel with ⟨rfl, rfl⟩ | hrel
          · exact hattempt
          · exact hlower s' pending' hrel
        · exact hc.attempt_none ht hne
      have hlower' : ∀ l marks, t.lower (s' :: pending') = l :: marks →
          t.attempt l marks c' = none := by
        intro l marks hl
        by_cases hne : c' = c
        · subst hne
          exact hlower l marks ((hrel.lower_eq ht).symm.trans hl)
        · exact hc.attempt_none ht hne
      rw [hattempt']
      simp only [hccc]
      by_cases hzero : t.ccc c = 0
      · rw [if_pos hzero] at hset
        simp only [hzero, if_true]
        obtain ⟨heq, hset'⟩ := ih htail (fun _ h => absurd h List.not_mem_nil)
          (hc.imp (fun h => ⟨h, rfl⟩) fun h => by rw [lower_cons, h]; rfl) hset
        refine ⟨?_, hlower', hset'⟩
        rw [← List.cons_append, ← List.cons_append, lower_append, lower_append, heq, hrel.lower_eq ht]
      · rw [if_neg hzero] at hset
        simp only [hzero, if_false]
        obtain rfl := hc.eq_of_mark ht (Nat.pos_of_ne_zero hzero)
        have hnext : t.Related s (pending ++ [c']) s' (pending' ++ [c']) := by
          rcases hrel with ⟨rfl, rfl⟩ | hrel
          · exact .inl ⟨rfl, rfl⟩
          · refine .inr ?_
            rw [← List.cons_append, lower_append, hrel, lower_cons,
              ht.lower_mark c' (Nat.pos_of_ne_zero hzero)]
            rfl
        obtain ⟨heq, hset'⟩ := ih htail (forall_mem_snoc hmarks (Nat.pos_of_ne_zero hzero)) hnext hset
        exact ⟨heq, hlower', hset'⟩

theorem lower_compose (ht : t.Standard) {text text' : Text}
    (h : List.Forall₂ t.Lowered text text') (hdec : t.Decomposed text)
    (hset : t.SettledText text) :
    t.lower (t.compose text') = t.lower (t.compose text) ∧ t.SettledText text' := by
  induction h with
  | nil => exact ⟨rfl, trivial⟩
  | @cons c c' rest rest' hc h ih =>
    have htail : t.Decomposed rest := fun d hd => hdec d (List.mem_cons_of_mem c hd)
    have hccc := hc.ccc_eq ht (hdec c List.mem_cons_self)
    unfold compose SettledText
    unfold SettledText at hset
    rw [hccc]
    split_ifs at hset ⊢ with hzero
    · exact lower_composeFrom ht h htail (fun _ h => absurd h List.not_mem_nil)
        (hc.imp (fun h => ⟨h, rfl⟩) fun h => by rw [lower_cons, h]; rfl) hset
    · obtain ⟨heq, hset'⟩ := ih htail hset
      rw [lower_cons, lower_cons, heq, hc.lower_eq ht]
      exact ⟨rfl, hset'⟩

/-! ### Texts that do not settle -/

/-- What a starter becomes by composition with decomposed marks that the pending ones do not
block. -/
inductive Grows (t : Tables) (pending : Text) : Char → Char → Prop
  | refl (s : Char) : Grows t pending s s
  | step {s m d e : Char} (hcomposite : t.composite s m = some d) (hm : t.decomp m = [m])
    (hblock : ∀ p ∈ pending, t.ccc p < t.ccc m) (h : Grows t pending d e) : Grows t pending s e

theorem Grows.mono {pending pending' : Text} (hsub : ∀ p ∈ pending, p ∈ pending') {s e : Char}
    (h : t.Grows pending' s e) : t.Grows pending s e := by
  induction h with
  | refl s => exact .refl s
  | step hcomposite hm hblock _ ih => exact .step hcomposite hm (fun p hp => hblock p (hsub p hp)) ih

theorem composeFrom_eq_cons {rest : Text} (hdec : t.Decomposed rest) (s : Char) (pending : Text) :
    ∃ e tail, t.composeFrom s pending rest = e :: (pending ++ tail) ∧ t.Grows pending s e := by
  induction rest generalizing s pending with
  | nil => exact ⟨s, [], by rw [composeFrom, List.append_nil], .refl s⟩
  | cons c rest ih =>
    have htail : t.Decomposed rest := fun d hd => hdec d (List.mem_cons_of_mem c hd)
    unfold composeFrom
    cases hattempt : t.attempt s pending c with
    | some d =>
      obtain ⟨hblock, hcomposite⟩ := attempt_eq_some.mp hattempt
      obtain ⟨e, tail, heq, hgrows⟩ := ih htail d pending
      exact ⟨e, tail, heq, .step hcomposite (hdec c List.mem_cons_self) hblock hgrows⟩
    | none =>
      by_cases hzero : t.ccc c = 0
      · exact ⟨s, t.composeFrom c [] rest, by simp only [hzero, if_true], .refl s⟩
      · obtain ⟨e, tail, heq, hgrows⟩ := ih htail s (pending ++ [c])
        refine ⟨e, c :: tail, ?_, hgrows.mono fun p hp => List.mem_append_left _ hp⟩
        simp only [hzero, if_false, heq, List.append_assoc, List.singleton_append]

/-- The lower case of what a starter becomes: its first character has the decomposition of the lower
case of the starter and then marks that were not blocked, and so are the other characters. -/
theorem Grows.lower (ht : t.Standard) {pending : Text} {s e : Char} (h : t.Grows pending s e)
    {l : Char} {others : Text} (hl : t.toLowercase s = l :: others) :
    ∃ x xs later, t.toLowercase e = x :: xs ∧ t.decomp x = t.decomp l ++ later ∧
      (∀ m ∈ later, ∀ p ∈ pending, t.ccc p < t.ccc m) ∧
      ∀ m ∈ xs, m ∈ others ∨ ∀ p ∈ pending, t.ccc p < t.ccc m := by
  induction h generalizing l others with
  | refl s => exact ⟨l, others, [], hl, by simp, by simp, fun m hm => .inl hm⟩
  | @step s m d e hcomposite hm hblock _ ih =>
    obtain ⟨l', hl'⟩ := ht.lower_first hcomposite
    obtain ⟨rfl, rfl⟩ := List.cons.inj (hl.symm.trans hl')
    rcases ht.lower_composite hcomposite hl with ⟨d', hd', hlower⟩ | ⟨-, -, hlower⟩
    · obtain ⟨x, xs, later, hx, hdecomp, hlater, hxs⟩ := ih hlower
      refine ⟨x, xs, m :: later, hx, ?_, ?_, hxs⟩
      · rw [hdecomp, ht.decomp_composite hd', hm, List.append_assoc]
        rfl
      · intro n hn
        rcases List.mem_cons.mp hn with rfl | hn
        · exact hblock
        · exact hlater n hn
    · obtain ⟨x, xs, later, hx, hdecomp, hlater, hxs⟩ := ih hlower
      refine ⟨x, xs, later, hx, hdecomp, hlater, fun n hn => ?_⟩
      rcases hxs n hn with hn | hn
      · rw [List.mem_singleton.mp hn]
        exact .inr hblock
      · exact .inr hn

/-- The composition behind a starter, in lower case. -/
theorem lower_composeFrom_eq_cons (ht : t.Standard) {rest : Text} (hdec : t.Decomposed rest)
    {s l : Char} {others : Text} (pending : Text) (hl : t.toLowercase s = l :: others) :
    ∃ x xs later tail, t.lower (t.composeFrom s pending rest) =
        x :: (xs ++ (t.lower pending ++ tail)) ∧ t.decomp x = t.decomp l ++ later ∧
      (∀ m ∈ later, ∀ p ∈ pending, t.ccc p < t.ccc m) ∧
      ∀ m ∈ xs, m ∈ others ∨ ∀ p ∈ pending, t.ccc p < t.ccc m := by
  obtain ⟨e, tail, heq, hgrows⟩ := composeFrom_eq_cons hdec s pending
  obtain ⟨x, xs, later, hx, hrest⟩ := hgrows.lower ht hl
  refine ⟨x, xs, later, t.lower tail, ?_, hrest⟩
  rw [heq, lower_cons, lower_append, hx, List.cons_append]

theorem decomposed_of_lowered (ht : t.Standard) {rest rest' : Text}
    (h : List.Forall₂ (fun c c' => t.toLowercase c = [c']) rest rest') (hdec : t.Decomposed rest) :
    t.Decomposed rest' := by
  induction h with
  | nil => exact hdec
  | @cons c c' rest rest' hc h ih =>
    intro d hd
    rcases List.mem_cons.mp hd with rfl | hd
    · obtain ⟨l, hl, -, hdecomp⟩ := ht.lower_decomposed c (hdec c List.mem_cons_self)
      obtain rfl : l = d := by simpa using hl.symm.trans hc
      exact hdecomp
    · exact ih (fun d hd => hdec d (List.mem_cons_of_mem c hd)) d hd

theorem lower_composite_of_lower (ht : t.Standard) {l c d : Char} (hl : t.toLowercase l = [l])
    (h : t.composite l c = some d) : t.toLowercase d = [d] := by
  rcases ht.lower_composite h hl with ⟨d', hd', hlower⟩ | ⟨hnone, -⟩
  · obtain rfl : d = d' := Option.some.inj (h.symm.trans hd')
    exact hlower
  · rw [h] at hnone
    exact absurd hnone (by simp)

/-- A mark that is composed with the lower case of a starter but not with the starter is seen in the
folded text. -/
theorem stuck_ne (ht : t.Standard) {rest rest' : Text} (hdec : t.Decomposed rest)
    (hdec' : t.Decomposed rest') {s l c d : Char} {others pending marks : Text}
    (hs : t.toLowercase s = l :: others) (hc : t.decomp c = [c])
    (hattempt : t.attempt s pending c = none) (hcomposite : t.composite l c = some d) :
    t.lower (t.composeFrom s pending (c :: rest)) ≠ t.lower (t.composeFrom d marks rest') := by
  have hl : t.toLowercase l = [l] := ht.lower_idem s l (hs ▸ List.mem_cons_self)
  obtain ⟨y, ys, later', tail', hy, hdecomp', -, -⟩ :=
    lower_composeFrom_eq_cons ht hdec' marks (lower_composite_of_lower ht hl hcomposite)
  rw [ht.decomp_composite hcomposite, hc, List.append_assoc] at hdecomp'
  rw [hy, composeFrom, hattempt]
  by_cases hzero : t.ccc c = 0
  · simp only [hzero, if_true]
    rw [lower_cons, hs]
    intro h
    obtain ⟨rfl, -⟩ := List.cons.inj h
    have hlength := congrArg List.length hdecomp'
    simp only [List.length_append, List.length_singleton] at hlength
    omega
  · simp only [hzero, if_false]
    obtain ⟨x, xs, later, tail, hx, hdecomp, hlater, -⟩ :=
      lower_composeFrom_eq_cons ht hdec (pending ++ [c]) hs
    rw [hx]
    intro h
    obtain ⟨rfl, -⟩ := List.cons.inj h
    have heq := List.append_cancel_left (hdecomp.symm.trans hdecomp')
    have hmem : c ∈ later := heq ▸ List.mem_cons_self
    exact lt_irrefl _ (hlater c hmem c (List.mem_append_right _ (List.mem_singleton_self c)))

/-- A composite that falls apart in lower case is seen in the folded text if a mark is pending. -/
theorem apart_ne (ht : t.Standard) {rest rest' : Text} (hdec : t.Decomposed rest)
    (hdec' : t.Decomposed rest') {l c d p : Char} {pending : Text}
    (hl : t.toLowercase l = [l]) (hd : t.toLowercase d = [l, c])
    (hmarks : ∀ q ∈ p :: pending, 0 < t.ccc q) (hblock : ∀ q ∈ p :: pending, t.ccc q < t.ccc c) :
    t.lower (t.composeFrom d (p :: pending) rest) ≠
      t.lower (t.composeFrom l (p :: pending ++ [c]) rest') := by
  obtain ⟨e, tail, heq, hgrows⟩ := composeFrom_eq_cons hdec d (p :: pending)
  obtain rfl : e = d := by
    cases hgrows with
    | refl => rfl
    | step hcomposite _ _ _ =>
      obtain ⟨x, hx⟩ := ht.lower_first hcomposite
      exact absurd (hd.symm.trans hx) (by simp)
  obtain ⟨y, ys, later, tail', hy, -, -, hys⟩ :=
    lower_composeFrom_eq_cons ht hdec' (p :: pending ++ [c]) hl
  have hpc := hblock p List.mem_cons_self
  rw [heq, lower_cons, hd, hy]
  intro h
  have hrest := (List.cons.inj h).2
  cases ys with
  | nil =>
    have hp : t.lower (p :: pending ++ [c]) = p :: t.lower (pending ++ [c]) := by
      rw [List.cons_append, lower_cons, ht.lower_mark p (hmarks p List.mem_cons_self)]
      rfl
    rw [hp] at hrest
    obtain ⟨rfl, -⟩ := List.cons.inj hrest
    exact lt_irrefl _ hpc
  | cons x ys =>
    obtain ⟨rfl, -⟩ := List.cons.inj hrest
    rcases hys c List.mem_cons_self with hnil | hlater
    · exact absurd hnil List.not_mem_nil
    · exact lt_irrefl _ (hlater c (List.mem_append_right _ (List.mem_singleton_self c)))

/-- From a starter on, a text that is folded as its lower case is settles. -/
theorem settledFrom_of_lower_eq (ht : t.Standard) {rest rest' : Text}
    (h : List.Forall₂ (fun c c' => t.toLowercase c = [c']) rest rest') (hdec : t.Decomposed rest)
    {s l : Char} {others pending : Text} (hmarks : ∀ p ∈ pending, 0 < t.ccc p)
    (hothers : ∀ p ∈ others, 0 < t.ccc p) (hs : t.toLowercase s = l :: others)
    (heq : t.lower (t.composeFrom s pending rest) =
      t.lower (t.composeFrom l (others ++ pending) rest')) : t.SettledFrom s pending rest := by
  induction h generalizing s l others pending with
  | nil => exact trivial
  | @cons c c' rest rest' hc h ih =>
    have hdecc : t.decomp c = [c] := hdec c List.mem_cons_self
    have htail : t.Decomposed rest := fun d hd => hdec d (List.mem_cons_of_mem c hd)
    have hccc : t.ccc c' = t.ccc c := Lowered.ccc_eq ht (.inr hc) hdecc
    have hl : t.toLowercase l = [l] := ht.lower_idem s l (hs ▸ List.mem_cons_self)
    unfold SettledFrom
    cases hattempt : t.attempt s pending c with
    | some d =>
      obtain ⟨hblock, hcomposite⟩ := attempt_eq_some.mp hattempt
      obtain rfl : c' = c := Lowered.eq_of_second ht (.inr hc) hcomposite
      obtain ⟨l', hl'⟩ := ht.lower_first hcomposite
      obtain ⟨rfl, rfl⟩ := List.cons.inj (hs.symm.trans hl')
      simp only [List.nil_append] at heq ⊢
      rcases ht.lower_composite hcomposite hs with ⟨d', hd', hlower⟩ | ⟨hnone, hmark, hlower⟩
      · refine ⟨.inl ⟨d', hlower⟩, ih htail hmarks (fun _ h => absurd h List.not_mem_nil) hlower ?_⟩
        rw [composeFrom, composeFrom, hattempt, attempt_eq_some.mpr ⟨hblock, hd'⟩] at heq
        exact heq
      · have hattempt' : t.attempt l pending c' = none := by
          rw [attempt, hnone, ite_self]
        rw [composeFrom, composeFrom, hattempt, hattempt'] at heq
        simp only [hmark.ne', if_false] at heq
        cases pending with
        | nil =>
          refine ⟨.inr rfl, ih htail hmarks (fun q hq => ?_) hlower heq⟩
          exact List.mem_singleton.mp hq ▸ hmark
        | cons p pending =>
          exact absurd heq (apart_ne ht htail (decomposed_of_lowered ht h htail) hl hlower hmarks
            hblock)
    | none =>
      have hlower : t.lower (s :: pending) = l :: (others ++ pending) := by
        rw [lower_cons, hs, lower_marks ht hmarks]
        rfl
      have hattempt' : t.attempt l (others ++ pending) c' = none := by
        by_cases hne : c' = c
        · subst hne
          cases hstuck : t.attempt l (others ++ pending) c' with
          | none => rfl
          | some d =>
            have hcomposite := (attempt_eq_some.mp hstuck).2
            refine absurd heq ?_
            have hstep : t.composeFrom l (others ++ pending) (c' :: rest') =
                t.composeFrom d (others ++ pending) rest' := by
              rw [composeFrom, hstuck]
            rw [hstep]
            exact stuck_ne ht htail (decomposed_of_lowered ht h htail) hs hdecc hattempt hcomposite
        · exact Lowered.attempt_none ht (.inr hc) hne
      refine ⟨fun x marks hx => ?_, ?_⟩
      · obtain ⟨rfl, rfl⟩ := List.cons.inj (hlower.symm.trans hx)
        by_cases hne : c' = c
        · exact hne ▸ hattempt'
        · cases hstuck : t.attempt l (others ++ pending) c with
          | none => rfl
          | some d =>
            exact absurd (Lowered.eq_of_second ht (.inr hc) (attempt_eq_some.mp hstuck).2) hne
      · rw [composeFrom, composeFrom, hattempt, hattempt'] at heq
        simp only [hccc] at heq
        split_ifs at heq ⊢ with hzero
        · rw [← List.cons_append, ← List.cons_append, lower_append, lower_append, hlower] at heq
          have hfront : t.lower (l :: (others ++ pending)) = l :: (others ++ pending) := by
            rw [← hlower, lower_lower ht]
          rw [hfront] at heq
          exact ih htail (fun _ h => absurd h List.not_mem_nil)
            (fun _ h => absurd h List.not_mem_nil) hc (List.append_cancel_left heq)
        · have hmark := Nat.pos_of_ne_zero hzero
          obtain rfl : c' = c := Lowered.eq_of_mark ht (.inr hc) hmark
          rw [List.append_assoc] at heq
          exact ih htail (forall_mem_snoc hmarks hmark) hothers hs heq

theorem settledText_of_lower_eq (ht : t.Standard) {text text' : Text}
    (h : List.Forall₂ (fun c c' => t.toLowercase c = [c']) text text') (hdec : t.Decomposed text)
    (heq : t.lower (t.compose text) = t.lower (t.compose text')) : t.SettledText text := by
  induction h with
  | nil => exact trivial
  | @cons c c' rest rest' hc h ih =>
    have htail : t.Decomposed rest := fun d hd => hdec d (List.mem_cons_of_mem c hd)
    have hccc : t.ccc c' = t.ccc c := Lowered.ccc_eq ht (.inr hc) (hdec c List.mem_cons_self)
    unfold compose at heq
    unfold SettledText
    rw [hccc] at heq
    split_ifs at heq ⊢ with hzero
    · exact settledFrom_of_lower_eq ht h htail (fun _ h => absurd h List.not_mem_nil)
        (fun _ h => absurd h List.not_mem_nil) hc heq
    · rw [lower_cons, lower_cons, hc, lower_of_mem ht hc] at heq
      exact ih htail (List.append_cancel_left heq)

/-! ### Spellings -/

theorem forall₂_place {P : Char → Char → Prop} (hP : ∀ c c', P c c' → t.ccc c' = t.ccc c)
    {c c' : Char} (hc : P c c') {text text' : Text} (h : List.Forall₂ P text text') :
    List.Forall₂ P (t.place c text) (t.place c' text') := by
  induction h with
  | nil => exact .cons hc .nil
  | @cons d d' rest rest' hd h ih =>
    unfold place
    rw [hP c c' hc, hP d d' hd]
    split_ifs
    · exact .cons hd ih
    · exact .cons hc (.cons hd h)

theorem forall₂_order {P : Char → Char → Prop} (hP : ∀ c c', P c c' → t.ccc c' = t.ccc c)
    {text text' : Text} (h : List.Forall₂ P text text') :
    List.Forall₂ P (t.order text) (t.order text') := by
  induction h with
  | nil => exact .nil
  | cons hc _ ih => exact forall₂_place hP hc ih

/-- A decomposed character and its lower case. -/
def LowerPair (t : Tables) (c c' : Char) : Prop := t.decomp c = [c] ∧ t.toLowercase c = [c']

theorem LowerPair.ccc_eq (ht : t.Standard) (c c' : Char) (h : t.LowerPair c c') :
    t.ccc c' = t.ccc c := Lowered.ccc_eq ht (.inr h.2) h.1

theorem forall₂_lower (ht : t.Standard) {text : Text} (h : t.Decomposed text) :
    List.Forall₂ t.LowerPair text (t.lower text) := by
  induction text with
  | nil => exact .nil
  | cons c text ih =>
    have hc : t.decomp c = [c] := h c List.mem_cons_self
    obtain ⟨l, hl, -⟩ := ht.lower_decomposed c hc
    rw [lower_cons, hl]
    exact .cons ⟨hc, hl⟩ (ih fun d hd => h d (List.mem_cons_of_mem c hd))

theorem decomp_lowerPair (ht : t.Standard) (c : Char) :
    List.Forall₂ t.LowerPair (t.decomp c) ((t.toLowercase c).flatMap t.decomp) := by
  rw [ht.decomp_lower c]
  exact forall₂_lower ht (ht.decomp_idem c)

/-- The decomposition of a text in lower case is that of the text, in lower case. -/
theorem nfd_lower (ht : t.Standard) (text : Text) :
    List.Forall₂ t.LowerPair (t.nfd text) (t.nfd (t.lower text)) := by
  refine forall₂_order (LowerPair.ccc_eq ht) ?_
  induction text with
  | nil => exact .nil
  | cons c text ih =>
    rw [lower_cons, List.flatMap_append, List.flatMap_cons]
    exact List.rel_append (decomp_lowerPair ht c) ih

theorem nfd_lowerSome (ht : t.Standard) {p q : Text} (h : t.LowerSome p q) :
    List.Forall₂ t.Lowered (t.nfd p) (t.nfd q) := by
  have hP : ∀ c c', t.Lowered c c' ∧ t.decomp c = [c] → t.ccc c' = t.ccc c :=
    fun c c' h => h.1.ccc_eq ht h.2
  have hpair : List.Forall₂ (fun c c' => t.Lowered c c' ∧ t.decomp c = [c])
      (p.flatMap t.decomp) (q.flatMap t.decomp) := by
    induction h with
    | nil => exact .nil
    | keep c _ ih =>
      refine List.rel_append ?_ ih
      exact List.forall₂_same.mpr fun d hd => ⟨.inl rfl, ht.decomp_idem c d hd⟩
    | lower c _ ih =>
      rw [List.flatMap_append, List.flatMap_cons]
      exact List.rel_append ((decomp_lowerPair ht c).imp fun _ _ h => ⟨.inr h.2, h.1⟩) ih
  exact (forall₂_order hP hpair).imp fun _ _ h => h.1

/-- All spellings of a text that settles are folded to the same, and they settle. -/
theorem fold_respelled (ht : t.Standard) {p q : Text} (h : t.Respelled p q) (hp : t.Settles p) :
    t.fold q = t.fold p ∧ t.Settles q := by
  induction h with
  | canonical h =>
    refine ⟨?_, ?_⟩
    · rw [fold, nfc, h]
      rfl
    · rw [Settles, h]
      exact hp
  | @lowerSome p q h => exact lower_compose ht (nfd_lowerSome ht h) (decomposed_nfd ht p) hp
  | trans _ _ ihpq ihqr =>
    obtain ⟨hfold, hq⟩ := ihpq hp
    obtain ⟨hfold', hr⟩ := ihqr hq
    exact ⟨hfold'.trans hfold, hr⟩

/-- A text that is folded as its lower case is settles. -/
theorem settles_of_fold_lower (ht : t.Standard) {p : Text}
    (h : t.fold (t.lower p) = t.fold p) : t.Settles p :=
  settledText_of_lower_eq ht ((nfd_lower ht p).imp fun _ _ h => h.2) (decomposed_nfd ht p) h.symm

theorem lowerSome_lower (p : Text) : t.LowerSome p (t.lower p) := by
  induction p with
  | nil => exact .nil
  | cons c p ih => exact .lower c ih

theorem respelled_lower (p : Text) : t.Respelled p (t.lower p) := .lowerSome (lowerSome_lower p)

theorem respelled_fold (ht : t.Standard) (p : Text) : t.Respelled p (t.fold p) :=
  .trans (.canonical (nfd_nfc ht p)) (respelled_lower _)

end Tables

end Unicode

end ArosTools
