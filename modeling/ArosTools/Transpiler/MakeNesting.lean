import ArosTools.Transpiler.MakeBounds

/-!
# Nested references in Make expressions

Four scanners follow the nesting of `$(`, each in its own loop: `referenceEnd` looks for the end of
a reference, `splitTopLevel`, `topLevelByte` and `topLevelWhitespace` cut its body outside the
references nested in it. `Nested` says what they have to agree on, a text whose references close,
without any of the loops.

* `MakeExpr.referenceEnd_nested` : the body that `referenceEnd` finds is such a text.
* `MakeExpr.splitTopLevel_nested` : such a text is split into pieces that joined give it back.
* `MakeExpr.topLevel_nested` : a byte found at the top level cuts it into two such texts.
* `MakeExpr.scanners_agree` : the three together, at every reference.
-/

namespace ArosTools

namespace MakeExpr

open Str

/-- From `depth` open references on, every reference closes, and none closes that is not open. -/
inductive Nested : ℕ → List UInt8 → Prop
  /-- Nothing is open at the end. -/
  | nil : Nested 0 []
  /-- A reference opens. -/
  | opens {depth : ℕ} {rest : List UInt8} (h : Nested (depth + 1) rest) :
      Nested depth (byte '$' :: byte '(' :: rest)
  /-- The innermost open reference closes. -/
  | closes {depth : ℕ} {rest : List UInt8} (h : Nested depth rest) :
      Nested (depth + 1) (byte ')' :: rest)
  /-- Any other byte. -/
  | other {depth : ℕ} {b : UInt8} {rest : List UInt8} (hclose : b ≠ byte ')')
      (hopen : ¬(b = byte '$' ∧ rest.head? = some (byte '('))) (h : Nested depth rest) :
      Nested depth (b :: rest)

/-! ### The end of a reference -/

/-- Where the scan ends, the references opened so far, less one, have closed. -/
theorem nested_of_referenceEndFrom {depth cursor stop : ℕ} {bs : List UInt8}
    (h : referenceEndFrom (depth + 1) cursor bs = some stop) :
    ∃ body rest, bs = body ++ byte ')' :: rest ∧ stop = cursor + body.length ∧
      Nested depth body := by
  induction hn : bs.length using Nat.strong_induction_on generalizing bs depth cursor with
  | _ n ih =>
    cases bs with
    | nil => exact absurd h (by simp [referenceEndFrom])
    | cons b rest =>
      rw [List.length_cons] at hn
      rw [referenceEndFrom_cons] at h
      split_ifs at h with hopen hclose hdepth
      · obtain ⟨rfl, hhead⟩ := hopen
        obtain ⟨tail, rfl⟩ := List.head?_eq_some_iff.mp hhead
        rw [List.length_cons] at hn
        obtain ⟨body, after, rfl, rfl, hbody⟩ := ih tail.length (by omega) h rfl
        exact ⟨byte '$' :: byte '(' :: body, after, rfl,
          by rw [List.length_cons, List.length_cons]; omega, .opens hbody⟩
      · obtain rfl : depth = 0 := by omega
        obtain rfl := Option.some.inj h
        exact ⟨[], rest, by rw [hclose]; rfl, rfl, .nil⟩
      · obtain ⟨outer, rfl⟩ := Nat.exists_eq_succ_of_ne_zero (show depth ≠ 0 by omega)
        obtain ⟨body, after, rfl, rfl, hbody⟩ := ih rest.length (by omega) h rfl
        subst hclose
        exact ⟨byte ')' :: body, after, rfl, by rw [List.length_cons]; omega, .closes hbody⟩
      · obtain ⟨body, after, rfl, rfl, hbody⟩ := ih rest.length (by omega) h rfl
        refine ⟨b :: body, after, rfl, by rw [List.length_cons]; omega, .other hclose ?_ hbody⟩
        -- The parenthesis after the body is a closing one, so `b` opens no more with it than
        -- without it.
        rintro ⟨rfl, hhead⟩
        obtain ⟨tail, rfl⟩ := List.head?_eq_some_iff.mp hhead
        exact hopen ⟨rfl, rfl⟩

/-- The bytes after a position in a text. -/
theorem drop_bytes_append (pre : Text) {c d : Char} (hc : c.toNat < 0x80) (hd : d.toNat < 0x80)
    (tail : Text) : (bytes (pre ++ c :: d :: tail)).drop (len pre + 2) = bytes tail := by
  have hbytes : bytes (pre ++ c :: d :: tail) = (bytes pre ++ [byte c, byte d]) ++ bytes tail := by
    rw [bytes_append, bytes_cons_ascii hc, bytes_cons_ascii hd, List.append_assoc]
    rfl
  have hlen : len pre + 2 = (bytes pre ++ [byte c, byte d]).length := by simp
  rw [hbytes, hlen, List.drop_left]

/-- The end of a reference that starts with `$` and another ASCII character closes a body whose
references close. -/
theorem referenceEnd_nested {pre tail : Text} {delimiter : Char} {stop : ℕ}
    (hdelimiter : delimiter.toNat < 0x80)
    (h : referenceEnd (pre ++ '$' :: delimiter :: tail) (len pre) = .ok stop) :
    ∃ body after, tail = body ++ ')' :: after ∧ stop = len pre + 2 + len body ∧
      Nested 0 (bytes body) := by
  have hscan : referenceEndFrom 1 (len pre + 2) (bytes tail) = some stop := by
    rw [referenceEnd, drop_bytes_append pre (by decide) hdelimiter] at h
    cases hfrom : referenceEndFrom 1 (len pre + 2) (bytes tail) with
    | some found =>
      rw [hfrom] at h
      rw [Except.ok.inj h]
    | none =>
      rw [hfrom, slicedFrom_append] at h
      cases h
  obtain ⟨w, rest, hw, hstop, hnested⟩ := nested_of_referenceEndFrom hscan
  rw [referenceEndFrom_bytes] at hscan
  obtain ⟨⟨body, after⟩, hclosing, hlen⟩ := Option.map_eq_some_iff.mp hscan
  have htail := closing_some hclosing
  refine ⟨body, after, htail, hlen.symm, ?_⟩
  have hbytes : w ++ byte ')' :: rest = bytes body ++ byte ')' :: bytes after := by
    rw [← hw, htail, bytes_append, bytes_cons_ascii (by decide)]
  have hsame : w = bytes body := (List.append_inj hbytes (by
    rw [length_bytes]
    simp only at hlen
    omega)).1
  rw [← hsame]
  exact hnested

/-! ### Cuts at the top level -/

theorem topLevelFrom_cons (p : UInt8 → Bool) (depth cursor : ℕ) (b : UInt8) (rest : List UInt8) :
    topLevelFrom p depth cursor (b :: rest) =
      if b = byte '$' ∧ rest.head? = some (byte '(') then
        topLevelFrom p (depth + 1) (cursor + 2) rest.tail
      else if b = byte ')' ∧ 0 < depth then topLevelFrom p (depth - 1) (cursor + 1) rest
      else if p b = true ∧ depth = 0 then some cursor
      else topLevelFrom p depth (cursor + 1) rest := by
  cases rest with
  | nil => simp [topLevelFrom]
  | cons c rest => simp [topLevelFrom]

/-- A byte found at the top level stands between two parts whose references close. -/
theorem topLevelFrom_nested {p : UInt8 → Bool} {depth : ℕ} {bs : List UInt8} (hnested : Nested depth bs)
    {cursor k : ℕ} (h : topLevelFrom p depth cursor bs = some k) :
    ∃ front b rest, bs = front ++ b :: rest ∧ k = cursor + front.length ∧ p b = true ∧
      Nested depth front ∧ Nested 0 rest := by
  induction hnested generalizing cursor with
  | nil => exact absurd h (by simp [topLevelFrom])
  | @opens depth tail hrest ih =>
    rw [topLevelFrom_cons, if_pos ⟨rfl, rfl⟩, List.tail_cons] at h
    obtain ⟨front, b, rest, rfl, rfl, hp, hfront, hafter⟩ := ih h
    exact ⟨byte '$' :: byte '(' :: front, b, rest, rfl,
      by rw [List.length_cons, List.length_cons]; omega, hp, .opens hfront, hafter⟩
  | @closes depth tail hrest ih =>
    rw [topLevelFrom_cons, if_neg (fun hand => absurd hand.1 (by decide)),
      if_pos ⟨rfl, Nat.succ_pos depth⟩] at h
    obtain ⟨front, b, rest, rfl, rfl, hp, hfront, hafter⟩ := ih h
    exact ⟨byte ')' :: front, b, rest, rfl, by rw [List.length_cons]; omega, hp, .closes hfront,
      hafter⟩
  | @other depth b tail hclose hopen hrest ih =>
    rw [topLevelFrom_cons, if_neg hopen, if_neg (fun hand => hclose hand.1)] at h
    split_ifs at h with hfound
    · obtain rfl := Option.some.inj h
      obtain ⟨hp, rfl⟩ := hfound
      exact ⟨[], b, tail, rfl, rfl, hp, .nil, hrest⟩
    · obtain ⟨front, d, rest, rfl, rfl, hp, hfront, hafter⟩ := ih h
      refine ⟨b :: front, d, rest, rfl, by rw [List.length_cons]; omega, hp,
        .other hclose ?_ hfront, hafter⟩
      rintro ⟨rfl, hhead⟩
      obtain ⟨inner, rfl⟩ := List.head?_eq_some_iff.mp hhead
      exact hopen ⟨rfl, rfl⟩

theorem topLevel_nested {p : UInt8 → Bool} {body : Text} (hnested : Nested 0 (bytes body)) {k : ℕ}
    (h : topLevelFrom p 0 0 (bytes body) = some k) :
    Nested 0 ((bytes body).take k) ∧ Nested 0 ((bytes body).drop (k + 1)) := by
  obtain ⟨front, b, rest, hbs, rfl, -, hfront, hrest⟩ := topLevelFrom_nested hnested h
  rw [hbs, Nat.zero_add]
  refine ⟨by rwa [List.take_left], ?_⟩
  rwa [← List.drop_drop, List.drop_left]

/-! ### Pieces at the top level -/

theorem splitTopLevelFrom_cons (raw : Text) (separator : UInt8) (out : List Text)
    (start depth cursor : ℕ) (b : UInt8) (rest : List UInt8) :
    splitTopLevelFrom raw separator out start depth cursor (b :: rest) =
      if b = byte '$' ∧ rest.head? = some (byte '(') then
        splitTopLevelFrom raw separator out start (depth + 1) (cursor + 2) rest.tail
      else if b = byte ')' ∧ 0 < depth then
        splitTopLevelFrom raw separator out start (depth - 1) (cursor + 1) rest
      else if b = separator ∧ depth = 0 then
        if maxListItems ≤ out.length then .error listItemsLimit
        else do
          let piece ← sliced raw start cursor
          splitTopLevelFrom raw separator (out ++ [piece]) (cursor + 1) depth (cursor + 1) rest
      else splitTopLevelFrom raw separator out start depth (cursor + 1) rest := by
  cases rest with
  | nil => simp [splitTopLevelFrom]
  | cons c rest => simp [splitTopLevelFrom]

/-- The pieces cut off so far, each with the separator after it, are the text up to `start`. -/
def CutOff (raw : Text) (separator : Char) (out : List Text) (start : ℕ) : Prop :=
  ∃ rest, raw = out.flatMap (· ++ [separator]) ++ rest ∧
    len (out.flatMap (· ++ [separator])) = start

/-- A separator after the cut ends one more piece. -/
theorem CutOff.cut {raw : Text} {separator : Char} (hsep : separator.toNat < 0x80) {out : List Text}
    {start cursor : ℕ} (h : CutOff raw separator out start) (hle : start ≤ cursor)
    (hbyte : (bytes raw)[cursor]? = some (byte separator)) :
    ∃ piece, sliced raw start cursor = .ok piece ∧
      CutOff raw separator (out ++ [piece]) (cursor + 1) := by
  obtain ⟨pre, c, post, hraw, rfl, hc, heq⟩ := exists_of_bytes_ascii hbyte (byte_lt hsep)
  obtain rfl := (byte_inj hc hsep).mp heq
  obtain ⟨rest, hout, rfl⟩ := h
  have hpiece : ∃ piece, pre = out.flatMap (· ++ [c]) ++ piece := by
    rcases List.append_eq_append_iff.mp (hout.symm.trans hraw) with ⟨piece, hpre, -⟩ | ⟨extra, hpre, -⟩
    · exact ⟨piece, hpre⟩
    · rw [hpre, len_append] at hle
      obtain rfl : extra = [] := len_eq_zero.mp (by omega)
      exact ⟨[], by rw [hpre, List.append_nil, List.append_nil]⟩
  obtain ⟨piece, rfl⟩ := hpiece
  refine ⟨piece, ?_, post, ?_, ?_⟩
  · rw [hraw, List.append_assoc, len_append]
    exact sliced_append _ piece (c :: post)
  · rw [hraw]
    simp
  · have hnext : len ((out ++ [piece]).flatMap (· ++ [c])) =
        len (out.flatMap (· ++ [c])) + (len piece + 1) := by
      simp [utf8Size_ascii hc]
    exact hnext.trans (congrArg (· + 1) (len_append _ piece)).symm

/-- A text whose references close is split to its end, or into too many pieces. -/
theorem splitTopLevelFrom_nested {raw : Text} {separator : Char} (hsep : separator.toNat < 0x80)
    {depth : ℕ} {bs : List UInt8} (hnested : Nested depth bs) {out : List Text} {start cursor : ℕ}
    (hcut : CutOff raw separator out start) (hle : start ≤ cursor)
    (hbs : (bytes raw).drop cursor = bs) :
    splitTopLevelFrom raw (byte separator) out start depth cursor bs = .error listItemsLimit ∨
      ∃ pieces stop, splitTopLevelFrom raw (byte separator) out start depth cursor bs =
        .ok (pieces, stop, 0) ∧ CutOff raw separator pieces stop := by
  have hdrop : ∀ (front : List UInt8) {cursor : ℕ} {rest : List UInt8},
      (bytes raw).drop cursor = front ++ rest → (bytes raw).drop (cursor + front.length) = rest := by
    intro front cursor rest hbs
    rw [← List.drop_drop, hbs, List.drop_left]
  induction hnested generalizing out start cursor with
  | nil => exact .inr ⟨out, start, rfl, hcut⟩
  | @opens depth rest hrest ih =>
    rw [splitTopLevelFrom_cons, if_pos ⟨rfl, rfl⟩, List.tail_cons]
    exact ih hcut (by omega) (hdrop [byte '$', byte '('] hbs)
  | @closes depth rest hrest ih =>
    rw [splitTopLevelFrom_cons, if_neg (fun hand => absurd hand.1 (by decide)),
      if_pos ⟨rfl, Nat.succ_pos depth⟩]
    exact ih hcut (by omega) (hdrop [byte ')'] hbs)
  | @other depth b rest hclose hopen hrest ih =>
    have hnext : (bytes raw).drop (cursor + 1) = rest := hdrop [b] hbs
    rw [splitTopLevelFrom_cons, if_neg hopen, if_neg (fun hand => hclose hand.1)]
    split_ifs with hfound hlimit
    · exact .inl rfl
    · obtain ⟨rfl, rfl⟩ := hfound
      have hbyte : (bytes raw)[cursor]? = some (byte separator) := by
        rw [← List.head?_drop, hbs]
        rfl
      obtain ⟨piece, hpiece, hcut⟩ := hcut.cut hsep hle hbyte
      rw [hpiece, Except.ok_bind]
      exact ih hcut le_rfl hnext
    · exact ih hcut (by omega) hnext

theorem intercalate_append_last (separator : Char) (out : List Text) (last : Text) :
    [separator].intercalate (out ++ [last]) = out.flatMap (· ++ [separator]) ++ last := by
  induction out with
  | nil => simp
  | cons piece out ih =>
    have hne : out ++ [last] ≠ [] := by simp
    rw [List.cons_append, List.intercalate_cons_of_ne_nil hne, ih, List.flatMap_cons]
    simp

/-- A text whose references close is not refused for an open one, and its pieces joined with the
separator are the text. -/
theorem splitTopLevel_nested {body : Text} (hnested : Nested 0 (bytes body)) {separator : Char}
    (hsep : separator.toNat < 0x80) :
    splitTopLevel body separator = .error listItemsLimit ∨
      ∃ pieces, splitTopLevel body separator = .ok pieces ∧
        [separator].intercalate pieces = body := by
  have hstart : CutOff body separator [] 0 := ⟨body, rfl, rfl⟩
  rcases splitTopLevelFrom_nested hsep hnested hstart le_rfl rfl with hlimit | hsplit
  · left
    rw [splitTopLevel, hlimit]
    rfl
  · obtain ⟨out, stop, hloop, last, hbody, rfl⟩ := hsplit
    have hlast : slicedFrom body (len (out.flatMap (· ++ [separator]))) = .ok last := by
      rw [hbody]
      exact slicedFrom_append _ last
    simp only [splitTopLevel, hloop, Except.ok_bind, hlast]
    by_cases hlimit : maxListItems ≤ out.length
    · left
      simp [hlimit]
    · right
      refine ⟨out ++ [last], by simp [hlimit], ?_⟩
      rw [intercalate_append_last, ← hbody]

/-- **The scanners agree on nesting.** Where `referenceEnd` finds the end of a reference, the body
is a slice of the text, `splitTopLevel` refuses it only for too many pieces and otherwise gives
pieces that joined are the body, and a byte that `topLevelByte` or `topLevelWhitespace` finds in it
stands between two texts whose references close. -/
theorem scanners_agree {pre tail : Text} {delimiter separator needle : Char} {stop : ℕ}
    (hdelimiter : delimiter = '(' ∨ delimiter = '\x7b') (hsep : separator.toNat < 0x80)
    (h : referenceEnd (pre ++ '$' :: delimiter :: tail) (len pre) = .ok stop) :
    ∃ body, slice (pre ++ '$' :: delimiter :: tail) (len pre + 2) stop = some body ∧
      Nested 0 (bytes body) ∧
      (splitTopLevel body separator = .error listItemsLimit ∨
        ∃ pieces, splitTopLevel body separator = .ok pieces ∧
          [separator].intercalate pieces = body) ∧
      (∀ k, topLevelByte body needle = some k ∨ topLevelWhitespace body = some k →
        Nested 0 ((bytes body).take k) ∧ Nested 0 ((bytes body).drop (k + 1))) := by
  have hascii : delimiter.toNat < 0x80 := by
    rcases hdelimiter with rfl | rfl <;> decide
  obtain ⟨body, after, rfl, rfl, hnested⟩ := referenceEnd_nested hascii h
  refine ⟨body, ?_, hnested, splitTopLevel_nested hnested hsep, ?_⟩
  · have hslice := slice_append (pre ++ ['$', delimiter]) body (')' :: after)
    have hlen : len (pre ++ ['$', delimiter]) = len pre + 2 := by
      simp [utf8Size_ascii hascii, utf8Size_ascii (show '$'.toNat < 0x80 by decide)]
    rw [hlen, List.append_assoc] at hslice
    exact hslice
  · rintro k (hk | hk)
    · exact topLevel_nested hnested hk
    · exact topLevel_nested hnested hk

theorem scanners_agree_nested_call : referenceEnd (lit "x$(if $(a,b),c)") 1 = .ok 14 ∧
    ∃ body, slice (lit "x$(if $(a,b),c)") 3 14 = some body ∧ Nested 0 (bytes body) ∧
      (splitTopLevel body ',' = .error listItemsLimit ∨
        ∃ pieces, splitTopLevel body ',' = .ok pieces ∧ [','].intercalate pieces = body) ∧
      (∀ k, topLevelByte body ':' = some k ∨ topLevelWhitespace body = some k →
        Nested 0 ((bytes body).take k) ∧ Nested 0 ((bytes body).drop (k + 1))) := by
  have hend : referenceEnd (lit "x" ++ '$' :: '(' :: lit "if $(a,b),c)") (len (lit "x")) = .ok 14 := by
    decide
  exact ⟨hend, scanners_agree (.inl rfl) (by decide) hend⟩

end MakeExpr

end ArosTools
