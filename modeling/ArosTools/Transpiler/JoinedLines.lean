import ArosTools.Program.Utf8Text

/-!
# Joined continuation lines

The Makefile readers work on a text in which every continued line is joined to the one before it,
and look declarations up by the physical line on which a joined line starts.
`joinContinuationsWithOrigins` gives both: the text from one replacement of `CONTINUATION_RE`, the
lines from a count of the newlines that the matches did not take.

* `JoinedLines.source_pieces` : the pieces of a text put together are the text.
* `JoinedLines.filterMap_newlineOffsets` : the origins are the newlines outside the matches.
* `JoinedLines.origins_of_joined_lines` : every joined line has one origin, the physical line that
  holds its first character.
-/

namespace ArosTools

namespace JoinedLines

open Str

/-! ### The continuation pattern -/

/-- The characters of `[ \t]`. -/
def isBlank (c : Char) : Bool := c == ' ' || c == '\t'

/-- What `CONTINUATION_RE`, a backslash, blanks, the end of a line and blanks, matches at the start
of a text. The blanks are followed by no blank, so the match is the only one. -/
def continuationAt : Text → Option Text
  | '\\' :: rest =>
    match rest.dropWhile isBlank with
    | '\n' :: next => some ('\\' :: rest.takeWhile isBlank ++ '\n' :: next.takeWhile isBlank)
    | '\r' :: '\n' :: next =>
      some ('\\' :: rest.takeWhile isBlank ++ '\r' :: '\n' :: next.takeWhile isBlank)
    | _ => none
  | _ => none

/-- A part of a text as `CONTINUATION_RE` cuts it. -/
inductive Piece where
  /-- A character outside every match. -/
  | kept (c : Char)
  /-- A match. -/
  | continued (matched : Text)
  deriving DecidableEq, Repr

/-- The text of a piece. -/
def Piece.source : Piece → Text
  | .kept c => [c]
  | .continued matched => matched

/-- What the replacement leaves of a piece. -/
def Piece.replaced : Piece → Char
  | .kept c => c
  | .continued _ => ' '

/-- The matches of `CONTINUATION_RE` from the left, and the characters between them. The first
argument is the number of characters that belong to the last match still. -/
def pieces : ℕ → Text → List Piece
  | _, [] => []
  | skip + 1, _ :: rest => pieces skip rest
  | 0, c :: rest =>
    match continuationAt (c :: rest) with
    | some matched => .continued matched :: pieces (matched.length - 1) rest
    | none => .kept c :: pieces 0 rest

/-- The text of several pieces. -/
def source (ps : List Piece) : Text := ps.flatMap Piece.source

/-- What the replacement leaves of several pieces. -/
def replaced (ps : List Piece) : Text := ps.map Piece.replaced

/-- The matches among the pieces with the byte position at which each starts. -/
def matchesFrom : ℕ → List Piece → List (ℕ × Text)
  | _, [] => []
  | offset, .kept c :: ps => matchesFrom (offset + c.utf8Size) ps
  | offset, .continued matched :: ps =>
    (offset, matched) :: matchesFrom (offset + len matched) ps

/-- `CONTINUATION_RE.find_iter`. -/
def findIter (content : Text) : List (ℕ × Text) := matchesFrom 0 (pieces 0 content)

/-- `str::match_indices` of the newline, for a text that starts at the byte position `offset`. -/
def newlineOffsets : ℕ → Text → List ℕ
  | _, [] => []
  | offset, c :: rest =>
    if c = '\n' then offset :: newlineOffsets (offset + c.utf8Size) rest
    else newlineOffsets (offset + c.utf8Size) rest

/-! ### Joining -/

/-- `join_continuations`. -/
def joinContinuations (content : Text) : Text := replaced (pieces 0 content)

/-- The set `continued_newlines`: the newlines that the matches took. -/
def continuedNewlines (content : Text) : List ℕ :=
  (findIter content).filterMap fun found => (find '\n' found.2).map (found.1 + ·)

/-- `join_continuations_with_origins`. -/
def joinContinuationsWithOrigins (content : Text) : Text × List ℕ :=
  let joined := joinContinuations content
  let continued := continuedNewlines content
  let origins := 0 :: (newlineOffsets 0 content).zipIdx.filterMap fun newline =>
    if newline.1 ∈ continued then none else some (newline.2 + 1)
  (joined, origins.take (lines joined).length)

example : joinContinuationsWithOrigins (lit "a \\ \r\n\t b\\\nc\n\nd\\\n") =
    (lit "a  b c\n\nd ", [0, 3, 4]) := by decide

/-! ### The pieces of a text -/

theorem count_takeWhile_isBlank (text : Text) : (text.takeWhile isBlank).count '\n' = 0 := by
  rw [List.count_eq_zero]
  intro hmem
  exact absurd (List.mem_takeWhile_imp hmem) (by decide)

theorem continuationAt_eq_some {text matched : Text} (h : continuationAt text = some matched) :
    matched <+: text ∧ matched ≠ [] ∧ matched.count '\n' = 1 := by
  unfold continuationAt at h
  split at h
  · rename_i rest
    have hrest := List.takeWhile_append_dropWhile (p := isBlank) (l := rest)
    split at h
    · rename_i next hdrop
      have hnext := List.takeWhile_append_dropWhile (p := isBlank) (l := next)
      obtain rfl := Option.some.inj h
      refine ⟨⟨next.dropWhile isBlank, ?_⟩, by simp, ?_⟩
      · simp only [List.cons_append, List.append_assoc, hnext]
        rw [← hdrop, hrest]
      · simp [count_takeWhile_isBlank]
    · rename_i next hdrop
      have hnext := List.takeWhile_append_dropWhile (p := isBlank) (l := next)
      obtain rfl := Option.some.inj h
      refine ⟨⟨next.dropWhile isBlank, ?_⟩, by simp, ?_⟩
      · simp only [List.cons_append, List.append_assoc, hnext]
        rw [← hdrop, hrest]
      · simp [count_takeWhile_isBlank]
    · exact absurd h (by simp)
  · exact absurd h (by simp)

theorem source_pieces_skip (skip : ℕ) (text : Text) : source (pieces skip text) = text.drop skip := by
  induction text generalizing skip with
  | nil => cases skip <;> rfl
  | cons c rest ih =>
    cases skip with
    | succ n => exact ih n
    | zero =>
      unfold pieces
      split
      · rename_i matched hmatched
        obtain ⟨⟨after, hafter⟩, hne, -⟩ := continuationAt_eq_some hmatched
        obtain ⟨d, tail, rfl⟩ := List.exists_cons_of_ne_nil hne
        obtain ⟨rfl, rfl⟩ := List.cons.inj hafter
        have htail : source (pieces tail.length (tail ++ after)) = after :=
          (ih tail.length).trans List.drop_left
        exact congrArg (d :: tail ++ ·) htail
      · exact congrArg (c :: ·) (ih 0)

/-- The pieces of a text put together are the text. -/
theorem source_pieces (content : Text) : source (pieces 0 content) = content :=
  source_pieces_skip 0 content

/-- A match takes exactly one newline. -/
def Piece.Sound : Piece → Prop
  | .kept _ => True
  | .continued matched => matched.count '\n' = 1

theorem sound_of_mem_pieces {skip : ℕ} {text : Text} {p : Piece} (h : p ∈ pieces skip text) :
    p.Sound := by
  induction text generalizing skip with
  | nil => cases skip <;> exact absurd h (by simp [pieces])
  | cons c rest ih =>
    cases skip with
    | succ n => exact ih h
    | zero =>
      unfold pieces at h
      split at h
      · rename_i matched hmatched
        rcases List.mem_cons.mp h with rfl | h
        · exact (continuationAt_eq_some hmatched).2.2
        · exact ih h
      · rcases List.mem_cons.mp h with rfl | h
        · trivial
        · exact ih h

/-! ### Newlines -/

theorem newlineOffsets_append (offset : ℕ) (text rest : Text) :
    newlineOffsets offset (text ++ rest) =
      newlineOffsets offset text ++ newlineOffsets (offset + len text) rest := by
  induction text generalizing offset with
  | nil => rfl
  | cons c text ih =>
    simp only [List.cons_append, newlineOffsets, ih, len_cons, Nat.add_assoc]
    split <;> rfl

theorem newlineOffsets_eq_nil {offset : ℕ} {text : Text} (h : text.count '\n' = 0) :
    newlineOffsets offset text = [] := by
  induction text generalizing offset with
  | nil => rfl
  | cons c text ih =>
    rw [List.count_eq_zero, List.mem_cons, not_or] at h
    have htext : text.count '\n' = 0 := List.count_eq_zero.mpr h.2
    rw [newlineOffsets, if_neg (fun hc => h.1 hc.symm), ih htext]

/-- The newlines that the matches took, for pieces that start at the byte position `offset`. -/
def takenFrom (offset : ℕ) (ps : List Piece) : List ℕ :=
  (matchesFrom offset ps).filterMap fun found => (find '\n' found.2).map (found.1 + ·)

theorem takenFrom_kept (offset : ℕ) (c : Char) (ps : List Piece) :
    takenFrom offset (.kept c :: ps) = takenFrom (offset + c.utf8Size) ps := rfl

theorem takenFrom_continued (offset : ℕ) {front rest : Text} (h : front.count '\n' = 0)
    (ps : List Piece) :
    takenFrom offset (.continued (front ++ '\n' :: rest) :: ps) =
      (offset + len front) :: takenFrom (offset + len (front ++ '\n' :: rest)) ps := by
  simp [takenFrom, matchesFrom, find_append (List.count_eq_zero.mp h)]

/-- A match is cut at its newline. -/
theorem Piece.Sound.cut {matched : Text} (h : (Piece.continued matched).Sound) :
    ∃ front rest, matched = front ++ '\n' :: rest ∧ front.count '\n' = 0 ∧ rest.count '\n' = 0 := by
  have hcount : matched.count '\n' = 1 := h
  have hmem : '\n' ∈ matched := List.count_pos_iff.mp (hcount ▸ Nat.one_pos)
  obtain ⟨front, rest, rfl, hfront⟩ := List.eq_append_cons_of_mem hmem
  have hnone := List.count_eq_zero.mpr hfront
  rw [List.count_append, List.count_cons_self, hnone] at hcount
  exact ⟨front, rest, rfl, hnone, by omega⟩

theorem le_of_mem_takenFrom {ps : List Piece} (hsound : ∀ p ∈ ps, p.Sound) {offset o : ℕ}
    (h : o ∈ takenFrom offset ps) : offset ≤ o := by
  induction ps generalizing offset with
  | nil => exact absurd h (by simp [takenFrom, matchesFrom])
  | cons p ps ih =>
    have htail : ∀ p ∈ ps, p.Sound := fun q hq => hsound q (List.mem_cons_of_mem p hq)
    cases p with
    | kept c => exact (Nat.le_add_right _ _).trans (ih htail h)
    | continued matched =>
      obtain ⟨front, rest, rfl, hfront, -⟩ := (hsound _ List.mem_cons_self).cut
      rw [takenFrom_continued offset hfront, List.mem_cons] at h
      rcases h with rfl | h
      · exact Nat.le_add_right _ _
      · exact (Nat.le_add_right _ _).trans (ih htail h)

/-! ### The lines after the newlines that stay -/

/-- The physical line after every newline outside the matches; `physical` is the line on which the
pieces start. -/
def startsFrom : ℕ → List Piece → List ℕ
  | _, [] => []
  | physical, .kept c :: ps =>
    if c = '\n' then (physical + 1) :: startsFrom (physical + 1) ps else startsFrom physical ps
  | physical, .continued _ :: ps => startsFrom (physical + 1) ps

/-- The newlines whose position the matches did not take are the newlines outside the matches. -/
theorem filterMap_newlineOffsets {ps : List Piece} (hsound : ∀ p ∈ ps, p.Sound)
    {offset : ℕ} {taken : List ℕ} (htaken : ∀ o, offset ≤ o → (o ∈ taken ↔ o ∈ takenFrom offset ps))
    (physical : ℕ) :
    ((newlineOffsets offset (source ps)).zipIdx physical).filterMap (fun newline =>
      if newline.1 ∈ taken then none else some (newline.2 + 1)) = startsFrom physical ps := by
  induction ps generalizing offset physical with
  | nil => rfl
  | cons p ps ih =>
    have htail : ∀ p ∈ ps, p.Sound := fun q hq => hsound q (List.mem_cons_of_mem p hq)
    cases p with
    | kept c =>
      have hnext : ∀ o, offset + c.utf8Size ≤ o →
          (o ∈ taken ↔ o ∈ takenFrom (offset + c.utf8Size) ps) := fun o ho =>
        htaken o ((Nat.le_add_right _ _).trans ho)
      have hsource : source (.kept c :: ps) = c :: source ps := rfl
      rw [hsource, newlineOffsets, startsFrom]
      by_cases hc : c = '\n'
      · have hout : offset ∉ taken := by
          rw [htaken offset le_rfl, takenFrom_kept]
          intro hmem
          have := le_of_mem_takenFrom htail hmem
          have := c.utf8Size_pos
          omega
        rw [if_pos hc, if_pos hc, List.zipIdx_cons,
          List.filterMap_cons_some (b := physical + 1) (by rw [if_neg hout]), ih htail hnext]
      · rw [if_neg hc, if_neg hc, ih htail hnext]
    | continued matched =>
      obtain ⟨front, rest, rfl, hfront, hrest⟩ := (hsound _ List.mem_cons_self).cut
      have hsource : source (.continued (front ++ '\n' :: rest) :: ps) =
          front ++ ('\n' :: (rest ++ source ps)) := by
        simp [source, Piece.source]
      have hlen : len (front ++ '\n' :: rest) = len front + ('\n'.utf8Size + len rest) := by
        rw [len_append, len_cons]
      have hin : offset + len front ∈ taken := by
        rw [htaken _ (Nat.le_add_right _ _), takenFrom_continued offset hfront]
        exact List.mem_cons_self
      have hnext : ∀ o, offset + len (front ++ '\n' :: rest) ≤ o →
          (o ∈ taken ↔ o ∈ takenFrom (offset + len (front ++ '\n' :: rest)) ps) := by
        intro o ho
        have hpos := ('\n').utf8Size_pos
        rw [htaken o ((Nat.le_add_right _ _).trans ho), takenFrom_continued offset hfront,
          List.mem_cons, or_iff_right (by omega)]
      rw [hsource, newlineOffsets_append, newlineOffsets_eq_nil hfront, List.nil_append,
        newlineOffsets, if_pos rfl, List.zipIdx_cons,
        List.filterMap_cons_none (by rw [if_pos hin]), newlineOffsets_append,
        newlineOffsets_eq_nil hrest, List.nil_append, Nat.add_assoc, Nat.add_assoc, ← hlen,
        ih htail hnext, startsFrom]

theorem length_startsFrom (physical : ℕ) (ps : List Piece) :
    (startsFrom physical ps).length = (replaced ps).count '\n' := by
  induction ps generalizing physical with
  | nil => rfl
  | cons p ps ih =>
    cases p with
    | kept c =>
      have hreplaced : replaced (.kept c :: ps) = c :: replaced ps := rfl
      rw [startsFrom, hreplaced, List.count_cons]
      by_cases hc : c = '\n'
      · simp [hc, ih]
      · simp [hc, ih]
    | continued matched =>
      have hreplaced : replaced (.continued matched :: ps) = ' ' :: replaced ps := rfl
      rw [startsFrom, hreplaced, ih, List.count_cons_of_ne (by decide)]

theorem lt_of_mem_startsFrom {physical origin : ℕ} {ps : List Piece}
    (h : origin ∈ startsFrom physical ps) : physical < origin := by
  induction ps generalizing physical with
  | nil => exact absurd h (by simp [startsFrom])
  | cons p ps ih =>
    cases p with
    | kept c =>
      rw [startsFrom] at h
      split at h
      · rcases List.mem_cons.mp h with rfl | h
        · exact Nat.lt_succ_self _
        · exact (Nat.lt_succ_self _).trans (ih h)
      · exact ih h
    | continued matched => exact (Nat.lt_succ_self _).trans (ih h)

theorem pairwise_startsFrom (physical : ℕ) (ps : List Piece) :
    (startsFrom physical ps).Pairwise (· < ·) := by
  induction ps generalizing physical with
  | nil => exact List.Pairwise.nil
  | cons p ps ih =>
    cases p with
    | kept c =>
      rw [startsFrom]
      split
      · exact List.pairwise_cons.mpr ⟨fun _ h => lt_of_mem_startsFrom h, ih _⟩
      · exact ih _
    | continued matched => exact ih _

/-- Pieces that end with a newline outside the matches. -/
def EndsLine (ps : List Piece) : Prop := ps.getLast? = some (.kept '\n')

theorem endsLine_cons {p : Piece} {ps : List Piece} (h : EndsLine ps) : EndsLine (p :: ps) := by
  rw [EndsLine, List.getLast?_cons, show ps.getLast? = some (.kept '\n') from h]
  rfl

/-- A line of `startsFrom` is the physical line after the newlines of the pieces before it, those
that the matches took among them. -/
theorem exists_of_getElem?_startsFrom {ps : List Piece} (hsound : ∀ p ∈ ps, p.Sound)
    {physical i origin : ℕ} (h : (startsFrom physical ps)[i]? = some origin) :
    ∃ before after, ps = before ++ after ∧ EndsLine before ∧
      (replaced before).count '\n' = i + 1 ∧ origin = physical + (source before).count '\n' := by
  induction ps generalizing physical i with
  | nil => exact absurd h (by simp [startsFrom])
  | cons p ps ih =>
    have htail : ∀ p ∈ ps, p.Sound := fun q hq => hsound q (List.mem_cons_of_mem p hq)
    cases p with
    | kept c =>
      rw [startsFrom] at h
      by_cases hc : c = '\n'
      · subst hc
        rw [if_pos rfl] at h
        cases i with
        | zero => exact ⟨[.kept '\n'], ps, rfl, rfl, rfl, (Option.some.inj h).symm⟩
        | succ i =>
          obtain ⟨before, after, rfl, hends, hcount, rfl⟩ := ih htail h
          refine ⟨.kept '\n' :: before, after, rfl, endsLine_cons hends, ?_, ?_⟩
          · change ('\n' :: replaced before).count '\n' = i + 1 + 1
            rw [List.count_cons_self, hcount]
          · change _ = physical + ('\n' :: source before).count '\n'
            rw [List.count_cons_self]
            omega
      · rw [if_neg hc] at h
        obtain ⟨before, after, rfl, hends, hcount, rfl⟩ := ih htail h
        refine ⟨.kept c :: before, after, rfl, endsLine_cons hends, ?_, ?_⟩
        · change (c :: replaced before).count '\n' = i + 1
          rw [List.count_cons_of_ne hc, hcount]
        · change _ = physical + (c :: source before).count '\n'
          rw [List.count_cons_of_ne hc]
    | continued matched =>
      obtain ⟨before, after, rfl, hends, hcount, rfl⟩ := ih htail h
      refine ⟨.continued matched :: before, after, rfl, endsLine_cons hends, ?_, ?_⟩
      · change (' ' :: replaced before).count '\n' = i + 1
        rw [List.count_cons_of_ne (by decide), hcount]
      · have hone : matched.count '\n' = 1 := hsound _ List.mem_cons_self
        change _ = physical + (matched ++ source before).count '\n'
        rw [List.count_append, hone]
        omega

/-! ### The lines of a text -/

theorem lines_cons_newline {front : Text} (h : '\n' ∉ front) (rest : Text) :
    lines (front ++ '\n' :: rest) = stripCr front :: lines rest := by
  have hne : rest.splitOn '\n' ≠ [] := List.splitOn_ne_nil _ _
  simp only [lines, List.splitOn_append_cons_self_of_not_mem h]
  rw [List.dropLast_cons_of_ne_nil hne, List.getLast?_cons_of_ne_nil hne]
  rfl

theorem lines_of_not_mem {text : Text} (h : '\n' ∉ text) (hne : text ≠ []) : lines text = [text] := by
  simp [lines, List.splitOn_eq_singleton h, hne]

/-- The first line is there when the text is not empty, and the text starts with it. -/
theorem head?_lines {text line : Text} (h : (lines text).head? = some line) :
    text ≠ [] ∧ line <+: text := by
  by_cases hmem : '\n' ∈ text
  · obtain ⟨front, rest, rfl, hfront⟩ := List.eq_append_cons_of_mem hmem
    rw [lines_cons_newline hfront] at h
    obtain rfl := Option.some.inj h
    refine ⟨by simp, List.IsPrefix.trans ?_ (List.prefix_append front _)⟩
    unfold stripCr
    split
    · exact List.dropLast_prefix front
    · exact List.prefix_rfl
  · have hne : text ≠ [] := by
      rintro rfl
      exact absurd h (by simp [lines])
    rw [lines_of_not_mem hmem hne] at h
    obtain rfl := Option.some.inj h
    exact ⟨hne, List.prefix_rfl⟩

theorem length_lines_le (text : Text) : (lines text).length ≤ text.count '\n' + 1 := by
  generalize hn : text.count '\n' = n
  induction n generalizing text with
  | zero =>
    have hmem : '\n' ∉ text := List.count_eq_zero.mp hn
    rcases eq_or_ne text [] with rfl | hne
    · decide
    · rw [lines_of_not_mem hmem hne]
      rfl
  | succ n ih =>
    have hmem : '\n' ∈ text := List.count_pos_iff.mp (hn ▸ Nat.succ_pos n)
    obtain ⟨front, rest, rfl, hfront⟩ := List.eq_append_cons_of_mem hmem
    rw [List.count_append, List.count_cons_self, List.count_eq_zero.mpr hfront] at hn
    rw [lines_cons_newline hfront, List.length_cons]
    exact Nat.succ_le_succ (ih rest (by omega))

/-- A text that ends with a newline has as many lines as newlines, and the lines of what follows
come after them. -/
theorem getElem?_lines_append {front : Text} (hfront : front.getLast? = some '\n') (rest : Text) :
    (lines (front ++ rest))[front.count '\n']? = (lines rest).head? := by
  generalize hn : front.count '\n' = n
  induction n generalizing front with
  | zero =>
    exact absurd (List.mem_of_getLast? hfront) (List.count_eq_zero.mp hn)
  | succ n ih =>
    have hmem : '\n' ∈ front := List.count_pos_iff.mp (hn ▸ Nat.succ_pos n)
    obtain ⟨a, b, rfl, ha⟩ := List.eq_append_cons_of_mem hmem
    rw [List.count_append, List.count_cons_self, List.count_eq_zero.mpr ha] at hn
    rw [List.append_assoc, List.cons_append, lines_cons_newline ha, List.getElem?_cons_succ]
    rcases eq_or_ne b [] with rfl | hb
    · obtain rfl : n = 0 := by simpa using hn.symm
      rw [List.nil_append, List.head?_eq_getElem?]
    · have hlast : b.getLast? = some '\n' := by
        rw [List.getLast?_append_of_ne_nil _ (by simp), List.getLast?_cons_of_ne_nil hb] at hfront
        exact hfront
      exact ih hlast (by omega)

/-! ### The origins -/

theorem getLast?_replaced {ps : List Piece} (h : EndsLine ps) :
    (replaced ps).getLast? = some '\n' := by
  rw [replaced, List.getLast?_map, show ps.getLast? = some (.kept '\n') from h]
  rfl

/-- The origins are the first line and the lines after the newlines outside the matches. -/
theorem joinContinuationsWithOrigins_eq (content : Text) :
    joinContinuationsWithOrigins content = (joinContinuations content,
      (0 :: startsFrom 0 (pieces 0 content)).take (lines (joinContinuations content)).length) := by
  have horigins : ((newlineOffsets 0 (source (pieces 0 content))).zipIdx 0).filterMap (fun newline =>
      if newline.1 ∈ continuedNewlines content then none else some (newline.2 + 1)) =
      startsFrom 0 (pieces 0 content) :=
    filterMap_newlineOffsets (fun p hp => sound_of_mem_pieces hp) (fun _ _ => Iff.rfl) 0
  rw [source_pieces] at horigins
  rw [joinContinuationsWithOrigins, horigins]

/-- **The origins of the joined lines.** There is one for each line of the joined text, they
increase strictly, and the origin of line `i` is the number of physical newlines before the piece
whose character the line starts with, those that the continuations took among them. The pieces
before it leave `i` newlines in the joined text and end with the last of them. -/
theorem origins_of_joined_lines (content : Text) :
    let r := joinContinuationsWithOrigins content
    r.1 = joinContinuations content ∧ r.2.length = (lines r.1).length ∧ r.2.Pairwise (· < ·) ∧
      ∀ i line origin, (lines r.1)[i]? = some line → r.2[i]? = some origin →
        ∃ before first after, pieces 0 content = before ++ first :: after ∧
          content = source before ++ source (first :: after) ∧
          r.1 = replaced before ++ replaced (first :: after) ∧
          (before = [] ∨ EndsLine before) ∧ (replaced before).count '\n' = i ∧
          line <+: replaced (first :: after) ∧ origin = (source before).count '\n' := by
  rw [joinContinuationsWithOrigins_eq]
  have hsound : ∀ p ∈ pieces 0 content, p.Sound := fun p hp => sound_of_mem_pieces hp
  have hcontent := source_pieces content
  simp only [joinContinuations]
  refine ⟨trivial, ?_, ?_, ?_⟩
  · rw [List.length_take, List.length_cons, length_startsFrom]
    exact min_eq_left (length_lines_le _)
  · refine List.Pairwise.sublist (List.take_sublist _ _) (List.pairwise_cons.mpr ⟨?_, ?_⟩)
    · exact fun _ h => lt_of_mem_startsFrom h
    · exact pairwise_startsFrom 0 _
  · intro i line origin hline horigin
    rw [List.getElem?_take_of_lt (List.getElem?_eq_some_iff.mp hline).1] at horigin
    generalize pieces 0 content = ps at *
    subst hcontent
    have hcut : ∃ before after, ps = before ++ after ∧ (before = [] ∨ EndsLine before) ∧
        (replaced before).count '\n' = i ∧ origin = (source before).count '\n' := by
      cases i with
      | zero => exact ⟨[], ps, rfl, .inl rfl, rfl, (Option.some.inj horigin).symm⟩
      | succ i =>
        obtain ⟨before, after, hps, hends, hcount, hsum⟩ :=
          exists_of_getElem?_startsFrom hsound horigin
        exact ⟨before, after, hps, .inr hends, hcount, hsum.trans (Nat.zero_add _)⟩
    obtain ⟨before, after, rfl, hbefore, rfl, rfl⟩ := hcut
    have hhead : (lines (replaced after)).head? = some line := by
      rcases hbefore with rfl | hends
      · rw [List.head?_eq_getElem?]
        exact hline
      · rw [← getElem?_lines_append (getLast?_replaced hends), ← hline]
        simp [replaced]
    obtain ⟨hne, hprefix⟩ := head?_lines hhead
    obtain ⟨first, rest, rfl⟩ := List.exists_cons_of_ne_nil (l := after) (by
      rintro rfl
      exact hne rfl)
    exact ⟨before, first, rest, rfl, List.flatMap_append, List.map_append, hbefore, rfl, hprefix,
      rfl⟩

end JoinedLines

end ArosTools
