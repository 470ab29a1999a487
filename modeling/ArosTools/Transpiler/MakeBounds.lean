import ArosTools.Program.Scoped
import ArosTools.Transpiler.MakeScan

/-!
# The scanners stop at character boundaries

Every position at which a scanner cuts a text lies before or after an ASCII character, so the cut
falls on a boundary and the slice exists.

* `referenceEnd_eq` : the end of a reference, as a scan over characters.
* `splitTopLevel_noPanic`, `splitSubstitutionReference_noPanic`, `patternStem_noPanic` : the other
  scanners do not panic.
-/

namespace ArosTools

namespace MakeExpr

open Str

/-- A result that is no panic. -/
def NoPanic {α : Type} (r : Except Halt α) : Prop := ∀ h, r = .error h → h.isPanic = false

/-- A byte position between two characters. -/
def Boundary (text : Text) (i : ℕ) : Prop := ∃ pre post, text = pre ++ post ∧ len pre = i

/-! ### Slices at boundaries -/

theorem slicedFrom_append (a b : Text) : slicedFrom (a ++ b) (len a) = .ok b := by
  rw [slicedFrom, sliceFrom_append]

theorem slicedTo_append (a b : Text) : slicedTo (a ++ b) (len a) = .ok a := by
  rw [slicedTo, sliceTo_append]

theorem sliced_append (a b c : Text) :
    sliced (a ++ (b ++ c)) (len a) (len a + len b) = .ok b := by
  rw [sliced, slice_append]

theorem Boundary.slicedFrom {text : Text} {i : ℕ} (h : Boundary text i) :
    ∃ part, MakeExpr.slicedFrom text i = .ok part := by
  obtain ⟨pre, post, rfl, rfl⟩ := h
  exact ⟨post, slicedFrom_append pre post⟩

theorem Boundary.slicedTo {text : Text} {i : ℕ} (h : Boundary text i) :
    ∃ part, MakeExpr.slicedTo text i = .ok part := by
  obtain ⟨pre, post, rfl, rfl⟩ := h
  exact ⟨pre, slicedTo_append pre post⟩

theorem Boundary.zero (text : Text) : Boundary text 0 := ⟨[], text, rfl, rfl⟩

/-- Two boundaries in order bound a slice. -/
theorem Boundary.sliced {text : Text} {i j : ℕ} (hi : Boundary text i) (hj : Boundary text j)
    (hij : i ≤ j) : ∃ part, MakeExpr.sliced text i j = .ok part := by
  obtain ⟨a, b, rfl, rfl⟩ := hi
  obtain ⟨c, d, htext, rfl⟩ := hj
  -- Of two prefixes of one text the one with fewer bytes is a prefix of the other.
  rcases List.append_eq_append_iff.mp htext with ⟨mid, rfl, rfl⟩ | ⟨mid, rfl, rfl⟩
  · refine ⟨mid, ?_⟩
    rw [len_append]
    exact sliced_append a mid d
  · have hmid : mid = [] := by
      rw [len_append] at hij
      exact len_eq_zero.mp (by omega)
    subst hmid
    refine ⟨[], ?_⟩
    simpa using sliced_append c [] b

/-- An ASCII byte stands between two boundaries. -/
theorem boundary_of_byte {text : Text} {i : ℕ} {b : UInt8} (h : (bytes text)[i]? = some b)
    (hb : b < 0x80) : Boundary text i ∧ Boundary text (i + 1) := by
  obtain ⟨pre, c, post, rfl, rfl, hc, -⟩ := exists_of_bytes_ascii h hb
  refine ⟨⟨pre, c :: post, rfl, rfl⟩, pre ++ [c], post, by simp, ?_⟩
  simp [utf8Size_ascii hc]

/-! ### Bytes of characters -/

theorem byte_inj {c d : Char} (hc : c.toNat < 0x80) (hd : d.toNat < 0x80) :
    byte c = byte d ↔ c = d := by
  refine ⟨fun h => ?_, fun h => h ▸ rfl⟩
  have hnat := congrArg UInt8.toNat h
  simp only [byte, UInt8.toNat_ofNat'] at hnat
  exact Char.toNat_inj.mp (by omega)

theorem byte_lt {c : Char} (hc : c.toNat < 0x80) : byte c < 0x80 := by
  rw [UInt8.lt_iff_toNat_lt, byte, UInt8.toNat_ofNat']
  simpa using Nat.lt_of_le_of_lt (Nat.mod_le _ _) hc

/-- The first byte is that of an ASCII character exactly if the first character is it. -/
theorem head?_bytes {d : Char} (hd : d.toNat < 0x80) (text : Text) :
    (bytes text).head? = some (byte d) ↔ text.head? = some d := by
  cases text with
  | nil => simp
  | cons c text =>
    rcases Nat.lt_or_ge c.toNat 0x80 with hc | hc
    · rw [bytes_cons_ascii hc, List.head?_cons, List.head?_cons, Option.some.injEq,
        Option.some.injEq, byte_inj hc hd]
    · have hne : c ≠ d := fun h => by
        rw [h] at hc
        omega
      have hbyte : (bytes (c :: text)).head? ≠ some (byte d) := fun h => by
        rw [bytes, List.head?_append_of_ne_nil _ String.utf8EncodeChar_ne_nil] at h
        exact absurd (byte_lt hd)
          (UInt8.not_lt.mpr (utf8EncodeChar_wide hc (List.mem_of_mem_head? h)))
      simp [hne, hbyte]

/-! ### The end of a reference -/

/-- The body of a reference and what follows its closing parenthesis. -/
def closing : ℕ → Text → Option (Text × Text)
  | _, [] => none
  | depth, [c] => if c = ')' && depth = 1 then some ([], []) else none
  | depth, c :: d :: rest =>
    if c = '$' && d = '(' then
      (closing (depth + 1) rest).map fun parts => (c :: d :: parts.1, parts.2)
    else if c = ')' then
      if depth = 1 then some ([], d :: rest)
      else (closing (depth - 1) (d :: rest)).map fun parts => (c :: parts.1, parts.2)
    else (closing depth (d :: rest)).map fun parts => (c :: parts.1, parts.2)

theorem referenceEndFrom_cons (depth cursor : ℕ) (b : UInt8) (rest : List UInt8) :
    referenceEndFrom depth cursor (b :: rest) =
      if b = byte '$' ∧ rest.head? = some (byte '(') then
        referenceEndFrom (depth + 1) (cursor + 2) rest.tail
      else if b = byte ')' then
        if depth = 1 then some cursor else referenceEndFrom (depth - 1) (cursor + 1) rest
      else referenceEndFrom depth (cursor + 1) rest := by
  cases rest with
  | nil =>
    by_cases hb : b = byte ')' <;> by_cases hd : depth = 1 <;> simp [referenceEndFrom, hb, hd]
  | cons c rest => simp [referenceEndFrom]

theorem referenceEndFrom_wide (depth cursor : ℕ) (wide rest : List UInt8)
    (h : ∀ b ∈ wide, 0x80 ≤ b) :
    referenceEndFrom depth cursor (wide ++ rest) =
      referenceEndFrom depth (cursor + wide.length) rest := by
  induction wide generalizing cursor with
  | nil => rfl
  | cons b wide ih =>
    have hb : (0x80 : UInt8) ≤ b := h b (.head _)
    have hdollar : b ≠ byte '$' := fun heq => by rw [heq] at hb; exact absurd hb (by decide)
    have hclose : b ≠ byte ')' := fun heq => by rw [heq] at hb; exact absurd hb (by decide)
    rw [List.cons_append, referenceEndFrom_cons, if_neg fun hand => hdollar hand.1, if_neg hclose,
      ih _ fun b hb => h b (.tail _ hb), List.length_cons, Nat.add_assoc, Nat.add_comm 1]

theorem closing_cons (depth : ℕ) (c : Char) (rest : Text) :
    closing depth (c :: rest) =
      if c = '$' ∧ rest.head? = some '(' then
        (closing (depth + 1) rest.tail).map fun parts => (c :: '(' :: parts.1, parts.2)
      else if c = ')' then
        if depth = 1 then some ([], rest)
        else (closing (depth - 1) rest).map fun parts => (c :: parts.1, parts.2)
      else (closing depth rest).map fun parts => (c :: parts.1, parts.2) := by
  cases rest with
  | nil => by_cases hc : c = ')' <;> by_cases hd : depth = 1 <;> simp [closing, hc, hd]
  | cons d rest =>
    by_cases hd : d = '('
    · simp [closing, hd]
    · simp [closing, hd]

/-- The scan over bytes is the scan over characters. -/
theorem referenceEndFrom_bytes (text : Text) (depth cursor : ℕ) :
    referenceEndFrom depth cursor (bytes text) =
      (closing depth text).map fun parts => cursor + len parts.1 := by
  induction hn : text.length using Nat.strong_induction_on generalizing text depth cursor with
  | _ n ih =>
    cases text with
    | nil => rfl
    | cons c rest =>
      have hrest := ih rest.length (by simp only [List.length_cons] at hn; omega) rest
      rw [closing_cons]
      rcases Nat.lt_or_ge c.toNat 0x80 with hc | hc
      · rw [bytes_cons_ascii hc, referenceEndFrom_cons]
        simp only [byte_inj hc (show '$'.toNat < 0x80 by decide),
          byte_inj hc (show ')'.toNat < 0x80 by decide), head?_bytes (show '('.toNat < 0x80 by decide)]
        split_ifs with hopen hclose hdepth
        · obtain ⟨rfl, hhead⟩ := hopen
          obtain ⟨tail, rfl⟩ : ∃ tail, rest = '(' :: tail := by
            cases rest with
            | nil => cases hhead
            | cons d tail => exact ⟨tail, by rw [List.head?_cons, Option.some.injEq] at hhead; rw [hhead]⟩
          rw [bytes_cons_ascii (by decide), List.tail_cons, List.tail_cons,
            ih tail.length (by simp only [List.length_cons] at hn; omega) tail _ _ rfl, Option.map_map]
          congr 1
          funext parts
          simp [Char.utf8Size]
          omega
        · simp
        · rw [hrest _ _ rfl, Option.map_map]
          congr 1
          funext parts
          simp [utf8Size_ascii hc]
          omega
        · rw [hrest _ _ rfl, Option.map_map]
          congr 1
          funext parts
          simp [utf8Size_ascii hc]
          omega
      · have hdollar : ¬(c = '$' ∧ rest.head? = some '(') := fun h => by
          rw [h.1] at hc
          exact absurd hc (by decide)
        have hclose : c ≠ ')' := fun h => by
          rw [h] at hc
          exact absurd hc (by decide)
        rw [bytes, referenceEndFrom_wide _ _ _ _ fun b hb => utf8EncodeChar_wide hc hb,
          String.length_utf8EncodeChar, hrest _ _ rfl, if_neg hdollar, if_neg hclose,
          Option.map_map]
        congr 1
        funext parts
        simp [Nat.add_assoc]

theorem closing_some {depth : ℕ} {text body after : Text}
    (h : closing depth text = some (body, after)) : text = body ++ ')' :: after := by
  induction hn : text.length using Nat.strong_induction_on generalizing text depth body with
  | _ n ih =>
    cases text with
    | nil => cases h
    | cons c rest =>
      rw [closing_cons] at h
      split_ifs at h with hopen hclose hdepth
      · obtain ⟨rfl, hhead⟩ := hopen
        cases rest with
        | nil => cases hhead
        | cons d tail =>
          obtain rfl : d = '(' := by simpa using hhead
          obtain ⟨⟨b, a⟩, hb, heq⟩ := Option.map_eq_some_iff.mp h
          obtain ⟨rfl, rfl⟩ := Prod.mk.inj heq
          rw [List.tail_cons] at hb
          rw [ih tail.length (by simp only [List.length_cons] at hn; omega) hb rfl]
          rfl
      · obtain ⟨rfl, rfl⟩ := Prod.mk.inj (Option.some.inj h)
        rw [hclose, List.nil_append]
      · obtain ⟨⟨b, a⟩, hb, heq⟩ := Option.map_eq_some_iff.mp h
        obtain ⟨rfl, rfl⟩ := Prod.mk.inj heq
        rw [ih rest.length (by simp only [List.length_cons] at hn; omega) hb rfl]
        rfl
      · obtain ⟨⟨b, a⟩, hb, heq⟩ := Option.map_eq_some_iff.mp h
        obtain ⟨rfl, rfl⟩ := Prod.mk.inj heq
        rw [ih rest.length (by simp only [List.length_cons] at hn; omega) hb rfl]
        rfl

/-- **The end of a reference**, for a reference that begins at a boundary. -/
theorem referenceEnd_eq (pre tail : Text) :
    referenceEnd (pre ++ '$' :: '(' :: tail) (len pre) =
      match closing 1 tail with
      | some (body, _) => .ok (len pre + 2 + len body)
      | none => .error (.error (.invalidSyntax (boundedPreview ('$' :: '(' :: tail))
          (lit "unclosed `$(...)` reference"))) := by
  have hdrop : (bytes (pre ++ '$' :: '(' :: tail)).drop (len pre + 2) = bytes tail := by
    have hbytes : bytes (pre ++ '$' :: '(' :: tail) = (bytes pre ++ [byte '$', byte '(']) ++ bytes tail := by
      rw [bytes_append, bytes_cons_ascii (by decide), bytes_cons_ascii (by decide),
        List.append_assoc]
      rfl
    have hlen : len pre + 2 = (bytes pre ++ [byte '$', byte '(']).length := by simp
    rw [hbytes, hlen, List.drop_left]
  rw [referenceEnd, hdrop, referenceEndFrom_bytes]
  cases closing 1 tail with
  | none =>
    rw [slicedFrom_append]
    rfl
  | some parts => rfl

/-! ### Cuts at the top level -/

theorem topLevelFrom_some {p : UInt8 → Bool} {depth cursor k : ℕ} {bs : List UInt8}
    (h : topLevelFrom p depth cursor bs = some k) :
    ∃ i b, k = cursor + i ∧ bs[i]? = some b ∧ p b = true := by
  fun_induction topLevelFrom p depth cursor bs with
  | case1 => cases h
  | case2 => cases h
  | case3 depth cursor b _ hp =>
    obtain rfl := Option.some.inj h
    exact ⟨0, b, rfl, rfl, (by simpa using hp : p b = true ∧ depth = 0).1⟩
  | case4 => cases h
  | case5 depth cursor b c rest _ ih =>
    obtain ⟨i, d, rfl, hd, hpd⟩ := ih h
    exact ⟨i + 2, d, by omega, by simpa using hd, hpd⟩
  | case6 depth cursor b c rest _ _ ih =>
    obtain ⟨i, d, rfl, hd, hpd⟩ := ih h
    exact ⟨i + 1, d, by omega, by simpa using hd, hpd⟩
  | case7 depth cursor b c rest _ _ hp =>
    obtain rfl := Option.some.inj h
    exact ⟨0, b, rfl, rfl, (by simpa using hp : p b = true ∧ depth = 0).1⟩
  | case8 depth cursor b c rest _ _ _ ih =>
    obtain ⟨i, d, rfl, hd, hpd⟩ := ih h
    exact ⟨i + 1, d, by omega, by simpa using hd, hpd⟩

theorem topLevel_boundary {p : UInt8 → Bool} (hp : ∀ b, p b = true → b < 0x80) {raw : Text} {k : ℕ}
    (h : topLevelFrom p 0 0 (bytes raw) = some k) : Boundary raw k ∧ Boundary raw (k + 1) := by
  obtain ⟨i, b, rfl, hb, hpb⟩ := topLevelFrom_some h
  rw [Nat.zero_add]
  exact boundary_of_byte hb (hp b hpb)

theorem topLevelByte_boundary {needle : Char} (hneedle : needle.toNat < 0x80) {raw : Text} {k : ℕ}
    (h : topLevelByte raw needle = some k) : Boundary raw k ∧ Boundary raw (k + 1) :=
  topLevel_boundary (fun b hb => by
    rw [of_decide_eq_true hb]
    exact byte_lt hneedle) h

theorem isAsciiSpace_lt (b : UInt8) (h : isAsciiSpace b = true) : b < 0x80 := by
  simp only [isAsciiSpace, Bool.or_eq_true, decide_eq_true_eq] at h
  rcases h with (((rfl | rfl) | rfl) | rfl) | rfl <;> decide

theorem topLevelWhitespace_boundary {raw : Text} {k : ℕ} (h : topLevelWhitespace raw = some k) :
    Boundary raw k :=
  (topLevel_boundary isAsciiSpace_lt h).1

theorem splitSubstitutionReference_noPanic (body : Text) :
    NoPanic (splitSubstitutionReference body) := by
  intro h hresult
  unfold splitSubstitutionReference at hresult
  cases hcolon : topLevelByte body ':' with
  | none =>
    rw [hcolon] at hresult
    cases hresult
  | some colon =>
    obtain ⟨hcut, hafter⟩ := topLevelByte_boundary (by decide) hcolon
    obtain ⟨remainder, hremainder⟩ := hafter.slicedFrom
    obtain ⟨name, hname⟩ := hcut.slicedTo
    simp only [hcolon, hremainder, hname, Except.ok_bind] at hresult
    cases hequal : topLevelByte remainder '=' with
    | none =>
      rw [hequal] at hresult
      obtain rfl := Except.error.inj hresult
      rfl
    | some equal =>
      obtain ⟨hcut, hafter⟩ := topLevelByte_boundary (by decide) hequal
      obtain ⟨source, hsource⟩ := hcut.slicedTo
      obtain ⟨target, htarget⟩ := hafter.slicedFrom
      simp only [hequal, hsource, htarget, Except.ok_bind] at hresult
      cases hresult

/-- A result of the loop of `split_top_level` that is no panic and ends at a boundary. -/
def CutsWell (raw : Text) (r : Except Halt (List Text × ℕ × ℕ)) : Prop :=
  NoPanic r ∧ ∀ parts, r = .ok parts → Boundary raw parts.2.1

theorem cutsWell_ok {raw : Text} {out : List Text} {start depth : ℕ} (h : Boundary raw start) :
    CutsWell raw (.ok (out, start, depth)) := by
  refine ⟨fun _ hr => ?_, fun parts hr => ?_⟩
  · cases hr
  · cases hr
    exact h

theorem cutsWell_limit (raw : Text) : CutsWell raw (.error listItemsLimit) := by
  refine ⟨fun _ hr => ?_, fun parts hr => ?_⟩
  · cases hr
    rfl
  · cases hr

/-- The loop of `split_top_level` cuts at boundaries and ends at one. -/
theorem splitTopLevelFrom_cutsWell {raw : Text} {separator : UInt8} (hsep : separator < 0x80)
    (out : List Text) (start depth cursor : ℕ) (bs : List UInt8) (hstart : Boundary raw start)
    (hle : start ≤ cursor) (hbs : ∀ i b, bs[i]? = some b → (bytes raw)[cursor + i]? = some b) :
    CutsWell raw (splitTopLevelFrom raw separator out start depth cursor bs) := by
  -- A separator stands between two boundaries, and the piece before it exists.
  have hpiece : ∀ {start depth cursor : ℕ} {b : UInt8}, Boundary raw start → start ≤ cursor →
      (bytes raw)[cursor]? = some b → (b = separator && depth = 0) = true →
      Boundary raw (cursor + 1) ∧ ∃ piece, sliced raw start cursor = .ok piece := by
    intro start depth cursor b hstart hle hb hcut
    have hb80 : b < 0x80 := by
      rw [(by simpa using hcut : b = separator ∧ depth = 0).1]
      exact hsep
    obtain ⟨hcursor, hnext⟩ := boundary_of_byte hb hb80
    exact ⟨hnext, hstart.sliced hcursor hle⟩
  have hskip : ∀ {cursor n : ℕ} {bs rest : List UInt8},
      (∀ i b, bs[i]? = some b → (bytes raw)[cursor + i]? = some b) →
      (∀ i, rest[i]? = bs[i + n]?) →
      ∀ i b, rest[i]? = some b → (bytes raw)[cursor + n + i]? = some b := by
    intro cursor n bs rest hbs hrest i b hb
    rw [Nat.add_assoc, Nat.add_comm n i]
    exact hbs (i + n) b (by rw [← hrest, hb])
  fun_induction splitTopLevelFrom raw separator out start depth cursor bs with
  | case1 out start depth cursor => exact cutsWell_ok hstart
  | case2 out start depth cursor b _ => exact cutsWell_ok hstart
  | case3 out start depth cursor b _ _ _ => exact cutsWell_limit raw
  | case4 out start depth cursor b _ hcut _ =>
    obtain ⟨hnext, piece, hpiece⟩ := hpiece hstart hle (hbs 0 b rfl) hcut
    rw [hpiece]
    exact cutsWell_ok hnext
  | case5 out start depth cursor b _ _ => exact cutsWell_ok hstart
  | case6 out start depth cursor b c rest _ ih =>
    exact ih hstart (by omega) (hskip hbs fun i => rfl)
  | case7 out start depth cursor b c rest _ _ ih =>
    exact ih hstart (by omega) (hskip hbs fun i => rfl)
  | case8 out start depth cursor b c rest _ _ _ _ => exact cutsWell_limit raw
  | case9 out start depth cursor b c rest _ _ hcut _ ih =>
    obtain ⟨hnext, piece, hpiece⟩ := hpiece hstart hle (hbs 0 b rfl) hcut
    rw [hpiece]
    exact ih piece hnext (Nat.le_refl _) (hskip hbs fun i => rfl)
  | case10 out start depth cursor b c rest _ _ _ ih =>
    exact ih hstart (by omega) (hskip hbs fun i => rfl)

theorem splitTopLevel_noPanic (raw : Text) {separator : Char} (hsep : separator.toNat < 0x80) :
    NoPanic (splitTopLevel raw separator) := by
  intro h hresult
  obtain ⟨hpanic, hboundary⟩ := splitTopLevelFrom_cutsWell (byte_lt hsep) [] 0 0 0 (bytes raw)
    (Boundary.zero raw) (Nat.le_refl 0) fun i b hb => by rwa [Nat.zero_add]
  unfold splitTopLevel at hresult
  cases hloop : splitTopLevelFrom raw (byte separator) [] 0 0 0 (bytes raw) with
  | error e =>
    rw [hloop] at hresult
    obtain rfl : e = h := Except.error.inj hresult
    exact hpanic _ hloop
  | ok parts =>
    obtain ⟨out, start, depth⟩ := parts
    obtain ⟨last, hlast⟩ := (hboundary _ hloop).slicedFrom
    simp only [hloop, hlast, Except.ok_bind] at hresult
    split_ifs at hresult
    · obtain rfl := Except.error.inj hresult
      rfl
    · obtain rfl := Except.error.inj hresult
      rfl

/-! ### Words -/

/-- A pattern with a percent sign matches a word with a stem exactly if the word is the stem
between what stands before and after the sign. -/
theorem patternStem_percent {a : Text} (ha : '%' ∉ a) (b word : Text) :
    ∃ stem, patternStem (a ++ '%' :: b) word = .ok stem ∧
      ∀ mid, stem = some mid ↔ word = a ++ (mid ++ b) := by
  have hstop : slicedFrom (a ++ '%' :: b) (len a + 1) = .ok b := by
    have := slicedFrom_append (a ++ ['%']) b
    rwa [List.append_assoc, len_append] at this
  simp only [patternStem, find_append ha, slicedTo_append, hstop, Except.ok_bind]
  by_cases hword : ∃ mid, word = a ++ (mid ++ b)
  · obtain ⟨mid, rfl⟩ := hword
    have hlen : len (a ++ (mid ++ b)) - len b = len a + len mid := by
      simp only [len_append]
      omega
    have hfits : ¬(len (a ++ (mid ++ b)) < len a + len b || !startsWith a (a ++ (mid ++ b)) ||
        !b.isSuffixOf (a ++ (mid ++ b))) = true := by
      have hstart : startsWith a (a ++ (mid ++ b)) = true :=
        List.isPrefixOf_iff_prefix.mpr (List.prefix_append _ _)
      have hend : b.isSuffixOf (a ++ (mid ++ b)) = true :=
        List.isSuffixOf_iff_suffix.mpr ⟨a ++ mid, by rw [List.append_assoc]⟩
      rw [hstart, hend]
      simp only [len_append, Bool.not_true, Bool.or_false, decide_eq_true_eq]
      omega
    rw [if_neg hfits, hlen, sliced_append]
    refine ⟨some mid, rfl, fun mid' => ?_⟩
    rw [Option.some.injEq, List.append_right_inj, List.append_left_inj]
  · refine ⟨none, ?_, fun mid => ⟨nofun, fun h => absurd ⟨mid, h⟩ hword⟩⟩
    split_ifs with hfits
    · rfl
    · -- A word long enough for both ends is a stem between them.
      simp only [Bool.or_eq_true, decide_eq_true_eq, Bool.not_eq_true', not_or,
        Bool.not_eq_false] at hfits
      obtain ⟨⟨hlen, hstart⟩, hend⟩ := hfits
      obtain ⟨x, rfl⟩ := List.isPrefixOf_iff_prefix.mp hstart
      obtain ⟨y, hy⟩ := List.isSuffixOf_iff_suffix.mp hend
      rcases List.append_eq_append_iff.mp hy with ⟨z, rfl, rfl⟩ | ⟨z, rfl, hz⟩
      · have hz : z = [] := by
          simp only [len_append] at hlen
          exact len_eq_zero.mp (by omega)
        subst hz
        exact absurd ⟨[], by simp⟩ hword
      · exact absurd ⟨z, by rw [hz]⟩ hword

theorem patternStem_noPanic (pattern word : Text) : NoPanic (patternStem pattern word) := by
  intro h hresult
  cases hfind : find '%' pattern with
  | none =>
    rw [patternStem, hfind] at hresult
    cases hresult
  | some percent =>
    obtain ⟨a, b, rfl, ha, -⟩ := exists_of_find hfind
    obtain ⟨stem, hstem, -⟩ := patternStem_percent ha b word
    rw [hstem] at hresult
    cases hresult

theorem rfind_append {c : Char} {b : Text} (h : c ∉ b) (a : Text) :
    rfind c (a ++ c :: b) = some (len a) := by
  have hdrop : (a ++ c :: b).rdropWhile (· ≠ c) = a ++ [c] := by
    have hb : ∀ d ∈ b.reverse, decide (d ≠ c) = true := fun d hd => by
      simpa using fun heq : d = c => h (heq ▸ List.mem_reverse.mp hd)
    rw [List.rdropWhile, List.reverse_append, List.reverse_cons, List.append_assoc,
      List.dropWhile_append_of_pos hb, List.singleton_append,
      List.dropWhile_cons_of_neg (by simp), List.reverse_cons, List.reverse_reverse]
  rw [rfind, if_pos (by simp), hdrop, List.dropLast_concat]

theorem exists_of_rfind {c : Char} {text : Text} {i : ℕ} (h : rfind c text = some i) :
    ∃ a b, text = a ++ c :: b ∧ len a = i := by
  have hmem : c ∈ text := by_contra fun hn => by simp [rfind, hn] at h
  obtain ⟨b, a, hsplit, hc⟩ := List.eq_append_cons_of_mem (List.mem_reverse.mpr hmem)
  have htext : text = a.reverse ++ c :: b.reverse := by
    have := congrArg List.reverse hsplit
    simpa using this
  rw [htext, rfind_append (by simpa using hc)] at h
  exact ⟨a.reverse, b.reverse, htext, Option.some.inj h⟩

theorem directoryPart_ok (word : Text) : ∃ part, directoryPart word = .ok part := by
  unfold directoryPart
  cases hfind : rfind '/' word with
  | none => exact ⟨_, rfl⟩
  | some slash =>
    obtain ⟨a, b, rfl, rfl⟩ := exists_of_rfind hfind
    have := slicedTo_append (a ++ ['/']) b
    rw [List.append_assoc, len_append] at this
    exact ⟨_, this⟩

theorem basename_ok (word : Text) : ∃ part, basename word = .ok part := by
  unfold basename
  cases hfind : rfind '.' (lastComponent word) with
  | none => exact ⟨_, rfl⟩
  | some dot =>
    obtain ⟨a, b, hcomponent, rfl⟩ := exists_of_rfind hfind
    obtain ⟨front, hfront⟩ : lastComponent word <:+ word := List.rtakeWhile_suffix _ _
    have hlen : len word - len (lastComponent word) + len a = len (front ++ a) := by
      have hwhole := congrArg len hfront
      rw [len_append] at hwhole ⊢
      omega
    have hword : word = (front ++ a) ++ '.' :: b := by rw [← hfront, hcomponent]; simp
    have hslice := slicedTo_append (front ++ a) ('.' :: b)
    rw [← hword, ← hlen] at hslice
    simp only [hslice, Except.ok_bind]
    exact ⟨_, rfl⟩

theorem suffix_ok (word : Text) : ∃ part, suffix word = .ok part := by
  unfold suffix
  cases hfind : rfind '.' (lastComponent word) with
  | none => exact ⟨_, rfl⟩
  | some dot =>
    obtain ⟨a, b, hcomponent, rfl⟩ := exists_of_rfind hfind
    simp only [hcomponent, slicedFrom_append, Except.ok_bind]
    exact ⟨_, rfl⟩

end MakeExpr

end ArosTools
