import ArosTools.Transpiler.MakeBounds
import ArosTools.Transpiler.MakeFunctions

/-!
# Expanding texts, over characters

`expandLoop` keeps a byte position and cuts the text there. `expandRest` is the same loop over the
text that is left, with no positions and no slices; it is how the evaluator reads a text.

* `expandLoop_eq` : at a character boundary the two loops are the same program.
* `expandRest_enough` : the loop ends by itself, so the number of rounds it is given does not matter.
* `expandText_succ` : `expand_text` in terms of the characters.
-/

namespace ArosTools

namespace MakeExpr

open Str Eval Scoped

variable (reference : Text → Eval Text)

/-- What stands after a dollar: the text that is left and the output. -/
def expandAfter (after out : Text) : Eval (Text × Text) :=
  match after with
  | '$' :: tail => do
    let out ← appendChar out escapedDollar
    return (tail, out)
  | '(' :: tail => do
    chargeScanned (len ('$' :: '(' :: tail))
    match closing 1 tail with
    | some (body, rest) => do
      let expanded ← reference body
      let out ← appendOutput out expanded
      return (rest, out)
    | none => fail (.invalidSyntax (boundedPreview ('$' :: '(' :: tail))
        (lit "unclosed `$(...)` reference"))
  | '\x7b' :: tail => do
    chargeScanned (len ('$' :: '\x7b' :: tail))
    if '\x7d' ∈ tail then
      let body := tail.takeWhile (· ≠ '\x7d')
      let rest := (tail.dropWhile (· ≠ '\x7d')).drop 1
      if isDeferredCmakeReference body then do
        let out ← appendOutput out ('$' :: '\x7b' :: (body ++ ['\x7d']))
        return (rest, out)
      else do
        let expanded ← reference body
        let out ← appendOutput out expanded
        return (rest, out)
    else fail (.invalidSyntax (boundedPreview ('$' :: '\x7b' :: tail))
      (lit "unclosed `$\x7b...\x7d` reference"))
  | _ => do
    let out ← appendChar out '$'
    return (after, out)

/-- The loop of `expand_text` over the text that is left. -/
def expandRest : ℕ → Text → Text → Eval Text
  | 0, _, out => return out
  | fuel + 1, rest, out =>
    if rest = [] then return out
    else if '$' ∈ rest then do
      let out ← appendOutput out (rest.takeWhile (· ≠ '$'))
      let (rest, out) ← expandAfter reference ((rest.dropWhile (· ≠ '$')).drop 1) out
      expandRest fuel rest out
    else appendOutput out rest

/-! ### The loop over bytes -/

theorem takeWhile_ne_append {c : Char} {a : Text} (h : c ∉ a) (b : Text) :
    (a ++ c :: b).takeWhile (· ≠ c) = a ∧ ((a ++ c :: b).dropWhile (· ≠ c)).drop 1 = b := by
  have hne : ∀ d ∈ a, decide (d ≠ c) = true := fun d hd => by
    simpa using fun heq : d = c => h (heq ▸ hd)
  rw [List.takeWhile_append_of_pos hne, List.dropWhile_append_of_pos hne,
    List.takeWhile_cons_of_neg (by simp), List.dropWhile_cons_of_neg (by simp)]
  exact ⟨List.append_nil a, rfl⟩

/-- The text after a dollar. -/
theorem bytes_after (pre after : Text) :
    (bytes (pre ++ '$' :: after))[len pre + 1]? = (bytes after).head? := by
  rw [bytes_append, bytes_cons_ascii (by decide), List.getElem?_append_right (by simp),
    length_bytes, Nat.add_sub_cancel_left, List.getElem?_cons_succ, List.head?_eq_getElem?]

theorem len_after (pre after : Text) :
    len (pre ++ '$' :: after) - len pre = len ('$' :: after) := by
  rw [len_append, Nat.add_sub_cancel_left]

/-- A program that returns a cursor, over the text that is left there. -/
def AtCursor (raw : Text) (p : Eval (ℕ × Text)) (q : Eval (Text × Text)) : Prop :=
  ∀ {α : Type} (f : ℕ × Text → Eval α) (g : Text × Text → Eval α),
    (∀ pre rest out, raw = pre ++ rest → f (len pre, out) = g (rest, out)) → (p >>= f) = (q >>= g)

variable {reference}

theorem expandParenthesis_atCursor (pre tail out : Text) :
    AtCursor (pre ++ '$' :: '(' :: tail)
      (expandParenthesis reference (pre ++ '$' :: '(' :: tail) out (len pre))
      (expandAfter reference ('(' :: tail) out) := by
  intro α f g hfg
  unfold expandParenthesis expandAfter
  rw [len_after, referenceEnd_eq]
  cases hclose : closing 1 tail with
  | none => simp [hclose, chargeScanned, pay, fail]
  | some parts =>
    obtain ⟨body, rest⟩ := parts
    have htail := closing_some hclose
    have hbody : sliced (pre ++ '$' :: '(' :: tail) (len pre + 2) (len pre + 2 + len body) =
        .ok body := by
      have := sliced_append (pre ++ ['$', '(']) body (')' :: rest)
      rw [show len (pre ++ ['$', '(']) = len pre + 2 by rw [len_append]; rfl] at this
      rw [← this, htail]
      simp
    have hraw : pre ++ '$' :: '(' :: tail = (pre ++ '$' :: '(' :: (body ++ [')'])) ++ rest := by
      rw [htail]
      simp
    have hlen : len pre + 2 + len body + 1 = len (pre ++ '$' :: '(' :: (body ++ [')'])) := by
      have hsize : '$'.utf8Size = 1 ∧ '('.utf8Size = 1 ∧ ')'.utf8Size = 1 := by decide
      simp only [len_append, len_cons, len_nil, hsize]
      omega
    have hnext := fun out => hfg _ _ out hraw
    simp only [hclose, hbody, hlen, ofExcept_ok, LawfulMonad.bind_assoc, ret_bind, pure_eq, hnext]

theorem expandBrace_atCursor (pre tail out : Text) :
    AtCursor (pre ++ '$' :: '\x7b' :: tail)
      (expandBrace reference (pre ++ '$' :: '\x7b' :: tail) out (len pre))
      (expandAfter reference ('\x7b' :: tail) out) := by
  intro α f g hfg
  have htail : slicedFrom (pre ++ '$' :: '\x7b' :: tail) (len pre + 2) = .ok tail := by
    have := slicedFrom_append (pre ++ ['$', '\x7b']) tail
    rw [show len (pre ++ ['$', '\x7b']) = len pre + 2 by rw [len_append]; rfl] at this
    rw [← this]
    simp
  unfold expandBrace expandAfter
  rw [len_after, htail]
  by_cases hmem : '\x7d' ∈ tail
  · obtain ⟨body, rest, rfl, hbody⟩ := List.eq_append_cons_of_mem hmem
    obtain ⟨htake, hdrop⟩ := takeWhile_ne_append hbody rest
    have hsize : '$'.utf8Size = 1 ∧ '\x7b'.utf8Size = 1 ∧ '\x7d'.utf8Size = 1 := by decide
    have hslice : sliced (pre ++ '$' :: '\x7b' :: (body ++ '\x7d' :: rest)) (len pre + 2)
        (len pre + 2 + len body) = .ok body := by
      have := sliced_append (pre ++ ['$', '\x7b']) body ('\x7d' :: rest)
      rw [show len (pre ++ ['$', '\x7b']) = len pre + 2 by rw [len_append]; rfl] at this
      rw [← this]
      simp
    have hraw : pre ++ '$' :: '\x7b' :: (body ++ '\x7d' :: rest) =
        (pre ++ '$' :: '\x7b' :: (body ++ ['\x7d'])) ++ rest := by simp
    have hlen : len pre + 2 + len body + 1 = len (pre ++ '$' :: '\x7b' :: (body ++ ['\x7d'])) := by
      simp only [len_append, len_cons, len_nil, hsize]
      omega
    have hwhole : sliced (pre ++ '$' :: '\x7b' :: (body ++ '\x7d' :: rest)) (len pre)
        (len (pre ++ '$' :: '\x7b' :: (body ++ ['\x7d']))) =
        .ok ('$' :: '\x7b' :: (body ++ ['\x7d'])) := by
      have := sliced_append pre ('$' :: '\x7b' :: (body ++ ['\x7d'])) rest
      rw [← len_append] at this
      rw [← this]
      simp
    have hnext := fun out => hfg _ _ out hraw
    simp only [ofExcept_ok, ret_bind, find_append hbody, hslice, if_pos hmem, htake, hdrop, hlen,
      hwhole]
    by_cases hdeferred : isDeferredCmakeReference body = true
    · simp only [hdeferred, if_true, LawfulMonad.bind_assoc, pure_eq, ret_bind, hnext]
    · simp only [hdeferred, Bool.false_eq_true, if_false, LawfulMonad.bind_assoc, pure_eq, ret_bind,
        hnext]
  · have hfind := find_eq_none.mpr hmem
    simp [hfind, hmem, slicedFrom_append, chargeScanned, pay, fail]

/-- What stands at a dollar is what stands after it. -/
theorem expandDollar_atCursor (pre after out : Text) :
    AtCursor (pre ++ '$' :: after) (expandDollar reference (pre ++ '$' :: after) out (len pre))
      (expandAfter reference after out) := by
  intro α f g hfg
  unfold expandDollar
  rw [bytes_after]
  have hone : len pre + 1 = len (pre ++ ['$']) := by rw [len_append]; rfl
  have hplain := fun out => hfg (pre ++ ['$']) after out (by simp)
  cases after with
  | nil =>
    simp only [bytes_nil, List.head?_nil, expandAfter, LawfulMonad.bind_assoc, pure_eq, ret_bind,
      hone, hplain]
  | cons c tail =>
    obtain ⟨next, hnext⟩ : ∃ next, (bytes (c :: tail)).head? = some next := by
      cases hhead : (bytes (c :: tail)).head? with
      | some next => exact ⟨next, rfl⟩
      | none =>
        have := congrArg List.length (List.head?_eq_none_iff.mp hhead)
        rw [length_bytes] at this
        exact absurd (len_eq_zero.mp this) (by simp)
    have hbyte : ∀ d : Char, d.toNat < 0x80 → (next = byte d ↔ c = d) := fun d hd => by
      have := head?_bytes hd (c :: tail)
      rwa [hnext, Option.some.injEq, List.head?_cons, Option.some.injEq] at this
    rw [hnext]
    by_cases hdollar : c = '$'
    · subst hdollar
      have htwo : len pre + 2 = len (pre ++ ['$', '$']) := by rw [len_append]; rfl
      have hskip := fun out => hfg (pre ++ ['$', '$']) tail out (by simp)
      simp only [(hbyte '$' (by decide)).mpr rfl, if_true, expandAfter, LawfulMonad.bind_assoc,
        pure_eq, ret_bind, htwo, hskip]
    · by_cases hopen : c = '('
      · subst hopen
        rw [(hbyte '(' (by decide)).mpr rfl]
        exact expandParenthesis_atCursor pre tail out f g hfg
      · by_cases hbrace : c = '\x7b'
        · subst hbrace
          rw [(hbyte '\x7b' (by decide)).mpr rfl]
          exact expandBrace_atCursor pre tail out f g hfg
        · have hafter : expandAfter reference (c :: tail) out = (do
              let out ← appendChar out '$'
              return (c :: tail, out)) := by
            unfold expandAfter
            split <;> simp_all
          simp only [(hbyte '$' (by decide)).not.mpr hdollar,
            (hbyte '(' (by decide)).not.mpr hopen, (hbyte '\x7b' (by decide)).not.mpr hbrace,
            if_false, hafter, LawfulMonad.bind_assoc, pure_eq, ret_bind, hone, hplain]

/-- **The loop over bytes is the loop over characters.** -/
theorem expandLoop_eq (fuel : ℕ) (raw pre rest out : Text) (hraw : raw = pre ++ rest) :
    expandLoop reference raw fuel (len pre) out = expandRest reference fuel rest out := by
  induction fuel generalizing pre rest out with
  | zero => rfl
  | succ fuel ih =>
    subst hraw
    rw [expandLoop, expandRest]
    by_cases hrest : rest = []
    · subst hrest
      rw [if_neg (by simp), if_pos rfl]
    · have hlt : len pre < len (pre ++ rest) := by
        rw [len_append]
        exact Nat.lt_add_of_pos_right (len_pos hrest)
      rw [if_pos hlt, if_neg hrest, slicedFrom_append, ofExcept_ok, ret_bind]
      by_cases hmem : '$' ∈ rest
      · obtain ⟨plain, after, rfl, hplain⟩ := List.eq_append_cons_of_mem hmem
        obtain ⟨htake, hdrop⟩ := takeWhile_ne_append hplain after
        rw [if_pos hmem, htake, hdrop]
        simp only [find_append hplain, sliced_append, ofExcept_ok, ret_bind]
        congr 1
        funext out
        have hpre : pre ++ (plain ++ '$' :: after) = (pre ++ plain) ++ '$' :: after := by simp
        rw [hpre] at ih ⊢
        rw [← len_append]
        exact expandDollar_atCursor (pre ++ plain) after out _ _ fun pre' rest' out' hraw =>
          ih pre' rest' out' hraw
      · rw [if_neg hmem]
        simp only [find_eq_none.mpr hmem]

/-! ### The loop ends -/

theorem closing_length {depth : ℕ} {text body after : Text}
    (h : closing depth text = some (body, after)) : after.length ≤ text.length := by
  rw [closing_some h, List.length_append, List.length_cons]
  omega

/-- What is left after a dollar is no longer than what stood there. -/
theorem expandAfter_congr {α : Type} {after out : Text} {f g : Text × Text → Eval α}
    (h : ∀ rest out, rest.length ≤ after.length → f (rest, out) = g (rest, out)) :
    (expandAfter reference after out >>= f) = (expandAfter reference after out >>= g) := by
  unfold expandAfter
  split
  · have hnext := fun out => h _ out (Nat.le_succ _)
    simp only [LawfulMonad.bind_assoc, pure_eq, ret_bind, hnext]
  · rename_i tail
    cases hclose : closing 1 tail with
    | none => simp [chargeScanned, pay, fail]
    | some parts =>
      have hnext := fun out => h parts.2 out
        (Nat.le_succ_of_le (@closing_length 1 tail parts.1 parts.2 hclose))
      simp only [LawfulMonad.bind_assoc, pure_eq, ret_bind, hnext]
  · rename_i tail
    have hnext := fun out => h ((tail.dropWhile (· ≠ '\x7d')).drop 1) out (by
      rw [List.length_drop, List.length_cons]
      have := (List.dropWhile_suffix (l := tail) (fun c => decide (c ≠ '\x7d'))).length_le
      omega)
    by_cases hmem : '\x7d' ∈ tail
    · by_cases hdeferred : isDeferredCmakeReference (tail.takeWhile (· ≠ '\x7d')) = true
      · simp only [if_pos hmem, if_pos hdeferred, LawfulMonad.bind_assoc, pure_eq, ret_bind, hnext]
      · simp only [if_pos hmem, if_neg hdeferred, LawfulMonad.bind_assoc, pure_eq, ret_bind, hnext]
    · simp [hmem, chargeScanned, pay, fail]
  · have hnext := fun out => h after out (Nat.le_refl _)
    simp only [LawfulMonad.bind_assoc, pure_eq, ret_bind, hnext]

/-- **The loop ends by itself**: rounds beyond the length of the text change nothing. -/
theorem expandRest_enough {fuel : ℕ} {rest out : Text} (h : rest.length ≤ fuel) :
    expandRest reference fuel rest out = expandRest reference rest.length rest out := by
  suffices hany : ∀ fuel fuel' (rest out : Text), rest.length ≤ fuel → rest.length ≤ fuel' →
      expandRest reference fuel rest out = expandRest reference fuel' rest out from
    hany _ _ _ _ h (Nat.le_refl _)
  intro fuel
  induction fuel with
  | zero =>
    intro fuel' rest out hle _
    obtain rfl : rest = [] := List.length_eq_zero_iff.mp (Nat.le_zero.mp hle)
    cases fuel' <;> rfl
  | succ fuel ih =>
    intro fuel' rest out hle hle'
    cases fuel' with
    | zero =>
      obtain rfl : rest = [] := List.length_eq_zero_iff.mp (Nat.le_zero.mp hle')
      rfl
    | succ fuel' =>
      rw [expandRest, expandRest]
      split_ifs with hnil hmem
      · rfl
      · obtain ⟨plain, after, rfl, hplain⟩ := List.eq_append_cons_of_mem hmem
        obtain ⟨htake, hdrop⟩ := takeWhile_ne_append hplain after
        rw [htake, hdrop]
        congr 1
        funext out
        refine expandAfter_congr fun rest out hrest => ?_
        rw [List.length_append, List.length_cons] at hle hle'
        exact ih fuel' rest out (by omega) (by omega)
      · rfl

/-- The loop of `expand_text` with as many rounds as it takes. -/
def expandAll (reference : Text → Eval Text) (rest out : Text) : Eval Text :=
  expandRest reference rest.length rest out

@[simp] theorem expandAll_nil (out : Text) : expandAll reference [] out = .ret out := rfl

theorem expandAll_plain {plain : Text} (hplain : '$' ∉ plain) (hne : plain ≠ []) (out : Text) :
    expandAll reference plain out = appendOutput out plain := by
  obtain ⟨n, hn⟩ := Nat.exists_eq_succ_of_ne_zero
    (Nat.ne_of_gt (List.length_pos_iff.mpr hne))
  rw [expandAll, hn, expandRest, if_neg hne, if_neg hplain]

theorem expandAll_dollar {plain : Text} (hplain : '$' ∉ plain) (after out : Text) :
    expandAll reference (plain ++ '$' :: after) out = (do
      let out ← appendOutput out plain
      let (rest, out) ← expandAfter reference after out
      expandAll reference rest out) := by
  obtain ⟨htake, hdrop⟩ := takeWhile_ne_append hplain after
  have hlen : (plain ++ '$' :: after).length = plain.length + after.length + 1 := by
    simp [Nat.add_assoc]
  rw [expandAll, hlen, expandRest, if_neg (by simp), if_pos (by simp), htake, hdrop]
  congr 1
  funext out
  refine expandAfter_congr fun rest out hrest => ?_
  exact expandRest_enough (by omega)

theorem length_le_len (text : Text) : text.length ≤ len text := by
  induction text with
  | nil => exact Nat.le_refl 0
  | cons c text ih =>
    rw [List.length_cons, len_cons]
    have := c.utf8Size_pos
    omega

/-- **`expand_text` over characters.** -/
theorem expandText_succ (ev : Evaluator) (files : Filesystem) (depth : ℕ) (raw : Text) :
    expandText ev files (depth + 1) raw = .scope .text (do
      chargeScanned (len raw)
      expandAll (evaluateReference ev files (expandText ev files depth)) raw []) .ret := by
  rw [expandText]
  congr 2
  funext _
  have hloop := @expandLoop_eq (evaluateReference ev files (expandText ev files depth)) (len raw)
    raw [] raw [] rfl
  rw [len_nil] at hloop
  rw [hloop]
  exact expandRest_enough (length_le_len raw)

end MakeExpr

end ArosTools
