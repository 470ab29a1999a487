import ArosTools.Transpiler.MakeBounds

/-!
# The last check of a value

`rejectUnsupportedReferences` goes through the bytes of a value and refuses every dollar that
neither escapes another dollar nor begins a closed `${...}`. To show the reference it refuses it
cuts out two bytes, which is no slice if the character after the dollar has more than one.

* `rejectUnsupportedReferences_eq_ok` : the accepted texts are those of the grammar `Accepted`.
* `rejectUnsupportedReferences_panic`, `rejectUnsupportedReferences_dangling` : it panics exactly on
  the `Dangling` texts.
-/

namespace ArosTools

namespace MakeExpr

open Str

/-- The texts that `reject_unsupported_references` accepts. -/
inductive Accepted : Text → Prop
  | nil : Accepted []
  | plain {c : Char} {rest : Text} : c ≠ '$' → Accepted rest → Accepted (c :: rest)
  | dollar {rest : Text} : Accepted rest → Accepted ('$' :: '$' :: rest)
  | brace {name rest : Text} : '\x7d' ∉ name → Accepted rest →
      Accepted ('$' :: '\x7b' :: (name ++ '\x7d' :: rest))

/-- The texts on which it panics: after an accepted part stands a dollar directly before a
character of more than one byte. -/
def Dangling (text : Text) : Prop :=
  ∃ pre c post, text = pre ++ '$' :: c :: post ∧ 0x80 ≤ c.toNat ∧ Accepted pre

/-- What a text goes on with at the dollar that is refused. -/
inductive Refused : Text → Prop
  | last : Refused []
  | other {c : Char} {rest : Text} : c ≠ '$' → c ≠ '\x7b' → Refused (c :: rest)
  | unclosed {rest : Text} : '\x7d' ∉ rest → Refused ('\x7b' :: rest)

theorem Accepted.append {a b : Text} (ha : Accepted a) (hb : Accepted b) : Accepted (a ++ b) := by
  induction ha with
  | nil => exact hb
  | plain hc _ ih => exact .plain hc ih
  | dollar _ ih => exact .dollar ih
  | brace hname _ ih =>
    rw [List.cons_append, List.cons_append, List.append_assoc, List.cons_append]
    exact .brace hname ih

/-- A text without dollars is accepted. -/
theorem accepted_plain {text : Text} (h : '$' ∉ text) : Accepted text := by
  induction text with
  | nil => exact .nil
  | cons c text ih =>
    exact .plain (fun hc => h (hc ▸ .head _)) (ih fun hmem => h (.tail _ hmem))

/-- Every text is accepted or has a first dollar that is refused. -/
theorem accepted_or_refused (text : Text) :
    Accepted text ∨ ∃ a b, text = a ++ '$' :: b ∧ Accepted a ∧ Refused b := by
  induction hn : text.length using Nat.strong_induction_on generalizing text with
  | _ n ih =>
    -- An accepted beginning is skipped.
    have hskip : ∀ front rest : Text, Accepted front → front ≠ [] → text = front ++ rest →
        Accepted text ∨ ∃ a b, text = a ++ '$' :: b ∧ Accepted a ∧ Refused b := by
      rintro front rest hfront hne rfl
      have hlt : rest.length < n := by
        rw [← hn, List.length_append]
        have := List.length_pos_iff.mpr hne
        omega
      rcases ih rest.length hlt rest rfl with h | ⟨a, b, rfl, ha, hb⟩
      · exact .inl (hfront.append h)
      · exact .inr ⟨front ++ a, b, by rw [List.append_assoc], hfront.append ha, hb⟩
    cases text with
    | nil => exact .inl .nil
    | cons c rest =>
      by_cases hc : c = '$'
      · subst hc
        cases rest with
        | nil => exact .inr ⟨[], [], rfl, .nil, .last⟩
        | cons d rest =>
          by_cases hd : d = '$'
          · subst hd
            exact hskip ['$', '$'] rest (.dollar .nil) (by simp) rfl
          · by_cases hbrace : d = '\x7b'
            · subst hbrace
              by_cases hmem : '\x7d' ∈ rest
              · obtain ⟨name, tail, rfl, hname⟩ := List.eq_append_cons_of_mem hmem
                exact hskip ('$' :: '\x7b' :: (name ++ ['\x7d'])) tail (.brace hname .nil) (by simp)
                  (by simp)
              · exact .inr ⟨[], '\x7b' :: rest, rfl, .nil, .unclosed hmem⟩
            · exact .inr ⟨[], d :: rest, rfl, .nil, .other hd hbrace⟩
      · exact hskip [c] rest (.plain hc .nil) (by simp) rfl

/-! ### The loop -/

variable {raw : Text}

theorem rejectFrom_skip (skip cursor : ℕ) (front rest : List UInt8) (h : front.length = skip) :
    rejectFrom raw skip cursor (front ++ rest) = rejectFrom raw 0 (cursor + skip) rest := by
  induction front generalizing skip cursor with
  | nil =>
    subst h
    rfl
  | cons b front ih =>
    subst h
    rw [List.length_cons, List.cons_append, rejectFrom, ih _ _ rfl, Nat.add_assoc, Nat.add_comm 1]

theorem rejectFrom_plain (cursor : ℕ) (front rest : List UInt8) (h : ∀ b ∈ front, b ≠ byte '$') :
    rejectFrom raw 0 cursor (front ++ rest) = rejectFrom raw 0 (cursor + front.length) rest := by
  induction front generalizing cursor with
  | nil => rfl
  | cons b front ih =>
    rw [List.cons_append, rejectFrom, if_pos (h b (.head _)), ih _ fun b hb => h b (.tail _ hb),
      List.length_cons, Nat.add_assoc, Nat.add_comm 1]

/-- No byte of a character other than the dollar is a dollar. -/
theorem byte_ne_dollar {c : Char} (hc : c ≠ '$') {b : UInt8} (hb : b ∈ String.utf8EncodeChar c) :
    b ≠ byte '$' := by
  rcases Nat.lt_or_ge c.toNat 0x80 with hlt | hge
  · rw [utf8EncodeChar_ascii hlt, List.mem_singleton] at hb
    rw [hb, Ne, byte_inj hlt (by decide)]
    exact hc
  · intro heq
    have := utf8EncodeChar_wide hge hb
    rw [heq] at this
    exact absurd this (by decide)

/-- The loop passes over an accepted part of the text. -/
theorem rejectFrom_accepted {a : Text} (ha : Accepted a) (pre b : Text)
    (hraw : raw = pre ++ (a ++ b)) :
    rejectFrom raw 0 (len pre) (bytes (a ++ b)) =
      rejectFrom raw 0 (len (pre ++ a)) (bytes b) := by
  induction ha generalizing pre with
  | nil => rw [List.nil_append, List.append_nil]
  | @plain c rest hc _ ih =>
    have := ih (pre ++ [c]) (by simpa using hraw)
    rw [List.cons_append, bytes, rejectFrom_plain _ _ _ fun b hb => byte_ne_dollar hc hb,
      String.length_utf8EncodeChar]
    simpa [Nat.add_assoc] using this
  | @dollar rest _ ih =>
    have := ih (pre ++ ['$', '$']) (by simpa using hraw)
    rw [List.cons_append, List.cons_append, bytes_cons_ascii (by decide), rejectFrom,
      if_neg (by simp), bytes_cons_ascii (by decide), List.head?_cons]
    simp only [if_true]
    rw [show byte '$' :: bytes (rest ++ b) = [byte '$'] ++ bytes (rest ++ b) from rfl,
      rejectFrom_skip 1 _ _ _ rfl]
    have hsize : '$'.utf8Size = 1 := by decide
    simpa [Nat.add_assoc, hsize] using this
  | @brace name rest hname _ ih =>
    have := ih (pre ++ '$' :: '\x7b' :: (name ++ ['\x7d'])) (by simpa using hraw)
    have htail : slicedFrom raw (len pre + 2) = .ok (name ++ '\x7d' :: (rest ++ b)) := by
      have := slicedFrom_append (pre ++ ['$', '\x7b']) (name ++ '\x7d' :: (rest ++ b))
      rw [show len (pre ++ ['$', '\x7b']) = len pre + 2 by rw [len_append]; rfl] at this
      rw [hraw, ← this]
      simp
    rw [List.cons_append, List.cons_append, List.append_assoc, List.cons_append,
      bytes_cons_ascii (by decide), rejectFrom, if_neg (by simp), bytes_cons_ascii (by decide),
      List.head?_cons]
    simp only [htail, Except.ok_bind, find_append hname]
    rw [if_neg (by decide), if_pos trivial]
    have hbytes : byte '\x7b' :: bytes (name ++ '\x7d' :: (rest ++ b)) =
        (byte '\x7b' :: (bytes name ++ [byte '\x7d'])) ++ bytes (rest ++ b) := by
      rw [bytes_append, bytes_cons_ascii (by decide)]
      simp
    rw [hbytes, rejectFrom_skip (len name + 2) _ _ _ (by simp)]
    have hsize : '$'.utf8Size = 1 ∧ '\x7b'.utf8Size = 1 ∧ '\x7d'.utf8Size = 1 := by decide
    have hcursor : len pre + 1 + (len name + 2) = len (pre ++ '$' :: '\x7b' :: (name ++ ['\x7d'])) := by
      simp only [len_append, len_cons, len_nil, hsize]
      omega
    rw [hcursor, this]
    simp

/-! ### What it accepts and where it panics -/

theorem rejectUnsupportedReferences_accepted {text : Text} (h : Accepted text) :
    rejectUnsupportedReferences text = .ok () := by
  have := @rejectFrom_accepted text text h [] [] (by simp)
  rw [List.append_nil] at this
  exact this

theorem rejectUnsupportedReferences_resume {a b : Text} (ha : Accepted a) :
    rejectUnsupportedReferences (a ++ b) = rejectFrom (a ++ b) 0 (len a) (bytes b) :=
  rejectFrom_accepted ha [] b rfl

/-- The result at the first refused dollar. -/
theorem rejectUnsupportedReferences_refused {a b : Text} (ha : Accepted a) (hb : Refused b) :
    ∃ h, rejectUnsupportedReferences (a ++ '$' :: b) = .error h ∧
      (h.isPanic = true → ∃ c post, b = c :: post ∧ 0x80 ≤ c.toNat ∧
        h = .slice (a ++ '$' :: b) (len a) (len a + 2)) ∧
      ((∃ c post, b = c :: post ∧ 0x80 ≤ c.toNat) → h.isPanic = true) := by
  rw [rejectUnsupportedReferences_resume ha, bytes_cons_ascii (by decide), rejectFrom,
    if_neg (by simp)]
  have hsize : '$'.utf8Size = 1 := by decide
  cases hb with
  | last =>
    refine ⟨_, rfl, ?_, ?_⟩
    · intro h
      cases h
    · rintro ⟨c, post, h, -⟩
      cases h
  | @unclosed rest hrest =>
    have htail : slicedFrom (a ++ '$' :: '\x7b' :: rest) (len a + 2) = .ok rest := by
      have := slicedFrom_append (a ++ ['$', '\x7b']) rest
      rw [show len (a ++ ['$', '\x7b']) = len a + 2 by rw [len_append]; rfl] at this
      rw [← this]
      simp
    rw [bytes_cons_ascii (by decide), List.head?_cons]
    simp only [htail, Except.ok_bind, find_eq_none.mpr hrest, slicedFrom_append]
    rw [if_neg (by decide), if_pos trivial]
    refine ⟨_, rfl, ?_, ?_⟩
    · intro h
      cases h
    · rintro ⟨c, post, h, hc⟩
      obtain ⟨rfl, rfl⟩ := List.cons.inj h
      exact absurd hc (by decide)
  | @other c rest hdollar hbrace =>
    have hdollar' : (bytes (c :: rest)).head? ≠ some (byte '$') := by
      rw [Ne, head?_bytes (by decide)]
      simpa using hdollar
    have hbrace' : (bytes (c :: rest)).head? ≠ some (byte '\x7b') := by
      rw [Ne, head?_bytes (by decide)]
      simpa using hbrace
    obtain ⟨next, hnext⟩ : ∃ next, (bytes (c :: rest)).head? = some next := by
      cases hhead : (bytes (c :: rest)).head? with
      | some next => exact ⟨next, rfl⟩
      | none =>
        have hnil := List.head?_eq_none_iff.mp hhead
        have := congrArg List.length hnil
        rw [length_bytes, len_cons] at this
        have := c.utf8Size_pos
        simp at *
        omega
    rw [hnext] at hdollar' hbrace' ⊢
    simp only [Ne, Option.some.injEq] at hdollar' hbrace'
    simp only [hdollar', hbrace', if_false]
    have hlen : len (a ++ '$' :: c :: rest) = len a + 1 + c.utf8Size + len rest := by
      simp only [len_append, len_cons, hsize]
      omega
    have hmin : min (len a + 2) (len (a ++ '$' :: c :: rest)) = len a + 2 := by
      have := c.utf8Size_pos
      omega
    rw [hmin]
    rcases Nat.lt_or_ge c.toNat 0x80 with hc | hc
    · have hslice : sliced (a ++ '$' :: c :: rest) (len a) (len a + 2) = .ok ['$', c] := by
        have := sliced_append a ['$', c] rest
        simpa [hsize, utf8Size_ascii hc] using this
      rw [hslice]
      refine ⟨_, rfl, ?_, ?_⟩
      · intro h
        cases h
      · rintro ⟨d, post, h, hd⟩
        obtain ⟨rfl, rfl⟩ := List.cons.inj h
        omega
    · have hslice : slice (a ++ '$' :: c :: rest) (len a) (len a + 2) = none := by
        rw [slice, if_pos (by omega), sliceFrom_append, Option.bind_some, Nat.add_sub_cancel_left,
          sliceTo, splitAtByte_cons _ _ (by omega), if_pos (by omega), hsize]
        have := sliceTo_wide hc rest
        rw [sliceTo, Option.map_eq_none_iff] at this
        rw [this]
        rfl
      rw [sliced, hslice]
      exact ⟨_, rfl, fun _ => ⟨c, rest, rfl, hc, rfl⟩, fun _ => rfl⟩

/-- **What the last check accepts.** -/
theorem rejectUnsupportedReferences_eq_ok {text : Text} :
    rejectUnsupportedReferences text = .ok () ↔ Accepted text := by
  refine ⟨fun h => ?_, rejectUnsupportedReferences_accepted⟩
  rcases accepted_or_refused text with hacc | ⟨a, b, rfl, ha, hb⟩
  · exact hacc
  · obtain ⟨e, he, -⟩ := rejectUnsupportedReferences_refused ha hb
    rw [he] at h
    cases h

/-- A panic of the last check is the slice of a dangling text. -/
theorem rejectUnsupportedReferences_panic {text : Text} {h : Halt}
    (hresult : rejectUnsupportedReferences text = .error h) (hpanic : h.isPanic = true) :
    Dangling text ∧ ∃ start, h = .slice text start (start + 2) := by
  rcases accepted_or_refused text with hacc | ⟨a, b, rfl, ha, hb⟩
  · rw [rejectUnsupportedReferences_accepted hacc] at hresult
    cases hresult
  · obtain ⟨e, he, hslice, -⟩ := rejectUnsupportedReferences_refused ha hb
    obtain rfl : e = h := Except.error.inj (he.symm.trans hresult)
    obtain ⟨c, post, rfl, hc, rfl⟩ := hslice hpanic
    exact ⟨⟨a, c, post, rfl, hc, ha⟩, len a, rfl⟩

/-- The last check panics on every dangling text. -/
theorem rejectUnsupportedReferences_dangling {text : Text} (h : Dangling text) :
    ∃ e, rejectUnsupportedReferences text = .error e ∧ e.isPanic = true := by
  obtain ⟨a, c, post, rfl, hc, ha⟩ := h
  have hrefused : Refused (c :: post) := by
    refine .other ?_ ?_
    · rintro rfl
      exact absurd hc (by decide)
    · rintro rfl
      exact absurd hc (by decide)
  obtain ⟨e, he, -, hpanic⟩ := rejectUnsupportedReferences_refused ha hrefused
  exact ⟨e, he, hpanic ⟨c, post, rfl, hc⟩⟩

end MakeExpr

end ArosTools
