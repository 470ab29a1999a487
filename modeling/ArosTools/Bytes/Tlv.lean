import ArosTools.Bytes.Basic

/-!
# Type-length-value sequences

A sequence of one-byte pads and of options (a code, a length byte and that many bytes), closed by
a terminator.  `scan` reads one and hands every option to a callback; `scan_eq_ok` says that it
succeeds exactly on the sequences whose options the callback accepts one after the other.
-/

namespace ArosTools

namespace Tlv

/-- An item of a sequence. -/
inductive Item where
  | pad
  | option (code : UInt8) (value : List UInt8)
  deriving DecidableEq, Repr

section

variable (pad stop : UInt8)

/-- An option has a code of its own and a value whose length fits a byte. -/
def Item.Valid : Item → Prop
  | .pad => True
  | .option code value => code ≠ pad ∧ code ≠ stop ∧ value.length < 256

instance : DecidablePred (Item.Valid pad stop) := fun item =>
  match item with
  | .pad => inferInstanceAs (Decidable True)
  | .option _ _ => inferInstanceAs (Decidable (_ ∧ _ ∧ _))

/-- The bytes of an item. -/
def Item.bytes : Item → List UInt8
  | .pad => [pad]
  | .option code value => code :: UInt8.ofNat value.length :: value

/-- The bytes of a sequence. -/
def bytes (items : List Item) : List UInt8 := items.flatMap (Item.bytes pad)

/-- The options of a sequence, in order. -/
def options : List Item → List (UInt8 × List UInt8)
  | [] => []
  | .pad :: rest => options rest
  | .option code value :: rest => (code, value) :: options rest

/-- The values an option takes, in order. -/
def values (code : UInt8) (items : List Item) : List (List UInt8) :=
  ((options items).filter fun o => o.1 = code).map Prod.snd

/-- A length byte and that many bytes, and what follows. -/
def readValue : List UInt8 → Option (List UInt8 × List UInt8)
  | [] => none
  | length :: rest =>
    if length.toNat ≤ rest.length then some (rest.take length.toNat, rest.drop length.toNat)
    else none

/-- Read a sequence and hand its options to `accept`. -/
def scan {σ : Type} (accept : σ → UInt8 → List UInt8 → Checked Unit σ) :
    ℕ → σ → List UInt8 → Checked Unit σ
  | 0, _, _ => .error .diverges
  | _ + 1, _, [] => .fail ()
  | fuel + 1, s, code :: rest =>
    if code = pad then scan accept fuel s rest
    else if code = stop then pure s
    else do
      let (value, rest) ← .okOr (readValue rest) ()
      let s ← accept s code value
      scan accept fuel s rest

end

theorem readValue_eq_some {input value rest : List UInt8} :
    readValue input = some (value, rest) ↔
      value.length < 256 ∧ input = UInt8.ofNat value.length :: (value ++ rest) := by
  constructor
  · intro h
    match input with
    | [] => cases h
    | length :: tail =>
      rw [readValue] at h
      split_ifs at h with hle
      cases h
      have hlen : (tail.take length.toNat).length = length.toNat := by
        rw [List.length_take]
        omega
      rw [hlen, UInt8.ofNat_toNat, List.take_append_drop]
      exact ⟨length.toNat_lt, rfl⟩
  · rintro ⟨hlen, rfl⟩
    have hlength : (UInt8.ofNat value.length).toNat = value.length := by
      rw [UInt8.toNat_ofNat', Nat.mod_eq_of_lt hlen]
    rw [readValue, hlength, if_pos (by rw [List.length_append]; omega), List.take_left,
      List.drop_left]

section Scan

variable {pad stop : UInt8} {σ : Type} {accept : σ → UInt8 → List UInt8 → Checked Unit σ}

/-- Reading ends with a value or without one, whatever the bytes. -/
theorem scan_returns (haccept : ∀ s code value, (accept s code value).Returns) {fuel : ℕ} {s : σ}
    {input : List UInt8} (hfuel : input.length < fuel) :
    (scan pad stop accept fuel s input).Returns := by
  induction fuel generalizing s input with
  | zero => omega
  | succ fuel ih =>
    match input with
    | [] => exact Checked.returns_fail ()
    | code :: rest =>
      rw [List.length_cons] at hfuel
      rw [scan]
      split_ifs
      · exact ih (by omega)
      · exact Checked.returns_pure s
      · refine (Checked.returns_okOr _ _).bind fun ⟨value, tail⟩ hvalue => ?_
        obtain ⟨-, rfl⟩ := readValue_eq_some.mp (Checked.okOr_eq_ok.mp hvalue)
        rw [List.length_cons, List.length_append] at hfuel
        exact (haccept s code value).bind fun s' _ => ih (by omega)

/-- The options of `items`, handed to `accept` in order. -/
def acceptAll (accept : σ → UInt8 → List UInt8 → Checked Unit σ) (s : σ) (items : List Item) :
    Checked Unit σ :=
  (options items).foldlM (fun s o => accept s o.1 o.2) s

theorem acceptAll_option {s s' : σ} {code : UInt8} {value : List UInt8} {items : List Item} :
    acceptAll accept s (.option code value :: items) = .ok s' ↔
      ∃ s₁, accept s code value = .ok s₁ ∧ acceptAll accept s₁ items = .ok s' := by
  rw [acceptAll, options, List.foldlM_cons, Checked.bind_eq_ok]
  rfl

/-- Reading succeeds exactly on a terminated sequence whose options are all accepted. -/
theorem scan_eq_ok (hne : pad ≠ stop) {fuel : ℕ} {s s' : σ} {input : List UInt8}
    (hfuel : input.length < fuel) :
    scan pad stop accept fuel s input = .ok s' ↔
      ∃ items rest, input = bytes pad items ++ stop :: rest ∧
        (∀ item ∈ items, item.Valid pad stop) ∧ acceptAll accept s items = .ok s' := by
  induction fuel generalizing s input with
  | zero => omega
  | succ fuel ih =>
    constructor
    · intro h
      match input with
      | [] => cases h
      | code :: rest =>
        rw [List.length_cons] at hfuel
        rw [scan] at h
        split_ifs at h with hpad hstop
        · obtain ⟨items, tail, rfl, hvalid, hall⟩ := (ih (by omega)).mp h
          refine ⟨.pad :: items, tail, by simp [bytes, Item.bytes, hpad], ?_, hall⟩
          intro item hitem
          rcases List.mem_cons.mp hitem with rfl | hitem
          · trivial
          · exact hvalid item hitem
        · cases h
          exact ⟨[], rest, by simp [bytes, hstop], by simp, rfl⟩
        · obtain ⟨⟨value, tail⟩, hvalue, hread⟩ := Checked.bind_eq_ok.mp h
          obtain ⟨hlen, rfl⟩ := readValue_eq_some.mp (Checked.okOr_eq_ok.mp hvalue)
          obtain ⟨s₁, haccept, hread⟩ := Checked.bind_eq_ok.mp hread
          rw [List.length_cons, List.length_append] at hfuel
          obtain ⟨items, tail, rfl, hvalid, hall⟩ := (ih (by omega)).mp hread
          refine ⟨.option code value :: items, tail, by simp [bytes, Item.bytes], ?_,
            acceptAll_option.mpr ⟨s₁, haccept, hall⟩⟩
          intro item hitem
          rcases List.mem_cons.mp hitem with rfl | hitem
          · exact ⟨hpad, hstop, hlen⟩
          · exact hvalid item hitem
    · rintro ⟨items, tail, rfl, hvalid, hall⟩
      match items with
      | [] =>
        rw [acceptAll, options, List.foldlM_nil] at hall
        simpa [bytes, scan, hne.symm] using hall
      | .pad :: items =>
        simp only [bytes, List.flatMap_cons, Item.bytes, List.cons_append, List.nil_append,
          List.length_cons] at hfuel ⊢
        rw [scan, if_pos rfl]
        exact (ih (by omega)).mpr ⟨items, tail, rfl, fun i hi => hvalid i (by simp [hi]), hall⟩
      | .option code value :: items =>
        obtain ⟨hpad, hstop, hlen⟩ := hvalid (.option code value) (by simp)
        obtain ⟨s₁, haccept, hall⟩ := acceptAll_option.mp hall
        simp only [bytes, List.flatMap_cons, Item.bytes, List.cons_append, List.append_assoc,
          List.length_cons, List.length_append] at hfuel ⊢
        rw [scan, if_neg hpad, if_neg hstop, readValue_eq_some.mpr ⟨hlen, rfl⟩]
        refine Checked.bind_eq_ok.mpr ⟨_, rfl, Checked.bind_eq_ok.mpr ⟨s₁, haccept, ?_⟩⟩
        refine (ih ?_).mpr ⟨items, tail, rfl, fun i hi => hvalid i (by simp [hi]), hall⟩
        rw [List.length_append, List.length_cons]
        omega

end Scan

end Tlv

end ArosTools
