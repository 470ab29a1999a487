import Mathlib.Data.List.Induction
import Mathlib.Tactic.Ring

/-!
# Byte strings read through a cursor

What a reader of a binary format is made of, over lists of bytes:

* `Checked` — a computation that returns a value, returns an error, or stops where the language
  would abort it (`panic`) or never leave a loop (`diverges`);
* `getRange`, `checkedAdd`, `checkedMul` — the bounded reads and the arithmetic a cursor uses;
* `beBytes`/`ofBe`, `leBytes`/`ofLe` — fixed-width words, with both round trips.
-/

namespace ArosTools

/-- The ways a computation can end without a value. -/
inductive Fault (ε : Type) where
  /-- The error it returns. -/
  | error (e : ε)
  /-- An index or a slice outside its buffer, or an arithmetic overflow. -/
  | panic
  /-- A loop that ran past the bound of its model. -/
  | diverges
  deriving Repr, DecidableEq

/-- A computation that returns a value, returns an error, panics or does not end. -/
abbrev Checked (ε α : Type) := Except (Fault ε) α

namespace Checked

variable {ε α β : Type}

/-- Fail with the error `e`. -/
def fail (e : ε) : Checked ε α := .error (.error e)

/-- The value of `o`, or the error `e`. -/
def okOr (o : Option α) (e : ε) : Checked ε α :=
  match o with
  | some a => .ok a
  | none => fail e

/-- The value of `o`, where the code panics without one. -/
def expect (o : Option α) : Checked ε α :=
  match o with
  | some a => .ok a
  | none => .error .panic

/-- A computation that returns: a value or an error. -/
def Returns (x : Checked ε α) : Prop := (∃ a, x = .ok a) ∨ ∃ e, x = fail e

theorem returns_ok (a : α) : Returns (.ok a : Checked ε α) := .inl ⟨a, rfl⟩

theorem returns_pure (a : α) : Returns (pure a : Checked ε α) := .inl ⟨a, rfl⟩

theorem returns_fail (e : ε) : Returns (fail e : Checked ε α) := .inr ⟨e, rfl⟩

theorem returns_okOr (o : Option α) (e : ε) : Returns (okOr o e : Checked ε α) := by
  cases o with
  | none => exact returns_fail e
  | some a => exact returns_ok a

theorem returns_expect {o : Option α} (h : o.isSome) : Returns (expect o : Checked ε α) := by
  obtain ⟨a, rfl⟩ := Option.isSome_iff_exists.mp h
  exact returns_ok a

theorem Returns.bind {x : Checked ε α} {f : α → Checked ε β} (hx : Returns x)
    (hf : ∀ a, x = .ok a → Returns (f a)) : Returns (x >>= f) := by
  rcases hx with ⟨a, rfl⟩ | ⟨e, rfl⟩
  · exact hf a rfl
  · exact returns_fail e

theorem Returns.foldlM_mem {f : β → α → Checked ε β} {l : List α}
    (hf : ∀ b, ∀ a ∈ l, Returns (f b a)) (b : β) : Returns (l.foldlM f b) := by
  induction l generalizing b with
  | nil => exact returns_pure b
  | cons a l ih =>
    rw [List.foldlM_cons]
    exact (hf b a (by simp)).bind fun c _ => ih (fun d x hx => hf d x (List.mem_cons_of_mem a hx)) c

theorem Returns.foldlM {f : β → α → Checked ε β} (hf : ∀ b a, Returns (f b a)) (l : List α)
    (b : β) : Returns (l.foldlM f b) :=
  .foldlM_mem (fun b a _ => hf b a) b

theorem Returns.forM {f : α → Checked ε Unit} {l : List α} (hf : ∀ a ∈ l, Returns (f a)) :
    Returns (l.forM f) := by
  induction l with
  | nil => exact returns_pure ()
  | cons a l ih =>
    rw [List.forM]
    exact (hf a (by simp)).bind fun _ _ => ih fun b hb => hf b (List.mem_cons_of_mem a hb)

theorem Returns.anyM {p : α → Checked ε Bool} {l : List α} (hp : ∀ a ∈ l, Returns (p a)) :
    Returns (l.anyM p) := by
  induction l with
  | nil => exact returns_pure false
  | cons a l ih =>
    rw [List.anyM]
    refine (hp a (by simp)).bind fun found _ => ?_
    cases found with
    | true => exact returns_pure true
    | false => exact ih fun b hb => hp b (List.mem_cons_of_mem a hb)

theorem Returns.allM {p : α → Checked ε Bool} {l : List α} (hp : ∀ a ∈ l, Returns (p a)) :
    Returns (l.allM p) := by
  induction l with
  | nil => exact returns_pure true
  | cons a l ih =>
    rw [List.allM]
    refine (hp a (by simp)).bind fun found _ => ?_
    cases found with
    | true => exact ih fun b hb => hp b (List.mem_cons_of_mem a hb)
    | false => exact returns_pure false

theorem bind_eq_ok {x : Checked ε α} {f : α → Checked ε β} {b : β} :
    x >>= f = .ok b ↔ ∃ a, x = .ok a ∧ f a = .ok b := by
  cases x with
  | error e => simp [Bind.bind, Except.bind]
  | ok a => simp [Bind.bind, Except.bind]

theorem okOr_eq_ok {o : Option α} {e : ε} {a : α} :
    (okOr o e : Checked ε α) = .ok a ↔ o = some a := by
  cases o with
  | none => simp [okOr, fail]
  | some b => simp [okOr]

theorem expect_eq_ok {o : Option α} {a : α} :
    (expect o : Checked ε α) = .ok a ↔ o = some a := by
  cases o with
  | none => simp [expect]
  | some b => simp [expect]

theorem exists_of_anyM {p : α → Checked ε Bool} {l : List α} (h : l.anyM p = .ok true) :
    ∃ a ∈ l, p a = .ok true := by
  induction l with
  | nil => cases h
  | cons a l ih =>
    rw [List.anyM] at h
    obtain ⟨found, ha, h⟩ := bind_eq_ok.mp h
    cases found with
    | true => exact ⟨a, by simp, ha⟩
    | false =>
      obtain ⟨b, hb, hp⟩ := ih h
      exact ⟨b, List.mem_cons_of_mem a hb, hp⟩

end Checked

/-! ### Bounded reads and additions -/

/-- The addition of two 64-bit sizes, unless it overflows. -/
def checkedAdd (a b : ℕ) : Option ℕ := if a + b < 2 ^ 64 then some (a + b) else none

theorem checkedAdd_eq_some {a b c : ℕ} :
    checkedAdd a b = some c ↔ c = a + b ∧ a + b < 2 ^ 64 := by
  unfold checkedAdd
  split_ifs with h
  · rw [Option.some.injEq]
    exact ⟨fun hc => ⟨hc.symm, h⟩, fun hc => hc.1.symm⟩
  · exact ⟨nofun, fun hc => absurd hc.2 h⟩

theorem checkedAdd_of_lt {a b : ℕ} (h : a + b < 2 ^ 64) : checkedAdd a b = some (a + b) :=
  if_pos h

/-- The product of two 64-bit sizes, unless it overflows. -/
def checkedMul (a b : ℕ) : Option ℕ := if a * b < 2 ^ 64 then some (a * b) else none

theorem checkedMul_eq_some {a b c : ℕ} :
    checkedMul a b = some c ↔ c = a * b ∧ a * b < 2 ^ 64 := by
  unfold checkedMul
  split_ifs with h
  · rw [Option.some.injEq]
    exact ⟨fun hc => ⟨hc.symm, h⟩, fun hc => hc.1.symm⟩
  · exact ⟨nofun, fun hc => absurd hc.2 h⟩

theorem checkedMul_of_lt {a b : ℕ} (h : a * b < 2 ^ 64) : checkedMul a b = some (a * b) :=
  if_pos h

/-- The elements from `start` up to `stop`, if that range lies inside the list. -/
def getRange {α : Type} (l : List α) (start stop : ℕ) : Option (List α) :=
  if start ≤ stop ∧ stop ≤ l.length then some ((l.drop start).take (stop - start)) else none

section GetRange

variable {α : Type} {l r : List α} {start stop : ℕ}

theorem getRange_eq_some :
    getRange l start stop = some r ↔
      start ≤ stop ∧ stop ≤ l.length ∧ r = (l.drop start).take (stop - start) := by
  unfold getRange
  split_ifs with h
  · simp [h.1, h.2, eq_comm]
  · exact ⟨nofun, fun h' => absurd ⟨h'.1, h'.2.1⟩ h⟩

theorem getRange_isSome (h₁ : start ≤ stop) (h₂ : stop ≤ l.length) :
    (getRange l start stop).isSome := by
  simp [getRange, h₁, h₂]

theorem length_of_getRange (h : getRange l start stop = some r) : r.length = stop - start := by
  obtain ⟨h₁, h₂, rfl⟩ := getRange_eq_some.mp h
  rw [List.length_take, List.length_drop]
  omega

/-- The middle of three pieces is what its bounds select. -/
theorem getRange_of_split {a b c : List α} (hl : l = a ++ b ++ c) (hstart : start = a.length)
    (hstop : stop = a.length + b.length) : getRange l start stop = some b := by
  subst hl hstart hstop
  rw [getRange_eq_some]
  refine ⟨by omega, by simp, ?_⟩
  rw [List.append_assoc, List.drop_left, Nat.add_sub_cancel_left, List.take_left]

end GetRange

/-! ### Fixed-width words -/

/-- The `w` low bytes of `n`, most significant first. -/
def beBytes : ℕ → ℕ → List UInt8
  | 0, _ => []
  | w + 1, n => beBytes w (n / 256) ++ [UInt8.ofNat n]

/-- The number a list of bytes spells, most significant first. -/
def ofBe (bytes : List UInt8) : ℕ := bytes.foldl (fun n b => n * 256 + b.toNat) 0

/-- The `w` low bytes of `n`, least significant first. -/
def leBytes (w n : ℕ) : List UInt8 := (beBytes w n).reverse

/-- The number a list of bytes spells, least significant first. -/
def ofLe (bytes : List UInt8) : ℕ := ofBe bytes.reverse

@[simp] theorem length_beBytes (w n : ℕ) : (beBytes w n).length = w := by
  induction w generalizing n with
  | zero => rfl
  | succ w ih => simp [beBytes, ih]

@[simp] theorem length_leBytes (w n : ℕ) : (leBytes w n).length = w := by simp [leBytes]

theorem ofBe_concat (bytes : List UInt8) (b : UInt8) :
    ofBe (bytes ++ [b]) = ofBe bytes * 256 + b.toNat := by
  simp [ofBe]

theorem ofBe_beBytes {w n : ℕ} (h : n < 256 ^ w) : ofBe (beBytes w n) = n := by
  induction w generalizing n with
  | zero => simp at h; simp [h, beBytes, ofBe]
  | succ w ih =>
    have hdiv : n / 256 < 256 ^ w := by
      rw [Nat.div_lt_iff_lt_mul (by decide)]
      rwa [pow_succ] at h
    rw [beBytes, ofBe_concat, ih hdiv]
    have hlow : (UInt8.ofNat n).toNat = n % 256 := by simp
    omega

theorem ofBe_lt (bytes : List UInt8) : ofBe bytes < 256 ^ bytes.length := by
  induction bytes using List.reverseRecOn with
  | nil => simp [ofBe]
  | append_singleton bytes b ih =>
    rw [ofBe_concat, List.length_append, List.length_singleton, pow_succ]
    have := b.toNat_lt
    omega

theorem beBytes_ofBe (bytes : List UInt8) : beBytes bytes.length (ofBe bytes) = bytes := by
  induction bytes using List.reverseRecOn with
  | nil => rfl
  | append_singleton bytes b ih =>
    have hb := b.toNat_lt
    have hdiv : (ofBe bytes * 256 + b.toNat) / 256 = ofBe bytes := by omega
    have hlow : UInt8.ofNat (ofBe bytes * 256 + b.toNat) = b := by
      apply UInt8.toNat_inj.mp
      rw [UInt8.toNat_ofNat']
      omega
    rw [ofBe_concat, List.length_append, List.length_singleton, beBytes, hdiv, ih, hlow]

theorem ofLe_leBytes {w n : ℕ} (h : n < 256 ^ w) : ofLe (leBytes w n) = n := by
  rw [ofLe, leBytes, List.reverse_reverse, ofBe_beBytes h]

theorem ofLe_lt (bytes : List UInt8) : ofLe bytes < 256 ^ bytes.length := by
  simpa [ofLe] using ofBe_lt bytes.reverse

theorem leBytes_ofLe (bytes : List UInt8) : leBytes bytes.length (ofLe bytes) = bytes := by
  have h := beBytes_ofBe bytes.reverse
  rw [List.length_reverse] at h
  rw [leBytes, ofLe, h, List.reverse_reverse]

end ArosTools
