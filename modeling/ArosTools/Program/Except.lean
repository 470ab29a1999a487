import Mathlib.Logic.Basic
import Mathlib.Tactic.Common

/-!
# When a fallible computation succeeds

Each combinator of `Except` that straight-line code is made of, and what its success says about
its parts.
-/

namespace ArosTools

variable {ε ε' α β : Type}

theorem Except.bind_eq_ok {x : Except ε α} {f : α → Except ε β} {b : β} :
    (x >>= f) = .ok b ↔ ∃ a, x = .ok a ∧ f a = .ok b := by
  cases x with
  | error e => exact ⟨nofun, nofun⟩
  | ok a => exact ⟨fun h => ⟨a, rfl, h⟩, by rintro ⟨_, ⟨⟩, h⟩; exact h⟩

/-- Goes on if `c` holds, and fails otherwise. -/
def Except.ensure (c : Prop) [Decidable c] (e : ε) : Except ε Unit :=
  if c then .ok () else .error e

@[simp] theorem Except.ensure_eq_ok {c : Prop} [Decidable c] {e : ε} {u : Unit} :
    Except.ensure c e = .ok u ↔ c := by
  by_cases hc : c
  · simp [Except.ensure, hc]
  · simp [Except.ensure, hc]

theorem ite_error_eq_ok {c : Prop} [Decidable c] {e : ε} {x : Except ε α} {a : α} :
    (if c then .error e else x) = .ok a ↔ ¬ c ∧ x = .ok a := by
  split_ifs with hc
  · exact ⟨nofun, fun h => absurd hc h.1⟩
  · exact ⟨fun h => ⟨hc, h⟩, fun h => h.2⟩

/-- Whichever branch a conditional takes. -/
theorem ite_ok_elim {c : Prop} [Decidable c] {x y : Except ε α} {a : α} {goal : Prop}
    (h : (if c then x else y) = .ok a) (hx : x = .ok a → goal) (hy : y = .ok a → goal) : goal := by
  by_cases hc : c
  · exact hx (by rwa [if_pos hc] at h)
  · exact hy (by rwa [if_neg hc] at h)

theorem elim_error_eq_ok {o : Option α} {e : ε} {a : α} :
    o.elim (.error e) .ok = (.ok a : Except ε α) ↔ o = some a := by
  cases o with
  | none => exact ⟨nofun, nofun⟩
  | some b => exact ⟨fun h => congrArg some (Except.ok.inj h), fun h => congrArg _ (Option.some.inj h)⟩

theorem mapError_eq_ok {x : Except ε α} {f : ε → ε'} {a : α} :
    x.mapError f = .ok a ↔ x = .ok a := by
  cases x with
  | error e => exact ⟨nofun, nofun⟩
  | ok b => exact ⟨fun h => congrArg Except.ok (Except.ok.inj h), fun h => by cases h; rfl⟩

theorem Except.bind_ok {x : Except ε α} {f : α → Except ε β} {b : β} (h : (x >>= f) = .ok b) :
    ∃ a, x = .ok a ∧ f a = .ok b := Except.bind_eq_ok.mp h

theorem ite_error_ok {c : Prop} [Decidable c] {e : ε} {x : Except ε α} {a : α}
    (h : (if c then .error e else x) = .ok a) : ¬ c ∧ x = .ok a := ite_error_eq_ok.mp h

theorem ite_throw_ok {c : Prop} [Decidable c] {e : ε} {f : Unit → Except ε α} {a : α}
    (h : (if c then .error e >>= f else f ()) = .ok a) : ¬ c ∧ f () = .ok a := ite_error_ok h

theorem elim_error_ok {o : Option α} {e : ε} {a : α}
    (h : o.elim (.error e) .ok = (.ok a : Except ε α)) : o = some a := elim_error_eq_ok.mp h

theorem mapError_ok {x : Except ε α} {f : ε → ε'} {a : α} (h : x.mapError f = .ok a) :
    x = .ok a := mapError_eq_ok.mp h

theorem Except.map_eq_ok {x : Except ε α} {f : α → β} {b : β} (h : x.map f = .ok b) :
    ∃ a, x = .ok a ∧ b = f a := by
  cases x with
  | error e => cases h
  | ok a => exact ⟨a, rfl, (Except.ok.inj h).symm⟩

theorem Except.exists_of_isOk {x : Except ε α} (h : x.isOk = true) : ∃ a, x = .ok a := by
  cases x with
  | error e => cases h
  | ok a => exact ⟨a, rfl⟩

/-- What a loop has done after each element of its list, once it ends without an error. -/
theorem Except.foldlM_mem {f : β → α → Except ε β} {motive : List α → β → Prop} {l : List α}
    {b b' : β} (h : l.foldlM f b = .ok b') (nil : motive [] b)
    (step : ∀ done a c c', a ∈ l → motive done c → f c a = .ok c' → motive (done ++ [a]) c') :
    motive l b' := by
  suffices hmain : ∀ (rest done : List α) (c : β), (∀ a ∈ rest, a ∈ l) → motive done c →
      rest.foldlM f c = .ok b' → motive (done ++ rest) b' from
    hmain l [] b (fun _ ha => ha) nil h
  intro rest
  induction rest with
  | nil =>
    intro done c _ hc hrest
    rw [List.append_nil]
    exact Except.ok.inj hrest ▸ hc
  | cons a rest ih =>
    intro done c hmem hc hrest
    rw [List.foldlM_cons] at hrest
    obtain ⟨c', hc', hrest⟩ := Except.bind_ok hrest
    rw [List.append_cons]
    exact ih _ c' (fun x hx => hmem x (.tail _ hx)) (step done a c c' (hmem a (.head _)) hc hc')
      hrest

/-- What a loop has done after each element, once it ends without an error. -/
theorem Except.foldlM_ok {f : β → α → Except ε β} {motive : List α → β → Prop} {l : List α}
    {b b' : β} (h : l.foldlM f b = .ok b') (nil : motive [] b)
    (step : ∀ done a c c', motive done c → f c a = .ok c' → motive (done ++ [a]) c') :
    motive l b' :=
  Except.foldlM_mem h nil fun done a c c' _ => step done a c c'

/-- What a loop over `0..n` has done after each index, once it ends without an error. -/
theorem Except.foldlM_range {f : β → ℕ → Except ε β} {motive : ℕ → β → Prop} {n : ℕ} {b b' : β}
    (h : (List.range n).foldlM f b = .ok b') (zero : motive 0 b)
    (step : ∀ i c c', i < n → motive i c → f c i = .ok c' → motive (i + 1) c') :
    motive n b' := by
  induction n generalizing b' with
  | zero => exact Except.ok.inj h ▸ zero
  | succ n ih =>
    rw [List.range_succ, List.foldlM_append] at h
    obtain ⟨c, hc, h⟩ := Except.bind_ok h
    rw [List.foldlM_cons] at h
    obtain ⟨c', hc', h⟩ := Except.bind_ok h
    cases h
    exact step n c _ (by omega) (ih hc fun i d d' hi => step i d d' (by omega)) hc'

/-- What a successful `mapM` returns: one result for every element. -/
theorem Except.mapM_ok {f : α → Except ε β} {l : List α} {bs : List β} (h : l.mapM f = .ok bs) :
    List.Forall₂ (fun a b => f a = .ok b) l bs := by
  induction l generalizing bs with
  | nil =>
    cases h
    exact .nil
  | cons a l ih =>
    rw [List.mapM_cons] at h
    obtain ⟨b, hb, h⟩ := Except.bind_ok h
    obtain ⟨rest, hrest, h⟩ := Except.bind_ok h
    cases h
    exact .cons hb (ih hrest)

theorem Except.mem_of_mapM {f : α → Except ε β} {l : List α} {bs : List β}
    (h : l.mapM f = .ok bs) : ∀ b, b ∈ bs ↔ ∃ a ∈ l, f a = .ok b := by
  have hall := Except.mapM_ok h
  clear h
  induction hall with
  | nil => simp
  | @cons a b l bs hab _ ih =>
    intro c
    simp only [List.mem_cons, ih, exists_eq_or_imp, hab, Except.ok.injEq, @eq_comm _ b c]

theorem Except.exists_of_mapM {f : α → Except ε β} {l : List α} {bs : List β}
    (h : l.mapM f = .ok bs) : ∀ a ∈ l, ∃ b, f a = .ok b := by
  have hall := Except.mapM_ok h
  clear h
  induction hall with
  | nil => simp
  | @cons a b l bs hab _ ih => exact List.forall_mem_cons.mpr ⟨⟨b, hab⟩, ih⟩

theorem Except.forM_ok {f : α → Except ε Unit} {l : List α} (h : l.forM f = .ok ()) :
    ∀ a ∈ l, f a = .ok () := by
  induction l with
  | nil => exact nofun
  | cons a l ih =>
    obtain ⟨⟨⟩, ha, h⟩ := Except.bind_ok h
    exact List.forall_mem_cons.mpr ⟨ha, ih h⟩

theorem Except.forM_of {f : α → Except ε Unit} {l : List α} (h : ∀ a ∈ l, f a = .ok ()) :
    l.forM f = .ok () := by
  induction l with
  | nil => rfl
  | cons a l ih =>
    obtain ⟨ha, hl⟩ := List.forall_mem_cons.mp h
    exact Except.bind_eq_ok.mpr ⟨(), ha, ih hl⟩

end ArosTools
