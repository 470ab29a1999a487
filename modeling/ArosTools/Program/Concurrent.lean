import ArosTools.Program.Basic
import Mathlib.Logic.Function.Basic
import Mathlib.Logic.Relation

/-!
# Programs side by side

A `Pool` runs any number of programs over one state. Each of them is known by its number; a step
carries out the next primitive of one of them, takes the result of one that has returned, or stops
one of them for good. `exit` is what the end of a program does to the state, returned or stopped.

Results about every interleaving come from conditions on single programs. `Sound` says that a
program keeps an invariant, that each of its primitives changes the state only as the guarantee of
its number allows, and that it returns only what it may, if the others change the state only as
their guarantees allow.

* `Pool.Sound.call`, `Pool.Sound.bind` : the rules for programs.
* `Pool.Good.run` : every run of sound programs keeps the invariant, and its results are right.
-/

namespace ArosTools

open Relation

/-- How programs run side by side; the choice of the machine is the number of the program. -/
structure Pool (F : Type → Type) (S : Type) where
  machine : Machine F S ℕ
  blocked : {β : Type} → F β → ℕ → S → Bool
  exit : ℕ → S → S

namespace Pool

variable {F : Type → Type} {S α β : Type}

/-- Programs that run, and the results so far. -/
structure System (F : Type → Type) (S α : Type) where
  state : S
  running : ℕ → Option (Prog F α)
  results : List (ℕ × α)

variable (P : Pool F S)

/-- One step of one program. -/
inductive Step : System F S α → System F S α → Prop
  | call {σ : System F S α} {i : ℕ} {β : Type} {op : F β} {k : β → Prog F α} :
      σ.running i = some (.call op k) → P.blocked op i σ.state = false →
      Step σ ⟨(P.machine.step op i σ.state).2,
        Function.update σ.running i (some (k (P.machine.step op i σ.state).1)), σ.results⟩
  | finish {σ : System F S α} {i : ℕ} {a : α} : σ.running i = some (.ret a) →
      Step σ ⟨P.exit i σ.state, Function.update σ.running i none, σ.results ++ [(i, a)]⟩
  | stop {σ : System F S α} {i : ℕ} {p : Prog F α} : σ.running i = some p →
      Step σ ⟨P.exit i σ.state, Function.update σ.running i none, σ.results⟩

/-- Any number of steps. -/
def Run : System F S α → System F S α → Prop := ReflTransGen P.Step

/-- The result of a program that runs alone, and the state it leaves, unless it has to wait. -/
def solo (i : ℕ) : Prog F α → S → Option (α × S)
  | .ret a, s => some (a, s)
  | .call op k, s =>
    if P.blocked op i s then none
    else solo i (k (P.machine.step op i s).1) (P.machine.step op i s).2

/-- One program may run alone. -/
theorem Run.solo {i : ℕ} {p : Prog F α} {a : α} {s' : S} :
    ∀ {σ : System F S α}, σ.running i = some p → P.solo i p σ.state = some (a, s') →
      P.Run σ ⟨P.exit i s', Function.update σ.running i none, σ.results ++ [(i, a)]⟩ := by
  induction p with
  | ret b =>
    intro σ hrunning hsolo
    obtain ⟨rfl, rfl⟩ := Prod.mk.inj (Option.some.inj hsolo)
    exact .single (.finish hrunning)
  | call op k ih =>
    intro σ hrunning hsolo
    rw [Pool.solo] at hsolo
    split_ifs at hsolo with hblocked
    have hstep := Step.call hrunning (Bool.not_eq_true _ ▸ hblocked)
    have hrest := ih _ (σ := ⟨_, Function.update σ.running i (some _), σ.results⟩)
      (Function.update_self _ _ _) hsolo
    rw [Function.update_idem] at hrest
    exact .head hstep hrest

/-- A program that has a result does not run any more. -/
theorem Run.finished {σ σ' : System F S α} (hrun : P.Run σ σ')
    (h : ∀ i a, (i, a) ∈ σ.results → σ.running i = none) :
    ∀ i a, (i, a) ∈ σ'.results → σ'.running i = none := by
  induction hrun with
  | refl => exact h
  | @tail τ υ _ hstep ih =>
    intro i a hmem
    cases hstep with
    | @call j β op k hrunning _ =>
      have hne : i ≠ j := by
        rintro rfl
        rw [ih i a hmem] at hrunning
        cases hrunning
      exact (Function.update_of_ne hne _ _).trans (ih i a hmem)
    | @finish j b hrunning =>
      by_cases hne : i = j
      · subst hne
        exact Function.update_self _ _ _
      · refine (Function.update_of_ne hne _ _).trans (ih i a ((List.mem_append.mp hmem).resolve_right
          fun hlast => hne ?_))
        exact congrArg Prod.fst (List.mem_singleton.mp hlast)
    | @stop j p hrunning =>
      by_cases hne : i = j
      · subst hne
        exact Function.update_self _ _ _
      · exact (Function.update_of_ne hne _ _).trans (ih i a hmem)

/-! ### Conditions on one program -/

section

variable (inv : S → Prop) (guarantee : ℕ → S → S → Prop)

/-- What the steps of the other programs do not change. -/
def Stable (i : ℕ) (A : S → Prop) : Prop :=
  ∀ j ≠ i, ∀ s s', inv s → guarantee j s s' → A s → A s'

/-- A program that may run from the states of `A`, and returns only what `Q` allows. -/
def Sound (i : ℕ) (Q : α → S → Prop) : Prog F α → (S → Prop) → Prop
  | .ret a, A => Stable inv guarantee i A ∧ ∀ s, inv s → A s → Q a s
  | .call op k, A => Stable inv guarantee i A ∧ ∀ s, inv s → A s → P.blocked op i s = false →
      inv (P.machine.step op i s).2 ∧ guarantee i s (P.machine.step op i s).2 ∧
        ∃ B : S → Prop, B (P.machine.step op i s).2 ∧
          Sound i Q (k (P.machine.step op i s).1) B

end

variable {P} {inv : S → Prop} {guarantee : ℕ → S → S → Prop} {i : ℕ} {A B : S → Prop}
  {Q R : α → S → Prop} {p : Prog F α}

theorem Stable.true : Stable inv guarantee i fun _ => True := fun _ _ _ _ _ _ _ => trivial

theorem Sound.stable (h : Sound P inv guarantee i Q p A) : Stable inv guarantee i A := by
  cases p with
  | ret a => exact h.1
  | call op k => exact h.1

/-- The states from which a program runs, made fewer. -/
theorem Sound.mono (h : Sound P inv guarantee i Q p B) (hA : Stable inv guarantee i A)
    (hAB : ∀ s, inv s → A s → B s) : Sound P inv guarantee i Q p A := by
  cases p with
  | ret a => exact ⟨hA, fun s hs ha => h.2 s hs (hAB s hs ha)⟩
  | call op k => exact ⟨hA, fun s hs ha => h.2 s hs (hAB s hs ha)⟩

/-- One program after another. -/
theorem Sound.bind {p : Prog F β} {f : β → Prog F α} {R : β → S → Prop}
    (h : Sound P inv guarantee i R p A) (hf : ∀ b, Sound P inv guarantee i Q (f b) (R b)) :
    Sound P inv guarantee i Q (p >>= f) A := by
  induction p generalizing A with
  | ret b => exact (hf b).mono h.1 h.2
  | call op k ih =>
    refine ⟨h.1, fun s hs ha hblocked => ?_⟩
    obtain ⟨hinv, hstep, B, hB, hrest⟩ := h.2 s hs ha hblocked
    exact ⟨hinv, hstep, B, hB, ih _ hrest⟩

/-- Results that are allowed, made more. -/
theorem Sound.weaken (h : Sound P inv guarantee i Q p A) (hQ : ∀ a s, inv s → Q a s → R a s) :
    Sound P inv guarantee i R p A := by
  induction p generalizing A with
  | ret a => exact ⟨h.1, fun s hs ha => hQ a s hs (h.2 s hs ha)⟩
  | call op k ih =>
    refine ⟨h.1, fun s hs ha hblocked => ?_⟩
    obtain ⟨hinv, hstep, B, hB, hrest⟩ := h.2 s hs ha hblocked
    exact ⟨hinv, hstep, B, hB, ih _ hrest⟩

/-- An invariant made stronger by what every guarantee keeps. -/
theorem Sound.strengthen {O : S → Prop} (hO : ∀ j s s', inv s → guarantee j s s' → O s → O s')
    (h : Sound P inv guarantee i Q p A) :
    Sound P (fun s => inv s ∧ O s) guarantee i Q p A := by
  induction p generalizing A with
  | ret a => exact ⟨fun j hj s s' hs => h.1 j hj s s' hs.1, fun s hs ha => h.2 s hs.1 ha⟩
  | call op k ih =>
    refine ⟨fun j hj s s' hs => h.1 j hj s s' hs.1, fun s hs ha hblocked => ?_⟩
    obtain ⟨hinv, hstep, B, hB, hrest⟩ := h.2 s hs.1 ha hblocked
    exact ⟨⟨hinv, hO i s _ hs.1 hstep hs.2⟩, hstep, B, hB, ih _ hrest⟩

/-! ### Runs -/

variable (P inv guarantee) in
/-- A system of sound programs, with results that `R` allows. -/
structure Good (Q R : ℕ → α → S → Prop) (σ : System F S α) : Prop where
  holds : inv σ.state
  sound : ∀ i p, σ.running i = some p → ∃ A : S → Prop, A σ.state ∧
    Sound P inv guarantee i (Q i) p A
  results : ∀ i a, (i, a) ∈ σ.results → R i a σ.state

section

variable {Q R : ℕ → α → S → Prop} {σ σ' : System F S α}

/-- The other programs stay sound when one of them changes the state. -/
theorem Good.others (h : Good P inv guarantee Q R σ) {i : ℕ} {s' : S} {q : Option (Prog F α)}
    (hstep : guarantee i σ.state s')
    (hq : ∀ p, q = some p → ∃ A : S → Prop, A s' ∧ Sound P inv guarantee i (Q i) p A) :
    ∀ j p, Function.update σ.running i q j = some p →
      ∃ A : S → Prop, A s' ∧ Sound P inv guarantee j (Q j) p A := by
  intro j p hp
  by_cases hj : j = i
  · subst hj
    rw [Function.update_self] at hp
    exact hq p hp
  · rw [Function.update_of_ne hj] at hp
    obtain ⟨A, hA, hsound⟩ := h.sound j p hp
    exact ⟨A, hsound.stable i (Ne.symm hj) σ.state s' h.holds hstep hA, hsound⟩

/-- One step keeps a system good. -/
theorem Good.step
    (hexit : ∀ i s, inv s → inv (P.exit i s) ∧ guarantee i s (P.exit i s))
    (hQR : ∀ i a s, inv s → Q i a s → R i a (P.exit i s))
    (hR : ∀ i a j s s', inv s → guarantee j s s' → R i a s → R i a s')
    (h : Good P inv guarantee Q R σ) (hstep : P.Step σ σ') : Good P inv guarantee Q R σ' := by
  cases hstep with
  | @call i β op k hrunning hblocked =>
    obtain ⟨A, hA, hsound⟩ := h.sound i _ hrunning
    obtain ⟨hinv, hguarantee, B, hB, hrest⟩ := hsound.2 σ.state h.holds hA hblocked
    refine ⟨hinv, h.others hguarantee fun p hp => ?_, fun j a hj => ?_⟩
    · obtain rfl := Option.some.inj hp
      exact ⟨B, hB, hrest⟩
    · exact hR j a i σ.state _ h.holds hguarantee (h.results j a hj)
  | @finish i a hrunning =>
    obtain ⟨A, hA, hsound⟩ := h.sound i _ hrunning
    obtain ⟨hinv, hguarantee⟩ := hexit i σ.state h.holds
    refine ⟨hinv, h.others hguarantee (fun _ hp => nomatch hp), fun j b hj => ?_⟩
    rcases List.mem_append.mp hj with hj | hj
    · exact hR j b i σ.state _ h.holds hguarantee (h.results j b hj)
    · obtain ⟨rfl, rfl⟩ : j = i ∧ b = a := by simpa using hj
      exact hQR j b σ.state h.holds (hsound.2 σ.state h.holds hA)
  | @stop i p hrunning =>
    obtain ⟨hinv, hguarantee⟩ := hexit i σ.state h.holds
    exact ⟨hinv, h.others hguarantee (fun _ hp => nomatch hp), fun j a hj =>
      hR j a i σ.state _ h.holds hguarantee (h.results j a hj)⟩

/-- **Every run of sound programs keeps the invariant, and returns what it may.** -/
theorem Good.run
    (hexit : ∀ i s, inv s → inv (P.exit i s) ∧ guarantee i s (P.exit i s))
    (hQR : ∀ i a s, inv s → Q i a s → R i a (P.exit i s))
    (hR : ∀ i a j s s', inv s → guarantee j s s' → R i a s → R i a s')
    (h : Good P inv guarantee Q R σ) (hrun : P.Run σ σ') : Good P inv guarantee Q R σ' := by
  induction hrun with
  | refl => exact h
  | tail _ hstep ih => exact ih.step hexit hQR hR hstep

/-- What every guarantee keeps, every run keeps. -/
theorem Good.keeps {O : S → Prop}
    (hexit : ∀ i s, inv s → inv (P.exit i s) ∧ guarantee i s (P.exit i s))
    (hQR : ∀ i a s, inv s → Q i a s → R i a (P.exit i s))
    (hR : ∀ i a j s s', inv s → guarantee j s s' → R i a s → R i a s')
    (hO : ∀ j s s', inv s → guarantee j s s' → O s → O s')
    (h : Good P inv guarantee Q R σ) (hrun : P.Run σ σ') (hσ : O σ.state) : O σ'.state := by
  induction hrun with
  | refl => exact hσ
  | @tail τ υ hrun hstep ih =>
    have hgood := h.run hexit hQR hR hrun
    cases hstep with
    | @call i β op k hrunning hblocked =>
      obtain ⟨A, hA, hsound⟩ := hgood.sound i _ hrunning
      exact hO i τ.state _ hgood.holds (hsound.2 τ.state hgood.holds hA hblocked).2.1 ih
    | @finish i a hrunning => exact hO i τ.state _ hgood.holds (hexit i τ.state hgood.holds).2 ih
    | @stop i p hrunning => exact hO i τ.state _ hgood.holds (hexit i τ.state hgood.holds).2 ih

end

end Pool

end ArosTools
