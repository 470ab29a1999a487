import Mathlib.Logic.Basic
import Mathlib.Data.Nat.Notation
import Mathlib.Tactic.Common

/-!
# Programs over primitives

A program that talks to the outside world is a finite tree of primitive calls: `Prog F α` has
one node per primitive and one branch per answer.  What a primitive does is given separately by
a `Machine`, whose step takes a *choice*: everything that the program does not control (whether
the primitive fails, which fresh number it hands out, what another process did just before).

A run is a program with a stream of choices.  It can be completed (`Machine.exec`) or stopped
after any number of primitives (`Machine.stop`), which is how a crash is modelled.

## Main definitions

* `Prog F α` : programs, a monad.
* `Machine.exec`, `Machine.stop` : complete and stopped runs.
* `Machine.Performs` : the primitives a run issues, with the state each was issued in.
* `Machine.Safe A U G Q p s` : every call of every run of `p` from `s` satisfies `G` and every
  result satisfies `Q`, for runs whose choices satisfy `A`, up to the first state satisfying `U`.
-/

namespace ArosTools

/-- Programs calling primitives `F` and returning an `α`. -/
inductive Prog (F : Type → Type) (α : Type) : Type 1
  /-- Return a value. -/
  | ret (a : α)
  /-- Call a primitive and go on with its answer. -/
  | call {β : Type} (op : F β) (k : β → Prog F α)

namespace Prog

variable {F : Type → Type} {α β γ : Type}

/-- Run `p`, then `f` on its result. -/
def bind : Prog F α → (α → Prog F β) → Prog F β
  | ret a, f => f a
  | call op k, f => call op fun b => bind (k b) f

instance : Monad (Prog F) where
  pure := ret
  bind := bind

/-- A single primitive. -/
def perform (op : F β) : Prog F β := call op ret

@[simp] theorem pure_eq (a : α) : (pure a : Prog F α) = ret a := rfl

@[simp] theorem ret_bind (a : α) (f : α → Prog F β) : (ret a >>= f) = f a := rfl

@[simp] theorem call_bind (op : F γ) (k : γ → Prog F α) (f : α → Prog F β) :
    (call op k >>= f) = call op fun b => k b >>= f := rfl

theorem bind_ret (p : Prog F α) : (p >>= ret) = p := by
  induction p with
  | ret a => rfl
  | call op k ih => rw [call_bind]; congr 1; funext b; exact ih b

theorem bind_assoc (p : Prog F α) (f : α → Prog F β) (g : β → Prog F γ) :
    (p >>= f >>= g) = (p >>= fun a => f a >>= g) := by
  induction p with
  | ret a => rfl
  | call op k ih => simp only [call_bind, ih]

instance : LawfulMonad (Prog F) :=
  LawfulMonad.mk' _ (fun p => bind_ret p) (fun _ _ => rfl) (fun p f g => bind_assoc p f g)

end Prog

/-- What the primitives `F` do to a state `S`, given a choice `C`. -/
structure Machine (F : Type → Type) (S C : Type) where
  /-- The answer of a primitive and the state it leaves. -/
  step : {β : Type} → F β → C → S → β × S

namespace Machine

variable {F : Type → Type} {S C α β : Type} (M : Machine F S C)

/-- The choices left after the first one. -/
def later (env : ℕ → C) : ℕ → C := fun n => env (n + 1)

/-- The complete run of a program. -/
def exec : Prog F α → (ℕ → C) → S → α × S
  | .ret a, _, s => (a, s)
  | .call op k, env, s => exec (k (M.step op (env 0) s).1) (later env) (M.step op (env 0) s).2

/-- The run of a program stopped after `n` primitives; the result is `none` if the program had
not returned by then. -/
def stop : Prog F α → (ℕ → C) → ℕ → S → Option α × S
  | .ret a, _, _, s => (some a, s)
  | .call _ _, _, 0, s => (none, s)
  | .call op k, env, n + 1, s =>
    stop (k (M.step op (env 0) s).1) (later env) n (M.step op (env 0) s).2

/-- `P` holds in every state of the first `n` steps of a run. -/
def always (P : S → Bool) : Prog F α → (ℕ → C) → ℕ → S → Bool
  | .ret _, _, _, s => P s
  | .call _ _, _, 0, s => P s
  | .call op k, env, n + 1, s =>
    P s && always P (k (M.step op (env 0) s).1) (later env) n (M.step op (env 0) s).2

theorem stop_of_always {P : S → Bool} {p : Prog F α} {env : ℕ → C} {n : ℕ} {s : S}
    (h : M.always P p env n s = true) {m : ℕ} (hm : m ≤ n) : P (M.stop p env m s).2 = true := by
  induction p generalizing env n s m with
  | ret a => exact h
  | call op k ih =>
    cases n with
    | zero =>
      obtain rfl : m = 0 := Nat.le_zero.1 hm
      exact h
    | succ n =>
      obtain ⟨hs, h⟩ := Bool.and_eq_true_iff.1 h
      cases m with
      | zero => exact hs
      | succ m => exact ih _ h (Nat.le_of_succ_le_succ hm)

/-- The complete run of a program issues `op` in state `s'`. -/
inductive Performs : {α : Type} → Prog F α → (ℕ → C) → S → {β : Type} → F β → S → Prop
  | here {α β : Type} (op : F β) (k : β → Prog F α) (env : ℕ → C) (s : S) :
      Performs (.call op k) env s op s
  | later {α β γ : Type} {op : F β} {k : β → Prog F α} {env : ℕ → C} {s : S} {op' : F γ} {s' : S} :
      Performs (k (M.step op (env 0) s).1) (Machine.later env) (M.step op (env 0) s).2 op' s' →
      Performs (.call op k) env s op' s'

/-- The complete run of a program issues a primitive satisfying `P`. -/
def issues (P : ∀ ⦃β : Type⦄, F β → S → Bool) : Prog F α → (ℕ → C) → S → Bool
  | .ret _, _, _ => false
  | .call op k, env, s =>
    P op s || issues P (k (M.step op (env 0) s).1) (later env) (M.step op (env 0) s).2

theorem exists_performs {P : ∀ ⦃β : Type⦄, F β → S → Bool} {p : Prog F α} {env : ℕ → C} {s : S}
    (h : M.issues P p env s = true) :
    ∃ (β : Type) (op : F β) (s' : S), M.Performs p env s op s' ∧ P op s' = true := by
  induction p generalizing env s with
  | ret a => cases h
  | call op k ih =>
    rcases Bool.or_eq_true_iff.1 h with h | h
    · exact ⟨_, op, s, .here op k env s, h⟩
    · obtain ⟨β, op', s', hp, h⟩ := ih _ h
      exact ⟨β, op', s', .later hp, h⟩

/-- **Safety of a program.**  Along every run whose choices satisfy `A`, every primitive is
issued in a state where `G` allows it, and every returned value satisfies `Q`.  Nothing is
required of a run from the first state satisfying `U` on. -/
def Safe (A : C → Prop) (U : S → Prop) (G : ∀ ⦃β : Type⦄, F β → S → Prop) (Q : α → S → Prop) :
    Prog F α → S → Prop
  | .ret a, s => U s ∨ Q a s
  | .call op k, s => U s ∨ (G op s ∧
      ∀ c, A c → Safe A U G Q (k (M.step op c s).1) (M.step op c s).2)

variable {M} {A : C → Prop} {U : S → Prop} {G G' : ∀ ⦃β : Type⦄, F β → S → Prop}
  {Q Q' : α → S → Prop}

namespace Safe

theorem ret {a : α} {s : S} (h : Q a s) : M.Safe A U G Q (.ret a) s := .inr h

theorem pure {a : α} {s : S} (h : Q a s) : M.Safe A U G Q (Pure.pure a) s := .inr h

theorem call {op : F β} {k : β → Prog F α} {s : S} (hG : G op s)
    (h : ∀ c, A c → M.Safe A U G Q (k (M.step op c s).1) (M.step op c s).2) :
    M.Safe A U G Q (.call op k) s := .inr ⟨hG, h⟩

theorem perform {op : F β} {s : S} {Q : β → S → Prop} (hG : G op s)
    (h : ∀ c, A c → Q (M.step op c s).1 (M.step op c s).2) :
    M.Safe A U G Q (Prog.perform op) s := .inr ⟨hG, fun c hc => .inr (h c hc)⟩

/-- Nothing is required once `U` holds. -/
theorem of_until {p : Prog F α} {s : S} (h : U s) : M.Safe A U G Q p s := by
  cases p with
  | ret a => exact .inl h
  | call op k => exact .inl h

/-- Every program is safe if nothing is asked of it. -/
theorem trivial (p : Prog F α) (s : S) : M.Safe A U (fun _ _ _ => True) (fun _ _ => True) p s := by
  induction p generalizing s with
  | ret a => exact .inr True.intro
  | call op k ih => exact .inr ⟨True.intro, fun c _ => ih _ _⟩

/-- The rule of consequence. -/
theorem mono {p : Prog F α} {s : S} (h : M.Safe A U G Q p s)
    (hG : ∀ ⦃β : Type⦄ (op : F β) s, G op s → G' op s) (hQ : ∀ a s, Q a s → Q' a s) :
    M.Safe A U G' Q' p s := by
  induction p generalizing s with
  | ret a => exact Or.imp id (hQ a s) h
  | call op k ih => exact Or.imp id (fun h => ⟨hG op s h.1, fun c hc => ih _ (h.2 c hc)⟩) h

theorem weaken {p : Prog F α} {s : S} (h : M.Safe A U G Q p s) (hQ : ∀ a s, Q a s → Q' a s) :
    M.Safe A U G Q' p s := h.mono (fun _ _ _ h => h) hQ

/-- Sequential composition. -/
theorem bind {p : Prog F β} {f : β → Prog F α} {s : S}
    (h : M.Safe A U G (fun b s => M.Safe A U G Q (f b) s) p s) :
    M.Safe A U G Q (p >>= f) s := by
  induction p generalizing s with
  | ret b => exact h.elim of_until id
  | call op k ih => exact Or.imp id (fun h => ⟨h.1, fun c hc => ih _ (h.2 c hc)⟩) h

/-- Two safety statements about one program combine. -/
theorem and {p : Prog F α} {s : S} (h : M.Safe A U G Q p s) (h' : M.Safe A U G' Q' p s) :
    M.Safe A U (fun _ op s => G op s ∧ G' op s) (fun a s => Q a s ∧ Q' a s) p s := by
  induction p generalizing s with
  | ret a =>
    rcases h with h | h
    · exact .inl h
    · exact Or.imp id (fun h' => ⟨h, h'⟩) h'
  | call op k ih =>
    rcases h with h | h
    · exact .inl h
    · exact Or.imp id (fun h' => ⟨⟨h.1, h'.1⟩, fun c hc => ih _ (h.2 c hc) (h'.2 c hc)⟩) h'

/-- What every allowed step keeps holds when the program returns. -/
theorem invariant {I : S → Prop} {p : Prog F α} {s : S} (h : M.Safe A U G Q p s)
    (hstep : ∀ ⦃β : Type⦄ (op : F β) (s : S) (c : C), G op s → I s → I (M.step op c s).2)
    (hI : I s) : M.Safe A U G (fun a s => Q a s ∧ I s) p s := by
  induction p generalizing s with
  | ret a => exact Or.imp id (fun h => ⟨h, hI⟩) h
  | call op k ih =>
    exact Or.imp id (fun h => ⟨h.1, fun c hc => ih _ (h.2 c hc) (hstep op s c h.1 hI)⟩) h

/-- **Stopped runs of a safe program**: either `U` held at some earlier point, or the program
returned a value satisfying `Q`, or it stopped before a primitive that `G` allows. -/
theorem stop {p : Prog F α} {s : S} (h : M.Safe A U G Q p s) {env : ℕ → C}
    (hA : ∀ n, A (env n)) (n : ℕ) :
    (∃ m ≤ n, U (M.stop p env m s).2) ∨
      (∃ a, (M.stop p env n s).1 = some a ∧ Q a (M.stop p env n s).2) ∨
      ((M.stop p env n s).1 = none ∧ ∃ (β : Type) (op : F β), G op (M.stop p env n s).2) := by
  induction p generalizing s env n with
  | ret a =>
    rcases h with h | h
    · exact .inl ⟨n, Nat.le_refl n, h⟩
    · exact .inr (.inl ⟨a, rfl, h⟩)
  | call op k ih =>
    rcases h with h | ⟨hG, h⟩
    · exact .inl ⟨0, Nat.zero_le n, h⟩
    · cases n with
      | zero => exact .inr (.inr ⟨rfl, _, op, hG⟩)
      | succ n =>
        rcases ih _ (h _ (hA 0)) (fun m => hA (m + 1)) n with ⟨m, hm, hU⟩ | h'
        · exact .inl ⟨m + 1, Nat.succ_le_succ hm, hU⟩
        · exact .inr h'

/-- Complete runs of a safe program with nothing to wait for. -/
theorem exec {p : Prog F α} {s : S} (h : M.Safe A (fun _ => False) G Q p s) {env : ℕ → C}
    (hA : ∀ n, A (env n)) : Q (M.exec p env s).1 (M.exec p env s).2 := by
  induction p generalizing s env with
  | ret a => exact h.resolve_left id
  | call op k ih => exact ih _ ((h.resolve_left id).2 _ (hA 0)) fun n => hA (n + 1)

/-- Every primitive a safe program issues is allowed. -/
theorem performs {p : Prog F α} {s : S} (h : M.Safe A (fun _ => False) G Q p s) {env : ℕ → C}
    (hA : ∀ n, A (env n)) {op : F β} {s' : S} (hp : M.Performs p env s op s') : G op s' := by
  induction p generalizing s env with
  | ret a => cases hp
  | call op k ih =>
    obtain ⟨hG, h⟩ := h.resolve_left id
    cases hp with
    | here => exact hG
    | later hp => exact ih _ (h _ (hA 0)) (fun n => hA (n + 1)) hp

/-- An invariant that holds whenever a primitive is issued or a value returned is kept by every
step. -/
theorem ahead {I : S → Prop} {p : Prog F α} {s : S}
    (h : M.Safe A (fun _ => False) (fun _ _ s => I s) Q p s) (hQ : ∀ a s, Q a s → I s) :
    M.Safe A (fun _ => False) (fun _ op s => ∀ c, A c → I (M.step op c s).2) Q p s := by
  induction p generalizing s with
  | ret a => exact h
  | call op k ih =>
    obtain ⟨-, h⟩ := h.resolve_left id
    refine call (fun c hc => ?_) fun c hc => ih _ (h c hc)
    have := h c hc
    generalize k (M.step op c s).1 = q at this
    cases q with
    | ret a => exact hQ a _ (this.resolve_left id)
    | call op' k' => exact (this.resolve_left id).1

/-- What every step keeps holds from the first moment on at which it holds. -/
theorem stop_of_le {I : S → Prop} {p : Prog F α} {s : S}
    (h : M.Safe A (fun _ => False) (fun _ op s => I s → ∀ c, A c → I (M.step op c s).2) Q p s)
    {env : ℕ → C} (hA : ∀ n, A (env n)) {m n : ℕ} (hmn : m ≤ n) (hI : I (M.stop p env m s).2) :
    I (M.stop p env n s).2 := by
  induction p generalizing s env m n with
  | ret a => exact hI
  | call op k ih =>
    obtain ⟨hG, h⟩ := h.resolve_left id
    have hlater : ∀ k, A (later env k) := fun k => hA (k + 1)
    cases m with
    | zero =>
      cases n with
      | zero => exact hI
      | succ n =>
        refine ih _ (h _ (hA 0)) hlater (Nat.zero_le n) ?_
        have hnext := hG hI _ (hA 0)
        generalize k (M.step op (env 0) s).1 = q
        cases q with
        | ret a => exact hnext
        | call op' k' => exact hnext
    | succ m =>
      cases n with
      | zero => omega
      | succ n => exact ih _ (h _ (hA 0)) hlater (Nat.le_of_succ_le_succ hmn) hI

end Safe

/-! ### Programs that may throw

`ExceptT E (Prog F)` is the monad of programs that return a value or an error. -/

/-- Sequential composition of programs that may throw: an error of the first program is the
result. -/
theorem Safe.bindE {E : Type} {Q : Except E α → S → Prop} {p : ExceptT E (Prog F) β}
    {f : β → ExceptT E (Prog F) α} {s : S}
    (h : M.Safe A U G (fun r s => match r with
      | .ok b => M.Safe A U G Q (f b).run s
      | .error e => Q (.error e) s) p.run s) :
    M.Safe A U G Q (p >>= f).run s := by
  refine Safe.bind (p := p.run) (h.weaken ?_)
  rintro (e | b) s h
  · exact .inr h
  · exact h

end Machine

end ArosTools
