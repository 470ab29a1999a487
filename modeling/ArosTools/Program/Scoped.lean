import Mathlib.Logic.Basic
import Mathlib.Data.Nat.Notation
import Mathlib.Tactic.Common

/-!
# Programs with a budget and scopes

A `Scoped C Q F H α` is a program of an interpreter that works on a stack of frames under a budget.
It can return, halt with an `H`, charge a cost `C` to the budget, ask a question `Q` about the
stack, and run another program inside a frame `F`, which is pushed before and popped after it,
whether it returned or halted.

What costs, questions and frames mean is given separately by an `Interp`. A charge that does not
fit the budget ends the run with the refusal of that charge. `Interp.run` is the run on a stack and
a budget, `Interp.moments` are the states it goes through, and `Interp.value` is what the program
comes to when every charge is granted.

## Main results

* `Interp.run_env` : a run leaves the stack as it found it, also when it halts.
* `Interp.run_value` : a run comes to the value of the program or to a refusal.
* `Interp.budget_of_mem_moments` : what every granted charge keeps holds of every budget of a run.
* `Interp.Safe` with `Interp.Safe.bind`, `Interp.Safe.moments`, `Interp.Safe.run` : rules for what
  holds of the stacks, the halts and the results of a program.
* `Interp.run_similar` : stacks that answer alike give runs alike.
* `Interp.Alike` with `Interp.Alike.bind` : programs that two stacks do not tell apart.
-/

namespace ArosTools

@[simp] theorem Except.ok_bind {ε α β : Type} (a : α) (f : α → Except ε β) :
    ((.ok a : Except ε α) >>= f) = f a := rfl

@[simp] theorem Except.error_bind {ε α β : Type} (e : ε) (f : α → Except ε β) :
    ((.error e : Except ε α) >>= f) = .error e := rfl

/-- Programs with costs `C`, questions `Q`, frames `F` and halts `H`. -/
inductive Scoped (C : Type) (Q : Type → Type) (F H : Type) : Type → Type 1
  /-- Return a value. -/
  | ret {α : Type} (a : α) : Scoped C Q F H α
  /-- End the whole run. -/
  | halt {α : Type} (h : H) : Scoped C Q F H α
  /-- Charge the budget. -/
  | charge {α : Type} (c : C) (k : Scoped C Q F H α) : Scoped C Q F H α
  /-- Ask about the stack. -/
  | ask {α β : Type} (q : Q β) (k : β → Scoped C Q F H α) : Scoped C Q F H α
  /-- Run a program inside a frame. -/
  | scope {α β : Type} (f : F) (body : Scoped C Q F H β) (k : β → Scoped C Q F H α) :
      Scoped C Q F H α

namespace Scoped

variable {C : Type} {Q : Type → Type} {F H : Type} {α β γ : Type}

/-- Run `p`, then `f` on its result. -/
def bind : Scoped C Q F H α → (α → Scoped C Q F H β) → Scoped C Q F H β
  | ret a, f => f a
  | halt h, _ => halt h
  | charge c k, f => charge c (bind k f)
  | ask q k, f => ask q fun a => bind (k a) f
  | scope g body k, f => scope g body fun b => bind (k b) f

instance : Monad (Scoped C Q F H) where
  pure := ret
  bind := bind

@[simp] theorem pure_eq (a : α) : (pure a : Scoped C Q F H α) = ret a := rfl

@[simp] theorem ret_bind (a : α) (f : α → Scoped C Q F H β) : (ret a >>= f) = f a := rfl

@[simp] theorem halt_bind (h : H) (f : α → Scoped C Q F H β) :
    ((halt h : Scoped C Q F H α) >>= f) = halt h := rfl

@[simp] theorem charge_bind (c : C) (k : Scoped C Q F H α) (f : α → Scoped C Q F H β) :
    (charge c k >>= f) = charge c (k >>= f) := rfl

@[simp] theorem ask_bind (q : Q γ) (k : γ → Scoped C Q F H α) (f : α → Scoped C Q F H β) :
    (ask q k >>= f) = ask q fun a => k a >>= f := rfl

@[simp] theorem scope_bind (g : F) (body : Scoped C Q F H γ) (k : γ → Scoped C Q F H α)
    (f : α → Scoped C Q F H β) : (scope g body k >>= f) = scope g body fun b => k b >>= f := rfl

theorem bind_ret (p : Scoped C Q F H α) : (p >>= ret) = p := by
  induction p with
  | ret a => rfl
  | halt h => rfl
  | charge c k ih => rw [charge_bind, ih]
  | ask q k ih => rw [ask_bind]; congr 1; funext a; exact ih a
  | scope g body k _ ih => rw [scope_bind]; congr 1; funext b; exact ih b

theorem bind_assoc (p : Scoped C Q F H α) (f : α → Scoped C Q F H β) (g : β → Scoped C Q F H γ) :
    (p >>= f >>= g) = (p >>= fun a => f a >>= g) := by
  induction p with
  | ret a => rfl
  | halt h => rfl
  | charge c k ih => simp only [charge_bind, ih]
  | ask q k ih => simp only [ask_bind, ih]
  | scope g' body k _ ih => simp only [scope_bind, ih]

instance : LawfulMonad (Scoped C Q F H) :=
  LawfulMonad.mk' _ (fun p => bind_ret p) (fun _ _ => rfl) (fun p f g => bind_assoc p f g)

/-- Return a result or halt with its error. -/
def ofExcept : Except H α → Scoped C Q F H α
  | .ok a => ret a
  | .error h => halt h

@[simp] theorem ofExcept_ok (a : α) : (ofExcept (.ok a) : Scoped C Q F H α) = ret a := rfl

@[simp] theorem ofExcept_error (h : H) : (ofExcept (.error h) : Scoped C Q F H α) = halt h := rfl

/-- Charge several costs in order. -/
def payAll : List C → Scoped C Q F H α → Scoped C Q F H α
  | [], p => p
  | c :: cs, p => charge c (payAll cs p)

theorem payAll_append (cs cs' : List C) (p : Scoped C Q F H α) :
    payAll (cs ++ cs') p = payAll cs (payAll cs' p) := by
  induction cs with
  | nil => rfl
  | cons c cs ih => rw [List.cons_append, payAll, ih, payAll]

@[simp] theorem payAll_bind (cs : List C) (p : Scoped C Q F H α) (f : α → Scoped C Q F H β) :
    (payAll cs p >>= f) = payAll cs (p >>= f) := by
  induction cs with
  | nil => rfl
  | cons c cs ih => rw [payAll, charge_bind, ih, payAll]

end Scoped

/-- What costs, questions and frames mean for stacks `E` and budgets `B`. -/
structure Interp (C : Type) (Q : Type → Type) (F H E B : Type) where
  /-- The budget left by a charge, if it fits. -/
  spend : C → B → Option B
  /-- The halt of a charge that does not fit. -/
  refusal : C → H
  /-- The answer to a question. -/
  answer : {β : Type} → Q β → E → β
  /-- Enter a frame. -/
  push : F → E → E
  /-- Leave a frame. -/
  pop : F → E → E
  /-- Leaving a frame undoes entering it. -/
  pop_push : ∀ f e, pop f (push f e) = e

namespace Interp

variable {C : Type} {Q : Type → Type} {F H E B : Type} {α β : Type} (M : Interp C Q F H E B)

/-- The state of a run: the stack of frames and the budget. -/
structure State (E B : Type) where
  env : E
  budget : B

/-- The result of a program and the state it leaves. -/
def run : {α : Type} → Scoped C Q F H α → State E B → Except H α × State E B
  | _, .ret a, s => (.ok a, s)
  | _, .halt h, s => (.error h, s)
  | _, .charge c k, s =>
    match M.spend c s.budget with
    | some budget => run k { s with budget := budget }
    | none => (.error (M.refusal c), s)
  | _, .ask q k, s => run (k (M.answer q s.env)) s
  | _, .scope f body k, s =>
    match run body { s with env := M.push f s.env } with
    | (.ok b, s') => run (k b) { s' with env := M.pop f s'.env }
    | (.error h, s') => (.error h, { s' with env := M.pop f s'.env })

/-- The states of a run, in order. -/
def moments : {α : Type} → Scoped C Q F H α → State E B → List (State E B)
  | _, .ret _, s => [s]
  | _, .halt _, s => [s]
  | _, .charge c k, s =>
    s :: (match M.spend c s.budget with
      | some budget => moments k { s with budget := budget }
      | none => [])
  | _, .ask q k, s => moments (k (M.answer q s.env)) s
  | _, .scope f body k, s =>
    s :: moments body { s with env := M.push f s.env } ++
      match M.run body { s with env := M.push f s.env } with
      | (.ok b, s') => moments (k b) { s' with env := M.pop f s'.env }
      | (.error _, s') => [{ s' with env := M.pop f s'.env }]

/-- The result of a program whose charges are all granted. -/
def value : {α : Type} → Scoped C Q F H α → E → Except H α
  | _, .ret a, _ => .ok a
  | _, .halt h, _ => .error h
  | _, .charge _ k, e => value k e
  | _, .ask q k, e => value (k (M.answer q e)) e
  | _, .scope f body k, e =>
    match value body (M.push f e) with
    | .ok b => value (k b) e
    | .error h => .error h

/-- The result of a run is the refusal of a charge. -/
def Refused (r : Except H α) : Prop := ∃ c, r = .error (M.refusal c)

/-! ### Runs -/

@[simp] theorem run_ret (a : α) (s : State E B) : M.run (.ret a) s = (.ok a, s) := rfl

@[simp] theorem run_halt (h : H) (s : State E B) :
    M.run (.halt h : Scoped C Q F H α) s = (.error h, s) := rfl

theorem run_charge (c : C) (k : Scoped C Q F H α) (s : State E B) :
    M.run (.charge c k) s = match M.spend c s.budget with
      | some budget => M.run k { s with budget := budget }
      | none => (.error (M.refusal c), s) := rfl

@[simp] theorem run_ask (q : Q β) (k : β → Scoped C Q F H α) (s : State E B) :
    M.run (.ask q k) s = M.run (k (M.answer q s.env)) s := rfl

theorem run_scope (f : F) (body : Scoped C Q F H β) (k : β → Scoped C Q F H α) (s : State E B) :
    M.run (.scope f body k) s = match M.run body { s with env := M.push f s.env } with
      | (.ok b, s') => M.run (k b) { s' with env := M.pop f s'.env }
      | (.error h, s') => (.error h, { s' with env := M.pop f s'.env }) := by
  rw [run]

theorem moments_charge (c : C) (k : Scoped C Q F H α) (s : State E B) :
    M.moments (.charge c k) s = s :: match M.spend c s.budget with
      | some budget => M.moments k { s with budget := budget }
      | none => [] := rfl

theorem moments_scope (f : F) (body : Scoped C Q F H β) (k : β → Scoped C Q F H α)
    (s : State E B) :
    M.moments (.scope f body k) s = s :: M.moments body { s with env := M.push f s.env } ++
      match M.run body { s with env := M.push f s.env } with
      | (.ok b, s') => M.moments (k b) { s' with env := M.pop f s'.env }
      | (.error _, s') => [{ s' with env := M.pop f s'.env }] := by
  rw [moments]

theorem run_charge_some {c : C} {s : State E B} {budget : B} (h : M.spend c s.budget = some budget)
    (k : Scoped C Q F H α) : M.run (.charge c k) s = M.run k { s with budget := budget } := by
  rw [run_charge, h]

theorem run_charge_none {c : C} {s : State E B} (h : M.spend c s.budget = none)
    (k : Scoped C Q F H α) : M.run (.charge c k) s = (.error (M.refusal c), s) := by
  rw [run_charge, h]

theorem run_bind (p : Scoped C Q F H α) (f : α → Scoped C Q F H β) (s : State E B) :
    M.run (p >>= f) s = match M.run p s with
      | (.ok a, s') => M.run (f a) s'
      | (.error h, s') => (.error h, s') := by
  induction p generalizing s with
  | ret a => rfl
  | halt h => rfl
  | charge c k ih =>
    rw [Scoped.charge_bind, run_charge, run_charge]
    cases M.spend c s.budget with
    | none => rfl
    | some budget => exact ih f _
  | ask q k ih => exact ih _ f s
  | scope g body k _ ih =>
    rw [Scoped.scope_bind, run_scope, run_scope]
    cases M.run body { s with env := M.push g s.env } with
    | mk r s' =>
      cases r with
      | error h => rfl
      | ok b => exact ih b f _

theorem run_bind_ok {p : Scoped C Q F H α} {s s' : State E B} {a : α} (h : M.run p s = (.ok a, s'))
    (f : α → Scoped C Q F H β) : M.run (p >>= f) s = M.run (f a) s' := by
  rw [run_bind, h]

/-- **Frames are popped.** A run leaves the stack as it found it, also when it halts. -/
theorem run_env (p : Scoped C Q F H α) (s : State E B) : (M.run p s).2.env = s.env := by
  induction p generalizing s with
  | ret a => rfl
  | halt h => rfl
  | charge c k ih =>
    rw [run_charge]
    cases M.spend c s.budget with
    | none => rfl
    | some budget => exact ih _
  | ask q k ih => exact ih _ s
  | scope f body k ihbody ih =>
    rw [run_scope]
    have hbody := ihbody { s with env := M.push f s.env }
    cases hrun : M.run body { s with env := M.push f s.env } with
    | mk r s' =>
      rw [hrun] at hbody
      have hpop : M.pop f s'.env = s.env := by rw [show s'.env = _ from hbody, M.pop_push]
      cases r with
      | error h => exact hpop
      | ok b => exact (ih b _).trans hpop

/-- **A run and the value of its program.** A run comes to the value of the program on its stack,
unless a charge is refused. -/
theorem run_value (p : Scoped C Q F H α) (s : State E B) :
    (M.run p s).1 = M.value p s.env ∨ M.Refused (M.run p s).1 := by
  induction p generalizing s with
  | ret a => exact .inl rfl
  | halt h => exact .inl rfl
  | charge c k ih =>
    rw [run_charge]
    cases M.spend c s.budget with
    | none => exact .inr ⟨c, rfl⟩
    | some budget => exact ih _
  | ask q k ih => exact ih _ s
  | scope f body k ihbody ih =>
    rw [run_scope, value]
    have henv := M.run_env body { s with env := M.push f s.env }
    have hbody := ihbody { s with env := M.push f s.env }
    cases hrun : M.run body { s with env := M.push f s.env } with
    | mk r s' =>
      rw [hrun] at henv hbody
      have hpop : M.pop f s'.env = s.env := by rw [show s'.env = _ from henv, M.pop_push]
      rcases hbody with hbody | ⟨c, hbody⟩
      · rw [← show r = _ from hbody]
        cases r with
        | error h => exact .inl rfl
        | ok b => simpa only [hpop] using ih b { s' with env := M.pop f s'.env }
      · obtain rfl : r = _ := hbody
        exact .inr ⟨c, rfl⟩

/-- A run that returns comes to the value of the program. -/
theorem value_of_run {p : Scoped C Q F H α} {s : State E B} {a : α} (h : (M.run p s).1 = .ok a) :
    M.value p s.env = .ok a := by
  rcases M.run_value p s with hv | ⟨c, hc⟩
  · rw [← hv, h]
  · rw [h] at hc
    cases hc

/-! ### Values -/

@[simp] theorem value_ret (a : α) (e : E) : M.value (.ret a) e = .ok a := rfl

@[simp] theorem value_halt (h : H) (e : E) :
    M.value (.halt h : Scoped C Q F H α) e = .error h := rfl

@[simp] theorem value_charge (c : C) (k : Scoped C Q F H α) (e : E) :
    M.value (.charge c k) e = M.value k e := rfl

@[simp] theorem value_ask (q : Q β) (k : β → Scoped C Q F H α) (e : E) :
    M.value (.ask q k) e = M.value (k (M.answer q e)) e := rfl

@[simp] theorem value_scope (f : F) (body : Scoped C Q F H β) (k : β → Scoped C Q F H α) (e : E) :
    M.value (.scope f body k) e = M.value body (M.push f e) >>= fun b => M.value (k b) e := by
  rw [value]
  cases M.value body (M.push f e) <;> rfl

@[simp] theorem value_bind (p : Scoped C Q F H α) (f : α → Scoped C Q F H β) (e : E) :
    M.value (p >>= f) e = M.value p e >>= fun a => M.value (f a) e := by
  induction p generalizing e with
  | ret a => rfl
  | halt h => rfl
  | charge c k ih => exact ih f e
  | ask q k ih => exact ih _ f e
  | scope g body k _ ih =>
    rw [Scoped.scope_bind, value_scope, value_scope]
    cases M.value body (M.push g e) with
    | error h => rfl
    | ok b => exact ih b f e

/-! ### Budgets -/

/-- **What every granted charge keeps holds of every budget of a run.** -/
theorem budget_of_mem_moments {I : B → Prop}
    (hstep : ∀ c b b', M.spend c b = some b' → I b → I b') (p : Scoped C Q F H α) (s : State E B)
    (hs : I s.budget) : (∀ m ∈ M.moments p s, I m.budget) ∧ I (M.run p s).2.budget := by
  induction p generalizing s with
  | ret a => exact ⟨by simpa [moments] using hs, hs⟩
  | halt h => exact ⟨by simpa [moments] using hs, hs⟩
  | charge c k ih =>
    rw [moments_charge, run_charge]
    cases hspend : M.spend c s.budget with
    | none => exact ⟨by simpa using hs, hs⟩
    | some budget =>
      obtain ⟨hmoments, hrun⟩ := ih { s with budget := budget } (hstep c _ _ hspend hs)
      exact ⟨List.forall_mem_cons.mpr ⟨hs, hmoments⟩, hrun⟩
  | ask q k ih => exact ih _ s hs
  | scope f body k ihbody ih =>
    obtain ⟨hbody, hrun⟩ := ihbody { s with env := M.push f s.env } hs
    rw [moments_scope, run_scope]
    cases hr : M.run body { s with env := M.push f s.env } with
    | mk r s' =>
      rw [hr] at hrun
      cases r with
      | error h =>
        refine ⟨?_, hrun⟩
        rw [List.cons_append, List.forall_mem_cons, List.forall_mem_append]
        exact ⟨hs, hbody, by simpa using hrun⟩
      | ok b =>
        obtain ⟨hmoments, hlast⟩ := ih b { s' with env := M.pop f s'.env } hrun
        refine ⟨?_, hlast⟩
        rw [List.cons_append, List.forall_mem_cons, List.forall_mem_append]
        exact ⟨hs, hbody, hmoments⟩

/-- The budget after several charges, if they all fit. -/
def spendAll : List C → B → Option B
  | [], b => some b
  | c :: cs, b => (M.spend c b).bind (spendAll cs)

theorem run_payAll_some {cs : List C} {s : State E B} {b : B} (h : M.spendAll cs s.budget = some b)
    (p : Scoped C Q F H α) : M.run (.payAll cs p) s = M.run p { s with budget := b } := by
  induction cs generalizing s with
  | nil =>
    obtain rfl := Option.some.inj h
    rfl
  | cons c cs ih =>
    obtain ⟨b', hb', h⟩ := Option.bind_eq_some_iff.mp h
    rw [Scoped.payAll, M.run_charge_some hb']
    exact @ih { s with budget := b' } h

theorem run_payAll_none {cs : List C} {s : State E B} (h : M.spendAll cs s.budget = none)
    (p : Scoped C Q F H α) : M.Refused (M.run (.payAll cs p) s).1 := by
  induction cs generalizing s with
  | nil => cases h
  | cons c cs ih =>
    rw [Scoped.payAll]
    cases hc : M.spend c s.budget with
    | none =>
      rw [M.run_charge_none hc]
      exact ⟨c, rfl⟩
    | some b =>
      rw [M.run_charge_some hc]
      refine @ih { s with budget := b } ?_
      rw [spendAll, hc] at h
      exact h

/-! ### Safety -/

/-- **Safety of a program.** On the stack `e` every frame it enters gives a stack that satisfies
`I`, every halt of its own satisfies `X`, and every value it returns satisfies `P`. A charge may
be taken to have been granted by some budget. -/
def Safe (I : E → Prop) (X : H → Prop) :
    {α : Type} → (α → Prop) → Scoped C Q F H α → E → Prop
  | _, P, .ret a, _ => P a
  | _, _, .halt h, _ => X h
  | _, P, .charge c k, e => (∃ b b', M.spend c b = some b') → Safe I X P k e
  | _, P, .ask q k, e => Safe I X P (k (M.answer q e)) e
  | _, P, .scope f body k, e =>
    I (M.push f e) ∧ Safe I X (fun b => Safe I X P (k b) e) body (M.push f e)

namespace Safe

variable {M} {I : E → Prop} {X : H → Prop} {P P' : α → Prop}

/-- The rule of consequence. -/
theorem weaken {p : Scoped C Q F H α} {e : E} (h : M.Safe I X P p e) (hP : ∀ a, P a → P' a) :
    M.Safe I X P' p e := by
  induction p generalizing e with
  | ret a => exact hP a h
  | halt x => exact h
  | charge c k ih => exact fun hc => ih (h hc) hP
  | ask q k ih => exact ih _ h hP
  | scope f body k ihbody ih => exact ⟨h.1, ihbody h.2 fun b hb => ih b hb hP⟩

/-- Sequential composition. -/
theorem bind {p : Scoped C Q F H β} {f : β → Scoped C Q F H α} {e : E}
    (h : M.Safe I X (fun b => M.Safe I X P (f b) e) p e) : M.Safe I X P (p >>= f) e := by
  induction p generalizing e with
  | ret b => exact h
  | halt x => exact h
  | charge c k ih => exact fun hc => ih (h hc)
  | ask q k ih => exact ih _ h
  | scope g body k ihbody ih => exact ⟨h.1, h.2.weaken fun b hb => ih b hb⟩

theorem seq {p : Scoped C Q F H β} {R : β → Prop} {f : β → Scoped C Q F H α} {e : E}
    (h : M.Safe I X R p e) (hf : ∀ b, R b → M.Safe I X P (f b) e) : M.Safe I X P (p >>= f) e :=
  bind (h.weaken hf)

theorem ofExcept {r : Except H α} {e : E} (hok : ∀ a, r = .ok a → P a)
    (herror : ∀ h, r = .error h → X h) : M.Safe I X P (Scoped.ofExcept r) e := by
  cases r with
  | ok a => exact hok a rfl
  | error h => exact herror h rfl

/-- What a run of a safe program comes to: a result, one of its halts, or a refusal. -/
theorem run {p : Scoped C Q F H α} {s : State E B} (h : M.Safe I X P p s.env) :
    (∃ a, (M.run p s).1 = .ok a ∧ P a) ∨ (∃ x, (M.run p s).1 = .error x ∧ X x) ∨
      M.Refused (M.run p s).1 := by
  induction p generalizing s with
  | ret a => exact .inl ⟨a, rfl, h⟩
  | halt x => exact .inr (.inl ⟨x, rfl, h⟩)
  | charge c k ih =>
    rw [Interp.run_charge]
    cases hspend : M.spend c s.budget with
    | none => exact .inr (.inr ⟨c, rfl⟩)
    | some budget => exact @ih _ { s with budget := budget } (h ⟨_, _, hspend⟩)
  | ask q k ih => exact ih _ h
  | scope f body k ihbody ih =>
    rw [Interp.run_scope]
    have henv := M.run_env body { s with env := M.push f s.env }
    have hbody := @ihbody _ { s with env := M.push f s.env } h.2
    cases hr : M.run body { s with env := M.push f s.env } with
    | mk r s' =>
      rw [hr] at henv hbody
      have hpop : M.pop f s'.env = s.env := by rw [show s'.env = _ from henv, M.pop_push]
      rcases hbody with ⟨b, rfl, hb⟩ | ⟨x, rfl, hx⟩ | ⟨c, rfl⟩
      · exact @ih b _ { s' with env := M.pop f s'.env } (by rw [hpop]; exact hb)
      · exact .inr (.inl ⟨x, rfl, hx⟩)
      · exact .inr (.inr ⟨c, rfl⟩)

/-- Every stack of a run of a safe program satisfies `I`. -/
theorem moments {p : Scoped C Q F H α} {s : State E B} (h : M.Safe I X P p s.env)
    (hs : I s.env) : ∀ m ∈ M.moments p s, I m.env := by
  induction p generalizing s with
  | ret a => simpa [Interp.moments] using hs
  | halt x => simpa [Interp.moments] using hs
  | charge c k ih =>
    rw [Interp.moments_charge]
    cases hspend : M.spend c s.budget with
    | none => simpa using hs
    | some budget =>
      exact List.forall_mem_cons.mpr
        ⟨hs, @ih _ { s with budget := budget } (h ⟨_, _, hspend⟩) hs⟩
  | ask q k ih => exact ih _ h hs
  | scope f body k ihbody ih =>
    rw [Interp.moments_scope]
    have henv := M.run_env body { s with env := M.push f s.env }
    have hresult := run (s := { s with env := M.push f s.env }) h.2
    have hbody := @ihbody _ { s with env := M.push f s.env } h.2 h.1
    rw [List.cons_append, List.forall_mem_cons, List.forall_mem_append]
    refine ⟨hs, hbody, ?_⟩
    cases hr : M.run body { s with env := M.push f s.env } with
    | mk r s' =>
      rw [hr] at henv hresult
      have hpop : M.pop f s'.env = s.env := by rw [show s'.env = _ from henv, M.pop_push]
      cases r with
      | error x => simpa [hpop] using hs
      | ok b =>
        obtain ⟨b', hb', hb⟩ : ∃ a, Except.ok b = Except.ok a ∧ M.Safe I X P (k a) s.env := by
          rcases hresult with hresult | ⟨x, hx, -⟩ | ⟨c, hc⟩
          · exact hresult
          · cases hx
          · cases hc
        obtain rfl := Except.ok.inj hb'
        exact @ih b _ { s' with env := M.pop f s'.env } (by rw [hpop]; exact hb)
          (by rw [hpop]; exact hs)

end Safe

/-! ### Stacks that answer alike -/

/-- A relation between stacks that every question and every frame respects. -/
structure Similar (R : E → E → Prop) : Prop where
  answer : ∀ {β : Type} (q : Q β) {e e'}, R e e' → M.answer q e = M.answer q e'
  push : ∀ f {e e'}, R e e' → R (M.push f e) (M.push f e')

variable {M} {R : E → E → Prop}

/-- **Stacks that answer alike give runs alike**: the same result and the same budget. -/
theorem run_similar (hR : M.Similar R) (p : Scoped C Q F H α) {s s' : State E B}
    (henv : R s.env s'.env) (hbudget : s.budget = s'.budget) :
    (M.run p s).1 = (M.run p s').1 ∧ (M.run p s).2.budget = (M.run p s').2.budget := by
  induction p generalizing s s' with
  | ret a => exact ⟨rfl, hbudget⟩
  | halt h => exact ⟨rfl, hbudget⟩
  | charge c k ih =>
    rw [run_charge, run_charge, hbudget]
    cases M.spend c s'.budget with
    | none => exact ⟨rfl, hbudget⟩
    | some budget => exact @ih { s with budget } { s' with budget } henv rfl
  | ask q k ih =>
    rw [run_ask, run_ask, hR.answer q henv]
    exact ih _ henv hbudget
  | scope f body k ihbody ih =>
    have hbody := @ihbody { s with env := M.push f s.env } { s' with env := M.push f s'.env }
      (hR.push f henv) hbudget
    have hpop := M.run_env body { s with env := M.push f s.env }
    have hpop' := M.run_env body { s' with env := M.push f s'.env }
    rw [run_scope, run_scope]
    cases h : M.run body { s with env := M.push f s.env } with
    | mk r t =>
      cases h' : M.run body { s' with env := M.push f s'.env } with
      | mk r' t' =>
        rw [h, h'] at hbody
        rw [h] at hpop
        rw [h'] at hpop'
        obtain ⟨hr, ht⟩ := hbody
        obtain rfl : r = r' := hr
        cases r with
        | error x => exact ⟨rfl, ht⟩
        | ok b =>
          refine ih b ?_ ht
          change R (M.pop f t.env) (M.pop f t'.env)
          rw [show t.env = _ from hpop, show t'.env = _ from hpop', M.pop_push, M.pop_push]
          exact henv

/-! ### Programs that run alike on two stacks -/

/-- The runs of a program on two stacks come to the same result and leave the same budget. -/
def Alike (M : Interp C Q F H E B) (p : Scoped C Q F H α) (e e' : E) : Prop :=
  ∀ b, (M.run p ⟨e, b⟩).1 = (M.run p ⟨e', b⟩).1 ∧
    (M.run p ⟨e, b⟩).2.budget = (M.run p ⟨e', b⟩).2.budget

namespace Alike

variable {e e' : E}

theorem ret (a : α) : M.Alike (.ret a) e e' := fun _ => ⟨rfl, rfl⟩

theorem charge {p : Scoped C Q F H α} (c : C) (h : M.Alike p e e') :
    M.Alike (.charge c p) e e' := by
  intro b
  rw [Interp.run_charge, Interp.run_charge]
  cases M.spend c b with
  | none => exact ⟨rfl, rfl⟩
  | some left => exact h left

theorem scope {p : Scoped C Q F H α} (f : F) (h : M.Alike p (M.push f e) (M.push f e')) :
    M.Alike (.scope f p .ret) e e' := by
  intro b
  obtain ⟨hresult, hbudget⟩ := h b
  rw [Interp.run_scope, Interp.run_scope]
  cases hrun : M.run p ⟨M.push f e, b⟩ with
  | mk r t =>
    cases hrun' : M.run p ⟨M.push f e', b⟩ with
    | mk r' t' =>
      rw [hrun, hrun'] at hresult hbudget
      obtain rfl : r = r' := hresult
      cases r with
      | error x => exact ⟨rfl, hbudget⟩
      | ok a => exact ⟨rfl, hbudget⟩

/-- Sequential composition: only the value of the first program matters to the second. -/
theorem bind {p : Scoped C Q F H β} {f : β → Scoped C Q F H α} (hp : M.Alike p e e')
    (hf : ∀ a, M.value p e = .ok a → M.Alike (f a) e e') : M.Alike (p >>= f) e e' := by
  intro b
  obtain ⟨hresult, hbudget⟩ := hp b
  have henv := M.run_env p ⟨e, b⟩
  have henv' := M.run_env p ⟨e', b⟩
  have hvalue := fun a => @value_of_run _ _ _ _ _ _ _ M p ⟨e, b⟩ a
  rw [run_bind, run_bind]
  cases hrun : M.run p ⟨e, b⟩ with
  | mk r t =>
    cases hrun' : M.run p ⟨e', b⟩ with
    | mk r' t' =>
      obtain ⟨env, left⟩ := t
      obtain ⟨env', left'⟩ := t'
      rw [hrun] at hresult hbudget henv hvalue
      rw [hrun'] at hresult hbudget henv'
      obtain rfl : r = r' := hresult
      obtain rfl : left = left' := hbudget
      obtain rfl : env = e := henv
      obtain rfl : env' = e' := henv'
      cases r with
      | error x => exact ⟨rfl, rfl⟩
      | ok a => exact hf a (hvalue a rfl) left

/-- Stacks that answer alike. -/
theorem of_similar (hR : M.Similar R) (p : Scoped C Q F H α) (h : R e e') : M.Alike p e e' :=
  fun _ => run_similar hR p h rfl

end Alike

end Interp

end ArosTools
