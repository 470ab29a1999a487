import ArosTools.Graph.Reach
import Mathlib.Data.Finset.Card

/-!
# Depth-first search

`walk` is the recursive search of an imperative program: a set of seen nodes, a list the nodes
are pushed on, either when a node is entered or when it is left. The recursion is bounded by
fuel; `walk_isSome` says how much is enough.

`Dfs next roots S L` is the search without its state: from `roots`, with the nodes of `S` already
seen, the nodes of `L` are finished, in this order. What a search does is proved about `Dfs` by
induction on its derivation:

* `Dfs.mem_iff`: it finishes exactly what the roots reach outside `S`;
* `Dfs.finish_order`: of two nodes the first of which reaches the second, some node of the
  first one's component is finished last.
-/

namespace ArosTools

namespace Graph

open Relation

variable {α : Type*} {next : α → List α}

/-- The edges listed by a successor function. -/
def Succ (next : α → List α) (a b : α) : Prop := b ∈ next a

/-! ### The search as a derivation -/

/-- With `S` already seen, a search from the given roots finishes the nodes of a list in order. -/
inductive Dfs (next : α → List α) : List α → Set α → List α → Prop
  | nil (S : Set α) : Dfs next [] S []
  | skip {x : α} {xs : List α} {S : Set α} {L : List α} (hx : x ∈ S) (rest : Dfs next xs S L) :
      Dfs next (x :: xs) S L
  | visit {x : α} {xs : List α} {S : Set α} {L₁ L₂ : List α} (hx : x ∉ S)
      (below : Dfs next (next x) (insert x S) L₁)
      (rest : Dfs next xs (insert x S ∪ {y | y ∈ L₁}) L₂) :
      Dfs next (x :: xs) S (L₁ ++ x :: L₂)

namespace Dfs

variable {roots xs L L₁ L₂ : List α} {S : Set α} {x u v : α}

theorem notMem_seen (h : Dfs next roots S L) : ∀ y ∈ L, y ∉ S := by
  induction h with
  | nil S => simp
  | skip hx rest ih => exact ih
  | visit hx below rest ihb ihr =>
    intro y hy hS
    rcases List.mem_append.mp hy with hy | hy
    · exact ihb y hy (Set.mem_insert_of_mem _ hS)
    · rcases List.mem_cons.mp hy with rfl | hy
      · exact hx hS
      · exact ihr y hy (Or.inl (Set.mem_insert_of_mem _ hS))

theorem nodup (h : Dfs next roots S L) : L.Nodup := by
  induction h with
  | nil S => exact List.nodup_nil
  | skip hx rest ih => exact ih
  | @visit x xs S L₁ L₂ hx below rest ihb ihr =>
    refine List.nodup_append.mpr ⟨ihb, List.nodup_cons.mpr ⟨fun h => ?_, ihr⟩, ?_⟩
    · exact rest.notMem_seen x h (Or.inl (Set.mem_insert _ _))
    · rintro a ha b hb rfl
      rcases List.mem_cons.mp hb with rfl | hb
      · exact below.notMem_seen a ha (Set.mem_insert _ _)
      · exact rest.notMem_seen a hb (Or.inr ha)

theorem mem_roots (h : Dfs next roots S L) : ∀ r ∈ roots, r ∈ L ∨ r ∈ S := by
  induction h with
  | nil S => simp
  | skip hx rest ih =>
    intro r hr
    rcases List.mem_cons.mp hr with rfl | hr
    · exact Or.inr hx
    · exact ih r hr
  | visit hx below rest ihb ihr =>
    intro r hr
    rcases List.mem_cons.mp hr with rfl | hr
    · exact Or.inl (by simp)
    · rcases ihr r hr with h | (rfl | h) | h
      · exact Or.inl (by simp [h])
      · exact Or.inl (by simp)
      · exact Or.inr h
      · exact Or.inl (List.mem_append_left _ h)

/-- What is finished has only finished or seen successors. -/
theorem closed (h : Dfs next roots S L) : ∀ y ∈ L, ∀ z ∈ next y, z ∈ L ∨ z ∈ S := by
  induction h with
  | nil S => simp
  | skip hx rest ih => exact ih
  | @visit x xs S L₁ L₂ hx below rest ihb ihr =>
    intro y hy z hz
    -- A successor that `below` or `rest` had already seen is finished or was seen before.
    have hbelow : ∀ w, w ∈ L₁ ∨ w ∈ insert x S → w ∈ L₁ ++ x :: L₂ ∨ w ∈ S := by
      rintro w (hw | rfl | hw)
      · exact Or.inl (List.mem_append_left _ hw)
      · exact Or.inl (by simp)
      · exact Or.inr hw
    rcases List.mem_append.mp hy with hy | hy
    · exact hbelow z (ihb y hy z hz)
    · rcases List.mem_cons.mp hy with rfl | hy
      · exact hbelow z (below.mem_roots z hz)
      · rcases ihr y hy z hz with h | h | h
        · exact Or.inl (by simp [h])
        · exact hbelow z (Or.inr h)
        · exact hbelow z (Or.inl h)

theorem reached (h : Dfs next roots S L) : ∀ y ∈ L, ∃ r ∈ roots, r ∉ S ∧
    ReflTransGen (Avoiding (Succ next) S) r y := by
  induction h with
  | nil S => simp
  | skip hx rest ih =>
    intro y hy
    obtain ⟨r, hr, hrS, hry⟩ := ih y hy
    exact ⟨r, List.mem_cons_of_mem _ hr, hrS, hry⟩
  | @visit x xs S L₁ L₂ hx below rest ihb ihr =>
    intro y hy
    rcases List.mem_append.mp hy with hy | hy
    · obtain ⟨r, hr, hrS, hry⟩ := ihb y hy
      have hxr : Avoiding (Succ next) S x r := ⟨hr, fun h => hrS (Set.mem_insert_of_mem _ h)⟩
      refine ⟨x, List.mem_cons_self, hx, ReflTransGen.head hxr ?_⟩
      exact hry.lift id (Avoiding.mono (Set.subset_insert _ _))
    · rcases List.mem_cons.mp hy with rfl | hy
      · exact ⟨y, List.mem_cons_self, hx, ReflTransGen.refl⟩
      · obtain ⟨r, hr, hrS, hry⟩ := ihr y hy
        have hsub : S ⊆ insert x S ∪ {y | y ∈ L₁} := fun z hz => Or.inl (Or.inr hz)
        exact ⟨r, List.mem_cons_of_mem _ hr, fun h => hrS (hsub h),
          hry.lift id (Avoiding.mono hsub)⟩

/-- **A search finishes exactly what its roots reach outside what was seen.** -/
theorem mem_iff (h : Dfs next roots S L) : u ∈ L ↔ ∃ r ∈ roots, r ∉ S ∧
    ReflTransGen (Avoiding (Succ next) S) r u := by
  refine ⟨h.reached u, ?_⟩
  rintro ⟨r, hr, hrS, hru⟩
  exact mem_of_avoiding (B := {y | y ∈ L}) h.closed ((h.mem_roots r hr).resolve_right hrS) hru

theorem congr {T : Set α} (h : Dfs next roots S L) (hST : ∀ y, y ∈ S ↔ y ∈ T) :
    Dfs next roots T L := by
  obtain rfl : S = T := Set.ext hST
  exact h

/-- Two searches, one after the other. -/
theorem append (h₁ : Dfs next [x] S L₁) (h₂ : Dfs next xs (S ∪ {y | y ∈ L₁}) L₂) :
    Dfs next (x :: xs) S (L₁ ++ L₂) := by
  cases h₁ with
  | skip hx rest =>
    cases rest
    exact Dfs.skip hx (h₂.congr (by simp))
  | @visit _ _ _ M₁ M₂ hx below rest =>
    cases rest
    rw [List.append_assoc, List.singleton_append]
    refine Dfs.visit hx below (h₂.congr fun y => ?_)
    simp only [Set.mem_union, Set.mem_ofPred_eq, List.mem_append, List.mem_singleton,
      Set.mem_insert_iff]
    tauto

/-! ### The order of finishing -/

/-- `u` stands in `L` before `v`, or is `v`. -/
def AtOrBefore (L : List α) (u v : α) : Prop := ∃ A B, L = A ++ v :: B ∧ u ∈ A ++ [v]

theorem AtOrBefore.mem (h : AtOrBefore L u v) : v ∈ L := by
  obtain ⟨A, B, rfl, _⟩ := h
  simp

theorem AtOrBefore.append_right (h : AtOrBefore L₁ u v) : AtOrBefore (L₁ ++ L₂) u v := by
  obtain ⟨A, B, rfl, hu⟩ := h
  exact ⟨A, B ++ L₂, by simp, hu⟩

theorem AtOrBefore.append_left (h : AtOrBefore L₂ u v) : AtOrBefore (L₁ ++ L₂) u v := by
  obtain ⟨A, B, rfl, hu⟩ := h
  refine ⟨L₁ ++ A, B, by simp, ?_⟩
  rw [List.append_assoc]
  exact List.mem_append_right _ hu

theorem atOrBefore_of_mem (hu : u ∈ L₁) (hv : v ∈ L₂) : AtOrBefore (L₁ ++ L₂) u v := by
  obtain ⟨A, B, rfl⟩ := List.append_of_mem hv
  exact ⟨L₁ ++ A, B, by simp, by simp [hu]⟩

/-- In a list without repetitions, what stands at or after `u` is `u` or stands after it. -/
theorem AtOrBefore.eq_or_mem {A D : List α} (hn : (A ++ u :: D).Nodup)
    (h : AtOrBefore (A ++ u :: D) u v) : v = u ∨ v ∈ D := by
  induction A with
  | nil => exact List.mem_cons.mp h.mem
  | cons a A ih =>
    rw [List.cons_append, List.nodup_cons] at hn
    have hua : u ≠ a := fun h => hn.1 (h ▸ by simp)
    obtain ⟨A', B, hsplit, hu⟩ := h
    cases A' with
    | nil =>
      rw [List.cons_append, List.nil_append, List.cons.injEq] at hsplit
      exact absurd ((List.mem_singleton.mp hu).trans hsplit.1.symm) hua
    | cons a' A' =>
      rw [List.cons_append, List.cons_append, List.cons.injEq] at hsplit
      refine ih hn.2 ⟨A', B, hsplit.2, ?_⟩
      rcases List.mem_cons.mp hu with hu | hu
      · exact absurd (hu.trans hsplit.1.symm) hua
      · exact hu

/-- **The order of finishing.** If `v` reaches `u`, then `u` is not finished after every node of
the component of `v`. -/
theorem finish_order (h : Dfs next roots S L) : ∀ u ∈ L, ∀ v ∈ L,
    ReflTransGen (Avoiding (Succ next) S) v u →
      ∃ v', Mutual (Avoiding (Succ next) S) v v' ∧ AtOrBefore L u v' := by
  induction h with
  | nil S => simp
  | skip hx rest ih => exact ih
  | @visit x xs S L₁ L₂ hx below rest ihb ihr =>
    intro u hu v hv hvu
    -- The block finished with `x` is left only into `S`.
    have hblock : ∀ y ∈ L₁ ++ [x], ∀ z, Succ next y z → z ∈ L₁ ++ [x] ∨ z ∈ S := by
      intro y hy z hz
      have hz' : z ∈ L₁ ∨ z ∈ insert x S := by
        rcases List.mem_append.mp hy with hy | hy
        · exact below.closed y hy z hz
        · rw [List.mem_singleton.mp hy] at hz
          exact below.mem_roots z hz
      rcases hz' with hz' | rfl | hz'
      · exact Or.inl (List.mem_append_left _ hz')
      · exact Or.inl (by simp)
      · exact Or.inr hz'
    have hstay : ∀ y ∈ L₁ ++ [x], ReflTransGen (Avoiding (Succ next) S) y u → u ∈ L₁ ++ [x] :=
      fun y hy hyu => mem_of_avoiding (B := {w | w ∈ L₁ ++ [x]}) hblock hy hyu
    have hout : u ∈ L₂ → u ∉ L₁ ++ [x] := by
      intro hu₂ hu₁
      refine rest.notMem_seen u hu₂ ?_
      rcases List.mem_append.mp hu₁ with hu₁ | hu₁
      · exact Or.inr hu₁
      · exact Or.inl (Or.inl (List.mem_singleton.mp hu₁))
    by_cases hvblock : v ∈ L₁ ++ [x]
    · have hublock := hstay v hvblock hvu
      -- If `v` reaches `x`, the component of `v` is that of `x`, finished last in the block.
      by_cases hvx : ReflTransGen (Avoiding (Succ next) S) v x
      · refine ⟨x, ⟨hvx, ?_⟩, L₁, L₂, rfl, hublock⟩
        have hroot : Dfs next [x] S (L₁ ++ [x]) := Dfs.visit hx below (Dfs.nil _)
        obtain ⟨r, hr, -, hrv⟩ := hroot.reached v hvblock
        rwa [List.mem_singleton.mp hr] at hrv
      · have hv₁ : v ∈ L₁ := by
          rcases List.mem_append.mp hvblock with hv₁ | hv₁
          · exact hv₁
          · exact absurd (List.mem_singleton.mp hv₁ ▸ ReflTransGen.refl) hvx
        have hu₁ : u ∈ L₁ := by
          rcases List.mem_append.mp hublock with hu₁ | hu₁
          · exact hu₁
          · exact absurd (List.mem_singleton.mp hu₁ ▸ hvu) hvx
        have hvu' : ReflTransGen (Avoiding (Succ next) (insert x S)) v u := by
          rcases avoiding_union (T := {x}) hvu with h | ⟨w, rfl, hvw, -⟩
          · rwa [Set.union_singleton] at h
          · exact absurd hvw hvx
        obtain ⟨v', hmut, hbefore⟩ := ihb u hu₁ v hv₁ hvu'
        exact ⟨v', hmut.mono (Avoiding.mono (Set.subset_insert _ _)), hbefore.append_right⟩
    · have hv₂ : v ∈ L₂ := by
        simp only [List.mem_append, List.mem_cons, List.not_mem_nil, or_false, not_or] at hv hvblock
        tauto
      by_cases hublock : u ∈ L₁ ++ [x]
      · refine ⟨v, Mutual.refl v, ?_⟩
        have := atOrBefore_of_mem hublock hv₂
        rwa [List.append_assoc, List.singleton_append] at this
      · have hu₂ : u ∈ L₂ := by
          simp only [List.mem_append, List.mem_cons, List.not_mem_nil, or_false, not_or]
            at hu hublock
          tauto
        -- A path through the block would have ended there.
        have hvu' : ReflTransGen (Avoiding (Succ next) (insert x S ∪ {y | y ∈ L₁})) v u := by
          have hset : S ∪ {w | w ∈ L₁ ++ [x]} = insert x S ∪ {y | y ∈ L₁} := by
            ext z
            simp only [Set.mem_union, Set.mem_ofPred_eq, List.mem_append, List.mem_singleton,
              Set.mem_insert_iff]
            tauto
          rcases avoiding_union (T := {w | w ∈ L₁ ++ [x]}) hvu with h | ⟨w, hw, -, hwu⟩
          · rwa [hset] at h
          · exact absurd (hstay w hw hwu) (hout hu₂)
        obtain ⟨v', hmut, hbefore⟩ := ihr u hu₂ v hv₂ hvu'
        refine ⟨v', hmut.mono (Avoiding.mono fun z hz => Or.inl (Or.inr hz)), ?_⟩
        have : AtOrBefore ((L₁ ++ [x]) ++ L₂) u v' := hbefore.append_left
        rwa [List.append_assoc, List.singleton_append] at this

end Dfs

/-! ### The search with its state -/

/-- When a node is pushed on the list: on entering it, or after its successors. -/
inductive Push
  | onEnter
  | onLeave
  deriving DecidableEq, Repr

/-- What is pushed before the successors of a node. -/
def Push.enter : Push → α → List α
  | .onEnter, node => [node]
  | .onLeave, _ => []

/-- What is pushed after the successors of a node. -/
def Push.leave : Push → α → List α
  | .onEnter, _ => []
  | .onLeave, node => [node]

/-- The variables of a search: the nodes seen and the list they are pushed on. -/
structure Walk (α : Type*) where
  seen : List α
  pushed : List α
  deriving DecidableEq, Repr

/-- From `s` the search went on to `s'` by finishing the nodes of `L`. -/
structure Walk.Finishes (push : Push) (s s' : Walk α) (L : List α) : Prop where
  seen : ∀ y, y ∈ s'.seen ↔ y ∈ s.seen ∨ y ∈ L
  pushed : ∃ P, s'.pushed = s.pushed ++ P ∧ P.Perm L ∧ (push = .onLeave → P = L)

theorem Walk.Finishes.refl (push : Push) (s : Walk α) : Walk.Finishes push s s [] :=
  ⟨by simp, [], by simp, List.Perm.nil, fun _ => rfl⟩

theorem Walk.Finishes.trans {push : Push} {s₁ s₂ s₃ : Walk α} {L₁ L₂ : List α}
    (h₁ : Walk.Finishes push s₁ s₂ L₁) (h₂ : Walk.Finishes push s₂ s₃ L₂) :
    Walk.Finishes push s₁ s₃ (L₁ ++ L₂) := by
  obtain ⟨P₁, hP₁, hperm₁, heq₁⟩ := h₁.pushed
  obtain ⟨P₂, hP₂, hperm₂, heq₂⟩ := h₂.pushed
  refine ⟨fun y => ?_, P₁ ++ P₂, ?_, hperm₁.append hperm₂, fun hp => ?_⟩
  · rw [h₂.seen, h₁.seen, List.mem_append, or_assoc]
  · rw [hP₂, hP₁, List.append_assoc]
  · rw [heq₁ hp, heq₂ hp]

/-- The list is pushed with the node around what its successors pushed. -/
theorem Push.around_perm (push : Push) (x : α) {P L : List α} (h : P.Perm L) :
    (push.enter x ++ P ++ push.leave x).Perm (L ++ [x]) := by
  cases push with
  | onEnter =>
    rw [Push.enter, Push.leave, List.append_nil]
    exact (h.cons x).trans (List.perm_append_singleton x L).symm
  | onLeave => exact h.append_right [x]

variable [DecidableEq α]

/-- The recursive search from one node; `none` is running out of fuel. -/
def walk (push : Push) (next : α → List α) : ℕ → Walk α → α → Option (Walk α)
  | 0, _, _ => none
  | fuel + 1, s, node =>
    if node ∈ s.seen then some s
    else do
      let s ← (next node).foldlM (walk push next fuel) ⟨node :: s.seen, s.pushed ++ push.enter node⟩
      pure ⟨s.seen, s.pushed ++ push.leave node⟩

/-- A run of the searches from a list of roots, given what one search does. -/
theorem foldlM_walk {push : Push} {fuel : ℕ}
    (one : ∀ {s s' : Walk α} {x : α}, walk push next fuel s x = some s' →
      ∃ L, Dfs next [x] {y | y ∈ s.seen} L ∧ Walk.Finishes push s s' L) :
    ∀ {roots : List α} {s s' : Walk α}, roots.foldlM (walk push next fuel) s = some s' →
      ∃ L, Dfs next roots {y | y ∈ s.seen} L ∧ Walk.Finishes push s s' L
  | [], s, s', h => by
    obtain rfl : s = s' := by simpa using h
    exact ⟨[], Dfs.nil _, Walk.Finishes.refl push s⟩
  | x :: xs, s, s', h => by
    rw [List.foldlM_cons, Option.bind_eq_bind, Option.bind_eq_some_iff] at h
    obtain ⟨s₁, hx, hxs⟩ := h
    obtain ⟨L₁, hdfs₁, hfin₁⟩ := one hx
    obtain ⟨L₂, hdfs₂, hfin₂⟩ := foldlM_walk one hxs
    refine ⟨L₁ ++ L₂, hdfs₁.append (hdfs₂.congr fun y => ?_), hfin₁.trans hfin₂⟩
    exact hfin₁.seen y

/-- **The recursive search is a depth-first search.** -/
theorem walk_dfs {push : Push} {fuel : ℕ} {s s' : Walk α} {x : α}
    (h : walk push next fuel s x = some s') :
    ∃ L, Dfs next [x] {y | y ∈ s.seen} L ∧ Walk.Finishes push s s' L := by
  induction fuel generalizing s s' x with
  | zero => cases h
  | succ fuel ih =>
    rw [walk] at h
    by_cases hx : x ∈ s.seen
    · rw [if_pos hx] at h
      obtain rfl := Option.some.inj h
      exact ⟨[], Dfs.skip hx (Dfs.nil _), Walk.Finishes.refl push s⟩
    · rw [if_neg hx, Option.bind_eq_bind, Option.bind_eq_some_iff] at h
      obtain ⟨s₁, hfold, hs'⟩ := h
      obtain rfl := Option.some.inj hs'
      obtain ⟨L, hdfs, hfin⟩ := foldlM_walk ih hfold
      obtain ⟨P, hP, hperm, heq⟩ := hfin.pushed
      have hbelow : Dfs next (next x) (insert x {y | y ∈ s.seen}) L :=
        hdfs.congr fun y => List.mem_cons
      refine ⟨L ++ [x], Dfs.visit hx hbelow (Dfs.nil _), fun y => ?_,
        push.enter x ++ P ++ push.leave x, ?_, push.around_perm x hperm, fun hp => ?_⟩
      · rw [hfin.seen, List.mem_cons, List.mem_append, List.mem_singleton]
        tauto
      · simp only [hP, List.append_assoc]
      · rw [heq hp, hp]
        rfl

theorem walks_dfs {push : Push} {fuel : ℕ} {roots : List α} {s s' : Walk α}
    (h : roots.foldlM (walk push next fuel) s = some s') :
    ∃ L, Dfs next roots {y | y ∈ s.seen} L ∧ Walk.Finishes push s s' L :=
  foldlM_walk walk_dfs h

/-! ### Fuel -/

/-- The nodes of `U` that the search has not seen. -/
def Walk.unseen (U : Finset α) (s : Walk α) : Finset α := U.filter (· ∉ s.seen)

theorem Walk.Finishes.unseen_le {push : Push} {s s' : Walk α} {L : List α} (U : Finset α)
    (h : Walk.Finishes push s s' L) : (s'.unseen U).card ≤ (s.unseen U).card := by
  refine Finset.card_le_card fun y hy => ?_
  rw [Walk.unseen, Finset.mem_filter] at hy ⊢
  exact ⟨hy.1, fun hs => hy.2 ((h.seen y).mpr (Or.inl hs))⟩

variable {U : Finset α}

theorem foldlM_walk_isSome {push : Push} {fuel : ℕ}
    (one : ∀ {s : Walk α} {x : α}, x ∈ U → (s.unseen U).card < fuel →
      (walk push next fuel s x).isSome) :
    ∀ {roots : List α} {s : Walk α}, (∀ r ∈ roots, r ∈ U) → (s.unseen U).card < fuel →
      (roots.foldlM (walk push next fuel) s).isSome
  | [], s, _, _ => rfl
  | x :: xs, s, hroots, hfuel => by
    obtain ⟨s₁, hs₁⟩ := Option.isSome_iff_exists.mp (one (hroots x List.mem_cons_self) hfuel)
    obtain ⟨L, -, hfin⟩ := walk_dfs hs₁
    rw [List.foldlM_cons, hs₁]
    exact foldlM_walk_isSome one (fun r hr => hroots r (List.mem_cons_of_mem _ hr))
      (lt_of_le_of_lt (hfin.unseen_le U) hfuel)

/-- **Enough fuel.** In a finite universe closed under successors, a search with more fuel than
there are unseen nodes returns. -/
theorem walk_isSome {push : Push} (hU : ∀ a ∈ U, ∀ b ∈ next a, b ∈ U) {fuel : ℕ} {s : Walk α}
    {x : α} (hx : x ∈ U) (hfuel : (s.unseen U).card < fuel) :
    (walk push next fuel s x).isSome := by
  induction fuel generalizing s x with
  | zero => exact absurd hfuel (Nat.not_lt_zero _)
  | succ fuel ih =>
    rw [walk]
    by_cases hseen : x ∈ s.seen
    · rw [if_pos hseen]
      rfl
    · rw [if_neg hseen]
      -- Entering a node takes it out of the unseen ones.
      have hlt : (Walk.unseen U ⟨x :: s.seen, s.pushed ++ push.enter x⟩).card < fuel := by
        refine lt_of_lt_of_le (Finset.card_lt_card ?_) (Nat.lt_succ_iff.mp hfuel)
        refine (Finset.ssubset_iff_of_subset fun y hy => ?_).mpr ⟨x, ?_, ?_⟩
        · rw [Walk.unseen, Finset.mem_filter] at hy ⊢
          exact ⟨hy.1, fun h => hy.2 (List.mem_cons_of_mem _ h)⟩
        · exact Finset.mem_filter.mpr ⟨hx, hseen⟩
        · rw [Walk.unseen, Finset.mem_filter]
          exact fun h => h.2 List.mem_cons_self
      obtain ⟨s₁, hs₁⟩ := Option.isSome_iff_exists.mp (foldlM_walk_isSome ih (hU x hx) hlt)
      rw [hs₁]
      rfl

theorem walks_isSome {push : Push} (hU : ∀ a ∈ U, ∀ b ∈ next a, b ∈ U) {fuel : ℕ} {s : Walk α}
    {roots : List α} (hroots : ∀ r ∈ roots, r ∈ U) (hfuel : (s.unseen U).card < fuel) :
    (roots.foldlM (walk push next fuel) s).isSome :=
  foldlM_walk_isSome (walk_isSome hU) hroots hfuel

end Graph

end ArosTools
