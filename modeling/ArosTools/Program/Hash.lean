import Mathlib.Data.List.Sort
import Mathlib.Data.List.Dedup
import Mathlib.Data.List.Nodup
import Mathlib.Data.Option.Basic

/-!
# Hash sets and hash maps

A hash container iterates over its elements in an order of its own. It is modelled by the list of
its elements in that order, without repetitions. Two containers are the `Same` when they hold the
same elements, in whatever order; `HashSet.Same.sorted_eq` says that sorting forgets the order.
-/

namespace ArosTools

variable {α β : Type}

/-- Sorting forgets the order of a list without repetitions. -/
theorem insertionSort_eq_of_mem_iff [LinearOrder α] {l l' : List α} (hl : l.Nodup)
    (hl' : l'.Nodup) (h : ∀ a, a ∈ l ↔ a ∈ l') :
    l.insertionSort (· ≤ ·) = l'.insertionSort (· ≤ ·) := by
  have hperm : l.Perm l' := (List.perm_ext_iff_of_nodup hl hl').mpr h
  refine List.Perm.eq_of_pairwise (fun _ _ _ _ => le_antisymm)
    (List.pairwise_insertionSort _ _) (List.pairwise_insertionSort _ _) ?_
  exact (List.perm_insertionSort _ _).trans (hperm.trans (List.perm_insertionSort _ _).symm)

/-! ### Sets -/

/-- A hash set: its elements in the order it iterates over them. -/
structure HashSet (α : Type) where
  elems : List α
  nodup : elems.Nodup
  deriving DecidableEq

namespace HashSet

instance : Membership α (HashSet α) := ⟨fun s a => a ∈ s.elems⟩

instance [DecidableEq α] (a : α) (s : HashSet α) : Decidable (a ∈ s) :=
  inferInstanceAs (Decidable (a ∈ s.elems))

theorem mem_def {a : α} {s : HashSet α} : a ∈ s ↔ a ∈ s.elems := Iff.rfl

/-- The empty set. -/
def new : HashSet α := ⟨[], List.nodup_nil⟩

variable [DecidableEq α]

/-- Adds an element. -/
def insert (s : HashSet α) (a : α) : HashSet α :=
  if h : a ∈ s.elems then s else ⟨s.elems ++ [a], List.nodup_append.mpr
    ⟨s.nodup, List.nodup_singleton a, fun _ hb _ hc hbc =>
      h (List.mem_singleton.mp hc ▸ hbc ▸ hb)⟩⟩

/-- Adds every element of a list. -/
def extend (s : HashSet α) (as : List α) : HashSet α := as.foldl insert s

/-- Collects a list into a set. -/
def collect (as : List α) : HashSet α := extend new as

/-- Keeps the elements for which `p` holds. -/
def retain (s : HashSet α) (p : α → Bool) : HashSet α := ⟨s.elems.filter p, s.nodup.filter p⟩

@[simp] theorem mem_insert {s : HashSet α} {a b : α} : b ∈ s.insert a ↔ b ∈ s ∨ b = a := by
  by_cases ha : a ∈ s.elems
  · rw [insert, dif_pos ha]
    exact ⟨Or.inl, fun h => h.elim id fun hba => hba ▸ ha⟩
  · rw [insert, dif_neg ha]
    simp [mem_def]

@[simp] theorem mem_extend {s : HashSet α} {as : List α} {b : α} :
    b ∈ s.extend as ↔ b ∈ s ∨ b ∈ as := by
  induction as generalizing s with
  | nil => simp [extend]
  | cons a as ih =>
    have hstep : s.extend (a :: as) = (s.insert a).extend as := rfl
    rw [hstep, ih, mem_insert, List.mem_cons, or_assoc]

omit [DecidableEq α] in
@[simp] theorem notMem_new {b : α} : b ∉ (new : HashSet α) := List.not_mem_nil

@[simp] theorem mem_collect {as : List α} {b : α} : b ∈ collect as ↔ b ∈ as := by
  simp [collect]

omit [DecidableEq α] in
@[simp] theorem mem_retain {s : HashSet α} {p : α → Bool} {b : α} :
    b ∈ s.retain p ↔ b ∈ s ∧ p b = true := List.mem_filter

/-- The same elements, in any order. -/
def Same (s t : HashSet α) : Prop := ∀ a, a ∈ s ↔ a ∈ t

omit [DecidableEq α] in
theorem Same.refl (s : HashSet α) : Same s s := fun _ => Iff.rfl

omit [DecidableEq α] in
/-- **Sorting forgets the iteration order.** -/
theorem Same.sorted_eq [LinearOrder α] {s t : HashSet α} (h : Same s t) :
    s.elems.insertionSort (· ≤ ·) = t.elems.insertionSort (· ≤ ·) :=
  insertionSort_eq_of_mem_iff s.nodup t.nodup h

omit [DecidableEq α] in
theorem Same.retain {s t : HashSet α} (h : Same s t) (p : α → Bool) :
    Same (s.retain p) (t.retain p) := fun a => by rw [mem_retain, mem_retain, h a]

theorem Same.extend {s t : HashSet α} {as bs : List α} (h : Same s t)
    (hab : ∀ a, a ∈ as ↔ a ∈ bs) : Same (s.extend as) (t.extend bs) :=
  fun a => by rw [mem_extend, mem_extend, h a, hab a]

end HashSet

/-! ### Maps -/

/-- A hash map: its entries in the order it iterates over them. -/
structure HashMap (α β : Type) where
  entries : List (α × β)
  nodup : (entries.map Prod.fst).Nodup
  deriving DecidableEq

namespace HashMap

/-- The keys in iteration order. -/
def keys (m : HashMap α β) : List α := m.entries.map Prod.fst

/-- The values in iteration order. -/
def values (m : HashMap α β) : List β := m.entries.map Prod.snd

/-- The empty map. -/
def new : HashMap α β := ⟨[], List.nodup_nil⟩

variable [DecidableEq α] {m n : HashMap α β} {k k' : α} {v : β}

/-- The value of a key. -/
def get (m : HashMap α β) (k : α) : Option β := (m.entries.find? fun e => e.1 = k).map Prod.snd

/-- Changes the value of a key, if the map has it. -/
def modify (m : HashMap α β) (k : α) (f : β → β) : HashMap α β where
  entries := m.entries.map fun e => if e.1 = k then (e.1, f e.2) else e
  nodup := by
    have hkeys : Prod.fst ∘ (fun e : α × β => if e.1 = k then (e.1, f e.2) else e) = Prod.fst := by
      funext e
      simp only [Function.comp_apply]
      split_ifs <;> rfl
    rw [List.map_map, hkeys]
    exact m.nodup

/-- The entries whose key satisfies a predicate. -/
def retain (m : HashMap α β) (p : α → Bool) : HashMap α β where
  entries := m.entries.filter fun e => p e.1
  nodup := m.nodup.sublist (List.filter_sublist.map _)

/-- Sets the value of a key. -/
def insert (m : HashMap α β) (k : α) (v : β) : HashMap α β :=
  if h : k ∈ m.keys then m.modify k fun _ => v
  else ⟨m.entries ++ [(k, v)], by
    rw [List.map_append, List.nodup_append]
    refine ⟨m.nodup, List.nodup_singleton k, ?_⟩
    rintro a ha b hb rfl
    have hak : a = k := List.mem_singleton.mp hb
    exact h (hak ▸ ha)⟩

theorem get_eq_some : m.get k = some v ↔ (k, v) ∈ m.entries := by
  obtain ⟨entries, hnodup⟩ := m
  simp only [get]
  induction entries with
  | nil => simp
  | cons e entries ih =>
    rw [List.map_cons, List.nodup_cons] at hnodup
    rw [List.find?_cons]
    by_cases hk : e.1 = k
    · have hrest : (k, v) ∉ entries := fun h => hnodup.1 (hk ▸ List.mem_map_of_mem h)
      simp only [hk, decide_true, Option.map_some, Option.some.injEq, List.mem_cons, hrest,
        or_false, Prod.ext_iff, true_and]
      exact eq_comm
    · simp only [hk, decide_false, List.mem_cons, Prod.ext_iff, ih hnodup.2]
      exact ⟨Or.inr, fun h => h.elim (fun h => absurd h.1.symm hk) id⟩

theorem mem_keys : k ∈ m.keys ↔ ∃ v, m.get k = some v := by
  simp only [get_eq_some, keys, List.mem_map, Prod.exists]
  exact ⟨fun ⟨a, b, h, ha⟩ => ⟨b, ha ▸ h⟩, fun ⟨v, h⟩ => ⟨k, v, h, rfl⟩⟩

@[simp] theorem get_new : (new : HashMap α β).get k = none := rfl

theorem get_modify (f : β → β) :
    (m.modify k f).get k' = if k' = k then (m.get k).map f else m.get k' := by
  refine Option.ext fun v => ?_
  rw [get_eq_some]
  simp only [modify, List.mem_map, Prod.exists]
  by_cases hk : k' = k
  · subst hk
    rw [if_pos rfl, Option.map_eq_some_iff]
    constructor
    · rintro ⟨a, b, hab, heq⟩
      by_cases ha : a = k'
      · rw [if_pos ha, Prod.mk.injEq] at heq
        exact ⟨b, get_eq_some.mpr (ha ▸ hab), heq.2⟩
      · rw [if_neg ha, Prod.mk.injEq] at heq
        exact absurd heq.1 ha
    · rintro ⟨b, hb, rfl⟩
      exact ⟨k', b, get_eq_some.mp hb, if_pos rfl⟩
  · rw [if_neg hk, get_eq_some]
    constructor
    · rintro ⟨a, b, hab, heq⟩
      by_cases ha : a = k
      · rw [if_pos ha, Prod.mk.injEq] at heq
        exact absurd (heq.1.symm.trans ha) hk
      · rw [if_neg ha] at heq
        exact heq ▸ hab
    · intro h
      exact ⟨k', v, h, if_neg hk⟩

@[simp] theorem get_insert : (m.insert k v).get k' = if k' = k then some v else m.get k' := by
  by_cases hk : k ∈ m.keys
  · rw [insert, dif_pos hk, get_modify]
    obtain ⟨w, hw⟩ := mem_keys.mp hk
    rw [hw, Option.map_some]
  · rw [insert, dif_neg hk]
    refine Option.ext fun w => ?_
    rw [get_eq_some]
    simp only [List.mem_append, List.mem_singleton, Prod.mk.injEq]
    by_cases hkk : k' = k
    · subst hkk
      have habsent : (k', w) ∉ m.entries :=
        fun h => hk (mem_keys.mpr ⟨w, get_eq_some.mpr h⟩)
      simp [habsent, eq_comm]
    · rw [if_neg hkk, get_eq_some]
      simp [hkk]

theorem get_retain (p : α → Bool) : (m.retain p).get k = if p k then m.get k else none := by
  refine Option.ext fun v => ?_
  rw [get_eq_some]
  split_ifs with hp <;> simp [retain, hp, get_eq_some]

/-- Changes every value, and drops the entries without a new one. -/
def filterMapValues {γ : Type} (m : HashMap α β) (f : β → Option γ) : HashMap α γ where
  entries := m.entries.filterMap fun e => (f e.2).map (e.1, ·)
  nodup := by
    have hkeys : (m.entries.filterMap fun e => (f e.2).map (e.1, ·)).map Prod.fst =
        (m.entries.filter fun e => (f e.2).isSome).map Prod.fst := by
      induction m.entries with
      | nil => rfl
      | cons e rest ih =>
        rw [List.filterMap_cons, List.filter_cons]
        cases hf : f e.2 <;> simpa [hf] using ih
    rw [hkeys]
    exact m.nodup.sublist (List.filter_sublist.map _)

theorem get_filterMapValues {γ : Type} (f : β → Option γ) :
    (m.filterMapValues f).get k = (m.get k).bind f := by
  refine Option.ext fun v => ?_
  rw [get_eq_some, Option.bind_eq_some_iff]
  simp only [filterMapValues, List.mem_filterMap, Option.map_eq_some_iff, Prod.mk.injEq, Prod.exists,
    get_eq_some]
  constructor
  · rintro ⟨a, b, hab, w, hw, rfl, rfl⟩
    exact ⟨b, hab, hw⟩
  · rintro ⟨b, hb, hv⟩
    exact ⟨k, b, hb, v, hv, rfl, rfl⟩

/-- Sets the value of every key of another map. -/
def extend (m n : HashMap α β) : HashMap α β := n.entries.foldl (fun m e => m.insert e.1 e.2) m

theorem get_foldl_insert {entries : List (α × β)} (h : (entries.map Prod.fst).Nodup)
    (m : HashMap α β) (k : α) :
    (entries.foldl (fun m e => m.insert e.1 e.2) m).get k =
      ((entries.find? fun e => e.1 = k).map Prod.snd).or (m.get k) := by
  induction entries generalizing m with
  | nil => rfl
  | cons e entries ih =>
    rw [List.map_cons, List.nodup_cons] at h
    rw [List.foldl_cons, ih h.2, get_insert, List.find?_cons]
    by_cases hk : e.1 = k
    · have hrest : (entries.find? fun e => e.1 = k) = none := by
        rw [List.find?_eq_none]
        intro d hd hdk
        exact h.1 (List.mem_map.mpr ⟨d, hd, by simpa [hk] using hdk⟩)
      simp [hrest, hk]
    · simp [hk, Ne.symm hk]

theorem get_extend : (m.extend n).get k = (n.get k).or (m.get k) := get_foldl_insert n.nodup m k

/-- The same keys with related values, in any order. -/
def Same (r : β → β → Prop) (m n : HashMap α β) : Prop :=
  ∀ k, Option.Rel r (m.get k) (n.get k)

theorem Same.mem_keys {r : β → β → Prop} (h : Same r m n) : k ∈ m.keys ↔ k ∈ n.keys := by
  rw [HashMap.mem_keys, HashMap.mem_keys]
  have hk := h k
  cases hm : m.get k with
  | none =>
    cases hn : n.get k with
    | none => simp
    | some w => rw [hm, hn] at hk; cases hk
  | some v =>
    cases hn : n.get k with
    | none => rw [hm, hn] at hk; cases hk
    | some w => simp

theorem mem_values : v ∈ m.values ↔ ∃ k, m.get k = some v := by
  simp only [get_eq_some, values, List.mem_map, Prod.exists]
  exact ⟨fun ⟨k, w, h, hw⟩ => ⟨k, hw ▸ h⟩, fun ⟨k, h⟩ => ⟨k, v, h, rfl⟩⟩

/-- Collecting over all values forgets the iteration order. -/
theorem Same.mem_flatMap {γ : Type} {r : β → β → Prop} (h : Same r m n) (f : β → List γ)
    (hf : ∀ v w, r v w → ∀ c, c ∈ f v ↔ c ∈ f w) (c : γ) :
    c ∈ m.values.flatMap f ↔ c ∈ n.values.flatMap f := by
  simp only [List.mem_flatMap, mem_values]
  constructor
  · rintro ⟨v, ⟨k, hv⟩, hc⟩
    have hrel := h k
    rw [hv] at hrel
    generalize hw : n.get k = w at hrel
    cases hrel with
    | some hvw => exact ⟨_, ⟨k, hw⟩, (hf _ _ hvw c).mp hc⟩
  · rintro ⟨w, ⟨k, hw⟩, hc⟩
    have hrel := h k
    rw [hw] at hrel
    generalize hv : m.get k = v at hrel
    cases hrel with
    | some hvw => exact ⟨_, ⟨k, hv⟩, (hf _ _ hvw c).mpr hc⟩

theorem Same.insert {r : β → β → Prop} (h : Same r m n) {v w : β} (hvw : r v w) (k : α) :
    Same r (m.insert k v) (n.insert k w) := by
  intro k'
  rw [get_insert, get_insert]
  by_cases hk : k' = k
  · rw [if_pos hk, if_pos hk]
    exact Option.Rel.some hvw
  · rw [if_neg hk, if_neg hk]
    exact h k'

theorem Same.modify {r : β → β → Prop} (h : Same r m n) {f g : β → β}
    (hfg : ∀ v w, r v w → r (f v) (g w)) (k : α) : Same r (m.modify k f) (n.modify k g) := by
  intro k'
  rw [get_modify, get_modify]
  by_cases hk : k' = k
  · rw [if_pos hk, if_pos hk]
    have hrel := h k
    generalize m.get k = v at hrel ⊢
    generalize n.get k = w at hrel ⊢
    cases hrel with
    | none => exact Option.Rel.none
    | some hvw => exact Option.Rel.some (hfg _ _ hvw)
  · rw [if_neg hk, if_neg hk]
    exact h k'

end HashMap

end ArosTools
