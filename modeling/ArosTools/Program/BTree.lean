import Mathlib.Data.List.Lex
import Mathlib.Data.List.Sort
import Mathlib.Data.Finset.Basic
import Mathlib.Data.Finset.Sort

/-!
# Ordered sets and maps

A `BTreeSet` iterates over its elements in increasing order and a `BTreeMap` over its entries in
increasing order of their keys. Both are lists that carry the order, so two of them with the same
elements, or with the same value for every key, are equal (`BTreeSet.ext`, `BTreeMap.ext`): an
ordered container does not remember how it was filled.
-/

namespace ArosTools

instance UInt8.instLinearOrder : LinearOrder UInt8 where
  le_refl := UInt8.le_refl
  le_trans _ _ _ := UInt8.le_trans
  lt_iff_le_not_ge a b := by
    rw [UInt8.not_le]
    exact ⟨fun h => ⟨UInt8.le_of_lt h, h⟩, And.right⟩
  le_antisymm _ _ := UInt8.le_antisymm
  le_total := UInt8.le_total
  toDecidableLE := inferInstance
  toDecidableEq := inferInstance
  toDecidableLT := inferInstance

/-- Increasing lists with the same elements are equal. -/
theorem eq_of_mem_iff_of_increasing {α : Type} [LinearOrder α] {l l' : List α}
    (hl : l.Pairwise (· < ·)) (hl' : l'.Pairwise (· < ·)) (h : ∀ a, a ∈ l ↔ a ∈ l') : l = l' := by
  have hnodup : ∀ {k : List α}, k.Pairwise (· < ·) → k.Nodup := fun hk => hk.imp ne_of_lt
  have hperm : l.Perm l' := (List.perm_ext_iff_of_nodup (hnodup hl) (hnodup hl')).mpr h
  exact hperm.eq_of_pairwise (fun _ _ _ _ hab hba => absurd hab (lt_asymm hba)) hl hl'

/-! ### Sorting -/

/-- A list sorted by a key; elements with the same key keep their order. -/
def sortByKey {α β : Type} [LinearOrder β] (key : α → β) (l : List α) : List α :=
  l.insertionSort fun a b => key a ≤ key b

theorem sortByKey_perm {α β : Type} [LinearOrder β] (key : α → β) (l : List α) :
    (sortByKey key l).Perm l := List.perm_insertionSort _ l

theorem sortByKey_sorted {α β : Type} [LinearOrder β] (key : α → β) (l : List α) :
    (sortByKey key l).Pairwise fun a b => key a ≤ key b := by
  have : Std.Total fun a b : α => key a ≤ key b := ⟨fun a b => le_total (key a) (key b)⟩
  have : IsTrans α fun a b : α => key a ≤ key b := ⟨fun a b c => le_trans⟩
  exact List.pairwise_insertionSort _ l

/-! ### Sets -/

/-- An ordered set: its elements in increasing order. -/
structure BTreeSet (α : Type) [LinearOrder α] where
  elems : List α
  increasing : elems.Pairwise (· < ·)
  deriving DecidableEq

namespace BTreeSet

variable {α : Type} [LinearOrder α] {s t : BTreeSet α} {a b : α}

instance : Membership α (BTreeSet α) := ⟨fun s a => a ∈ s.elems⟩

instance (a : α) (s : BTreeSet α) : Decidable (a ∈ s) :=
  inferInstanceAs (Decidable (a ∈ s.elems))

theorem mem_def : a ∈ s ↔ a ∈ s.elems := Iff.rfl

/-- **A set is determined by its elements.** -/
@[ext] theorem ext (h : ∀ a, a ∈ s ↔ a ∈ t) : s = t := by
  obtain ⟨elems, hs⟩ := s
  obtain ⟨elems', ht⟩ := t
  congr 1
  exact eq_of_mem_iff_of_increasing hs ht h

theorem nodup (s : BTreeSet α) : s.elems.Nodup := s.increasing.imp ne_of_lt

/-- The empty set. -/
def new : BTreeSet α := ⟨[], List.Pairwise.nil⟩

instance : Inhabited (BTreeSet α) := ⟨new⟩

/-- The number of elements. -/
def len (s : BTreeSet α) : ℕ := s.elems.length

/-- Adds an element. -/
def insert (s : BTreeSet α) (a : α) : BTreeSet α :=
  if h : a ∈ s.elems then s else ⟨s.elems.orderedInsert (· ≤ ·) a, by
    have hle : (s.elems.orderedInsert (· ≤ ·) a).Pairwise (· ≤ ·) :=
      List.Pairwise.orderedInsert a s.elems (s.increasing.imp le_of_lt)
    have hne : (s.elems.orderedInsert (· ≤ ·) a).Nodup :=
      (List.perm_orderedInsert (· ≤ ·) a s.elems).nodup_iff.mpr
        (List.nodup_cons.mpr ⟨h, s.nodup⟩)
    exact hle.imp₂ (fun _ _ => lt_of_le_of_ne) hne⟩

/-- Adds every element of a list. -/
def extend (s : BTreeSet α) (as : List α) : BTreeSet α := as.foldl insert s

/-- Collects a list into a set. -/
def collect (as : List α) : BTreeSet α := extend new as

@[simp] theorem notMem_new : a ∉ (new : BTreeSet α) := List.not_mem_nil

@[simp] theorem mem_insert : b ∈ s.insert a ↔ b ∈ s ∨ b = a := by
  by_cases ha : a ∈ s.elems
  · rw [insert, dif_pos ha]
    exact ⟨Or.inl, fun h => h.elim id fun hba => hba ▸ ha⟩
  · rw [insert, dif_neg ha]
    exact (List.mem_orderedInsert _).trans or_comm

theorem len_insert (h : a ∉ s) : (s.insert a).len = s.len + 1 := by
  rw [len, insert, dif_neg (show a ∉ s.elems from h)]
  exact List.orderedInsert_length _ _ _

@[simp] theorem mem_extend {as : List α} : b ∈ s.extend as ↔ b ∈ s ∨ b ∈ as := by
  induction as generalizing s with
  | nil => simp [extend]
  | cons a as ih =>
    have hstep : s.extend (a :: as) = (s.insert a).extend as := rfl
    rw [hstep, ih, mem_insert, List.mem_cons, or_assoc]

@[simp] theorem mem_collect {as : List α} : b ∈ collect as ↔ b ∈ as := by simp [collect]

end BTreeSet

/-! ### Maps -/

/-- An ordered map: its entries in increasing order of their keys. -/
structure BTreeMap (κ ν : Type) [LinearOrder κ] where
  entries : List (κ × ν)
  increasing : (entries.map Prod.fst).Pairwise (· < ·)

namespace BTreeMap

variable {κ ν : Type} [LinearOrder κ] {m n : BTreeMap κ ν} {k k' : κ} {v : ν}

instance [DecidableEq ν] : DecidableEq (BTreeMap κ ν) := fun m n =>
  decidable_of_iff (m.entries = n.entries)
    ⟨fun h => by cases m; cases n; cases h; rfl, fun h => h ▸ rfl⟩

/-- The keys in increasing order. -/
def keys (m : BTreeMap κ ν) : List κ := m.entries.map Prod.fst

/-- The empty map. -/
def new : BTreeMap κ ν := ⟨[], List.Pairwise.nil⟩

instance : Inhabited (BTreeMap κ ν) := ⟨new⟩

/-- The number of entries. -/
def len (m : BTreeMap κ ν) : ℕ := m.entries.length

/-- The value of a key. -/
def get (m : BTreeMap κ ν) (k : κ) : Option ν := (m.entries.find? fun e => e.1 = k).map Prod.snd

theorem nodup_keys (m : BTreeMap κ ν) : m.keys.Nodup := m.increasing.imp ne_of_lt

theorem get_eq_some : m.get k = some v ↔ (k, v) ∈ m.entries := by
  obtain ⟨entries, hincreasing⟩ := m
  have hnodup : (entries.map Prod.fst).Nodup := hincreasing.imp ne_of_lt
  simp only [get]
  clear hincreasing
  induction entries with
  | nil => simp
  | cons e entries ih =>
    rw [List.map_cons, List.nodup_cons] at hnodup
    rw [List.find?_cons]
    by_cases hk : e.1 = k
    · have hrest : (k, v) ∉ entries := fun h => hnodup.1 (hk ▸ List.mem_map_of_mem h)
      simp only [hk, decide_true, Option.map_some, Option.some.injEq, List.mem_cons, hrest,
        or_false, Prod.ext_iff, true_and]
      exact eq_comm
    · simp only [hk, decide_false, List.mem_cons, Prod.ext_iff, ih hnodup.2]
      exact ⟨Or.inr, fun h => h.elim (fun h => absurd h.1.symm hk) id⟩

theorem mem_keys : k ∈ m.keys ↔ ∃ v, m.get k = some v := by
  simp only [get_eq_some, keys, List.mem_map, Prod.exists]
  exact ⟨fun ⟨a, b, h, ha⟩ => ⟨b, ha ▸ h⟩, fun ⟨v, h⟩ => ⟨k, v, h, rfl⟩⟩

theorem get_eq_none : m.get k = none ↔ k ∉ m.keys := by
  rw [mem_keys, Option.eq_none_iff_forall_ne_some]
  exact not_exists.symm

@[simp] theorem get_new : (new : BTreeMap κ ν).get k = none := rfl

/-- **A map is determined by its values.** -/
@[ext] theorem ext (h : ∀ k, m.get k = n.get k) : m = n := by
  have hkeys : m.keys = n.keys := eq_of_mem_iff_of_increasing m.increasing n.increasing fun k => by
    rw [mem_keys, mem_keys, h]
  have hentries : m.entries = n.entries := by
    have hmem : ∀ e, e ∈ m.entries ↔ e ∈ n.entries := fun e => by
      rw [← Prod.mk.eta (p := e), ← get_eq_some, ← get_eq_some, h]
    have hperm : m.entries.Perm n.entries :=
      (List.perm_ext_iff_of_nodup (List.Nodup.of_map _ m.nodup_keys)
        (List.Nodup.of_map _ n.nodup_keys)).mpr hmem
    have hlt := List.pairwise_map.mp m.increasing
    have hlt' := List.pairwise_map.mp n.increasing
    exact hperm.eq_of_pairwise (fun _ _ _ _ hab hba => absurd hab (lt_asymm hba)) hlt hlt'
  obtain ⟨entries, _⟩ := m
  obtain ⟨entries', _⟩ := n
  cases hentries
  rfl

/-- Puts the value `f` makes of the present one under a key. -/
def alterEntries (k : κ) (f : Option ν → ν) : List (κ × ν) → List (κ × ν)
  | [] => [(k, f none)]
  | e :: entries =>
    if k < e.1 then (k, f none) :: e :: entries
    else if k = e.1 then (k, f (some e.2)) :: entries
    else e :: alterEntries k f entries

theorem mem_keys_alterEntries (f : Option ν → ν) (entries : List (κ × ν)) :
    k' ∈ (alterEntries k f entries).map Prod.fst ↔ k' = k ∨ k' ∈ entries.map Prod.fst := by
  induction entries with
  | nil => simp [alterEntries]
  | cons e entries ih =>
    rw [alterEntries]
    split_ifs with hlt heq
    · simp
    · simp [heq]
    · rw [List.map_cons, List.mem_cons, ih, List.map_cons, List.mem_cons]
      exact or_left_comm

theorem increasing_alterEntries (f : Option ν → ν) {entries : List (κ × ν)}
    (h : (entries.map Prod.fst).Pairwise (· < ·)) :
    ((alterEntries k f entries).map Prod.fst).Pairwise (· < ·) := by
  induction entries with
  | nil => simp [alterEntries]
  | cons e entries ih =>
    rw [List.map_cons, List.pairwise_cons] at h
    rw [alterEntries]
    split_ifs with hlt heq
    · rw [List.map_cons, List.map_cons, List.pairwise_cons, List.pairwise_cons]
      refine ⟨fun b hb => ?_, h⟩
      rcases List.mem_cons.mp hb with rfl | hb
      · exact hlt
      · exact hlt.trans (h.1 b hb)
    · rw [List.map_cons, List.pairwise_cons, heq]
      exact h
    · rw [List.map_cons, List.pairwise_cons]
      refine ⟨fun b hb => ?_, ih h.2⟩
      rcases (mem_keys_alterEntries f entries).mp hb with rfl | hb
      · exact lt_of_le_of_ne (not_lt.mp hlt) (Ne.symm heq)
      · exact h.1 b hb

/-- The entry of a key, vacant or occupied, replaced by the value `f` makes of it. -/
def alter (m : BTreeMap κ ν) (k : κ) (f : Option ν → ν) : BTreeMap κ ν :=
  ⟨alterEntries k f m.entries, increasing_alterEntries f m.increasing⟩

/-- Sets the value of a key. -/
def insert (m : BTreeMap κ ν) (k : κ) (v : ν) : BTreeMap κ ν := m.alter k fun _ => v

/-- Collects entries into a map; a later one replaces an earlier one with its key. -/
def collect (entries : List (κ × ν)) : BTreeMap κ ν :=
  entries.foldl (fun m entry => m.insert entry.1 entry.2) new

theorem get_alter (f : Option ν → ν) :
    (m.alter k f).get k' = if k' = k then some (f (m.get k)) else m.get k' := by
  obtain ⟨entries, hincreasing⟩ := m
  simp only [alter, get]
  induction entries with
  | nil => by_cases hk : k' = k <;> simp [alterEntries, hk, eq_comm]
  | cons e entries ih =>
    rw [List.map_cons, List.pairwise_cons] at hincreasing
    have hrest := ih hincreasing.2
    rw [alterEntries]
    rcases lt_trichotomy k e.1 with hlt | rfl | hgt
    · -- a vacant entry in front: no key behind it is `k`
      have hnone : (e :: entries).find? (fun e => e.1 = k) = none := by
        rw [List.find?_eq_none]
        intro e' he' hk'
        rcases List.mem_cons.mp he' with rfl | he'
        · exact absurd (of_decide_eq_true hk') (ne_of_gt hlt)
        · have hlt' := hlt.trans (hincreasing.1 _ (List.mem_map_of_mem he'))
          exact absurd (of_decide_eq_true hk') (ne_of_gt hlt')
      rw [if_pos hlt, hnone]
      by_cases hk : k' = k
      · simp [hk]
      · simp [hk, Ne.symm hk]
    · rw [if_neg (lt_irrefl _), if_pos rfl]
      by_cases hk : k' = e.1
      · simp [hk]
      · simp [hk, Ne.symm hk]
    · rw [if_neg (lt_asymm hgt), if_neg (ne_of_gt hgt)]
      by_cases he : e.1 = k'
      · have hk : k' ≠ k := fun hk => absurd (he.trans hk) (ne_of_lt hgt)
        simp [he, hk]
      · have hek : e.1 ≠ k := ne_of_lt hgt
        simpa [List.find?_cons, he, hek] using hrest

@[simp] theorem get_insert : (m.insert k v).get k' = if k' = k then some v else m.get k' := by
  rw [insert, get_alter]

/-- Keeps the entries whose keys satisfy `p`. -/
def retain (m : BTreeMap κ ν) (p : κ → Bool) : BTreeMap κ ν :=
  ⟨m.entries.filter fun e => p e.1, by
    have hsub : (m.entries.filter fun e => p e.1).Sublist m.entries := List.filter_sublist
    exact m.increasing.sublist (hsub.map _)⟩

end BTreeMap

end ArosTools
