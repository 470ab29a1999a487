import ArosTools.Collect.Engine
import Mathlib.Data.List.Lex
import Mathlib.Order.Bounds.Basic

/-!
# Library requirements

The markers of an object name library bases with the versions that its parts need. `discover`
publishes one version for each base, which has to satisfy all of them.

* `mem_discover` : what is published.
* `discover_symbols_iff` : the order and the repetitions of the symbols do not matter.
* `discover_exact` : both.
-/

namespace ArosTools

namespace Engine

namespace Libreq

/-! ### Sorted byte strings -/

/-- The order of byte strings, as a strict order. -/
def BytesLt (a b : Bytes) : Prop := a.map UInt8.toNat < b.map UInt8.toNat

theorem bytesLe_total (a b : Bytes) : Sets.bytesLe a b = true ∨ Sets.bytesLe b a = true := by
  rcases le_total (a.map UInt8.toNat) (b.map UInt8.toNat) with h | h
  · exact .inl (decide_eq_true h)
  · exact .inr (decide_eq_true h)

theorem bytesLe_trans {a b c : Bytes} (hab : Sets.bytesLe a b = true)
    (hbc : Sets.bytesLe b c = true) : Sets.bytesLe a c = true :=
  decide_eq_true (le_trans (of_decide_eq_true hab) (of_decide_eq_true hbc))

instance : Std.Total fun a b : Bytes => Sets.bytesLe a b = true := ⟨bytesLe_total⟩

instance : IsTrans Bytes fun a b => Sets.bytesLe a b = true := ⟨fun _ _ _ => bytesLe_trans⟩

/-- Bytes without repetitions, sorted. -/
theorem sorted_bases (bases : List Bytes) :
    (bases.dedup.insertionSort fun a b => Sets.bytesLe a b = true).Pairwise BytesLt := by
  have hle := List.pairwise_insertionSort (fun a b => Sets.bytesLe a b = true) bases.dedup
  have hne : (bases.dedup.insertionSort fun a b => Sets.bytesLe a b = true).Nodup :=
    (List.perm_insertionSort _ _).nodup_iff.mpr bases.nodup_dedup
  refine hle.imp₂ (fun a b hab hne => ?_) hne
  refine lt_of_le_of_ne (of_decide_eq_true hab) fun heq => hne ?_
  exact List.map_injective_iff.mpr (fun _ _ => UInt8.toNat_inj.mp) heq

/-! ### Versions -/

/-- The versions of a base, sorted. -/
def versionsOf (symbol : Bytes) (found : List (Bytes × ℤ)) : List ℤ :=
  (((found.filter fun e => e.1 == symbol).map Prod.snd).insertionSort (· ≤ ·)).dedup

theorem mem_versionsOf {symbol : Bytes} {found : List (Bytes × ℤ)} {version : ℤ} :
    version ∈ versionsOf symbol found ↔ (symbol, version) ∈ found := by
  simp [versionsOf]

theorem sorted_versionsOf (symbol : Bytes) (found : List (Bytes × ℤ)) :
    (versionsOf symbol found).Pairwise (· ≤ ·) :=
  (List.pairwise_insertionSort _ _).sublist (List.dedup_sublist _)

/-- The last version is the greatest. -/
theorem isGreatest_getLast {versions : List ℤ} (h : versions.Pairwise (· ≤ ·))
    (hne : versions ≠ []) : IsGreatest {v | v ∈ versions} (versions.getLast?.getD 0) := by
  rw [List.getLast?_eq_some_getLast hne, Option.getD_some]
  refine ⟨List.getLast_mem hne, fun v hv => ?_⟩
  exact h.rel_getLast hv

variable {symbols symbols' : List Symbol}

/-- A marker states a version of a base. -/
def Stated (symbols : List Symbol) (base : Bytes) (version : ℤ) : Prop :=
  ∃ symbol ∈ symbols, eligible symbol = true ∧ readMarker symbol = .ok (base, version)

/-- The bases with their versions, as the markers state them. -/
def found (symbols : List Symbol) : List (Bytes × ℤ) :=
  ((symbols.filter eligible).map readMarker).filterMap Except.toOption

theorem mem_found {base : Bytes} {version : ℤ} :
    (base, version) ∈ found symbols ↔ Stated symbols base version := by
  have hsome : ∀ {m : Except Bytes (Bytes × ℤ)} {e}, m.toOption = some e ↔ m = .ok e := by
    intro m e
    cases m <;> simp [Except.toOption]
  simp only [found, List.mem_filterMap, List.mem_map, List.mem_filter, hsome]
  constructor
  · rintro ⟨m, ⟨symbol, ⟨hsymbol, heligible⟩, rfl⟩, hm⟩
    exact ⟨symbol, hsymbol, heligible, hm⟩
  · rintro ⟨symbol, hsymbol, heligible, hm⟩
    exact ⟨_, ⟨symbol, ⟨hsymbol, heligible⟩, rfl⟩, hm⟩

/-- The bases, sorted. -/
def bases (symbols : List Symbol) : List Bytes :=
  (((found symbols).map Prod.fst).dedup).insertionSort fun a b => Sets.bytesLe a b = true

theorem mem_bases {base : Bytes} : base ∈ bases symbols ↔ ∃ version, Stated symbols base version := by
  simp [bases, mem_found]

theorem discover_fst : (discover symbols).1 =
    (bases symbols).map fun base => ⟨base, (versionsOf base (found symbols)).getLast?.getD 0⟩ := by
  change ((bases symbols).map fun base => resolve base (found symbols)).map Prod.fst = _
  rw [List.map_map]
  rfl

/-- **What is published**: the greatest version that a marker states, for each base of a marker. -/
theorem mem_discover {base : Bytes} {version : ℤ} :
    ⟨base, version⟩ ∈ (discover symbols).1 ↔
      IsGreatest {v | Stated symbols base v} version := by
  have hversions : {v | v ∈ versionsOf base (found symbols)} = {v | Stated symbols base v} := by
    ext v
    exact mem_versionsOf.trans mem_found
  rw [discover_fst, List.mem_map]
  constructor
  · rintro ⟨base', hbase, heq⟩
    obtain ⟨rfl, rfl⟩ := Sets.Requirement.mk.inj heq
    obtain ⟨v, hv⟩ := mem_bases.mp hbase
    rw [← hversions]
    exact isGreatest_getLast (sorted_versionsOf _ _)
      (List.ne_nil_of_mem (mem_versionsOf.mpr (mem_found.mpr hv)))
  · intro h
    refine ⟨base, mem_bases.mpr ⟨version, h.1⟩, ?_⟩
    rw [← hversions] at h
    have hlast := isGreatest_getLast (sorted_versionsOf _ _) (List.ne_nil_of_mem h.1)
    rw [hlast.unique h]

/-! ### Order and repetitions -/

theorem Stated.congr (h : ∀ symbol, symbol ∈ symbols ↔ symbol ∈ symbols') {base : Bytes}
    {version : ℤ} : Stated symbols base version ↔ Stated symbols' base version :=
  exists_congr fun symbol => and_congr_left fun _ => h symbol

theorem bases_congr (h : ∀ symbol, symbol ∈ symbols ↔ symbol ∈ symbols') :
    bases symbols = bases symbols' := by
  have hlt : ∀ symbols, (bases symbols).Pairwise BytesLt := fun symbols => sorted_bases _
  have hnodup : ∀ symbols, (bases symbols).Nodup := fun symbols =>
    (List.perm_insertionSort _ _).nodup_iff.mpr (List.nodup_dedup _)
  refine List.Perm.eq_of_pairwise (fun a b _ _ hab hba => absurd hab (lt_asymm hba)) (hlt symbols)
    (hlt symbols') ?_
  refine (List.perm_ext_iff_of_nodup (hnodup symbols) (hnodup symbols')).mpr fun base => ?_
  rw [mem_bases, mem_bases]
  exact exists_congr fun version => Stated.congr h

theorem versionsOf_congr (h : ∀ symbol, symbol ∈ symbols ↔ symbol ∈ symbols') (base : Bytes) :
    versionsOf base (found symbols) = versionsOf base (found symbols') := by
  refine List.Perm.eq_of_pairwise (fun _ _ _ _ => le_antisymm) (sorted_versionsOf _ _)
    (sorted_versionsOf _ _) ?_
  refine (List.perm_ext_iff_of_nodup (List.nodup_dedup _) (List.nodup_dedup _)).mpr fun version => ?_
  rw [← versionsOf, ← versionsOf, mem_versionsOf, mem_versionsOf, mem_found, mem_found]
  exact Stated.congr h

theorem resolve_congr (h : ∀ symbol, symbol ∈ symbols ↔ symbol ∈ symbols') (base : Bytes) :
    resolve base (found symbols) = resolve base (found symbols') := by
  have hversions := versionsOf_congr h base
  unfold versionsOf at hversions
  unfold resolve
  rw [hversions]

theorem discover_snd (symbols : List Symbol) :
    (discover symbols).2 = ((symbols.filter eligible).map readMarker).filterMap
        (fun m => match m with
          | .error text => some text
          | .ok _ => none) ++
      ((bases symbols).map fun base => resolve base (found symbols)).flatMap Prod.snd := rfl

/-- **The order and the repetitions of the symbols do not matter.** -/
theorem discover_symbols_iff (h : ∀ symbol, symbol ∈ symbols ↔ symbol ∈ symbols') :
    (discover symbols).1 = (discover symbols').1 ∧
      ∀ line, line ∈ (discover symbols).2 ↔ line ∈ (discover symbols').2 := by
  have hbases := bases_congr h
  constructor
  · rw [discover_fst, discover_fst, hbases]
    exact List.map_congr_left fun base _ => by rw [versionsOf_congr h base]
  · intro line
    have hresolved : (bases symbols).map (fun base => resolve base (found symbols)) =
        (bases symbols').map fun base => resolve base (found symbols') := by
      rw [hbases]
      exact List.map_congr_left fun base _ => resolve_congr h base
    rw [discover_snd, discover_snd, List.mem_append, List.mem_append, hresolved]
    refine or_congr_left ?_
    simp only [List.mem_filterMap, List.mem_map, List.mem_filter, h]

/-- **The requirements of an object.** There is one for each base that an eligible marker names, in
increasing order of the bases; its version is the greatest that such a marker states; and symbols in
another order, or more than once, give the same. -/
theorem discover_exact (symbols : List Symbol) :
    (discover symbols).1.Pairwise (fun a b => BytesLt a.symbol b.symbol) ∧
      (∀ base, (∃ requirement ∈ (discover symbols).1, requirement.symbol = base) ↔
        ∃ version, Stated symbols base version) ∧
      (∀ requirement ∈ (discover symbols).1,
        IsGreatest {v | Stated symbols requirement.symbol v} requirement.version) ∧
      ∀ symbols', (∀ symbol, symbol ∈ symbols ↔ symbol ∈ symbols') →
        (discover symbols').1 = (discover symbols).1 ∧
          ∀ line, line ∈ (discover symbols').2 ↔ line ∈ (discover symbols).2 := by
  refine ⟨?_, fun base => ?_, fun requirement h => mem_discover.mp h, fun symbols' h => ?_⟩
  · rw [discover_fst, List.pairwise_map]
    exact sorted_bases _
  · rw [← mem_bases, discover_fst]
    simp
  · exact discover_symbols_iff fun symbol => (h symbol).symm

end Libreq

end Engine

end ArosTools
