import ArosTools.Collect.ArgumentTokens
import ArosTools.Collect.Engine

/-!
# Libraries for the second link

`resuppliedLibraries` looks through the arguments once more for the libraries of the first link. It
knows the options `-L` and `-l`, but not the other options that take the next argument as their
value, so it takes such a value for an operand.

* `resupplied_sublist` : what is supplied again stands in the arguments, in that order.
* `resupplied_operands` : on the tokens of the parser, as long as no value reads as a library.
-/

namespace ArosTools

namespace Engine

namespace Token

/-- The arguments of a token that are supplied again: an archive, a directory of libraries, or a
library other than those of the compiler. -/
def supply : Token → List OsString
  | word w =>
    let text := toStringLossy w
    if !startsWith text "-" && (ascii ".a").isSuffixOf text then [w]
    else if startsWith text "-L" then [w]
    else
      match stripPrefix text "-l" with
      | some name => if startsWith name "gcc" then [] else [w]
      | none => []
  | pair o v =>
    if toStringLossy o = ascii "-L" then [o, v]
    else if toStringLossy o = ascii "-l" then
      if startsWith (toStringLossy v) "gcc" then [] else [o, v]
    else []

/-- A value that does not read as a library. -/
def Clear (v : OsString) : Prop :=
  toStringLossy v ≠ ascii "-L" ∧ toStringLossy v ≠ ascii "-l" ∧ supply (word v) = []

/-- The value of an option other than `-L` and `-l` does not read as a library. -/
def ClearValue : Token → Prop
  | word _ => True
  | pair o v => toStringLossy o ≠ ascii "-L" → toStringLossy o ≠ ascii "-l" → Clear v

end Token

open Token

theorem resupplied_word {w : OsString} (hpath : toStringLossy w ≠ ascii "-L")
    (hname : toStringLossy w ≠ ascii "-l") (rest : List OsString) :
    resupplied (w :: rest) = supply (word w) ++ resupplied rest := by
  rw [resupplied.eq_def, supply]
  simp only [hpath, hname, decide_false, Bool.or_self, Bool.false_eq_true, if_false]
  split_ifs with harchive hdirectory
  · rfl
  · rfl
  · cases stripPrefix (toStringLossy w) "-l" with
    | none => rfl
    | some name =>
      dsimp only
      cases startsWith name "gcc" <;> rfl

/-- The other options that take a value. -/
theorem operandOptions_library :
    ∀ text ∈ operandOptions, text = ascii "-L" ∨ text = ascii "-l" ∨
      startsWith text "-" = true ∧ startsWith text "-L" = false ∧ stripPrefix text "-l" = none := by
  decide

theorem resupplied_pair {o v : OsString} (h : takesOperand (toStringLossy o) = true)
    (hclear : ClearValue (.pair o v)) (rest : List OsString) :
    resupplied (o :: v :: rest) = supply (.pair o v) ++ resupplied rest := by
  have hdash : startsWith (ascii "-L") "-" = true ∧ startsWith (ascii "-l") "-" = true := by decide
  by_cases hpath : toStringLossy o = ascii "-L"
  · have hne : ascii "-L" ≠ ascii "-l" := by decide
    rw [resupplied, supply]
    simp [hpath, hdash.1, hne]
  by_cases hname : toStringLossy o = ascii "-l"
  · have hne : ascii "-l" ≠ ascii "-L" := by decide
    rw [resupplied, supply]
    simp only [hname, hdash.2, hne]
    cases startsWith (toStringLossy v) "gcc" <;> simp
  · obtain ⟨hstart, hdirectory, hlibrary⟩ :=
      ((operandOptions_library _ (mem_operandOptions.mpr h)).resolve_left hpath).resolve_left hname
    obtain ⟨hvpath, hvname, hv⟩ := hclear hpath hname
    have ho : supply (word o) = [] := by simp [supply, hstart, hdirectory, hlibrary]
    have hpair : supply (.pair o v) = [] := by simp [supply, hpath, hname]
    rw [resupplied_word hpath hname, ho, resupplied_word hvpath hvname, hv, hpair]
    rfl

/-- One token of the parser. -/
theorem resupplied_token {t : Token} (hvalid : t.Valid) (hclear : t.ClearValue)
    (rest : List OsString) : resupplied (t.words ++ rest) = t.supply ++ resupplied rest := by
  cases t with
  | word w =>
    have hne : ∀ {option : Bytes}, takesOperand option = true → toStringLossy w ≠ option := by
      rintro option hoption rfl
      rw [hvalid.2] at hoption
      cases hoption
    exact resupplied_word (hne (by decide)) (hne (by decide)) rest
  | pair o v => exact resupplied_pair hvalid hclear rest

theorem resupplied_words {tokens : List Token} (hvalid : ∀ t ∈ tokens, t.Valid)
    (hclear : ∀ t ∈ tokens, t.ClearValue) (after : List OsString) :
    resupplied (words tokens ++ after) = tokens.flatMap supply ++ resupplied after := by
  induction tokens with
  | nil => rfl
  | cons t tokens ih =>
    rw [words_cons, List.append_assoc, resupplied_token (hvalid t (by simp)) (hclear t (by simp)),
      ih (fun u hu => hvalid u (by simp [hu])) (fun u hu => hclear u (by simp [hu])),
      List.flatMap_cons, List.append_assoc]

/-- **Nothing is supplied again that does not stand in the arguments, and the order is theirs.** -/
theorem resupplied_sublist (args : List OsString) : (resupplied args).Sublist args := by
  induction hn : args.length using Nat.strong_induction_on generalizing args with
  | _ n ih =>
    subst hn
    match args with
    | [] => exact List.Sublist.refl _
    | arg :: rest =>
      have hrest := ih rest.length (by simp) rest rfl
      by_cases hoption : toStringLossy arg = ascii "-L" ∨ toStringLossy arg = ascii "-l"
      · have hdash : startsWith (toStringLossy arg) "-" = true := by
          rcases hoption with h | h <;> rw [h] <;> decide
        have hlook : (decide (toStringLossy arg = ascii "-L") ||
            decide (toStringLossy arg = ascii "-l")) = true := by
          rwa [Bool.or_eq_true, decide_eq_true_eq, decide_eq_true_eq]
        rw [resupplied.eq_def]
        simp only [hdash, hlook, Bool.not_true, Bool.false_and, Bool.false_eq_true, if_false,
          if_true]
        match rest with
        | [] => exact List.nil_sublist _
        | value :: rest =>
          have hlast := ih rest.length (by simp) rest rfl
          dsimp only
          split_ifs
          · exact (hlast.cons_cons value).cons_cons arg
          · exact (hlast.cons value).cons arg
      · obtain ⟨hpath, hname⟩ := not_or.mp hoption
        rw [resupplied_word hpath hname]
        have hone : (supply (word arg)).Sublist [arg] := by
          rw [supply]
          split_ifs
          · exact List.Sublist.refl _
          · exact List.Sublist.refl _
          · split
            · split_ifs
              · exact List.nil_sublist _
              · exact List.Sublist.refl _
            · exact List.nil_sublist _
        exact hone.append hrest

/-- The arguments of a request are tokens and the operands behind the boundary. -/
theorem tokens_of_parse {name linker strip : Bytes} {emulation driver default : Option Bytes}
    {args : List OsString} {request : EngineRequest}
    (h : parseConfigured name linker strip emulation driver default args = .ok request) :
    ∃ tokens after, request.args = words tokens ++ after ∧ (∀ t ∈ tokens, t.Valid) ∧
      Boundary after := by
  unfold parseConfigured at h
  obtain ⟨normalized, -, h⟩ := Except.bind_eq_ok.mp h
  obtain ⟨⟨s, before, after⟩, hread, h⟩ := Except.bind_eq_ok.mp h
  obtain ⟨tokens, -, hvalid, hafter, -, hbefore⟩ := tokens_of_readArgs hread
  have hrewrite : ∀ t ∈ tokens.map rewrite, t.Valid := by
    intro t ht
    obtain ⟨u, hu, rfl⟩ := List.mem_map.mp ht
    exact valid_rewrite (hvalid u hu)
  dsimp only at hbefore hafter h
  split at h
  · obtain rfl := Except.ok.inj h
    exact ⟨tokens.map rewrite, after, by rw [hbefore], hrewrite, hafter⟩
  · cases default with
    | none => cases h
    | some output =>
      obtain rfl := Except.ok.inj h
      refine ⟨tokens.map rewrite ++ [.pair (ascii "-o") output], after, ?_, fun t ht => ?_, hafter⟩
      · rw [words_append, hbefore]
        rfl
      · rcases List.mem_append.mp ht with ht | ht
        · exact hrewrite t ht
        · obtain rfl := List.mem_singleton.mp ht
          change takesOperand (toStringLossy (ascii "-o")) = true
          decide

/-- **What is supplied again.** The arguments of an accepted command line are the tokens of the
parser and the operands behind `--`. After the flag in front, exactly the archives, the libraries
other than those of the compiler and the directories of libraries are supplied, in their order,
unless the value of another option reads as one of them. -/
theorem resupplied_operands {name linker strip : Bytes} {emulation driver default : Option Bytes}
    {args : List OsString} {request : EngineRequest}
    (h : parseConfigured name linker strip emulation driver default args = .ok request) :
    ∃ supplied tokens after,
      resuppliedLibraries request.args = ascii "--allow-multiple-definition" :: supplied ∧
      supplied.Sublist request.args ∧
      request.args = words tokens ++ after ∧ (∀ t ∈ tokens, t.Valid) ∧ Boundary after ∧
      ((∀ t ∈ tokens, t.ClearValue) → supplied = tokens.flatMap supply ++ resupplied after ∧
        (resupplied after).Sublist after) := by
  obtain ⟨tokens, after, hargs, hvalid, hafter⟩ := tokens_of_parse h
  refine ⟨resupplied request.args, tokens, after, rfl, resupplied_sublist _, hargs, hvalid, hafter,
    fun hclear => ⟨?_, resupplied_sublist after⟩⟩
  rw [hargs]
  exact resupplied_words hvalid hclear after

theorem resupplied_operands_sample :
    ∃ request supplied, parseConfigured [] [] [] none none none
        (["-o", "out", "-Llib", "-l", "foo", "-lgcc", "one.a", "one.o"].map ascii) = .ok request ∧
      resuppliedLibraries request.args = ascii "--allow-multiple-definition" :: supplied ∧
      supplied.Sublist request.args := by
  have hok : (parseConfigured [] [] [] none none none
      (["-o", "out", "-Llib", "-l", "foo", "-lgcc", "one.a", "one.o"].map ascii)).isOk = true := by
    decide +kernel
  obtain ⟨request, hrequest⟩ := Except.exists_of_isOk hok
  obtain ⟨supplied, -, -, heq, hsublist, -⟩ := resupplied_operands hrequest
  exact ⟨request, supplied, hrequest, heq, hsublist⟩

/-- The flag in front is not an argument, the directory is not a library, the library of the
compiler is left out, and the output is taken for an archive. -/
theorem resupplied_not_operands :
    ∃ request, parseConfigured [] [] [] none none none
        (["-o", "out.a", "-Llib", "-lfoo", "-lgcc", "one.o"].map ascii) = .ok request ∧
      request.args = ["-o", "out.a", "-Llib", "-lfoo", "-lgcc", "one.o"].map ascii ∧
      request.output = ascii "out.a" ∧
      resuppliedLibraries request.args =
        ["--allow-multiple-definition", "out.a", "-Llib", "-lfoo"].map ascii := by
  refine ⟨⟨[], [], [], none, ["-o", "out.a", "-Llib", "-lfoo", "-lgcc", "one.o"].map ascii,
    ascii "out.a", none, .final, false, false⟩, ?_, ?_, ?_, ?_⟩ <;> decide +kernel

end Engine

end ArosTools
