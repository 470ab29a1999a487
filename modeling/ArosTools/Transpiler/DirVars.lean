import ArosTools.Program.Utf8Text
import Mathlib.Data.List.Sort
import Mathlib.Data.List.Lex

/-!
# Directory variables

The table of configured directory variables and how it expands `$(NAME)` references, alone
(`DirVars.expand`) or after a local scope (`DirVars.expandWith`). The local scope is a callback that
may keep notes of its own in a state `G`, also when the expansion fails.

Every expansion has a budget of its own. The scanners look for ASCII bytes only, so they are the
same scanners over characters.
-/

namespace ArosTools

namespace MakeExpr

open Str

/-- The directory table: the values by name, and the directories that exist on disk by now. -/
structure DirVars (P : Type) where
  resolved : Text → Option Text
  materializedPath : Text → Option P

namespace DirVars

def maxDepth : ℕ := 12
def maxExpansionValueBytes : ℕ := 4 * 1024 * 1024
def maxExpansionOutputBytes : ℕ := 16 * 1024 * 1024
def maxExpansionScannedBytes : ℕ := 64 * 1024 * 1024
def maxExpansionWorkUnits : ℕ := 1048576
def maxExpansionListItems : ℕ := 65536

/-- `EXPANSION_RESOURCE_ERROR` -/
def expansionResourceError : Text := lit "directory expansion exceeded its resource budget"

structure ExpansionBudget where
  outputBytes : ℕ := 0
  scannedBytes : ℕ := 0
  workUnits : ℕ := 0
  listItems : ℕ := 0

/-- Expansions that may fail, over their budget and the notes of the callback. -/
abbrev Expansion (G : Type) := OptionT (StateM (ExpansionBudget × G))

variable {P G : Type}

/-- Replace the budget by what a charge leaves of it. -/
def charge (spend : ExpansionBudget → Option ExpansionBudget) : Expansion G Unit := do
  let (budget, notes) ← get
  match spend budget with
  | some left => set (left, notes)
  | none => failure

def chargeOutput (bytes : ℕ) : Expansion G Unit := charge fun b =>
  if b.outputBytes + bytes ≤ maxExpansionOutputBytes then
    some { b with outputBytes := b.outputBytes + bytes }
  else none

def chargeScan (bytes : ℕ) : Expansion G Unit := charge fun b =>
  if b.scannedBytes + bytes ≤ maxExpansionScannedBytes then
    some { b with scannedBytes := b.scannedBytes + bytes }
  else none

def chargeWork (units : ℕ) : Expansion G Unit := charge fun b =>
  if b.workUnits + units ≤ maxExpansionWorkUnits then
    some { b with workUnits := b.workUnits + units }
  else none

def chargeItem : Expansion G Unit := charge fun b =>
  if maxExpansionListItems ≤ b.listItems then none else some { b with listItems := b.listItems + 1 }

/-- `append_expansion`. -/
def appendExpansion (output text : Text) : Expansion G Text := do
  if len output + len text ≤ maxExpansionValueBytes then
    chargeOutput (len text)
    return output ++ text
  else failure

/-- The text before the first `$(`, and the text after it. -/
def splitReference : Text → Text × Option Text
  | [] => ([], none)
  | [c] => ([c], none)
  | c :: d :: rest =>
    if c = '$' && d = '(' then ([], some rest)
    else (c :: (splitReference (d :: rest)).1, (splitReference (d :: rest)).2)

/-- The callback for local names. -/
abbrev Local (G : Type) := Text → StateM G (Option Text)

/-- Ask the callback. -/
def askLocal (ask : Local G) (name : Text) : Expansion G (Option Text) := do
  let (budget, notes) ← get
  let (answer, notes) := ask name notes
  set (budget, notes)
  return answer

/-- The value of one name, expanded. -/
def expandName (dirs : DirVars P) (ask : Local G) (expand : Text → Expansion G Text) (name : Text) :
    Expansion G Text := do
  match ← askLocal ask name with
  | some value =>
    if len value ≤ maxExpansionValueBytes then
      chargeOutput (len value)
      expand value
    else failure
  | none =>
    match dirs.resolved name with
    | some value => expand value
    | none => failure

/-- The loop of `expand_with_depth` over the text that is left. -/
def expandRest (dirs : DirVars P) (ask : Local G) (expand : Text → Expansion G Text) :
    ℕ → Text → Text → Expansion G Text
  | 0, rest, out => appendExpansion out rest
  | fuel + 1, rest, out =>
    match splitReference rest with
    | (_, none) => appendExpansion out rest
    | (segment, some after) => do
      let out ← appendExpansion out segment
      if after.contains ')' then
        let name := after.takeWhile (· ≠ ')')
        if name.contains '$' || name.contains ' ' then failure
        else
          chargeWork 1
          let expanded ← expandName dirs ask expand name
          let out ← appendExpansion out expanded
          expandRest dirs ask expand fuel ((after.dropWhile (· ≠ ')')).drop 1) out
      else failure

/-- `expand_with_depth`. -/
def expandWithDepth (dirs : DirVars P) (ask : Local G) : ℕ → Text → Expansion G Text
  | 0, _ => failure
  | depth + 1, raw =>
    if len raw ≤ maxExpansionValueBytes then do
      chargeScan (len raw)
      chargeWork 1
      expandRest dirs ask (expandWithDepth dirs ask depth) raw.length raw []
    else failure

/-- `expand`: `expand_depth` with no local names. -/
def expand (dirs : DirVars P) (raw : Text) : Option Text :=
  (StateT.run (OptionT.run (expandWithDepth dirs (fun _ => pure none) maxDepth raw)) ({}, ())).1

/-! ### The names that are missing -/

/-- Put a value on the queue of `missing_in_with`. -/
def pushValue (queue : List Text) (value : Text) : Expansion G (List Text) := do
  if len value ≤ maxExpansionValueBytes then
    chargeOutput (len value)
    chargeItem
    return value :: queue
  else failure

/-- One text of `missing_in_with`: the queue, last value first, and the names missing so far. -/
def missingScan (dirs : DirVars P) (ask : Local G) :
    ℕ → Text → List Text × List Text → Expansion G (List Text × List Text)
  | 0, _, found => return found
  | fuel + 1, text, (queue, missing) =>
    match splitReference text with
    | (_, none) => return (queue, missing)
    | (_, some after) =>
      if after.contains ')' then do
        let name := after.takeWhile (· ≠ ')')
        let rest := (after.dropWhile (· ≠ ')')).drop 1
        if name.contains '$' || name.contains ' ' then
          missingScan dirs ask fuel rest (queue, missing)
        else
          chargeWork 1
          match ← askLocal ask name with
          | some value =>
            let queue ← pushValue queue value
            missingScan dirs ask fuel rest (queue, missing)
          | none =>
            match dirs.resolved name with
            | some value =>
              let queue ← pushValue queue value
              missingScan dirs ask fuel rest (queue, missing)
            | none =>
              if missing.contains name then missingScan dirs ask fuel rest (queue, missing)
              else
                chargeItem
                chargeOutput (len name)
                missingScan dirs ask fuel rest (queue, name :: missing)
      else return (queue, missing)

/-- The loop of `missing_in_with`. Every round costs a unit of work, so the rounds are bounded by
the budget. -/
def missingRounds (dirs : DirVars P) (ask : Local G) :
    ℕ → List Text × List Text → Expansion G (List Text)
  | 0, _ => failure
  | _ + 1, ([], missing) => return missing
  | fuel + 1, (text :: queue, missing) => do
    if len text ≤ maxExpansionValueBytes then
      chargeScan (len text)
      chargeWork 1
      let found ← missingScan dirs ask text.length text (queue, missing)
      missingRounds dirs ask fuel found
    else failure

/-- `missing_in_with`: the missing names in order. -/
def missingInWith (dirs : DirVars P) (ask : Local G) (raw : Text) : Expansion G (List Text) := do
  if len raw ≤ maxExpansionValueBytes then
    chargeItem
    chargeOutput (len raw)
    let missing ← missingRounds dirs ask (maxExpansionWorkUnits + 2) ([raw], [])
    return missing.insertionSort (· ≤ ·)
  else failure

/-- The message for a value that is no plain reference. -/
def notPlain (raw : Text) : Expansion G Text := do
  let message := raw ++ lit " (not a plain variable reference)"
  if len raw ≤ maxExpansionValueBytes then
    chargeItem
    if len message ≤ maxExpansionValueBytes then
      chargeOutput (len message)
      return message
    else failure
  else failure

/-- `expand_with`, with the notes that the callback left. -/
def expandWith (dirs : DirVars P) (raw : Text) (ask : Local G) (notes : G) :
    Except (List Text) Text × G :=
  match StateT.run (OptionT.run (expandWithDepth dirs ask maxDepth raw)) ({}, notes) with
  | (some value, (_, notes)) => (.ok value, notes)
  | (none, state) =>
    match StateT.run (OptionT.run (missingInWith dirs ask raw)) state with
    | (none, (_, notes)) => (.error [expansionResourceError], notes)
    | (some (name :: names), (_, notes)) => (.error (name :: names), notes)
    | (some [], state) =>
      match StateT.run (OptionT.run (notPlain raw)) state with
      | (some message, (_, notes)) => (.error [message], notes)
      | (none, (_, notes)) => (.error [expansionResourceError], notes)

end DirVars

end MakeExpr

end ArosTools
