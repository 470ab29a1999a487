import ArosTools.Bytes.Window
import ArosTools.Program.Except
import ArosTools.Toolchain.RawTar

/-!
# The streaming scan for build prefixes

`scan_file` and `hash_entry_with_output` look for forbidden prefixes in data that they read piece by
piece, and carry the end of what they have seen over to the next piece. The scan sees exactly the
prefixes that occur in the whole data, however it was split (`prefix_scan_exact`), and
`hash_entry_with_output` is the reading of a whole entry that `hashEntry` states
(`hashEntryWithOutput_ok_iff`).
-/

namespace ArosTools

namespace Toolchain

/-- What a reader returns, call by call, up to the end of its data: the bytes of a read, or nothing
if it failed. -/
abbrev Reads := List (Option Bytes)

/-- The bytes to carry over: one less than the longest needle. -/
def maxOverlap (needles : List Bytes) : ℕ :=
  ((needles.map List.length).max?).getD 1 - 1

/-- One of the needles is a window of the content. -/
def hasNeedle (needles : List Bytes) (content : Bytes) : Bool :=
  needles.any fun needle => (windows needle.length content).any fun window => window = needle

/-- The end of the content that is kept. -/
def overlapOf (needles : List Bytes) (content : Bytes) : Bytes :=
  content.drop (content.length - min (maxOverlap needles) content.length)

/-! ### `scan_file` -/

/-- The loop of `scan_file`: whether a needle was seen. -/
def scanReads (needles : List Bytes) : Bytes → Reads → Contract Bool
  | _, [] => .ok false
  | _, none :: _ => .error (.package "cannot scan candidate file")
  | overlap, some read :: rest =>
    if read = [] then .ok false
    else if hasNeedle needles (overlap ++ read) then .ok true
    else scanReads needles (overlapOf needles (overlap ++ read)) rest

/-- `scan_file`; there are no reads if the file cannot be opened. -/
def scanFile (file : Option Reads) (relative : String) (needles : List Bytes)
    (findings : List String) : Contract (List String) :=
  match file with
  | none => .error (.package "cannot open candidate file for prefix scan")
  | some reads => do
    let found ← scanReads needles [] reads
    if found then pure (findings ++ [relative]) else pure findings

/-! ### `hash_entry_with_output` -/

/-- Where the data is written; a write can fail, given what was written before. -/
structure Output where
  accepts : Bytes → Bytes → Bool

/-- The variables of the loop: the overlap, the number of bytes read, the bytes given to the digest
and the bytes written. -/
structure EntryScan where
  overlap : Bytes
  readTotal : ℕ
  digested : Bytes
  written : Bytes
  deriving DecidableEq, Repr

/-- The scan of one read. -/
def EntryScan.look (needles : List Bytes) (s : EntryScan) (read : Bytes) : Contract EntryScan :=
  if needles = [] then .ok s
  else if hasNeedle needles (s.overlap ++ read) then
    .error (.verification "package regular-file entry contains a forbidden build prefix")
  else .ok { s with overlap := overlapOf needles (s.overlap ++ read) }

/-- One turn of the loop, for a read that is not empty. -/
def EntryScan.step (needles : List Bytes) (expectedSize : ℕ) (output : Option Output)
    (s : EntryScan) (read : Bytes) : Contract EntryScan := do
  check (s.readTotal + read.length < 2 ^ 64) "package regular-file byte count overflowed"
  check (s.readTotal + read.length ≤ expectedSize)
    "package regular-file entry exceeds its declared size"
  check (output.all fun output => output.accepts s.written read)
    "cannot write package regular-file extraction bytes"
  EntryScan.look needles ⟨s.overlap, s.readTotal + read.length, s.digested ++ read,
    if output.isSome then s.written ++ read else s.written⟩ read

/-- The loop of `hash_entry_with_output`. -/
def EntryScan.run (needles : List Bytes) (expectedSize : ℕ) (output : Option Output) :
    EntryScan → Reads → Contract EntryScan
  | s, [] => .ok s
  | _, none :: _ => .error (.verification "cannot read package regular-file entry")
  | s, some read :: rest =>
    if read = [] then .ok s
    else do
      let s ← s.step needles expectedSize output read
      run needles expectedSize output s rest

/-- `hash_entry_with_output`: the digest of the data and the bytes written. -/
def hashEntryWithOutput (sha256 : Bytes → Sha256Digest) (reads : Reads) (expectedSize : ℕ)
    (forbiddenPrefixes : List Bytes) (output : Option Output) :
    Contract (Sha256Digest × Bytes) := do
  check (forbiddenPrefixes.all isUtf8) "forbidden verification prefix is not UTF-8"
  let needles := forbiddenPrefixes.filter (· ≠ [])
  let s ← EntryScan.run needles expectedSize output ⟨[], 0, [], []⟩ reads
  check (s.readTotal = expectedSize) "package regular-file entry is truncated"
  pure (sha256 s.digested, s.written)

/-! ### What one read shows -/

section

variable {needles : List Bytes} {content : Bytes}

theorem overlapOf_eq (needles : List Bytes) (content : Bytes) :
    overlapOf needles content = content.rtake (maxOverlap needles) := by
  rw [overlapOf, List.rtake]
  congr 1
  omega

theorem length_le_maxOverlap {needle : Bytes} (h : needle ∈ needles) :
    needle.length ≤ maxOverlap needles + 1 := by
  have hmax : needle.length ≤ (needles.map List.length).max?.getD 1 :=
    List.le_max?_getD_of_mem (List.mem_map_of_mem h)
  unfold maxOverlap
  omega

theorem hasNeedle_iff : hasNeedle needles content = true ↔ ∃ needle ∈ needles, needle <:+: content := by
  rw [hasNeedle, List.any_eq_true]
  constructor
  · rintro ⟨needle, hneedle, h⟩
    obtain ⟨window, hwindow, heq⟩ := List.any_eq_true.mp h
    obtain rfl := of_decide_eq_true heq
    exact ⟨window, hneedle, (mem_windows.mp hwindow).2⟩
  · rintro ⟨needle, hneedle, h⟩
    refine ⟨needle, hneedle, List.any_eq_true.mpr ⟨needle, mem_windows.mpr ⟨rfl, h⟩, ?_⟩⟩
    exact decide_eq_true rfl

/-- The overlap is enough to see the needles that were not there before. -/
theorem hasNeedle_overlap {seen read : Bytes} (hseen : hasNeedle needles seen = false) :
    hasNeedle needles (seen.rtake (maxOverlap needles) ++ read) =
      hasNeedle needles (seen ++ read) := by
  have habsent : ∀ needle ∈ needles, ¬ needle <:+: seen := by
    intro needle hneedle h
    rw [hasNeedle_iff.mpr ⟨needle, hneedle, h⟩] at hseen
    cases hseen
  rw [Bool.eq_iff_iff, hasNeedle_iff, hasNeedle_iff]
  exact exists_infix_carry (fun needle h => length_le_maxOverlap h) habsent

theorem hasNeedle_append {seen read : Bytes} (h : hasNeedle needles seen = true) :
    hasNeedle needles (seen ++ read) = true := by
  obtain ⟨needle, hneedle, hinfix⟩ := hasNeedle_iff.mp h
  exact hasNeedle_iff.mpr ⟨needle, hneedle, List.infix_append_of_infix_left hinfix⟩

theorem hasNeedle_nil (hneedles : [] ∉ needles) : hasNeedle needles [] = false := by
  rw [Bool.eq_false_iff, ne_eq, hasNeedle_iff]
  rintro ⟨needle, hneedle, h⟩
  rw [List.infix_nil] at h
  exact hneedles (h ▸ hneedle)

/-- The overlap after one more read. -/
theorem overlapOf_rtake (seen read : Bytes) :
    overlapOf needles (seen.rtake (maxOverlap needles) ++ read) =
      (seen ++ read).rtake (maxOverlap needles) := by
  rw [overlapOf_eq, rtake_append_rtake]

end

/-! ### The loops -/

section

variable {needles : List Bytes} {expectedSize : ℕ} {output : Option Output}

/-- The loop of `scan_file` from a state in which no needle was seen. -/
theorem scanReads_eq (chunks : List Bytes) (hchunks : [] ∉ chunks) (seen : Bytes)
    (hseen : hasNeedle needles seen = false) :
    scanReads needles (seen.rtake (maxOverlap needles)) (chunks.map some) =
      .ok (hasNeedle needles (seen ++ chunks.flatten)) := by
  induction chunks generalizing seen with
  | nil =>
    rw [List.flatten_nil, List.append_nil, hseen]
    rfl
  | cons read rest ih =>
    rw [List.mem_cons, not_or] at hchunks
    rw [List.map_cons, scanReads, if_neg (Ne.symm hchunks.1), hasNeedle_overlap hseen,
      overlapOf_rtake, List.flatten_cons, ← List.append_assoc]
    cases hread : hasNeedle needles (seen ++ read) with
    | true =>
      rw [if_pos rfl, hasNeedle_append hread]
    | false =>
      rw [if_neg Bool.false_ne_true]
      exact ih hchunks.2 _ hread

/-- The variables after some data in which there is no needle. -/
def EntryScan.after (needles : List Bytes) (output : Option Output) (seen : Bytes) : EntryScan :=
  ⟨if needles = [] then [] else seen.rtake (maxOverlap needles), seen.length, seen,
    if output.isSome then seen else []⟩

theorem EntryScan.look_after {seen read : Bytes} (hseen : hasNeedle needles seen = false) :
    EntryScan.look needles ⟨(after needles output seen).overlap, (seen ++ read).length, seen ++ read,
        if output.isSome then seen ++ read else []⟩ read =
      if hasNeedle needles (seen ++ read) then
        .error (.verification "package regular-file entry contains a forbidden build prefix")
      else .ok (after needles output (seen ++ read)) := by
  unfold look after
  by_cases hneedles : needles = []
  · subst hneedles
    rw [if_pos rfl, if_pos rfl, if_pos rfl]
    rfl
  · simp only [if_neg hneedles, hasNeedle_overlap hseen, overlapOf_rtake]

theorem EntryScan.step_after {seen read : Bytes} :
    (after needles output seen).step needles expectedSize output read = (do
      check ((seen ++ read).length < 2 ^ 64) "package regular-file byte count overflowed"
      check ((seen ++ read).length ≤ expectedSize)
        "package regular-file entry exceeds its declared size"
      check (output.all fun output' => output'.accepts (after needles output seen).written read)
        "cannot write package regular-file extraction bytes"
      EntryScan.look needles ⟨(after needles output seen).overlap, (seen ++ read).length,
        seen ++ read, if output.isSome then seen ++ read else []⟩ read) := by
  simp only [step, after, List.length_append]
  cases output <;> rfl

/-- **One turn of the loop** that does not fail. -/
theorem EntryScan.step_ok {seen read : Bytes} {s : EntryScan}
    (hseen : hasNeedle needles seen = false)
    (h : (after needles output seen).step needles expectedSize output read = .ok s) :
    s = after needles output (seen ++ read) ∧ (seen ++ read).length ≤ expectedSize ∧
      hasNeedle needles (seen ++ read) = false := by
  rw [step_after] at h
  obtain ⟨_, -, h⟩ := Except.bind_ok h
  obtain ⟨_, hsize, h⟩ := Except.bind_ok h
  obtain ⟨_, -, h⟩ := Except.bind_ok h
  have hsize := of_decide_eq_true (check_ok hsize)
  rw [look_after hseen] at h
  cases hread : hasNeedle needles (seen ++ read) with
  | true =>
    rw [hread, if_pos rfl] at h
    cases h
  | false =>
    rw [hread, if_neg Bool.false_ne_true] at h
    exact ⟨(Except.ok.inj h).symm, hsize, rfl⟩

/-- **One turn of the loop** that has nothing to refuse. -/
theorem EntryScan.step_of {seen read : Bytes} (hbits : expectedSize < 2 ^ 64)
    (hwrites : ∀ o ∈ output, ∀ written read, o.accepts written read = true)
    (hsize : (seen ++ read).length ≤ expectedSize)
    (hread : hasNeedle needles (seen ++ read) = false) (hseen : hasNeedle needles seen = false) :
    (after needles output seen).step needles expectedSize output read =
      .ok (after needles output (seen ++ read)) := by
  have haccepts : (output.all fun o => o.accepts (after needles output seen).written read) = true := by
    cases output with
    | none => rfl
    | some o => exact hwrites o rfl _ _
  rw [step_after, check_true (decide_eq_true (by omega)), check_true (decide_eq_true hsize),
    check_true haccepts, look_after hseen, hread]
  rfl

/-- A run from data in which there is no needle that does not fail. -/
theorem EntryScan.run_ok (chunks : List Bytes) (hchunks : [] ∉ chunks) {seen : Bytes}
    {s : EntryScan} (hseen : hasNeedle needles seen = false) (hfits : seen.length ≤ expectedSize)
    (h : run needles expectedSize output (after needles output seen) (chunks.map some) = .ok s) :
    s = after needles output (seen ++ chunks.flatten) ∧
      (seen ++ chunks.flatten).length ≤ expectedSize ∧
      hasNeedle needles (seen ++ chunks.flatten) = false := by
  induction chunks generalizing seen with
  | nil =>
    rw [List.flatten_nil, List.append_nil]
    exact ⟨(Except.ok.inj h).symm, hfits, hseen⟩
  | cons read rest ih =>
    rw [List.mem_cons, not_or] at hchunks
    rw [List.map_cons, run, if_neg (Ne.symm hchunks.1)] at h
    obtain ⟨s', hstep, h⟩ := Except.bind_ok h
    obtain ⟨rfl, hsize, hread⟩ := step_ok hseen hstep
    rw [List.flatten_cons, ← List.append_assoc]
    exact ih hchunks.2 hread hsize h

/-- A run that has nothing to refuse. -/
theorem EntryScan.run_of (chunks : List Bytes) (hchunks : [] ∉ chunks) (seen : Bytes)
    (hbits : expectedSize < 2 ^ 64)
    (hwrites : ∀ o ∈ output, ∀ written read, o.accepts written read = true)
    (hsize : (seen ++ chunks.flatten).length ≤ expectedSize)
    (habsent : hasNeedle needles (seen ++ chunks.flatten) = false) :
    run needles expectedSize output (after needles output seen) (chunks.map some) =
      .ok (after needles output (seen ++ chunks.flatten)) := by
  induction chunks generalizing seen with
  | nil =>
    rw [List.flatten_nil, List.append_nil]
    rfl
  | cons read rest ih =>
    rw [List.mem_cons, not_or] at hchunks
    rw [List.flatten_cons, ← List.append_assoc] at hsize habsent ⊢
    have hread : hasNeedle needles (seen ++ read) = false :=
      Bool.eq_false_iff.mpr fun h => Bool.eq_false_iff.mp habsent (hasNeedle_append h)
    have hseen : hasNeedle needles seen = false :=
      Bool.eq_false_iff.mpr fun h => Bool.eq_false_iff.mp hread (hasNeedle_append h)
    have hfits : (seen ++ read).length ≤ expectedSize := by
      rw [List.length_append] at hsize
      omega
    rw [List.map_cons, run, if_neg (Ne.symm hchunks.1), step_of hbits hwrites hfits hread hseen]
    exact ih hchunks.2 _ hsize habsent

end

/-! ### The scan is exact -/

section

variable {sha256 : Bytes → Sha256Digest} {chunks : List Bytes} {expectedSize : ℕ}
  {prefixes : List Bytes} {output : Option Output}

/-- The prefixes that are looked for. -/
theorem nil_notMem_needles (prefixes : List Bytes) : [] ∉ prefixes.filter (· ≠ []) := by
  intro h
  exact of_decide_eq_true (List.mem_filter.mp h).2 rfl

theorem exists_needle_iff {content : Bytes} :
    hasNeedle (prefixes.filter (· ≠ [])) content = true ↔
      ∃ p ∈ prefixes, p ≠ [] ∧ p <:+: content := by
  rw [hasNeedle_iff]
  constructor
  · rintro ⟨p, hp, h⟩
    obtain ⟨hp, hne⟩ := List.mem_filter.mp hp
    exact ⟨p, hp, of_decide_eq_true hne, h⟩
  · rintro ⟨p, hp, hne, h⟩
    exact ⟨p, List.mem_filter.mpr ⟨hp, decide_eq_true hne⟩, h⟩

/-- What an accepted entry holds. -/
theorem hashEntryWithOutput_ok (hchunks : [] ∉ chunks) {digest : Sha256Digest} {written : Bytes}
    (h : hashEntryWithOutput sha256 (chunks.map some) expectedSize prefixes output =
      .ok (digest, written)) :
    prefixes.all isUtf8 = true ∧ hasNeedle (prefixes.filter (· ≠ [])) chunks.flatten = false ∧
      chunks.flatten.length = expectedSize ∧ digest = sha256 chunks.flatten ∧
      written = if output.isSome then chunks.flatten else [] := by
  obtain ⟨_, hutf8, h⟩ := Except.bind_ok h
  obtain ⟨s, hrun, h⟩ := Except.bind_ok h
  obtain ⟨_, hlength, h⟩ := Except.bind_ok h
  have hstart : (⟨[], 0, [], []⟩ : EntryScan) =
      .after (prefixes.filter (· ≠ [])) output [] := by
    simp [EntryScan.after, List.rtake]
  rw [hstart] at hrun
  obtain ⟨rfl, -, habsent⟩ := EntryScan.run_ok chunks hchunks
    (hasNeedle_nil (nil_notMem_needles prefixes)) (Nat.zero_le _) hrun
  obtain ⟨rfl, rfl⟩ := Prod.mk.inj (Except.ok.inj h)
  exact ⟨check_ok hutf8, habsent, of_decide_eq_true (check_ok hlength), rfl, rfl⟩

/-- An entry with nothing to refuse is accepted. -/
theorem hashEntryWithOutput_of (hchunks : [] ∉ chunks) (hbits : expectedSize < 2 ^ 64)
    (hwrites : ∀ o ∈ output, ∀ written read, o.accepts written read = true)
    (hutf8 : prefixes.all isUtf8 = true)
    (habsent : hasNeedle (prefixes.filter (· ≠ [])) chunks.flatten = false)
    (hlength : chunks.flatten.length = expectedSize) :
    hashEntryWithOutput sha256 (chunks.map some) expectedSize prefixes output =
      .ok (sha256 chunks.flatten, if output.isSome then chunks.flatten else []) := by
  have hstart : (⟨[], 0, [], []⟩ : EntryScan) =
      .after (prefixes.filter (· ≠ [])) output [] := by
    simp [EntryScan.after, List.rtake]
  have hrun := EntryScan.run_of chunks hchunks []
    hbits hwrites hlength.le habsent
  have hcheck : check (decide ((EntryScan.after (prefixes.filter (· ≠ [])) output
      chunks.flatten).readTotal = expectedSize)) "package regular-file entry is truncated" =
      .ok () := check_true (decide_eq_true hlength)
  rw [List.nil_append] at hrun
  rw [hashEntryWithOutput, check_true hutf8]
  simp only [hstart, hrun, hcheck, bind, Except.bind]
  rfl

theorem containsAny_eq (needles : List Bytes) (text : Bytes) :
    containsAny needles text = hasNeedle needles text := by
  rw [Bool.eq_iff_iff, hasNeedle_iff, containsAny, List.any_eq_true]
  refine exists_congr fun needle => and_congr_right fun _ => ?_
  rw [List.any_eq_true, List.infix_iff_prefix_suffix]
  constructor
  · rintro ⟨rest, hrest, h⟩
    exact ⟨rest, List.isPrefixOf_iff_prefix.mp h, (List.mem_tails _ _).mp hrest⟩
  · rintro ⟨rest, h, hrest⟩
    exact ⟨rest, (List.mem_tails _ _).mpr hrest, List.isPrefixOf_iff_prefix.mpr h⟩

/-- **Reading piece by piece** is reading the whole entry. -/
theorem hashEntryWithOutput_ok_iff (hchunks : [] ∉ chunks) (hbits : expectedSize < 2 ^ 64)
    (hwrites : ∀ o ∈ output, ∀ written read, o.accepts written read = true)
    {header : TarHeader} {size : ℕ} {digest : Sha256Digest} {written : Bytes} :
    hashEntryWithOutput sha256 (chunks.map some) expectedSize prefixes output =
        .ok (digest, written) ↔
      hashEntry sha256 ⟨header, size, some chunks.flatten⟩ expectedSize prefixes = .ok digest ∧
        written = if output.isSome then chunks.flatten else [] := by
  constructor
  · intro h
    obtain ⟨hutf8, habsent, hlength, rfl, hwritten⟩ := hashEntryWithOutput_ok hchunks h
    refine ⟨?_, hwritten⟩
    rw [hashEntry, check_true hutf8]
    simp only [require_some, bind, Except.bind, containsAny_eq, habsent, hlength, le_refl]
    rw [check_true (decide_eq_true trivial)]
    rfl
  · rintro ⟨h, rfl⟩
    obtain ⟨_, hutf8, h⟩ := Except.bind_ok h
    obtain ⟨data, hdata, h⟩ := Except.bind_ok h
    obtain rfl := Except.ok.inj hdata
    obtain ⟨_, -, h⟩ := Except.bind_ok h
    obtain ⟨_, habsent, h⟩ := Except.bind_ok h
    obtain ⟨_, hlength, h⟩ := Except.bind_ok h
    have habsent := check_ok habsent
    rw [containsAny_eq, Bool.not_eq_true'] at habsent
    rw [hashEntryWithOutput_of hchunks hbits hwrites (check_ok hutf8) habsent
      (of_decide_eq_true (check_ok hlength)), Except.ok.inj h]

/-- **The scan is exact**, however the data was split into reads: a file is reported exactly if one
of the needles occurs in it, and an entry is refused exactly if a prefix is not text, a prefix
occurs in the entry or the entry does not have the declared size. -/
theorem prefix_scan_exact (sha256 : Bytes → Sha256Digest) (chunks : List Bytes)
    (hchunks : [] ∉ chunks) :
    (∀ (relative : String) (needles : List Bytes) (findings : List String), [] ∉ needles →
      ∃ found, scanFile (some (chunks.map some)) relative needles findings =
          .ok (if found then findings ++ [relative] else findings) ∧
        (found = true ↔ ∃ needle ∈ needles, needle <:+: chunks.flatten)) ∧
    ∀ (expectedSize : ℕ) (prefixes : List Bytes) (output : Option Output),
      (expectedSize < 2 ^ 64 →
        (∀ o ∈ output, ∀ written read, o.accepts written read = true) →
        ((∃ e, hashEntryWithOutput sha256 (chunks.map some) expectedSize prefixes output =
            .error e) ↔
          (∃ p ∈ prefixes, isUtf8 p = false) ∨
            (∃ p ∈ prefixes, p ≠ [] ∧ p <:+: chunks.flatten) ∨
            chunks.flatten.length ≠ expectedSize)) ∧
      ∀ digest written,
        hashEntryWithOutput sha256 (chunks.map some) expectedSize prefixes output =
          .ok (digest, written) →
        digest = sha256 chunks.flatten ∧ chunks.flatten.length = expectedSize ∧
          written = if output.isSome then chunks.flatten else [] := by
  refine ⟨fun relative needles findings hneedles => ?_, fun expectedSize prefixes output =>
    ⟨fun hbits hwrites => ⟨?_, ?_⟩, fun digest written h => ?_⟩⟩
  · have hscan := scanReads_eq chunks hchunks [] (hasNeedle_nil hneedles)
    rw [List.nil_append] at hscan
    refine ⟨hasNeedle needles chunks.flatten, ?_, hasNeedle_iff⟩
    have hstart : ([] : Bytes).rtake (maxOverlap needles) = [] := by simp [List.rtake]
    rw [hstart] at hscan
    simp only [scanFile, hscan, bind, Except.bind]
    split <;> rfl
  · rintro ⟨e, he⟩
    -- an entry with none of the three faults is accepted
    by_contra hnone
    rw [not_or, not_or, not_not, ← exists_needle_iff, Bool.not_eq_true] at hnone
    obtain ⟨hutf8, habsent, hlength⟩ := hnone
    have htext : prefixes.all isUtf8 = true := by
      rw [List.all_eq_true]
      intro p hp
      by_contra hfault
      exact hutf8 ⟨p, hp, Bool.eq_false_iff.mpr hfault⟩
    rw [hashEntryWithOutput_of hchunks hbits hwrites htext habsent hlength] at he
    cases he
  · intro hfault
    cases hresult : hashEntryWithOutput sha256 (chunks.map some) expectedSize prefixes output with
    | error e => exact ⟨e, rfl⟩
    | ok result =>
      exfalso
      obtain ⟨hutf8, habsent, hlength, -⟩ := hashEntryWithOutput_ok hchunks hresult
      rcases hfault with ⟨p, hp, hnot⟩ | hfound | hne
      · rw [List.all_eq_true.mp hutf8 p hp] at hnot
        cases hnot
      · rw [exists_needle_iff.mpr hfound] at habsent
        cases habsent
      · exact hne hlength
  · obtain ⟨-, -, hlength, hdigest, hwritten⟩ := hashEntryWithOutput_ok hchunks h
    exact ⟨hdigest, hlength, hwritten⟩

/-- A prefix of two bytes that no read holds whole. -/
theorem prefix_scan_exact_split :
    (∃ found, scanFile (some ([[1], [2]].map some)) "share" [[1, 2]] [] =
        .ok (if found then [] ++ ["share"] else []) ∧
      (found = true ↔ ∃ needle ∈ [([1, 2] : Bytes)], needle <:+: [[1], [2]].flatten)) ∧
    ((∃ e, hashEntryWithOutput (fun _ => default) ([[1], [2]].map some) 2 [[1, 2]] none = .error e) ↔
      (∃ p ∈ [([1, 2] : Bytes)], isUtf8 p = false) ∨
        (∃ p ∈ [([1, 2] : Bytes)], p ≠ [] ∧ p <:+: [[1], [2]].flatten) ∨
        ([[1], [2]] : List Bytes).flatten.length ≠ 2) := by
  have h := prefix_scan_exact (fun _ => default) [[1], [2]] (by decide)
  refine ⟨h.1 "share" [[1, 2]] [] (by decide), (h.2 2 [[1, 2]] none).1 (by decide) ?_⟩
  intro o ho
  cases ho

/-- An entry that is shorter than declared is refused although nothing is looked for. -/
theorem refused_without_needle :
    ¬ ∀ (sha256 : Bytes → Sha256Digest) (chunks : List Bytes) (expectedSize : ℕ)
      (prefixes : List Bytes), [] ∉ chunks → [] ∉ prefixes →
      ((∃ e, hashEntryWithOutput sha256 (chunks.map some) expectedSize prefixes none = .error e) ↔
        ∃ p ∈ prefixes, p <:+: chunks.flatten) := by
  intro h
  obtain ⟨p, hp, -⟩ := (h (fun _ => default) [[0]] 2 [] (by decide) (by decide)).mp
    ⟨.verification "package regular-file entry is truncated", rfl⟩
  cases hp

end

end Toolchain

end ArosTools
