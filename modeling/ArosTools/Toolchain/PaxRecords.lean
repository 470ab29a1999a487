import ArosTools.Toolchain.HeaderReading

/-!
# Lists of PAX records

Records written one after the other are parsed back, in whatever order their keys stand and
whatever separators their values contain.

* `paxLength_stable` : the loop for the length of a record comes to an end.
* `pax_records_read_back` : **the records of a list are parsed back as its values.**
* `no_records` : the parser refuses an extension without a record.
-/

namespace ArosTools

namespace Toolchain

/-- The bytes of a list of records: `append_pax_record` for each of them. -/
def paxRecordsText (records : List (String × Bytes)) : Bytes :=
  records.flatMap fun record => paxRecordText record.1 record.2

/-- The keys of a record. -/
def PaxKey (key : String) : Prop := key = "path" ∨ key = "linkpath"

/-! ### The length of a record -/

/-- Once the length counts its own digits, more rounds do not change it. -/
theorem paxLength_stable {base fuel length : ℕ} (more : ℕ)
    (h : paxLength base fuel length = base + decimalDigits (paxLength base fuel length)) :
    paxLength base (fuel + more) length = paxLength base fuel length := by
  induction fuel generalizing length with
  | zero =>
    rw [paxLength] at h ⊢
    cases more with
    | zero => rw [Nat.add_zero, paxLength]
    | succ more => rw [Nat.zero_add, paxLength, if_pos h.symm]
  | succ fuel ih =>
    rw [Nat.add_right_comm, paxLength, paxLength]
    rw [paxLength] at h
    by_cases hnext : base + decimalDigits length = length
    · rw [if_pos hnext, if_pos hnext]
    · rw [if_neg hnext] at h ⊢
      rw [if_neg hnext]
      exact ih h

/-- The length of a record is the number of its bytes, its own digits among them, and the loop has
found it after some round. -/
theorem length_record (key : String) (value : Bytes) :
    ∃ rounds length, (∀ more, paxLength ((ascii key).length + value.length + 3) (rounds + more)
        ((ascii key).length + value.length + 3 + 1) = length) ∧
      length = decimalDigits length + 1 + (ascii key).length + 1 + value.length + 1 ∧
      paxRecordText key value =
        natText length ++ 0x20 :: (ascii key ++ 0x3d :: (value ++ [0x0a])) := by
  have hfixed := @paxLength_fixed ((ascii key).length + value.length + 3)
    ((ascii key).length + value.length + 3 + 2) ((ascii key).length + value.length + 3 + 1)
    (Nat.add_le_add_left (by rw [decimalDigits_eq]; omega) _) (by omega)
  refine ⟨_, _, fun more => paxLength_stable more hfixed, by omega, ?_⟩
  rw [paxRecordText]
  simp only [List.append_assoc, List.cons_append, List.nil_append]

/-! ### The records of a list -/

/-- The value that a key has so far. -/
def PaxOverrides.value (overrides : PaxOverrides) (key : String) : Option Bytes :=
  if key = "path" then overrides.path else overrides.linkpath

section

variable {key : String} {value : Bytes} {overrides : PaxOverrides}

theorem PaxKey.noEquals (h : PaxKey key) : 0x3d ∉ ascii key := by
  rcases h with rfl | rfl <;> decide

/-- A record adds its value under its key. -/
theorem addPaxOverride_record (hkey : PaxKey key) (hvalue : value ≠ [])
    (hnew : overrides.value key = none) :
    ∃ next, addPaxOverride overrides (ascii key) value = .ok next ∧
      ∀ k, PaxKey k → next.value k = if k = key then some value else overrides.value k := by
  have hdiffer : ascii "linkpath" ≠ ascii "path" := by decide
  obtain ⟨path, linkpath⟩ := overrides
  rcases hkey with rfl | rfl
  · obtain rfl : path = none := hnew
    refine ⟨⟨some value, linkpath⟩, by simp [addPaxOverride, hvalue], ?_⟩
    rintro k (rfl | rfl)
    · rfl
    · rfl
  · obtain rfl : linkpath = none := hnew
    refine ⟨⟨path, some value⟩, by simp [addPaxOverride, hdiffer, hvalue], ?_⟩
    rintro k (rfl | rfl)
    · rfl
    · rfl

theorem PaxOverrides.ext_value {a b : PaxOverrides} (h : ∀ k, PaxKey k → a.value k = b.value k) :
    a = b := by
  obtain ⟨p, l⟩ := a
  obtain ⟨p', l'⟩ := b
  obtain rfl : p = p' := h "path" (.inl rfl)
  obtain rfl : l = l' := h "linkpath" (.inr rfl)
  rfl

end

/-- The loop of the parser, over the records that are left. -/
theorem paxOverrides_list {records : List (String × Bytes)} {overrides : PaxOverrides} {fuel : ℕ}
    (hkeys : ∀ r ∈ records, PaxKey r.1) (hnodup : (records.map Prod.fst).Nodup)
    (hvalues : ∀ r ∈ records, PaxText r.2) (hnew : ∀ r ∈ records, overrides.value r.1 = none)
    (hlength : (paxRecordsText records).length < 2 ^ 64) (hfuel : records.length ≤ fuel) :
    ∃ result, paxOverrides fuel overrides (paxRecordsText records) = .ok result ∧
      ∀ k, PaxKey k → result.value k = (records.lookup k).or (overrides.value k) := by
  induction records generalizing overrides fuel with
  | nil => exact ⟨overrides, paxOverrides_end, fun k _ => rfl⟩
  | cons r records ih =>
    obtain ⟨fuel, rfl⟩ : ∃ n, fuel = n + 1 :=
      ⟨fuel - 1, by rw [List.length_cons] at hfuel; omega⟩
    rw [List.length_cons] at hfuel
    have hhead : PaxKey r.1 := hkeys r List.mem_cons_self
    have htext := hvalues r List.mem_cons_self
    have hcons : paxRecordsText (r :: records) =
        paxRecordText r.1 r.2 ++ paxRecordsText records := rfl
    rw [hcons, List.length_append] at hlength
    rw [List.map_cons, List.nodup_cons] at hnodup
    obtain ⟨next, hnext, hfound⟩ := addPaxOverride_record hhead htext.nonempty
      (hnew r List.mem_cons_self)
    have hfresh : ∀ s ∈ records, next.value s.1 = none := by
      intro s hs
      have hne : s.1 ≠ r.1 := fun h => hnodup.1 (h ▸ List.mem_map_of_mem hs)
      rw [hfound s.1 (hkeys s (List.mem_cons_of_mem r hs)), if_neg hne]
      exact hnew s (List.mem_cons_of_mem r hs)
    obtain ⟨result, hloop, hresult⟩ := ih (fun s hs => hkeys s (List.mem_cons_of_mem r hs))
      hnodup.2 (fun s hs => hvalues s (List.mem_cons_of_mem r hs)) hfresh (by omega)
      (Nat.le_of_succ_le_succ hfuel)
    refine ⟨result, ?_, fun k hk => ?_⟩
    · rw [hcons, paxOverrides_record hhead.noEquals htext (by omega), hnext]
      exact hloop
    · rw [hresult k hk, hfound k hk, List.lookup_cons]
      by_cases hkey : k = r.1
      · have hlookup : records.lookup k = none := by
          rw [List.lookup_eq_none_iff]
          intro s hs
          have hne : s.1 ≠ r.1 := fun h => hnodup.1 (h ▸ List.mem_map_of_mem hs)
          simpa [hkey] using hne.symm
        rw [hlookup, if_pos hkey, hkey]
        simp
      · have hdiffer : (k == r.1) = false := beq_eq_false_iff_ne.mpr hkey
        rw [if_neg hkey, hdiffer]

theorem length_le_paxRecordsText (records : List (String × Bytes)) :
    records.length ≤ (paxRecordsText records).length := by
  induction records with
  | nil => exact Nat.zero_le _
  | cons r records ih =>
    have hpos := List.length_pos_of_ne_nil (paxRecordText_ne_nil r.1 r.2)
    have hcons : paxRecordsText (r :: records) =
        paxRecordText r.1 r.2 ++ paxRecordsText records := rfl
    rw [hcons, List.length_append, List.length_cons]
    omega

/-- **The records of a list are parsed back as its values**, and the length of each counts its own
digits. -/
theorem pax_records_read_back (records : List (String × Bytes)) (hne : records ≠ [])
    (hkeys : ∀ r ∈ records, r.1 = "path" ∨ r.1 = "linkpath") (hnodup : (records.map Prod.fst).Nodup)
    (hvalues : ∀ r ∈ records, PaxText r.2) (hlength : (paxRecordsText records).length < 2 ^ 64) :
    (∀ r ∈ records, ∃ rounds length, (∀ more,
        paxLength ((ascii r.1).length + r.2.length + 3) (rounds + more)
          ((ascii r.1).length + r.2.length + 3 + 1) = length) ∧
      length = decimalDigits length + 1 + (ascii r.1).length + 1 + r.2.length + 1 ∧
      paxRecordText r.1 r.2 = natText length ++ 0x20 :: (ascii r.1 ++ 0x3d :: (r.2 ++ [0x0a]))) ∧
    parsePaxOverrides (paxRecordsText records) =
      .ok ⟨records.lookup "path", records.lookup "linkpath"⟩ := by
  refine ⟨fun r _ => length_record r.1 r.2, ?_⟩
  obtain ⟨result, hloop, hresult⟩ := @paxOverrides_list records ⟨none, none⟩ _ hkeys hnodup hvalues
    (fun r _ => ite_self _) hlength (length_le_paxRecordsText records)
  have hfound : result = ⟨records.lookup "path", records.lookup "linkpath"⟩ := by
    refine PaxOverrides.ext_value fun k hk => ?_
    rw [hresult k hk]
    rcases hk with rfl | rfl
    · exact Option.or_none
    · exact Option.or_none
  have hsome : (result.path.isSome || result.linkpath.isSome) = true := by
    obtain ⟨r, records, rfl⟩ := List.exists_cons_of_ne_nil hne
    rw [hfound]
    rcases hkeys r List.mem_cons_self with h | h
    · simp [h]
    · simp [h]
  unfold parsePaxOverrides
  rw [hloop, ← hfound]
  exact congrArg (fun x : Contract Unit => x.bind fun _ => .ok result) (check_true hsome)

/-- A target with the separators of the format in it, in front of a path. -/
theorem pax_records_separators :
    parsePaxOverrides (paxRecordsText [("linkpath", ascii "a=b c
d"), ("path", ascii "p")]) =
      .ok ⟨some (ascii "p"), some (ascii "a=b c
d")⟩ :=
  (pax_records_read_back [("linkpath", ascii "a=b c
d"), ("path", ascii "p")] (by simp) (by simp)
    (by decide) (by
      rw [List.forall_mem_cons, List.forall_mem_cons]
      exact ⟨⟨by decide, ⟨by decide, by decide⟩, by decide⟩, ⟨by decide, ⟨by decide, by decide⟩, by decide⟩, by simp⟩)
    (by decide +kernel)).2

/-- An extension without a record is refused. -/
theorem no_records : parsePaxOverrides (paxRecordsText []) =
    .error (.verification "package tar PAX extension contains no supported path metadata") := by
  decide

end Toolchain

end ArosTools
