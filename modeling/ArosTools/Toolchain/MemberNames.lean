import ArosTools.Toolchain.HeaderReading

/-!
# Names of members

A path of portable names is spelled with slashes between them, a directory's with one more at its
end. Such a name is canonical and is taken apart again into the same path
(`validateCanonicalArchivePath_archiveName`, `packageRelativePath_archiveName`), and the texts of two
paths are equal only if the paths are.
-/

namespace ArosTools

namespace Toolchain

/-! ### Portable names -/

/-- A name that every supported host can represent. -/
def portableName (value : Bytes) : Bool :=
  isUtf8 value && !unportable value && !reservedStem (deviceStem value)

theorem zero_notMem_of_hasControl {value : Bytes} (h : hasControl value = false) : 0 ∉ value := by
  induction value with
  | nil => exact List.not_mem_nil
  | cons b rest ih =>
    rw [hasControl, Bool.or_eq_false_iff] at h
    intro hmem
    rcases List.mem_cons.mp hmem with rfl | hmem
    · simp at h
    · exact ih h.2 hmem

/-- What a portable name is made of. -/
structure PortableName (value : Bytes) : Prop where
  nonempty : value ≠ []
  notCurrent : value ≠ ascii "."
  notParent : value ≠ ascii ".."
  noSlash : 0x2f ∉ value
  noBackslash : 0x5c ∉ value
  noZero : 0 ∉ value
  utf8 : isUtf8 value = true

theorem PortableName.of_portableName {value : Bytes} (h : portableName value = true) :
    PortableName value := by
  simp only [portableName, unportable, Bool.and_eq_true, Bool.not_eq_true', Bool.or_eq_false_iff,
    decide_eq_false_iff_not] at h
  obtain ⟨⟨hutf8, ⟨⟨⟨⟨⟨⟨⟨h₁, h₂⟩, h₃⟩, -⟩, -⟩, hcontrol⟩, hchars⟩, -⟩⟩, -⟩ := h
  have hchar : ∀ b, (ascii "<>:\"/\\|?*").contains b = true → b ∉ value := by
    intro b hb hmem
    have := List.any_eq_false.mp hchars b hmem
    exact this hb
  exact ⟨h₁, h₂, h₃, hchar 0x2f (by decide), hchar 0x5c (by decide),
    zero_notMem_of_hasControl hcontrol, hutf8⟩

/-- `payload_casefold_path_key` of a path that consists of names. -/
theorem payloadCasefoldPathKey_relativePath (foldName : Bytes → Bytes) (path : Path) :
    payloadCasefoldPathKey foldName (relativePath path) =
      if path ≠ [] ∧ path.all portableName = true then
        some ([0x2f].intercalate (path.map foldName)) else none := by
  have hmap : ∀ (f : Component → Option Bytes) (path : Path), (∀ value, f (.normal value) =
      if (!isUtf8 value || unportable value || reservedStem (deviceStem value)) = true then none
      else some (foldName value)) → (path.map Component.normal).mapM f =
        if path.all portableName = true then some (path.map foldName) else none := by
    intro f path hf
    induction path with
    | nil => rfl
    | cons name path ih =>
      rw [List.map_cons, List.mapM_cons, ih, List.all_cons, hf]
      by_cases hname : portableName name = true
      · have hneg : (!isUtf8 name || unportable name || reservedStem (deviceStem name)) = false := by
          simp only [portableName, Bool.and_eq_true, Bool.not_eq_true'] at hname
          simp [hname]
        by_cases hrest : path.all portableName = true
        · simp [hneg, hname, hrest]
        · simp [hneg, hname, hrest]
      · have hpos : (!isUtf8 name || unportable name || reservedStem (deviceStem name)) = true := by
          by_contra hnot
          simp only [Bool.not_eq_true, Bool.or_eq_false_iff, Bool.not_eq_false'] at hnot
          exact hname (by simp [portableName, hnot])
        simp [hpos, hname]
  rw [payloadCasefoldPathKey, relativePath]
  simp only [Bool.false_eq_true, if_false, bind, Option.bind]
  rw [hmap _ path fun value => rfl]
  by_cases hall : path.all portableName = true
  · by_cases hnil : path = []
    · rw [hnil]
      rfl
    · have hmapped : path.map foldName ≠ [] := by simpa using hnil
      simp only [hall, hnil, hmapped, if_true, if_false, ne_eq, not_false_eq_true, and_self]
  · simp only [hall, Bool.false_eq_true, if_false, and_false]

/-! ### Texts of paths -/

theorem pathText_cons {name : Name} {path : Path} (h : path ≠ []) :
    pathText (name :: path) = name ++ 0x2f :: pathText path := by
  rw [pathText, List.intercalate_cons_of_ne_nil h, List.append_assoc, List.singleton_append]
  rfl

theorem pathText_singleton (name : Name) : pathText [name] = name := List.intercalate_singleton

variable {path : Path}

theorem toStringLossy_pathText (h : ∀ name ∈ path, isUtf8 name = true) :
    toStringLossy (pathText path) = pathText path := by
  induction path with
  | nil => rfl
  | cons name path ih =>
    have hname : toStringLossy name = name := of_decide_eq_true (h name (.head _))
    by_cases hpath : path = []
    · rw [hpath, pathText_singleton, hname]
    · rw [pathText_cons hpath, toStringLossy_join (by decide), hname,
        ih fun n hn => h n (.tail _ hn)]

theorem splitOn_pathText (h : ∀ name ∈ path, PortableName name) (hne : path ≠ []) :
    (pathText path).splitOn 0x2f = path :=
  List.splitOn_intercalate 0x2f (fun name hname => (h name hname).noSlash) hne

/-- The text of a path determines it. -/
theorem pathText_inj {path' : Path} (h : ∀ name ∈ path, PortableName name)
    (h' : ∀ name ∈ path', PortableName name) (hne : path ≠ []) (hne' : path' ≠ [])
    (heq : pathText path = pathText path') : path = path' := by
  rw [← splitOn_pathText h hne, ← splitOn_pathText h' hne', heq]

theorem notMem_pathText {b : UInt8} (hb : b ≠ 0x2f) (h : ∀ name ∈ path, b ∉ name) :
    b ∉ pathText path := by
  induction path with
  | nil => exact List.not_mem_nil
  | cons name path ih =>
    have hname := h name (.head _)
    by_cases hpath : path = []
    · rw [hpath, pathText_singleton]
      exact hname
    · rw [pathText_cons hpath, List.mem_append, List.mem_cons, not_or, not_or]
      exact ⟨hname, hb, ih fun n hn => h n (.tail _ hn)⟩

theorem head_pathText {name : Name} (h : PortableName name) :
    (pathText (name :: path)).head? = name.head? := by
  by_cases hpath : path = []
  · rw [hpath, pathText_singleton]
  · obtain ⟨b, rest, hname⟩ := List.exists_cons_of_ne_nil h.nonempty
    rw [pathText_cons hpath, hname]
    rfl

theorem head_ne_slash {name : Name} (h : PortableName name) : name.head? ≠ some 0x2f := by
  intro hhead
  exact h.noSlash (List.mem_of_mem_head? hhead)

theorem pathText_ne_nil (h : ∀ name ∈ path, PortableName name) (hne : path ≠ []) :
    pathText path ≠ [] := by
  obtain ⟨name, rest, rfl⟩ := List.exists_cons_of_ne_nil hne
  have hname := h name (.head _)
  intro hnil
  have hhead := @head_pathText rest _ hname
  rw [hnil] at hhead
  exact hname.nonempty (List.head?_eq_none_iff.mp hhead.symm)

theorem getLast_pathText (h : ∀ name ∈ path, PortableName name) :
    (pathText path).getLast? ≠ some 0x2f := by
  induction path with
  | nil => nofun
  | cons name path ih =>
    have hname := h name (.head _)
    by_cases hpath : path = []
    · rw [hpath, pathText_singleton]
      intro hlast
      exact hname.noSlash (List.mem_of_mem_getLast? hlast)
    · have hne : pathText path ≠ [] := pathText_ne_nil (fun n hn => h n (.tail _ hn)) hpath
      rw [pathText_cons hpath, List.getLast?_append, List.getLast?_cons]
      obtain ⟨b, hb⟩ : ∃ b, (pathText path).getLast? = some b :=
        Option.ne_none_iff_exists'.mp (by simpa using hne)
      rw [hb]
      have := ih fun n hn => h n (.tail _ hn)
      rw [hb] at this
      simpa using this

theorem hasDoubleSlash_append {a b : Bytes} (ha : 0x2f ∉ a) :
    hasDoubleSlash (a ++ b) = hasDoubleSlash b := by
  induction a with
  | nil => rfl
  | cons c a ih =>
    rw [List.mem_cons, not_or] at ha
    rw [List.cons_append, hasDoubleSlash, ih ha.2]
    simp [Ne.symm ha.1]

/-- A slash at the end or none. -/
theorem hasDoubleSlash_pathText (h : ∀ name ∈ path, PortableName name) {tail : Bytes}
    (htail : tail = [] ∨ tail = [0x2f]) : hasDoubleSlash (pathText path ++ tail) = false := by
  have htail' : hasDoubleSlash tail = false := by rcases htail with rfl | rfl <;> rfl
  induction path with
  | nil => exact htail'
  | cons name path ih =>
    have hname := h name (.head _)
    by_cases hpath : path = []
    · rw [hpath, pathText_singleton, hasDoubleSlash_append hname.noSlash, htail']
    · obtain ⟨n, rest, rfl⟩ := List.exists_cons_of_ne_nil hpath
      have hn := h n (.tail _ (.head _))
      have hhead : (pathText (n :: rest) ++ tail).head? ≠ some 0x2f := by
        have hne : pathText (n :: rest) ≠ [] :=
          pathText_ne_nil (fun m hm => h m (.tail _ hm)) hpath
        rw [List.head?_append_of_ne_nil _ hne, head_pathText hn]
        exact head_ne_slash hn
      rw [pathText_cons hpath, List.append_assoc, hasDoubleSlash_append hname.noSlash,
        List.cons_append, hasDoubleSlash, ih fun m hm => h m (.tail _ hm), decide_eq_false hhead,
        Bool.and_false, Bool.or_false]

/-! ### Names in an archive -/

/-- The slash at the end of a directory's name. -/
def directorySlash (isDirectory : Bool) : Bytes := if isDirectory then [0x2f] else []

theorem directorySlash_cases (isDirectory : Bool) :
    directorySlash isDirectory = [] ∨ directorySlash isDirectory = [0x2f] := by
  cases isDirectory
  · exact .inl rfl
  · exact .inr rfl

section

variable {root : Name} {isDirectory : Bool}

theorem archiveName_eq (h : ∀ name ∈ root :: path, PortableName name)
    (hroot : path = [] → isDirectory = true) :
    archiveName root path isDirectory = pathText (root :: path) ++ directorySlash isDirectory := by
  by_cases hpath : path = []
  · have hlast : (root ++ [0x2f]).getLast? = some 0x2f := by rw [List.getLast?_append]; rfl
    have hempty : toStringLossy (pathText []) = [] := rfl
    rw [archiveName, hroot hpath, hpath, hempty, pathText_singleton]
    simp only [hlast, ne_eq, not_true_eq_false, decide_false, Bool.and_false, Bool.false_eq_true,
      if_false]
    rfl
  · have htext : root ++ 0x2f :: toStringLossy (pathText path) = pathText (root :: path) := by
      rw [toStringLossy_pathText fun name hname => (h name (.tail _ hname)).utf8,
        pathText_cons hpath]
    have hlast := getLast_pathText h
    rw [archiveName]
    simp only [htext]
    cases isDirectory with
    | false => exact (List.append_nil _).symm
    | true => simp only [hlast, ne_eq, not_false_eq_true, decide_true, Bool.and_self, if_true]; rfl

/-- What the scanner and the header ask of the text of a name. -/
theorem paxText_name (h : ∀ name ∈ root :: path, PortableName name) :
    PaxText (pathText (root :: path) ++ directorySlash isDirectory) := by
  have hslash : ∀ b : UInt8, b ≠ 0x2f → b ∉ directorySlash isDirectory := by
    intro b hb hmem
    rcases directorySlash_cases isDirectory with hnil | hone
    · rw [hnil] at hmem
      cases hmem
    · rw [hone] at hmem
      exact hb (List.mem_singleton.mp hmem)
  refine ⟨?_, ⟨?_, ?_⟩, ?_⟩
  · intro hnil
    exact pathText_ne_nil h (List.cons_ne_nil _ _) (List.append_eq_nil_iff.mp hnil).1
  · rw [List.mem_append, not_or]
    exact ⟨notMem_pathText (by decide) fun name hname => (h name hname).noZero,
      hslash _ (by decide)⟩
  · rw [List.mem_append, not_or]
    exact ⟨notMem_pathText (by decide) fun name hname => (h name hname).noBackslash,
      hslash _ (by decide)⟩
  · have htext := toStringLossy_pathText fun name hname => (h name hname).utf8
    rcases directorySlash_cases isDirectory with hnil | hone
    · rw [hnil, List.append_nil]
      exact decide_eq_true htext
    · rw [hone]
      refine decide_eq_true ?_
      rw [toStringLossy_join (by decide), htext]
      rfl

/-- **A name is canonical.** -/
theorem validateCanonicalArchivePath_name {kind : UInt8}
    (h : ∀ name ∈ root :: path, PortableName name) :
    validateCanonicalArchivePath (pathText (root :: path) ++ directorySlash (kind = 0x35)) kind
      root = .ok () := by
  have hpax := @paxText_name _ _ (decide (kind = 0x35)) h
  have hne := pathText_ne_nil h (List.cons_ne_nil _ _)
  have hhead : (pathText (root :: path) ++ directorySlash (kind = 0x35)).head? ≠ some 0x2f := by
    rw [List.head?_append_of_ne_nil _ hne, head_pathText (h root (.head _))]
    exact head_ne_slash (h root (.head _))
  have hclean : (pathText (root :: path) ++ directorySlash (kind = 0x35)).any
      (fun b => decide (b = 0x5c) || decide (b = 0)) = false := by
    rw [List.any_eq_false]
    intro b hb
    have h₁ : b ≠ 0x5c := fun heq => hpax.text.2 (heq ▸ hb)
    have h₂ : b ≠ 0 := fun heq => hpax.text.1 (heq ▸ hb)
    simp [h₁, h₂]
  have hdouble := hasDoubleSlash_pathText h (directorySlash_cases (decide (kind = 0x35)))
  have htrailing : (decide (kind = 0x35) || !decide
      ((pathText (root :: path) ++ directorySlash (kind = 0x35)).getLast? = some 0x2f)) = true := by
    by_cases hkind : kind = 0x35
    · simp [hkind]
    · have hlast := getLast_pathText h
      simp only [hkind, decide_false, Bool.false_or, directorySlash, Bool.false_eq_true, if_false,
        List.append_nil, Bool.not_eq_true', decide_eq_false_iff_not]
      exact hlast
  have hbare : (if (decide (kind = 0x35) && decide ((pathText (root :: path) ++
      directorySlash (kind = 0x35)).getLast? = some 0x2f)) = true then
        (pathText (root :: path) ++ directorySlash (kind = 0x35)).dropLast
      else pathText (root :: path) ++ directorySlash (kind = 0x35)) = pathText (root :: path) := by
    by_cases hkind : kind = 0x35
    · have hslash : directorySlash (decide (kind = 0x35)) = [0x2f] := by rw [decide_eq_true hkind]; rfl
      rw [hslash, if_pos (by simp [hkind]), List.dropLast_concat]
    · have hslash : directorySlash (decide (kind = 0x35)) = [] := by rw [decide_eq_false hkind]; rfl
      rw [hslash, if_neg (by simp [hkind]), List.append_nil]
  have hpieces : (!(root :: path).any (fun piece => decide (piece = []) ||
      decide (piece = ascii ".") || decide (piece = ascii "..")) &&
      decide ((root :: path).head? = some root)) = true := by
    rw [Bool.and_eq_true, Bool.not_eq_true', List.any_eq_false]
    refine ⟨fun piece hpiece => ?_, decide_eq_true rfl⟩
    have hname := h piece hpiece
    simp [hname.nonempty, hname.notCurrent, hname.notParent]
  unfold validateCanonicalArchivePath
  rw [check_true hpax.utf8]
  simp only [bind, Except.bind]
  rw [check_true (by
    simp only [htrailing, hdouble, hclean, hpax.nonempty, hhead, ne_eq, not_false_eq_true,
      decide_true, Bool.not_false, Bool.and_true])]
  simp only [hbare, splitOn_pathText h (List.cons_ne_nil _ _)]
  exact check_true hpieces

theorem ofBytes_name (h : ∀ name ∈ root :: path, PortableName name) :
    PathBuf.ofBytes (pathText (root :: path) ++ directorySlash isDirectory) =
      relativePath (root :: path) := by
  have hnormal : ∀ (first : Bool) {name : Name}, PortableName name →
      PathBuf.component? first name = some (.normal name) := by
    intro first name hname
    simp [PathBuf.component?, hname.nonempty, hname.notCurrent, hname.notParent]
  have hhead : (pathText (root :: path) ++ directorySlash isDirectory).head? ≠ some 0x2f := by
    rw [List.head?_append_of_ne_nil _ (pathText_ne_nil h (List.cons_ne_nil _ _)),
      head_pathText (h root (.head _))]
    exact head_ne_slash (h root (.head _))
  have hsplit : (pathText (root :: path) ++ directorySlash isDirectory).splitOn 0x2f =
      root :: (path ++ if isDirectory then [[]] else []) := by
    cases isDirectory with
    | false =>
      rw [directorySlash, if_neg (by decide), List.append_nil,
        splitOn_pathText h (List.cons_ne_nil _ _)]
      simp
    | true =>
      rw [directorySlash, if_pos rfl, List.splitOn_append_cons_self,
        splitOn_pathText h (List.cons_ne_nil _ _)]
      rfl
  have hrest : (path ++ if isDirectory then [[]] else []).filterMap (PathBuf.component? false) =
      path.map .normal := by
    have hlast : (if isDirectory then [([] : Bytes)] else []).filterMap
        (PathBuf.component? false) = [] := by
      cases isDirectory <;> rfl
    rw [List.filterMap_append, hlast, List.append_nil]
    clear hsplit hhead hlast
    induction path with
    | nil => rfl
    | cons name path ih =>
      rw [List.filterMap_cons_some (hnormal false (h name (.tail _ (.head _))))]
      rw [ih fun n hn => h n (by
        rcases List.mem_cons.mp hn with rfl | hn
        · exact .head _
        · exact .tail _ (.tail _ hn))]
      rfl
  rw [PathBuf.ofBytes, hsplit]
  simp only [hrest, hnormal true (h root (.head _)), relativePath]
  rw [beq_false_of_ne hhead]
  rfl

/-- **A name is taken apart into the path it was made of.** -/
theorem packageRelativePath_name (h : ∀ name ∈ root :: path, PortableName name) :
    packageRelativePath (PathBuf.ofBytes (pathText (root :: path) ++ directorySlash isDirectory))
      root = .ok (if path = [] then none else some path) := by
  have hnames : (relativePath (root :: path)).names? = some (root :: path) := by
    have : ∀ names : Path, (relativePath names).names? = some names := by
      intro names
      rw [PathBuf.names?, relativePath]
      induction names with
      | nil => rfl
      | cons name names ih =>
        simp only at ih
        rw [List.map_cons, List.mapM_cons, ih]
        rfl
    exact this _
  have habsolute : (relativePath (root :: path)).absolute = false := rfl
  rw [ofBytes_name h, packageRelativePath, habsolute, hnames]
  simp [check, require, bind, Except.bind, pure, Except.pure]

end

end Toolchain

end ArosTools
