import ArosTools.Graph.Dfs
import ArosTools.Transpiler.MetaCycles
import Mathlib.Algebra.Order.BigOperators.Group.List
import Mathlib.Algebra.Order.Group.Nat
import Mathlib.Algebra.GroupWithZero.Nat

/-!
# The components that the search finds

The nodes on the stack lie in segments, one for each node on the path of the search: the nodes
above a path node, up to the next one, are those that the search has left and that lie in the
component of the path node. `Searching` is the invariant between two rounds, with the segments as
`Segments`.

* `Searching.visit`, `Searching.follow`, `Searching.close`, `Searching.merge` : what the parts of a
  round do to it.
* `component_eq_iff` : two nodes get the same label exactly if each reaches the other.
-/

namespace ArosTools

namespace Generator

open Relation ArosTools.Graph

namespace Scc

variable {edges : ℕ → List ℕ} {s : Scc} {path : List (ℕ × ℕ)} {pending : Option ℕ}

/-! ### The invariant -/

/-- One node reaches another. -/
abbrev Reach (edges : ℕ → List ℕ) : ℕ → ℕ → Prop := ReflTransGen (Succ edges)

/-- A node of the path, of whose edges the first `child` have been followed, with the nodes above
it on the stack. -/
structure Entry (edges : ℕ → List ℕ) (s : Scc) (pending : Option ℕ) (node child : ℕ)
    (above : List ℕ) : Prop where
  joined : ∀ v ∈ above, Mutual (Succ edges) v node
  followed : ∀ v w, (v ∈ above ∧ w ∈ edges v) ∨ (v = node ∧ w ∈ (edges node).take child) →
    s.component w ≠ none ∨ (w ∈ s.stack ∧ s.low node ≤ s.ord w) ∨ pending = some w
  low_le : s.low node ≤ s.ord node
  low_mem : ∃ x ∈ s.stack, s.ord x = s.low node ∧ Reach edges node x

/-- The stack, in one segment for each node of the path. -/
inductive Segments (edges : ℕ → List ℕ) (s : Scc) (pending : Option ℕ) :
    List (ℕ × ℕ) → List ℕ → Prop
  | nil : Segments edges s pending [] []
  | cons {node child : ℕ} {above : List ℕ} {path : List (ℕ × ℕ)} {below : List ℕ} :
      Entry edges s pending node child above → Segments edges s pending path below →
      Segments edges s pending ((node, child) :: path) (above ++ node :: below)

/-- The state of the search with the nodes of `path` entered, before it comes to `pending`. -/
structure Searching (edges : ℕ → List ℕ) (s : Scc) (path : List (ℕ × ℕ)) (pending : Option ℕ) :
    Prop where
  segments : Segments edges s pending path s.stack
  linked : path.Pairwise fun a b => Reach edges b.1 a.1
  sorted : s.stack.Pairwise fun a b => s.ord b < s.ord a
  onStack : ∀ v, s.onStack v = true ↔ v ∈ s.stack
  visited : ∀ v, s.order v ≠ none ↔ v ∈ s.stack ∨ s.component v ≠ none
  open_of_mem : ∀ v ∈ s.stack, s.component v = none
  fresh : ∀ v i, s.order v = some i → i < s.nextOrder
  closed : ∀ u k, s.component u = some k → k < s.nextComponent ∧
    ∀ w ∈ edges u, ∃ k' ≤ k, s.component w = some k'
  same : ∀ u v k, s.component u = some k → s.component v = some k → Mutual (Succ edges) u v
  waiting : ∀ v, pending = some v → s.order v = none ∧ ∀ a ∈ path, Reach edges a.1 v

/-! ### Segments -/

theorem segments_cons {node child : ℕ} {stack : List ℕ} :
    Segments edges s pending ((node, child) :: path) stack ↔
      ∃ above below, stack = above ++ node :: below ∧ Entry edges s pending node child above ∧
        Segments edges s pending path below := by
  constructor
  · rintro ⟨⟩
    next above below hhead htail => exact ⟨above, below, rfl, hhead, htail⟩
  · rintro ⟨above, below, rfl, hhead, htail⟩
    exact .cons hhead htail

/-- Segments do not depend on what they do not mention. -/
theorem Segments.mono {s' : Scc} {pending' : Option ℕ} {stack : List ℕ}
    (h : Segments edges s pending path stack)
    (hentry : ∀ node child above, node ∈ stack → Entry edges s pending node child above →
      Entry edges s' pending' node child above) : Segments edges s' pending' path stack := by
  induction h with
  | nil => exact .nil
  | cons hhead _ ih =>
    refine .cons (hentry _ _ _ (by simp) hhead) (ih fun node child above hnode => ?_)
    exact hentry node child above (by simp [hnode])

/-- Every node on the stack reaches the node on top of the path. -/
theorem Segments.reach_top {stack : List ℕ} {node child : ℕ}
    (h : Segments edges s pending ((node, child) :: path) stack)
    (hlinked : ((node, child) :: path).Pairwise fun a b => Reach edges b.1 a.1) :
    ∀ x ∈ stack, Reach edges x node := by
  -- Induction over the path below, for the reach of the bottom of each segment.
  have hall : ∀ {path : List (ℕ × ℕ)} {stack : List ℕ}, Segments edges s pending path stack →
      ∀ x ∈ stack, ∃ a ∈ path, Reach edges x a.1 := by
    intro path stack h
    induction h with
    | nil => intro x hx; cases hx
    | @cons node child above path below hhead _ ih =>
      intro x hx
      rcases List.mem_append.mp hx with hx | hx
      · exact ⟨(node, child), by simp, (hhead.joined x hx).1⟩
      · rcases List.mem_cons.mp hx with rfl | hx
        · exact ⟨(x, child), by simp, .refl⟩
        · obtain ⟨a, ha, hreach⟩ := ih x hx
          exact ⟨a, by simp [ha], hreach⟩
  intro x hx
  obtain ⟨a, ha, hreach⟩ := hall h x hx
  rcases List.mem_cons.mp ha with rfl | ha
  · exact hreach
  · exact hreach.trans ((List.pairwise_cons.mp hlinked).1 a ha)

namespace Searching

theorem ord_eq {v i : ℕ} (h : s.order v = some i) : s.ord v = i := by rw [ord, h]; rfl

theorem nodup (h : Searching edges s path pending) : s.stack.Nodup :=
  h.sorted.imp fun hlt heq => by rw [heq] at hlt; exact Nat.lt_irrefl _ hlt

theorem order_ne_none (h : Searching edges s path pending) {v : ℕ} (hv : v ∈ s.stack) :
    s.order v ≠ none := (h.visited v).mpr (.inl hv)

theorem ord_lt (h : Searching edges s path pending) {v : ℕ} (hv : v ∈ s.stack) :
    s.ord v < s.nextOrder := by
  obtain ⟨i, hi⟩ := Option.ne_none_iff_exists'.mp (h.order_ne_none hv)
  rw [ord_eq hi]
  exact h.fresh v i hi

/-- The work list is not part of the invariant. -/
theorem setWork (h : Searching edges s path pending) (work : List (ℕ × ℕ)) :
    Searching edges { s with work := work } path pending :=
  { h with segments := h.segments.mono fun _ _ _ _ he => ⟨he.joined, he.followed, he.low_le, he.low_mem⟩ }

/-! ### Coming to a node -/

theorem ord_visit_of_ne {v w : ℕ} (hw : w ≠ v) : (s.visit v).ord w = s.ord w := by
  simp [ord, Scc.visit, Function.update_of_ne hw]

theorem ord_visit (v : ℕ) : (s.visit v).ord v = s.nextOrder := by
  simp [ord, Scc.visit]

/-- The search comes to the node it was about to come to. -/
theorem visit {v : ℕ} (h : Searching edges s path (some v)) :
    Searching edges (s.visit v) ((v, 0) :: path) none := by
  obtain ⟨hnew, hreach⟩ := h.waiting v rfl
  have hne : ∀ w ∈ s.stack, w ≠ v := by
    rintro w hw rfl
    exact h.order_ne_none hw hnew
  have hlow : ∀ w, w ≠ v → (s.visit v).low w = s.low w := fun w hw => by
    simp [Scc.visit, Function.update_of_ne hw]
  have hopen : s.component v = none := by
    by_contra hcomponent
    exact (h.visited v).mpr (.inr hcomponent) hnew
  constructor
  case segments =>
    refine .cons (⟨by simp, by simp, ?_, ?_⟩ : Entry edges (s.visit v) none v 0 [])
      (h.segments.mono ?_)
    · rw [ord_visit]
      simp [Scc.visit]
    · refine ⟨v, by simp [Scc.visit], ?_, .refl⟩
      rw [ord_visit]
      simp [Scc.visit]
    · intro node child above hnode he
      have hnodev := hne node hnode
      refine ⟨he.joined, fun u w huw => ?_, ?_, ?_⟩
      · rcases he.followed u w huw with hc | ⟨hw, hle⟩ | hw
        · exact .inl hc
        · refine .inr (.inl ⟨List.mem_cons_of_mem _ hw, ?_⟩)
          rw [hlow node hnodev, ord_visit_of_ne (hne w hw)]
          exact hle
        · obtain rfl : v = w := Option.some.inj hw
          refine .inr (.inl ⟨List.mem_cons_self, ?_⟩)
          rw [hlow node hnodev, ord_visit]
          exact (he.low_le.trans_lt (h.ord_lt hnode)).le
      · rw [hlow node hnodev, ord_visit_of_ne hnodev]
        exact he.low_le
      · obtain ⟨x, hx, hord, hpath⟩ := he.low_mem
        exact ⟨x, List.mem_cons_of_mem _ hx,
          by rw [ord_visit_of_ne (hne x hx), hlow node hnodev, hord], hpath⟩
  case linked => exact List.pairwise_cons.mpr ⟨fun a ha => hreach a ha, h.linked⟩
  case sorted =>
    refine List.pairwise_cons.mpr ⟨fun w hw => ?_, h.sorted.imp_of_mem fun hx hy hlt => ?_⟩
    · rw [ord_visit, ord_visit_of_ne (hne w hw)]
      exact h.ord_lt hw
    · rw [ord_visit_of_ne (hne _ hx), ord_visit_of_ne (hne _ hy)]
      exact hlt
  case onStack =>
    intro w
    by_cases hw : w = v
    · simp [Scc.visit, hw]
    · simpa [Scc.visit, Function.update_of_ne hw, hw] using h.onStack w
  case visited =>
    intro w
    by_cases hw : w = v
    · simp [Scc.visit, hw]
    · simpa [Scc.visit, Function.update_of_ne hw, hw] using h.visited w
  case open_of_mem =>
    intro w hw
    rcases List.mem_cons.mp hw with rfl | hw
    · exact hopen
    · exact h.open_of_mem w hw
  case fresh =>
    intro w i hi
    by_cases hw : w = v
    · obtain rfl : s.nextOrder = i := by simpa [Scc.visit, hw] using hi
      exact Nat.lt_succ_self _
    · have := h.fresh w i (by simpa [Scc.visit, Function.update_of_ne hw] using hi)
      exact this.trans (Nat.lt_succ_self _)
  case closed => exact h.closed
  case same => exact h.same
  case waiting => exact nofun

/-! ### Following an edge -/

/-- The edge of the top node has been followed to a node that is assigned, on the stack, or the next
to come to. -/
theorem advance {node child next : ℕ} {pending' : Option ℕ}
    (h : Searching edges s ((node, child) :: path) none)
    (hnext : (edges node)[child]? = some next)
    (hcase : s.component next ≠ none ∨ (next ∈ s.stack ∧ s.low node ≤ s.ord next) ∨
      pending' = some next)
    (hwaiting : ∀ v, pending' = some v → v = next ∧ s.order v = none) :
    Searching edges s ((node, child + 1) :: path) pending' := by
  have hedge : Succ edges node next := List.mem_of_getElem? hnext
  have hweaken : ∀ node child above, Entry edges s none node child above →
      Entry edges s pending' node child above := fun _ _ _ he =>
    ⟨he.joined, fun v w hvw => (he.followed v w hvw).imp id (Or.imp id nofun), he.low_le, he.low_mem⟩
  refine { h with segments := ?_, linked := ?_, waiting := ?_ }
  · obtain ⟨above, below, hstack, hhead, htail⟩ := segments_cons.mp h.segments
    refine segments_cons.mpr ⟨above, below, hstack,
      ⟨hhead.joined, fun v w hvw => ?_, hhead.low_le, hhead.low_mem⟩,
      htail.mono fun _ _ _ _ he => hweaken _ _ _ he⟩
    rcases hvw with hvw | ⟨rfl, hw⟩
    · exact (hweaken _ _ _ hhead).followed v w (.inl hvw)
    · rw [List.take_add_one, hnext] at hw
      rcases List.mem_append.mp hw with hw | hw
      · exact (hweaken _ _ _ hhead).followed v w (.inr ⟨rfl, hw⟩)
      · obtain rfl : w = next := by simpa using hw
        exact hcase
  · obtain ⟨hhead, htail⟩ := List.pairwise_cons.mp h.linked
    exact List.pairwise_cons.mpr ⟨hhead, htail⟩
  · intro v hv
    obtain ⟨rfl, hnew⟩ := hwaiting v hv
    refine ⟨hnew, fun a ha => ?_⟩
    rcases List.mem_cons.mp ha with rfl | ha
    · exact .single hedge
    · exact ((List.pairwise_cons.mp h.linked).1 a ha).tail hedge

/-- The low number of the top node is lowered to that of a node on the stack it reaches. -/
theorem relow {node child x : ℕ} (h : Searching edges s ((node, child) :: path) pending)
    (hx : x ∈ s.stack) (hreach : Reach edges node x) (hle : s.ord x ≤ s.low node) :
    Searching edges { s with low := Function.update s.low node (s.ord x) }
      ((node, child) :: path) pending := by
  refine { h with segments := ?_ }
  obtain ⟨above, below, hstack, hhead, htail⟩ := segments_cons.mp h.segments
  have hself : Function.update s.low node (s.ord x) node = s.ord x := Function.update_self _ _ _
  refine segments_cons.mpr ⟨above, below, hstack, ⟨hhead.joined, fun v w hvw => ?_, ?_, ?_⟩,
    htail.mono fun other child' above' hother he => ?_⟩
  · rcases hhead.followed v w hvw with hc | ⟨hw, hlow⟩ | hw
    · exact .inl hc
    · exact .inr (.inl ⟨hw, hself.le.trans (hle.trans hlow)⟩)
    · exact .inr (.inr hw)
  · exact hself.le.trans (hle.trans hhead.low_le)
  · exact ⟨x, hx, hself.symm, hreach⟩
  · have hne : other ≠ node := by
      rintro rfl
      have hnodup := h.nodup
      rw [hstack] at hnodup
      exact (List.nodup_cons.mp (List.nodup_append.mp hnodup).2.1).1 hother
    have hlow : Function.update s.low node (s.ord x) other = s.low other :=
      Function.update_of_ne hne _ _
    refine ⟨he.joined, fun v w hvw => ?_, hlow.le.trans he.low_le, ?_⟩
    · rcases he.followed v w hvw with hc | ⟨hw, hle⟩ | hw
      · exact .inl hc
      · exact .inr (.inl ⟨hw, hlow.le.trans hle⟩)
      · exact .inr (.inr hw)
    · obtain ⟨y, hy, hord, hpath⟩ := he.low_mem
      exact ⟨y, hy, hord.trans hlow.symm, hpath⟩

/-! ### Leaving a node -/

/-- What lies on the stack at or above a node of the path is not older than it. -/
theorem le_ord_of_above {node child : ℕ} {above below : List ℕ}
    (h : Searching edges s ((node, child) :: path) pending)
    (hstack : s.stack = above ++ node :: below) {v : ℕ} (hv : v ∈ above ∨ v = node) :
    s.ord node ≤ s.ord v := by
  rcases hv with hv | rfl
  · have hsorted := h.sorted
    rw [hstack] at hsorted
    exact ((List.pairwise_append.mp hsorted).2.2 v hv node (by simp)).le
  · exact Nat.le_refl _

theorem ord_lt_of_below {node child : ℕ} {above below : List ℕ}
    (h : Searching edges s ((node, child) :: path) pending)
    (hstack : s.stack = above ++ node :: below) {v : ℕ} (hv : v ∈ below) :
    s.ord v < s.ord node := by
  have hsorted := h.sorted
  rw [hstack] at hsorted
  exact (List.pairwise_cons.mp (List.pairwise_append.mp hsorted).2.1).1 v hv

theorem mem_stack {node v : ℕ} {above below : List ℕ} (hstack : s.stack = above ++ node :: below) :
    v ∈ s.stack ↔ (v ∈ above ∨ v = node) ∨ v ∈ below := by
  rw [hstack, List.mem_append, List.mem_cons, or_assoc]

/-- The edges of a node that is left, and of those above it, have all been followed. -/
theorem followed_all {node child : ℕ} {above : List ℕ} (he : Entry edges s none node child above)
    (hall : (edges node).length ≤ child) {v w : ℕ} (hv : v ∈ above ∨ v = node) (hw : w ∈ edges v) :
    s.component w ≠ none ∨ (w ∈ s.stack ∧ s.low node ≤ s.ord w) := by
  have hfollowed : s.component w ≠ none ∨ (w ∈ s.stack ∧ s.low node ≤ s.ord w) ∨
      none = some w := by
    rcases hv with hv | rfl
    · exact he.followed v w (.inl ⟨hv, hw⟩)
    · exact he.followed v w (.inr ⟨rfl, by rwa [List.take_of_length_le hall]⟩)
  exact hfollowed.imp id fun h => h.resolve_right nofun

theorem popMembers_eq {label root : ℕ} {above : List ℕ} (hroot : root ∉ above) (below : List ℕ)
    (onStack : ℕ → Bool) (component : ℕ → Option ℕ) :
    popMembers label root (above ++ root :: below) onStack component =
      (below, fun v => if v ∈ above ∨ v = root then false else onStack v,
        fun v => if v ∈ above ∨ v = root then some label else component v) := by
  induction above generalizing onStack component with
  | nil =>
    rw [List.nil_append, popMembers, if_pos rfl]
    congr 2 <;> funext v <;> by_cases hv : v = root <;> simp [hv]
  | cons member above ih =>
    obtain ⟨hmember, hroot⟩ := not_or.mp (mt List.mem_cons.mpr hroot)
    rw [List.cons_append, popMembers, if_neg (Ne.symm hmember), ih hroot]
    congr 2 <;> funext v <;> by_cases hv : v = member <;> simp [hv]

/-- The root of a component is left: its segment becomes the component. -/
theorem close {node child : ℕ} (h : Searching edges s ((node, child) :: path) none)
    (hall : (edges node).length ≤ child) (hlow : s.low node = s.ord node) :
    Searching edges (s.close node) path none := by
  obtain ⟨above, below, hstack, hhead, htail⟩ := segments_cons.mp h.segments
  have hnodup := h.nodup
  rw [hstack] at hnodup
  obtain ⟨-, hbelow, habove⟩ := List.nodup_append.mp hnodup
  have hnode : node ∉ above := fun hmem => habove node hmem node (by simp) rfl
  have hdisjoint : ∀ v ∈ below, ¬ (v ∈ above ∨ v = node) := by
    rintro v hv (hmem | rfl)
    · exact habove v hmem v (by simp [hv]) rfl
    · exact (List.nodup_cons.mp hbelow).1 hv
  have hclose : s.close node =
      { s with
        stack := below
        onStack := fun v => if v ∈ above ∨ v = node then false else s.onStack v
        component := fun v => if v ∈ above ∨ v = node then some s.nextComponent else s.component v
        nextComponent := s.nextComponent + 1 } := by
    rw [Scc.close, hstack, popMembers_eq hnode]
  -- A node that is assigned already is not on the stack, so it keeps its label.
  have hkept : ∀ v, s.component v ≠ none → ¬ (v ∈ above ∨ v = node) := fun v hv hmem =>
    hv (h.open_of_mem v ((mem_stack hstack).mpr (.inl hmem)))
  rw [hclose]
  constructor
  case segments =>
    refine htail.mono fun other child' above' hother he => ?_
    have hlt := h.ord_lt_of_below hstack hother
    refine ⟨he.joined, fun v w hvw => ?_, he.low_le, ?_⟩
    · rcases he.followed v w hvw with hc | ⟨hw, hle⟩ | hw
      · refine .inl ?_
        simp only [if_neg (hkept w hc)]
        exact hc
      · rcases (mem_stack hstack).mp hw with hmem | hmem
        · exact .inl (by simp [if_pos hmem])
        · exact .inr (.inl ⟨hmem, hle⟩)
      · cases hw
    · obtain ⟨x, hx, hord, hpath⟩ := he.low_mem
      refine ⟨x, ?_, hord, hpath⟩
      rcases (mem_stack hstack).mp hx with hmem | hmem
      · have := h.le_ord_of_above hstack hmem
        have := he.low_le
        omega
      · exact hmem
  case linked => exact (List.pairwise_cons.mp h.linked).2
  case sorted =>
    have hsorted := h.sorted
    rw [hstack] at hsorted
    exact (List.pairwise_cons.mp (List.pairwise_append.mp hsorted).2.1).2
  case onStack =>
    intro v
    by_cases hv : v ∈ above ∨ v = node
    · simp only [if_pos hv, Bool.false_eq_true, false_iff]
      exact fun hmem => hdisjoint v hmem hv
    · simp only [if_neg hv]
      rw [h.onStack v, mem_stack hstack]
      exact ⟨fun h => h.resolve_left hv, .inr⟩
  case visited =>
    intro v
    by_cases hv : v ∈ above ∨ v = node
    · simp only [if_pos hv, (h.visited v).mpr (.inl ((mem_stack hstack).mpr (.inl hv))), ne_eq,
        not_false_eq_true, reduceCtorEq, or_true]
    · simp only [if_neg hv]
      rw [h.visited v, mem_stack hstack]
      simp only [hv, false_or]
  case open_of_mem =>
    intro v hv
    simp only [if_neg (hdisjoint v hv)]
    exact h.open_of_mem v ((mem_stack hstack).mpr (.inr hv))
  case fresh => exact h.fresh
  case closed =>
    intro u k hu
    by_cases hmem : u ∈ above ∨ u = node
    · simp only [if_pos hmem, Option.some.injEq] at hu
      subst hu
      refine ⟨Nat.lt_succ_self _, fun w hw => ?_⟩
      by_cases hwmem : w ∈ above ∨ w = node
      · exact ⟨s.nextComponent, Nat.le_refl _, if_pos hwmem⟩
      · rcases followed_all hhead hall hmem hw with hc | ⟨hwstack, hle⟩
        · obtain ⟨k', hk'⟩ := Option.ne_none_iff_exists'.mp hc
          exact ⟨k', (h.closed w k' hk').1.le, by simp only [if_neg hwmem]; exact hk'⟩
        · have hbelow := ((mem_stack hstack).mp hwstack).resolve_left hwmem
          have := h.ord_lt_of_below hstack hbelow
          omega
    · simp only [if_neg hmem] at hu
      obtain ⟨hk, hedges⟩ := h.closed u k hu
      refine ⟨Nat.lt_succ_of_lt hk, fun w hw => ?_⟩
      obtain ⟨k', hk', hcomponent⟩ := hedges w hw
      refine ⟨k', hk', ?_⟩
      simp only [if_neg (hkept w (by rw [hcomponent]; simp))]
      exact hcomponent
  case same =>
    intro u v k hu hv
    have hjoined : ∀ v, v ∈ above ∨ v = node → Mutual (Succ edges) v node := by
      rintro v (hv | rfl)
      · exact hhead.joined v hv
      · exact .refl v
    by_cases humem : u ∈ above ∨ u = node
    · by_cases hvmem : v ∈ above ∨ v = node
      · exact (hjoined u humem).trans (hjoined v hvmem).symm
      · simp only [if_pos humem, Option.some.injEq] at hu
        simp only [if_neg hvmem] at hv
        have := (h.closed v k hv).1
        omega
    · simp only [if_neg humem] at hu
      by_cases hvmem : v ∈ above ∨ v = node
      · simp only [if_pos hvmem, Option.some.injEq] at hv
        have := (h.closed u k hu).1
        omega
      · simp only [if_neg hvmem] at hv
        exact h.same u v k hu hv
  case waiting => exact nofun

/-- The node that a node reaches by its low number lies below its segment, if that is lower. -/
theorem low_below {node child : ℕ} {above below : List ℕ}
    (h : Searching edges s ((node, child) :: path) pending)
    (hstack : s.stack = above ++ node :: below) (he : Entry edges s pending node child above)
    (hlow : s.low node ≠ s.ord node) :
    ∃ x ∈ below, s.ord x = s.low node ∧ Reach edges node x := by
  obtain ⟨x, hx, hord, hreach⟩ := he.low_mem
  refine ⟨x, ?_, hord, hreach⟩
  rcases (mem_stack hstack).mp hx with hmem | hmem
  · have := h.le_ord_of_above hstack hmem
    have := he.low_le
    omega
  · exact hmem

/-- The first node of a search is the root of its component. -/
theorem low_bottom {node child : ℕ} (h : Searching edges s [(node, child)] pending) :
    s.low node = s.ord node := by
  obtain ⟨above, below, hstack, hhead, htail⟩ := segments_cons.mp h.segments
  by_contra hlow
  obtain ⟨x, hx, -⟩ := h.low_below hstack hhead hlow
  cases htail
  cases hx

/-- A node that is not the root of its component is left: its segment joins the one below. -/
theorem merge {node child parent child' : ℕ}
    (h : Searching edges s ((node, child) :: (parent, child') :: path) none)
    (hall : (edges node).length ≤ child) (hlow : s.low node ≠ s.ord node) :
    Searching edges
      { s with low := Function.update s.low parent (min (s.low parent) (s.low node)) }
      ((parent, child') :: path) none := by
  obtain ⟨above, below, hstack, hhead, htail⟩ := segments_cons.mp h.segments
  obtain ⟨above', below', hbelow, hparent, hrest⟩ := segments_cons.mp htail
  obtain ⟨hlinks, hlinked⟩ := List.pairwise_cons.mp h.linked
  obtain ⟨x, hx, hordx, hreachx⟩ := h.low_below hstack hhead hlow
  have hdown : Reach edges parent node := hlinks (parent, child') (by simp)
  have hnode : Mutual (Succ edges) node parent :=
    ⟨hreachx.trans (htail.reach_top hlinked x hx), hdown⟩
  have hself : Function.update s.low parent (min (s.low parent) (s.low node)) parent =
      min (s.low parent) (s.low node) := Function.update_self _ _ _
  refine { h with segments := ?_, linked := hlinked, waiting := nofun }
  refine segments_cons.mpr ⟨above ++ node :: above', below', by simp [hstack, hbelow],
    ⟨fun v hv => ?_, fun v w hvw => ?_, ?_, ?_⟩, hrest.mono fun other c a hother he => ?_⟩
  · rcases List.mem_append.mp hv with hv | hv
    · exact (hhead.joined v hv).trans hnode
    · rcases List.mem_cons.mp hv with rfl | hv
      · exact hnode
      · exact hparent.joined v hv
  · have hupper : v ∈ above ∨ v = node → w ∈ edges v →
        s.component w ≠ none ∨ (w ∈ s.stack ∧
          Function.update s.low parent (min (s.low parent) (s.low node)) parent ≤ s.ord w) ∨
        none = some w := fun hv hw =>
      (followed_all hhead hall hv hw).imp id fun hmem =>
        .inl ⟨hmem.1, hself.le.trans ((min_le_right _ _).trans hmem.2)⟩
    have hlower : (v ∈ above' ∧ w ∈ edges v) ∨ (v = parent ∧ w ∈ (edges parent).take child') →
        s.component w ≠ none ∨ (w ∈ s.stack ∧
          Function.update s.low parent (min (s.low parent) (s.low node)) parent ≤ s.ord w) ∨
        none = some w := fun hvw =>
      (hparent.followed v w hvw).imp id (Or.imp (fun hmem =>
        ⟨hmem.1, hself.le.trans ((min_le_left _ _).trans hmem.2)⟩) id)
    rcases hvw with ⟨hv, hw⟩ | hvw
    · rcases List.mem_append.mp hv with hv | hv
      · exact hupper (.inl hv) hw
      · rcases List.mem_cons.mp hv with rfl | hv
        · exact hupper (.inr rfl) hw
        · exact hlower (.inl ⟨hv, hw⟩)
    · exact hlower (.inr hvw)
  · exact hself.le.trans ((min_le_left _ _).trans hparent.low_le)
  · rcases min_choice (s.low parent) (s.low node) with hmin | hmin
    · obtain ⟨y, hy, hordy, hreachy⟩ := hparent.low_mem
      exact ⟨y, hy, hordy.trans (hmin.symm.trans hself.symm), hreachy⟩
    · refine ⟨x, ?_, hordx.trans (hmin.symm.trans hself.symm), hdown.trans hreachx⟩
      exact (mem_stack hstack).mpr (.inr hx)
  · have hne : other ≠ parent := by
      rintro rfl
      have hnodup := h.nodup
      rw [hstack, hbelow] at hnodup
      have hinner := (List.nodup_cons.mp (List.nodup_append.mp hnodup).2.1).2
      exact (List.nodup_cons.mp (List.nodup_append.mp hinner).2.1).1 hother
    have hsame : Function.update s.low parent (min (s.low parent) (s.low node)) other =
        s.low other := Function.update_of_ne hne _ _
    refine ⟨he.joined, fun v w hvw => ?_, hsame.le.trans he.low_le, ?_⟩
    · rcases he.followed v w hvw with hc | ⟨hw, hle⟩ | hw
      · exact .inl hc
      · exact .inr (.inl ⟨hw, hsame.le.trans hle⟩)
      · exact .inr (.inr hw)
    · obtain ⟨y, hy, hordy, hreachy⟩ := he.low_mem
      exact ⟨y, hy, hordy.trans hsame.symm, hreachy⟩

end Searching

/-! ### One round -/

theorem leave_cons {node parent child : ℕ} (hlow : s.low node ≠ s.ord node)
    (hwork : s.work = (parent, child) :: path) : s.leave node =
      { s with low := Function.update s.low parent (min (s.low parent) (s.low node)) } := by
  unfold Scc.leave
  rw [if_neg hlow]
  dsimp only
  split
  next heq =>
    obtain ⟨⟨rfl, -⟩, -⟩ : (_ = _ ∧ _ = _) ∧ _ = _ := by simpa using heq.symm.trans hwork
    rfl
  next heq => simp [hwork] at heq

theorem leave_root_cons {node parent child : ℕ} (hlow : s.low node = s.ord node)
    (hwork : s.work = (parent, child) :: path) (hle : s.low parent ≤ s.low node) :
    s.leave node = s.close node := by
  unfold Scc.leave
  rw [if_pos hlow]
  dsimp only
  have hclosed : (s.close node).work = (parent, child) :: path := hwork
  split
  next top _ _ heq =>
    obtain ⟨htop, -⟩ : top = parent ∧ _ := by
      simpa using congrArg List.head? (heq.symm.trans hclosed)
    have hmin : min ((s.close node).low top) ((s.close node).low node) =
        (s.close node).low top := by rw [htop]; exact min_eq_left hle
    rw [hmin, Function.update_eq_self]
  next heq => rfl

theorem leave_root_nil {node : ℕ} (hlow : s.low node = s.ord node) (hwork : s.work = []) :
    s.leave node = s.close node := by
  unfold Scc.leave
  rw [if_pos hlow]
  dsimp only
  have hclosed : (s.close node).work = [] := hwork
  split
  next heq => simp [hclosed] at heq
  next heq => rfl

/-- A node all of whose edges have been followed is left. -/
theorem Searching.leave {node child : ℕ} (h : Searching edges s ((node, child) :: path) none)
    (hall : (edges node).length ≤ child) (hwork : s.work = path) :
    Searching edges (s.leave node) path none ∧ (s.leave node).work = path := by
  subst hwork
  by_cases hlow : s.low node = s.ord node
  · have hclosed := h.close hall hlow
    cases hwork : s.work with
    | nil =>
      rw [leave_root_nil hlow hwork]
      rw [hwork] at hclosed
      exact ⟨hclosed, hwork⟩
    | cons top path =>
      obtain ⟨parent, child'⟩ := top
      rw [hwork] at h hclosed
      -- The low number of the parent is below that of a root above it.
      obtain ⟨above, below, hstack, hhead, htail⟩ := segments_cons.mp h.segments
      obtain ⟨above', below', hbelow, hparent, -⟩ := segments_cons.mp htail
      have hlt := h.ord_lt_of_below hstack (v := parent) (by simp [hbelow])
      have hle : s.low parent ≤ s.low node := by
        have := hparent.low_le
        omega
      rw [leave_root_cons hlow hwork hle]
      exact ⟨hclosed, hwork⟩
  · cases hwork : s.work with
    | nil =>
      rw [hwork] at h
      exact absurd h.low_bottom hlow
    | cons top path =>
      obtain ⟨parent, child'⟩ := top
      rw [hwork] at h
      rw [leave_cons hlow hwork]
      exact ⟨h.merge hall hlow, hwork⟩

/-- The invariant of the loop: the work list is the path, with the node the search is about to come
to on top. -/
inductive Round (edges : ℕ → List ℕ) (s : Scc) : Prop
  | path : Searching edges s s.work none → (∀ a ∈ s.work, a.2 ≠ 0) → Round edges s
  | coming {v : ℕ} {path : List (ℕ × ℕ)} : s.work = (v, 0) :: path →
      Searching edges s path (some v) → (∀ a ∈ path, a.2 ≠ 0) → Round edges s

theorem Searching.explore {node child : ℕ} (h : Searching edges s ((node, child) :: path) none)
    (hwork : s.work = path) (hpath : ∀ a ∈ path, a.2 ≠ 0) :
    Round edges (s.explore edges node child) := by
  rw [Scc.explore]
  cases hnext : (edges node)[child]? with
  | none =>
    have hall : (edges node).length ≤ child := List.getElem?_eq_none_iff.mp hnext
    obtain ⟨hleave, hleft⟩ := h.leave hall hwork
    exact .path (by rw [hleft]; exact hleave) (by rw [hleft]; exact hpath)
  | some next =>
    have hedge : Succ edges node next := List.mem_of_getElem? hnext
    have hnonzero : ∀ a ∈ (node, child + 1) :: path, a.2 ≠ 0 := by
      rintro a ha
      rcases List.mem_cons.mp ha with rfl | ha
      · simp
      · exact hpath a ha
    simp only [Scc.follow, hwork]
    by_cases hnew : s.order next = none
    · rw [if_pos hnew]
      refine .coming rfl ((h.advance hnext (.inr (.inr rfl)) ?_).setWork _) hnonzero
      rintro v ⟨⟩
      exact ⟨rfl, hnew⟩
    · rw [if_neg hnew]
      by_cases hon : s.onStack next = true
      · rw [if_pos hon]
        have hmem : next ∈ s.stack := (h.onStack next).mp hon
        have hlowered : Searching edges
            { s with low := Function.update s.low node (min (s.low node) (s.ord next)) }
            ((node, child + 1) :: path) none := by
          rcases Nat.le_total (s.low node) (s.ord next) with hle | hle
          · rw [min_eq_left hle, Function.update_eq_self]
            exact h.advance hnext (.inr (.inl ⟨hmem, hle⟩)) (fun _ hv => nomatch hv)
          · rw [min_eq_right hle]
            refine (h.relow hmem (.single hedge) hle).advance hnext (.inr (.inl ⟨hmem, ?_⟩))
              (fun _ hv => nomatch hv)
            exact (Function.update_self _ _ _).le
        exact .path (hlowered.setWork ((node, child + 1) :: path)) hnonzero
      · rw [if_neg hon]
        have hassigned : s.component next ≠ none :=
          ((h.visited next).mp hnew).resolve_left fun hmem => hon ((h.onStack next).mpr hmem)
        have hmoved : Searching edges s ((node, child + 1) :: path) none :=
          h.advance hnext (.inl hassigned) (fun _ hv => nomatch hv)
        exact .path (hmoved.setWork _) hnonzero

/-- **One round keeps the invariant.** -/
theorem Round.step (h : Round edges s) : Round edges (s.step edges) := by
  rw [Scc.step]
  cases h with
  | path hs hnonzero =>
    cases hwork : s.work with
    | nil => exact .path hs hnonzero
    | cons top rest =>
      obtain ⟨node, child⟩ := top
      rw [hwork] at hs hnonzero
      have hchild : child ≠ 0 := hnonzero (node, child) (by simp)
      simp only [if_neg hchild]
      exact (hs.setWork rest).explore rfl fun a ha => hnonzero a (by simp [ha])
  | @coming v path hwork hs hnonzero =>
    rw [hwork]
    simp only [if_true]
    exact (hs.setWork path).visit.explore rfl hnonzero

/-! ### The loops end -/

/-- What a node costs that the search has not come to. -/
def nodeCost (edges : ℕ → List ℕ) (node : ℕ) : ℕ := 2 * (edges node).length + 3

/-- What an entry of the work list costs. -/
def entryCost (edges : ℕ → List ℕ) (a : ℕ × ℕ) : ℕ :=
  if a.2 = 0 then 1 else 2 * ((edges a.1).length + 1 - a.2) + 1

/-- The rounds that are left to do. -/
def debt (edges : ℕ → List ℕ) (count : ℕ) (s : Scc) : ℕ :=
  (((List.range count).filter fun v => s.order v = none).map (nodeCost edges)).sum +
    (s.work.map (entryCost edges)).sum

theorem leave_order (s : Scc) (node : ℕ) : (s.leave node).order = s.order := by
  unfold Scc.leave
  dsimp only
  split <;> split_ifs <;> rfl

theorem leave_work (s : Scc) (node : ℕ) : (s.leave node).work = s.work := by
  unfold Scc.leave
  dsimp only
  split <;> split_ifs <;> rfl

theorem explore_order (s : Scc) (node child : ℕ) :
    (s.explore edges node child).order = s.order := by
  unfold Scc.explore
  split
  · unfold Scc.follow
    split_ifs <;> rfl
  · exact leave_order s node

/-- The work list after a round: an entry is left, or has its next edge followed. -/
theorem explore_work (edges : ℕ → List ℕ) (s : Scc) (node child : ℕ) :
    (s.explore edges node child).work = s.work ∨
      ∃ next, (edges node)[child]? = some next ∧
        ((s.explore edges node child).work = (node, child + 1) :: s.work ∨
          (s.explore edges node child).work = (next, 0) :: (node, child + 1) :: s.work) := by
  unfold Scc.explore
  cases hnext : (edges node)[child]? with
  | none => exact .inl (leave_work s node)
  | some next =>
    refine .inr ⟨next, rfl, ?_⟩
    dsimp only
    unfold Scc.follow
    split_ifs
    · exact .inr rfl
    · exact .inl rfl
    · exact .inl rfl

/-- Nodes that are still to come to, after one of them is visited. -/
theorem sum_unvisited_visit {order : ℕ → Option ℕ} (cost : ℕ → ℕ) {v i : ℕ}
    (hnew : order v = none) : ∀ (nodes : List ℕ), nodes.Nodup → v ∈ nodes →
      ((nodes.filter fun w => Function.update order v (some i) w = none).map cost).sum + cost v =
        ((nodes.filter fun w => order w = none).map cost).sum
  | [], _, hv => by cases hv
  | w :: nodes, hnodup, hv => by
    obtain ⟨hw, hnodup⟩ := List.nodup_cons.mp hnodup
    by_cases hvw : w = v
    · subst hvw
      have hrest : nodes.filter (fun u => Function.update order w (some i) u = none) =
          nodes.filter fun u => order u = none := List.filter_congr fun u hu => by
        have hne : u ≠ w := fun heq => hw (heq ▸ hu)
        rw [Function.update_of_ne hne]
      rw [List.filter_cons_of_neg (by simp), List.filter_cons_of_pos (by simp [hnew]), hrest,
        List.map_cons, List.sum_cons, Nat.add_comm]
    · have ih := sum_unvisited_visit cost hnew (i := i) nodes hnodup
        ((List.mem_cons.mp hv).resolve_left fun heq => hvw heq.symm)
      by_cases hold : order w = none
      · rw [List.filter_cons_of_pos (by simp [Function.update_of_ne hvw, hold]),
          List.filter_cons_of_pos (by simp [hold]), List.map_cons, List.map_cons, List.sum_cons,
          List.sum_cons, Nat.add_assoc, ih]
      · rw [List.filter_cons_of_neg (by simp [Function.update_of_ne hvw, hold]),
          List.filter_cons_of_neg (by simp [hold]), ih]

/-- What a round pays for the entry it takes from the work list. -/
theorem explore_cost (edges : ℕ → List ℕ) (s : Scc) (node child : ℕ) :
    ((s.explore edges node child).work.map (entryCost edges)).sum ≤
      (s.work.map (entryCost edges)).sum + 2 * ((edges node).length + 1 - child) := by
  rcases explore_work edges s node child with hwork | ⟨next, hnext, hwork | hwork⟩
  · rw [hwork]
    omega
  all_goals
    have hlt : child < (edges node).length := (List.getElem?_eq_some_iff.mp hnext).1
    rw [hwork]
    simp only [List.map_cons, List.sum_cons, entryCost, Nat.add_eq_zero_iff, Nat.one_ne_zero,
      and_false, if_false, if_true]
    omega

/-- **Every round pays.** -/
theorem debt_step {count : ℕ} (h : Round edges s) (hbound : ∀ a ∈ s.work, a.1 < count)
    (hwork : s.work ≠ []) : (s.step edges).debt edges count < s.debt edges count := by
  cases h with
  | path hs hnonzero =>
    obtain ⟨⟨node, child⟩, rest, hcons⟩ := List.exists_cons_of_ne_nil hwork
    have hchild : child ≠ 0 := hnonzero (node, child) (by simp [hcons])
    have hcost := explore_cost edges { s with work := rest } node child
    rw [Scc.step, hcons]
    simp only [if_neg hchild, debt, explore_order, hcons, List.map_cons, List.sum_cons]
    simp only [entryCost, if_neg hchild] at hcost ⊢
    omega
  | @coming v path hcons hs hnonzero =>
    obtain ⟨hnew, -⟩ := hs.waiting v rfl
    have hv : v < count := hbound (v, 0) (by simp [hcons])
    have hcost := explore_cost edges ({ s with work := path }.visit v) v 0
    have hvisit := sum_unvisited_visit (i := s.nextOrder) (nodeCost edges) hnew (List.range count)
      List.nodup_range (by simpa using hv)
    rw [Scc.step, hcons]
    simp only [if_true, debt, explore_order, hcons, List.map_cons, List.sum_cons, Scc.visit]
      at hcost ⊢
    have hentry : entryCost edges (v, 0) = 1 := rfl
    have hnode : nodeCost edges v = 2 * (edges v).length + 3 := rfl
    omega

theorem step_bound {count : ℕ} (hedges : ∀ u < count, ∀ w ∈ edges u, w < count)
    (hbound : ∀ a ∈ s.work, a.1 < count) : ∀ a ∈ (s.step edges).work, a.1 < count := by
  unfold Scc.step
  cases hwork : s.work with
  | nil =>
    intro a ha
    simp [hwork] at ha
  | cons top rest =>
    obtain ⟨node, child⟩ := top
    have hnode : node < count := hbound (node, child) (by simp [hwork])
    have hrest : ∀ a ∈ rest, a.1 < count := fun a ha => hbound a (by simp [hwork, ha])
    dsimp only
    have hvisited : ∀ s' : Scc, s'.work = rest →
        ∀ a ∈ (s'.explore edges node child).work, a.1 < count := by
      intro s' hs' a ha
      rcases explore_work edges s' node child with heq | ⟨next, hnext, heq | heq⟩
      · rw [heq, hs'] at ha
        exact hrest a ha
      · rw [heq, hs'] at ha
        rcases List.mem_cons.mp ha with rfl | ha
        · exact hnode
        · exact hrest a ha
      · rw [heq, hs'] at ha
        rcases List.mem_cons.mp ha with rfl | ha
        · exact hedges node hnode _ (List.mem_of_getElem? hnext)
        · rcases List.mem_cons.mp ha with rfl | ha
          · exact hnode
          · exact hrest a ha
    refine hvisited _ ?_
    split_ifs <;> rfl

/-- A node that the search has come to keeps its number. -/
theorem step_order {v : ℕ} (hv : s.order v ≠ none) : (s.step edges).order v ≠ none := by
  unfold Scc.step
  cases hwork : s.work with
  | nil => exact hv
  | cons top rest =>
    obtain ⟨node, child⟩ := top
    dsimp only
    rw [explore_order]
    split_ifs
    · by_cases hvn : v = node
      · simp [Scc.visit, hvn]
      · simpa [Scc.visit, Function.update_of_ne hvn] using hv
    · exact hv

theorem step_order_top {v : ℕ} {rest : List (ℕ × ℕ)} (hwork : s.work = (v, 0) :: rest) :
    (s.step edges).order v ≠ none := by
  unfold Scc.step
  rw [hwork]
  dsimp only
  rw [explore_order, if_pos rfl]
  simp [Scc.visit]

/-- The inner loop ends with an empty work list, and keeps the invariant. -/
theorem run_spec {count : ℕ} (hedges : ∀ u < count, ∀ w ∈ edges u, w < count) :
    ∀ (fuel : ℕ) (s : Scc), Round edges s → (∀ a ∈ s.work, a.1 < count) →
      s.debt edges count ≤ fuel →
      Searching edges (run edges fuel s) [] none ∧ ∀ v,
        s.order v ≠ none ∨ (∃ rest, s.work = (v, 0) :: rest) → (run edges fuel s).order v ≠ none
  | fuel, s, hround, hbound, hdebt => by
    by_cases hwork : s.work = []
    · have hrun : run edges fuel s = s := by
        cases fuel with
        | zero => rfl
        | succ fuel => rw [run, if_pos hwork]
      rw [hrun]
      refine ⟨?_, fun v hv => hv.resolve_right ?_⟩
      · cases hround with
        | path hs _ => rwa [hwork] at hs
        | coming hcons _ _ => simp [hwork] at hcons
      · rintro ⟨rest, hcons⟩
        simp [hwork] at hcons
    · have hpaid := debt_step hround hbound hwork
      cases fuel with
      | zero => omega
      | succ fuel =>
        rw [run, if_neg hwork]
        obtain ⟨hsearching, hvisited⟩ := run_spec hedges fuel (s.step edges) hround.step
          (step_bound hedges hbound) (by omega)
        refine ⟨hsearching, fun v hv => hvisited v (.inl ?_)⟩
        rcases hv with hv | ⟨rest, hcons⟩
        · exact step_order hv
        · exact step_order_top hcons

/-- One round of the outer loop. -/
theorem Searching.searchFrom {count root : ℕ} (hedges : ∀ u < count, ∀ w ∈ edges u, w < count)
    (hroot : root < count) (h : Searching edges s [] none) :
    Searching edges (s.searchFrom edges (searchFuel edges count) root) [] none ∧
      (∀ v, s.order v ≠ none ∨ v = root →
        (s.searchFrom edges (searchFuel edges count) root).order v ≠ none) := by
  unfold Scc.searchFrom
  by_cases hnew : s.order root = none
  · rw [if_pos hnew]
    have hround : Round edges { s with work := [(root, 0)] } := by
      refine .coming rfl ?_ (by simp)
      have hwaiting : Searching edges s [] (some root) := by
        refine { h with segments := ?_, waiting := ?_ }
        · have hsegments := h.segments
          cases hstack : s.stack with
          | nil => exact .nil
          | cons v stack =>
            rw [hstack] at hsegments
            cases hsegments
        · rintro v ⟨⟩
          exact ⟨hnew, by simp⟩
      exact hwaiting.setWork _
    have hdebt : debt edges count { s with work := [(root, 0)] } ≤ searchFuel edges count := by
      have hsublist := (List.filter_sublist (l := List.range count)
        (p := fun v => decide (s.order v = none))).map (nodeCost edges)
      have hle := hsublist.sum_le_sum (fun _ _ => Nat.zero_le _)
      simp only [debt, List.map_cons, List.map_nil, List.sum_cons, List.sum_nil]
      have hentry : entryCost edges (root, 0) = 1 := rfl
      have hfuel : searchFuel edges count =
          ((List.range count).map (nodeCost edges)).sum + 1 := rfl
      omega
    obtain ⟨hsearching, hvisited⟩ := run_spec hedges (searchFuel edges count)
      { s with work := [(root, 0)] } hround (by simpa using hroot) hdebt
    refine ⟨hsearching, fun v hv => hvisited v ?_⟩
    rcases hv with hv | rfl
    · exact .inl hv
    · exact .inr ⟨[], rfl⟩
  · rw [if_neg hnew]
    refine ⟨h, fun v hv => ?_⟩
    rcases hv with hv | rfl
    · exact hv
    · exact hnew

theorem searching_initial : Searching edges {} [] none where
  segments := .nil
  linked := .nil
  sorted := .nil
  onStack := by simp
  visited := by simp
  open_of_mem := by simp
  fresh := by simp
  closed := by simp
  same := by simp
  waiting := by simp

/-- The outer loop over some nodes. -/
theorem searching_foldl {count : ℕ} (hedges : ∀ u < count, ∀ w ∈ edges u, w < count) :
    ∀ (roots : List ℕ) (s : Scc), (∀ r ∈ roots, r < count) → Searching edges s [] none →
      Searching edges (roots.foldl (Scc.searchFrom edges (searchFuel edges count)) s) [] none ∧
        ∀ v, s.order v ≠ none ∨ v ∈ roots →
          (roots.foldl (Scc.searchFrom edges (searchFuel edges count)) s).order v ≠ none
  | [], s, _, h => ⟨h, fun v hv => hv.resolve_right (by simp)⟩
  | root :: roots, s, hroots, h => by
    obtain ⟨hsearching, hvisited⟩ := h.searchFrom hedges (hroots root (by simp))
    obtain ⟨hrest, hfinal⟩ := searching_foldl hedges roots _ (fun r hr => hroots r (by simp [hr]))
      hsearching
    refine ⟨hrest, fun v hv => hfinal v ?_⟩
    rcases hv with hv | hv
    · exact .inl (hvisited v (.inl hv))
    · rcases List.mem_cons.mp hv with rfl | hv
      · exact .inl (hvisited v (.inr rfl))
      · exact .inr hv

/-- Labels do not increase along a path. -/
theorem Searching.label_le (h : Searching edges s path pending) {u v k : ℕ}
    (hreach : Reach edges u v) (hu : s.component u = some k) :
    ∃ k' ≤ k, s.component v = some k' := by
  induction hreach with
  | refl => exact ⟨k, Nat.le_refl _, hu⟩
  | tail _ hedge ih =>
    obtain ⟨k', hle, hk'⟩ := ih
    obtain ⟨k'', hle', hk''⟩ := (h.closed _ k' hk').2 _ hedge
    exact ⟨k'', hle'.trans hle, hk''⟩

end Scc

section

variable {edges : ℕ → List ℕ} {count : ℕ}

/-- The end of the search: every node has a label. -/
theorem components_searched (hedges : ∀ u < count, ∀ w ∈ edges u, w < count) :
    ∃ s : Scc, stronglyConnectedComponents edges count = s.component ∧
      Scc.Searching edges s [] none ∧ ∀ v < count, s.component v ≠ none := by
  obtain ⟨hsearching, hvisited⟩ := Scc.searching_foldl hedges (List.range count) {}
    (by simp) Scc.searching_initial
  refine ⟨_, rfl, hsearching, fun v hv => ?_⟩
  have hstack := hsearching.segments
  rcases (hsearching.visited v).mp (hvisited v (.inr (by simpa using hv))) with hmem | hlabel
  · cases hs : ((List.range count).foldl (Scc.searchFrom edges (searchFuel edges count)) {}).stack with
    | nil => simp [hs] at hmem
    | cons w stack =>
      rw [hs] at hstack
      cases hstack
  · exact hlabel

/-- **Two nodes get the same label exactly if each reaches the other.** -/
theorem component_eq_iff (hedges : ∀ u < count, ∀ w ∈ edges u, w < count) {u v : ℕ}
    (hu : u < count) :
    stronglyConnectedComponents edges count u = stronglyConnectedComponents edges count v ↔
      Mutual (Succ edges) u v := by
  obtain ⟨s, hcomponent, hsearching, hlabelled⟩ := components_searched hedges
  rw [hcomponent]
  obtain ⟨k, hk⟩ := Option.ne_none_iff_exists'.mp (hlabelled u hu)
  constructor
  · intro heq
    exact hsearching.same u v k hk (heq ▸ hk)
  · rintro ⟨huv, hvu⟩
    obtain ⟨k₁, hle₁, hk₁⟩ := hsearching.label_le huv hk
    obtain ⟨k₂, hle₂, hk₂⟩ := hsearching.label_le hvu hk₁
    obtain rfl : k = k₂ := Option.some.inj (hk.symm.trans hk₂)
    rw [hk, hk₁, Nat.le_antisymm hle₁ hle₂]

theorem component_ne_none (hedges : ∀ u < count, ∀ w ∈ edges u, w < count) {v : ℕ}
    (hv : v < count) : stronglyConnectedComponents edges count v ≠ none := by
  obtain ⟨s, hcomponent, -, hlabelled⟩ := components_searched hedges
  rw [hcomponent]
  exact hlabelled v hv

end

end Generator

end ArosTools
