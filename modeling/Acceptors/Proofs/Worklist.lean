import Acceptors.Proofs.Paths
import Acceptors.Proofs.Tables

/-!
Closures found by a stack. A node goes on the stack when it is found, and each step takes one node
off and finds what it leads to. A node off the stack is done with, and so as many steps are made as
there are nodes to be found (`Kept.step`, `finds_of_mem_iff`). Main statement:
`Automaton.mem_closures_iff_exists_path`.
-/

namespace Acceptors

/-- The nodes found, and those of them that wait for their steps to be followed, the next one
first. -/
structure Worklist (α : Type) where
  found : List α
  pending : List α
  deriving DecidableEq

namespace Worklist

variable {α : Type} [DecidableEq α] {next : α → List α} {start : List α} {w : Worklist α} {k : Nat}

/-- A node found for the first time waits before all others. -/
def visit (w : Worklist α) (y : α) : Worklist α :=
  if y ∈ w.found then w else ⟨y :: w.found, y :: w.pending⟩

/-- Takes up the first node that waits. -/
def step (next : α → List α) (w : Worklist α) : Worklist α :=
  match w.pending with
  | [] => w
  | x :: rest => (next x).foldl visit ⟨w.found, rest⟩

/-- The worklist of a start after so many steps. -/
def after (next : α → List α) (start : List α) : Nat → Worklist α
  | 0 => start.foldl visit ⟨[], []⟩
  | k + 1 => (after next start k).step next

/-- As many steps as the list has members leave nothing that waits, no fewer do, and what is found
then is the list in some order. -/
structure Finds (next : α → List α) (start xs : List α) : Prop where
  runs : ∀ k < xs.length, (after next start k).pending ≠ []
  ends : (after next start xs.length).pending = []
  found : (after next start xs.length).found.Perm xs

/-! ## One step -/

/-- Visiting a list puts each of its nodes that was not found before on the stack, once. -/
theorem foldl_visit (w : Worklist α) (ys : List α) :
    ∃ new, ys.foldl visit w = ⟨new ++ w.found, new ++ w.pending⟩ ∧ new.Nodup ∧
      (∀ y ∈ new, y ∈ ys ∧ y ∉ w.found) ∧ ∀ y ∈ ys, y ∈ new ++ w.found := by
  induction ys generalizing w with
  | nil => exact ⟨[], rfl, List.nodup_nil, by simp, by simp⟩
  | cons y ys ih =>
    rw [List.foldl_cons]
    by_cases hy : y ∈ w.found
    · obtain ⟨new, heq, hnodup, hnew, hall⟩ := ih w
      rw [visit, if_pos hy]
      refine ⟨new, heq, hnodup, fun z hz => ?_, List.forall_mem_cons.mpr ⟨?_, hall⟩⟩
      · exact ⟨List.mem_cons_of_mem y (hnew z hz).1, (hnew z hz).2⟩
      · exact List.mem_append_right new hy
    · obtain ⟨new, heq, hnodup, hnew, hall⟩ := ih ⟨y :: w.found, y :: w.pending⟩
      rw [visit, if_neg hy]
      refine ⟨new ++ [y], by simpa using heq, ?_, ?_, ?_⟩
      · refine List.nodup_append.mpr ⟨hnodup, List.nodup_singleton y, fun z hz z' hz' => ?_⟩
        rintro rfl
        exact (hnew z hz).2 (List.mem_singleton.mp hz' ▸ List.mem_cons_self)
      · refine List.forall_mem_append.mpr ⟨fun z hz => ?_, by simpa using hy⟩
        obtain ⟨hmem, hnot⟩ := hnew z hz
        exact ⟨List.mem_cons_of_mem y hmem, fun h => hnot (List.mem_cons_of_mem y h)⟩
      · rw [List.append_assoc]
        exact List.forall_mem_cons.mpr ⟨by simp, hall⟩

/-- What holds after `k` steps, each of which took a node off: every node found is counted once,
among those that wait or among those taken off, and the nodes taken off lead to nodes found only. -/
structure Kept (next : α → List α) (start : List α) (k : Nat) (w : Worklist α) : Prop where
  nodup : w.found.Nodup
  sound : ∀ y ∈ w.found, ∃ x ∈ start, Leads next x y
  covers : ∀ x ∈ start, x ∈ w.found
  waits : ∀ x ∈ w.pending, x ∈ w.found
  followed : ∀ x ∈ w.found, x ∉ w.pending → ∀ y ∈ next x, y ∈ w.found
  length_eq : w.found.length = k + w.pending.length

theorem kept_start (next : α → List α) (start : List α) :
    Kept next start 0 (after next start 0) := by
  obtain ⟨new, heq, hnodup, hnew, hall⟩ := foldl_visit ⟨[], []⟩ start
  rw [after, heq]
  simp only [List.append_nil] at hall ⊢
  exact ⟨hnodup, fun y hy => ⟨y, (hnew y hy).1, .refl⟩, hall, fun _ h => h,
    fun x hx hnot => absurd hx hnot, by simp⟩

theorem Kept.step (h : Kept next start k w) (hw : w.pending ≠ []) :
    Kept next start (k + 1) (w.step next) := by
  obtain ⟨x, rest, hpending⟩ := List.exists_cons_of_ne_nil hw
  obtain ⟨new, heq, hnodup, hnew, hall⟩ := foldl_visit ⟨w.found, rest⟩ (next x)
  have hx : x ∈ w.found := h.waits x (hpending ▸ List.mem_cons_self)
  have hstep : w.step next = ⟨new ++ w.found, new ++ rest⟩ := by
    rw [Worklist.step, hpending]
    exact heq
  rw [hstep]
  refine ⟨?_, ?_, fun y hy => ?_, ?_, ?_, ?_⟩
  · refine List.nodup_append.mpr ⟨hnodup, h.nodup, fun y hy z hz => ?_⟩
    rintro rfl
    exact (hnew y hy).2 hz
  · refine List.forall_mem_append.mpr ⟨fun y hy => ?_, h.sound⟩
    obtain ⟨z, hz, hzx⟩ := h.sound x hx
    exact ⟨z, hz, hzx.tail (hnew y hy).1⟩
  · exact List.mem_append_right new (h.covers y hy)
  · refine List.forall_mem_append.mpr ⟨fun y hy => List.mem_append_left _ hy, fun y hy => ?_⟩
    exact List.mem_append_right new (h.waits y (hpending ▸ List.mem_cons_of_mem x hy))
  · intro y hy hnot z hz
    have hrest : y ∉ rest := fun hmem => hnot (List.mem_append_right new hmem)
    have hold : y ∈ w.found := (List.mem_append.mp hy).resolve_left fun hmem =>
      hnot (List.mem_append_left rest hmem)
    -- The node taken off has had its steps followed just now, and the others off the stack had them
    -- before.
    by_cases hyx : y = x
    · exact hall z (hyx ▸ hz)
    · refine List.mem_append_right new (h.followed y hold (fun hmem => ?_) z hz)
      rw [hpending] at hmem
      exact (List.mem_cons.mp hmem).elim hyx hrest
  · have hlength := h.length_eq
    rw [hpending, List.length_cons] at hlength
    simp only [List.length_append]
    omega

/-! ## All steps -/

theorem kept_after (h : ∀ j < k, (after next start j).pending ≠ []) :
    Kept next start k (after next start k) := by
  induction k with
  | zero => exact kept_start next start
  | succ k ih => exact (ih fun j hj => h j (Nat.lt_succ_of_lt hj)).step (h k (Nat.lt_succ_self k))

omit [DecidableEq α] in
/-- When nothing waits any more the nodes found are those that the start leads to. -/
theorem Kept.mem_found_iff (h : Kept next start k w) (hw : w.pending = []) {y : α} :
    y ∈ w.found ↔ ∃ x ∈ start, Leads next x y := by
  constructor
  · exact h.sound y
  · rintro ⟨x, hx, hxy⟩
    induction hxy with
    | refl => exact h.covers x hx
    | tail _ hstep ih => exact h.followed _ ih (hw ▸ List.not_mem_nil) _ hstep

/-- The nodes found stay among finitely many and each step takes another one off, so there is a last
step. -/
theorem exists_pending_eq_nil {xs : List α} (hxs : ∀ y, (∃ x ∈ start, Leads next x y) → y ∈ xs) :
    ∃ k, (after next start k).pending = [] := by
  by_contra hnone
  have hkept : Kept next start (xs.length + 1) (after next start (xs.length + 1)) :=
    kept_after fun j _ hend => hnone ⟨j, hend⟩
  have hsubset : (after next start (xs.length + 1)).found ⊆ xs := fun y hy =>
    hxs y (hkept.sound y hy)
  have hle := (hkept.nodup.subperm hsubset).length_le
  have hlength := hkept.length_eq
  omega

/-- The steps find any list of the nodes that the start leads to. -/
theorem finds_of_mem_iff {xs : List α} (hxs : xs.Nodup)
    (hmem : ∀ y, y ∈ xs ↔ ∃ x ∈ start, Leads next x y) :
    Finds next start xs := by
  have hend := exists_pending_eq_nil fun y => (hmem y).mpr
  have hruns : ∀ j < Nat.find hend, (after next start j).pending ≠ [] := fun j hj =>
    Nat.find_min hend hj
  have hkept := kept_after hruns
  have hperm : (after next start (Nat.find hend)).found.Perm xs :=
    (List.perm_ext_iff_of_nodup hkept.nodup hxs).mpr fun y =>
      (hkept.mem_found_iff (Nat.find_spec hend)).trans (hmem y).symm
  have hsteps : Nat.find hend = xs.length := by
    have hlength := hkept.length_eq
    rw [Nat.find_spec hend, List.length_nil, hperm.length_eq] at hlength
    exact hlength.symm
  exact ⟨hsteps ▸ hruns, hsteps ▸ Nat.find_spec hend, hsteps ▸ hperm⟩

end Worklist

namespace Automaton

variable {A : FiniteAutomaton} {p q : Nat}

/-! ## The closures of an automaton -/

theorem spelling_eq_nil_iff {path : List (Nat × Symbol × Nat)} :
    spelling path = [] ↔ ∀ edge ∈ path, edge.2.1 = .epsilon := by
  simp only [spelling, List.filter_eq_nil_iff, List.forall_mem_map, Symbol.isEpsilon,
    Bool.not_eq_true', beq_eq_false_iff_ne, ne_eq, not_not]

theorem finds_epsilonClosure (hA : A.WellFormed) (hp : p < A.size) :
    Worklist.Finds (fun q => A.next q .epsilon) [p] (A.epsilonClosure [p]).toList := by
  refine Worklist.finds_of_mem_iff (SortedSet.nodup_toList _) fun q => ?_
  rw [SortedSet.mem_toList, mem_epsilonClosure_singleton hA hp, Walk.nil_iff]
  simp [Leads, Step]

theorem finds_reachable (hA : A.WellFormed) (hp : p < A.size) :
    Worklist.Finds A.successors [p] (A.reachable p).toList := by
  refine Worklist.finds_of_mem_iff (SortedSet.nodup_toList _) fun q => ?_
  rw [SortedSet.mem_toList, mem_reachable hA hp, ← leads_successors]
  simp

/-- Whichever order the terminal states are put on the stack in. -/
theorem finds_productive {start : List Nat} (hstart : start.Perm A.terminals) :
    Worklist.Finds A.predecessors start A.productive.toList := by
  refine Worklist.finds_of_mem_iff (SortedSet.nodup_toList _) fun q => ?_
  rw [SortedSet.mem_toList, mem_productive_iff_leads]
  simp only [hstart.mem_iff]

/-- The closures of an automaton hold the states that paths along epsilon edges lead to, those that
any paths lead to, and those from which a path leads to a terminal state. A stack finds each of
them, edges that come back or not, in as many steps as it has states. -/
theorem mem_closures_iff_exists_path (hA : A.Assembled) (hp : p < A.size) :
    (∀ q, q ∈ A.epsilonClosure [p] ↔ ∃ path, A.IsPath p path q ∧
      ∀ edge ∈ path, edge.2.1 = .epsilon) ∧
    (∀ q, q ∈ A.reachable p ↔ ∃ path, A.IsPath p path q) ∧
    (∀ q, q ∈ A.productive ↔ ∃ path r, A.IsPath q path r ∧ A.isTerminal r = true) ∧
    Worklist.Finds (fun q => A.next q .epsilon) [p] (A.epsilonClosure [p]).toList ∧
    Worklist.Finds A.successors [p] (A.reachable p).toList ∧
    ∀ start, start.Perm A.terminals → Worklist.Finds A.predecessors start A.productive.toList := by
  refine ⟨fun q => ?_, fun q => ?_, fun q => ?_, finds_epsilonClosure hA.wellFormed hp,
    finds_reachable hA.wellFormed hp, fun _ => finds_productive⟩
  · rw [mem_epsilonClosure_singleton hA.wellFormed hp, walk_iff_exists_path]
    simp only [spelling_eq_nil_iff]
  · rw [mem_reachable hA.wellFormed hp]
    simp only [walk_iff_exists_path]
    constructor
    · rintro ⟨_, path, hpath, _⟩
      exact ⟨path, hpath⟩
    · rintro ⟨path, hpath⟩
      exact ⟨_, path, hpath, rfl⟩
  · rw [mem_productive]
    constructor
    · rintro ⟨w, r, hr, hw⟩
      obtain ⟨path, hpath, _⟩ := exists_path_of_walk hw
      exact ⟨path, r, hpath, hr⟩
    · rintro ⟨path, r, hpath, hr⟩
      exact ⟨spelling path, r, hr, walk_of_isPath hpath⟩

/-- Epsilon edges in a circle, a terminal state that leads to itself, one that nothing leads to, and
one that leads to itself only. -/
def winding : Parts Nat :=
  ⟨0, [⟨0, "", false, Table.ofEdges [(.epsilon, 1), (.literal "c", 4)]⟩,
    ⟨1, "", false, Table.ofEdges [(.epsilon, 0), (.literal "a", 2)]⟩,
    ⟨2, "", true, Table.ofEdges [(.literal "b", 2)]⟩,
    ⟨3, "", false, Table.ofEdges [(.epsilon, 0), (.literal "a", 2)]⟩,
    ⟨4, "", false, Table.ofEdges [(.epsilon, 4)]⟩], ∅⟩

theorem mem_closures_iff_exists_path_winding :
    winding.automaton.Assembled ∧ 0 < winding.automaton.size ∧
      (winding.automaton.epsilonClosure [0]).toList = [0, 1] ∧
      (winding.automaton.reachable 0).toList = [0, 1, 2, 4] ∧
      winding.automaton.productive.toList = [0, 1, 2, 3] ∧
      (¬ ∃ path, winding.automaton.IsPath 0 path 3) ∧
      (¬ ∃ path r, winding.automaton.IsPath 4 path r ∧ winding.automaton.isTerminal r = true) ∧
      (Worklist.after (fun q => winding.automaton.next q .epsilon) [0] 2).pending = [] ∧
      (Worklist.after winding.automaton.successors [0] 4).pending = [] ∧
      (Worklist.after winding.automaton.predecessors [2] 4).pending = [] := by
  have hA : winding.automaton.Assembled := ⟨winding, rfl⟩
  have hzero : 0 < winding.automaton.size := by decide
  obtain ⟨_, hreachable, hproductive, hclosure, hsuccessors, hpredecessors⟩ :=
    mem_closures_iff_exists_path hA hzero
  refine ⟨hA, hzero, by decide, by decide, by decide, ?_, ?_, hclosure.ends, hsuccessors.ends,
    (hpredecessors [2] (by decide)).ends⟩
  · rw [← hreachable 3]
    decide
  · rw [← hproductive 4]
    decide

end Automaton

end Acceptors
