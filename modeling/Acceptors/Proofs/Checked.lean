import Acceptors.Checked
import Acceptors.Proofs.Meaning

/-!
The operations under assertions give what the plain ones do, wherever the automaton that they are
applied to has its initial state, its targets and its numbers right: no state is looked up that is
not there, and what is put together is numbered by position again. One lemma for each operation,
`withoutEpsilon_eq_ok` to `toExpression_eq`. Main statements beside them: `ofNodes_eq_ok`, for
automata read off graphs, and `ofBlocks_eq_ok`, for those of the blocks of a partition.
-/

namespace Acceptors

/-! ## Lists -/

namespace Checked

variable {α β κ : Type}

@[simp] theorem ok_bind {a : α} {f : α → Checked β} : ((.ok a : Checked α) >>= f) = f a := rfl

@[simp] theorem pure_eq_ok (a : α) : (pure a : Checked α) = .ok a := rfl

theorem lookUp_eq_ok {xs : List α} {i : Nat} {x : α} (h : xs[i]? = some x) :
    lookUp xs i = .ok x := by
  rw [lookUp, h]

theorem modifyAt_eq_ok {xs : List α} {i : Nat} (h : i < xs.length) (f : α → α) :
    modifyAt xs i f = .ok (xs.modify i f) := by
  have hget : xs[i]? = some xs[i] := List.getElem?_eq_getElem h
  rw [modifyAt, lookUp_eq_ok hget, List.modify_eq_set_getElem?, hget]
  rfl

theorem mapM_eq_ok_of_forall₂ {f : α → Checked β} {xs : List α} {ys : List β}
    (h : List.Forall₂ (fun x y => f x = .ok y) xs ys) : xs.mapM f = .ok ys := by
  induction h with
  | nil => rfl
  | cons hxy _ ih =>
    rw [List.mapM_cons, hxy, ih]
    rfl

theorem mapM_eq_ok {f : α → Checked β} {g : α → β} {xs : List α} (h : ∀ x ∈ xs, f x = .ok (g x)) :
    xs.mapM f = .ok (xs.map g) :=
  mapM_eq_ok_of_forall₂ (List.forall₂_map_right_iff.mpr (List.forall₂_same.mpr h))

/-- What is computed of the entries and their positions. -/
theorem mapM_zipIdx_eq_ok {f : α × Nat → Checked β} {g : α → β} {xs : List α}
    (h : ∀ i x, xs[i]? = some x → f (x, i) = .ok (g x)) : xs.zipIdx.mapM f = .ok (xs.map g) := by
  rw [mapM_eq_ok (g := fun entry => g entry.1) fun entry hentry =>
    h entry.2 entry.1 (List.mem_zipIdx_iff_getElem?.mp hentry)]
  have hfst : xs.zipIdx.map (fun entry => g entry.1) = (xs.zipIdx.map Prod.fst).map g :=
    List.map_map.symm
  rw [hfst, List.zipIdx_map_fst]

/-- Changes at positions of a list are made one after the other, at each position those that are
meant for it. -/
theorem foldlM_modifyAt {position : β → Nat} {f : β → α → α} {es : List β} {xs : List α}
    (h : ∀ e ∈ es, position e < xs.length) :
    es.foldlM (fun xs e => modifyAt xs (position e) (f e)) xs =
      .ok (xs.mapIdx fun i x =>
        (es.filter fun e => position e == i).foldl (fun x e => f e x) x) := by
  induction es generalizing xs with
  | nil =>
    simp only [List.foldlM_nil, List.filter_nil, List.foldl_nil, pure_eq_ok,
      List.mapIdx_eq_zipIdx_map, List.zipIdx_map_fst]
  | cons e es ih =>
    rw [List.foldlM_cons, modifyAt_eq_ok (h e List.mem_cons_self), ok_bind,
      ih fun d hd => by simpa using h d (List.mem_cons_of_mem e hd)]
    refine congrArg Except.ok (List.ext_getElem (by simp) fun i hi _ => ?_)
    by_cases he : position e = i <;> simp [he]

/-- What is made of each entry is kept as a whole or not at all. -/
theorem filter_flatMap_of_forall {p : β → Bool} {r : α → Bool} {f : α → List β} {xs : List α}
    (h : ∀ x ∈ xs, ∀ y ∈ f x, p y = r x) : (xs.flatMap f).filter p = (xs.filter r).flatMap f := by
  induction xs with
  | nil => rfl
  | cons x xs ih =>
    have hx : (f x).filter p = if r x then f x else [] := by
      cases hr : r x with
      | true => exact List.filter_eq_self.mpr fun y hy => (h x List.mem_cons_self y hy).trans hr
      | false =>
        exact List.filter_eq_nil_iff.mpr fun y hy => by simp [h x List.mem_cons_self y hy, hr]
    rw [List.flatMap_cons, List.filter_append, hx, ih fun y hy => h y (List.mem_cons_of_mem x hy),
      List.filter_cons]
    split <;> simp

theorem exploreFrom_eq_ok [DecidableEq κ] {P : α → Prop} {key : α → κ} {next : α → List α}
    {visit : α → Checked (List α)} (hvisit : ∀ x, P x → visit x = .ok (next x))
    (hP : ∀ x, P x → ∀ y ∈ next x, P y) (n : Nat) {found level : List α}
    (hlevel : ∀ x ∈ level, P x) :
    exploreFrom key visit n found level = .ok (Acceptors.exploreFrom key next n found level) := by
  induction n generalizing found level with
  | zero => rfl
  | succ n ih =>
    rw [exploreFrom, Acceptors.exploreFrom, mapM_eq_ok fun x hx => hvisit x (hlevel x hx), ok_bind,
      ← List.flatMap_def]
    have hnew : ∀ x ∈ fresh key found (level.flatMap next), P x := fun x hx => by
      obtain ⟨y, hy, hxy⟩ := List.mem_flatMap.mp (mem_fresh hx).1
      exact hP y (hlevel y hy) x hxy
    cases hfresh : fresh key found (level.flatMap next) with
    | nil => rfl
    | cons x new => exact ih (hfresh ▸ hnew)

/-- Where no node met is a breach, exploration is the plain one. -/
theorem explore_eq_ok [DecidableEq α] {P : α → Prop} (next : α → List α)
    {visit : α → Checked (List α)}
    (hvisit : ∀ x, P x → visit x = .ok (next x)) (hP : ∀ x, P x → ∀ y ∈ next x, P y) (n : Nat)
    {start : List α} (hstart : ∀ x ∈ start, P x) :
    explore visit n start = .ok (Acceptors.explore next (n + 1) start) :=
  exploreFrom_eq_ok hvisit hP (n + 1) fun x hx => hstart x (mem_fresh hx).1

end Checked

namespace Automaton

variable {A B : FiniteAutomaton}

/-! ## States -/

/-- The state at a position; where there is none, one without edges. -/
def stateAt (A : FiniteAutomaton) (q : Nat) : State Nat := A.states.getD q ⟨q, "", false, ∅⟩

theorem stateAt_eq {q : Nat} {state : State Nat} (h : A.states[q]? = some state) :
    A.stateAt q = state := by
  rw [stateAt, List.getD_eq_getElem?_getD, h, Option.getD_some]

@[simp] theorem next_stateAt (q : Nat) (s : Symbol) : (A.stateAt q).next s = A.next q s := by
  rw [stateAt, List.getD_eq_getElem?_getD, next]
  cases A.states[q]? <;> rfl

@[simp] theorem edges_stateAt (q : Nat) : (A.stateAt q).edges = A.edges q := by
  rw [stateAt, List.getD_eq_getElem?_getD, edges]
  cases A.states[q]? <;> rfl

@[simp] theorem terminal_stateAt (q : Nat) : (A.stateAt q).terminal = A.isTerminal q := by
  rw [stateAt, List.getD_eq_getElem?_getD, isTerminal]
  cases A.states[q]? <;> rfl

theorem label_stateAt {q : Nat} (hq : q < A.size) : (A.stateAt q).label = A.label q := by
  have hget : A.states[q]? = some A.states[q] := List.getElem?_eq_getElem hq
  rw [stateAt_eq hget, label, hget]

/-- What is made of the states one by one can be made of their positions. -/
theorem map_states {β : Type} {f : State Nat → β} {g : Nat → β}
    (h : ∀ q state, A.states[q]? = some state → f state = g q) :
    A.states.map f = (List.range A.size).map g := by
  refine List.ext_getElem (by simp [size]) fun i hi _ => ?_
  rw [List.length_map] at hi
  rw [List.getElem_map, List.getElem_map, List.getElem_range]
  exact h i _ (List.getElem?_eq_getElem hi)

end Automaton

namespace Checked

open Automaton

variable {A B : FiniteAutomaton}

/-- The assertions hold of the parts of an automaton that is numbered by position. -/
theorem fromParts_parts (hinitial : A.initial < A.size) (hindexed : A.Indexed) :
    fromParts A.parts = .ok A := by
  rw [fromParts, if_pos]
  · exact if_pos hinitial
  · rw [List.all_eq_true]
    rintro ⟨q, i⟩ hq
    exact beq_iff_eq.mpr (hindexed i q (List.mem_zipIdx_iff_getElem?.mp hq))

theorem lookUp_states {q : Nat} (hq : q < A.size) : lookUp A.states q = .ok (A.stateAt q) := by
  have hget : A.states[q]? = some A.states[q] := List.getElem?_eq_getElem hq
  rw [lookUp_eq_ok hget, stateAt_eq hget]

theorem mapM_lookUp_states {qs : List Nat} (hqs : ∀ q ∈ qs, q < A.size) :
    qs.mapM (lookUp A.states) = .ok (qs.map A.stateAt) :=
  mapM_eq_ok fun q hq => lookUp_states (hqs q hq)

/-! ## Walks -/

/-- Exploration among the states of an automaton. -/
theorem explore_states_eq_ok (next : Nat → List Nat) {visit : Nat → Checked (List Nat)}
    (hvisit : ∀ q < A.size, visit q = .ok (next q)) (hnext : ∀ q < A.size, ∀ r ∈ next q, r < A.size)
    {start : List Nat} (hstart : ∀ q ∈ start, q < A.size) :
    explore visit A.size start = .ok (Acceptors.explore next A.size start) := by
  rw [explore_eq_ok next hvisit hnext A.size hstart]
  refine congrArg Except.ok
    (explore_eq_of_le (U := List.range A.size) ?_ (by simp) (Nat.le_succ _) ?_)
  · simpa using hnext
  · simpa using hstart

theorem epsilonClosure_eq_ok (hA : A.WellFormed) {qs : List Nat} (hqs : ∀ q ∈ qs, q < A.size) :
    epsilonClosure A qs = .ok (A.epsilonClosure qs) := by
  rw [epsilonClosure, explore_states_eq_ok (fun q => A.next q .epsilon) _
    (fun q _ r hr => hA.target_lt hr) hqs]
  · rfl
  · intro q hq
    simp [lookUp_states hq]

theorem reachable_eq_ok (hA : A.WellFormed) {q : Nat} (hq : q < A.size) :
    reachable A q = .ok (A.reachable q) := by
  rw [reachable, explore_states_eq_ok A.successors _ _ (by simpa using hq)]
  · rfl
  · intro q hq
    simp [lookUp_states hq, successors]
  · intro q _ r hr
    obtain ⟨s, hs⟩ := mem_successors.mp hr
    exact hA.target_lt hs

theorem sources_eq_ok (hA : A.Intact) :
    sources A = .ok ((List.range A.size).map A.predecessors) := by
  have harrows : (A.states.flatMap fun q => q.edges.map fun edge => (edge.2, q.index)) =
      A.allEdges.map fun edge => (edge.2.2, edge.1) := by
    rw [List.flatMap_def, allEdges, List.map_flatMap, List.flatMap_def]
    refine congrArg List.flatten (map_states fun p state hstate => ?_)
    simp [edges, hstate, hA.indexed p state hstate, Function.comp_def]
  rw [sources, harrows, foldlM_modifyAt]
  · refine congrArg Except.ok (List.ext_getElem (by simp) fun i hi _ => ?_)
    rw [List.getElem_mapIdx, List.getElem_map, List.getElem_range, predecessors,
      List.foldl_append_eq_append, List.filter_map, ← List.flatMap_def, ← List.map_eq_flatMap]
    simp [Function.comp_def]
  · simp only [List.mem_map, Prod.exists, mem_allEdges, List.length_replicate]
    rintro _ ⟨p, s, q, hs, rfl⟩
    exact hA.wellFormed.target_lt hs

theorem productive_eq_ok (hA : A.Intact) : productive A = .ok A.productive := by
  have hstart : (A.states.filter (·.terminal)).map (·.index) = A.terminals := by
    have hpairs : A.states.map (fun q => (q.terminal, q.index)) =
        (List.range A.size).map fun q => (A.isTerminal q, q) :=
      map_states fun q state hstate => by
        rw [← terminal_stateAt, stateAt_eq hstate, hA.indexed q state hstate]
    have hkept := congrArg (fun pairs => (pairs.filter (·.1)).map (·.2)) hpairs
    simpa [terminals, List.filter_map, Function.comp_def] using hkept
  rw [productive, sources_eq_ok hA, ok_bind, hstart, productive_eq,
    explore_states_eq_ok A.predecessors]
  · rfl
  · intro q hq
    exact lookUp_eq_ok (by simp [hq])
  · intro q _ p hp
    obtain ⟨s, hs⟩ := mem_successors.mp (mem_predecessors.mp hp)
    exact source_lt hs
  · intro q hq
    exact lt_of_isTerminal (mem_terminals.mp hq)

/-! ## Operations -/

theorem close_eq_ok (hA : A.Intact) {q : Nat} {state : State Nat}
    (hstate : A.states[q]? = some state) :
    close A state = .ok ⟨q, state.name, (A.epsilonClosure [q]).toList.any A.isTerminal,
      Table.ofEdges (((A.epsilonClosure [q]).toList.flatMap A.edges).filter
        fun edge => !edge.1.isEpsilon)⟩ := by
  have hq : q < A.size := (List.getElem?_eq_some_iff.mp hstate).1
  rw [close, hA.indexed q state hstate, epsilonClosure_eq_ok hA.wellFormed (by simpa using hq),
    ok_bind, mapM_lookUp_states]
  · simp [Function.comp_def, List.any_map, List.flatMap_map]
  · intro r hr
    rw [SortedSet.mem_toList, mem_epsilonClosure_singleton hA.wellFormed hq] at hr
    exact hA.wellFormed.lt_of_walk hr hq

theorem withoutEpsilon_eq_ok (hA : A.Intact) :
    withoutEpsilon A = .ok A.withoutEpsilon := by
  have hstates : A.states.mapM (close A) = .ok A.withoutEpsilon.states := by
    refine mapM_eq_ok_of_forall₂
      (List.forall₂_iff_get.mpr ⟨by simp [Automaton.withoutEpsilon], fun i hi _ => ?_⟩)
    have hget : A.states[i]? = some A.states[i] := List.getElem?_eq_getElem hi
    rw [List.get_eq_getElem, close_eq_ok hA hget]
    simp [Automaton.withoutEpsilon, hA.indexed i _ hget]
  rw [withoutEpsilon, hstates, ok_bind]
  exact fromParts_parts hA.wellFormed.withoutEpsilon.initial_lt hA.indexed.withoutEpsilon

theorem epsilonFree_eq_ok (hA : A.Intact) :
    epsilonFree A = .ok A.epsilonFree := by
  unfold epsilonFree Automaton.epsilonFree
  split
  · exact withoutEpsilon_eq_ok hA
  · rfl

/-! ### Graphs -/

section Graphs

variable {α : Type} [DecidableEq α] {g : Graph α} {n : Nat} {P : α → Prop}
    {visit : α → Checked (Node α)}

theorem stateOf_eq_ok {nodes : List α} {x : α}
    (hvisit : visit x = .ok ⟨g.name x, g.terminal x, g.edges x⟩)
    (hnodes : ∀ s y, g.Step x s y → y ∈ nodes) :
    stateOf visit nodes x (nodes.idxOf x) = .ok (g.state nodes x) := by
  rw [stateOf, hvisit, ok_bind, mapM_eq_ok (g := fun edge => (edge.1, nodes.idxOf edge.2))]
  · rfl
  · rintro ⟨s, y⟩ hedge
    simp [numberOf, hnodes s y hedge]

/-- Where the nodes met can be visited, the automaton of the graph is put together, its states
carrying their positions in the order of discovery. -/
theorem ofNodes_eq_ok (hg : g.Bounded n) (hstart : P g.start)
    (hvisit : ∀ x, P x → visit x = .ok ⟨g.name x, g.terminal x, g.edges x⟩)
    (hP : ∀ x s y, P x → g.Step x s y → P y) (alphabet : Alphabet) :
    ofNodes visit n g.start alphabet = .ok (g.toAutomaton n alphabet) := by
  have hlists := hg.lists_nodes
  have hmet : ∀ x ∈ g.nodes n, P x := by
    intro x hx
    obtain ⟨w, hw⟩ := hg.mem_nodes.mp hx
    exact hw.keeps (I := P) (fun x s y hs hx => hP x s y hx hs) hstart
  have hnodes :
      explore (fun x => return (← visit x).edges.map (·.2)) n [g.start] = .ok (g.nodes n) := by
    rw [explore_eq_ok (P := P) (fun x => (g.edges x).map (·.2))
      (fun x hx => by rw [hvisit x hx]; rfl)
      (fun x hx y hy => ?_) n (by simpa using hstart)]
    · exact congrArg Except.ok (hg.nodes_eq (Nat.le_succ n))
    · obtain ⟨⟨s, y⟩, hedge, rfl⟩ := List.mem_map.mp hy
      exact hP x s y hx hedge
  have hstates :
      (g.nodes n).zipIdx.mapM (fun entry => stateOf visit (g.nodes n) entry.1 entry.2) =
      .ok (g.toAutomaton n alphabet).states := by
    refine mapM_zipIdx_eq_ok fun i x hx => ?_
    obtain ⟨hi, rfl⟩ := List.getElem?_eq_some_iff.mp hx
    have hmem := List.getElem_mem hi
    have hindex := hlists.nodup.idxOf_getElem i hi
    exact (congrArg _ hindex.symm).trans
      (stateOf_eq_ok (hvisit _ (hmet _ hmem)) (hlists.closed _ hmem))
  rw [ofNodes, hnodes, ok_bind, hstates, ok_bind]
  refine fromParts_parts (A := g.toAutomaton n alphabet) ?_ (Graph.indexed_toAutomaton g n alphabet)
  rw [Graph.toAutomaton_eq_numbered]
  exact hlists.wellFormed_numbered.initial_lt

theorem canonical_eq_ok (hA : A.WellFormed) : canonical A = .ok A.canonical := by
  refine ofNodes_eq_ok (g := A.graph) (P := (· < A.size)) (bounded_graph hA) hA.initial_lt
    (fun q hq => ?_)
    (fun p s q _ hs => hA.target_lt (step_graph.mp hs)) A.alphabet
  have hget : A.states[q]? = some A.states[q] := List.getElem?_eq_getElem hq
  rw [visitState, lookUp_eq_ok hget]
  simp [graph, hget, isTerminal, edges]

theorem visitSubset_eq_ok {qs : SortedSet Nat} (hqs : ∀ q ∈ qs, q < A.size) :
    visitSubset A qs = .ok ⟨A.subsets.name qs, A.subsets.terminal qs, A.subsets.edges qs⟩ := by
  have hlabels : (qs.toList.map A.stateAt).map State.label = qs.toList.map A.label := by
    rw [List.map_map]
    exact List.map_congr_left fun q hq => label_stateAt (hqs q (SortedSet.mem_toList.mp hq))
  rw [visitSubset, mapM_lookUp_states fun q hq => hqs q (SortedSet.mem_toList.mp hq), ok_bind,
    hlabels]
  simp only [pure_eq_ok, List.any_map, List.flatMap_map, Function.comp_def, terminal_stateAt,
    next_stateAt]
  rfl

theorem determinize_eq_ok (hA : A.Intact) :
    determinize A = .ok A.determinize := by
  rw [determinize, epsilonFree_eq_ok hA, ok_bind, alphabet_epsilonFree]
  refine ofNodes_eq_ok (g := A.epsilonFree.subsets)
    (P := fun qs => ∀ q ∈ qs, q < A.epsilonFree.size)
    (bounded_subsets_epsilonFree hA.wellFormed) (fun q hq => ?_)
    (fun qs hqs => visitSubset_eq_ok hqs)
    (fun qs s rs _ hs r hr => ?_) A.alphabet
  · rw [SortedSet.mem_singleton.mp hq]
    exact hA.epsilonFree.wellFormed.initial_lt
  · obtain ⟨_, rfl, _⟩ := step_subsets.mp hs
    obtain ⟨q, _, hqr⟩ := mem_move.mp hr
    exact hA.epsilonFree.wellFormed.target_lt hqr

theorem visitPair_eq_ok {p q : Nat} (hp : p < A.size) (hq : q < B.size) :
    visitPair A B (p, q) =
      .ok ⟨(A.pairs B).name (p, q), (A.pairs B).terminal (p, q), (A.pairs B).edges (p, q)⟩ := by
  rw [visitPair, lookUp_states hp, ok_bind, lookUp_states hq, ok_bind, label_stateAt hp,
    label_stateAt hq]
  simp [pairs]

theorem intersection_eq_ok (hA : A.Intact) (hB : B.Intact) :
    intersection A B = .ok (A.intersection B) := by
  rw [intersection, epsilonFree_eq_ok hA, ok_bind, epsilonFree_eq_ok hB, ok_bind,
    alphabet_epsilonFree, alphabet_epsilonFree, size_epsilonFree, size_epsilonFree]
  refine ofNodes_eq_ok (g := A.epsilonFree.pairs B.epsilonFree)
    (P := fun x => x.1 < A.epsilonFree.size ∧ x.2 < B.epsilonFree.size)
    (bounded_pairs_epsilonFree hA.wellFormed hB.wellFormed)
    ⟨hA.epsilonFree.wellFormed.initial_lt, hB.epsilonFree.wellFormed.initial_lt⟩
    (fun x hx => visitPair_eq_ok hx.1 hx.2)
    (fun x s y _ hs => ?_) _
  obtain ⟨hx, hy⟩ := step_pairs.mp hs
  exact ⟨hA.epsilonFree.wellFormed.target_lt hx, hB.epsilonFree.wellFormed.target_lt hy⟩

end Graphs

/-! ### Completion -/

theorem initial_complete_lt (hA : A.WellFormed) : A.complete.initial < A.complete.size := by
  rw [initial_complete]
  exact hA.initial_lt.trans_le size_le_complete

theorem complete_eq_ok (hA : A.Intact) : complete A = .ok A.complete := by
  rw [complete]
  split
  · rename_i h
    rw [Automaton.complete, if_pos h]
  · exact fromParts_parts (initial_complete_lt hA.wellFormed) hA.indexed.complete

theorem complement_eq_ok (hA : A.Intact) (hdet : A.isDeterministic = true) :
    complement A = .ok A.complement := by
  rw [complement, if_pos hdet, complete_eq_ok hA, ok_bind]
  exact fromParts_parts (A := A.complement)
    (size_complement ▸ initial_complete_lt hA.wellFormed) hA.indexed.complement

theorem complement_eq_ok_iff (hA : A.Intact) :
    complement A = .ok B ↔ A.isDeterministic = true ∧ A.complement = B := by
  by_cases hdet : A.isDeterministic = true
  · simp [complement_eq_ok hA hdet, hdet]
  · simp [complement, hdet]

end Checked

/-! ### Blocks -/

namespace Automaton

open Acceptors.Partition

variable {A : FiniteAutomaton} {blocks : Array Nat} {edges : List (Nat × Symbol × Nat)}

/-- The state of a block without its edges. -/
def bareBlock (A : FiniteAutomaton) (blocks : Array Nat) (b : Nat) : State Nat :=
  ⟨b, A.labels (group blocks b), ((group blocks b).take 1).any A.isTerminal, ∅⟩

/-- One state for each block, with those of the edges that start from its members. -/
def collapse (A : FiniteAutomaton) (blocks : Array Nat) (edges : List (Nat × Symbol × Nat)) :
    FiniteAutomaton :=
  ⟨blockOf blocks A.initial,
    (List.range (groups blocks).length).map fun b =>
      { A.bareBlock blocks b with
        table := .ofEdges ((edges.filter fun edge => blockOf blocks edge.1 == b).map fun edge =>
          (edge.2.1, blockOf blocks edge.2.2)) },
    A.alphabet⟩

theorem eq_collapse (h : Ranked blocks) {table : List Nat → Table Nat}
    (htable : ∀ b < (groups blocks).length, table (group blocks b) =
      Table.ofEdges ((edges.filter fun edge => blockOf blocks edge.1 == b).map fun edge =>
        (edge.2.1, blockOf blocks edge.2.2))) :
    (⟨blockOf blocks A.initial,
      (groups blocks).map fun group =>
        ⟨blockOf blocks (group.headD 0), A.labels group, (group.take 1).any A.isTerminal,
          table group⟩,
      A.alphabet⟩ : FiniteAutomaton) = A.collapse blocks edges := by
  refine congrArg (fun states => Automaton.mk _ states _) ?_
  conv_lhs => rw [groups_eq_map_group]
  rw [List.map_map]
  refine List.map_congr_left fun b hb => ?_
  have hb := List.mem_range.mp hb
  simp only [Function.comp_apply, bareBlock, blockOf_headD_group h hb, htable b hb]

theorem indexed_collapse : (A.collapse blocks edges).Indexed := by
  intro b q hq
  rw [collapse, List.getElem?_map, Option.map_eq_some_iff] at hq
  obtain ⟨c, hc, rfl⟩ := hq
  obtain ⟨_, rfl⟩ := List.getElem?_eq_some_iff.mp hc
  exact List.getElem_range _

end Automaton

namespace Checked

open Automaton Acceptors.Partition

variable {A B : FiniteAutomaton} {blocks : Array Nat} {edges : List (Nat × Symbol × Nat)}

theorem lookUp_blocks {q : Nat} (hq : q < blocks.size) :
    lookUp blocks.toList q = .ok (blockOf blocks q) :=
  lookUp_eq_ok (by simp [blockOf, hq])

theorem stateOfBlock_eq_ok {b : Nat} {group : List Nat} (hgroup : ∀ q ∈ group, q < A.size)
    (hne : group ≠ []) :
    stateOfBlock A b group = .ok ⟨b, A.labels group, (group.take 1).any A.isTerminal, ∅⟩ := by
  obtain ⟨p, rest, rfl⟩ := List.exists_cons_of_ne_nil hne
  have hlabels : ((p :: rest).map A.stateAt).map State.label = (p :: rest).map A.label := by
    rw [List.map_map]
    exact List.map_congr_left fun q hq => label_stateAt (hgroup q hq)
  rw [stateOfBlock, mapM_lookUp_states hgroup, ok_bind, lookUp_eq_ok (x := A.stateAt p) rfl,
    ok_bind, hlabels]
  simp [labels]

/-- Each state gets the edges that start from its position, in the order in which they come. -/
theorem connectAll_eq_ok {states result : List (State Nat)}
    (hedges : ∀ edge ∈ edges, edge.1 < states.length) (hlength : result.length = states.length)
    (hresult : ∀ i (q r : State Nat), states[i]? = some q → result[i]? = some r →
      r = { q with
        table := ((edges.filter fun edge => edge.1 == i).map (·.2)).foldl Table.connect q.table }) :
    connectAll states edges = .ok result := by
  have htables (es : List (Nat × Symbol × Nat)) (q : State Nat) :
      es.foldl (fun q edge => { q with table := q.table.connect edge.2 }) q =
        { q with table := (es.map (·.2)).foldl Table.connect q.table } := by
    induction es generalizing q with
    | nil => rfl
    | cons edge es ih => exact ih _
  rw [connectAll, foldlM_modifyAt hedges]
  refine congrArg Except.ok (List.ext_getElem (by simp [hlength]) fun i hi hi' => ?_)
  rw [List.length_mapIdx] at hi
  rw [List.getElem_mapIdx, htables]
  exact (hresult i _ _ (List.getElem?_eq_getElem hi) (List.getElem?_eq_getElem hi')).symm

/-- Each block has a member to speak for it. -/
theorem mapM_stateOfBlock (hblocks : Ranked blocks) (hsize : blocks.size = A.size) :
    (members blocks).entries.mapM (fun entry => stateOfBlock A entry.1 entry.2) =
      .ok ((List.range (groups blocks).length).map (A.bareBlock blocks)) := by
  rw [entries_members hblocks, List.mapM_map, mapM_eq_ok]
  intro b hb
  refine stateOfBlock_eq_ok (fun q hq => ?_) ((group_ne_nil_iff hblocks).mpr (List.mem_range.mp hb))
  exact hsize ▸ (mem_group.mp hq).1

/-- The block of a state is the position of the state that is made for it. -/
theorem connectAll_bareBlocks
    (hedges : ∀ edge ∈ edges, blockOf blocks edge.1 < (groups blocks).length) :
    connectAll ((List.range (groups blocks).length).map (A.bareBlock blocks))
        (edges.map fun edge => (blockOf blocks edge.1, edge.2.1, blockOf blocks edge.2.2)) =
      .ok (A.collapse blocks edges).states := by
  refine connectAll_eq_ok ?_ (by simp [collapse]) fun b q r hq hr => ?_
  · simp only [List.mem_map, forall_exists_index, and_imp, List.length_map, List.length_range]
    rintro _ edge hedge rfl
    exact hedges edge hedge
  · rw [List.getElem?_map, Option.map_eq_some_iff] at hq
    rw [collapse, List.getElem?_map] at hr
    obtain ⟨c, hc, rfl⟩ := hq
    obtain ⟨_, rfl⟩ := List.getElem?_eq_some_iff.mp hc
    rw [hc] at hr
    cases hr
    simp [bareBlock, List.filter_map, Function.comp_def, Table.ofEdges]

theorem ofBlocks_eq_ok (hA : A.WellFormed) (hblocks : Ranked blocks) (hsize : blocks.size = A.size)
    (hedges : ∀ edge ∈ edges, edge.1 < A.size ∧ edge.2.2 < A.size) :
    ofBlocks A blocks edges = .ok (A.collapse blocks edges) := by
  have hlt : ∀ q < A.size, blockOf blocks q < (groups blocks).length := fun q hq =>
    (lt_length_groups_iff hblocks).mpr ⟨q, hsize ▸ hq, rfl⟩
  have hnumbered : edges.mapM (fun edge => do
      return (← lookUp blocks.toList edge.1, edge.2.1, ← lookUp blocks.toList edge.2.2)) =
        .ok (edges.map fun edge => (blockOf blocks edge.1, edge.2.1, blockOf blocks edge.2.2)) := by
    refine mapM_eq_ok fun edge hedge => ?_
    obtain ⟨hp, hq⟩ := hedges edge hedge
    simp [lookUp_blocks (hsize ▸ hp), lookUp_blocks (hsize ▸ hq)]
  rw [ofBlocks, mapM_stateOfBlock hblocks hsize, ok_bind, hnumbered, ok_bind,
    connectAll_bareBlocks fun edge hedge => hlt _ (hedges edge hedge).1, ok_bind,
    lookUp_blocks (hsize ▸ hA.initial_lt), ok_bind]
  refine fromParts_parts (A := A.collapse blocks edges) ?_ indexed_collapse
  rw [size, collapse, List.length_map, List.length_range]
  exact hlt A.initial hA.initial_lt

theorem mergeBisimilar_eq_ok (hA : A.Intact) :
    mergeBisimilar A = .ok A.mergeBisimilar := by
  have hedges :
      (A.states.flatMap fun q => q.edges.map fun edge => (q.index, edge)) = A.allEdges := by
    rw [List.flatMap_def, allEdges, List.flatMap_def]
    refine congrArg List.flatten (map_states fun p state hstate => ?_)
    simp [Automaton.edges, hstate, hA.indexed p state hstate]
  have hcollapse : A.mergeBisimilar = A.collapse (bisimulationBlocks A.states) A.allEdges := by
    refine eq_collapse (ranked_bisimulationBlocks A) fun b _ => ?_
    rw [allEdges,
      filter_flatMap_of_forall (r := fun q => blockOf (bisimulationBlocks A.states) q == b)]
    · simp [group, size_bisimulationBlocks, List.map_flatMap, Function.comp_def]
    · intro p _ edge hedge
      obtain ⟨_, _, rfl⟩ := List.mem_map.mp hedge
      rfl
  rw [mergeBisimilar, hedges, hcollapse]
  refine ofBlocks_eq_ok hA.wellFormed (ranked_bisimulationBlocks A) (size_bisimulationBlocks A) ?_
  rintro ⟨p, s, q⟩ hedge
  have hs := mem_allEdges.mp hedge
  exact ⟨source_lt hs, hA.wellFormed.target_lt hs⟩

/-- The first members of the blocks speak for all. -/
theorem quotient_eq_collapse (h : Ranked blocks) :
    A.quotient blocks = A.collapse blocks (spokenEdges A blocks) := by
  refine eq_collapse h fun b hb => ?_
  have hself : (List.range (groups blocks).length).filter (· == b) = [b] := by
    rw [List.filter_beq, List.count_eq_one_of_mem List.nodup_range (List.mem_range.mpr hb),
      List.replicate_one]
  rw [spokenEdges, SortedMap.values, entries_members h, List.map_map, List.flatMap_map,
    filter_flatMap_of_forall (r := fun c => c == b), hself]
  · simp [List.map_flatMap, List.map_filterMap, Function.comp_def]
  · intro c _ edge hedge
    simp only [Function.comp_apply, List.mem_flatMap, List.mem_filterMap,
      Option.map_eq_some_iff] at hedge
    obtain ⟨q, hq, s, _, r, _, rfl⟩ := hedge
    rw [(mem_group.mp (List.mem_of_mem_take hq)).2]

theorem step_of_mem_spokenEdges (h : Ranked blocks) {p q : Nat} {s : Symbol}
    (hedge : (p, s, q) ∈ spokenEdges A blocks) : p < blocks.size ∧ A.Step p s q := by
  simp only [spokenEdges, SortedMap.values, entries_members h, List.mem_flatMap, List.mem_map,
    List.mem_filterMap, Option.map_eq_some_iff] at hedge
  obtain ⟨_, ⟨_, ⟨b, _, rfl⟩, rfl⟩, _, hp, s, _, r, hr, heq⟩ := hedge
  cases heq
  exact ⟨(mem_group.mp (List.mem_of_mem_take hp)).1, List.mem_of_mem_head? hr⟩

theorem minimize_eq_ok (hA : A.Intact) (hdet : A.isDeterministic = true) :
    minimize A = .ok A.minimize := by
  have hinitial := hA.wellFormed.initial_lt
  rw [minimize, if_pos hdet, reachable_eq_ok hA.wellFormed hinitial, ok_bind, productive_eq_ok hA,
    ok_bind]
  by_cases h : A.initial ∈ A.productive
  · have htrim := trimmed_trim hA.toLabelled (deterministic_of_isDeterministic hdet) h
    have hreduced := htrim.reduced_classes
    rw [if_pos h, minimize_of_productive h]
    show (ofBlocks A.trim A.trim.equivalenceBlocks (spokenEdges A.trim A.trim.equivalenceBlocks) >>=
        canonical) = _
    rw [ofBlocks_eq_ok htrim.wellFormed (ranked_equivalenceBlocks _) (size_equivalenceBlocks _),
      ← quotient_eq_collapse (ranked_equivalenceBlocks _), ok_bind]
    · exact canonical_eq_ok hreduced.labelled.wellFormed
    · rintro ⟨p, s, q⟩ hedge
      obtain ⟨hp, hs⟩ := step_of_mem_spokenEdges (ranked_equivalenceBlocks _) hedge
      exact ⟨size_equivalenceBlocks A.trim ▸ hp, htrim.wellFormed.target_lt hs⟩
  · rw [if_neg h, minimize_of_not_productive h, lookUp_states hinitial, ok_bind,
      label_stateAt hinitial]
    rfl

theorem minimize_eq_ok_iff (hA : A.Intact) :
    minimize A = .ok B ↔ A.isDeterministic = true ∧ A.minimize = B := by
  by_cases hdet : A.isDeterministic = true
  · simp [minimize_eq_ok hA hdet, hdet]
  · simp [minimize, hdet]

theorem minimal_eq_ok (hA : A.Intact) : minimal A = .ok A.determinize.minimize := by
  rw [minimal, determinize_eq_ok hA, ok_bind]
  exact minimize_eq_ok hA.determinize (isDeterministic_determinize hA.wellFormed)

/-! ### Transformations -/

theorem delta_eq_ok (hA : A.Intact) : delta A = .ok (TransformationMonoid.deltaOf A) := by
  rw [delta, TransformationMonoid.deltaOf]
  split
  · rfl
  · rw [complete_eq_ok hA, ok_bind, pure_eq_ok]
    refine congrArg Except.ok (map_states fun q state hstate => ?_)
    have hindex := hA.complete.indexed q state hstate
    simp only [TransformationMonoid.row, alphabet_complete, successor, hindex, ← next_stateAt,
      stateAt_eq hstate]

theorem monoid_eq_ok (hA : A.Intact) (hdet : A.isDeterministic = true) :
    monoid A = .ok (.ofAutomaton A) := by
  rw [monoid, if_pos hdet, delta_eq_ok hA]
  rfl

/-! ### Expressions -/

theorem ofFragment_eq_ok {f : Regex.Fragment} (hf : f.Within 0) (alphabet : Alphabet) :
    ofFragment f alphabet = .ok (f.toAutomaton alphabet) := by
  have hconnected :
      connectAll ((List.range f.next).map fun q => ⟨q, Decimal.text q, false, ∅⟩) f.edges =
      .ok ((List.range f.next).map fun q => { f.state q with terminal := false }) := by
    refine connectAll_eq_ok (fun edge hedge => ?_) (by simp) fun i q r hq hr => ?_
    · rw [List.length_map, List.length_range]
      exact (hf.edge edge.1 edge.2.1 edge.2.2 hedge).1.2
    · rw [List.getElem?_map, Option.map_eq_some_iff] at hq hr
      obtain ⟨j, hj, rfl⟩ := hq
      obtain ⟨k, hk, rfl⟩ := hr
      cases hj.symm.trans hk
      obtain ⟨_, rfl⟩ := List.getElem?_eq_some_iff.mp hj
      simp [Regex.Fragment.state, Table.ofEdges]
  have hexit : f.exit < f.next := hf.exit.2
  have hstates :
      ((List.range f.next).map fun q => { f.state q with terminal := false }).modify f.exit
      (fun q => { q with terminal := true }) = (f.toAutomaton alphabet).states := by
    refine List.ext_getElem (by simp [Regex.Fragment.toAutomaton]) fun i hi _ => ?_
    by_cases hi : f.exit = i
    · simp [Regex.Fragment.toAutomaton, Regex.Fragment.state, hi]
    · simp [Regex.Fragment.toAutomaton, Regex.Fragment.state, hi, Ne.symm hi]
  rw [ofFragment, hconnected, ok_bind, modifyAt_eq_ok (by simpa using hexit), ok_bind, hstates]
  exact fromParts_parts (Regex.wellFormed_toAutomaton hf).initial_lt
    (Regex.indexed_toAutomaton f alphabet)

theorem toAutomaton_eq_ok (e : Expression) : toAutomaton e = .ok e.toAutomaton :=
  ofFragment_eq_ok (Regex.within_fragment 0 e.regex) e.alphabet

/-- Nothing but a literal without a name stands in the way of the equations. -/
theorem equations_eq (hA : A.Intact) :
    equations A =
      if EquationSystem.hasNameless A then .error .namelessLiteral else .ok (.ofAutomaton A) := by
  rw [equations, epsilonFree_eq_ok hA, ok_bind,
    reachable_eq_ok hA.wellFormed.epsilonFree hA.epsilonFree.wellFormed.initial_lt,
    ok_bind, productive_eq_ok hA.epsilonFree, ok_bind]
  rfl

theorem toExpression_eq (hA : A.Intact) :
    toExpression A =
      if EquationSystem.hasNameless A then .error .namelessLiteral else .ok (.ofAutomaton A) := by
  rw [toExpression, equations_eq hA]
  split <;> rfl

end Checked

end Acceptors
