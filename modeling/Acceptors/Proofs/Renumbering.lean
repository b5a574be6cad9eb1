import Acceptors.Proofs.Coarsest
import Acceptors.Proofs.Discovery
import Acceptors.Proofs.Relabelling
import Acceptors.Proofs.Shape

/-!
Renumbering in breadth-first order. A reached state and its number have the same edges but for the
numbering (`bisimulation_canonical`), and edges on one symbol to states not found before find these
in the order of the numbers that they get, so that a second exploration, in which edges stand in the
order of the numbers, goes on in the same order as the first one (`nodes_canonical`). Main
statement: `canonical_eq_iff_renumbering`, deterministic automata have one canonical form if and
only if their reached parts are isomorphic, and the canonical form is its own.
-/

namespace Acceptors

namespace Automaton

variable {A B : FiniteAutomaton} {p q i j : Nat} {s : Symbol}

/-- The place of a state in the order of discovery. -/
def number (A : FiniteAutomaton) (p : Nat) : Nat := (A.graph.nodes A.size).idxOf p

/-! ## States and their numbers -/

theorem number_initial (A : FiniteAutomaton) : A.number A.initial = 0 := by
  obtain ⟨rest, hrest⟩ := A.graph.nodes_eq_cons A.size
  rw [number, hrest]
  exact List.idxOf_cons_self

theorem injOn_number (A : FiniteAutomaton) : Set.InjOn A.number {p | p ∈ A.graph.nodes A.size} :=
  fun _ hp _ _ heq => (List.idxOf_inj hp).mp heq

theorem map_number_nodes (A : FiniteAutomaton) :
    (A.graph.nodes A.size).map A.number = List.range (A.graph.nodes A.size).length := by
  refine List.ext_getElem (by simp) fun i hi _ => ?_
  have hunique : (A.graph.nodes A.size).Nodup := nodup_explore A.size [A.initial]
  rw [List.getElem_map, List.getElem_range]
  exact hunique.idxOf_getElem i (by simpa using hi)

theorem size_canonical (A : FiniteAutomaton) :
    A.canonical.size = (A.graph.nodes A.size).length := by
  rw [canonical_eq_numbered, Graph.size_numbered]

theorem isTerminal_canonical (hp : p ∈ A.graph.nodes A.size) :
    A.canonical.isTerminal (A.number p) = A.isTerminal p := by
  rw [canonical_eq_numbered]
  exact Graph.isTerminal_numbered hp

theorem step_canonical (hp : p ∈ A.graph.nodes A.size) :
    A.canonical.Step (A.number p) s j ↔ ∃ q, A.Step p s q ∧ A.number q = j := by
  rw [canonical_eq_numbered, number, Graph.step_numbered hp]
  simp only [step_graph, number]

theorem bisimulation_canonical (hA : A.WellFormed) :
    Bisimulation A A.canonical fun p i => p ∈ A.graph.nodes A.size ∧ A.number p = i where
  terminal := by
    rintro p _ ⟨hp, rfl⟩
    exact (isTerminal_canonical hp).symm
  forth := by
    rintro p _ p' s ⟨hp, rfl⟩ hs
    exact ⟨A.number p', (step_canonical hp).mpr ⟨p', hs, rfl⟩,
      (lists_graph hA).closed p hp s p' (step_graph.mpr hs), rfl⟩
  back := by
    rintro p _ j s ⟨hp, rfl⟩ hs
    obtain ⟨p', hs', rfl⟩ := (step_canonical hp).mp hs
    exact ⟨p', hs', (lists_graph hA).closed p hp s p' (step_graph.mpr hs'), rfl⟩

theorem accepts_canonical (hA : A.WellFormed) (w : Word) : A.canonical.accepts w = A.accepts w :=
  ((bisimulation_canonical hA).acceptsFrom_eq hA (wellFormed_canonical hA) hA.initial_lt
    (wellFormed_canonical hA).initial_lt ⟨(lists_graph hA).start, A.number_initial⟩ w).symm

theorem mem_reached_canonical (hA : A.WellFormed) (hi : i < A.canonical.size) :
    i ∈ A.canonical.reached := by
  rw [canonical_eq_numbered] at hi ⊢
  exact (bounded_graph hA).exists_walk_numbered hi

/-! ## Renumbering again -/

theorem edges_eq_tableAt (p : Nat) : A.edges p = (A.tableAt p).edges := by
  unfold edges tableAt
  cases A.states[p]? <;> rfl

/-- The targets of the edges of a state symbol by symbol, the symbols of all its edges being listed
in order. -/
theorem targets_eq_flatMap {ss : List Symbol} (hss : ss.Pairwise fun a b => compare a b = .lt)
    (h : ∀ s q, A.Step p s q → s ∈ ss) : (A.edges p).map (·.2) = ss.flatMap (A.next p) := by
  have hedges := Table.edges_eq_flatMap (t := A.tableAt p) hss fun s q hq =>
    h s q (by rwa [Step, next_eq_tableAt])
  rw [edges_eq_tableAt, hedges, List.map_flatMap]
  refine List.flatMap_congr fun s _ => ?_
  rw [List.map_map, next_eq_tableAt]
  exact List.map_id _

/-- Edges on one symbol lead from the number of a state to the numbers of the targets, in ascending
order. -/
theorem renamed_canonical (hp : p ∈ A.graph.nodes A.size) :
    Renamed A.number ((A.edges p).map (·.2)) ((A.canonical.edges (A.number p)).map (·.2)) := by
  have hss : (A.tableAt p).keys.Pairwise fun a b => compare a b = .lt :=
    List.pairwise_map.mpr (A.tableAt p).ascending
  have hmem : ∀ s q, A.Step p s q → s ∈ (A.tableAt p).keys := by
    intro s q hs
    obtain ⟨targets, htargets⟩ :=
      Option.isSome_iff_exists.mp (hasEntry_iff_tableAt.mp (hasEntry_of_step hs))
    exact List.mem_map.mpr ⟨(s, targets), SortedMap.mem_entries_iff.mpr htargets, rfl⟩
  have hmem' : ∀ s j, A.canonical.Step (A.number p) s j → s ∈ (A.tableAt p).keys := by
    intro s j hs
    obtain ⟨q, hq, _⟩ := (step_canonical hp).mp hs
    exact hmem s q hq
  rw [targets_eq_flatMap hss hmem, targets_eq_flatMap hss hmem']
  exact .flatMap fun s _ => .group (pairwise_next _ _ s) fun j => step_canonical hp

/-- The states of a renumbered automaton are found in the order of their numbers. -/
theorem nodes_canonical (hA : A.WellFormed) :
    A.canonical.graph.nodes A.canonical.size = List.range A.canonical.size := by
  have hrange := map_number_nodes A
  have hordered : ((A.graph.nodes A.size).map A.number).Pairwise fun a b => compare a b = .lt := by
    rw [hrange]
    exact List.pairwise_lt_range.imp Nat.compare_eq_lt.mpr
  have hclosed :
      ∀ p ∈ A.graph.nodes A.size, ∀ q ∈ (A.edges p).map (·.2), q ∈ A.graph.nodes A.size := by
    intro p hp q hq
    obtain ⟨edge, hedge, rfl⟩ := List.mem_map.mp hq
    exact (lists_graph hA).closed p hp edge.1 edge.2 hedge
  have hexplored : A.canonical.graph.nodes A.size = (A.graph.nodes A.size).map A.number := by
    have hstart : explore (fun i => (A.canonical.edges i).map (·.2)) A.size [A.number A.initial] =
        (A.graph.nodes A.size).map A.number :=
      explore_map (injOn_number A) hclosed (fun p hp => renamed_canonical hp) A.size
        (lists_graph hA).start hordered
    rwa [number_initial] at hstart
  rw [← (bounded_graph (wellFormed_canonical hA)).nodes_eq (size_canonical_le hA), hexplored,
    hrange, size_canonical]

theorem idxOf_range {n : Nat} (hi : i < n) : (List.range n).idxOf i = i := by
  have h := List.nodup_range.idxOf_getElem i (by simpa using hi)
  rwa [List.getElem_range] at h

/-- An automaton without empty entries whose states are found in the order of their numbers is its
own canonical form. -/
theorem canonical_eq_self (hA : A.WellFormed) (hindexed : A.Indexed) (hfull : ∀ p s, ¬ A.Hollow p s)
    (hnodes : A.graph.nodes A.size = List.range A.size) : A.canonical = A := by
  have hsize : A.canonical.size = A.size := by
    rw [size_canonical, hnodes, List.length_range]
  have hself : ∀ i < A.size, (A.graph.nodes A.size).idxOf i = i := by
    intro i hi
    rw [hnodes]
    exact idxOf_range hi
  have hstate (i : Nat) (hi : i < A.canonical.size) (hi' : i < A.size) :
      A.canonical.states[i] = A.states[i] := by
    have hget : A.states[i]? = some A.states[i] := List.getElem?_eq_getElem hi'
    have hname : A.graph.name i = A.states[i].name := by simp [graph, hget]
    have hterminal : A.graph.terminal i = A.states[i].terminal := by simp [graph, isTerminal, hget]
    have htable :
        Table.ofEdges
          ((A.graph.edges i).map fun edge => (edge.1, (A.graph.nodes A.size).idxOf edge.2)) =
        A.states[i].table := by
      rw [show A.graph.edges i = A.edges i from rfl, map_edges_eq_self hA hself]
      exact ofEdges_edges_of_not_hollow hfull hget
    have hcanonical : A.canonical.states[i]? = some (A.graph.state (A.graph.nodes A.size) i) := by
      rw [canonical, Graph.toAutomaton, List.getElem?_map, hnodes, List.getElem?_range hi']
      rfl
    apply Option.some.inj
    rw [← List.getElem?_eq_getElem hi, hcanonical, Graph.state, hself i hi', hname, hterminal,
      htable]
    exact congrArg (fun index => some (State.mk index _ _ _)) (hindexed i _ hget).symm
  have hinitial : A.canonical.initial = A.initial := by
    rw [← hself A.initial hA.initial_lt]
    exact A.number_initial.symm
  have hstates : A.canonical.states = A.states := List.ext_getElem hsize hstate
  calc A.canonical = ⟨A.canonical.initial, A.canonical.states, A.alphabet⟩ := rfl
    _ = A := by rw [hinitial, hstates]

/-- Renumbering a renumbered automaton changes nothing. -/
theorem canonical_canonical (hA : A.WellFormed) : A.canonical.canonical = A.canonical := by
  refine canonical_eq_self (wellFormed_canonical hA) (indexed_canonical A) ?_ (nodes_canonical hA)
  rw [canonical_eq_numbered]
  exact not_hollow_of_ofEdges (Graph.table_numbered _ _ _)

/-! ## Automata with one canonical form -/

theorem bisimulation_of_canonical (hA : A.WellFormed) (hB : B.WellFormed)
    (hterminal : ∀ i, A.canonical.isTerminal i = B.canonical.isTerminal i)
    (hstep : ∀ i s j, A.canonical.Step i s j ↔ B.canonical.Step i s j) :
    Bisimulation A B fun p q =>
      p ∈ A.graph.nodes A.size ∧ q ∈ B.graph.nodes B.size ∧ A.number p = B.number q where
  terminal := by
    rintro p q ⟨hp, hq, h⟩
    rw [← isTerminal_canonical hp, h, hterminal, isTerminal_canonical hq]
  forth := by
    rintro p q p' s ⟨hp, hq, h⟩ hs
    have hs' := (hstep _ _ _).mp ((step_canonical hp).mpr ⟨p', hs, rfl⟩)
    rw [h] at hs'
    obtain ⟨q', hq', heq⟩ := (step_canonical hq).mp hs'
    exact ⟨q', hq', (lists_graph hA).closed p hp s p' (step_graph.mpr hs),
      (lists_graph hB).closed q hq s q' (step_graph.mpr hq'), heq.symm⟩
  back := by
    rintro p q q' s ⟨hp, hq, h⟩ hs
    have hs' := (hstep _ _ _).mpr ((step_canonical hq).mpr ⟨q', hs, rfl⟩)
    rw [← h] at hs'
    obtain ⟨p', hp', heq⟩ := (step_canonical hp).mp hs'
    exact ⟨p', hp', (lists_graph hA).closed p hp s p' (step_graph.mpr hp'),
      (lists_graph hB).closed q hq s q' (step_graph.mpr hs), heq⟩

theorem biUnique_number (A B : FiniteAutomaton) : Relator.BiUnique fun p q =>
    p ∈ A.graph.nodes A.size ∧ q ∈ B.graph.nodes B.size ∧ A.number p = B.number q := by
  constructor
  · rintro p p' q ⟨hp, _, h⟩ ⟨hp', _, h'⟩
    exact injOn_number A hp hp' (h.trans h'.symm)
  · rintro p q q' ⟨_, hq, h⟩ ⟨_, hq', h'⟩
    exact injOn_number B hq hq' (h.symm.trans h')

/-- The canonical form tells all of the reached part but the numbers of its states. -/
theorem exists_renumbering_of_canonical (hA : A.WellFormed) (hB : B.WellFormed)
    (hterminals : A.canonical.terminals = B.canonical.terminals)
    (hedges : A.canonical.allEdges = B.canonical.allEdges) : ∃ f, Renumbering A B f := by
  have hterminal : ∀ i, A.canonical.isTerminal i = B.canonical.isTerminal i := fun i => by
    rw [Bool.eq_iff_iff, ← mem_terminals, ← mem_terminals, hterminals]
  have hstep : ∀ i s j, A.canonical.Step i s j ↔ B.canonical.Step i s j := fun i s j => by
    rw [← mem_allEdges, ← mem_allEdges, hedges]
  have hinitial : A.number A.initial = B.number B.initial :=
    A.number_initial.trans B.number_initial.symm
  have hbisimulation := bisimulation_of_canonical hA hB hterminal hstep
  have hstart := And.intro (lists_graph hA).start (And.intro (lists_graph hB).start hinitial)
  obtain ⟨f, hf⟩ := hbisimulation.exists_images hstart
  exact ⟨f, hbisimulation.renumbering (biUnique_number A B) hstart hf⟩

theorem Renumbering.shape_canonical_eq {f : Nat → Nat} (h : Renumbering A B f) (hA : A.WellFormed)
    (hB : B.WellFormed) (hdetA : Deterministic A.Step) (hdetB : Deterministic B.Step) :
    A.canonical.shape = B.canonical.shape :=
  h.bisimulation.shape_canonical_eq h.biUnique hA hB hdetA hdetB ⟨initial_mem_reached A, h.initial⟩

/-- Deterministic automata whose initial states and targets exist have canonical forms with the same
number of states, the same terminal states and the same edges if and only if the reached part of one
is that of the other under other numbers. The canonical form of any automaton is its own canonical
form, accepts the same words and has no state that is not reached. -/
theorem canonical_eq_iff_renumbering (hA : A.WellFormed) (hB : B.WellFormed) :
    (A.isDeterministic = true → B.isDeterministic = true →
      (A.canonical.size = B.canonical.size ∧ A.canonical.terminals = B.canonical.terminals ∧
          A.canonical.allEdges = B.canonical.allEdges ↔ ∃ f, Renumbering A B f)) ∧
      A.canonical.canonical = A.canonical ∧ (∀ w, A.canonical.accepts w = A.accepts w) ∧
      ∀ q < A.canonical.size, q ∈ A.canonical.reached := by
  refine ⟨fun hdetA hdetB => ⟨?_, ?_⟩, canonical_canonical hA, accepts_canonical hA,
    fun q hq => mem_reached_canonical hA hq⟩
  · rintro ⟨_, hterminals, hedges⟩
    exact exists_renumbering_of_canonical hA hB hterminals hedges
  · rintro ⟨f, hf⟩
    have hshape := hf.shape_canonical_eq hA hB (deterministic_of_isDeterministic hdetA)
      (deterministic_of_isDeterministic hdetB)
    refine ⟨size_eq_of_shape_eq hshape, terminals_eq_of_shape_eq hshape, ?_⟩
    rw [allEdges, allEdges, size_eq_of_shape_eq hshape, edges_eq_of_shape_eq hshape]

/-- The states of `double` that walks lead to, in the other order. -/
def swapped : Parts Nat :=
  ⟨1, [⟨0, "", true, Table.ofEdges [(.literal "a", 1)]⟩,
    ⟨1, "", true, Table.ofEdges [(.literal "a", 0)]⟩], ∅⟩

theorem canonical_eq_iff_renumbering_double_swapped :
    double.automaton.WellFormed ∧ swapped.automaton.WellFormed ∧ reparting.automaton.WellFormed ∧
      double.automaton.isDeterministic = true ∧ swapped.automaton.isDeterministic = true ∧
      (∃ f, Renumbering double.automaton swapped.automaton f) ∧
      reparting.automaton.isDeterministic = false ∧
      reparting.automaton.canonical ≠ reparting.automaton ∧
      reparting.automaton.canonical.canonical = reparting.automaton.canonical := by
  have hA : double.automaton.WellFormed := Assembled.wellFormed ⟨double, rfl⟩
  have hB : swapped.automaton.WellFormed := Assembled.wellFormed ⟨swapped, rfl⟩
  have hC : reparting.automaton.WellFormed := Assembled.wellFormed ⟨reparting, rfl⟩
  have hdetA : double.automaton.isDeterministic = true := by decide
  have hdetB : swapped.automaton.isDeterministic = true := by decide
  have hforms : double.automaton.canonical.size = swapped.automaton.canonical.size ∧
      double.automaton.canonical.terminals = swapped.automaton.canonical.terminals ∧
      double.automaton.canonical.allEdges = swapped.automaton.canonical.allEdges := by
        decide +kernel
  obtain ⟨hiff, _⟩ := canonical_eq_iff_renumbering hA hB
  obtain ⟨_, hagain, _⟩ := canonical_eq_iff_renumbering hC hC
  exact ⟨hA, hB, hC, hdetA, hdetB, (hiff hdetA hdetB).mp hforms,
    by decide, by decide +kernel, hagain⟩

end Automaton

end Acceptors
