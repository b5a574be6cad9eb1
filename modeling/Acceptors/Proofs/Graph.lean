import Acceptors.Automaton.Graph
import Acceptors.Proofs.Deterministic

/-!
Automata numbered from graphs. A list of nodes that no edge leaves numbers the states, and a node
and its number have the same words (`Lists.wordsFrom_numbered`). Main statements:
`Bounded.mem_nodes`, exploration lists the nodes that walks from the start lead to, and
`Lists.wellFormed_numbered`.
-/

namespace Acceptors

namespace Graph

variable {α : Type} [DecidableEq α] {g : Graph α} {nodes : List α} {alphabet : Alphabet}

/-- An edge of the graph. -/
def Step (g : Graph α) (x : α) (s : Symbol) (y : α) : Prop := (s, y) ∈ g.edges x

/-- The words that lead from a node to a terminal one. -/
def wordsFrom (g : Graph α) (x : α) : WordSet Symbol :=
  wordsTo g.Step (fun y => g.terminal y = true) x

/-- The automaton whose states are listed nodes of the graph. -/
def numbered (g : Graph α) (nodes : List α) (alphabet : Alphabet) : FiniteAutomaton :=
  ⟨nodes.idxOf g.start, nodes.map (g.state nodes), alphabet⟩

/-- The list has every node once, the start among them, and no edge leaves it. -/
structure Lists (g : Graph α) (nodes : List α) : Prop where
  nodup : nodes.Nodup
  start : g.start ∈ nodes
  closed : ∀ x ∈ nodes, ∀ s y, g.Step x s y → y ∈ nodes

/-! ## Exploration -/

/-- Some universe of `n` nodes at most has the start, and no edge leaves it. -/
def Bounded (g : Graph α) (n : Nat) : Prop :=
  ∃ U : List α, U.length ≤ n ∧ g.start ∈ U ∧ ∀ x ∈ U, ∀ s y, g.Step x s y → y ∈ U

/-- Exploration lists the nodes that the start leads to. -/
theorem Bounded.mem_nodes {n : Nat} (h : g.Bounded n) {x : α} :
    x ∈ g.nodes n ↔ ∃ w, Walk g.Step g.start w x := by
  obtain ⟨U, hn, hstart, hU⟩ := h
  have hnext : ∀ x y, y ∈ (g.edges x).map (·.2) ↔ ∃ s, g.Step x s y := by simp [Step]
  have hclosed : ∀ x ∈ U, ∀ y ∈ (g.edges x).map (·.2), y ∈ U := by
    intro x hx y hy
    obtain ⟨s, hs⟩ := (hnext x y).mp hy
    exact hU x hx s y hs
  rw [nodes, mem_explore hclosed hn (by simpa using hstart)]
  simp [leads_iff_walk hnext]

/-- More rounds list the same nodes. -/
theorem Bounded.nodes_eq {n m : Nat} (h : g.Bounded n) (hm : n ≤ m) : g.nodes m = g.nodes n := by
  obtain ⟨U, hn, hstart, hU⟩ := h
  refine explore_eq_of_le (fun x hx y hy => ?_) hn hm (by simpa using hstart)
  obtain ⟨edge, hedge, rfl⟩ := List.mem_map.mp hy
  exact hU x hx edge.1 edge.2 hedge

theorem Bounded.lists_nodes {n : Nat} (h : g.Bounded n) : g.Lists (g.nodes n) where
  nodup := nodup_explore n [g.start]
  start := h.mem_nodes.mpr ⟨[], .nil _⟩
  closed x hx s y hs := by
    obtain ⟨w, hw⟩ := h.mem_nodes.mp hx
    exact h.mem_nodes.mpr ⟨_, hw.append (.edge hs)⟩

/-- The start is listed first. -/
theorem nodes_eq_cons (g : Graph α) (n : Nat) : ∃ rest, g.nodes n = g.start :: rest := by
  have hfirst : (g.nodes n)[0]? = some g.start := explore_singleton n g.start
  cases hnodes : g.nodes n with
  | nil => simp [hnodes] at hfirst
  | cons x rest =>
    rw [hnodes] at hfirst
    cases hfirst
    exact ⟨rest, rfl⟩

theorem toAutomaton_eq_numbered (g : Graph α) (n : Nat) (alphabet : Alphabet) :
    g.toAutomaton n alphabet = g.numbered (g.nodes n) alphabet := by
  have hzero : (g.nodes n).idxOf g.start = 0 := by
    obtain ⟨rest, hrest⟩ := g.nodes_eq_cons n
    rw [hrest, List.idxOf_cons_self]
  rw [toAutomaton, numbered, hzero]

/-! ## Numbering -/

theorem size_numbered : (g.numbered nodes alphabet).size = nodes.length := by
  simp [numbered, Automaton.size]

theorem getElem?_numbered {x : α} (hx : x ∈ nodes) :
    (g.numbered nodes alphabet).states[nodes.idxOf x]? = some (g.state nodes x) := by
  have hlt := List.idxOf_lt_length_of_mem hx
  simp [numbered, hlt]

theorem exists_of_lt_size {i : Nat} (hi : i < (g.numbered nodes alphabet).size)
    (hnodup : nodes.Nodup) : ∃ x ∈ nodes, nodes.idxOf x = i := by
  rw [size_numbered] at hi
  exact ⟨nodes[i], List.getElem_mem hi, hnodup.idxOf_getElem i hi⟩

/-- A node that is listed once has its place in the list for a number. -/
theorem indexed_numbered (h : nodes.Nodup) : (g.numbered nodes alphabet).Indexed := by
  intro i q hq
  rw [numbered, List.getElem?_map, Option.map_eq_some_iff] at hq
  obtain ⟨x, hx, rfl⟩ := hq
  obtain ⟨hi, rfl⟩ := List.getElem?_eq_some_iff.mp hx
  exact h.idxOf_getElem i hi

theorem indexed_toAutomaton (g : Graph α) (n : Nat) (alphabet : Alphabet) :
    (g.toAutomaton n alphabet).Indexed := by
  rw [toAutomaton_eq_numbered]
  exact indexed_numbered (nodup_explore n [g.start])

theorem step_numbered {x : α} (hx : x ∈ nodes) {s : Symbol} {j : Nat} :
    (g.numbered nodes alphabet).Step (nodes.idxOf x) s j ↔
      ∃ y, g.Step x s y ∧ nodes.idxOf y = j := by
  rw [Automaton.Step, Automaton.next, getElem?_numbered hx]
  simp [State.next, state, Table.mem_next_ofEdges, Step]

theorem isTerminal_numbered {x : α} (hx : x ∈ nodes) :
    (g.numbered nodes alphabet).isTerminal (nodes.idxOf x) = g.terminal x := by
  rw [Automaton.isTerminal, getElem?_numbered hx]
  rfl

theorem Lists.exists_of_step (h : g.Lists nodes) {i j : Nat} {s : Symbol}
    (hs : (g.numbered nodes alphabet).Step i s j) :
    ∃ x ∈ nodes, ∃ y ∈ nodes, nodes.idxOf x = i ∧ nodes.idxOf y = j ∧ g.Step x s y := by
  obtain ⟨x, hx, rfl⟩ := exists_of_lt_size (Automaton.source_lt hs) h.nodup
  obtain ⟨y, hy, rfl⟩ := (step_numbered hx).mp hs
  exact ⟨x, hx, y, h.closed x hx s y hy, rfl, rfl, hy⟩

theorem Lists.wellFormed_numbered (h : g.Lists nodes) :
    (g.numbered nodes alphabet).WellFormed := by
  refine ⟨?_, fun i s j hs => ?_⟩
  · rw [size_numbered]
    exact List.idxOf_lt_length_of_mem h.start
  · obtain ⟨_, _, y, hy, _, rfl, _⟩ := h.exists_of_step hs
    rw [size_numbered]
    exact List.idxOf_lt_length_of_mem hy

theorem Lists.covering (h : g.Lists nodes) (alphabet : Alphabet) :
    Covering g.Step (fun y => g.terminal y = true) (g.numbered nodes alphabet).Step
      (fun q => (g.numbered nodes alphabet).isTerminal q = true) (· ∈ nodes) nodes.idxOf where
  closed x s y hx hs := h.closed x hx s y hs
  terminal x hx := by rw [isTerminal_numbered hx]
  edge _ _ _ hx := step_numbered hx

/-- A node and its number have the same words. -/
theorem Lists.wordsFrom_numbered (h : g.Lists nodes) {x : α} (hx : x ∈ nodes) :
    (g.numbered nodes alphabet).wordsFrom (nodes.idxOf x) = g.wordsFrom x :=
  (h.covering alphabet).wordsTo_eq hx

/-- Every state of an automaton numbered from an exploration is the end of a walk. -/
theorem Bounded.exists_walk_numbered {n : Nat} (h : g.Bounded n) {i : Nat}
    (hi : i < (g.numbered (g.nodes n) alphabet).size) :
    ∃ w, Walk (g.numbered (g.nodes n) alphabet).Step
      (g.numbered (g.nodes n) alphabet).initial w i := by
  obtain ⟨x, hx, rfl⟩ := exists_of_lt_size hi h.lists_nodes.nodup
  obtain ⟨w, hw⟩ := h.mem_nodes.mp hx
  exact ⟨w, (h.lists_nodes.covering alphabet).walk hw h.lists_nodes.start⟩

theorem Lists.deterministic_numbered (h : g.Lists nodes) (hdet : Deterministic g.Step) :
    Deterministic (g.numbered nodes alphabet).Step where
  noEpsilon i j hs := by
    obtain ⟨x, _, y, _, _, _, hxy⟩ := h.exists_of_step hs
    exact hdet.noEpsilon x y hxy
  unique i s j k hj hk := by
    obtain ⟨x, hx, y, _, rfl, rfl, hxy⟩ := h.exists_of_step hj
    obtain ⟨z, hz, rfl⟩ := (step_numbered hx).mp hk
    rw [hdet.unique x s y z hxy hz]

theorem table_numbered (g : Graph α) (nodes : List α) (alphabet : Alphabet) :
    ∀ state ∈ (g.numbered nodes alphabet).states, ∃ es, state.table = Table.ofEdges es := by
  intro state hstate
  obtain ⟨x, _, rfl⟩ := List.mem_map.mp hstate
  exact ⟨_, rfl⟩

theorem Lists.isDeterministic_numbered (h : g.Lists nodes) (hdet : Deterministic g.Step) :
    (g.numbered nodes alphabet).isDeterministic = true :=
  Automaton.isDeterministic_of_ofEdges (table_numbered g nodes alphabet)
    (h.deterministic_numbered hdet)

end Graph

/-! ## An automaton as a graph -/

namespace Automaton

variable {A : FiniteAutomaton}

/-- A renaming that keeps the name of each state keeps the edges. -/
theorem map_edges_eq_self (hA : A.WellFormed) {f : Nat → Nat} (hf : ∀ q < A.size, f q = q)
    (p : Nat) :
    (A.edges p).map (fun edge => (edge.1, f edge.2)) = A.edges p := by
  have hid : ∀ edge ∈ A.edges p, (edge.1, f edge.2) = id edge := by
    intro edge hedge
    rw [hf edge.2 (hA.target_lt (mem_edges.mp hedge))]
    rfl
  rw [List.map_congr_left hid, List.map_id]

theorem step_graph {p q : Nat} {s : Symbol} : A.graph.Step p s q ↔ A.Step p s q := mem_edges

theorem step_graph_eq : A.graph.Step = A.Step := by
  funext p s q
  exact propext step_graph

theorem wordsFrom_graph (p : Nat) : A.graph.wordsFrom p = A.wordsFrom p := by
  rw [Graph.wordsFrom, step_graph_eq]
  rfl

theorem bounded_graph (hA : A.WellFormed) : A.graph.Bounded A.size := by
  refine ⟨List.range A.size, by simp, List.mem_range.mpr hA.initial_lt, fun p _ s q hs => ?_⟩
  exact List.mem_range.mpr (hA.target_lt (step_graph.mp hs))

theorem mem_nodes_graph (hA : A.WellFormed) {q : Nat} :
    q ∈ A.graph.nodes A.size ↔ ∃ w, Walk A.Step A.initial w q := by
  rw [(bounded_graph hA).mem_nodes, step_graph_eq]
  rfl

theorem lists_graph (hA : A.WellFormed) : A.graph.Lists (A.graph.nodes A.size) :=
  (bounded_graph hA).lists_nodes

theorem canonical_eq_numbered (A : FiniteAutomaton) :
    A.canonical = A.graph.numbered (A.graph.nodes A.size) A.alphabet :=
  Graph.toAutomaton_eq_numbered _ _ _

theorem indexed_canonical (A : FiniteAutomaton) : A.canonical.Indexed :=
  Graph.indexed_toAutomaton _ _ _

theorem wellFormed_canonical (hA : A.WellFormed) : A.canonical.WellFormed := by
  rw [canonical_eq_numbered]
  exact (lists_graph hA).wellFormed_numbered

theorem wordsFrom_canonical (hA : A.WellFormed) :
    A.canonical.wordsFrom A.canonical.initial = A.wordsFrom A.initial := by
  rw [canonical_eq_numbered]
  exact ((lists_graph hA).wordsFrom_numbered (lists_graph hA).start).trans (wordsFrom_graph _)

theorem isDeterministic_canonical (hA : A.WellFormed) (hdet : Deterministic A.Step) :
    A.canonical.isDeterministic = true := by
  rw [canonical_eq_numbered]
  exact (lists_graph hA).isDeterministic_numbered (step_graph_eq ▸ hdet)

theorem size_canonical_le (hA : A.WellFormed) : A.canonical.size ≤ A.size := by
  have hsub : A.graph.nodes A.size ⊆ List.range A.size := fun q hq => by
    obtain ⟨w, hw⟩ := (mem_nodes_graph hA).mp hq
    exact List.mem_range.mpr (hA.lt_of_walk hw hA.initial_lt)
  have hle := (List.subperm_of_subset (lists_graph hA).nodup hsub).length_le
  rw [canonical_eq_numbered, Graph.size_numbered]
  simpa using hle

end Automaton

end Acceptors
