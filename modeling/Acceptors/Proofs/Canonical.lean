import Acceptors.Automaton.Compare
import Acceptors.Proofs.Bisimilarity

/-!
The minimal form is canonical. Edges are listed by symbol, so two deterministic automata between
which there is a one-to-one bisimulation are explored in step, related states at the same time
(`Bisimulation.forall₂_nodes`), and numbered alike. Sameness of words is such a bisimulation between
reduced automata. Main statement: `shape_minimize_eq_iff`.
-/

namespace Acceptors

namespace Automaton

variable {A B : FiniteAutomaton} {R : Nat → Nat → Prop}

/-! ## Explorations in step -/

theorem ascending_symbols (h : Deterministic A.Step) (p : Nat) :
    ((A.edges p).map (·.1)).Pairwise (fun a b => compare a b = .lt) := by
  rw [List.pairwise_map]
  refine (A.pairwise_edges p).imp_of_mem fun {a b} ha hb hab => ?_
  rcases hab with hlt | ⟨heq, hlt⟩
  · exact hlt
  · have hsame : a.2 = b.2 := h.unique p a.1 a.2 b.2 (mem_edges.mp ha) (mem_edges.mp (heq ▸ hb))
    simp [hsame] at hlt

/-- Related states of deterministic automata have edges on the same symbols to related states, in
the same order. -/
theorem Bisimulation.forall₂_edges (h : Bisimulation A B R) (hA : Deterministic A.Step)
    (hB : Deterministic B.Step) {p q : Nat} (hpq : R p q) :
    List.Forall₂ (fun a b => a.1 = b.1 ∧ R a.2 b.2) (A.edges p) (B.edges q) := by
  have hsymbols : (A.edges p).map (·.1) = (B.edges q).map (·.1) := by
    refine SortedSet.eq_of_ascending (ascending_symbols hA p) (ascending_symbols hB q) fun s => ?_
    simp only [List.mem_map, Prod.exists, mem_edges, exists_and_right, exists_eq_right]
    constructor
    · rintro ⟨r, hr⟩
      obtain ⟨r', hr', _⟩ := h.forth hpq hr
      exact ⟨r', hr'⟩
    · rintro ⟨r, hr⟩
      obtain ⟨r', hr', _⟩ := h.back hpq hr
      exact ⟨r', hr'⟩
  refine forall₂_of_map_eq hsymbols fun a ha b hb hab => ⟨hab, ?_⟩
  obtain ⟨r, hr, hrelated⟩ := h.forth hpq (mem_edges.mp ha)
  have hs : B.Step q a.1 b.2 := hab ▸ mem_edges.mp hb
  rwa [hB.unique q a.1 r b.2 hr hs] at hrelated

/-- Exploration lists related states of deterministic automata at the same time. -/
theorem Bisimulation.forall₂_nodes (h : Bisimulation A B R) (hR : Relator.BiUnique R)
    (hA : A.WellFormed)
    (hB : B.WellFormed) (hdetA : Deterministic A.Step) (hdetB : Deterministic B.Step)
    (hinitial : R A.initial B.initial) :
    List.Forall₂ R (A.graph.nodes A.size) (B.graph.nodes B.size) := by
  rw [← (bounded_graph hA).nodes_eq (Nat.le_max_left A.size B.size),
    ← (bounded_graph hB).nodes_eq (Nat.le_max_right A.size B.size)]
  refine forall₂_explore hR (fun p q hpq => ?_) _ hinitial
  rw [List.forall₂_map_left_iff, List.forall₂_map_right_iff]
  exact (h.forall₂_edges hdetA hdetB hpq).imp fun a b hab => hab.2

theorem shape_canonical (A : FiniteAutomaton) :
    A.canonical.shape = (0, (A.graph.nodes A.size).map fun p => (A.isTerminal p,
      Table.ofEdges ((A.edges p).map fun edge =>
        (edge.1, (A.graph.nodes A.size).idxOf edge.2)))) := by
  rw [shape, canonical, Graph.toAutomaton, List.map_map]
  rfl

/-- Deterministic automata between which there is a one-to-one bisimulation have one canonical
form. -/
theorem Bisimulation.shape_canonical_eq (h : Bisimulation A B R) (hR : Relator.BiUnique R)
    (hA : A.WellFormed)
    (hB : B.WellFormed) (hdetA : Deterministic A.Step) (hdetB : Deterministic B.Step)
    (hinitial : R A.initial B.initial) : A.canonical.shape = B.canonical.shape := by
  have hnodes := h.forall₂_nodes hR hA hB hdetA hdetB hinitial
  rw [shape_canonical, shape_canonical]
  congr 1
  refine map_eq_of_forall₂ hnodes fun p q hpq => ?_
  have hedges : (A.edges p).map (fun edge => (edge.1, (A.graph.nodes A.size).idxOf edge.2)) =
      (B.edges q).map (fun edge => (edge.1, (B.graph.nodes B.size).idxOf edge.2)) :=
    map_eq_of_forall₂ (h.forall₂_edges hdetA hdetB hpq) fun a b ⟨hsymbol, hrelated⟩ => by
      rw [hsymbol, idxOf_eq_of_forall₂ hR hnodes hrelated]
  rw [h.terminal hpq, hedges]

/-! ## Reduced automata -/

/-- States of two automata with the same words. -/
def SameWords (A B : FiniteAutomaton) (p q : Nat) : Prop :=
  p < A.size ∧ q < B.size ∧ A.wordsFrom p = B.wordsFrom q

theorem Reduced.biUnique_sameWords (hA : A.Reduced) (hB : B.Reduced) :
    Relator.BiUnique (SameWords A B) := by
  constructor
  · rintro p p' q ⟨hp, _, h⟩ ⟨hp', _, h'⟩
    exact hA.separated p hp p' hp' (h.trans h'.symm)
  · rintro p q q' ⟨_, hq, h⟩ ⟨_, hq', h'⟩
    exact hB.separated q hq q' hq' (h.symm.trans h')

theorem Trimmed.bisimulation_sameWords (hA : A.Trimmed) (hB : B.Trimmed) :
    Bisimulation A B (SameWords A B) where
  terminal := by
    rintro p q ⟨_, _, h⟩
    exact isTerminal_eq_of_wordsFrom_eq hA.deterministic hB.deterministic h
  forth := by
    rintro p q p' s ⟨_, _, h⟩ hs
    have hlt := hA.wellFormed.target_lt hs
    obtain ⟨q', hs', h'⟩ :=
      exists_step_of_wordsFrom_eq hA.deterministic hB.deterministic h hs (hA.productive p' hlt)
    exact ⟨q', hs', hlt, hB.wellFormed.target_lt hs', h'⟩
  back := by
    rintro p q q' s ⟨_, _, h⟩ hs
    have hlt := hB.wellFormed.target_lt hs
    obtain ⟨p', hs', h'⟩ :=
      exists_step_of_wordsFrom_eq hB.deterministic hA.deterministic h.symm hs (hB.productive q' hlt)
    exact ⟨p', hs', hA.wellFormed.target_lt hs', hlt, h'.symm⟩

/-- Reduced automata with the same words have one canonical form. -/
theorem Reduced.shape_canonical_eq (hA : A.Reduced) (hB : B.Reduced)
    (h : A.wordsFrom A.initial = B.wordsFrom B.initial) :
    A.canonical.shape = B.canonical.shape :=
  (hA.bisimulation_sameWords hB.toTrimmed).shape_canonical_eq
    (hA.biUnique_sameWords hB) hA.wellFormed
    hB.wellFormed hA.deterministic hB.deterministic
    ⟨hA.wellFormed.initial_lt, hB.wellFormed.initial_lt, h⟩

/-- Renumbering keeps an automaton reduced. -/
theorem Reduced.canonical (hA : A.Reduced) : A.canonical.Reduced := by
  have hlists := lists_graph hA.wellFormed
  have hlt : ∀ x ∈ A.graph.nodes A.size, x < A.size := by
    intro x hx
    obtain ⟨u, hu⟩ := (mem_nodes_graph hA.wellFormed).mp hx
    exact hA.wellFormed.lt_of_walk hu hA.wellFormed.initial_lt
  rw [canonical_eq_numbered]
  refine hA.reduced_of_covering (step_graph_eq ▸ hlists.covering A.alphabet) hlt hlists.start rfl
    (fun i => ⟨fun hi => Graph.exists_of_lt_size hi hlists.nodup, ?_⟩) (fun _ hs => hs)
    fun x y hx hy h => ?_
  · rintro ⟨x, hx, rfl⟩
    rw [Graph.size_numbered]
    exact List.idxOf_lt_length_of_mem hx
  · rw [hA.separated x (hlt x hx) y (hlt y hy) h]

theorem indexed_minimize (A : FiniteAutomaton) : A.minimize.Indexed := by
  by_cases h : A.initial ∈ A.productive
  · rw [minimize_of_productive h]
    exact indexed_canonical _
  · rw [minimize_of_not_productive h]
    rintro (_ | i) q hq
    · cases hq
      rfl
    · cases hq

theorem reduced_minimize (hA : A.Labelled) (hdet : Deterministic A.Step)
    (h : A.initial ∈ A.productive) : A.minimize.Reduced := by
  rw [minimize_of_productive h]
  exact (reduced_trim_classes hA hdet h).canonical

/-! ## Shapes -/

theorem getElem?_eq_of_shape_eq (h : A.shape = B.shape) (p : Nat) :
    A.states[p]?.map (fun q : State Nat => (q.terminal, q.table)) =
      B.states[p]?.map (fun q : State Nat => (q.terminal, q.table)) := by
  rw [← List.getElem?_map, ← List.getElem?_map, (Prod.mk.inj h).2]

theorem next_eq_of_shape_eq (h : A.shape = B.shape) : A.next = B.next := by
  funext p s
  have hp := getElem?_eq_of_shape_eq h p
  unfold next
  cases hA : A.states[p]? <;> cases hB : B.states[p]? <;> simp_all [State.next]

theorem isTerminal_eq_of_shape_eq (h : A.shape = B.shape) : A.isTerminal = B.isTerminal := by
  funext p
  have hp := getElem?_eq_of_shape_eq h p
  unfold isTerminal
  cases hA : A.states[p]? <;> cases hB : B.states[p]? <;> simp_all

/-- Words depend on the shape alone. -/
theorem wordsFrom_eq_of_shape_eq (h : A.shape = B.shape) :
    A.wordsFrom A.initial = B.wordsFrom B.initial := by
  have hstep : A.Step = B.Step := by
    funext p s q
    rw [Step, Step, next_eq_of_shape_eq h]
  rw [wordsFrom, wordsFrom, hstep, isTerminal_eq_of_shape_eq h, (Prod.mk.inj h).1]

theorem productive_iff_of_wordsFrom_eq (h : A.wordsFrom A.initial = B.wordsFrom B.initial) :
    A.initial ∈ A.productive ↔ B.initial ∈ B.productive := by
  rw [mem_productive, mem_productive, h]

theorem shape_minimize_eq_of_wordsFrom_eq (hA : A.Labelled) (hB : B.Labelled)
    (hdetA : Deterministic A.Step) (hdetB : Deterministic B.Step)
    (h : A.wordsFrom A.initial = B.wordsFrom B.initial) :
    A.minimize.shape = B.minimize.shape := by
  by_cases hprod : A.initial ∈ A.productive
  · have hprod' := (productive_iff_of_wordsFrom_eq h).mp hprod
    rw [minimize_of_productive hprod, minimize_of_productive hprod']
    refine (reduced_trim_classes hA hdetA hprod).shape_canonical_eq
      (reduced_trim_classes hB hdetB hprod') ?_
    rw [wordsFrom_trim_classes hA hdetA hprod, h, wordsFrom_trim_classes hB hdetB hprod']
  · have hprod' := fun h' => hprod ((productive_iff_of_wordsFrom_eq h).mpr h')
    rw [minimize_of_not_productive hprod, minimize_of_not_productive hprod']
    rfl

/-- Minimal forms have one shape if and only if the automata accept the same words, and equality of
deterministic automata is equality of words and alphabets. -/
theorem shape_minimize_eq_iff (hA : A.Assembled) (hB : B.Assembled)
    (hdetA : A.isDeterministic = true) (hdetB : B.isDeterministic = true) :
    (A.minimize.shape = B.minimize.shape ↔ ∀ w, A.accepts w = B.accepts w) ∧
      (A.equal B = true ↔ A.alphabet = B.alphabet ∧ ∀ w, A.accepts w = B.accepts w) := by
  have hstepA := deterministic_of_isDeterministic hdetA
  have hstepB := deterministic_of_isDeterministic hdetB
  have hshape : A.minimize.shape = B.minimize.shape ↔ ∀ w, A.accepts w = B.accepts w := by
    rw [forall_accepts_eq_iff hA.wellFormed hB.wellFormed hstepA hstepB]
    constructor
    · intro h
      have hwords := wordsFrom_eq_of_shape_eq h
      rwa [wordsFrom_minimize hA.labelled hstepA, wordsFrom_minimize hB.labelled hstepB] at hwords
    · exact shape_minimize_eq_of_wordsFrom_eq hA.labelled hB.labelled hstepA hstepB
  refine ⟨hshape, ?_⟩
  rw [equal, hdetA, hdetB, Bool.and_self, if_pos rfl, Bool.and_eq_true, beq_iff_eq, beq_iff_eq,
    hshape]

/-- A loop on one terminal state. -/
def single : Parts Nat := ⟨0, [⟨0, "", true, Table.ofEdges [(.literal "a", 0)]⟩], ∅⟩

/-- The same loop through two states, after a state that no walk leads to. -/
def double : Parts Nat :=
  ⟨1, [⟨0, "", false, Table.ofEdges [(.literal "a", 1)]⟩,
    ⟨1, "", true, Table.ofEdges [(.literal "a", 2)]⟩,
    ⟨2, "", true, Table.ofEdges [(.literal "a", 1)]⟩], ∅⟩

theorem shape_minimize_eq_single_double :
    single.automaton.Assembled ∧ double.automaton.Assembled ∧
      single.automaton.isDeterministic = true ∧ double.automaton.isDeterministic = true ∧
      (∀ w, single.automaton.accepts w = double.automaton.accepts w) ∧
      single.automaton.equal double.automaton = true := by
  have hA : single.automaton.Assembled := ⟨single, rfl⟩
  have hB : double.automaton.Assembled := ⟨double, rfl⟩
  have hdetA : single.automaton.isDeterministic = true := by decide
  have hdetB : double.automaton.isDeterministic = true := by decide
  obtain ⟨hshape, hequal⟩ := shape_minimize_eq_iff hA hB hdetA hdetB
  have hwords := hshape.mp (by decide +kernel)
  exact ⟨hA, hB, hdetA, hdetB, hwords, hequal.mpr ⟨by decide, hwords⟩⟩

end Automaton

end Acceptors
