import Acceptors.Automaton.Statewise

/-!
Automata read off graphs whose nodes are anything with decidable equality: the nodes that the start
leads to become the states, numbered in breadth-first order. Canonical numbering, the subset
construction and the product of two automata are read off such graphs.
-/

namespace Acceptors

structure Graph (α : Type) where
  start : α
  edges : α → List (Symbol × α)
  name : α → String
  terminal : α → Bool

namespace Graph

variable {α : Type} [DecidableEq α]

def nodes (g : Graph α) (rounds : Nat) : List α :=
  explore (fun x => (g.edges x).map (·.2)) rounds [g.start]

/-- The state of a node, which carries the position of the node and leads to those of others. -/
def state (g : Graph α) (nodes : List α) (x : α) : State Nat :=
  ⟨nodes.idxOf x, g.name x, g.terminal x,
    Table.ofEdges ((g.edges x).map fun edge => (edge.1, nodes.idxOf edge.2))⟩

/-- The automaton of the nodes that the start leads to, of which there are `rounds` at most. -/
def toAutomaton (g : Graph α) (rounds : Nat) (alphabet : Alphabet) : FiniteAutomaton :=
  let nodes := g.nodes rounds
  ⟨0, nodes.map (g.state nodes), alphabet⟩

end Graph

namespace Automaton

/-- An automaton as a graph on its state numbers. -/
def graph (A : FiniteAutomaton) : Graph Nat where
  start := A.initial
  edges := A.edges
  name q := match A.states[q]? with
    | some state => state.name
    | none => ""
  terminal := A.isTerminal

/-- The reachable states renumbered in breadth-first order, edges being followed by symbol. -/
def canonical (A : FiniteAutomaton) : FiniteAutomaton := A.graph.toAutomaton A.size A.alphabet

/-! ## Subsets -/

/-- The graph on sets of states; the empty set is left out. -/
def subsets (A : FiniteAutomaton) : Graph (SortedSet Nat) where
  start := SortedSet.singleton A.initial
  edges qs := A.alphabet.toList.filterMap fun s =>
    let targets := A.move qs s
    if targets.isEmpty then none else some (s, targets)
  name qs := "\x7b" ++ A.labels qs.toList ++ "\x7d"
  terminal qs := qs.toList.any A.isTerminal

def determinize (A : FiniteAutomaton) : FiniteAutomaton :=
  A.epsilonFree.subsets.toAutomaton (Nat.pow 2 A.size) A.alphabet

/-! ## Pairs -/

/-- The graph on pairs of states: a pair has an edge on a symbol where both states have one. -/
def pairs (A B : FiniteAutomaton) : Graph (Nat × Nat) where
  start := (A.initial, B.initial)
  edges := fun (p, q) =>
    (A.edges p).flatMap fun (s, x) => (B.next q s).map fun y => (s, (x, y))
  name := fun (p, q) => "(" ++ A.label p ++ ", " ++ B.label q ++ ")"
  terminal := fun (p, q) => A.isTerminal p && B.isTerminal q

def intersection (A B : FiniteAutomaton) : FiniteAutomaton :=
  (A.epsilonFree.pairs B.epsilonFree).toAutomaton (A.size * B.size) (A.alphabet.union B.alphabet)

end Automaton

end Acceptors
