import Acceptors.Digraph
import Acceptors.Exploration
import Acceptors.State

/-!
Automata: an initial state, numbered states, and an alphabet. One type serves every kind of edge; a
plain finite automaton is the one whose edges are their targets. Which words such an automaton
accepts is found by following all paths at once, as a set of states closed under epsilon edges.
-/

namespace Acceptors

open Std

structure Automaton (ε : Type) [Ord ε] where
  initial : Nat
  states : List (State ε)
  alphabet : Alphabet
  deriving DecidableEq

abbrev FiniteAutomaton := Automaton Nat

namespace Automaton

variable {ε : Type} [Ord ε]

def size (A : Automaton ε) : Nat := A.states.length

/-- The edges of state `q` on `s`. -/
def next (A : Automaton ε) (q : Nat) (s : Symbol) : List ε :=
  match A.states[q]? with
  | some state => state.next s
  | none => []

/-- All edges of state `q`, by symbol. -/
def edges (A : Automaton ε) (q : Nat) : List (Symbol × ε) :=
  match A.states[q]? with
  | some state => state.edges
  | none => []

def isTerminal (A : Automaton ε) (q : Nat) : Bool :=
  match A.states[q]? with
  | some state => state.terminal
  | none => false

def label (A : Automaton ε) (q : Nat) : String :=
  match A.states[q]? with
  | some state => state.label
  | none => ""

/-- The labels of some states, separated by commas. -/
def labels (A : Automaton ε) (qs : List Nat) : String := String.intercalate ", " (qs.map A.label)

def terminals (A : Automaton ε) : List Nat := (List.range A.size).filter A.isTerminal

/-- All edges by source, then by symbol. -/
def allEdges (A : Automaton ε) : List (Nat × Symbol × ε) :=
  (List.range A.size).flatMap fun q => (A.edges q).map fun edge => (q, edge.1, edge.2)

/-- Every state carries its position. -/
def Indexed (A : Automaton ε) : Prop :=
  ∀ (i : Nat) (q : State ε), A.states[i]? = some q → q.index = i

variable [Edge ε]

def digraph (A : Automaton ε) : Digraph where
  initial := A.initial
  nodes := (List.range A.size).map fun q => ⟨q, A.label q, A.isTerminal q⟩
  arrows := A.allEdges.map fun (q, s, e) => ⟨q, Edge.target e, Edge.label s e⟩

/-- The drawn automaton as text. -/
def text (A : Automaton ε) : String := A.digraph.text

/-- The initial state and every target exist. -/
def WellFormed (A : Automaton ε) : Prop :=
  A.initial < A.size ∧ ∀ q s e, e ∈ A.next q s → Edge.target e < A.size

end Automaton

namespace Automaton

/-! ## Closures -/

/-- The states reached from some by epsilon edges alone. -/
def epsilonClosure (A : FiniteAutomaton) (qs : List Nat) : SortedSet Nat :=
  SortedSet.ofList (explore (fun q => A.next q .epsilon) A.size qs)

def successors (A : FiniteAutomaton) (q : Nat) : List Nat := (A.edges q).map (·.2)

/-- The states that some path leads to from `q`. -/
def reachable (A : FiniteAutomaton) (q : Nat) : SortedSet Nat :=
  SortedSet.ofList (explore A.successors A.size [q])

/-- The states from which some path leads to a terminal state. -/
def productive (A : FiniteAutomaton) : SortedSet Nat :=
  let edges := A.allEdges
  let predecessors (q : Nat) := (edges.filter fun edge => edge.2.2 == q).map (·.1)
  SortedSet.ofList (explore predecessors A.size A.terminals)

/-- The states on paths from the initial state to a terminal one. -/
def useful (A : FiniteAutomaton) : List Nat :=
  let productive := A.productive
  (A.reachable A.initial).toList.filter fun q => q ∈ productive

/-- No terminal state is reachable, so no word is accepted. -/
def isEmpty (A : FiniteAutomaton) : Bool :=
  (A.reachable A.initial).toList.all fun q => !A.isTerminal q

/-! ## Acceptance -/

/-- The states reached by edges on `s` from some of `qs`. -/
def move (A : FiniteAutomaton) (qs : SortedSet Nat) (s : Symbol) : SortedSet Nat :=
  SortedSet.ofList (qs.toList.flatMap fun q => A.next q s)

/-- The states reached from `qs` by a word, epsilon edges being free. -/
def run (A : FiniteAutomaton) (qs : SortedSet Nat) (w : Word) : SortedSet Nat :=
  w.foldl (fun qs s => A.epsilonClosure (A.move qs s).toList) qs

def accepts (A : FiniteAutomaton) (w : Word) : Bool :=
  (A.run (A.epsilonClosure [A.initial]) w).toList.any A.isTerminal

end Automaton

end Acceptors
