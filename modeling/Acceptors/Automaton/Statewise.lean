import Acceptors.Automaton.Basic
import Acceptors.Kind

/-!
What is done to an automaton state by state, the numbers of the states staying as they are: epsilon
edges are taken out, missing edges are led to a sink, terminal states are exchanged for the others.
-/

namespace Acceptors.Automaton

/-! ## Epsilon edges -/

/-- Some table has an entry for epsilon, be it an empty one. -/
def hasEpsilon (A : FiniteAutomaton) : Bool :=
  A.states.any fun q => q.table.contains .epsilon

/-- Each state takes the other edges of its epsilon closure, and is terminal if some state of the
closure is. -/
def withoutEpsilon (A : FiniteAutomaton) : FiniteAutomaton where
  initial := A.initial
  states := A.states.zipIdx.map fun (state, q) =>
    let closure := (A.epsilonClosure [q]).toList
    ⟨state.index, state.name, closure.any A.isTerminal,
      Table.ofEdges ((closure.flatMap A.edges).filter fun edge => !edge.1.isEpsilon)⟩
  alphabet := A.alphabet

/-- The automaton itself unless it has epsilon edges. -/
def epsilonFree (A : FiniteAutomaton) : FiniteAutomaton :=
  if A.hasEpsilon then A.withoutEpsilon else A

/-- A state and a word that leads to it. -/
structure Visit where
  state : Nat
  word : Word
  deriving DecidableEq

/-- The states in breadth-first order, each with the word by which it was found first. -/
def visits (A : FiniteAutomaton) : List Visit :=
  exploreBy Visit.state
    (fun v => (A.edges v.state).map fun (s, q) => ⟨q, v.word ++ [s]⟩) A.size [⟨A.initial, []⟩]

def shortestWord (A : FiniteAutomaton) : Option Word :=
  let B := A.withoutEpsilon
  (B.visits.find? fun v => B.isTerminal v.state).map (·.word)

/-! ## Determinism -/

/-- No entry for epsilon, and one edge at most for a state and a symbol. -/
def isDeterministic (A : FiniteAutomaton) : Bool :=
  !A.hasEpsilon && A.states.all fun q => q.table.values.all fun targets => decide (targets.size ≤ 1)

/-- The state a deterministic automaton goes to from `q` on `s`. -/
def successor (A : FiniteAutomaton) (q : Nat) (s : Symbol) : Option Nat := (A.next q s).head?

def kind (A : FiniteAutomaton) : Kind := if A.isDeterministic then .dfa else .nfa

/-! ## Completion and complement -/

/-- Every table has an entry for every symbol of the alphabet. -/
def isComplete (A : FiniteAutomaton) : Bool :=
  A.states.all fun q => A.alphabet.toList.all q.table.contains

/-- The table with an edge to `sink` for every symbol that has no entry. -/
def fillTable (alphabet : Alphabet) (sink : Nat) (t : Table Nat) : Table Nat :=
  alphabet.toList.foldl (fun t s => if t.contains s then t else t.connect (s, sink)) t

def sink (index : Nat) : State Nat := ⟨index, "sink", false, ∅⟩

/-- Adds a sink that takes every missing edge, unless none is missing. -/
def complete (A : FiniteAutomaton) : FiniteAutomaton :=
  if A.isComplete then A
  else
    { A with
      states := (A.states ++ [sink A.size]).map fun q =>
        { q with table := fillTable A.alphabet A.size q.table } }

def complement (A : FiniteAutomaton) : FiniteAutomaton :=
  { A.complete with states := A.complete.states.map fun q => { q with terminal := !q.terminal } }

end Acceptors.Automaton
