import Acceptors.Automaton.Graph
import Acceptors.Exploration

/-!
Automata with one state for each block of a partition. The minimal form of a deterministic automaton
has the useful states only, one for a block of states that accept the same words, numbered
canonically; the empty language keeps a single state. Bisimilar states are merged in any automaton,
epsilon being a label like any other.
-/

namespace Acceptors.Automaton

/-! ## Minimal automata -/

/-- Some states alone, named by their labels and numbered in the order of the list. -/
def restrict (A : FiniteAutomaton) (kept : List Nat) : FiniteAutomaton :=
  let state (q : Nat) : State Nat :=
    ⟨kept.idxOf q, A.label q, A.isTerminal q,
      Table.ofEdges (((A.edges q).filter fun edge => edge.2 ∈ kept).map fun edge =>
        (edge.1, kept.idxOf edge.2))⟩
  ⟨kept.idxOf A.initial, kept.map state, A.alphabet⟩

/-- The useful states alone. -/
def trim (A : FiniteAutomaton) : FiniteAutomaton := A.restrict A.useful

/-- States are told apart by the blocks of their successors, symbol by symbol. -/
def equivalenceBlocks (A : FiniteAutomaton) : Array Nat :=
  Partition.refine (fun block q => A.alphabet.toList.map fun s => (A.successor q s).map block)
    (State.acceptanceBlocks A.states)

/-- One state for each block, which its first member speaks for. -/
def quotient (A : FiniteAutomaton) (blocks : Array Nat) : FiniteAutomaton :=
  let block := Partition.blockOf blocks
  let state (group : List Nat) : State Nat :=
    let edges := (group.take 1).flatMap fun q => A.alphabet.toList.filterMap fun s =>
      (A.successor q s).map fun r => (s, block r)
    ⟨block (group.headD 0), A.labels group, (group.take 1).any A.isTerminal, Table.ofEdges edges⟩
  ⟨block A.initial, (Partition.groups blocks).map state, A.alphabet⟩

def minimize (A : FiniteAutomaton) : FiniteAutomaton :=
  if A.initial ∈ A.productive then
    let trimmed := A.trim
    (trimmed.quotient trimmed.equivalenceBlocks).canonical
  else ⟨0, [⟨0, A.label A.initial, false, ∅⟩], A.alphabet⟩

/-! ## Strong bisimulation -/

/-- For each symbol of the table the set of blocks it leads to. -/
def signature (states : List (State Nat)) (block : Nat → Nat) (q : Nat) :
    List (Symbol × SortedSet Nat) :=
  match states[q]? with
  | some state => state.table.entries.map fun entry =>
      (entry.1, SortedSet.ofList (entry.2.toList.map block))
  | none => []

/-- The blocks of the coarsest bisimulation on some states, numbered by their first members. -/
def bisimulationBlocks (states : List (State Nat)) : Array Nat :=
  Partition.refine (signature states) (State.acceptanceBlocks states)

/-- A state whose index and targets are moved up by `offset`. -/
def shift (offset : Nat) (q : State Nat) : State Nat :=
  { q with
    index := q.index + offset
    table := Table.ofEdges (q.edges.map fun edge => (edge.1, edge.2 + offset)) }

/-- The states of both automata side by side. -/
def disjointStates (A B : FiniteAutomaton) : List (State Nat) :=
  A.states ++ B.states.map (shift A.size)

def bisimilar (A B : FiniteAutomaton) : Bool :=
  let blocks := bisimulationBlocks (A.disjointStates B)
  blocks[A.initial]? == blocks[B.initial + A.size]?

/-- One state for each block, with the edges of all its members. -/
def mergeBisimilar (A : FiniteAutomaton) : FiniteAutomaton :=
  let blocks := bisimulationBlocks A.states
  let block := Partition.blockOf blocks
  let state (group : List Nat) : State Nat :=
    ⟨block (group.headD 0), A.labels group, (group.take 1).any A.isTerminal,
      Table.ofEdges ((group.flatMap A.edges).map fun edge => (edge.1, block edge.2))⟩
  ⟨block A.initial, (Partition.groups blocks).map state, A.alphabet⟩

end Acceptors.Automaton
