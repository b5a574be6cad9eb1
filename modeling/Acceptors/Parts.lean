import Acceptors.Automaton.Basic
import Acceptors.Fault

/-!
The parts an automaton is assembled from, and the checks they pass first. Faults are looked for in
one order and the first is reported: the alphabet, then position by position a wrong index before
the first edge that leads nowhere, then the initial state, then what a plain automaton must not have
on its edges.
-/

namespace Acceptors

open Std

/-- A state as it is handed in: no check has looked at its index. -/
abbrev Numbered (ε : Type) [Ord ε] := State ε

structure Parts (ε : Type) [Ord ε] where
  initial : Nat
  states : List (Numbered ε)
  alphabet : Alphabet
  deriving DecidableEq

namespace Parts

variable {ε : Type} [Ord ε] [Edge ε]

/-- What is wrong at one position. -/
def positionFault? (p : Parts ε) (q : Numbered ε) (position : Nat) : Option Fault :=
  if q.index ≠ position then some (.indexMismatch position q.index)
  else match q.edges.find? fun edge => decide (p.states.length ≤ Edge.target edge.2) with
    | some edge => some (.danglingTransition position (Edge.target edge.2))
    | none => none

def structureFault? (p : Parts ε) : Option Fault :=
  match p.states.zipIdx.findSome? fun (q, position) => p.positionFault? q position with
  | some fault => some fault
  | none =>
    if p.initial < p.states.length then none
    else some (.initialOutOfRange p.initial p.states.length)

/-- The automaton of the parts, its alphabet being the given one and all symbols but epsilon in a
table. -/
def assemble (p : Parts ε) : Except Fault (Automaton ε) :=
  if Symbol.epsilon ∈ p.alphabet then .error .epsilonInAlphabet
  else match p.structureFault? with
    | some fault => .error fault
    | none =>
      let symbols := (p.states.flatMap fun q => q.table.keys).filter fun s => !s.isEpsilon
      .ok ⟨p.initial, p.states, symbols.foldl SortedSet.insert p.alphabet⟩

/-- What is wrong with an edge of a plain automaton: a reference, or a literal without a name. -/
def edgeFault? (p : Parts Nat) (q : Numbered Nat) (edge : Symbol × Nat) : Option Fault :=
  match edge.1 with
  | .epsilon => none
  | .literal name => if name = "" then some .emptyName else none
  | .ref _ =>
    let target := match p.states[edge.2]? with
      | some r => r.label
      | none => ""
    some (.memoryTransition q.label target)

/-- The plain automaton of the parts, its alphabet being the given one and the literals on edges. -/
def assembleFinite (p : Parts Nat) : Except Fault FiniteAutomaton :=
  if Symbol.epsilon ∈ p.alphabet then .error .epsilonInAlphabet
  else if Symbol.literal "" ∈ p.alphabet then .error .emptyName
  else match p.structureFault? with
    | some fault => .error fault
    | none =>
      match p.states.findSome? fun q => q.edges.findSome? (p.edgeFault? q) with
      | some fault => .error fault
      | none =>
        let symbols := (p.states.flatMap fun q => q.edges.map (·.1)).filter Symbol.isLiteral
        .ok ⟨p.initial, p.states, symbols.foldl SortedSet.insert p.alphabet⟩

end Parts

namespace Automaton

/-- The parts of an automaton. -/
def parts {ε : Type} [Ord ε] (A : Automaton ε) : Parts ε := ⟨A.initial, A.states, A.alphabet⟩

end Automaton

end Acceptors
