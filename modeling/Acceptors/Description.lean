import Acceptors.Memory
import Acceptors.Parts

/-!
Descriptions of automata by named states. Naming a state in any clause declares it; states are
numbered in the order of their names; the state marked initial is the first one where none is
marked.
-/

namespace Acceptors

open Std

namespace Description

structure Transition where
  source : String
  target : String
  token : String
  opened : SortedSet Nat
  closed : SortedSet Nat
  deriving DecidableEq

inductive Clause where
  | state (name : String)
  | label (name label : String)
  | terminal (name : String)
  | initial (name : String)
  | transition (t : Transition)
  deriving DecidableEq

end Description

structure Description where
  names : SortedSet String
  labels : SortedMap String String
  terminal : SortedSet String
  initial : Option String
  transitions : List Description.Transition
  deriving DecidableEq

namespace Description

def empty : Description := ⟨∅, ∅, ∅, none, []⟩

/-- Takes one clause in. The last label of a state counts; a second initial state is refused. -/
def add (d : Description) : Clause → Except Fault Description
  | .state name => .ok { d with names := d.names.insert name }
  | .label name label =>
    .ok { d with names := d.names.insert name, labels := d.labels.insert name label }
  | .terminal name =>
    .ok { d with names := d.names.insert name, terminal := d.terminal.insert name }
  | .initial name =>
    match d.initial with
    | some _ => .error (.secondInitial name)
    | none => .ok { d with names := d.names.insert name, initial := some name }
  | .transition t =>
    .ok { d with
      names := (d.names.insert t.source).insert t.target
      transitions := d.transitions ++ [t] }

/-- Takes the clauses in one by one; a refused clause leaves the description as it is. -/
def addAll (d : Description) : List Clause → Description × List Fault
  | [] => (d, [])
  | c :: rest =>
    match d.add c with
    | .ok d => d.addAll rest
    | .error fault =>
      let (d, faults) := d.addAll rest
      (d, fault :: faults)

def ofClauses (cs : List Clause) : Description × List Fault := empty.addAll cs

def labelOf (d : Description) (name : String) : String := (d.labels.get? name).getD name

def indexOf (d : Description) (name : String) : Nat := d.names.toList.idxOf name

def initialIndex (d : Description) : Nat :=
  match d.initial with
  | some name => d.indexOf name
  | none => 0

/-- The parts described, an edge being what `edge` makes of a transition. -/
def parts {ε : Type} [Ord ε] [TransOrd ε] [LawfulEqOrd ε] (d : Description)
    (edge : Transition → ε) (alphabet : Alphabet) : Parts ε where
  initial := d.initialIndex
  states := d.names.toList.zipIdx.map fun (name, index) =>
    let outgoing := d.transitions.filter fun t => t.source = name
    ⟨index, d.labelOf name, name ∈ d.terminal,
      Table.ofEdges (outgoing.map fun t => (Symbol.ofToken t.token, edge t))⟩
  alphabet := alphabet

def Transition.usesMemory (t : Transition) : Bool :=
  (Symbol.ofToken t.token).isRef || !t.opened.isEmpty || !t.closed.isEmpty

/-- The plain automaton described; the first transition that uses memory is a fault. -/
def toFinite (d : Description) : Except Fault FiniteAutomaton :=
  match d.transitions.find? Transition.usesMemory with
  | some t => .error (.memoryTransition t.source t.target)
  | none =>
    let literals := (d.transitions.map fun t => Symbol.ofToken t.token).filter Symbol.isLiteral
    (d.parts (fun t => d.indexOf t.target) (SortedSet.ofList literals)).assembleFinite

def toMemory (d : Description) : Except Fault MemoryAutomaton :=
  (d.parts (fun t => ⟨d.indexOf t.target, t.opened, t.closed⟩) ∅).assemble

end Description

end Acceptors
