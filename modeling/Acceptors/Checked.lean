import Acceptors.Expression
import Acceptors.Monoid
import Acceptors.Parts

/-!
The operations on automata as they are carried out, under assertions. A state is looked up by its
number, and there must be one; a state that an operation makes carries the number that the operation
gives it, and the automaton is put together only if these are the positions. On automata that are
sound themselves the operations give what the plain ones do (`Acceptors.Proofs.Checked`).
-/

namespace Acceptors

/-- What is computed under assertions. -/
abbrev Checked := Except Breach

namespace Checked

section Lists

variable {α κ : Type}

/-- The entry at an index, which must be in range. -/
def lookUp (xs : List α) (i : Nat) : Checked α :=
  match xs[i]? with
  | some x => .ok x
  | none => .error (.outOfBounds xs.length i)

/-- Changes the entry at an index, which must be in range. -/
def modifyAt (xs : List α) (i : Nat) (f : α → α) : Checked (List α) := do
  let x ← lookUp xs i
  return xs.set i (f x)

/-- The position of an entry, of which there must be one. -/
def numberOf [DecidableEq α] (xs : List α) (x : α) : Checked Nat :=
  if x ∈ xs then .ok (xs.idxOf x) else .error .noEntry

/-- Exploration by steps that may be breaches. -/
def exploreFrom [DecidableEq κ] (key : α → κ) (next : α → Checked (List α)) :
    Nat → List α → List α → Checked (List α)
  | 0, found, _ => .ok found
  | rounds + 1, found, level => do
    let following ← level.mapM next
    match fresh key found following.flatten with
    | [] => return found
    | new => exploreFrom key next rounds (found ++ new) new

/-- What some nodes lead to. All nodes but `size` are breaches, so that one round more comes to an
end. -/
def explore [DecidableEq α] (next : α → Checked (List α)) (size : Nat) (start : List α) :
    Checked (List α) :=
  exploreFrom id next (size + 1) (fresh id [] start) (fresh id [] start)

end Lists

/-! ## Putting automata together -/

/-- The automaton of some parts. The states must carry their positions, and the initial one must be
there. -/
def fromParts (p : Parts Nat) : Checked FiniteAutomaton :=
  if p.states.zipIdx.all fun (q, position) => q.index == position then
    if p.initial < p.states.length then .ok ⟨p.initial, p.states, p.alphabet⟩
    else .error .initialMissing
  else .error .misnumbered

/-- Adds edges to the states at the positions that they start from. -/
def connectAll (states : List (State Nat)) (edges : List (Nat × Symbol × Nat)) :
    Checked (List (State Nat)) :=
  edges.foldlM (fun states edge => modifyAt states edge.1 fun q =>
    { q with table := q.table.connect edge.2 }) states

/-- A node as it is visited. -/
structure Node (α : Type) where
  name : String
  terminal : Bool
  edges : List (Symbol × α)

section Nodes

variable {α : Type} [DecidableEq α] (visit : α → Checked (Node α))

/-- The state of a node that stands at a position among others. -/
def stateOf (nodes : List α) (x : α) (position : Nat) : Checked (State Nat) := do
  let node ← visit x
  let edges ← node.edges.mapM fun (s, y) => return (s, ← numberOf nodes y)
  return ⟨position, node.name, node.terminal, Table.ofEdges edges⟩

/-- The automaton of the nodes that the start leads to, numbered in the order of discovery. -/
def ofNodes (size : Nat) (start : α) (alphabet : Alphabet) : Checked FiniteAutomaton := do
  let nodes ← explore (fun x => return (← visit x).edges.map (·.2)) size [start]
  let states ← nodes.zipIdx.mapM fun entry => stateOf visit nodes entry.1 entry.2
  fromParts ⟨0, states, alphabet⟩

end Nodes

/-- The state of a block without its edges. It is named after all members, and the first speaks for
them. -/
def stateOfBlock (A : FiniteAutomaton) (block : Nat) (group : List Nat) : Checked (State Nat) := do
  let members ← group.mapM (lookUp A.states)
  let first ← lookUp members 0
  return ⟨block, String.intercalate ", " (members.map State.label), first.terminal, ∅⟩

/-- The automaton of the blocks of a partition. A state carries the number of its block, and an edge
is added to the state at the position that is the number of the block it starts from. -/
def ofBlocks (A : FiniteAutomaton) (blocks : Array Nat) (edges : List (Nat × Symbol × Nat)) :
    Checked FiniteAutomaton := do
  let states ← (Partition.members blocks).entries.mapM fun entry =>
    stateOfBlock A entry.1 entry.2
  let edges ← edges.mapM fun edge =>
    return (← lookUp blocks.toList edge.1, edge.2.1, ← lookUp blocks.toList edge.2.2)
  let states ← connectAll states edges
  let initial ← lookUp blocks.toList A.initial
  fromParts ⟨initial, states, A.alphabet⟩

/-! ## Walks -/

variable (A : FiniteAutomaton)

def epsilonClosure (qs : List Nat) : Checked (SortedSet Nat) := do
  let found ← explore (fun q => return (← lookUp A.states q).next .epsilon) A.size qs
  return .ofList found

def reachable (q : Nat) : Checked (SortedSet Nat) := do
  let found ← explore (fun q => return (← lookUp A.states q).edges.map (·.2)) A.size [q]
  return .ofList found

/-- For each position the states with an edge to it. -/
def sources : Checked (List (List Nat)) :=
  (A.states.flatMap fun q => q.edges.map fun edge => (edge.2, q.index)).foldlM
    (fun rows arrow => modifyAt rows arrow.1 (· ++ [arrow.2])) (List.replicate A.size [])

def productive : Checked (SortedSet Nat) := do
  let rows ← sources A
  let found ← explore (lookUp rows) A.size ((A.states.filter (·.terminal)).map (·.index))
  return .ofList found

/-! ## Operations -/

/-- The state with the other edges of its epsilon closure. -/
def close (q : State Nat) : Checked (State Nat) := do
  let closure ← epsilonClosure A [q.index]
  let members ← closure.toList.mapM (lookUp A.states)
  return ⟨q.index, q.name, members.any (·.terminal),
    Table.ofEdges ((members.flatMap (·.edges)).filter fun edge => !edge.1.isEpsilon)⟩

def withoutEpsilon : Checked FiniteAutomaton := do
  let states ← A.states.mapM (close A)
  fromParts ⟨A.initial, states, A.alphabet⟩

def epsilonFree : Checked FiniteAutomaton := if A.hasEpsilon then withoutEpsilon A else .ok A

def visitState (q : Nat) : Checked (Node Nat) := do
  let state ← lookUp A.states q
  return ⟨state.name, state.terminal, state.edges⟩

def canonical : Checked FiniteAutomaton := ofNodes (visitState A) A.size A.initial A.alphabet

def visitSubset (qs : SortedSet Nat) : Checked (Node (SortedSet Nat)) := do
  let members ← qs.toList.mapM (lookUp A.states)
  return ⟨"\x7b" ++ String.intercalate ", " (members.map State.label) ++ "\x7d",
    members.any (·.terminal),
    A.alphabet.toList.filterMap fun s =>
      let targets := SortedSet.ofList (members.flatMap fun q => q.next s)
      if targets.isEmpty then none else some (s, targets)⟩

def determinize : Checked FiniteAutomaton := do
  let B ← epsilonFree A
  ofNodes (visitSubset B) (Nat.pow 2 A.size) (.singleton B.initial) B.alphabet

def visitPair (B : FiniteAutomaton) : Nat × Nat → Checked (Node (Nat × Nat))
  | (p, q) => do
    let left ← lookUp A.states p
    let right ← lookUp B.states q
    return ⟨"(" ++ left.label ++ ", " ++ right.label ++ ")", left.terminal && right.terminal,
      left.edges.flatMap fun (s, x) => (right.next s).map fun y => (s, (x, y))⟩

def intersection (B : FiniteAutomaton) : Checked FiniteAutomaton := do
  let A ← epsilonFree A
  let B ← epsilonFree B
  ofNodes (visitPair A B) (A.size * B.size) (A.initial, B.initial) (A.alphabet.union B.alphabet)

/-- No state is looked up to add the sink and its edges. -/
def complete : Checked FiniteAutomaton :=
  if A.isComplete then .ok A else fromParts A.complete.parts

/-- The automaton must be deterministic. -/
def complement : Checked FiniteAutomaton :=
  if A.isDeterministic then do
    let B ← complete A
    fromParts ⟨B.initial, B.states.map fun q => { q with terminal := !q.terminal }, B.alphabet⟩
  else .error .complementNondeterministic

def mergeBisimilar : Checked FiniteAutomaton :=
  ofBlocks A (Automaton.bisimulationBlocks A.states)
    (A.states.flatMap fun q => q.edges.map fun edge => (q.index, edge))

/-- The edges of the first member of each block. -/
def spokenEdges (blocks : Array Nat) : List (Nat × Symbol × Nat) :=
  (Partition.members blocks).values.flatMap fun group =>
    (group.take 1).flatMap fun q => A.alphabet.toList.filterMap fun s =>
      (A.successor q s).map fun r => (q, s, r)

/-- The automaton must be deterministic. -/
def minimize : Checked FiniteAutomaton :=
  if A.isDeterministic then do
    let reachable ← reachable A A.initial
    let productive ← productive A
    if A.initial ∈ productive then
      let useful := A.restrict (reachable.toList.filter fun q => q ∈ productive)
      let D ← ofBlocks useful useful.equivalenceBlocks (spokenEdges useful useful.equivalenceBlocks)
      canonical D
    else
      let q ← lookUp A.states A.initial
      fromParts ⟨0, [⟨0, q.label, false, ∅⟩], A.alphabet⟩
  else .error .minimizeNondeterministic

def minimal : Checked FiniteAutomaton := do
  let D ← determinize A
  minimize D

/-- The successors in the completed automaton, or those of one state if no state is terminal. -/
def delta : Checked (List (List Nat)) :=
  if A.terminals.isEmpty then .ok [A.alphabet.toList.map fun _ => 0]
  else do
    let B ← complete A
    return B.states.map fun q => A.alphabet.toList.map fun s => (q.next s).head?.getD q.index

/-- The automaton must be deterministic. -/
def monoid : Checked TransformationMonoid :=
  if A.isDeterministic then do
    let rows ← delta A
    return .ofDelta A.alphabet.toList rows
  else .error .monoidNondeterministic

/-! ## Expressions -/

/-- The states of the fragment are made first, then come its edges, and the exit becomes
terminal. -/
def ofFragment (f : Regex.Fragment) (alphabet : Alphabet) : Checked FiniteAutomaton := do
  let states ← connectAll ((List.range f.next).map fun q => ⟨q, Decimal.text q, false, ∅⟩) f.edges
  let states ← modifyAt states f.exit fun q => { q with terminal := true }
  fromParts ⟨f.entry, states, alphabet⟩

def toAutomaton (e : Expression) : Checked FiniteAutomaton :=
  ofFragment (e.regex.fragment 0) e.alphabet

/-- The equations of an automaton. Its useful states are found by walks, and the literals on edges
between them must have names. -/
def equations : Checked EquationSystem := do
  let B ← epsilonFree A
  let _ ← reachable B B.initial
  let _ ← productive B
  if EquationSystem.hasNameless A then .error .namelessLiteral
  else return .ofEpsilonFree B

def toExpression : Checked Expression := do
  let S ← equations A
  return ⟨S.solve, A.alphabet⟩

end Checked

end Acceptors
