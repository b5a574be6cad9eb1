import Acceptors.Automaton.Quotient

/-!
Equality of automata up to the numbering of states, and equality of their languages. The reachable
parts of two automata are compared by backtracking: the states of the first part take their images
one by one in breadth-first order, and an image must agree with all images taken before.
-/

namespace Acceptors.Automaton

/-! ## Isomorphism -/

/-- The reachable states in breadth-first order. -/
def breadthFirst (A : FiniteAutomaton) : List Nat := explore A.successors A.size [A.initial]

/-- A partial map from states to states. -/
abbrev Matching := List (Nat × Nat)

def image? (m : Matching) (q : Nat) : Option Nat := (m.find? fun pair => pair.1 == q).map (·.2)

/-- The symbols of a state's table and how many edges each has. -/
def degrees (A : FiniteAutomaton) (q : Nat) : List (Symbol × Nat) :=
  match A.states[q]? with
  | some state => state.table.entries.map fun entry => (entry.1, entry.2.size)
  | none => []

/-- Every edge from `p` to a state of the matching, `p` ↦ `q` included, has its image. -/
def outgoingAgree (A B : FiniteAutomaton) (m : Matching) (p q : Nat) : Bool :=
  (A.edges p).all fun (s, r) =>
    match image? ((p, q) :: m) r with
    | some image => (B.next q s).contains image
    | none => true

/-- Every edge from a state of the matching to `p` has its image. -/
def incomingAgree (A B : FiniteAutomaton) (m : Matching) (p q : Nat) : Bool :=
  m.all fun (r, image) =>
    (A.edges r).all fun edge => edge.2 != p || (B.next image edge.1).contains q

def compatible (A B : FiniteAutomaton) (m : Matching) (p q : Nat) : Bool :=
  A.isTerminal p == B.isTerminal q && A.degrees p == B.degrees q &&
    A.outgoingAgree B m p q && A.incomingAgree B m p q

/-- Extends the matching to the states in `todo`, with images among `candidates` that are not yet
taken. -/
def extendMatching (A B : FiniteAutomaton) (candidates : List Nat) : List Nat → Matching → Bool
  | [], _ => true
  | p :: todo, m =>
    candidates.any fun q =>
      !(m.any fun pair => pair.2 == q) && A.compatible B m p q &&
        A.extendMatching B candidates todo ((p, q) :: m)

def isomorphic (A B : FiniteAutomaton) : Bool :=
  A.breadthFirst.length == B.breadthFirst.length &&
    match A.breadthFirst with
    | [] => true
    | p :: todo =>
      A.compatible B [] p B.initial && A.extendMatching B B.breadthFirst todo [(p, B.initial)]

/-! ## Equality -/

/-- The shape of an automaton: all of it but the names and the alphabet. -/
def shape (A : FiniteAutomaton) : Nat × List (Bool × Table Nat) :=
  (A.initial, A.states.map fun q => (q.terminal, q.table))

/-- Deterministic automata are equal when their minimal forms are, others when their reachable parts
are isomorphic. The alphabets must be equal in any case. -/
def equal (A B : FiniteAutomaton) : Bool :=
  A.alphabet == B.alphabet &&
    if A.isDeterministic && B.isDeterministic then A.minimize.shape == B.minimize.shape
    else A.isomorphic B

/-- A state of each of two deterministic automata; `none` is a side that has no edge to go on. -/
abbrev Lockstep := Option Nat × Option Nat

def advance (D : FiniteAutomaton) (s : Symbol) (p : Option Nat) : Option Nat :=
  p.bind fun p => D.successor p s

def lockstepNext (D E : FiniteAutomaton) (alphabet : Alphabet) : Lockstep → List Lockstep
  | (p, q) =>
    (alphabet.toList.map fun s => (D.advance s p, E.advance s q)).filter (· != (none, none))

def acceptsAt (D : FiniteAutomaton) (p : Option Nat) : Bool := (p.map D.isTerminal).getD false

/-- Both automata are made deterministic and explored in lockstep over both alphabets. -/
def equivalent (A B : FiniteAutomaton) : Bool :=
  let D := A.determinize
  let E := B.determinize
  let pairs := explore (D.lockstepNext E (D.alphabet.union E.alphabet))
    ((D.size + 1) * (E.size + 1)) [(some D.initial, some E.initial)]
  pairs.all fun (p, q) => D.acceptsAt p == E.acceptsAt q

end Acceptors.Automaton
