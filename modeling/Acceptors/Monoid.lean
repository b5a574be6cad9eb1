import Acceptors.Automaton.Statewise

/-!
The transformations of the states of a deterministic automaton that words bring about. Each is
listed once, with the first word that brings it about, shorter words first and words of one length
by their symbols.
-/

namespace Acceptors

/-- A word and the state it leads each state to. -/
structure Transformation where
  word : Word
  image : List Nat
  deriving DecidableEq

structure TransformationMonoid where
  alphabet : List Symbol
  /-- For each state its successors by position in the alphabet. -/
  delta : List (List Nat)
  elements : List Transformation
  deriving DecidableEq

namespace TransformationMonoid

/-- The successor by position; a state stays where it is on a symbol that leads nowhere. -/
def row (A : FiniteAutomaton) (q : Nat) : List Nat :=
  A.alphabet.toList.map fun s => (A.successor q s).getD q

/-- The successors in the completed automaton. Without a terminal state one state stands for all. -/
def deltaOf (A : FiniteAutomaton) : List (List Nat) :=
  if A.terminals.isEmpty then [A.alphabet.toList.map fun _ => 0]
  else (List.range A.complete.size).map (row A.complete)

/-- Where a state goes on the symbol at a position. -/
def go (delta : List (List Nat)) (position q : Nat) : Nat := (delta.getD q []).getD position q

def extend (alphabet : List Symbol) (delta : List (List Nat)) (t : Transformation) :
    List Transformation :=
  alphabet.zipIdx.map fun (s, position) => ⟨t.word ++ [s], t.image.map (go delta position)⟩

/-- The monoid that the successors generate. -/
def ofDelta (alphabet : List Symbol) (delta : List (List Nat)) : TransformationMonoid :=
  let n := delta.length
  ⟨alphabet, delta,
    exploreBy Transformation.image (extend alphabet delta) (Nat.pow n n) [⟨[], List.range n⟩]⟩

def ofAutomaton (A : FiniteAutomaton) : TransformationMonoid :=
  ofDelta A.alphabet.toList (deltaOf A)

def size (M : TransformationMonoid) : Nat := M.elements.length

def identity? (M : TransformationMonoid) : Option Transformation := M.elements.head?

/-- What a word does to each state, unless it leaves the alphabet. -/
def image? (M : TransformationMonoid) (w : Word) : Option (List Nat) :=
  w.foldlM (fun image s =>
    if s ∈ M.alphabet then some (image.map (go M.delta (M.alphabet.idxOf s))) else none)
    (List.range M.delta.length)

def elementOf (M : TransformationMonoid) (w : Word) : Option Transformation :=
  match M.image? w with
  | some image => M.elements.find? fun t => t.image == image
  | none => none

end TransformationMonoid

end Acceptors
