import Acceptors.Automaton.Basic
import Acceptors.Regex.Build

/-!
Automata of expressions, put together from fragments. A fragment has one entry and one exit, no edge
into its entry or out of its exit but its own loops, and states numbered in one stretch from where
the fragment before it ends. Each node of the tree adds two states at most.
-/

namespace Acceptors.Regex

structure Fragment where
  entry : Nat
  exit : Nat
  /-- The first number after the states of the fragment. -/
  next : Nat
  edges : List (Nat × Symbol × Nat)
  deriving DecidableEq

namespace Fragment

/-- Two states numbered from `n`, with an edge on each of `symbols`. -/
def leaf (n : Nat) (symbols : List Symbol) : Fragment :=
  ⟨n, n + 1, n + 2, symbols.map fun s => (n, s, n + 1)⟩

/-- Joins fragments in a row by epsilon edges. -/
def chain (f : Fragment) : List Fragment → Fragment
  | [] => f
  | g :: gs =>
    chain ⟨f.entry, g.exit, g.next, f.edges ++ g.edges ++ [(f.exit, .epsilon, g.entry)]⟩ gs

/-- A new entry and exit around fragments, of which any one may be taken. -/
def choice (n : Nat) (fs : List Fragment) : Fragment :=
  ⟨n, n + 1, n + 2,
    fs.flatMap fun f => f.edges ++ [(n, .epsilon, f.entry), (f.exit, .epsilon, n + 1)]⟩

/-- A new entry and exit around a fragment that may be taken any number of times. -/
def loop (f : Fragment) : Fragment :=
  let n := f.next
  ⟨n, n + 1, n + 2, f.edges ++
    [(n, .epsilon, f.entry), (f.exit, .epsilon, n + 1), (n, .epsilon, n + 1),
      (f.exit, .epsilon, f.entry)]⟩

/-- The first number after all of some fragments. -/
def nextAfter (n : Nat) (fs : List Fragment) : Nat := (fs.getLast?.map (·.next)).getD n

end Fragment

mutual

/-- The fragment of a tree, its states numbered from `n`. -/
def fragment (n : Nat) : Regex → Fragment
  | empty => .leaf n []
  | epsilon => .leaf n [.epsilon]
  | literal name => .leaf n [.literal name]
  | concat rs =>
    match fragments n rs with
    | [] => .leaf n [.epsilon]
    | f :: fs => f.chain fs
  | union rs =>
    let fs := fragments n rs
    .choice (Fragment.nextAfter n fs) fs
  | star r => (fragment n r).loop

/-- The fragments of some trees, one stretch of states after the other. -/
def fragments (n : Nat) : List Regex → List Fragment
  | [] => []
  | r :: rs =>
    let f := fragment n r
    f :: fragments f.next rs

end

namespace Fragment

def state (f : Fragment) (q : Nat) : State Nat :=
  ⟨q, Decimal.text q, q == f.exit,
    Table.ofEdges ((f.edges.filter fun edge => edge.1 == q).map (·.2))⟩

def toAutomaton (f : Fragment) (alphabet : Alphabet) : FiniteAutomaton :=
  ⟨f.entry, (List.range f.next).map f.state, alphabet⟩

end Fragment

def toAutomaton (r : Regex) (alphabet : Alphabet) : FiniteAutomaton :=
  (r.fragment 0).toAutomaton alphabet

end Acceptors.Regex
