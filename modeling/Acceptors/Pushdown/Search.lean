import Acceptors.Pushdown.Basic

/-!
Depth-first search for an accepting run of a pushdown automaton. An epsilon move is tried once for a
position, a source and a target, whatever the stack; what was tried at later positions is forgotten
when the search returns to an earlier one. So the search always ends, but it may miss a run that
needs a second try with another stack.
-/

namespace Acceptors.PushdownAutomaton

structure Configuration where
  position : Nat
  state : Nat
  stack : List Symbol
  deriving DecidableEq

/-- An epsilon move as the search remembers it. -/
structure Trial where
  position : Nat
  source : Nat
  target : Nat
  deriving DecidableEq

/-- The configurations still to be looked at, the next one first, and the epsilon moves tried. -/
structure Search where
  pending : List Configuration
  tried : List Trial
  deriving DecidableEq

structure Outcome where
  /-- How many configurations were looked at. -/
  steps : Nat
  accepted : Bool
  /-- The limit stopped the search before a verdict. -/
  exhausted : Bool
  deriving DecidableEq

def Configuration.fire (c : Configuration) (consumed : Nat) (m : StackMove) : Configuration :=
  ⟨c.position + consumed, m.target, m.apply c.stack⟩

def start (P : PushdownAutomaton) : Search := ⟨[⟨0, P.initial, []⟩], []⟩

def isAccepting (P : PushdownAutomaton) (w : Word) (c : Configuration) : Bool :=
  P.isTerminal c.state && c.position == w.length

/-- The configurations after one input symbol, in the order of the edges. -/
def symbolMoves (P : PushdownAutomaton) (w : Word) (c : Configuration) : List Configuration :=
  match w[c.position]? with
  | none => []
  | some s => ((P.next c.state s).filter fun m => m.fires c.stack).map (c.fire 1)

/-- The configurations after epsilon moves not tried before, and all moves tried by then. -/
def epsilonMoves (c : Configuration) :
    List StackMove → List Trial → List Configuration × List Trial
  | [], tried => ([], tried)
  | m :: moves, tried =>
    let trial : Trial := ⟨c.position, c.state, m.target⟩
    if m.fires c.stack && !tried.contains trial then
      let (found, tried) := epsilonMoves c moves (trial :: tried)
      (c.fire 0 m :: found, tried)
    else epsilonMoves c moves tried

/-- Looks at one configuration. What it leads to comes before all else, epsilon moves first, last
edge first. -/
def expand (P : PushdownAutomaton) (w : Word) (c : Configuration) (rest : Search) : Search :=
  let kept := rest.tried.filter fun t => decide (t.position ≤ c.position)
  let (free, tried) := epsilonMoves c (P.next c.state .epsilon) kept
  ⟨free.reverse ++ (P.symbolMoves w c).reverse ++ rest.pending, tried⟩

/-- Goes on for at most `fuel` configurations. `none` means that neither a verdict nor the limit was
reached. -/
def searchFrom (P : PushdownAutomaton) (w : Word) (limit : Option Nat) :
    Nat → Nat → Search → Option Outcome
  | fuel, steps, s =>
    match s.pending with
    | [] => some ⟨steps, false, false⟩
    | c :: pending =>
      if limit.any fun most => decide (most ≤ steps) then some ⟨steps, false, true⟩
      else match fuel with
        | 0 => none
        | fuel + 1 =>
          if P.isAccepting w c then some ⟨steps + 1, true, false⟩
          else searchFrom P w limit fuel (steps + 1) (P.expand w c ⟨pending, s.tried⟩)

/-- A bound on the configurations of one search. At a position each of the `n * n` epsilon moves
starts one configuration more, and each configuration starts at most one for every edge at the next
position. -/
def searchBound (P : PushdownAutomaton) (w : Word) : Nat :=
  Nat.pow (P.size * P.size + P.allEdges.length + 2) (w.length + 2)

def search (P : PushdownAutomaton) (w : Word) (limit : Option Nat) : Outcome :=
  (P.searchFrom w limit (P.searchBound w) 0 P.start).getD ⟨P.searchBound w, false, true⟩

def accepts (P : PushdownAutomaton) (w : Word) : Bool := (P.search w none).accepted

end Acceptors.PushdownAutomaton
