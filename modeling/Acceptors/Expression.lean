import Acceptors.Automaton.Compare
import Acceptors.Automaton.Statewise
import Acceptors.Regex.Fragment
import Acceptors.Regex.Printer
import Acceptors.Regex.Reader

/-!
Systems of language equations: a variable is a union of coefficients times variables, and a
constant. An automaton has one equation for each useful state; a system is solved by eliminating its
variables one by one.

An expression is a tree over an alphabet, which may have more symbols than occur in the tree.
-/

namespace Acceptors

structure Equation where
  /-- The coefficient of each variable. -/
  terms : SortedMap Nat Regex
  constant : Regex
  deriving DecidableEq

structure EquationSystem where
  initial : Nat
  equations : SortedMap Nat Equation
  deriving DecidableEq

namespace Equation

/-- Adds to the coefficient of a variable; a coefficient that is the empty language is left out. -/
def addTerm (e : Equation) (x : Nat) (r : Regex) : Equation :=
  let merged := match e.terms.get? x with
    | some old => Regex.sum [old, r]
    | none => r
  let others := e.terms.erase x
  { e with terms := if merged.isEmptyLanguage then others else others.insert x merged }

/-- Solves an equation for its own variable: the least solution of `X = A X | B` is `A* B`. -/
def isolate (e : Equation) (x : Nat) : Equation :=
  match e.terms.get? x with
  | none => e
  | some r =>
    let loop := Regex.iterate r
    ⟨(e.terms.erase x).map fun _ s => Regex.product [loop, s], Regex.product [loop, e.constant]⟩

/-- Puts the right-hand side of a solved equation in the place of its variable. -/
def substitute (e : Equation) (x : Nat) (solution : Equation) : Equation :=
  match e.terms.get? x with
  | none => e
  | some r =>
    let rest : Equation := { e with terms := e.terms.erase x }
    let merged := solution.terms.entries.foldl
      (fun e term => e.addTerm term.1 (Regex.product [r, term.2])) rest
    { merged with constant := Regex.sum [e.constant, Regex.product [r, solution.constant]] }

def text (x : Nat) (e : Equation) : String :=
  "X" ++ Decimal.text x ++ " =" ++
    String.join (e.terms.entries.map fun (y, r) =>
      " (" ++ r.text ++ ")X" ++ Decimal.text y ++ " |") ++
    " " ++ e.constant.text ++ "\n"

end Equation

namespace EquationSystem

def size (S : EquationSystem) : Nat := S.equations.size

def text (S : EquationSystem) : String :=
  String.join (S.equations.entries.map fun (x, e) => e.text x)

/-- Solves the equation of a variable and puts the solution into all others. -/
def eliminate (equations : SortedMap Nat Equation) (x : Nat) : SortedMap Nat Equation :=
  match equations.get? x with
  | none => equations
  | some e => (equations.erase x).map fun _ other => other.substitute x (e.isolate x)

/-- The initial variable's component of the least solution. The others are eliminated first, from
the last down. -/
def solve (S : EquationSystem) : Regex :=
  let order := S.equations.keys.reverse.filter (· != S.initial)
  match (order.foldl eliminate S.equations).get? S.initial with
  | some e => (e.isolate S.initial).constant
  | none => .empty

/-- The edges of a state that count in its equation: those on literals that lead on to a terminal
state. -/
def literalEdges (A : FiniteAutomaton) (q : Nat) : List (String × Nat) :=
  let productive := A.productive
  (A.edges q).filterMap fun (s, r) =>
    match s with
    | .literal name => if r ∈ productive then some (name, r) else none
    | _ => none

def equationOf (A : FiniteAutomaton) (q : Nat) : Equation :=
  (literalEdges A q).foldl (fun e (name, r) => e.addTerm r (.literal name))
    ⟨∅, if A.isTerminal q then .epsilon else .empty⟩

/-- One equation for each useful state, or one without terms where no word is accepted. -/
def ofEpsilonFree (A : FiniteAutomaton) : EquationSystem :=
  if A.initial ∈ A.productive then
    ⟨A.initial, SortedMap.ofList (A.useful.map fun q => (q, equationOf A q))⟩
  else ⟨A.initial, SortedMap.ofList [(A.initial, ⟨∅, .empty⟩)]⟩

def ofAutomaton (A : FiniteAutomaton) : EquationSystem := ofEpsilonFree A.epsilonFree

/-- Some edge that an equation would be made from has a literal without a name. -/
def hasNameless (A : FiniteAutomaton) : Bool :=
  let B := A.epsilonFree
  B.initial ∈ B.productive &&
    B.useful.any fun q => (literalEdges B q).any fun edge => edge.1 == ""

end EquationSystem

structure Expression where
  regex : Regex
  alphabet : Alphabet
  deriving DecidableEq

namespace Expression

/-- The expression over the literals of its tree. -/
def ofRegex (r : Regex) : Expression := ⟨r, r.alphabet⟩

def parse (text : String) : Except Regex.ReadError Expression := (Regex.parse text).map ofRegex

/-- The expression of an automaton's language, by solving its equations. -/
def ofAutomaton (A : FiniteAutomaton) : Expression :=
  ⟨(EquationSystem.ofAutomaton A).solve, A.alphabet⟩

def toAutomaton (e : Expression) : FiniteAutomaton := e.regex.toAutomaton e.alphabet

def accepts (e : Expression) (w : Word) : Bool := e.toAutomaton.accepts w

def equivalent (e f : Expression) : Bool := e.toAutomaton.equivalent f.toAutomaton

end Expression

end Acceptors
