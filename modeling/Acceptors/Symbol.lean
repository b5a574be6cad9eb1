import Acceptors.Decimal
import Acceptors.Sorted.Set

/-!
Symbols of words and labels of edges: epsilon, literals by name, references to memory cells by
number, in this order. Main statements: the instances of `TransOrd` and `LawfulEqOrd`.
-/

namespace Acceptors

open Std

inductive Symbol where
  | epsilon
  | literal (name : String)
  | ref (cell : Nat)
  deriving DecidableEq, Repr, Inhabited

abbrev Word := List Symbol

namespace Symbol

protected def compare : Symbol → Symbol → Ordering
  | epsilon, epsilon => .eq
  | epsilon, _ => .lt
  | _, epsilon => .gt
  | literal a, literal b => Ord.compare a b
  | literal _, ref _ => .lt
  | ref _, literal _ => .gt
  | ref m, ref n => Ord.compare m n

instance : Ord Symbol := ⟨Symbol.compare⟩

instance : TransOrd Symbol where
  eq_swap {a b} := by
    match a, b with
    | literal a, literal b => exact OrientedOrd.eq_swap (α := String)
    | ref m, ref n => exact OrientedOrd.eq_swap (α := Nat)
    | epsilon, epsilon | epsilon, literal _ | epsilon, ref _ | literal _, epsilon
    | literal _, ref _ | ref _, epsilon | ref _, literal _ => rfl
  isLE_trans {a b c} hab hbc := by
    match a, b, c with
    | literal a, literal b, literal c => exact TransOrd.isLE_trans (α := String) hab hbc
    | ref a, ref b, ref c => exact TransOrd.isLE_trans (α := Nat) hab hbc
    | epsilon, _, epsilon | epsilon, _, literal _ | epsilon, _, ref _
    | literal _, _, ref _ => rfl
    | literal _, epsilon, _ | ref _, epsilon, _ | ref _, literal _, _ => cases hab
    | _, literal _, epsilon | _, ref _, epsilon | _, ref _, literal _ => cases hbc

instance : LawfulEqOrd Symbol where
  compare_self {a} := by
    match a with
    | epsilon => rfl
    | literal _ => exact ReflOrd.compare_self (α := String)
    | ref _ => exact ReflOrd.compare_self (α := Nat)
  eq_of_compare {a b} h := by
    match a, b with
    | epsilon, epsilon => rfl
    | literal _, literal _ => exact congrArg literal (LawfulEqOrd.eq_of_compare (α := String) h)
    | ref _, ref _ => exact congrArg ref (LawfulEqOrd.eq_of_compare (α := Nat) h)
    | epsilon, literal _ | epsilon, ref _ | literal _, epsilon | literal _, ref _
    | ref _, epsilon | ref _, literal _ => cases h

/-- The spellings of epsilon in structural input; the first is the one written. -/
def epsilonTokens : List String := ["eps", "epsilon", "ε", "ϵ"]

/-- Cell numbers are machine words. -/
def cellLimit : Nat := Nat.pow 2 64

/-- A cell number is a numeral below `cellLimit`, with one plus sign at most. -/
def cell? (numeral : List Char) : Option Nat :=
  let digits := match numeral with
    | '+' :: rest => rest
    | numeral => numeral
  (Decimal.read digits).filter (· < cellLimit)

/-- Reads a token: a spelling of epsilon, an ampersand and a cell number, or else a literal. -/
def ofToken (token : String) : Symbol :=
  if token ∈ epsilonTokens then epsilon
  else match token.toList with
    | '&' :: numeral =>
      match cell? numeral with
      | some cell => ref cell
      | none => literal token
    | _ => literal token

def text : Symbol → String
  | epsilon => "eps"
  | literal name => name
  | ref cell => "&" ++ Decimal.text cell

def ofChar (c : Char) : Symbol := literal (String.singleton c)

def isEpsilon (s : Symbol) : Bool := s == epsilon

def isRef : Symbol → Bool
  | ref _ => true
  | _ => false

def isLiteral : Symbol → Bool
  | literal _ => true
  | _ => false

def name? : Symbol → Option String
  | literal name => some name
  | _ => none

end Symbol

namespace Word

/-- One literal symbol per character. -/
def ofText (text : String) : Word := text.toList.map Symbol.ofChar

/-- The symbols' texts joined; epsilon contributes nothing. -/
def text (w : Word) : String :=
  String.join ((w.filter fun s => !s.isEpsilon).map Symbol.text)

end Word

abbrev Alphabet := SortedSet Symbol

end Acceptors
