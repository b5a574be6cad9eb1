import Acceptors.Exploration

/-!
Kinds of values that a front end tells apart, and which kind is a special case of which.
-/

namespace Acceptors

inductive Kind where
  | nfa
  | dfa
  | regex
  | randomRegex
  | int
  | string
  | boolean
  | optionalBool
  | ambiguityValue
  | prefixGrammar
  | array
  deriving DecidableEq, Repr

namespace Kind

def all : List Kind :=
  [nfa, dfa, regex, randomRegex, int, string, boolean, optionalBool, ambiguityValue, prefixGrammar,
    array]

def name : Kind → String
  | nfa => "NFA"
  | dfa => "DFA"
  | regex => "Regex"
  | randomRegex => "RandomRegex"
  | int => "Int"
  | string => "String"
  | boolean => "Boolean"
  | optionalBool => "OptionalBool"
  | ambiguityValue => "AmbiguityValue"
  | prefixGrammar => "PrefixGrammar"
  | array => "Array"

/-- The kinds that a kind is directly a special case of. -/
def parents : Kind → List Kind
  | dfa => [nfa]
  | _ => []

def children (k : Kind) : List Kind := all.filter fun c => k ∈ c.parents

/-- The kind itself and all that its parents lead to. -/
def ancestors (k : Kind) : List Kind := explore parents all.length [k]

def isSubtypeOf (k l : Kind) : Bool := l ∈ k.ancestors

def supertypes (k : Kind) : List Kind := all.filter k.isSubtypeOf

end Kind

end Acceptors
