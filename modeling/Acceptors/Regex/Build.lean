import Acceptors.Regex.Basic

/-!
Simplifying constructors, measures of trees and words of a tree. A tree is simplified when these
constructors built it: a concatenation or union has at least two parts, none of its own kind; no
part of a concatenation is a unit or zero; the parts of a union ascend and none is the empty
language; no star stands on a star, a unit or a zero.
-/

namespace Acceptors.Regex

/-- The parts that a tree contributes to a concatenation around it. -/
def factors : Regex → List Regex
  | epsilon => []
  | concat rs => rs
  | r => [r]

/-- The parts that a tree contributes to a union around it. -/
def alternatives : Regex → List Regex
  | empty => []
  | union rs => rs
  | r => [r]

def ofFactors : List Regex → Regex
  | [] => epsilon
  | [r] => r
  | rs => concat rs

def ofAlternatives : List Regex → Regex
  | [] => empty
  | [r] => r
  | rs => union rs

/-- Concatenation: inner concatenations are spliced, units dropped, and the empty language absorbs
all. -/
def product (rs : List Regex) : Regex :=
  if empty ∈ rs then empty else ofFactors (rs.flatMap factors)

/-- Union: inner unions are spliced, the empty language dropped, the rest sorted and listed once
each. -/
def sum (rs : List Regex) : Regex :=
  ofAlternatives (SortedSet.ofList (rs.flatMap alternatives)).toList

/-- Kleene star, which a star absorbs and which makes a unit of the unit and of the empty
language. -/
def iterate : Regex → Regex
  | empty => epsilon
  | epsilon => epsilon
  | star r => star r
  | r => star r

def isEmptyLanguage (r : Regex) : Bool := r == empty

mutual

/-- The number of nodes. -/
def size : Regex → Nat
  | empty => 1
  | epsilon => 1
  | literal _ => 1
  | concat rs => sizeParts rs + 1
  | union rs => sizeParts rs + 1
  | star r => size r + 1

def sizeParts : List Regex → Nat
  | [] => 0
  | r :: rs => size r + sizeParts rs

end

mutual

/-- The names of the literals from left to right. -/
def names : Regex → List String
  | empty => []
  | epsilon => []
  | literal name => [name]
  | concat rs => namesParts rs
  | union rs => namesParts rs
  | star r => names r

def namesParts : List Regex → List String
  | [] => []
  | r :: rs => names r ++ namesParts rs

end

def alphabet (r : Regex) : Alphabet := SortedSet.ofList (r.names.map Symbol.literal)

mutual

/-- The tree built up again by the simplifying constructors. -/
def simplify : Regex → Regex
  | empty => empty
  | epsilon => epsilon
  | literal name => literal name
  | concat rs => product (simplifyParts rs)
  | union rs => sum (simplifyParts rs)
  | star r => iterate (simplify r)

def simplifyParts : List Regex → List Regex
  | [] => []
  | r :: rs => simplify r :: simplifyParts rs

end

/-! ### A family of words that grows with its index

Every star repeats its body that many times, and every union takes its first part that can
contribute a symbol. -/

mutual

/-- Some literal occurs in the tree. -/
def hasLiteral : Regex → Bool
  | empty => false
  | epsilon => false
  | literal _ => true
  | concat rs => hasLiteralParts rs
  | union rs => hasLiteralParts rs
  | star r => hasLiteral r

def hasLiteralParts : List Regex → Bool
  | [] => false
  | r :: rs => hasLiteral r || hasLiteralParts rs

end

mutual

def nthWord (n : Nat) : Regex → Word
  | empty => []
  | epsilon => []
  | literal name => [.literal name]
  | concat rs => nthWordAll n rs
  | union rs => nthWordFirst n rs
  | star r => (List.replicate n (nthWord n r)).flatten

/-- The words of all parts in a row. -/
def nthWordAll (n : Nat) : List Regex → Word
  | [] => []
  | r :: rs => nthWord n r ++ nthWordAll n rs

/-- The word of the first part with a literal; where no part has one, every word is empty. -/
def nthWordFirst (n : Nat) : List Regex → Word
  | [] => []
  | r :: rs => if hasLiteral r then nthWord n r else nthWordFirst n rs

end

end Acceptors.Regex
