import Acceptors.Regex.Basic

/-!
The text of an expression, with the fewest parentheses that precedence allows. A literal of one
character stands for itself, after a backslash where the character has a meaning of its own; any
other name stands in angle brackets.
-/

namespace Acceptors

/-- First and last code points of the ranges of the Unicode property White_Space. -/
def blankRanges : List (Nat × Nat) :=
  [(0x9, 0xD), (0x20, 0x20), (0x85, 0x85), (0xA0, 0xA0), (0x1680, 0x1680), (0x2000, 0x200A),
    (0x2028, 0x2029), (0x202F, 0x202F), (0x205F, 0x205F), (0x3000, 0x3000)]

def isBlank (c : Char) : Bool :=
  blankRanges.any fun (first, last) => first ≤ c.toNat && c.toNat ≤ last

namespace Regex

/-- Characters that do not stand for themselves. -/
def isSpecial (c : Char) : Bool :=
  c ∈ ['|', '*', '(', ')', '\\', '<', '>', '∅', 'ε', 'ϵ'] || isBlank c

def escapeName : List Char → List Char
  | [] => []
  | c :: rest => if c = '>' ∨ c = '\\' then '\\' :: c :: escapeName rest else c :: escapeName rest

def renderName : List Char → List Char
  | [c] => if isSpecial c then ['\\', c] else [c]
  | name => '<' :: escapeName name ++ ['>']

/-- A union with parts needs parentheses in a concatenation. -/
def groupedInConcat : Regex → Bool
  | union (_ :: _) => true
  | _ => false

/-- A concatenation or union with parts, and a star, need parentheses under a star. -/
def groupedInStar : Regex → Bool
  | concat (_ :: _) => true
  | union (_ :: _) => true
  | star _ => true
  | _ => false

def group (grouped : Bool) (text : List Char) : List Char :=
  if grouped then '(' :: text ++ [')'] else text

mutual

def render : Regex → List Char
  | empty => ['∅']
  | epsilon => ['ε']
  | literal name => renderName name.toList
  | concat [] => ['ε']
  | concat (r :: rs) => group (groupedInConcat r) (render r) ++ renderFactors rs
  | union [] => ['∅']
  | union (r :: rs) => render r ++ renderAlternatives rs
  | star r => group (groupedInStar r) (render r) ++ ['*']

def renderFactors : List Regex → List Char
  | [] => []
  | r :: rs => group (groupedInConcat r) (render r) ++ renderFactors rs

def renderAlternatives : List Regex → List Char
  | [] => []
  | r :: rs => '|' :: render r ++ renderAlternatives rs

end

def text (r : Regex) : String := String.ofList r.render

end Regex

end Acceptors
