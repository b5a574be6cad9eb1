import Acceptors.Decimal

/-!
The text of a drawn automaton: one line a node, an arrow from nowhere to the initial node, and one
line an arrow. Labels are quoted, a quote or a backslash inside one being written after a backslash.
-/

namespace Acceptors

namespace Digraph

structure Node where
  index : Nat
  label : String
  terminal : Bool
  deriving DecidableEq, Repr

structure Arrow where
  source : Nat
  target : Nat
  label : String
  deriving DecidableEq, Repr

end Digraph

structure Digraph where
  initial : Nat
  nodes : List Digraph.Node
  arrows : List Digraph.Arrow
  deriving DecidableEq, Repr

namespace Digraph

def escape : List Char → List Char
  | [] => []
  | c :: rest => if c = '"' ∨ c = '\\' then '\\' :: c :: escape rest else c :: escape rest

def quoted (label : String) : List Char := '"' :: escape label.toList ++ ['"']

def heading : List Char :=
  "digraph \x7b\n\trankdir = LR\n\tdummy [label = \"\", shape = none]\n".toList

def Node.shape (n : Node) : List Char :=
  if n.terminal then "doublecircle".toList else "circle".toList

def Node.line (n : Node) : List Char :=
  '\t' :: Decimal.digits n.index ++ " [label = ".toList ++ quoted n.label ++
    ", shape = ".toList ++ n.shape ++ "]\n".toList

def initialLine (initial : Nat) : List Char :=
  "\tdummy -> ".toList ++ Decimal.digits initial ++ "\n".toList

def Arrow.line (a : Arrow) : List Char :=
  '\t' :: Decimal.digits a.source ++ " -> ".toList ++ Decimal.digits a.target ++
    " [label = ".toList ++ quoted a.label ++ "]\n".toList

def lines (g : Digraph) : List Char :=
  heading ++ g.nodes.flatMap Node.line ++ initialLine g.initial ++ g.arrows.flatMap Arrow.line ++
    "\x7d\n".toList

def text (g : Digraph) : String := String.ofList g.lines

end Digraph

end Acceptors
