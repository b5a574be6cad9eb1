import Acceptors.Automaton.Basic

/-!
Pushdown automata: an edge may ask for a symbol on top of the stack, which it removes, and may push
one.
-/

namespace Acceptors

open Std

structure StackMove where
  target : Nat
  push : Option Symbol
  pop : Option Symbol
  deriving DecidableEq

namespace StackMove

def key (m : StackMove) : Nat × Option Symbol × Option Symbol := (m.target, m.push, m.pop)

theorem key_injective {m n : StackMove} (h : m.key = n.key) : m = n := by
  cases m
  cases n
  simp_all [key]

/-- Moves compare by target, then by what they push, then by what they pop; nothing comes before
something. -/
instance : Ord StackMove := ⟨@compareOn _ _ (@lexOrd _ _ _ lexOrd) key⟩

instance : TransOrd StackMove :=
  inferInstanceAs (TransCmp (@compareOn _ _ (@lexOrd _ _ _ lexOrd) key))

instance : LawfulEqOrd StackMove where
  compare_self {m} := @ReflCmp.compare_self _ (@lexOrd _ _ _ lexOrd).compare _ m.key
  eq_of_compare h :=
    key_injective (@LawfulEqCmp.eq_of_compare _ (@lexOrd _ _ _ lexOrd).compare _ _ _ h)

def valueText (value : Option Symbol) : String := (value.getD .epsilon).text

/-- The symbol, what is pushed, and what is popped. -/
def label (s : Symbol) (m : StackMove) : String :=
  s.text ++ ", " ++ valueText m.push ++ "/" ++ valueText m.pop

instance : Edge StackMove := ⟨target, label⟩

/-- A move that pops nothing fires on any stack, another only on its symbol. Stacks list their top
first. -/
def fires (m : StackMove) (stack : List Symbol) : Bool :=
  match m.pop with
  | none => true
  | some s => stack.head? == some s

def apply (m : StackMove) (stack : List Symbol) : List Symbol :=
  let rest := match m.pop with
    | none => stack
    | some _ => stack.tail
  match m.push with
  | none => rest
  | some s => s :: rest

end StackMove

abbrev PushdownAutomaton := Automaton StackMove

namespace PushdownAutomaton

/-- Every symbol pushed or asked for on the stack. -/
def stackAlphabet (P : PushdownAutomaton) : SortedSet Symbol :=
  SortedSet.ofList <| P.allEdges.flatMap fun (_, _, m) => m.push.toList ++ m.pop.toList

end PushdownAutomaton

end Acceptors
