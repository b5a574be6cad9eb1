import Acceptors.Automaton.Basic

/-!
Memory automata: an edge may open and close numbered memory cells, and a symbol may refer back to
what a cell holds. They are built and drawn, not run.
-/

namespace Acceptors

open Std

structure MemoryMove where
  target : Nat
  opened : SortedSet Nat
  closed : SortedSet Nat
  deriving DecidableEq

namespace MemoryMove

def key (m : MemoryMove) : Nat × SortedSet Nat × SortedSet Nat := (m.target, m.opened, m.closed)

theorem key_injective {m n : MemoryMove} (h : m.key = n.key) : m = n := by
  cases m
  cases n
  simp_all [key]

/-- Moves compare by target, then by the cells opened, then by the cells closed. -/
instance : Ord MemoryMove := ⟨@compareOn _ _ (@lexOrd _ _ _ lexOrd) key⟩

instance : TransOrd MemoryMove :=
  inferInstanceAs (TransCmp (@compareOn _ _ (@lexOrd _ _ _ lexOrd) key))

instance : LawfulEqOrd MemoryMove where
  compare_self {m} := @ReflCmp.compare_self _ (@lexOrd _ _ _ lexOrd).compare _ m.key
  eq_of_compare h :=
    key_injective (@LawfulEqCmp.eq_of_compare _ (@lexOrd _ _ _ lexOrd).compare _ _ _ h)

def cellList (cells : SortedSet Nat) : String :=
  String.intercalate " " (cells.toList.map Decimal.text)

/-- The symbol, then the cells opened and the cells closed where there are any. -/
def label (s : Symbol) (m : MemoryMove) : String :=
  s.text ++ (if m.opened.isEmpty then "" else ", o: " ++ cellList m.opened) ++
    (if m.closed.isEmpty then "" else ", c: " ++ cellList m.closed)

instance : Edge MemoryMove := ⟨target, label⟩

end MemoryMove

abbrev MemoryAutomaton := Automaton MemoryMove

namespace MemoryAutomaton

/-- Every cell opened, closed or referred to. -/
def cells (M : MemoryAutomaton) : SortedSet Nat :=
  SortedSet.ofList <| M.allEdges.flatMap fun (_, s, m) =>
    (match s with
      | .ref cell => [cell]
      | _ => []) ++ m.opened.toList ++ m.closed.toList

end MemoryAutomaton

end Acceptors
