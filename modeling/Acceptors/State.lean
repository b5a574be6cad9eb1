import Acceptors.Sorted.Map
import Acceptors.Symbol

/-!
States and their transition tables. An edge carries what its automaton needs beside the symbol: a
target state at least. A symbol may stand in a table with an empty set of edges. Main statements:
`mem_edges`, `mem_next_ofEdges`.
-/

namespace Acceptors

open Std

/-- What every kind of edge has: a target, and a label when it is drawn with its symbol. -/
class Edge (ε : Type) where
  target : ε → Nat
  label : Symbol → ε → String

/-- The edge of a plain automaton is its target. -/
instance : Edge Nat := ⟨id, fun s _ => s.text⟩

abbrev Table (ε : Type) [Ord ε] := SortedMap Symbol (SortedSet ε)

namespace Table

variable {ε : Type} [Ord ε]

def next (t : Table ε) (s : Symbol) : List ε :=
  match t.get? s with
  | some targets => targets.toList
  | none => []

/-- All edges by symbol, then by edge. -/
def edges (t : Table ε) : List (Symbol × ε) :=
  t.entries.flatMap fun entry => entry.2.toList.map fun e => (entry.1, e)

def connect [TransOrd ε] [LawfulEqOrd ε] (t : Table ε) (edge : Symbol × ε) : Table ε :=
  t.update edge.1 fun old => (old.getD ∅).insert edge.2

def ofEdges [TransOrd ε] [LawfulEqOrd ε] (es : List (Symbol × ε)) : Table ε := es.foldl connect ∅

/-- The table with a row of edges for each symbol; rows of one symbol are put together. -/
def ofRows [TransOrd ε] [LawfulEqOrd ε] (rows : List (Symbol × List ε)) : Table ε :=
  rows.foldl (fun t row => t.update row.1 fun old => row.2.foldl SortedSet.insert (old.getD ∅)) ∅

theorem mem_edges [TransOrd ε] {t : Table ε} {s : Symbol} {e : ε} :
    (s, e) ∈ t.edges ↔ e ∈ t.next s := by
  simp only [edges, next, List.mem_flatMap, List.mem_map, Prod.mk.injEq, Prod.exists]
  constructor
  · rintro ⟨s, targets, h, e, he, rfl, rfl⟩
    rw [SortedMap.mem_entries_iff.1 h]
    exact he
  · intro h
    split at h
    · rename_i targets ht
      exact ⟨s, targets, SortedMap.mem_entries_iff.2 ht, e, h, rfl, rfl⟩
    · cases h

variable [TransOrd ε] [LawfulEqOrd ε]

theorem mem_next_connect {t : Table ε} {s : Symbol} {e : ε} {edge : Symbol × ε} :
    e ∈ (t.connect edge).next s ↔ (s, e) = edge ∨ e ∈ t.next s := by
  obtain ⟨r, f⟩ := edge
  simp only [next, connect, SortedMap.get?_update, Prod.mk.injEq]
  by_cases hs : s = r
  · subst hs
    cases t.get? s <;>
      simp [SortedSet.mem_toList, SortedSet.not_mem_empty]
  · simp [hs]

theorem mem_next_foldl_connect {t : Table ε} {s : Symbol} {e : ε} {es : List (Symbol × ε)} :
    e ∈ (es.foldl connect t).next s ↔ (s, e) ∈ es ∨ e ∈ t.next s := by
  induction es generalizing t with
  | nil => simp
  | cons edge rest ih =>
    rw [List.foldl_cons, ih, mem_next_connect, List.mem_cons]
    constructor
    · rintro (h | h | h) <;> simp [h]
    · rintro ((h | h) | h) <;> simp [h]

theorem mem_next_ofEdges {s : Symbol} {e : ε} {es : List (Symbol × ε)} :
    e ∈ (ofEdges es).next s ↔ (s, e) ∈ es := by
  rw [ofEdges, mem_next_foldl_connect]
  simp [next]

end Table

/-- A state carries an index, which in an automaton is its position. -/
structure State (ε : Type) [Ord ε] where
  index : Nat
  name : String
  terminal : Bool
  table : Table ε
  deriving DecidableEq

namespace State

variable {ε : Type} [Ord ε]

def next (q : State ε) (s : Symbol) : List ε := q.table.next s

def edges (q : State ε) : List (Symbol × ε) := q.table.edges

/-- The name, or the index when the state has none. -/
def label (q : State ε) : String := if q.name = "" then Decimal.text q.index else q.name

/-- Terminal states stand in block 0 and the others in block 1. -/
def acceptanceBlocks (states : List (State ε)) : Array Nat :=
  (states.map fun q => if q.terminal then 0 else 1).toArray

end State

end Acceptors
