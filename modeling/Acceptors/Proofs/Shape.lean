import Acceptors.Monoid
import Acceptors.Proofs.Canonical
import Acceptors.Proofs.Complement

/-!
What does not look at the names of states: it is the same for automata of one shape over one
alphabet. Main statement: `TransformationMonoid.ofAutomaton_eq_of_shape_eq`.
-/

namespace Acceptors

namespace Automaton

variable {A B : FiniteAutomaton}

theorem size_eq_length_shape (A : FiniteAutomaton) : A.size = A.shape.2.length := by
  simp [size, shape]

theorem size_eq_of_shape_eq (h : A.shape = B.shape) : A.size = B.size := by
  rw [size_eq_length_shape, h, ← size_eq_length_shape]

theorem edges_eq_of_shape_eq (h : A.shape = B.shape) : A.edges = B.edges := by
  funext p
  have hp := getElem?_eq_of_shape_eq h p
  unfold edges
  cases hA : A.states[p]? <;> cases hB : B.states[p]? <;> simp_all [State.edges]

theorem terminals_eq_of_shape_eq (h : A.shape = B.shape) : A.terminals = B.terminals := by
  rw [terminals, terminals, size_eq_of_shape_eq h, isTerminal_eq_of_shape_eq h]

theorem isDeterministic_eq_of_shape_eq (h : A.shape = B.shape) :
    A.isDeterministic = B.isDeterministic := by
  have hshape (A : FiniteAutomaton) : A.isDeterministic =
      (!(A.shape.2.any fun q => q.2.contains .epsilon) &&
        A.shape.2.all fun q => q.2.values.all fun targets => decide (targets.size ≤ 1)) := by
    simp only [isDeterministic, hasEpsilon, shape, List.any_map, List.all_map]
    rfl
  rw [hshape, h, ← hshape]

theorem isComplete_eq_of_shape_eq (h : A.shape = B.shape) (halphabet : A.alphabet = B.alphabet) :
    A.isComplete = B.isComplete := by
  have hshape (A : FiniteAutomaton) :
      A.isComplete = A.shape.2.all fun q => A.alphabet.toList.all q.2.contains := by
    simp only [isComplete, shape, List.all_map]
    rfl
  rw [hshape, h, halphabet, ← hshape]

theorem shape_complete_eq_of_shape_eq (h : A.shape = B.shape)
    (halphabet : A.alphabet = B.alphabet) :
    A.complete.shape = B.complete.shape := by
  have hshape (A : FiniteAutomaton) (hA : A.isComplete = false) : A.complete.shape =
      (A.shape.1, (A.shape.2 ++ [(false, ∅)]).map fun q : Bool × Table Nat =>
        (q.1, fillTable A.alphabet A.size q.2)) := by
    simp [shape, complete, hA, sink]
  have hcomplete := isComplete_eq_of_shape_eq h halphabet
  cases hA : A.isComplete with
  | true =>
    have hB := hcomplete.symm.trans hA
    rw [complete, complete, if_pos hA, if_pos hB, h]
  | false =>
    have hB := hcomplete.symm.trans hA
    rw [hshape A hA, hshape B hB, h, halphabet, size_eq_of_shape_eq h]

end Automaton

namespace TransformationMonoid

variable {A B : FiniteAutomaton}

theorem row_eq_of_shape_eq (h : A.shape = B.shape) (halphabet : A.alphabet = B.alphabet) :
    row A = row B := by
  funext q
  simp only [row, Automaton.successor, Automaton.next_eq_of_shape_eq h, halphabet]

theorem deltaOf_eq_of_shape_eq (h : A.shape = B.shape) (halphabet : A.alphabet = B.alphabet) :
    deltaOf A = deltaOf B := by
  have hcomplete := Automaton.shape_complete_eq_of_shape_eq h halphabet
  have hterminals := Automaton.terminals_eq_of_shape_eq h
  have hrow : row A.complete = row B.complete :=
    row_eq_of_shape_eq hcomplete (by simpa using halphabet)
  rw [deltaOf, deltaOf, hterminals, halphabet, Automaton.size_eq_of_shape_eq hcomplete, hrow]

/-- The transformations depend on the shape and the alphabet alone. -/
theorem ofAutomaton_eq_of_shape_eq (h : A.shape = B.shape) (halphabet : A.alphabet = B.alphabet) :
    ofAutomaton A = ofAutomaton B := by
  unfold ofAutomaton
  rw [deltaOf_eq_of_shape_eq h halphabet, halphabet]

end TransformationMonoid

end Acceptors
