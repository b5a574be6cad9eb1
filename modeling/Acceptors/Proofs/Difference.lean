import Acceptors.Proofs.Canonical
import Acceptors.Proofs.Complement
import Acceptors.Proofs.Equivalence
import Acceptors.Proofs.Product

/-!
Differences of automata. The complement of a deterministic automaton made by subsets has the words
over the alphabet that the automaton does not accept (`mem_wordsFrom_complement_determinize`), so
the product with it is empty if and only if no word is missing (`isEmpty_difference_iff`). Main
statement: `equivalent_iff_isEmpty`.
-/

namespace Acceptors.Automaton

variable {A B : FiniteAutomaton}

theorem not_stalls_determinize (p : Nat) (w : Word) : ¬ A.determinize.Stalls p w := by
  refine not_stalls (not_hollow_of_ofEdges ?_) p w
  rw [determinize_eq_numbered]
  exact Graph.table_numbered _ _ _

theorem mem_wordsFrom_complement_determinize (hA : A.Labelled) (he : Symbol.epsilon ∉ A.alphabet)
    {w : Word} :
    w ∈ A.determinize.complement.wordsFrom A.determinize.complement.initial ↔
      w.Over A.alphabet ∧ w ∉ A.wordsFrom A.initial := by
  have hlabelled := hA.determinize
  have hlt := hlabelled.wellFormed.initial_lt.trans_le size_le_complete
  have halphabet : A.determinize.alphabet = A.alphabet := rfl
  rw [initial_complement,
    mem_wordsFrom_complement hlabelled (deterministic_determinize hA.wellFormed)
    (halphabet ▸ he) hlt, wordsFrom_determinize hA, halphabet]
  simp [not_stalls_determinize]

/-- The difference is empty if and only if the one automaton has all words of the other. -/
theorem isEmpty_difference_iff (hA : A.Labelled) (hB : B.Labelled)
    (he : Symbol.epsilon ∉ B.alphabet) (h : A.alphabet = B.alphabet) :
    (A.intersection B.determinize.complement).isEmpty = true ↔
      A.wordsFrom A.initial ≤ B.wordsFrom B.initial := by
  have hcomplement := hB.determinize.complement
  rw [isEmpty_iff (hA.intersection hcomplement).wellFormed]
  simp only [mem_wordsFrom_intersection hA.wellFormed hcomplement.wellFormed,
    mem_wordsFrom_complement_determinize hB he]
  constructor
  · intro hempty w hw
    by_contra hnot
    exact hempty w ⟨hw, h ▸ hA.over_of_mem_wordsFrom hw, hnot⟩
  · rintro hle w ⟨hw, _, hnot⟩
    exact hnot (hle hw)

/-- Automata over one alphabet are equivalent if and only if neither has a word that the other
lacks. The automata made by subsets are deterministic, so that they have complements. -/
theorem equivalent_iff_isEmpty (hA : A.Assembled) (hB : B.Assembled) (h : A.alphabet = B.alphabet) :
    A.determinize.isDeterministic = true ∧ B.determinize.isDeterministic = true ∧
      (A.equivalent B = true ↔
        (A.intersection B.determinize.complement).isEmpty = true ∧
          (B.intersection A.determinize.complement).isEmpty = true) := by
  refine ⟨isDeterministic_determinize hA.wellFormed, isDeterministic_determinize hB.wellFormed, ?_⟩
  rw [equivalent_iff_wordsFrom_eq hA.labelled hB.labelled,
    isEmpty_difference_iff hA.labelled hB.labelled hB.epsilon_not_mem_alphabet h,
    isEmpty_difference_iff hB.labelled hA.labelled hA.epsilon_not_mem_alphabet h.symm]
  exact le_antisymm_iff

theorem equivalent_iff_isEmpty_branching_single :
    branching.automaton.Assembled ∧ single.automaton.Assembled ∧
      branching.automaton.alphabet = single.automaton.alphabet ∧
      branching.automaton.equivalent single.automaton = true ∧
      (branching.automaton.intersection single.automaton.determinize.complement).isEmpty = true ∧
      (single.automaton.intersection branching.automaton.determinize.complement).isEmpty =
        true := by
  have hA : branching.automaton.Assembled := ⟨branching, rfl⟩
  have hB : single.automaton.Assembled := ⟨single, rfl⟩
  have halphabet : branching.automaton.alphabet = single.automaton.alphabet := by decide
  have h : branching.automaton.equivalent single.automaton = true := by decide +kernel
  exact ⟨hA, hB, halphabet, h, (equivalent_iff_isEmpty hA hB halphabet).2.2.mp h⟩

end Acceptors.Automaton
