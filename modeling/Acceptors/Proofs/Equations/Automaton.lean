import Acceptors.Expression
import Acceptors.Proofs.Assembly
import Acceptors.Proofs.EpsilonFree
import Acceptors.Proofs.Equations.Solution
import Acceptors.Proofs.Regex.Fragment
import Acceptors.Proofs.Tables

/-!
The equations of an automaton. The words that its useful states accept are the least solution: a
solution, since each equation follows the edges of its state, and below every other, by induction on
walks. Main statement: `Expression.accepts_ofAutomaton`, the expression of an automaton accepts the
same words.
-/

namespace Acceptors

namespace EquationSystem

open Automaton

variable {A : FiniteAutomaton}

/-- Edges carry literals only. -/
def LiteralEdges (A : FiniteAutomaton) : Prop :=
  ∀ p s q, A.Step p s q → ∃ name, s = .literal name

theorem mem_literalEdges {q r : Nat} {name : String} :
    (name, r) ∈ literalEdges A q ↔ A.Step q (.literal name) r ∧ r ∈ A.productive := by
  simp only [literalEdges, List.mem_filterMap, Prod.exists]
  constructor
  · rintro ⟨s, r', hs, h⟩
    split at h
    · split at h
      · rename_i hr
        cases h
        exact ⟨mem_edges.mp hs, hr⟩
      · cases h
    · cases h
  · rintro ⟨hs, hr⟩
    exact ⟨_, r, mem_edges.mpr hs, by simp [hr]⟩

/-- The equation of a state adds up its edges, and the empty word where the state is terminal. -/
theorem value_equationOf (q : Nat) (X : Nat → WordSet Symbol) :
    (equationOf A q).value X =
      (if A.isTerminal q then 1 else 0) +
        ((literalEdges A q).map fun edge => (Symbol.literal edge.1).words * X edge.2).sum := by
  have hbase : (⟨∅, if A.isTerminal q then .epsilon else .empty⟩ : Equation).value X =
      if A.isTerminal q then 1 else 0 := by
    cases A.isTerminal q <;> simp [Equation.value, SortedMap.empty, EmptyCollection.emptyCollection]
  rw [equationOf, Equation.value_foldl_addTerm (fun edge : String × Nat => edge.2)
    (fun edge => Regex.literal edge.1), hbase]
  simp only [Regex.language_literal]

theorem value_equationOf_le_iff {q : Nat} {X : Nat → WordSet Symbol} {L : WordSet Symbol} :
    (equationOf A q).value X ≤ L ↔
      (A.isTerminal q = true → 1 ≤ L) ∧
        ∀ name r, A.Step q (.literal name) r → r ∈ A.productive →
          (Symbol.literal name).words * X r ≤ L := by
  rw [value_equationOf, add_le_iff, list_sum_le_iff, List.forall_mem_map]
  refine and_congr ?_ ?_
  · cases A.isTerminal q <;> simp
  · simp only [Prod.forall, mem_literalEdges, and_imp]

theorem initial_ofEpsilonFree (A : FiniteAutomaton) : (ofEpsilonFree A).initial = A.initial := by
  unfold ofEpsilonFree
  split <;> rfl

theorem get?_ofEpsilonFree (h : A.initial ∈ A.productive) (q : Nat) :
    (ofEpsilonFree A).equations.get? q =
      if q ∈ A.useful then some (equationOf A q) else none := by
  rw [ofEpsilonFree, if_pos h]
  exact SortedMap.get?_ofList_map _ _ _

theorem get?_ofEpsilonFree_of_notMem (h : A.initial ∉ A.productive) (q : Nat) :
    (ofEpsilonFree A).equations.get? q = if q = A.initial then some ⟨∅, .empty⟩ else none := by
  rw [ofEpsilonFree, if_neg h]
  exact SortedMap.get?_insert

/-- The words of the states satisfy the equations up to words of states without one. -/
theorem leastSolution_le_wordsFrom (h : A.initial ∈ A.productive) :
    leastSolution (ofEpsilonFree A).equations ≤ A.wordsFrom := by
  refine leastSolution_le fun q => ?_
  rw [evaluate, get?_ofEpsilonFree h]
  by_cases hq : q ∈ A.useful
  · rw [if_pos hq]
    exact value_equationOf_le_iff.mpr ⟨A.labelling_wordsFrom.terminal q,
      fun name r hs _ => A.labelling_wordsFrom.edge q (.literal name) r hs⟩
  · rw [if_neg hq]
    exact zero_le

/-- A walk from a useful state to a terminal one stays on useful states, whose equations admit its
word. -/
theorem wordsFrom_le_leastSolution (hA : A.WellFormed) (hlit : LiteralEdges A)
    (h : A.initial ∈ A.productive) {q : Nat} (hq : q ∈ A.useful) :
    A.wordsFrom q ≤ leastSolution (ofEpsilonFree A).equations q := by
  have hsome : ∀ q ∈ A.useful, (equationOf A q).value (leastSolution (ofEpsilonFree A).equations) ≤
      leastSolution (ofEpsilonFree A).equations q := fun q hq =>
    (leastSolution_some (by rw [get?_ofEpsilonFree h, if_pos hq])).ge
  rintro w ⟨t, ht, hw⟩
  induction hw with
  | nil q => exact (value_equationOf_le_iff.mp (hsome q hq)).1 ht rfl
  | @cons p r t s w hs hw ih =>
    obtain ⟨name, rfl⟩ := hlit p s r hs
    obtain ⟨⟨u, hu⟩, _⟩ := (mem_useful hA).mp hq
    have hr : r ∈ A.useful := (mem_useful hA).mpr ⟨⟨_, hu.append (.edge hs)⟩, w, t, ht, hw⟩
    have hprod : r ∈ A.productive := mem_productive.mpr ⟨w, t, ht, hw⟩
    have hle := (value_equationOf_le_iff.mp (hsome p hq)).2 name r hs hprod
    exact Symbol.words_mul_le.mp hle w (ih hr ht)

/-- The solution of the equations denotes the words of the automaton. -/
theorem language_solve_ofEpsilonFree (hA : A.WellFormed) (hlit : LiteralEdges A) :
    (ofEpsilonFree A).solve.language = A.wordsFrom A.initial := by
  rw [language_solve, initial_ofEpsilonFree]
  by_cases h : A.initial ∈ A.productive
  · exact le_antisymm (leastSolution_le_wordsFrom h A.initial)
      (wordsFrom_le_leastSolution hA hlit h (initial_mem_useful hA h))
  · have hget : (ofEpsilonFree A).equations.get? A.initial = some ⟨∅, .empty⟩ := by
      rw [get?_ofEpsilonFree_of_notMem h, if_pos rfl]
    have hwords : A.wordsFrom A.initial = 0 :=
      Set.eq_empty_of_forall_notMem fun w hw => h (mem_productive.mpr ⟨w, hw⟩)
    rw [leastSolution_some hget, hwords]
    simp [Equation.value, SortedMap.empty, EmptyCollection.emptyCollection]

theorem literalEdges_epsilonFree (hA : A.Assembled) : LiteralEdges A.epsilonFree := by
  intro p s q h
  obtain ⟨hne, p', hs⟩ := step_of_step_epsilonFree h
  rcases hA.label hs with rfl | ⟨name, _, rfl⟩
  · exact absurd rfl hne
  · exact ⟨name, rfl⟩

theorem hasNameless_of_assembled (hA : A.Assembled) : hasNameless A = false := by
  have hnamed : ∀ q name r, (name, r) ∈ literalEdges A.epsilonFree q → name ≠ "" := by
    intro q name r h
    obtain ⟨hne, p', hs⟩ := step_of_step_epsilonFree (mem_literalEdges.mp h).1
    rcases hA.label hs with h | ⟨n, hn, h⟩
    · exact absurd h hne
    · cases h
      exact hn
  simp only [hasNameless, Bool.and_eq_false_iff, List.any_eq_false, Bool.not_eq_true,
    beq_eq_false_iff_ne]
  exact .inr fun q _ edge hedge => hnamed q edge.1 edge.2 hedge

end EquationSystem

namespace Expression

open EquationSystem

variable {A : FiniteAutomaton}

theorem language_ofAutomaton (hA : A.WellFormed) (hlit : LiteralEdges A.epsilonFree) :
    (ofAutomaton A).regex.language = A.wordsFrom A.initial := by
  rw [ofAutomaton, EquationSystem.ofAutomaton, language_solve_ofEpsilonFree hA.epsilonFree hlit,
    Automaton.initial_epsilonFree, Automaton.wordsFrom_epsilonFree hA]

/-- Every edge of an assembled automaton has a name to read, and its expression accepts the same
words. -/
theorem accepts_ofAutomaton (hA : A.Assembled) :
    hasNameless A = false ∧
      ∀ w : Word, w.Plain → (ofAutomaton A).accepts w = A.accepts w := by
  refine ⟨hasNameless_of_assembled hA, fun w hw => Bool.eq_iff_iff.mpr ?_⟩
  calc (ofAutomaton A).accepts w = true
      ↔ w ∈ (ofAutomaton A).regex.language := Regex.accepts_toAutomaton_iff _ _ hw
    _ ↔ w ∈ A.wordsFrom A.initial := by
      rw [language_ofAutomaton hA.wellFormed (literalEdges_epsilonFree hA)]
    _ ↔ A.accepts w = true := (Automaton.accepts_iff hA.wellFormed hw).symm

/-- A loop before an epsilon edge, an edge back, and a state that leads nowhere. -/
def looping : Parts Nat :=
  ⟨0, [⟨0, "", false, Table.ofEdges [(.literal "a", 0), (.epsilon, 1)]⟩,
    ⟨1, "", true, Table.ofEdges [(.literal "b", 0), (.literal "b", 2)]⟩, ⟨2, "", false, ∅⟩], ∅⟩

theorem accepts_ofAutomaton_looping :
    looping.automaton.Assembled ∧ hasNameless looping.automaton = false ∧
      (ofAutomaton looping.automaton).accepts [.literal "a", .literal "b"] = true := by
  have hA : looping.automaton.Assembled := ⟨looping, rfl⟩
  have hwords := accepts_ofAutomaton hA
  refine ⟨hA, hwords.1, ?_⟩
  rw [hwords.2 _ (by decide)]
  decide

end Expression

end Acceptors
