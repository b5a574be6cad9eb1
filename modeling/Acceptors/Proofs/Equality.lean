import Acceptors.Proofs.Canonical
import Acceptors.Proofs.Isomorphism

/-!
Equality of automata. Deterministic automata are compared by their words
(`equal_iff_of_deterministic`) and others by isomorphism (`equal_iff_of_not_deterministic`), which
is finer. Main statement: `equal_refl_comm_trans`, equality is reflexive and symmetric, and
transitive but where a deterministic automaton between a deterministic one and one that is not makes
the two ways of comparison meet.
-/

namespace Acceptors.Automaton

variable {A B C : FiniteAutomaton}

theorem equal_iff_of_deterministic (hA : A.Labelled) (hB : B.Labelled)
    (hdetA : A.isDeterministic = true) (hdetB : B.isDeterministic = true) :
    A.equal B = true ↔ A.alphabet = B.alphabet ∧ A.wordsFrom A.initial = B.wordsFrom B.initial := by
  have hstepA := deterministic_of_isDeterministic hdetA
  have hstepB := deterministic_of_isDeterministic hdetB
  rw [equal, hdetA, hdetB, Bool.and_self, if_pos rfl, Bool.and_eq_true, beq_iff_eq, beq_iff_eq]
  refine and_congr_right fun _ => ⟨fun h => ?_, ?_⟩
  · have hwords := wordsFrom_eq_of_shape_eq h
    rwa [wordsFrom_minimize hA hstepA, wordsFrom_minimize hB hstepB] at hwords
  · exact shape_minimize_eq_of_wordsFrom_eq hA hB hstepA hstepB

theorem equal_iff_of_not_deterministic (hA : A.WellFormed) (hB : B.WellFormed)
    (hdet : ¬ (A.isDeterministic = true ∧ B.isDeterministic = true)) :
    A.equal B = true ↔ A.alphabet = B.alphabet ∧ A.Isomorphic B := by
  rw [← Bool.and_eq_true] at hdet
  rw [equal, if_neg hdet, Bool.and_eq_true, beq_iff_eq, isomorphic_iff hA hB]

/-- Isomorphic automata over one alphabet are equal in either way. -/
theorem equal_of_isomorphic (hA : A.Labelled) (hB : B.Labelled)
    (halphabet : A.alphabet = B.alphabet) (h : A.Isomorphic B) : A.equal B = true := by
  by_cases hdet : A.isDeterministic = true ∧ B.isDeterministic = true
  · exact (equal_iff_of_deterministic hA hB hdet.1 hdet.2).mpr ⟨halphabet, h.wordsFrom_eq⟩
  · exact (equal_iff_of_not_deterministic hA.wellFormed hB.wellFormed hdet).mpr ⟨halphabet, h⟩

/-- Equal automata have the same alphabet and the same words. -/
theorem wordsFrom_eq_of_equal (hA : A.Labelled) (hB : B.Labelled) (h : A.equal B = true) :
    A.alphabet = B.alphabet ∧ A.wordsFrom A.initial = B.wordsFrom B.initial := by
  by_cases hdet : A.isDeterministic = true ∧ B.isDeterministic = true
  · exact (equal_iff_of_deterministic hA hB hdet.1 hdet.2).mp h
  · exact ((equal_iff_of_not_deterministic hA.wellFormed hB.wellFormed hdet).mp h).imp_right
      Isomorphic.wordsFrom_eq

/-- Equal automata accept the same words, those with epsilon in them included. -/
theorem accepts_eq_of_equal (hA : A.Labelled) (hB : B.Labelled) (h : A.equal B = true) (w : Word) :
    A.accepts w = B.accepts w := by
  by_cases hdet : A.isDeterministic = true ∧ B.isDeterministic = true
  · have heA := (deterministic_of_isDeterministic hdet.1).noEpsilon
    have heB := (deterministic_of_isDeterministic hdet.2).noEpsilon
    rw [Bool.eq_iff_iff, accepts_iff_of_not_step_epsilon hA.wellFormed heA,
      accepts_iff_of_not_step_epsilon hB.wellFormed heB, (wordsFrom_eq_of_equal hA hB h).2]
  · obtain ⟨R, hR⟩ := ((equal_iff_of_not_deterministic hA.wellFormed hB.wellFormed hdet).mp h).2
    have hbisimilar : A.Bisimilar B := ⟨R, hR.toBisimulation, hR.initial⟩
    exact hbisimilar.accepts_eq hA.wellFormed hB.wellFormed w

theorem equal_self (hA : A.Labelled) : A.equal A = true := equal_of_isomorphic hA hA rfl (.refl A)

theorem equal_symm (hA : A.Labelled) (hB : B.Labelled) (h : A.equal B = true) :
    B.equal A = true := by
  by_cases hdet : A.isDeterministic = true ∧ B.isDeterministic = true
  · obtain ⟨halphabet, hwords⟩ := (equal_iff_of_deterministic hA hB hdet.1 hdet.2).mp h
    exact (equal_iff_of_deterministic hB hA hdet.2 hdet.1).mpr ⟨halphabet.symm, hwords.symm⟩
  · obtain ⟨halphabet, hiso⟩ :=
      (equal_iff_of_not_deterministic hA.wellFormed hB.wellFormed hdet).mp h
    exact equal_of_isomorphic hB hA halphabet.symm hiso.symm

/-- In between a nondeterministic automaton, or two automata of one kind, equality is passed on. -/
theorem equal_trans (hA : A.Labelled) (hB : B.Labelled) (hC : C.Labelled)
    (hkind : B.isDeterministic = true → A.isDeterministic = C.isDeterministic)
    (hAB : A.equal B = true) (hBC : B.equal C = true) : A.equal C = true := by
  obtain ⟨halphabet, hwords⟩ := wordsFrom_eq_of_equal hA hB hAB
  obtain ⟨halphabet', hwords'⟩ := wordsFrom_eq_of_equal hB hC hBC
  by_cases hdet : A.isDeterministic = true ∧ C.isDeterministic = true
  · exact (equal_iff_of_deterministic hA hC hdet.1 hdet.2).mpr
      ⟨halphabet.trans halphabet', hwords.trans hwords'⟩
  · -- Neither pair is of two deterministic automata, so both are isomorphic.
    have hdetAB : ¬ (A.isDeterministic = true ∧ B.isDeterministic = true) := fun ⟨ha, hb⟩ =>
      hdet ⟨ha, (hkind hb).symm.trans ha⟩
    have hdetBC : ¬ (B.isDeterministic = true ∧ C.isDeterministic = true) := fun ⟨hb, hc⟩ =>
      hdet ⟨(hkind hb).trans hc, hc⟩
    have hiso := ((equal_iff_of_not_deterministic hA.wellFormed hB.wellFormed hdetAB).mp hAB).2
    have hiso' := ((equal_iff_of_not_deterministic hB.wellFormed hC.wellFormed hdetBC).mp hBC).2
    exact equal_of_isomorphic hA hC (halphabet.trans halphabet') (hiso.trans hiso')

/-- Beside a nondeterministic automaton that is isomorphic to a deterministic one, equality is
isomorphism to that one. -/
theorem equal_iff_isomorphic (hA : A.Labelled) (hB : B.Labelled) (hC : C.Labelled)
    (hdetC : C.isDeterministic = false) (hAB : A.equal B = true) (hBC : B.equal C = true) :
    A.equal C = true ↔ A.Isomorphic B := by
  have hdet (D : FiniteAutomaton) : ¬ (D.isDeterministic = true ∧ C.isDeterministic = true) := by
    simp [hdetC]
  have halphabet := (wordsFrom_eq_of_equal hA hB hAB).1
  obtain ⟨halphabet', hiso⟩ :=
    (equal_iff_of_not_deterministic hB.wellFormed hC.wellFormed (hdet B)).mp hBC
  rw [equal_iff_of_not_deterministic hA.wellFormed hC.wellFormed (hdet A),
    and_iff_right (halphabet.trans halphabet')]
  exact ⟨fun h => h.trans hiso.symm, fun h => h.trans hiso⟩

/-- Equality is reflexive and symmetric. It is transitive but where the automaton between two others
is deterministic and exactly one of the others is: there the others have the same alphabet and
accept the same words, and they are equal if and only if the two deterministic automata are
isomorphic. -/
theorem equal_refl_comm_trans (hA : A.Assembled) (hB : B.Assembled) (hC : C.Assembled) :
    A.equal A = true ∧ A.equal B = B.equal A ∧
      (A.equal B = true → B.equal C = true →
        A.alphabet = C.alphabet ∧ (∀ w : Word, A.accepts w = C.accepts w) ∧
          ((B.isDeterministic = true → A.isDeterministic = C.isDeterministic) →
            A.equal C = true) ∧
          (C.isDeterministic = false → (A.equal C = true ↔ A.Isomorphic B)) ∧
          (A.isDeterministic = false → (A.equal C = true ↔ B.Isomorphic C))) := by
  have hA' := hA.labelled
  have hB' := hB.labelled
  have hC' := hC.labelled
  have hcomm : A.equal B = B.equal A :=
    Bool.eq_iff_iff.mpr ⟨equal_symm hA' hB', equal_symm hB' hA'⟩
  refine ⟨equal_self hA', hcomm, fun hAB hBC => ?_⟩
  have halphabet := (wordsFrom_eq_of_equal hA' hB' hAB).1
  have halphabet' := (wordsFrom_eq_of_equal hB' hC' hBC).1
  refine ⟨halphabet.trans halphabet', fun w => ?_,
    fun hkind => equal_trans hA' hB' hC' hkind hAB hBC,
    fun hdet => equal_iff_isomorphic hA' hB' hC' hdet hAB hBC, fun hdet => ?_⟩
  · exact (accepts_eq_of_equal hA' hB' hAB w).trans (accepts_eq_of_equal hB' hC' hBC w)
  · have hback :=
      equal_iff_isomorphic hC' hB' hA' hdet (equal_symm hB' hC' hBC) (equal_symm hA' hB' hAB)
    have hflip : A.equal C = true ↔ C.equal A = true := ⟨equal_symm hA' hC', equal_symm hC' hA'⟩
    rw [hflip, hback]
    exact ⟨.symm, .symm⟩

/-- A loop on one terminal state, and a state with two ways to go on that no walk leads to. -/
def strayed : Parts Nat :=
  ⟨0, [⟨0, "", true, Table.ofEdges [(.literal "a", 0)]⟩,
    ⟨1, "", false, Table.ofEdges [(.literal "a", 0), (.literal "a", 1)]⟩], ∅⟩

/-- The same loop after a state with a free edge that no walk leads to. -/
def freed : Parts Nat :=
  ⟨1, [⟨0, "", false, Table.ofEdges [(.epsilon, 1)]⟩,
    ⟨1, "", true, Table.ofEdges [(.literal "a", 1)]⟩], ∅⟩

theorem equal_double_single : double.automaton.equal single.automaton = true := by decide +kernel

theorem equal_refl_comm_trans_strayed :
    double.automaton.Assembled ∧ single.automaton.Assembled ∧ strayed.automaton.Assembled ∧
      freed.automaton.Assembled ∧ double.automaton.equal single.automaton = true ∧
      single.automaton.equal strayed.automaton = true ∧
      freed.automaton.equal strayed.automaton = true ∧
      (∀ w : Word, double.automaton.accepts w = strayed.automaton.accepts w) ∧
      ¬ double.automaton.Isomorphic single.automaton := by
  have hdouble : double.automaton.Assembled := ⟨double, rfl⟩
  have hsingle : single.automaton.Assembled := ⟨single, rfl⟩
  have hstrayed : strayed.automaton.Assembled := ⟨strayed, rfl⟩
  have hfreed : freed.automaton.Assembled := ⟨freed, rfl⟩
  have hright : single.automaton.equal strayed.automaton = true := by decide +kernel
  have hfree : freed.automaton.equal single.automaton = true := by decide +kernel
  obtain ⟨_, _, hfreed_trans⟩ := equal_refl_comm_trans hfreed hsingle hstrayed
  have hequal := (hfreed_trans hfree hright).2.2.1 fun _ => by decide +kernel
  obtain ⟨_, _, htrans⟩ := equal_refl_comm_trans hdouble hsingle hstrayed
  obtain ⟨_, haccepts, _, hiso, _⟩ := htrans equal_double_single hright
  refine ⟨hdouble, hsingle, hstrayed, hfreed, equal_double_single, hright, hequal, haccepts,
    fun h => ?_⟩
  have hsame := (hiso (by decide +kernel)).mpr h
  have hdifferent : double.automaton.equal strayed.automaton = false := by decide +kernel
  rw [hdifferent] at hsame
  cases hsame

/-- Equality is not transitive. -/
theorem not_equal_trans_strayed :
    double.automaton.Assembled ∧ single.automaton.Assembled ∧ strayed.automaton.Assembled ∧
      double.automaton.equal single.automaton = true ∧
      single.automaton.equal strayed.automaton = true ∧
      double.automaton.equal strayed.automaton = false := by
  exact ⟨⟨double, rfl⟩, ⟨single, rfl⟩, ⟨strayed, rfl⟩, equal_double_single, by decide +kernel,
    by decide +kernel⟩

end Acceptors.Automaton
