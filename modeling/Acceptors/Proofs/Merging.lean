import Acceptors.Proofs.Canonical

/-!
Merging the bisimilar states of a deterministic automaton. Where every state lies on a walk from the
initial to a terminal state, sameness of words is a bisimulation (`Trimmed.bisimulation_sameWords`),
so that the coarsest bisimulation has one block for each set of words. Main statement:
`shape_canonical_mergeBisimilar`.
-/

namespace Acceptors.Automaton

variable {A B : FiniteAutomaton}

/-- Without hollow entries, entries tell no more than edges. -/
theorem Bisimulation.hasEntry_iff {R : Nat → Nat → Prop} (h : Bisimulation A B R)
    (hA : ∀ p s, ¬ A.Hollow p s) (hB : ∀ q s, ¬ B.Hollow q s) {p q : Nat} (hpq : R p q)
    (s : Symbol) :
    A.HasEntry p s ↔ B.HasEntry q s := by
  constructor
  · intro hentry
    obtain ⟨q', hs⟩ := h.exists_step_of_hasEntry hpq (hA p s) hentry
    exact hasEntry_of_step hs
  · intro hentry
    obtain ⟨p', hs⟩ := h.symm.exists_step_of_hasEntry hpq (hB q s) hentry
    exact hasEntry_of_step hs

/-- The quotient of a trimmed automaton by its coarsest bisimulation is reduced. -/
theorem Trimmed.reduced_mergeBisimilar (hA : A.Trimmed) (hfull : ∀ p s, ¬ A.Hollow p s) :
    A.mergeBisimilar.Reduced := by
  have hsame := hA.bisimulation_sameWords hA
  refine hA.reduced_of_covering (covering_mergeBisimilar hA.wellFormed) (fun _ hq => hq)
    hA.wellFormed.initial_lt rfl (fun _ => lt_size_mergeBisimilar_iff) (fun _ hs => hs) ?_
  intro p q hp hq h
  exact bisimulationClass_eq_of_bisimulation hsame (fun _ _ h => ⟨h.1, h.2.1⟩)
    (fun _ _ => hsame.hasEntry_iff hfull hfull) ⟨hp, hq, h⟩

/-- On a deterministic automaton with useful states only and without hollow entries, merging
bisimilar states and minimizing come to the same. -/
theorem shape_canonical_mergeBisimilar (hA : A.Assembled) (hdet : A.isDeterministic = true)
    (hfull : ∀ p s, ¬ A.Hollow p s) (hreachable : ∀ q < A.size, ∃ u, Walk A.Step A.initial u q)
    (hproductive : ∀ q < A.size, ∃ w, w ∈ A.wordsFrom q) :
    A.mergeBisimilar.canonical.shape = A.minimize.shape := by
  have hstep := deterministic_of_isDeterministic hdet
  have halphabet : ∀ p s q, A.Step p s q → s ∈ A.alphabet := fun p s q hs =>
    hA.mem_alphabet hs fun he => hstep.noEpsilon p q (he ▸ hs)
  have htrimmed : A.Trimmed := ⟨hA.wellFormed, hstep, halphabet, hreachable, hproductive⟩
  have hinitial : A.initial ∈ A.productive :=
    mem_productive.mpr (hproductive A.initial hA.wellFormed.initial_lt)
  have hwords : A.mergeBisimilar.wordsFrom A.mergeBisimilar.initial =
      A.trim.classes.wordsFrom A.trim.classes.initial :=
    (wordsFrom_mergeBisimilar hA.wellFormed hA.wellFormed.initial_lt).trans
      (wordsFrom_trim_classes hA.labelled hstep hinitial).symm
  rw [minimize_of_productive hinitial]
  exact (htrimmed.reduced_mergeBisimilar hfull).shape_canonical_eq
    (reduced_trim_classes hA.labelled hstep hinitial) hwords

/-- Two states with the same words, after one with two edges. -/
def twinned : Parts Nat :=
  ⟨0, [⟨0, "", false, Table.ofEdges [(.literal "a", 1), (.literal "b", 2)]⟩,
    ⟨1, "", true, Table.ofEdges [(.literal "a", 2)]⟩,
    ⟨2, "", true, Table.ofEdges [(.literal "a", 1)]⟩], ∅⟩

theorem shape_canonical_mergeBisimilar_twinned :
    twinned.automaton.Assembled ∧ twinned.automaton.isDeterministic = true ∧
      (∀ p s, ¬ twinned.automaton.Hollow p s) ∧
      (∀ q < twinned.automaton.size, ∃ u,
        Walk twinned.automaton.Step twinned.automaton.initial u q) ∧
      (∀ q < twinned.automaton.size, ∃ w, w ∈ twinned.automaton.wordsFrom q) ∧
      twinned.automaton.mergeBisimilar.canonical.shape = twinned.automaton.minimize.shape ∧
      twinned.automaton.minimize.size = 2 := by
  have hA : twinned.automaton.Assembled := ⟨twinned, rfl⟩
  have hdet : twinned.automaton.isDeterministic = true := by decide
  have hfull : ∀ p s, ¬ twinned.automaton.Hollow p s := by
    refine not_hollow_of_ofEdges fun state hstate => ?_
    simp only [Parts.automaton, twinned, List.mem_cons, List.not_mem_nil, or_false] at hstate
    rcases hstate with rfl | rfl | rfl <;> exact ⟨_, rfl⟩
  have hreachable : ∀ q < twinned.automaton.size,
      ∃ u, Walk twinned.automaton.Step twinned.automaton.initial u q := by
    have hall : ∀ q < twinned.automaton.size,
        q ∈ twinned.automaton.reachable twinned.automaton.initial := by decide +kernel
    exact fun q hq => (mem_reachable hA.wellFormed hA.wellFormed.initial_lt).mp (hall q hq)
  have hproductive : ∀ q < twinned.automaton.size, ∃ w, w ∈ twinned.automaton.wordsFrom q := by
    have hall : ∀ q < twinned.automaton.size, q ∈ twinned.automaton.productive := by decide +kernel
    exact fun q hq => mem_productive.mp (hall q hq)
  exact ⟨hA, hdet, hfull, hreachable, hproductive,
    shape_canonical_mergeBisimilar hA hdet hfull hreachable hproductive, by decide +kernel⟩

end Acceptors.Automaton
