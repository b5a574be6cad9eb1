import Acceptors.Proofs.Merging

/-!
The coarsest bisimulation. Refinement separates exactly the states that no bisimulation relates,
provided that entries have edges (`bisimulationClass_eq_iff`), and states that a bisimulation
relates accept the same words, epsilon being read like any other symbol
(`Bisimulation.acceptsFrom_eq`). Main statement: `bisimilar_iff_exists_bisimulation`.
-/

namespace Acceptors.Automaton

variable {A B : FiniteAutomaton} {R : Nat → Nat → Prop} {p q : Nat} {w : Word}

/-! ## Blocks -/

/-- Some bisimulation relates the two states. -/
def BisimilarAt (A B : FiniteAutomaton) (p q : Nat) : Prop := ∃ R, Bisimulation A B R ∧ R p q

/-- A bisimulation may be taken to relate nothing but states. -/
theorem Bisimulation.within (hA : A.WellFormed) (hB : B.WellFormed) (h : Bisimulation A B R) :
    Bisimulation A B fun p q => p < A.size ∧ q < B.size ∧ R p q where
  terminal hpq := h.terminal hpq.2.2
  forth hpq hs := by
    obtain ⟨q', hs', hpq'⟩ := h.forth hpq.2.2 hs
    exact ⟨q', hs', hA.target_lt hs, hB.target_lt hs', hpq'⟩
  back hpq hs := by
    obtain ⟨p', hs', hpq'⟩ := h.back hpq.2.2 hs
    exact ⟨p', hs', hA.target_lt hs', hB.target_lt hs, hpq'⟩

theorem bisimulation_bisimulationClass (hA : A.WellFormed) :
    Bisimulation A A fun p q =>
      p < A.size ∧ q < A.size ∧ A.bisimulationClass p = A.bisimulationClass q where
  terminal := by
    rintro p q ⟨hp, hq, h⟩
    exact isTerminal_eq_of_bisimulationClass_eq hp hq h
  forth := by
    rintro p q p' s ⟨hp, hq, h⟩ hs
    obtain ⟨q', hs', h'⟩ := step_of_bisimulationClass_eq hp hq h hs
    exact ⟨q', hs', hA.target_lt hs, hA.target_lt hs', h'.symm⟩
  back := by
    rintro p q q' s ⟨hp, hq, h⟩ hs
    obtain ⟨p', hs', h'⟩ := step_of_bisimulationClass_eq hq hp h.symm hs
    exact ⟨p', hs', hA.target_lt hs', hA.target_lt hs, h'⟩

/-- States are in one block if and only if some bisimulation relates them. -/
theorem bisimulationClass_eq_iff (hA : A.WellFormed) (hfull : ∀ p s, ¬ A.Hollow p s)
    (hp : p < A.size)
    (hq : q < A.size) : A.bisimulationClass p = A.bisimulationClass q ↔ A.BisimilarAt A p q := by
  constructor
  · exact fun h => ⟨_, bisimulation_bisimulationClass hA, hp, hq, h⟩
  · rintro ⟨R, hR, hpq⟩
    have hwithin := hR.within hA hA
    exact bisimulationClass_eq_of_bisimulation hwithin (fun _ _ h => ⟨h.1, h.2.1⟩)
      (fun _ _ h => hwithin.hasEntry_iff hfull hfull h) ⟨hp, hq, hpq⟩

/-- An automaton whose tables have no empty entries is found bisimilar to another one if and only if
some relation between their states relates the initial states, never a terminal state to one that is
not, and answers each edge of a related state by an edge of the other state on the same symbol,
which may be epsilon, to a related state. -/
theorem bisimilar_iff_exists_bisimulation (hA : A.Assembled) (hB : B.Assembled)
    (hfull : ∀ p s, ¬ A.Hollow p s) :
    A.bisimilar B = true ↔ ∃ R : Nat → Nat → Prop, (∀ p q, R p q → p < A.size ∧ q < B.size) ∧
      R A.initial B.initial ∧ Bisimulation A B R := by
  rw [bisimilar_iff hA.wellFormed hB.wellFormed]
  constructor
  · rintro ⟨_, R, hR, hinitial⟩
    exact ⟨_, fun _ _ h => ⟨h.1, h.2.1⟩,
      ⟨hA.wellFormed.initial_lt, hB.wellFormed.initial_lt, hinitial⟩,
      hR.within hA.wellFormed hB.wellFormed⟩
  · rintro ⟨R, _, hinitial, hR⟩
    exact ⟨fun p _ _ => hfull p, R, hR, hinitial⟩

/-- Two symbols to go on with after the first one. -/
def deferring : Parts Nat :=
  ⟨0, [⟨0, "", false, Table.ofEdges [(.literal "a", 1)]⟩,
    ⟨1, "", false, Table.ofEdges [(.literal "b", 2), (.literal "c", 2)]⟩, ⟨2, "", true, ∅⟩], ∅⟩

/-- The same words, but the first edge decides between the two symbols. -/
def deciding : Parts Nat :=
  ⟨0, [⟨0, "", false, Table.ofEdges [(.literal "a", 1), (.literal "a", 2)]⟩,
    ⟨1, "", false, Table.ofEdges [(.literal "b", 3)]⟩,
    ⟨2, "", false, Table.ofEdges [(.literal "c", 3)]⟩, ⟨3, "", true, ∅⟩], ∅⟩

theorem bisimilar_iff_exists_bisimulation_deferring :
    branching.automaton.Assembled ∧ unrolled.automaton.Assembled ∧ deferring.automaton.Assembled ∧
      deciding.automaton.Assembled ∧ (∀ p s, ¬ branching.automaton.Hollow p s) ∧
      (∀ p s, ¬ deferring.automaton.Hollow p s) ∧
      branching.automaton.Bisimilar unrolled.automaton ∧
      deferring.automaton.equivalent deciding.automaton = true ∧
      ¬ deferring.automaton.Bisimilar deciding.automaton := by
  have hA : branching.automaton.Assembled := ⟨branching, rfl⟩
  have hB : unrolled.automaton.Assembled := ⟨unrolled, rfl⟩
  have hC : deferring.automaton.Assembled := ⟨deferring, rfl⟩
  have hD : deciding.automaton.Assembled := ⟨deciding, rfl⟩
  have hfull : ∀ p s, ¬ branching.automaton.Hollow p s := forall_not_hollow_iff.mpr (by decide)
  have hfull' : ∀ p s, ¬ deferring.automaton.Hollow p s := forall_not_hollow_iff.mpr (by decide)
  have hsame : branching.automaton.bisimilar unrolled.automaton = true := by decide +kernel
  have hdifferent : deferring.automaton.bisimilar deciding.automaton = false := by decide +kernel
  obtain ⟨R, _, hinitial, hR⟩ := (bisimilar_iff_exists_bisimulation hA hB hfull).mp hsame
  refine ⟨hA, hB, hC, hD, hfull, hfull', ⟨R, hR, hinitial⟩, by decide +kernel, ?_⟩
  rintro ⟨R, hR, hinitial⟩
  have hwithin := hR.within hC.wellFormed hD.wellFormed
  have hfound := (bisimilar_iff_exists_bisimulation hC hD hfull').mpr
    ⟨_, fun _ _ h => ⟨h.1, h.2.1⟩, ⟨hC.wellFormed.initial_lt, hD.wellFormed.initial_lt, hinitial⟩,
      hwithin⟩
  rw [hdifferent] at hfound
  cases hfound

/-! ## Runs -/

/-- Each state of the first set is related to one of the second. -/
def Answered (R : Nat → Nat → Prop) (ps qs : SortedSet Nat) : Prop := ∀ p ∈ ps, ∃ q ∈ qs, R p q

theorem Bisimulation.answered_epsilonClosure (hA : A.WellFormed) (hB : B.WellFormed)
    (h : Bisimulation A B R) {ps qs : List Nat} (hps : ∀ p ∈ ps, p < A.size)
    (hqs : ∀ q ∈ qs, q < B.size) (hrelated : ∀ p ∈ ps, ∃ q ∈ qs, R p q) :
    Answered R (A.epsilonClosure ps) (B.epsilonClosure qs) := by
  intro p' hp'
  obtain ⟨p, hp, hw⟩ := (mem_epsilonClosure hA hps).mp hp'
  obtain ⟨q, hq, hpq⟩ := hrelated p hp
  obtain ⟨q', hw', hpq'⟩ := h.exists_walk hpq hw
  exact ⟨q', (mem_epsilonClosure hB hqs).mpr ⟨q, hq, hw'⟩, hpq'⟩

theorem Bisimulation.answered_move (h : Bisimulation A B R) {ps qs : SortedSet Nat}
    (hrelated : Answered R ps qs) (s : Symbol) : Answered R (A.move ps s) (B.move qs s) := by
  intro p' hp'
  obtain ⟨p, hp, hs⟩ := mem_move.mp hp'
  obtain ⟨q, hq, hpq⟩ := hrelated p hp
  obtain ⟨q', hs', hpq'⟩ := h.forth hpq hs
  exact ⟨q', mem_move.mpr ⟨q, hq, hs'⟩, hpq'⟩

theorem lt_of_mem_move (hA : A.WellFormed) {ps : SortedSet Nat} {s : Symbol} (h : p ∈ A.move ps s) :
    p < A.size := by
  obtain ⟨_, _, hs⟩ := mem_move.mp h
  exact hA.target_lt hs

/-- What one symbol keeps a word keeps, though the word may have epsilon in it. -/
theorem Bisimulation.answered_run (hA : A.WellFormed) (hB : B.WellFormed) (h : Bisimulation A B R)
    {ps qs : SortedSet Nat} (hrelated : Answered R ps qs) (w : Word) :
    Answered R (A.run ps w) (B.run qs w) := by
  induction w generalizing ps qs with
  | nil => exact hrelated
  | cons s w ih =>
    exact ih (h.answered_epsilonClosure hA hB (fun _ => lt_of_mem_move hA)
      (fun _ => lt_of_mem_move hB)
      (h.answered_move hrelated s))

theorem Bisimulation.acceptsFrom_of_related (hA : A.WellFormed) (hB : B.WellFormed)
    (h : Bisimulation A B R) (hp : p < A.size) (hq : q < B.size) (hpq : R p q)
    (hw : A.acceptsFrom p w = true) : B.acceptsFrom q w = true := by
  have hstart : Answered R (A.epsilonClosure [p]) (B.epsilonClosure [q]) :=
    h.answered_epsilonClosure hA hB (by simpa using hp) (by simpa using hq) (by simpa using hpq)
  simp only [acceptsFrom, List.any_eq_true, SortedSet.mem_toList] at hw ⊢
  obtain ⟨p', hp', hterminal⟩ := hw
  obtain ⟨q', hq', hpq'⟩ := h.answered_run hA hB hstart w p' hp'
  exact ⟨q', hq', h.terminal hpq' ▸ hterminal⟩

/-- Related states accept the same words, be epsilon in them or not. -/
theorem Bisimulation.acceptsFrom_eq (hA : A.WellFormed) (hB : B.WellFormed) (h : Bisimulation A B R)
    (hp : p < A.size) (hq : q < B.size) (hpq : R p q) (w : Word) :
    A.acceptsFrom p w = B.acceptsFrom q w :=
  Bool.eq_iff_iff.mpr ⟨h.acceptsFrom_of_related hA hB hp hq hpq,
    h.symm.acceptsFrom_of_related hB hA hq hp hpq⟩

end Acceptors.Automaton
