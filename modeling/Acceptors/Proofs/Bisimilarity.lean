import Acceptors.Proofs.Bisimulation
import Acceptors.Proofs.Equivalence

/-!
Bisimilarity of two automata. The coarsest partition of their states side by side separates no
bisimulation (`bisimulationClass_eq_of_bisimulation`) and is one itself. The states of the second
automaton lose their entries without edges when they are put beside those of the first, so a state
of the first that has such an entry falls into no block with a state of the second
(`bisimilar_iff`). Main statements: `equivalent_of_bisimilar`, and `bisimilar_self_comm_iff`, to
what extent the test is reflexive and symmetric.
-/

namespace Acceptors.Automaton

variable {A B C : FiniteAutomaton} {R S : Nat → Nat → Prop}

/-! ## Bisimulations -/

/-- Related states are both terminal or both not, and each edge of one has a counterpart of the
other, epsilon being a symbol like any other. -/
structure Bisimulation (A B : FiniteAutomaton) (R : Nat → Nat → Prop) : Prop where
  terminal {p q : Nat} : R p q → A.isTerminal p = B.isTerminal q
  forth {p q p' : Nat} {s : Symbol} : R p q → A.Step p s p' → ∃ q', B.Step q s q' ∧ R p' q'
  back {p q q' : Nat} {s : Symbol} : R p q → B.Step q s q' → ∃ p', A.Step p s p' ∧ R p' q'

/-- Some bisimulation relates the initial states. -/
def Bisimilar (A B : FiniteAutomaton) : Prop := ∃ R, Bisimulation A B R ∧ R A.initial B.initial

theorem Bisimulation.refl (A : FiniteAutomaton) : Bisimulation A A (· = ·) where
  terminal h := by rw [h]
  forth h hs := ⟨_, h ▸ hs, rfl⟩
  back h hs := ⟨_, h ▸ hs, rfl⟩

theorem Bisimulation.symm (h : Bisimulation A B R) : Bisimulation B A (flip R) where
  terminal hqp := (h.terminal hqp).symm
  forth hqp hs := h.back hqp hs
  back hqp hs := h.forth hqp hs

theorem Bisimulation.trans (hR : Bisimulation A B R) (hS : Bisimulation B C S) :
    Bisimulation A C (Relation.Comp R S) where
  terminal := by
    rintro p r ⟨q, hpq, hqr⟩
    exact (hR.terminal hpq).trans (hS.terminal hqr)
  forth := by
    rintro p r p' s ⟨q, hpq, hqr⟩ hs
    obtain ⟨q', hs, hpq'⟩ := hR.forth hpq hs
    obtain ⟨r', hs, hqr'⟩ := hS.forth hqr hs
    exact ⟨r', hs, q', hpq', hqr'⟩
  back := by
    rintro p r r' s ⟨q, hpq, hqr⟩ hs
    obtain ⟨q', hs, hqr'⟩ := hS.back hqr hs
    obtain ⟨p', hs, hpq'⟩ := hR.back hpq hs
    exact ⟨p', hs, q', hpq', hqr'⟩

theorem Bisimulation.wordsFrom_le (h : Bisimulation A B R) {p q : Nat} (hpq : R p q) :
    A.wordsFrom p ≤ B.wordsFrom q := by
  refine wordsTo_le_of_simulation (R := R) (fun p q hpq hp => ?_) (fun p q s p' hpq hs _ => ?_) hpq
  · rwa [← h.terminal hpq]
  · exact h.forth hpq hs

/-- Related states have the same words. -/
theorem Bisimulation.wordsFrom_eq (h : Bisimulation A B R) {p q : Nat} (hpq : R p q) :
    A.wordsFrom p = B.wordsFrom q :=
  le_antisymm (h.wordsFrom_le hpq) (h.symm.wordsFrom_le hpq)

/-- A walk has a counterpart between related states. -/
theorem Bisimulation.exists_walk (h : Bisimulation A B R) {p q p' : Nat} {w : Word} (hpq : R p q)
    (hw : Walk A.Step p w p') : ∃ q', Walk B.Step q w q' ∧ R p' q' := by
  induction hw generalizing q with
  | nil p => exact ⟨q, .nil q, hpq⟩
  | cons hs _ ih =>
    obtain ⟨r, hs, hr⟩ := h.forth hpq hs
    obtain ⟨q', hw, hq'⟩ := ih hr
    exact ⟨q', .cons hs hw, hq'⟩

theorem Bisimulation.exists_mem_epsilonClosure (h : Bisimulation A B R) (hA : A.WellFormed)
    (hB : B.WellFormed) {ps qs : List Nat} (hps : ∀ p ∈ ps, p < A.size) (hqs : ∀ q ∈ qs, q < B.size)
    (hpq : ∀ p ∈ ps, ∃ q ∈ qs, R p q) {p' : Nat} (hp' : p' ∈ A.epsilonClosure ps) :
    ∃ q' ∈ B.epsilonClosure qs, R p' q' := by
  obtain ⟨p, hp, hwalk⟩ := (mem_epsilonClosure hA hps).mp hp'
  obtain ⟨q, hq, hR⟩ := hpq p hp
  obtain ⟨q', hwalk, hR⟩ := h.exists_walk hR hwalk
  exact ⟨q', (mem_epsilonClosure hB hqs).mpr ⟨q, hq, hwalk⟩, hR⟩

/-- A run has a counterpart from related states, epsilon in the word or not. -/
theorem Bisimulation.exists_mem_run (h : Bisimulation A B R) (hA : A.WellFormed) (hB : B.WellFormed)
    {w : Word} {ps qs : List Nat} (hps : ∀ p ∈ ps, p < A.size) (hqs : ∀ q ∈ qs, q < B.size)
    (hpq : ∀ p ∈ ps, ∃ q ∈ qs, R p q) {p' : Nat} (hp' : p' ∈ A.run (A.epsilonClosure ps) w) :
    ∃ q' ∈ B.run (B.epsilonClosure qs) w, R p' q' := by
  induction w generalizing ps qs with
  | nil => exact h.exists_mem_epsilonClosure hA hB hps hqs hpq hp'
  | cons s w ih =>
    rw [run, List.foldl_cons, ← run] at hp' ⊢
    refine ih (fun r => hA.lt_of_mem_move) (fun r => hB.lt_of_mem_move) (fun r hr => ?_) hp'
    obtain ⟨p, hp, hs⟩ := mem_move.mp hr
    obtain ⟨q, hq, hR⟩ := h.exists_mem_epsilonClosure hA hB hps hqs hpq hp
    obtain ⟨r', hs, hR⟩ := h.forth hR hs
    exact ⟨r', mem_move.mpr ⟨q, hq, hs⟩, hR⟩

/-- Where entries of a state have edges, a related state has an edge for each of them. -/
theorem Bisimulation.exists_step_of_hasEntry (h : Bisimulation A B R) {p q : Nat} {s : Symbol}
    (hpq : R p q) (hfull : ¬ A.Hollow p s) (hentry : A.HasEntry p s) : ∃ q', B.Step q s q' := by
  by_contra hnone
  refine hfull ⟨hentry, fun p' hs => hnone ?_⟩
  obtain ⟨q', hs, _⟩ := h.forth hpq hs
  exact ⟨q', hs⟩

theorem Bisimilar.symm (h : A.Bisimilar B) : B.Bisimilar A := by
  obtain ⟨R, hR, hinitial⟩ := h
  exact ⟨flip R, hR.symm, hinitial⟩

theorem Bisimilar.accepts_of_accepts (h : A.Bisimilar B) (hA : A.WellFormed) (hB : B.WellFormed)
    {w : Word} (hw : A.accepts w = true) : B.accepts w = true := by
  obtain ⟨R, hR, hinitial⟩ := h
  obtain ⟨p, hp, hterminal⟩ := List.any_eq_true.mp hw
  have hltA : ∀ p ∈ [A.initial], p < A.size := by simpa using hA.initial_lt
  have hltB : ∀ q ∈ [B.initial], q < B.size := by simpa using hB.initial_lt
  obtain ⟨q, hq, hpq⟩ :=
    hR.exists_mem_run hA hB hltA hltB (by simpa using hinitial) (SortedSet.mem_toList.mp hp)
  exact List.any_eq_true.mpr ⟨q, SortedSet.mem_toList.mpr hq, hR.terminal hpq ▸ hterminal⟩

/-- Bisimilar automata accept the same words, those with epsilon in them included. -/
theorem Bisimilar.accepts_eq (h : A.Bisimilar B) (hA : A.WellFormed) (hB : B.WellFormed)
    (w : Word) :
    A.accepts w = B.accepts w :=
  Bool.eq_iff_iff.mpr ⟨h.accepts_of_accepts hA hB, h.symm.accepts_of_accepts hB hA⟩

/-- A bisimulation between states with the same entries is never separated. -/
theorem bisimulationClass_eq_of_bisimulation (h : Bisimulation A A R)
    (hlt : ∀ p q, R p q → p < A.size ∧ q < A.size)
    (hentry : ∀ p q, R p q → ∀ s, A.HasEntry p s ↔ A.HasEntry q s) {p q : Nat} (hpq : R p q) :
    A.bisimulationClass p = A.bisimulationClass q := by
  refine Partition.blockOf_refine_eq_of_invariant (E := R) ?_ ?_ ?_ hpq
  · intro p q hpq
    rw [size_acceptanceBlocks]
    exact hlt p q hpq
  · intro p q hpq
    obtain ⟨hp, hq⟩ := hlt p q hpq
    exact (blockOf_acceptanceBlocks_eq_iff hp hq).mpr (h.terminal hpq)
  · intro block hblock p q hpq
    refine signature_eq_iff.mpr ⟨hentry p q hpq, fun s b => ?_⟩
    constructor
    · rintro ⟨p', hs, rfl⟩
      obtain ⟨q', hs, hpq'⟩ := h.forth hpq hs
      exact ⟨q', hs, (hblock p' q' hpq').symm⟩
    · rintro ⟨q', hs, rfl⟩
      obtain ⟨p', hs, hpq'⟩ := h.back hpq hs
      exact ⟨p', hs, hblock p' q' hpq'⟩

/-! ## Two automata side by side -/

/-- The states of both automata in one, those of the second after those of the first. -/
def beside (A B : FiniteAutomaton) : FiniteAutomaton :=
  ⟨A.initial, A.disjointStates B, A.alphabet.union B.alphabet⟩

theorem size_beside : (A.beside B).size = A.size + B.size := by
  simp [beside, disjointStates, size]

theorem getElem?_beside_left {p : Nat} (hp : p < A.size) : (A.beside B).states[p]? = A.states[p]? :=
  List.getElem?_append_left hp

theorem getElem?_beside_right (q : Nat) :
    (A.beside B).states[q + A.size]? = B.states[q]?.map (shift A.size) := by
  change (A.states ++ B.states.map (shift A.size))[q + A.states.length]? = _
  rw [List.getElem?_append_right (Nat.le_add_left _ _), Nat.add_sub_cancel, List.getElem?_map]

theorem isTerminal_beside_left {p : Nat} (hp : p < A.size) :
    (A.beside B).isTerminal p = A.isTerminal p := by
  rw [isTerminal, getElem?_beside_left hp, isTerminal]

theorem isTerminal_beside_right (q : Nat) :
    (A.beside B).isTerminal (q + A.size) = B.isTerminal q := by
  rw [isTerminal, getElem?_beside_right, isTerminal]
  cases B.states[q]? <;> rfl

theorem tableAt_beside_left {p : Nat} (hp : p < A.size) : (A.beside B).tableAt p = A.tableAt p := by
  rw [tableAt, getElem?_beside_left hp, tableAt]

theorem tableAt_beside_right (q : Nat) : (A.beside B).tableAt (q + A.size) =
      Table.ofEdges ((B.edges q).map fun edge => (edge.1, edge.2 + A.size)) := by
  rw [tableAt, getElem?_beside_right, edges]
  cases B.states[q]? <;> rfl

theorem step_beside_left {p r : Nat} {s : Symbol} (hp : p < A.size) :
    (A.beside B).Step p s r ↔ A.Step p s r := by
  rw [Step, Step, next_eq_tableAt, next_eq_tableAt, tableAt_beside_left hp]

theorem step_beside_right {q r : Nat} {s : Symbol} :
    (A.beside B).Step (q + A.size) s r ↔ ∃ q', B.Step q s q' ∧ q' + A.size = r := by
  rw [Step, next_eq_tableAt, tableAt_beside_right, Table.mem_next_ofEdges]
  simp [mem_edges]

theorem hasEntry_beside_left {p : Nat} {s : Symbol} (hp : p < A.size) :
    (A.beside B).HasEntry p s ↔ A.HasEntry p s := by
  rw [hasEntry_iff_tableAt, hasEntry_iff_tableAt, tableAt_beside_left hp]

/-- Beside the first automaton the second has entries only where it has edges. -/
theorem hasEntry_beside_right {q : Nat} {s : Symbol} :
    (A.beside B).HasEntry (q + A.size) s ↔ ∃ q', B.Step q s q' := by
  rw [hasEntry_iff_tableAt, tableAt_beside_right, Option.isSome_iff_ne_none, ne_eq,
    Table.get?_ofEdges_eq_none_iff]
  simp [mem_edges]

/-- The test asks whether the initial states are in one block. -/
theorem bisimilar_iff_bisimulationClass (hA : A.WellFormed) (hB : B.WellFormed) :
    A.bisimilar B = true ↔
      (A.beside B).bisimulationClass A.initial =
        (A.beside B).bisimulationClass (B.initial + A.size) := by
  have hsize : (bisimulationBlocks (A.disjointStates B)).size = A.size + B.size :=
    (size_bisimulationBlocks (A.beside B)).trans size_beside
  have hget (p : Nat) (hp : p < A.size + B.size) : (bisimulationBlocks (A.disjointStates B))[p]? =
      some ((A.beside B).bisimulationClass p) := by
    rw [← hsize] at hp
    simp [bisimulationClass, Partition.blockOf, beside, hp]
  have hinitial := hA.initial_lt
  have hinitial' := hB.initial_lt
  rw [bisimilar, hget A.initial (by omega), hget (B.initial + A.size) (by omega)]
  simp

/-! ## The test -/

/-- No state that the initial state leads to has an entry without an edge. -/
def Solid (A : FiniteAutomaton) : Prop :=
  ∀ p w, Walk A.Step A.initial w p → ∀ s, ¬ A.Hollow p s

/-- States of the two automata in one block. -/
def Joined (A B : FiniteAutomaton) (p q : Nat) : Prop :=
  p < A.size ∧ q < B.size ∧
    (A.beside B).bisimulationClass p = (A.beside B).bisimulationClass (q + A.size)

theorem bisimulation_joined (hA : A.WellFormed) (hB : B.WellFormed) :
    Bisimulation A B (A.Joined B) := by
  have hleft {p : Nat} (hp : p < A.size) : p < (A.beside B).size := by rw [size_beside]; omega
  have hright {q : Nat} (hq : q < B.size) : q + A.size < (A.beside B).size := by
    rw [size_beside]; omega
  constructor
  · rintro p q ⟨hp, hq, h⟩
    rw [← isTerminal_beside_left hp, ← isTerminal_beside_right (A := A) q]
    exact isTerminal_eq_of_bisimulationClass_eq (hleft hp) (hright hq) h
  · rintro p q p' s ⟨hp, hq, h⟩ hs
    obtain ⟨r, hr, h'⟩ :=
      step_of_bisimulationClass_eq (hleft hp) (hright hq) h ((step_beside_left hp).mpr hs)
    obtain ⟨q', hs', rfl⟩ := step_beside_right.mp hr
    exact ⟨q', hs', hA.target_lt hs, hB.target_lt hs', h'.symm⟩
  · rintro p q q' s ⟨hp, hq, h⟩ hs
    obtain ⟨p', hs', h'⟩ := step_of_bisimulationClass_eq (hright hq) (hleft hp) h.symm
      (step_beside_right.mpr ⟨q', hs, rfl⟩)
    have hs' := (step_beside_left hp).mp hs'
    exact ⟨p', hs', hA.target_lt hs', hB.target_lt hs, h'⟩

/-- A state in one block with a state of the second automaton has an edge for every entry. -/
theorem Joined.not_hollow (hA : A.WellFormed) (hB : B.WellFormed) {p q : Nat} (h : A.Joined B p q)
    (s : Symbol) : ¬ A.Hollow p s := by
  rintro ⟨hentry, hnone⟩
  obtain ⟨hp, hq, hclass⟩ := h
  have hlt : p < (A.beside B).size ∧ q + A.size < (A.beside B).size := by rw [size_beside]; omega
  rw [← hasEntry_beside_left (B := B) hp, hasEntry_iff_of_bisimulationClass_eq hlt.1 hlt.2 hclass,
    hasEntry_beside_right] at hentry
  obtain ⟨q', hs⟩ := hentry
  obtain ⟨p', hs, _⟩ := (bisimulation_joined hA hB).back ⟨hp, hq, hclass⟩ hs
  exact hnone p' hs

/-- Reachable states related by a bisimulation, the second one moved up. -/
def Lifted (A B : FiniteAutomaton) (R : Nat → Nat → Prop) (p r : Nat) : Prop :=
  ∃ q, q + A.size = r ∧ R p q ∧ (∃ w, Walk A.Step A.initial w p) ∧ ∃ w, Walk B.Step B.initial w q

theorem Bisimulation.lifted (hA : A.WellFormed) (h : Bisimulation A B R) :
    Bisimulation (A.beside B) (A.beside B) (A.Lifted B R) := by
  constructor
  · rintro p _ ⟨q, rfl, hpq, ⟨u, hu⟩, _⟩
    rw [isTerminal_beside_left (hA.lt_of_walk hu hA.initial_lt), isTerminal_beside_right]
    exact h.terminal hpq
  · rintro p _ p' s ⟨q, rfl, hpq, ⟨u, hu⟩, v, hv⟩ hs
    rw [step_beside_left (hA.lt_of_walk hu hA.initial_lt)] at hs
    obtain ⟨q', hs', hpq'⟩ := h.forth hpq hs
    exact ⟨_, step_beside_right.mpr ⟨q', hs', rfl⟩, q', rfl, hpq', ⟨_, hu.append (.edge hs)⟩,
      _, hv.append (.edge hs')⟩
  · rintro p _ _ s ⟨q, rfl, hpq, ⟨u, hu⟩, v, hv⟩ hs
    obtain ⟨q', hs', rfl⟩ := step_beside_right.mp hs
    obtain ⟨p', hs, hpq'⟩ := h.back hpq hs'
    exact ⟨p', (step_beside_left (hA.lt_of_walk hu hA.initial_lt)).mpr hs, q', rfl, hpq',
      ⟨_, hu.append (.edge hs)⟩, _, hv.append (.edge hs')⟩

/-- The test finds automata bisimilar if and only if they are, provided that the first one is
solid. -/
theorem bisimilar_iff (hA : A.WellFormed) (hB : B.WellFormed) :
    A.bisimilar B = true ↔ A.Solid ∧ A.Bisimilar B := by
  rw [bisimilar_iff_bisimulationClass hA hB]
  constructor
  · intro h
    have hinitial : A.Joined B A.initial B.initial := ⟨hA.initial_lt, hB.initial_lt, h⟩
    refine ⟨fun p w hw => ?_, A.Joined B, bisimulation_joined hA hB, hinitial⟩
    obtain ⟨q, _, hpq⟩ := (bisimulation_joined hA hB).exists_walk hinitial hw
    exact hpq.not_hollow hA hB
  · rintro ⟨hsolid, R, hR, hinitial⟩
    refine bisimulationClass_eq_of_bisimulation (hR.lifted hA) ?_ ?_
      ⟨B.initial, rfl, hinitial, ⟨[], .nil _⟩, [], .nil _⟩
    · rintro p _ ⟨q, rfl, _, ⟨u, hu⟩, v, hv⟩
      have hp := hA.lt_of_walk hu hA.initial_lt
      have hq := hB.lt_of_walk hv hB.initial_lt
      rw [size_beside]
      omega
    · rintro p _ ⟨q, rfl, hpq, ⟨u, hu⟩, v, hv⟩ s
      rw [hasEntry_beside_left (hA.lt_of_walk hu hA.initial_lt), hasEntry_beside_right]
      refine ⟨hR.exists_step_of_hasEntry hpq (hsolid p u hu s), ?_⟩
      rintro ⟨q', hs'⟩
      obtain ⟨p', hs, _⟩ := hR.back hpq hs'
      exact hasEntry_of_step hs

/-! ## What the test tells -/

/-- Automata that are found bisimilar are equivalent. -/
theorem equivalent_of_bisimilar (hA : A.Assembled) (hB : B.Assembled) (h : A.bisimilar B = true) :
    A.equivalent B = true := by
  obtain ⟨_, R, hR, hinitial⟩ := (bisimilar_iff hA.wellFormed hB.wellFormed).mp h
  exact (equivalent_iff_wordsFrom_eq hA.labelled hB.labelled).mpr (hR.wordsFrom_eq hinitial)

/-- `branching` with its first state twice, over one more symbol. -/
def unrolled : Parts Nat :=
  ⟨2, [⟨0, "", false, Table.ofEdges [(.epsilon, 1), (.literal "a", 2)]⟩,
    ⟨1, "", true, Table.ofEdges [(.literal "a", 0), (.literal "a", 1)]⟩,
    ⟨2, "", false, Table.ofEdges [(.epsilon, 1), (.literal "a", 0)]⟩],
    SortedSet.ofList [.literal "b"]⟩

theorem equivalent_of_bisimilar_unrolled :
    branching.automaton.Assembled ∧ unrolled.automaton.Assembled ∧
      branching.automaton.bisimilar unrolled.automaton = true ∧
      branching.automaton.equivalent unrolled.automaton = true := by
  have hA : branching.automaton.Assembled := ⟨branching, rfl⟩
  have hB : unrolled.automaton.Assembled := ⟨unrolled, rfl⟩
  have h : branching.automaton.bisimilar unrolled.automaton = true := by decide +kernel
  exact ⟨hA, hB, h, equivalent_of_bisimilar hA hB h⟩

/-- An automaton is found bisimilar to itself if and only if it is solid, and the order of two
automata matters if and only if they are bisimilar but only one of them is solid. -/
theorem bisimilar_self_comm_iff (hA : A.Assembled) (hB : B.Assembled) :
    (A.bisimilar A = true ↔ A.Solid) ∧
      (A.bisimilar B = B.bisimilar A ↔ (A.Bisimilar B → (A.Solid ↔ B.Solid))) := by
  have hself : A.Bisimilar A := ⟨(· = ·), .refl A, rfl⟩
  have hcomm : B.Bisimilar A ↔ A.Bisimilar B := ⟨Bisimilar.symm, Bisimilar.symm⟩
  constructor
  · rw [bisimilar_iff hA.wellFormed hA.wellFormed, and_iff_left hself]
  · rw [Bool.eq_iff_iff, bisimilar_iff hA.wellFormed hB.wellFormed,
      bisimilar_iff hB.wellFormed hA.wellFormed, hcomm, and_congr_left_iff]

/-- One terminal state, without entries. -/
def bare : Parts Nat := ⟨0, [⟨0, "", true, ∅⟩], ∅⟩

/-- One terminal state, with an entry that has no edge. -/
def vacant : Parts Nat := ⟨0, [⟨0, "", true, Table.ofRows [(.literal "a", [])]⟩], ∅⟩

theorem bisimilar_self_comm_bare_vacant :
    bare.automaton.Assembled ∧ vacant.automaton.Assembled ∧ bare.automaton.Solid ∧
      bare.automaton.bisimilar vacant.automaton = true ∧
      vacant.automaton.bisimilar bare.automaton = false ∧
      ¬ (bare.automaton.Bisimilar vacant.automaton →
        (bare.automaton.Solid ↔ vacant.automaton.Solid)) := by
  have hA : bare.automaton.Assembled := ⟨bare, rfl⟩
  have hB : vacant.automaton.Assembled := ⟨vacant, rfl⟩
  have hforth : bare.automaton.bisimilar vacant.automaton = true := by decide +kernel
  have hback : vacant.automaton.bisimilar bare.automaton = false := by decide +kernel
  obtain ⟨hself, hcomm⟩ := bisimilar_self_comm_iff hA hB
  refine ⟨hA, hB, hself.mp (by decide +kernel), hforth, hback, fun h => ?_⟩
  have hsame := hcomm.mpr h
  rw [hforth, hback] at hsame
  cases hsame

/-- An automaton that is not found bisimilar to itself, and is found bisimilar to another in one
order only. -/
theorem not_bisimilar_self_vacant :
    vacant.automaton.Assembled ∧ bare.automaton.Assembled ∧
      vacant.automaton.bisimilar vacant.automaton = false ∧
      vacant.automaton.bisimilar bare.automaton ≠ bare.automaton.bisimilar vacant.automaton := by
  refine ⟨⟨vacant, rfl⟩, ⟨bare, rfl⟩, by decide +kernel, by decide +kernel⟩

end Acceptors.Automaton
