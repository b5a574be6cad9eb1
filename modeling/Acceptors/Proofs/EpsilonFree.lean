import Acceptors.Automaton.Statewise
import Acceptors.Proofs.Assembly
import Acceptors.Proofs.Tables

/-!
Removing epsilon edges. Main statements: `wordsFrom_withoutEpsilon` and `wordsFrom_epsilonFree`,
every state keeps its words, `not_step_epsilon_epsilonFree`, no epsilon edge is left, and
`acceptsFrom_withoutEpsilon`, which puts together what removal keeps.
-/

namespace Acceptors.Automaton

variable {A : FiniteAutomaton}

theorem size_withoutEpsilon : A.withoutEpsilon.size = A.size := by
  simp [withoutEpsilon, size]

theorem Indexed.withoutEpsilon (hA : A.Indexed) : A.withoutEpsilon.Indexed := by
  intro i q hq
  simp only [Automaton.withoutEpsilon, List.getElem?_map, List.getElem?_zipIdx, Option.map_map,
    Option.map_eq_some_iff] at hq
  obtain ⟨state, hstate, rfl⟩ := hq
  exact hA i state hstate

theorem step_withoutEpsilon {p q : Nat} {s : Symbol} :
    A.withoutEpsilon.Step p s q ↔
      p < A.size ∧ s ≠ .epsilon ∧ ∃ p' ∈ A.epsilonClosure [p], A.Step p' s q := by
  by_cases hp : p < A.size
  · have hstate : A.states[p]? = some A.states[p] := List.getElem?_eq_getElem hp
    simp only [Step, next, withoutEpsilon, List.getElem?_map, List.getElem?_zipIdx, hstate,
      Option.map_some, State.next, Table.mem_next_ofEdges]
    simp only [List.mem_filter, List.mem_flatMap, mem_edges, SortedSet.mem_toList, Symbol.isEpsilon,
      Bool.not_eq_true', beq_eq_false_iff_ne, zero_add]
    constructor
    · rintro ⟨⟨p', hp', hs⟩, hne⟩
      exact ⟨hp, hne, p', hp', hs⟩
    · rintro ⟨_, hne, p', hp', hs⟩
      exact ⟨⟨p', hp', hs⟩, hne⟩
  · constructor
    · intro h
      have hlt := source_lt h
      rw [size_withoutEpsilon] at hlt
      exact absurd hlt hp
    · exact fun h => absurd h.1 hp

theorem isTerminal_withoutEpsilon {p : Nat} :
    A.withoutEpsilon.isTerminal p = true ↔
      p < A.size ∧ ∃ p' ∈ A.epsilonClosure [p], A.isTerminal p' = true := by
  by_cases hp : p < A.size
  · have hstate : A.states[p]? = some A.states[p] := List.getElem?_eq_getElem hp
    simp [isTerminal, withoutEpsilon, hstate, hp, SortedSet.mem_toList]
  · have hnone : A.withoutEpsilon.states[p]? = none :=
      List.getElem?_eq_none (by rw [← size, size_withoutEpsilon]; omega)
    simp [isTerminal, hnone, hp]

theorem WellFormed.withoutEpsilon (hA : A.WellFormed) : A.withoutEpsilon.WellFormed := by
  refine ⟨?_, fun p s q hs => ?_⟩
  · rw [size_withoutEpsilon]
    exact hA.initial_lt
  · obtain ⟨_, _, p', _, hs⟩ := step_withoutEpsilon.mp hs
    rw [size_withoutEpsilon]
    exact hA.target_lt hs

/-- What a state can do it can still do from wherever an epsilon edge leads to it. -/
theorem labelling_wordsFrom_withoutEpsilon (hA : A.WellFormed) :
    Labelling A.Step (fun q => A.isTerminal q = true) A.withoutEpsilon.wordsFrom where
  terminal p hp := by
    have hlt := lt_of_isTerminal hp
    refine labelling_wordsTo.terminal p ?_
    exact isTerminal_withoutEpsilon.mpr
      ⟨hlt, p, (mem_epsilonClosure_singleton hA hlt).mpr (.nil p), hp⟩
  edge p s q hs := by
    have hp := source_lt hs
    have hno : ∀ x y, ¬ A.withoutEpsilon.Step x .epsilon y :=
      fun x y h => (step_withoutEpsilon.mp h).2.1 rfl
    by_cases he : s = .epsilon
    · subst he
      rw [Symbol.words_epsilon, one_mul]
      have hcl : ∀ r, r ∈ A.epsilonClosure [q] → r ∈ A.epsilonClosure [p] := by
        intro r hr
        rw [mem_epsilonClosure_singleton hA (hA.target_lt hs)] at hr
        exact (mem_epsilonClosure_singleton hA hp).mpr (.cons hs hr)
      intro w hw
      cases w with
      | nil =>
        obtain ⟨_, r, hr, ht⟩ := isTerminal_withoutEpsilon.mp ((nil_mem_wordsTo hno).mp hw)
        exact (nil_mem_wordsTo hno).mpr (isTerminal_withoutEpsilon.mpr ⟨hp, r, hcl r hr, ht⟩)
      | cons s w =>
        obtain ⟨r, hr, hw⟩ := (cons_mem_wordsTo hno).mp hw
        obtain ⟨_, hne, q', hq', hstep⟩ := step_withoutEpsilon.mp hr
        exact (cons_mem_wordsTo hno).mpr
          ⟨r, step_withoutEpsilon.mpr ⟨hp, hne, q', hcl q' hq', hstep⟩, hw⟩
    · have hself := (mem_epsilonClosure_singleton hA hp).mpr (.nil p)
      exact labelling_wordsTo.edge p s q (step_withoutEpsilon.mpr ⟨hp, he, p, hself, hs⟩)

/-- The words of an automaton label it without its epsilon edges as well. -/
theorem labelling_withoutEpsilon_wordsFrom (hA : A.WellFormed) :
    Labelling A.withoutEpsilon.Step (fun q => A.withoutEpsilon.isTerminal q = true)
      A.wordsFrom where
  terminal p hp := by
    obtain ⟨hlt, q, hq, ht⟩ := isTerminal_withoutEpsilon.mp hp
    rintro w rfl
    exact ⟨q, ht, (mem_epsilonClosure_singleton hA hlt).mp hq⟩
  edge p s q hs := by
    obtain ⟨hlt, _, p', hp', hs⟩ := step_withoutEpsilon.mp hs
    rw [Symbol.words_mul_le]
    rintro w ⟨r, hr, hw⟩
    exact ⟨r, hr, ((mem_epsilonClosure_singleton hA hlt).mp hp').append (.cons hs hw)⟩

theorem wordsFrom_withoutEpsilon (hA : A.WellFormed) (p : Nat) :
    A.withoutEpsilon.wordsFrom p = A.wordsFrom p :=
  le_antisymm ((labelling_withoutEpsilon_wordsFrom hA).wordsTo_le p)
    ((labelling_wordsFrom_withoutEpsilon hA).wordsTo_le p)

/-- The tables are made of the edges on other symbols, so epsilon has no entry in them. -/
theorem hasEpsilon_withoutEpsilon (A : FiniteAutomaton) : A.withoutEpsilon.hasEpsilon = false := by
  simp only [hasEpsilon, withoutEpsilon, List.any_map, List.any_eq_false]
  intro entry _
  have hnone : (Table.ofEdges (((A.epsilonClosure [entry.2]).toList.flatMap A.edges).filter
      fun edge => !edge.1.isEpsilon)).get? .epsilon = none :=
    Table.get?_ofEdges_eq_none_iff.mpr (by simp [Symbol.isEpsilon])
  simp [SortedMap.contains, hnone]

theorem map_name_withoutEpsilon (A : FiniteAutomaton) :
    A.withoutEpsilon.states.map State.name = A.states.map State.name := by
  have hstates :
      A.withoutEpsilon.states.map State.name = A.states.zipIdx.map (State.name ∘ Prod.fst) := by
    rw [withoutEpsilon, List.map_map]
    rfl
  rw [hstates, ← List.map_map, List.zipIdx_map_fst]

/-- Removal leaves no epsilon in the tables and keeps the states in their places with their names,
the initial state, and what leads from every state to acceptance. -/
theorem acceptsFrom_withoutEpsilon (hA : A.Assembled) :
    A.withoutEpsilon.hasEpsilon = false ∧
      A.withoutEpsilon.states.map State.name = A.states.map State.name ∧
      A.withoutEpsilon.initial = A.initial ∧
      ∀ p < A.size, ∀ w : Word, w.Plain →
        (w ∈ A.withoutEpsilon.wordsFrom p ↔ w ∈ A.wordsFrom p) ∧
          A.withoutEpsilon.acceptsFrom p w = A.acceptsFrom p w := by
  refine ⟨hasEpsilon_withoutEpsilon A, map_name_withoutEpsilon A, rfl, fun p hp w hw => ?_⟩
  have hwords : w ∈ A.withoutEpsilon.wordsFrom p ↔ w ∈ A.wordsFrom p := by
    rw [wordsFrom_withoutEpsilon hA.wellFormed]
  have hlt : p < A.withoutEpsilon.size := size_withoutEpsilon.symm ▸ hp
  refine ⟨hwords, ?_⟩
  rw [Bool.eq_iff_iff, acceptsFrom_iff hA.wellFormed.withoutEpsilon (.inl hw) hlt,
    acceptsFrom_iff hA.wellFormed (.inl hw) hp, hwords]

/-- Words over two letters that end with one letter and the other, with free edges that lead round
and one that leads to the terminal state at last. -/
def trailing : Parts Nat :=
  ⟨0, [⟨0, "", false, Table.ofEdges [(.epsilon, 1)]⟩,
    ⟨1, "", false,
      Table.ofEdges [(.epsilon, 0), (.literal "a", 1), (.literal "a", 2), (.literal "b", 1)]⟩,
    ⟨2, "", false, Table.ofEdges [(.literal "b", 3)]⟩,
    ⟨3, "", false, Table.ofEdges [(.epsilon, 4)]⟩,
    ⟨4, "end", true, ∅⟩], ∅⟩

theorem acceptsFrom_withoutEpsilon_trailing :
    trailing.automaton.Assembled ∧ trailing.automaton.withoutEpsilon.hasEpsilon = false ∧
      0 < trailing.automaton.size ∧ Word.Plain (Word.ofText "bab") ∧
      trailing.automaton.acceptsFrom 0 (Word.ofText "bab") = true ∧
      trailing.automaton.withoutEpsilon.acceptsFrom 0 (Word.ofText "bab") = true := by
  have hA : trailing.automaton.Assembled := ⟨trailing, rfl⟩
  have hlt : 0 < trailing.automaton.size := by decide
  have hw : Word.Plain (Word.ofText "bab") := by decide
  have haccepts : trailing.automaton.acceptsFrom 0 (Word.ofText "bab") = true := by decide +kernel
  obtain ⟨hepsilon, _, _, hkept⟩ := acceptsFrom_withoutEpsilon hA
  exact ⟨hA, hepsilon, hlt, hw, haccepts, (hkept 0 hlt _ hw).2.trans haccepts⟩

/-! ## Removal where there is something to remove -/

theorem not_step_epsilon (h : A.hasEpsilon = false) (p q : Nat) : ¬ A.Step p .epsilon q := by
  intro hs
  obtain ⟨state, targets, hstate, htargets, _⟩ := step_iff.mp hs
  simp only [hasEpsilon, List.any_eq_false] at h
  have hnone := h state (List.mem_of_getElem? hstate)
  simp [SortedMap.contains, htargets] at hnone

theorem not_step_epsilon_epsilonFree (p q : Nat) : ¬ A.epsilonFree.Step p .epsilon q := by
  unfold epsilonFree
  split
  · exact fun h => (step_withoutEpsilon.mp h).2.1 rfl
  · rename_i h
    exact not_step_epsilon (Bool.not_eq_true _ ▸ h) p q

/-- Every edge left is an edge of the automaton, from a state of the same epsilon closure. -/
theorem step_of_step_epsilonFree {p q : Nat} {s : Symbol} (h : A.epsilonFree.Step p s q) :
    s ≠ .epsilon ∧ ∃ p', A.Step p' s q := by
  refine ⟨fun he => not_step_epsilon_epsilonFree p q (he ▸ h), ?_⟩
  unfold epsilonFree at h
  split at h
  · obtain ⟨_, _, p', _, hs⟩ := step_withoutEpsilon.mp h
    exact ⟨p', hs⟩
  · exact ⟨p, h⟩

theorem initial_epsilonFree : A.epsilonFree.initial = A.initial := by
  unfold epsilonFree
  split <;> rfl

theorem size_epsilonFree : A.epsilonFree.size = A.size := by
  unfold epsilonFree
  split
  · exact size_withoutEpsilon
  · rfl

theorem alphabet_epsilonFree : A.epsilonFree.alphabet = A.alphabet := by
  unfold epsilonFree
  split <;> rfl

theorem WellFormed.epsilonFree (hA : A.WellFormed) : A.epsilonFree.WellFormed := by
  unfold Automaton.epsilonFree
  split
  · exact hA.withoutEpsilon
  · exact hA

theorem Indexed.epsilonFree (hA : A.Indexed) : A.epsilonFree.Indexed := by
  unfold Automaton.epsilonFree
  split
  · exact hA.withoutEpsilon
  · exact hA

theorem wordsFrom_epsilonFree (hA : A.WellFormed) (p : Nat) :
    A.epsilonFree.wordsFrom p = A.wordsFrom p := by
  unfold epsilonFree
  split
  · exact wordsFrom_withoutEpsilon hA p
  · rfl

/-! ## Walks without epsilon edges -/

/-- An edge takes the place of epsilon edges and an edge after them. -/
theorem step_epsilonFree (hA : A.WellFormed) {p q : Nat} {s : Symbol} :
    A.epsilonFree.Step p s q ↔
      p < A.size ∧ s ≠ .epsilon ∧ ∃ p', Walk A.Step p [] p' ∧ A.Step p' s q := by
  unfold epsilonFree
  split
  · rw [step_withoutEpsilon]
    refine and_congr_right fun hp => and_congr_right fun _ => ?_
    simp only [mem_epsilonClosure_singleton hA hp]
  · rename_i h
    have hno := not_step_epsilon (Bool.eq_false_of_not_eq_true h)
    constructor
    · exact fun hs => ⟨source_lt hs, fun he => hno p q (he ▸ hs), p, .nil p, hs⟩
    · rintro ⟨_, _, p', hp', hs⟩
      rwa [(Walk.nil_iff_eq hno).mp hp']

/-- A walk is one without epsilon edges but for those after its last symbol. -/
theorem walk_iff_exists_walk_epsilonFree (hA : A.WellFormed) {p q : Nat} (hp : p < A.size)
    {w : Word} :
    Walk A.Step p w q ↔ ∃ r, Walk A.epsilonFree.Step p w r ∧ Walk A.Step r [] q := by
  have hno := not_step_epsilon_epsilonFree (A := A)
  constructor
  · intro h
    have hw : w.Plain := h.plain
    induction w generalizing p with
    | nil => exact ⟨p, .nil p, h⟩
    | cons s w ih =>
      obtain ⟨p', x, hp', hs, hrest⟩ := h.split_cons
      have hne : s ≠ .epsilon := fun he => hw (he ▸ List.mem_cons_self)
      obtain ⟨r, hr, hrq⟩ := ih (hA.target_lt hs) hrest fun hmem => hw (List.mem_cons_of_mem s hmem)
      exact ⟨r, (Walk.cons_iff hno).mpr ⟨x, (step_epsilonFree hA).mpr ⟨hp, hne, p', hp', hs⟩, hr⟩,
        hrq⟩
  · rintro ⟨r, hr, hrq⟩
    have hwalk : Walk A.Step p w r := by
      induction hr with
      | nil p => exact .nil p
      | @cons _ _ _ s _ hs _ ih =>
        obtain ⟨hp, _, p', hp', hs⟩ := (step_epsilonFree hA).mp hs
        exact hp'.append (.cons hs (ih (hA.target_lt hs) hrq))
    simpa using hwalk.append hrq

/-- The word leads from the initial state to this one, and no epsilon edge comes after its last
symbol. -/
def Lands (A : FiniteAutomaton) (w : Word) (q : Nat) : Prop :=
  w = [] ∧ q = A.initial ∨
    ∃ u s p, w = u ++ [s] ∧ s ≠ .epsilon ∧ Walk A.Step A.initial u p ∧ A.Step p s q

theorem lands_nil {q : Nat} : A.Lands [] q ↔ q = A.initial := by
  constructor
  · rintro (⟨_, hq⟩ | ⟨u, s, _, hword, _⟩)
    · exact hq
    · simp at hword
  · exact fun hq => .inl ⟨rfl, hq⟩

theorem lands_append_singleton {u : Word} {s : Symbol} {q : Nat} :
    A.Lands (u ++ [s]) q ↔ s ≠ .epsilon ∧ ∃ p, Walk A.Step A.initial u p ∧ A.Step p s q := by
  constructor
  · rintro (⟨hword, _⟩ | ⟨v, r, p, hword, hne, hwalk, hs⟩)
    · simp at hword
    · obtain ⟨rfl, hr⟩ := List.append_inj' hword rfl
      cases hr
      exact ⟨hne, p, hwalk, hs⟩
  · rintro ⟨hne, p, hwalk, hs⟩
    exact .inr ⟨u, s, p, rfl, hne, hwalk, hs⟩

theorem walk_epsilonFree_iff_lands (hA : A.WellFormed) {w : Word} {q : Nat} :
    Walk A.epsilonFree.Step A.initial w q ↔ A.Lands w q := by
  have hno := not_step_epsilon_epsilonFree (A := A)
  rcases List.eq_nil_or_concat' w with rfl | ⟨u, s, rfl⟩
  · rw [Walk.nil_iff_eq hno, lands_nil, eq_comm]
  · rw [Walk.append_iff hno, lands_append_singleton]
    simp only [Walk.cons_iff hno, Walk.nil_iff_eq hno, exists_eq_right, step_epsilonFree hA,
      walk_iff_exists_walk_epsilonFree hA hA.initial_lt]
    constructor
    · rintro ⟨r, hr, _, hne, p, hrp, hs⟩
      exact ⟨hne, p, ⟨r, hr, hrp⟩, hs⟩
    · rintro ⟨hne, p, ⟨r, hr, hrp⟩, hs⟩
      have hlt : r < A.epsilonFree.size :=
        hA.epsilonFree.lt_of_walk hr (size_epsilonFree (A := A) ▸ hA.initial_lt)
      exact ⟨r, hr, size_epsilonFree (A := A) ▸ hlt, hne, p, hrp, hs⟩

end Acceptors.Automaton
