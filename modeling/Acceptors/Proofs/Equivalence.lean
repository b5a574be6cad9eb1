import Acceptors.Automaton.Compare
import Acceptors.Proofs.Determinize

/-!
Equality of words by exploration in lockstep. A side that has no edge to go on has no words from
then on (`wordsAt`), so two sides have the same words if and only if the sides that they lead to
agree on acceptance (`wordsAt_eq_iff`). Main statement: `equivalent_iff`.
-/

namespace Acceptors.Automaton

variable {A B D E : FiniteAutomaton}

/-! ## The words of a side -/

/-- The words from a state, and none from a side that cannot go on. -/
def wordsAt (D : FiniteAutomaton) : Option Nat → WordSet Symbol
  | some p => D.wordsFrom p
  | none => 0

@[simp] theorem wordsAt_some (p : Nat) : D.wordsAt (some p) = D.wordsFrom p := rfl

@[simp] theorem wordsAt_none : D.wordsAt none = 0 := rfl

theorem nil_mem_wordsAt (h : Deterministic D.Step) {p : Option Nat} :
    [] ∈ D.wordsAt p ↔ D.acceptsAt p = true := by
  cases p with
  | none => simp [acceptsAt]
  | some p => simp [acceptsAt, nil_mem_wordsFrom h.noEpsilon]

theorem advance_eq_some_iff (h : Deterministic D.Step) {p : Option Nat} {s : Symbol} {r : Nat} :
    D.advance s p = some r ↔ ∃ q, p = some q ∧ D.Step q s r := by
  simp [advance, Option.bind_eq_some_iff, successor_eq_some_iff h]

theorem cons_mem_wordsAt (h : Deterministic D.Step) {p : Option Nat} {s : Symbol} {w : Word} :
    s :: w ∈ D.wordsAt p ↔ w ∈ D.wordsAt (D.advance s p) := by
  cases p with
  | none => simp [advance]
  | some q =>
    rw [wordsAt_some, wordsFrom, cons_mem_wordsTo h.noEpsilon]
    cases hr : D.advance s (some q) with
    | none =>
      simp only [wordsAt_none, Language.notMem_zero, iff_false]
      rintro ⟨r, hs, _⟩
      rw [(advance_eq_some_iff h).mpr ⟨q, rfl, hs⟩] at hr
      cases hr
    | some r =>
      obtain ⟨_, hq, hs⟩ := (advance_eq_some_iff h).mp hr
      cases hq
      constructor
      · rintro ⟨r', hs', hw⟩
        rwa [h.unique q s r r' hs hs']
      · exact fun hw => ⟨r, hs, hw⟩

/-! ## Pairs of sides -/

theorem mem_lockstepNext {alphabet : Alphabet} {x y : Lockstep} :
    y ∈ D.lockstepNext E alphabet x ↔
      (∃ s ∈ alphabet, (D.advance s x.1, E.advance s x.2) = y) ∧ y ≠ (none, none) := by
  simp [lockstepNext, SortedSet.mem_toList]

/-- Some label of an edge that a side takes is in the alphabet, so the pair is led on to. -/
theorem mem_lockstepNext_of_ne {alphabet : Alphabet} (hdetD : Deterministic D.Step)
    (hdetE : Deterministic E.Step) (hD : ∀ p s q, D.Step p s q → s ∈ alphabet)
    (hE : ∀ p s q, E.Step p s q → s ∈ alphabet) {x : Lockstep} {s : Symbol}
    (h : (D.advance s x.1, E.advance s x.2) ≠ (none, none)) :
    (D.advance s x.1, E.advance s x.2) ∈ D.lockstepNext E alphabet x := by
  refine mem_lockstepNext.mpr ⟨⟨s, ?_, rfl⟩, h⟩
  cases hp : D.advance s x.1 with
  | some p =>
    obtain ⟨p', _, hs⟩ := (advance_eq_some_iff hdetD).mp hp
    exact hD p' s p hs
  | none =>
    cases hq : E.advance s x.2 with
    | some q =>
      obtain ⟨q', _, hs⟩ := (advance_eq_some_iff hdetE).mp hq
      exact hE q' s q hs
    | none => exact absurd (by rw [hp, hq]) h

/-- Sides with the same words lead to sides with the same words. -/
theorem wordsAt_eq_of_leads {alphabet : Alphabet} (hdetD : Deterministic D.Step)
    (hdetE : Deterministic E.Step) {x y : Lockstep} (hxy : Leads (D.lockstepNext E alphabet) x y)
    (h : D.wordsAt x.1 = E.wordsAt x.2) : D.wordsAt y.1 = E.wordsAt y.2 := by
  induction hxy with
  | refl => exact h
  | @tail y z _ hyz ih =>
    obtain ⟨⟨s, _, rfl⟩, _⟩ := mem_lockstepNext.mp hyz
    ext w
    rw [← cons_mem_wordsAt hdetD, ← cons_mem_wordsAt hdetE, ih]

theorem wordsAt_eq_iff {alphabet : Alphabet} (hdetD : Deterministic D.Step)
    (hdetE : Deterministic E.Step) (hD : ∀ p s q, D.Step p s q → s ∈ alphabet)
    (hE : ∀ p s q, E.Step p s q → s ∈ alphabet) (x : Lockstep) :
    D.wordsAt x.1 = E.wordsAt x.2 ↔
      ∀ y, Leads (D.lockstepNext E alphabet) x y → D.acceptsAt y.1 = E.acceptsAt y.2 := by
  constructor
  · intro h y hy
    have hwords := wordsAt_eq_of_leads hdetD hdetE hy h
    rw [Bool.eq_iff_iff, ← nil_mem_wordsAt hdetD, ← nil_mem_wordsAt hdetE, hwords]
  · intro h
    ext w
    induction w generalizing x with
    | nil => rw [nil_mem_wordsAt hdetD, nil_mem_wordsAt hdetE, h x .refl]
    | cons s w ih =>
      rw [cons_mem_wordsAt hdetD, cons_mem_wordsAt hdetE]
      by_cases hnone : (D.advance s x.1, E.advance s x.2) = (none, none)
      · obtain ⟨hp, hq⟩ := Prod.mk.inj hnone
        simp [hp, hq]
      · have hnext := mem_lockstepNext_of_ne hdetD hdetE hD hE hnone
        exact ih _ fun y hy => h y (.head hnext hy)

/-! ## The exploration -/

/-- The sides that a deterministic automaton has. -/
def sides (D : FiniteAutomaton) : List (Option Nat) := none :: (List.range D.size).map some

theorem advance_mem_sides (hD : D.WellFormed) (hdet : Deterministic D.Step) (p : Option Nat)
    (s : Symbol) : D.advance s p ∈ D.sides := by
  cases hr : D.advance s p with
  | none => simp [sides]
  | some r =>
    obtain ⟨_, _, hs⟩ := (advance_eq_some_iff hdet).mp hr
    simp [sides, hD.target_lt hs]

/-- The pairs explored are those that the initial states lead to. -/
theorem mem_explore_lockstepNext {alphabet : Alphabet} (hD : D.WellFormed) (hE : E.WellFormed)
    (hdetD : Deterministic D.Step) (hdetE : Deterministic E.Step) {y : Lockstep} :
    y ∈ explore (D.lockstepNext E alphabet) ((D.size + 1) * (E.size + 1))
        [(some D.initial, some E.initial)] ↔
      Leads (D.lockstepNext E alphabet) (some D.initial, some E.initial) y := by
  have hU : ∀ x ∈ D.sides ×ˢ E.sides, ∀ y ∈ D.lockstepNext E alphabet x,
      y ∈ D.sides ×ˢ E.sides := by
    intro x _ y hy
    obtain ⟨⟨s, _, rfl⟩, _⟩ := mem_lockstepNext.mp hy
    exact List.mem_product.mpr
      ⟨advance_mem_sides hD hdetD x.1 s, advance_mem_sides hE hdetE x.2 s⟩
  have hsize : (D.sides ×ˢ E.sides).length ≤ (D.size + 1) * (E.size + 1) := by
    rw [List.length_product]
    simp [sides]
  rw [mem_explore hU hsize (by simp [sides, hD.initial_lt, hE.initial_lt])]
  simp

/-- Automata are found equivalent if and only if the same words lead on from their initial
states. -/
theorem equivalent_iff_wordsFrom_eq (hA : A.Labelled) (hB : B.Labelled) :
    A.equivalent B = true ↔ A.wordsFrom A.initial = B.wordsFrom B.initial := by
  have hdetA := deterministic_determinize hA.wellFormed
  have hdetB := deterministic_determinize hB.wellFormed
  have halphabetA : ∀ p s q, A.determinize.Step p s q →
      s ∈ A.determinize.alphabet.union B.determinize.alphabet := fun p s q hs =>
    SortedSet.mem_union.mpr (.inl (mem_alphabet_of_step_determinize hA.wellFormed hs))
  have halphabetB : ∀ p s q, B.determinize.Step p s q →
      s ∈ A.determinize.alphabet.union B.determinize.alphabet := fun p s q hs =>
    SortedSet.mem_union.mpr (.inr (mem_alphabet_of_step_determinize hB.wellFormed hs))
  rw [← wordsFrom_determinize hA, ← wordsFrom_determinize hB]
  refine Iff.trans ?_ (wordsAt_eq_iff hdetA hdetB halphabetA halphabetB
    (some A.determinize.initial, some B.determinize.initial)).symm
  simp only [equivalent, List.all_eq_true, beq_iff_eq]
  simp only [mem_explore_lockstepNext (wellFormed_determinize hA.wellFormed)
    (wellFormed_determinize hB.wellFormed) hdetA hdetB]

/-- Automata are found equivalent if and only if they accept the same words without epsilon. -/
theorem equivalent_iff (hA : A.Assembled) (hB : B.Assembled) :
    A.equivalent B = true ↔ ∀ w : Word, w.Plain → A.accepts w = B.accepts w := by
  rw [forall_plain_accepts_eq_iff hA.wellFormed hB.wellFormed]
  exact equivalent_iff_wordsFrom_eq hA.labelled hB.labelled

/-- Words of one symbol, by a free edge and with two ways to go on. -/
def branching : Parts Nat :=
  ⟨0, [⟨0, "", false, Table.ofEdges [(.epsilon, 1), (.literal "a", 0)]⟩,
    ⟨1, "", true, Table.ofEdges [(.literal "a", 0), (.literal "a", 1)]⟩], ∅⟩

/-- The same words over two more symbols, one of which leads into a trap. -/
def trapping : Parts Nat :=
  ⟨1, [⟨0, "", false, Table.ofEdges [(.literal "a", 0), (.literal "b", 0)]⟩,
    ⟨1, "", true, Table.ofEdges [(.literal "a", 1), (.literal "b", 0)]⟩],
    SortedSet.ofList [.literal "c"]⟩

theorem equivalent_branching_trapping :
    branching.automaton.Assembled ∧ trapping.automaton.Assembled ∧
      branching.automaton.equivalent trapping.automaton = true ∧
      ∀ w : Word, w.Plain → branching.automaton.accepts w = trapping.automaton.accepts w := by
  have hA : branching.automaton.Assembled := ⟨branching, rfl⟩
  have hB : trapping.automaton.Assembled := ⟨trapping, rfl⟩
  have h : branching.automaton.equivalent trapping.automaton = true := by decide +kernel
  exact ⟨hA, hB, h, (equivalent_iff hA hB).mp h⟩

end Acceptors.Automaton
