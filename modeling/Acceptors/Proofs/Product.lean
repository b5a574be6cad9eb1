import Acceptors.Automaton.Graph
import Acceptors.Proofs.Determinize

/-!
The product of two automata. The pairs of states bound the exploration (`bounded_pairs`), and an
edge of the product is a pair of edges on one symbol. Main statements: `Labelled.intersection`,
`mem_wordsFrom_intersection`, the product has the words that both automata have, and
`accepts_intersection`.
-/

namespace Acceptors.Automaton

variable {A B : FiniteAutomaton}

/-- A pair has an edge where both states have one. -/
theorem step_pairs {p q x y : Nat} {s : Symbol} :
    (A.pairs B).Step (p, q) s (x, y) ↔ A.Step p s x ∧ B.Step q s y := by
  simp only [Graph.Step, pairs, List.mem_flatMap, List.mem_map, Prod.exists, Prod.mk.injEq]
  constructor
  · rintro ⟨s, x, hx, y, hy, rfl, rfl, rfl⟩
    exact ⟨mem_edges.mp hx, hy⟩
  · rintro ⟨hx, hy⟩
    exact ⟨s, x, mem_edges.mpr hx, y, hy, rfl, rfl, rfl⟩

/-- A pair has the words that both states have. -/
theorem mem_wordsFrom_pairs (hA : ∀ p q, ¬ A.Step p .epsilon q) (hB : ∀ p q, ¬ B.Step p .epsilon q)
    {p q : Nat} {w : Word} :
    w ∈ (A.pairs B).wordsFrom (p, q) ↔ w ∈ A.wordsFrom p ∧ w ∈ B.wordsFrom q := by
  have hpairs (x y : Nat × Nat) : ¬ (A.pairs B).Step x .epsilon y := fun h =>
    hA x.1 y.1 (step_pairs.mp h).1
  induction w generalizing p q with
  | nil =>
    rw [Graph.wordsFrom, nil_mem_wordsTo hpairs, nil_mem_wordsFrom hA, nil_mem_wordsFrom hB]
    simp [pairs]
  | cons s w ih =>
    rw [Graph.wordsFrom, cons_mem_wordsTo hpairs, wordsFrom, cons_mem_wordsTo hA, wordsFrom,
      cons_mem_wordsTo hB]
    constructor
    · rintro ⟨⟨x, y⟩, hs, hw⟩
      obtain ⟨hx, hy⟩ := step_pairs.mp hs
      obtain ⟨hwx, hwy⟩ := ih.mp hw
      exact ⟨⟨x, hx, hwx⟩, y, hy, hwy⟩
    · rintro ⟨⟨x, hx, hwx⟩, y, hy, hwy⟩
      exact ⟨(x, y), step_pairs.mpr ⟨hx, hy⟩, ih.mpr ⟨hwx, hwy⟩⟩

theorem bounded_pairs (hA : A.WellFormed) (hB : B.WellFormed) :
    (A.pairs B).Bounded (A.size * B.size) := by
  refine ⟨List.range A.size ×ˢ List.range B.size, ?_, ?_, ?_⟩
  · rw [List.length_product, List.length_range, List.length_range]
  · exact List.mem_product.mpr ⟨List.mem_range.mpr hA.initial_lt, List.mem_range.mpr hB.initial_lt⟩
  · rintro ⟨p, q⟩ _ s ⟨x, y⟩ hs
    obtain ⟨hx, hy⟩ := step_pairs.mp hs
    exact List.mem_product.mpr
      ⟨List.mem_range.mpr (hA.target_lt hx), List.mem_range.mpr (hB.target_lt hy)⟩

theorem bounded_pairs_epsilonFree (hA : A.WellFormed) (hB : B.WellFormed) :
    (A.epsilonFree.pairs B.epsilonFree).Bounded (A.size * B.size) := by
  rw [← size_epsilonFree (A := A), ← size_epsilonFree (A := B)]
  exact bounded_pairs hA.epsilonFree hB.epsilonFree

theorem lists_pairs (hA : A.WellFormed) (hB : B.WellFormed) :
    (A.epsilonFree.pairs B.epsilonFree).Lists
      ((A.epsilonFree.pairs B.epsilonFree).nodes (A.size * B.size)) :=
  (bounded_pairs_epsilonFree hA hB).lists_nodes

theorem intersection_eq_numbered (A B : FiniteAutomaton) :
    A.intersection B = (A.epsilonFree.pairs B.epsilonFree).numbered
      ((A.epsilonFree.pairs B.epsilonFree).nodes (A.size * B.size)) (A.alphabet.union B.alphabet) :=
  Graph.toAutomaton_eq_numbered _ _ _

theorem alphabet_intersection (A B : FiniteAutomaton) :
    (A.intersection B).alphabet = A.alphabet.union B.alphabet := rfl

theorem mem_wordsFrom_intersection (hA : A.WellFormed) (hB : B.WellFormed) {w : Word} :
    w ∈ (A.intersection B).wordsFrom (A.intersection B).initial ↔
      w ∈ A.wordsFrom A.initial ∧ w ∈ B.wordsFrom B.initial := by
  have hlists := lists_pairs hA hB
  rw [← wordsFrom_epsilonFree hA, ← wordsFrom_epsilonFree hB, ← initial_epsilonFree (A := A),
    ← initial_epsilonFree (A := B),
    ← mem_wordsFrom_pairs not_step_epsilon_epsilonFree not_step_epsilon_epsilonFree,
    intersection_eq_numbered]
  exact Set.ext_iff.mp (hlists.wordsFrom_numbered hlists.start) w

/-- The product is labelled by the symbols of both alphabets. -/
theorem Labelled.intersection (hA : A.Labelled) (hB : B.Labelled) :
    (A.intersection B).Labelled where
  wellFormed := by
    rw [intersection_eq_numbered]
    exact (lists_pairs hA.wellFormed hB.wellFormed).wellFormed_numbered
  mem_alphabet {i j s} hs hne := by
    rw [intersection_eq_numbered] at hs
    obtain ⟨⟨p, q⟩, _, ⟨x, y⟩, _, _, _, hpair⟩ :=
      (lists_pairs hA.wellFormed hB.wellFormed).exists_of_step hs
    obtain ⟨hx, _⟩ := step_pairs.mp hpair
    rw [alphabet_intersection, SortedSet.mem_union]
    exact .inl (alphabet_epsilonFree (A := A) ▸ mem_alphabet_of_step_epsilonFree hA p s x hx)

theorem exists_walk_intersection (hA : A.WellFormed) (hB : B.WellFormed) {i : Nat}
    (hi : i < (A.intersection B).size) :
    ∃ w, Walk (A.intersection B).Step (A.intersection B).initial w i := by
  rw [intersection_eq_numbered] at hi ⊢
  exact (bounded_pairs_epsilonFree hA hB).exists_walk_numbered hi

/-- The product accepts what both automata accept, and all its states are reachable. -/
theorem accepts_intersection (hA : A.Assembled) (hB : B.Assembled) :
    (∀ w : Word, w.Plain →
        ((A.intersection B).accepts w = true ↔ A.accepts w = true ∧ B.accepts w = true)) ∧
      ∀ i < (A.intersection B).size, ∃ w,
      Walk (A.intersection B).Step (A.intersection B).initial w i := by
  refine ⟨fun w hw => ?_, fun i hi => exists_walk_intersection hA.wellFormed hB.wellFormed hi⟩
  rw [accepts_iff (hA.labelled.intersection hB.labelled).wellFormed hw,
    accepts_iff hA.wellFormed hw,
    accepts_iff hB.wellFormed hw, mem_wordsFrom_intersection hA.wellFormed hB.wellFormed]

/-- Words of even length over three letters. -/
def paired : Parts Nat :=
  ⟨0, [⟨0, "", true, Table.ofEdges [(.literal "a", 1), (.literal "b", 1), (.literal "c", 1)]⟩,
    ⟨1, "", false, Table.ofEdges [(.literal "a", 0), (.literal "b", 0), (.literal "c", 0)]⟩], ∅⟩

theorem accepts_intersection_trailing_paired :
    trailing.automaton.Assembled ∧ paired.automaton.Assembled ∧
      Word.Plain (Word.ofText "abab") ∧ trailing.automaton.accepts (Word.ofText "abab") = true ∧
      paired.automaton.accepts (Word.ofText "abab") = true ∧
      (trailing.automaton.intersection paired.automaton).accepts (Word.ofText "abab") = true ∧
      Word.Plain (Word.ofText "bab") ∧ paired.automaton.accepts (Word.ofText "bab") = false ∧
      ¬ (trailing.automaton.intersection paired.automaton).accepts (Word.ofText "bab") = true ∧
      6 < (trailing.automaton.intersection paired.automaton).size ∧
      ∃ w, Walk (trailing.automaton.intersection paired.automaton).Step 0 w 6 := by
  have hA : trailing.automaton.Assembled := ⟨trailing, rfl⟩
  have hB : paired.automaton.Assembled := ⟨paired, rfl⟩
  have hw : Word.Plain (Word.ofText "abab") := by decide
  have haccepts : trailing.automaton.accepts (Word.ofText "abab") = true := by decide +kernel
  have haccepts' : paired.automaton.accepts (Word.ofText "abab") = true := by decide +kernel
  have hodd : Word.Plain (Word.ofText "bab") := by decide
  have hrejects : paired.automaton.accepts (Word.ofText "bab") = false := by decide +kernel
  have hsize : 6 < (trailing.automaton.intersection paired.automaton).size := by decide +kernel
  obtain ⟨hboth, hreachable⟩ := accepts_intersection hA hB
  exact ⟨hA, hB, hw, haccepts, haccepts', (hboth _ hw).mpr ⟨haccepts, haccepts'⟩, hodd, hrejects,
    fun h => Bool.false_ne_true (hrejects.symm.trans ((hboth _ hodd).mp h).2), hsize,
      hreachable 6 hsize⟩

end Acceptors.Automaton
