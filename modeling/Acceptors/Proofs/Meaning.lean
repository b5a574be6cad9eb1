import Acceptors.Description
import Acceptors.Proofs.Bisimulation
import Acceptors.Proofs.Canonical
import Acceptors.Proofs.Complement
import Acceptors.Proofs.Product
import Acceptors.Proofs.Regex.Names

/-!
What an automaton stands for: its words and its alphabet. Most operations keep both
(`Denotes.recasts`), and automata that stand for the same have one minimal form
(`Denotes.shape_minimal_eq`).
-/

namespace Acceptors

/-- A language over an alphabet. -/
abbrev Meaning : Type := WordSet Symbol × Alphabet

namespace Automaton

variable {A B : FiniteAutomaton} {m : Meaning}

/-! ## Labels -/

theorem Labelled.withoutEpsilon (hA : A.Labelled) : A.withoutEpsilon.Labelled where
  wellFormed := hA.wellFormed.withoutEpsilon
  mem_alphabet hs hne := by
    obtain ⟨_, _, p', _, hs⟩ := step_withoutEpsilon.mp hs
    exact hA.mem_alphabet hs hne

theorem Labelled.canonical (hA : A.Labelled) : A.canonical.Labelled where
  wellFormed := wellFormed_canonical hA.wellFormed
  mem_alphabet hs hne := by
    rw [canonical_eq_numbered] at hs
    obtain ⟨p, _, q, _, _, _, hs⟩ := (lists_graph hA.wellFormed).exists_of_step hs
    exact hA.mem_alphabet (step_graph.mp hs) hne

theorem Labelled.minimize (hA : A.Labelled) (hdet : Deterministic A.Step) :
    A.minimize.Labelled where
  wellFormed := wellFormed_minimize hA hdet
  mem_alphabet {p q s} hs hne := by
    by_cases h : A.initial ∈ A.productive
    · exact (reduced_minimize hA hdet h).labelled.mem_alphabet hs hne
    · exact absurd hs (not_step_of_not_productive h p q s)

/-! ## Intact automata -/

namespace Intact

theorem withoutEpsilon (hA : A.Intact) : A.withoutEpsilon.Intact :=
  ⟨hA.toLabelled.withoutEpsilon, hA.indexed.withoutEpsilon⟩

theorem epsilonFree (hA : A.Intact) : A.epsilonFree.Intact := by
  unfold Automaton.epsilonFree
  split
  · exact hA.withoutEpsilon
  · exact hA

theorem determinize (hA : A.Intact) : A.determinize.Intact :=
  ⟨hA.toLabelled.determinize, indexed_determinize A⟩

theorem minimize (hA : A.Intact) (hdet : Deterministic A.Step) : A.minimize.Intact :=
  ⟨hA.toLabelled.minimize hdet, indexed_minimize A⟩

theorem minimal (hA : A.Intact) : A.determinize.minimize.Intact :=
  hA.determinize.minimize (deterministic_determinize hA.wellFormed)

theorem canonical (hA : A.Intact) : A.canonical.Intact :=
  ⟨hA.toLabelled.canonical, indexed_canonical A⟩

theorem complete (hA : A.Intact) : A.complete.Intact :=
  ⟨hA.toLabelled.complete, hA.indexed.complete⟩

theorem complement (hA : A.Intact) : A.complement.Intact :=
  ⟨hA.toLabelled.complement, hA.indexed.complement⟩

theorem mergeBisimilar (hA : A.Intact) : A.mergeBisimilar.Intact :=
  ⟨hA.toLabelled.mergeBisimilar, indexed_mergeBisimilar A⟩

theorem intersection (hA : A.Intact) (hB : B.Intact) : (A.intersection B).Intact :=
  ⟨hA.toLabelled.intersection hB.toLabelled, Graph.indexed_toAutomaton _ _ _⟩

end Intact

/-! ## Alphabets -/

theorem alphabet_canonical (A : FiniteAutomaton) : A.canonical.alphabet = A.alphabet := rfl

theorem alphabet_classes (A : FiniteAutomaton) : A.classes.alphabet = A.alphabet := rfl

theorem alphabet_trim (A : FiniteAutomaton) : A.trim.alphabet = A.alphabet := rfl

theorem alphabet_minimize (A : FiniteAutomaton) : A.minimize.alphabet = A.alphabet := by
  by_cases h : A.initial ∈ A.productive
  · rw [minimize_of_productive h, alphabet_canonical, alphabet_classes, alphabet_trim]
  · rw [minimize_of_not_productive h]

/-! ## Meanings -/

/-- The words that an automaton accepts, and its alphabet. -/
def meaning (A : FiniteAutomaton) : Meaning := (A.wordsFrom A.initial, A.alphabet)

/-- The automaton is lettered and stands for the language. -/
structure Denotes (A : FiniteAutomaton) (m : Meaning) : Prop where
  lettered : A.Lettered
  meaning : A.meaning = m

theorem Lettered.denotes (h : A.Lettered) : A.Denotes A.meaning := ⟨h, rfl⟩

/-- What keeps words and alphabet keeps what the automaton stands for. -/
theorem Denotes.of_eq (h : A.Denotes m) (hB : B.Intact)
    (hwords : B.wordsFrom B.initial = A.wordsFrom A.initial) (halphabet : B.alphabet = A.alphabet) :
    B.Denotes m where
  lettered := ⟨hB, halphabet ▸ h.lettered.literal⟩
  meaning := by
    rw [Automaton.meaning, hwords, halphabet]
    exact h.meaning

/-- Automata that stand for one language accept the same words over one alphabet. -/
theorem Denotes.accepts_eq (hA : A.Denotes m) (hB : B.Denotes m) :
    A.alphabet = B.alphabet ∧ ∀ w : Word, w.Plain → A.accepts w = B.accepts w := by
  obtain ⟨hwords, halphabet⟩ := Prod.mk.inj (hA.meaning.trans hB.meaning.symm)
  exact ⟨halphabet,
    (forall_plain_accepts_eq_iff hA.lettered.wellFormed hB.lettered.wellFormed).mpr hwords⟩

namespace Denotes

theorem withoutEpsilon (h : A.Denotes m) : A.withoutEpsilon.Denotes m :=
  h.of_eq h.lettered.toIntact.withoutEpsilon
    (wordsFrom_withoutEpsilon h.lettered.wellFormed _) rfl

theorem determinize (h : A.Denotes m) : A.determinize.Denotes m :=
  h.of_eq h.lettered.toIntact.determinize
    (wordsFrom_determinize h.lettered.toLabelled) rfl

theorem minimize (h : A.Denotes m) (hdet : Deterministic A.Step) : A.minimize.Denotes m :=
  h.of_eq (h.lettered.toIntact.minimize hdet)
    (wordsFrom_minimize h.lettered.toLabelled hdet) (alphabet_minimize A)

theorem complete (h : A.Denotes m) : A.complete.Denotes m := by
  refine h.of_eq h.lettered.toIntact.complete ?_ alphabet_complete
  rw [initial_complete, wordsFrom_complete]

theorem canonical (h : A.Denotes m) : A.canonical.Denotes m :=
  h.of_eq h.lettered.toIntact.canonical
    (wordsFrom_canonical h.lettered.wellFormed) rfl

theorem mergeBisimilar (h : A.Denotes m) : A.mergeBisimilar.Denotes m :=
  h.of_eq h.lettered.toIntact.mergeBisimilar
    (wordsFrom_mergeBisimilar h.lettered.wellFormed h.lettered.wellFormed.initial_lt) rfl

/-- The minimal automaton that is computed of any automaton. -/
theorem minimal (h : A.Denotes m) : A.determinize.minimize.Denotes m :=
  h.determinize.minimize (deterministic_determinize h.lettered.wellFormed)

/-- Automata that stand for one language have one minimal form, up to the names of its states. -/
theorem shape_minimal_eq (hA : A.Denotes m) (hB : B.Denotes m) :
    A.determinize.minimize.shape = B.determinize.minimize.shape := by
  obtain ⟨hwords, _⟩ := Prod.mk.inj (hA.determinize.meaning.trans hB.determinize.meaning.symm)
  exact shape_minimize_eq_of_wordsFrom_eq hA.determinize.lettered.toLabelled
    hB.determinize.lettered.toLabelled (deterministic_determinize hA.lettered.wellFormed)
    (deterministic_determinize hB.lettered.wellFormed) hwords

end Denotes

theorem Lettered.complement (hA : A.Lettered) : A.complement.Lettered where
  toIntact := hA.toIntact.complement
  literal := by
    rw [show A.complement.alphabet = A.alphabet from alphabet_complete]
    exact hA.literal

theorem Lettered.intersection (hA : A.Lettered) (hB : B.Lettered) :
    (A.intersection B).Lettered where
  toIntact := hA.toIntact.intersection hB.toIntact
  literal s hs := by
    rcases SortedSet.mem_union.mp hs with hs | hs
    · exact hA.literal s hs
    · exact hB.literal s hs

end Automaton

/-! ## Expressions and parts -/

namespace Expression

theorem alphabet_toAutomaton (e : Expression) : e.toAutomaton.alphabet = e.alphabet := rfl

/-- A tree that denotes the words of an automaton accepts what the automaton accepts. -/
theorem accepts_eq_of_language {e : Expression} {A : FiniteAutomaton} (hA : A.WellFormed)
    (h : e.regex.language = A.wordsFrom A.initial) {w : Word} (hw : w.Plain) :
    e.accepts w = A.accepts w := by
  refine Bool.eq_iff_iff.mpr ?_
  calc e.accepts w = true
      ↔ w ∈ e.regex.language := Regex.accepts_toAutomaton_iff _ _ hw
    _ ↔ w ∈ A.wordsFrom A.initial := by rw [h]
    _ ↔ A.accepts w = true := (Automaton.accepts_iff hA hw).symm

/-- The expression of an automaton stands for the same language. -/
theorem denotes_ofAutomaton {A : FiniteAutomaton} {m : Meaning} (h : A.Denotes m) :
    (ofAutomaton A).toAutomaton.Denotes m := by
  refine h.of_eq (covered_ofAutomaton h.lettered).lettered_toAutomaton.toIntact ?_
    (alphabet_toAutomaton _)
  rw [wordsFrom_toAutomaton, language_ofAutomaton h.lettered.wellFormed h.lettered.literalEdges]

end Expression

namespace Automaton

/-- The automaton is made of another by an operation that keeps its language. -/
inductive Recasts : FiniteAutomaton → FiniteAutomaton → Prop
  | same (A : FiniteAutomaton) : Recasts A A
  | withoutEpsilon (A : FiniteAutomaton) : Recasts A A.withoutEpsilon
  | determinize (A : FiniteAutomaton) : Recasts A A.determinize
  | minimize {A : FiniteAutomaton} : A.isDeterministic = true → Recasts A A.minimize
  | complete (A : FiniteAutomaton) : Recasts A A.complete
  | canonical (A : FiniteAutomaton) : Recasts A A.canonical
  | mergeBisimilar (A : FiniteAutomaton) : Recasts A A.mergeBisimilar
  | expression (A : FiniteAutomaton) : Recasts A (Expression.ofAutomaton A).toAutomaton

theorem Denotes.recasts {A B : FiniteAutomaton} {m : Meaning} (hA : A.Denotes m) (h : A.Recasts B) :
    B.Denotes m := by
  cases h with
  | same => exact hA
  | withoutEpsilon => exact hA.withoutEpsilon
  | determinize => exact hA.determinize
  | minimize hdet => exact hA.minimize (deterministic_of_isDeterministic hdet)
  | complete => exact hA.complete
  | canonical => exact hA.canonical
  | mergeBisimilar => exact hA.mergeBisimilar
  | expression => exact Expression.denotes_ofAutomaton hA

end Automaton

namespace Parts

/-- Parts over literals are assembled to a lettered automaton. -/
theorem lettered_of_assembleFinite {p : Parts Nat} {A : FiniteAutomaton}
    (h : p.assembleFinite = .ok A)
    (halphabet : ∀ s ∈ p.alphabet, s.isLiteral = true) : A.Lettered where
  toIntact := Automaton.Assembled.intact ⟨p, h⟩
  literal s hs := by
    obtain ⟨_, _, _, _, rfl⟩ := assembleFinite_eq_ok_iff.mp h
    rcases SortedSet.mem_foldl_insert.mp hs with hs | hs
    · exact Symbol.isLiteral_iff.mp (halphabet s hs)
    · exact Symbol.isLiteral_iff.mp (List.mem_filter.mp hs).2

end Parts

/-- A description gives its automaton literals only. -/
theorem Description.lettered_of_toFinite {d : Description} {A : FiniteAutomaton}
    (h : d.toFinite = .ok A) : A.Lettered := by
  unfold toFinite at h
  split at h
  · cases h
  · exact Parts.lettered_of_assembleFinite h fun s hs =>
      (List.mem_filter.mp (SortedSet.mem_ofList.mp hs)).2

end Acceptors
