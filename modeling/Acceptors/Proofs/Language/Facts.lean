import Acceptors.Language.Link
import Acceptors.Proofs.Checked
import Acceptors.Proofs.Language.Registry
import Acceptors.Proofs.Shape

/-!
Facts that are true of a language. A fact that is stored once for a language answers for every
automaton of it (`Language.Faithful`); recalling a fact stores none that is false, and gives what
would have been computed (`Registry.Faithful.recallMinimal`, `recallPumpLength`, `recallMonoid`).
-/

namespace Acceptors

open Automaton

/-- The minimal automaton of some automaton of the language, up to the names of its states. -/
structure Automaton.MinimalFor (D : FiniteAutomaton) (m : Meaning) : Prop where
  denotes : D.Denotes m
  shape : ∀ A : FiniteAutomaton, A.Denotes m → D.shape = A.determinize.minimize.shape

/-- Each fact stored is what any automaton of the language gives. -/
structure Language.Faithful (l : Language) (m : Meaning) : Prop where
  minimalDfa : ∀ D, l.minimalDfa = some D → D.MinimalFor m
  pumpLength : ∀ k, l.pumpLength = some k → ∀ A : FiniteAutomaton, A.Denotes m →
    k = A.determinize.minimize.size
  syntacticMonoid : ∀ M, l.syntacticMonoid = some M → ∀ A : FiniteAutomaton, A.Denotes m →
    M = .ofAutomaton A.determinize.minimize

namespace Automaton

variable {A D : FiniteAutomaton} {m : Meaning}

theorem Denotes.minimalFor (h : A.Denotes m) : A.determinize.minimize.MinimalFor m where
  denotes := h.minimal
  shape _ hB := h.shape_minimal_eq hB

namespace MinimalFor

theorem alphabet_eq (h : D.MinimalFor m) (hA : A.Denotes m) :
    D.alphabet = A.determinize.minimize.alphabet :=
  (h.denotes.accepts_eq hA.minimal).1

theorem size_eq (h : D.MinimalFor m) (hA : A.Denotes m) : D.size = A.determinize.minimize.size :=
  size_eq_of_shape_eq (h.shape A hA)

theorem monoid_eq (h : D.MinimalFor m) (hA : A.Denotes m) :
    TransformationMonoid.ofAutomaton D = .ofAutomaton A.determinize.minimize :=
  TransformationMonoid.ofAutomaton_eq_of_shape_eq (h.shape A hA) (h.alphabet_eq hA)

theorem isDeterministic (h : D.MinimalFor m) : D.isDeterministic = true := by
  have hD := h.denotes
  rw [isDeterministic_eq_of_shape_eq (h.shape D hD)]
  exact isDeterministic_minimize hD.determinize.lettered.toLabelled
    (deterministic_determinize hD.lettered.wellFormed)

end MinimalFor

end Automaton

namespace Language.Faithful

variable {l : Language} {m : Meaning} {A D : FiniteAutomaton}

/-- A language without facts. -/
theorem ofAlphabet (alphabet : Alphabet) (m : Meaning) :
    (Language.ofAlphabet alphabet).Faithful m where
  minimalDfa := nofun
  pumpLength := nofun
  syntacticMonoid := nofun

theorem learn_minimalDfa (h : l.Faithful m) (hD : D.MinimalFor m) :
    (l.learn (.minimalDfa D)).Faithful m where
  minimalDfa E hE := by
    rcases Option.or_eq_some_iff.mp hE with hE | ⟨_, hE⟩
    · exact h.minimalDfa E hE
    · cases hE
      exact hD
  pumpLength := h.pumpLength
  syntacticMonoid := h.syntacticMonoid

theorem learn_pumpLength (h : l.Faithful m) (hD : D.MinimalFor m) :
    (l.learn (.pumpLength D.size)).Faithful m where
  minimalDfa := h.minimalDfa
  pumpLength k hk A hA := by
    rcases Option.or_eq_some_iff.mp hk with hk | ⟨_, hk⟩
    · exact h.pumpLength k hk A hA
    · cases hk
      exact hD.size_eq hA
  syntacticMonoid := h.syntacticMonoid

theorem learn_syntacticMonoid (h : l.Faithful m) (hD : D.MinimalFor m) :
    (l.learn (.syntacticMonoid (.ofAutomaton D))).Faithful m where
  minimalDfa := h.minimalDfa
  pumpLength := h.pumpLength
  syntacticMonoid M hM A hA := by
    rcases Option.or_eq_some_iff.mp hM with hM | ⟨_, hM⟩
    · exact h.syntacticMonoid M hM A hA
    · cases hM
      exact hD.monoid_eq hA

end Language.Faithful

/-! ## Registries of true facts -/

/-- Ids stand for languages, and the facts stored under them are true of these. -/
structure Registry.Faithful (r : Registry) (n : Nat) (μ : LanguageId → Meaning) : Prop where
  sound : r.Sound n
  language : ∀ id l, r.find? id = some l → l.Faithful (μ id)

namespace Registry.Faithful

variable {r : Registry} {n : Nat} {μ : LanguageId → Meaning} {id : LanguageId} {A : FiniteAutomaton}

theorem empty (μ : LanguageId → Meaning) : Registry.empty.Faithful 0 μ where
  sound := sound_empty
  language id l hl := by simp [Registry.find?, Registry.empty] at hl

/-- A new language without facts may be any. -/
theorem register (h : r.Faithful n μ) (alphabet : Alphabet) (m : Meaning) :
    (r.register (.ofAlphabet alphabet)).1.Faithful (n + 1)
      (Function.update μ (r.register (.ofAlphabet alphabet)).2 m) where
  sound := h.sound.register _
  language id l hl := by
    rw [h.sound.find?_register] at hl
    split at hl
    · cases hl
      exact .ofAlphabet alphabet _
    · rename_i hne
      rw [Function.update_of_ne hne]
      exact h.language id l hl

/-- The ids issued before keep their languages. -/
theorem issued_register (h : r.Faithful n μ) (l : Language) (m : Meaning) (hid : r.Issued id) :
    (r.register l).1.Issued id ∧ Function.update μ (r.register l).2 m id = μ id := by
  refine ⟨(h.sound.issued_register l).mpr (.inr hid), Function.update_of_ne ?_ _ _⟩
  rintro rfl
  exact h.sound.not_issued_register l hid

theorem release (h : r.Faithful n μ) (hn : n < 2 ^ 32) (id : LanguageId) :
    (r.release id).Faithful n μ where
  sound := h.sound.release hn id
  language key l hl := by
    rw [Registry.find?_release h.sound] at hl
    split at hl
    · cases hl
    · exact h.language key l hl

theorem learn {fact : Fact} (h : r.Faithful n μ)
    (hfact : ∀ l : Language, l.Faithful (μ id) → (l.learn fact).Faithful (μ id)) :
    (r.learn id fact).Faithful n μ where
  sound := h.sound.modify id _
  language key l hl := by
    rw [Registry.learn, Registry.find?_modify h.sound] at hl
    split at hl
    · rename_i heq
      obtain ⟨l', hl', rfl⟩ := Option.map_eq_some_iff.mp hl
      rw [heq]
      exact hfact l' (h.language id l' hl')
    · exact h.language key l hl

/-- The minimal automaton recalled is one of the language, and what is stored is true. -/
theorem recallMinimal (h : r.Faithful n μ) (hA : A.Denotes (μ id)) :
    (recallMinimal r id A).1.Faithful n μ ∧
      ∃ D, (recallMinimal r id A).2 = .ok D ∧ D.MinimalFor (μ id) := by
  unfold Automaton.recallMinimal
  split
  · rename_i D hD
    obtain ⟨l, hl, hD⟩ := Option.bind_eq_some_iff.mp hD
    have hminimal := (h.language id l hl).minimalDfa D hD
    have hlettered := hminimal.denotes.lettered
    exact ⟨h, D, Checked.fromParts_parts hlettered.wellFormed.initial_lt hlettered.indexed,
      hminimal⟩
  · rw [Checked.minimal_eq_ok hA.lettered.toIntact]
    exact ⟨h.learn fun l hl => hl.learn_minimalDfa hA.minimalFor, _, rfl, hA.minimalFor⟩

theorem recallPumpLength (h : r.Faithful n μ) (hA : A.Denotes (μ id)) :
    (recallPumpLength r id A).1.Faithful n μ ∧
      (recallPumpLength r id A).2 = .ok A.determinize.minimize.size := by
  unfold Automaton.recallPumpLength
  split
  · rename_i k hk
    obtain ⟨l, hl, hk⟩ := Option.bind_eq_some_iff.mp hk
    exact ⟨h, congrArg _ ((h.language id l hl).pumpLength k hk A hA)⟩
  · obtain ⟨hr, D, hD, hminimal⟩ := h.recallMinimal hA
    simp only [hD, Except.map, record]
    exact ⟨hr.learn fun l hl => hl.learn_pumpLength hminimal, congrArg _ (hminimal.size_eq hA)⟩

theorem recallMonoid (h : r.Faithful n μ) (hA : A.Denotes (μ id)) :
    (recallMonoid r id A).1.Faithful n μ ∧
      (recallMonoid r id A).2 = .ok (.ofAutomaton A.determinize.minimize) := by
  unfold Automaton.recallMonoid
  split
  · rename_i M hM
    obtain ⟨l, hl, hM⟩ := Option.bind_eq_some_iff.mp hM
    exact ⟨h, congrArg _ ((h.language id l hl).syntacticMonoid M hM A hA)⟩
  · obtain ⟨hr, D, hD, hminimal⟩ := h.recallMinimal hA
    have hmonoid := Checked.monoid_eq_ok hminimal.denotes.lettered.toIntact hminimal.isDeterministic
    simp only [hD, Except.bind, hmonoid, record]
    exact ⟨hr.learn fun l hl => hl.learn_syntacticMonoid hminimal,
      congrArg _ (hminimal.monoid_eq hA)⟩

end Registry.Faithful

end Acceptors
