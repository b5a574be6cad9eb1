import Acceptors.Proofs.Canonical
import Acceptors.Proofs.Determinize
import Acceptors.Proofs.Language.Recall
import Acceptors.Proofs.Meaning
import Acceptors.Proofs.Monoid

/-!
The syntactic monoid. In a completed reduced automaton words over the alphabet lead to every state,
and no two states have the same words (`Reduced.exists_walk_complete`,
`Reduced.separated_complete`). So two words do the same to all states if and only if each stands for
the other inside of every word. Main statement: `elementOf_syntacticMonoid_iff`.
-/

namespace Acceptors

/-- After every beginning over the alphabet the two words leave the same words to read. -/
def Exchangeable (L : WordSet Symbol) (alphabet : Alphabet) (u v : Word) : Prop :=
  ∀ x, Word.Over alphabet x → (L.leftQuotient x).leftQuotient u = (L.leftQuotient x).leftQuotient v

namespace Automaton

variable {A : FiniteAutomaton} {u v w : Word}

/-! ## Congruence -/

/-- Inside of words over the alphabet the one word stands for the other. -/
def Congruent (A : FiniteAutomaton) (u v : Word) : Prop :=
  ∀ x z, Word.Over A.alphabet x → Word.Over A.alphabet z →
    A.accepts (x ++ u ++ z) = A.accepts (x ++ v ++ z)

theorem congruent_iff (hA : A.Labelled) (he : Symbol.epsilon ∉ A.alphabet) (hu : u.Over A.alphabet)
    (hv : v.Over A.alphabet) :
    A.Congruent u v ↔ Exchangeable (A.wordsFrom A.initial) A.alphabet u v := by
  have haccepts : ∀ {x w z : Word}, x.Over A.alphabet → w.Over A.alphabet → z.Over A.alphabet →
      (A.accepts (x ++ w ++ z) = true ↔
        z ∈ ((A.wordsFrom A.initial).leftQuotient x).leftQuotient w) := by
    intro x w z hx hw hz
    have hover := Word.over_append_iff.mpr ⟨Word.over_append_iff.mpr ⟨hx, hw⟩, hz⟩
    rw [accepts_iff hA.wellFormed fun h => he (hover _ h), List.append_assoc]
    rfl
  constructor
  · intro h x hx
    ext z
    by_cases hz : Word.Over A.alphabet z
    · rw [← haccepts hx hu hz, ← haccepts hx hv hz, h x z hx hz]
    · have hnot : ∀ w, z ∉ ((A.wordsFrom A.initial).leftQuotient x).leftQuotient w := fun w hw =>
        hz (Word.over_append_iff.mp (Word.over_append_iff.mp (hA.over_of_mem_wordsFrom hw)).2).2
      exact iff_of_false (hnot u) (hnot v)
  · intro h x z hx hz
    rw [Bool.eq_iff_iff, haccepts hx hu hz, haccepts hx hv hz, h x hx]

/-! ## The completed reduced automaton -/

/-- The sink is the one state without words. -/
theorem Reduced.separated_complete (hA : A.Reduced) {p q : Nat} (hp : p < A.complete.size)
    (hq : q < A.complete.size) (h : A.wordsFrom p = A.wordsFrom q) : p = q := by
  have hlt : p < A.size ↔ q < A.size := by
    constructor
    · intro hp
      obtain ⟨w, hw⟩ := hA.productive p hp
      exact lt_of_mem_wordsFrom (h ▸ hw)
    · intro hq
      obtain ⟨w, hw⟩ := hA.productive q hq
      exact lt_of_mem_wordsFrom (h ▸ hw)
  by_cases hsize : p < A.size
  · exact hA.separated p hsize q (hlt.mp hsize) h
  · have hle := size_complete_le (A := A)
    omega

/-- Walks lead to every state, to the sink by way of a state with a missing entry. -/
theorem Reduced.exists_walk_complete (hA : A.Reduced) {p : Nat} (hp : p < A.complete.size) :
    ∃ u, Walk A.complete.Step A.initial u p := by
  by_cases hlt : p < A.size
  · obtain ⟨u, hu⟩ := hA.reachable p hlt
    exact ⟨u, walk_complete hu⟩
  · have h : A.isComplete = false := by
      rw [← Bool.not_eq_true]
      intro h
      rw [complete, if_pos h] at hp
      exact hlt hp
    have hmissing := h
    simp only [← Bool.not_eq_true, isComplete_iff, not_forall] at hmissing
    obtain ⟨q, hq, s, hs, hentry⟩ := hmissing
    obtain ⟨u, hu⟩ := hA.reachable q hq
    obtain rfl : p = A.size := by
      rw [size_complete_of h] at hp
      omega
    exact ⟨_, (walk_complete hu).append
      (Walk.edge ((step_complete h).mpr (.inr ⟨hq.le, hs, hentry, rfl⟩)))⟩

/-! ## Transformations of its states -/

section Transformations

open TransformationMonoid

variable (hA : A.Reduced) (he : Symbol.epsilon ∉ A.alphabet) (hfull : ∀ p s, ¬ A.Hollow p s)

include hA in
theorem Reduced.terminals_ne_nil : A.terminals.isEmpty = false := by
  obtain ⟨_, q, hq, _⟩ := hA.productive _ hA.wellFormed.initial_lt
  rw [List.isEmpty_eq_false_iff]
  exact List.ne_nil_of_mem (mem_terminals.mpr hq)

include hA he hfull in
/-- After a word a state has the words that began with it. -/
theorem Reduced.wordsFrom_target {q : Nat} (hq : q < A.complete.size) (hw : w.Over A.alphabet) :
    A.wordsFrom ((ofAutomaton A).target w q) = (A.wordsFrom q).leftQuotient w :=
  wordsFrom_of_walk_complete hA.deterministic he
    (walk_target hA.labelled hA.deterministic he hfull hA.terminals_ne_nil hq hw)

include hA he hfull in
/-- Two words do the same to all states if and only if each stands for the other. -/
theorem Reduced.target_eq_iff (hu : u.Over A.alphabet) (hv : v.Over A.alphabet) :
    (∀ q < (ofAutomaton A).delta.length, (ofAutomaton A).target u q = (ofAutomaton A).target v q) ↔
      Exchangeable (A.wordsFrom A.initial) A.alphabet u v := by
  have hclosed := closed_ofAutomaton hA.labelled
  have hlength := length_delta hA.terminals_ne_nil
  constructor
  · intro h x hx
    have hlt : A.initial < A.complete.size := hA.wellFormed.initial_lt.trans_le size_le_complete
    have hq : (ofAutomaton A).target x A.initial < A.complete.size :=
      hlength ▸ hclosed.target_lt hx (hlength.symm ▸ hlt)
    rw [← hA.wordsFrom_target he hfull hlt hx, ← hA.wordsFrom_target he hfull hq hu,
      ← hA.wordsFrom_target he hfull hq hv, h _ (hlength.symm ▸ hq)]
  · intro h q hq
    have hq' : q < A.complete.size := hlength ▸ hq
    obtain ⟨x, hwalk⟩ := hA.exists_walk_complete hq'
    have hx := hA.labelled.complete.over_of_walk hwalk
    rw [alphabet_complete] at hx
    have hwords := wordsFrom_of_walk_complete hA.deterministic he hwalk
    refine hA.separated_complete (hlength ▸ hclosed.target_lt hu hq)
      (hlength ▸ hclosed.target_lt hv hq) ?_
    rw [hA.wordsFrom_target he hfull hq' hu, hA.wordsFrom_target he hfull hq' hv, hwords, h x hx]

end Transformations

/-! ## The monoid of the minimal form -/

open TransformationMonoid

/-- The tables of the minimal form are made of edges. -/
theorem not_hollow_minimize (h : A.initial ∈ A.productive) (p : Nat) (s : Symbol) :
    ¬ A.minimize.Hollow p s := by
  rw [minimize_of_productive h, canonical_eq_numbered]
  exact not_hollow_of_ofEdges (Graph.table_numbered _ _ _) p s

theorem elementOf_minimize_iff (hA : A.Labelled) (hdet : Deterministic A.Step)
    (he : Symbol.epsilon ∉ A.alphabet) (hu : u.Over A.alphabet) (hv : v.Over A.alphabet) :
    (∃ t, (ofAutomaton A.minimize).elementOf u = some t ∧
      (ofAutomaton A.minimize).elementOf v = some t) ↔
      Exchangeable (A.wordsFrom A.initial) A.alphabet u v := by
  have hclosed := closed_ofAutomaton (hA.minimize hdet)
  rw [← alphabet_minimize A] at he hu hv ⊢
  rw [elementOf_eq_iff hclosed hu hv, ← wordsFrom_minimize hA hdet]
  by_cases h : A.initial ∈ A.productive
  · exact (reduced_minimize hA hdet h).target_eq_iff he (not_hollow_minimize h) hu hv
  · -- One state stands for all, and there are no words.
    have hterminals : A.minimize.terminals.isEmpty = true := by
      simp [terminals, isTerminal_of_not_productive h]
    have hone : (ofAutomaton A.minimize).delta.length = 1 := by
      rw [delta_of_isEmpty hterminals, List.length_singleton]
    have hwords := not_mem_wordsFrom_of_not_productive h A.minimize.initial
    refine iff_of_true (fun q hq => ?_) fun x _ => ?_
    · have htu := hclosed.target_lt hu hq
      have htv := hclosed.target_lt hv hq
      omega
    · ext z
      exact iff_of_false (hwords _) (hwords _)

/-- Words over the alphabet are one element of the syntactic monoid if and only if they are
congruent. -/
theorem elementOf_syntacticMonoid_iff {r : Registry} {x : Linked FiniteAutomaton}
    (hA : x.body.Assembled) (hx : x.Unknown r) :
    ∃ M, (x.syntacticMonoid r).2.2 = .ok M ∧
      ∀ u v, Word.Over x.body.alphabet u → Word.Over x.body.alphabet v →
        ((∃ t, M.elementOf u = some t ∧ M.elementOf v = some t) ↔ x.body.Congruent u v) := by
  have hdet := deterministic_determinize hA.wellFormed
  have hlabelled := hA.labelled.determinize
  refine ⟨_, Linked.syntacticMonoid_of_unknown rfl hA.intact hx, fun u v hu hv => ?_⟩
  rw [congruent_iff hA.labelled hA.epsilon_not_mem_alphabet hu hv,
    ← wordsFrom_determinize hA.labelled]
  exact elementOf_minimize_iff hlabelled hdet hA.epsilon_not_mem_alphabet hu hv

/-- The words with an even number of one symbol, with a free edge and a state that leads nowhere. -/
def even : Parts Nat :=
  ⟨2, [⟨0, "", true, Table.ofEdges [(.literal "a", 1)]⟩,
    ⟨1, "", false, Table.ofEdges [(.literal "a", 0), (.literal "a", 3)]⟩,
    ⟨2, "", false, Table.ofEdges [(.epsilon, 0)]⟩, ⟨3, "", false, ∅⟩], ∅⟩

theorem elementOf_syntacticMonoid_even :
    even.automaton.Assembled ∧ (Linked.fresh even.automaton).Unknown .empty ∧
      Word.Over even.automaton.alphabet [.literal "a", .literal "a"] ∧
      even.automaton.Congruent [] [.literal "a", .literal "a"] ∧
      ¬ even.automaton.Congruent [] [.literal "a"] := by
  have hA : even.automaton.Assembled := ⟨even, rfl⟩
  have hx := Linked.unknown_fresh .empty even.automaton
  have hone : Word.Over even.automaton.alphabet [.literal "a"] := by decide
  have htwo : Word.Over even.automaton.alphabet [.literal "a", .literal "a"] := by decide
  obtain ⟨M, hM, hiff⟩ := elementOf_syntacticMonoid_iff hA hx
  have helement : ∀ w, M.elementOf w =
      ((Linked.fresh even.automaton).syntacticMonoid .empty).2.2.toOption.bind (·.elementOf w) := by
    intro w
    rw [hM]
    rfl
  refine ⟨hA, hx, htwo, (hiff _ _ Word.over_nil htwo).mp ?_, fun h => ?_⟩
  · exact ⟨⟨[], [0, 1]⟩, by rw [helement]; decide +kernel, by rw [helement]; decide +kernel⟩
  · obtain ⟨t, ht, ht'⟩ := (hiff _ _ Word.over_nil hone).mpr h
    rw [helement] at ht ht'
    exact absurd (ht.trans ht'.symm) (by decide +kernel)

end Automaton

end Acceptors
