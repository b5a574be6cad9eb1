import Acceptors.Parts
import Acceptors.Proofs.Acceptance

/-!
What the checks on parts establish. Main statements: `Assembled.labelled`, an assembled automaton
has only symbols of its alphabet beside epsilon on its edges, and `Assembled.label`, these are
literals with names.
-/

namespace Acceptors

namespace Parts

section

variable {ε : Type} [Ord ε] [Edge ε] {p : Parts ε}

/-- A state carries its position, and its edges lead to states. -/
def Placed (p : Parts ε) (q : Numbered ε) (position : Nat) : Prop :=
  q.index = position ∧ ∀ edge ∈ q.edges, Edge.target edge.2 < p.states.length

theorem positionFault?_eq_none_iff {q : Numbered ε} {position : Nat} :
    p.positionFault? q position = none ↔ p.Placed q position := by
  unfold positionFault? Placed
  split
  · rename_i h
    simp [h]
  · rename_i h
    split
    · rename_i edge hedge
      refine ⟨fun h => absurd h (by simp), fun ⟨_, hall⟩ => ?_⟩
      have hlt := hall edge (List.mem_of_find?_eq_some hedge)
      have hle : p.states.length ≤ Edge.target edge.2 := by
        simpa using List.find?_some hedge
      omega
    · rename_i hnone
      simpa [not_not.mp h] using hnone

theorem structureFault?_eq_none_iff :
    p.structureFault? = none ↔
      (∀ i q, p.states[i]? = some q → p.Placed q i) ∧ p.initial < p.states.length := by
  have hpos : p.states.zipIdx.findSome? (fun qi => p.positionFault? qi.1 qi.2) = none ↔
      ∀ i q, p.states[i]? = some q → p.Placed q i := by
    rw [List.findSome?_eq_none_iff]
    simp only [Prod.forall, List.mem_zipIdx_iff_getElem?, positionFault?_eq_none_iff]
    exact ⟨fun h i q hq => h q i hq, fun h q i hq => h i q hq⟩
  rw [← hpos]
  unfold structureFault?
  split
  · rename_i fault hfault
    change p.states.zipIdx.findSome? (fun qi => p.positionFault? qi.1 qi.2) = some fault at hfault
    simp [hfault]
  · rename_i hnone
    change p.states.zipIdx.findSome? (fun qi => p.positionFault? qi.1 qi.2) = none at hnone
    simp [hnone]

/-- Parts of any kind that pass the checks make a well-formed automaton. -/
theorem wellFormed_of_assemble [Std.TransOrd ε] {A : Automaton ε} (h : p.assemble = .ok A) :
    A.WellFormed := by
  unfold assemble at h
  split at h
  · cases h
  · split at h
    · cases h
    · rename_i hnone
      obtain ⟨hstates, hinit⟩ := structureFault?_eq_none_iff.mp hnone
      cases h
      refine ⟨hinit, fun i s e he => ?_⟩
      rw [Automaton.next] at he
      cases hq : p.states[i]? with
      | none => simp [hq] at he
      | some q =>
        rw [hq] at he
        exact (hstates i q hq).2 (s, e) (Table.mem_edges.mpr he)

end

theorem edgeFault?_eq_none_iff {p : Parts Nat} {q : Numbered Nat} {edge : Symbol × Nat} :
    p.edgeFault? q edge = none ↔
      edge.1 = .epsilon ∨ ∃ name, name ≠ "" ∧ edge.1 = .literal name := by
  unfold edgeFault?
  split
  · rename_i h
    simp [h]
  · rename_i name h
    by_cases hn : name = "" <;> simp [h, hn]
  · rename_i h
    simp [h]

/-- The automaton that `assembleFinite` makes of parts without a fault. -/
def automaton (p : Parts Nat) : FiniteAutomaton :=
  ⟨p.initial, p.states,
    ((p.states.flatMap fun q => q.edges.map (·.1)).filter Symbol.isLiteral).foldl
      SortedSet.insert p.alphabet⟩

theorem assembleFinite_eq_ok_iff {p : Parts Nat} {A : FiniteAutomaton} :
    p.assembleFinite = .ok A ↔
      Symbol.epsilon ∉ p.alphabet ∧ Symbol.literal "" ∉ p.alphabet ∧ p.structureFault? = none ∧
        (∀ q ∈ p.states, ∀ edge ∈ q.edges, p.edgeFault? q edge = none) ∧ A = p.automaton := by
  have hedges : p.states.findSome? (fun q => q.edges.findSome? (p.edgeFault? q)) = none ↔
      ∀ q ∈ p.states, ∀ edge ∈ q.edges, p.edgeFault? q edge = none := by
    simp only [List.findSome?_eq_none_iff]
  rw [← hedges]
  unfold assembleFinite
  split
  · rename_i h
    simp [h]
  · rename_i h
    split
    · rename_i h'
      simp [h']
    · rename_i h'
      split
      · rename_i fault hfault
        simp [hfault]
      · rename_i hnone
        split
        · rename_i fault hfault
          simp [hfault]
        · rename_i hnone'
          simp only [h, h', hnone, hnone', not_false_eq_true, true_and, Except.ok.injEq]
          exact eq_comm

theorem step_automaton {p : Parts Nat} {i r : Nat} {s : Symbol} :
    p.automaton.Step i s r ↔ ∃ q, p.states[i]? = some q ∧ (s, r) ∈ q.edges := by
  unfold Automaton.Step Automaton.next automaton
  cases p.states[i]? with
  | none => simp
  | some q => simp [State.next, State.edges, Table.mem_edges]

end Parts

namespace Automaton

variable {A : FiniteAutomaton}

/-- Some parts passed the checks and were assembled to the automaton. -/
def Assembled (A : FiniteAutomaton) : Prop := ∃ p : Parts Nat, p.assembleFinite = .ok A

theorem Assembled.wellFormed (h : A.Assembled) : A.WellFormed := by
  obtain ⟨p, hp⟩ := h
  obtain ⟨_, _, hs, _, rfl⟩ := Parts.assembleFinite_eq_ok_iff.mp hp
  obtain ⟨hstates, hinit⟩ := Parts.structureFault?_eq_none_iff.mp hs
  refine ⟨hinit, fun i s r hstep => ?_⟩
  obtain ⟨q, hq, hedge⟩ := Parts.step_automaton.mp hstep
  exact (hstates i q hq).2 _ hedge

theorem Assembled.indexed (h : A.Assembled) : A.Indexed := by
  obtain ⟨p, hp⟩ := h
  obtain ⟨_, _, hs, _, rfl⟩ := Parts.assembleFinite_eq_ok_iff.mp hp
  exact fun i q hq => ((Parts.structureFault?_eq_none_iff.mp hs).1 i q hq).1

/-- An edge carries epsilon or a literal with a name. -/
theorem Assembled.label (h : A.Assembled) {p q : Nat} {s : Symbol} (hs : A.Step p s q) :
    s = .epsilon ∨ ∃ name, name ≠ "" ∧ s = .literal name := by
  obtain ⟨parts, hp⟩ := h
  obtain ⟨_, _, _, hedges, rfl⟩ := Parts.assembleFinite_eq_ok_iff.mp hp
  obtain ⟨state, hstate, hedge⟩ := Parts.step_automaton.mp hs
  exact Parts.edgeFault?_eq_none_iff.mp (hedges state (List.mem_of_getElem? hstate) _ hedge)

theorem Assembled.mem_alphabet (h : A.Assembled) {p q : Nat} {s : Symbol} (hs : A.Step p s q)
    (hne : s ≠ .epsilon) : s ∈ A.alphabet := by
  have hlabel := h.label hs
  obtain ⟨parts, hp⟩ := h
  obtain ⟨_, _, _, _, rfl⟩ := Parts.assembleFinite_eq_ok_iff.mp hp
  obtain ⟨state, hstate, hedge⟩ := Parts.step_automaton.mp hs
  refine SortedSet.mem_foldl_insert.mpr (.inr (List.mem_filter.mpr ⟨?_, ?_⟩))
  · exact List.mem_flatMap.mpr
      ⟨state, List.mem_of_getElem? hstate, List.mem_map.mpr ⟨_, hedge, rfl⟩⟩
  · rcases hlabel with rfl | ⟨name, _, rfl⟩
    · exact absurd rfl hne
    · rfl

/-- Well formed, and every edge carries epsilon or a symbol of the alphabet. -/
structure Labelled (A : FiniteAutomaton) : Prop where
  wellFormed : A.WellFormed
  mem_alphabet {p q : Nat} {s : Symbol} : A.Step p s q → s ≠ .epsilon → s ∈ A.alphabet

theorem Assembled.labelled (h : A.Assembled) : A.Labelled := ⟨h.wellFormed, h.mem_alphabet⟩

/-- Labelled, and every state carries its position. -/
structure Intact (A : FiniteAutomaton) : Prop extends A.Labelled where
  indexed : A.Indexed

theorem Assembled.intact (h : A.Assembled) : A.Intact := ⟨h.labelled, h.indexed⟩

theorem Assembled.epsilon_not_mem_alphabet (h : A.Assembled) : Symbol.epsilon ∉ A.alphabet := by
  obtain ⟨parts, hp⟩ := h
  obtain ⟨hnot, _, _, _, rfl⟩ := Parts.assembleFinite_eq_ok_iff.mp hp
  intro hmem
  rcases SortedSet.mem_foldl_insert.mp hmem with hmem | hmem
  · exact hnot hmem
  · simp [Symbol.isLiteral] at hmem

theorem Labelled.over_of_walk (h : A.Labelled) {p q : Nat} {w : Word} (hw : Walk A.Step p w q) :
    w.Over A.alphabet := by
  induction hw with
  | nil _ => exact Word.over_nil
  | @cons _ _ _ s _ hs _ ih =>
    refine Word.over_append_iff.mpr ⟨?_, ih⟩
    by_cases he : s = .epsilon
    · exact he ▸ Word.over_nil
    · rw [Symbol.spelled_of_ne he, Word.over_cons_iff]
      exact ⟨h.mem_alphabet hs he, Word.over_nil⟩

theorem Labelled.over_of_mem_wordsFrom (h : A.Labelled) {p : Nat} {w : Word}
    (hw : w ∈ A.wordsFrom p) : w.Over A.alphabet := by
  obtain ⟨_, _, hw⟩ := hw
  exact h.over_of_walk hw

/-- Intact over an alphabet of literals. -/
structure Lettered (A : FiniteAutomaton) : Prop extends A.Intact where
  literal : ∀ s ∈ A.alphabet, ∃ name, s = .literal name

end Automaton

theorem Symbol.isLiteral_iff {s : Symbol} : s.isLiteral = true ↔ ∃ name, s = .literal name := by
  cases s <;> simp [isLiteral]

end Acceptors
