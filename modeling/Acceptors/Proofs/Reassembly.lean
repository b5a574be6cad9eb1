import Acceptors.Proofs.Meaning

/-!
Automata that are taken apart and assembled again. The checks pass an automaton's own parts if and
only if it has no reference on its edges (`Named.assembleFinite_parts_iff`), for all else that they
look at every operation keeps (`Named`). Completion is the operation that makes edges of the
alphabet, where references may stand. Main statement: `assembleFinite_parts_complete_iff`.
-/

namespace Acceptors

theorem Symbol.isLiteral_eq_not_isRef {s : Symbol} (h : s ≠ .epsilon) : s.isLiteral = !s.isRef := by
  cases s with
  | epsilon => exact absurd rfl h
  | literal | ref => rfl

namespace Automaton

variable {A : FiniteAutomaton}

/-! ## An automaton's own parts -/

theorem exists_step_of_mem_edges {n : State Nat} (hn : n ∈ A.states) {edge : Symbol × Nat}
    (hedge : edge ∈ n.edges) : ∃ p, A.Step p edge.1 edge.2 := by
  obtain ⟨p, hp⟩ := List.mem_iff_getElem?.mp hn
  refine ⟨p, ?_⟩
  rw [Step, next, hp]
  exact Table.mem_edges.mp hedge

theorem exists_mem_edges {p q : Nat} {s : Symbol} (hs : A.Step p s q) :
    ∃ n ∈ A.states, (s, q) ∈ n.edges := by
  obtain ⟨n, targets, hn, htargets, hq⟩ := step_iff.mp hs
  refine ⟨n, List.mem_of_getElem? hn, Table.mem_edges.mpr ?_⟩
  rw [Table.next, htargets]
  exact hq

theorem structureFault?_parts (hA : A.Intact) : A.parts.structureFault? = none := by
  refine Parts.structureFault?_eq_none_iff.mpr
    ⟨fun i n hn => ⟨hA.indexed i n hn, ?_⟩, hA.wellFormed.initial_lt⟩
  intro edge hedge
  obtain ⟨p, hs⟩ := exists_step_of_mem_edges (List.mem_of_getElem? hn) hedge
  exact hA.wellFormed.target_lt hs

/-- The literals on the edges stand in the alphabet already, so nothing is added to it. -/
theorem automaton_parts (hA : A.Labelled) : A.parts.automaton = A := by
  have halphabet : ((A.parts.states.flatMap fun n => n.edges.map (·.1)).filter
      Symbol.isLiteral).foldl SortedSet.insert A.alphabet = A.alphabet := by
    refine SortedSet.ext fun s => ?_
    rw [SortedSet.mem_foldl_insert]
    refine or_iff_left_of_imp fun hs => ?_
    obtain ⟨hs, hliteral⟩ := List.mem_filter.mp hs
    obtain ⟨n, hn, hs⟩ := List.mem_flatMap.mp hs
    obtain ⟨edge, hedge, rfl⟩ := List.mem_map.mp hs
    obtain ⟨p, hs⟩ := exists_step_of_mem_edges hn hedge
    refine hA.mem_alphabet hs ?_
    intro he
    simp [he, Symbol.isLiteral] at hliteral
  exact congrArg (Automaton.mk A.initial A.states) halphabet

/-! ## What the checks look for -/

/-- Intact over an alphabet that the checks pass. -/
structure Named (A : FiniteAutomaton) : Prop extends A.Intact where
  epsilon_not_mem : Symbol.epsilon ∉ A.alphabet
  nameless_not_mem : Symbol.literal "" ∉ A.alphabet

theorem Assembled.named (hA : A.Assembled) : A.Named where
  toIntact := hA.intact
  epsilon_not_mem := hA.epsilon_not_mem_alphabet
  nameless_not_mem := by
    obtain ⟨p, hp⟩ := hA
    obtain ⟨_, hnot, _, hedges, rfl⟩ := Parts.assembleFinite_eq_ok_iff.mp hp
    intro hmem
    rcases SortedSet.mem_foldl_insert.mp hmem with hmem | hmem
    · exact hnot hmem
    · obtain ⟨n, hn, hs⟩ := List.mem_flatMap.mp (List.mem_filter.mp hmem).1
      obtain ⟨edge, hedge, he⟩ := List.mem_map.mp hs
      rcases Parts.edgeFault?_eq_none_iff.mp (hedges n hn edge hedge) with h | ⟨name, hne, h⟩
      · simp [h] at he
      · rw [h] at he
        exact hne (Symbol.literal.inj he)

namespace Named

/-- An edge that is not on a reference passes the checks, another is told as a memory transition. -/
theorem edgeFault?_eq (hA : A.Named) {n : Numbered Nat} (hn : n ∈ A.states) {edge : Symbol × Nat}
    (hedge : edge ∈ n.edges) :
    if edge.1.isRef then
      ∃ source target, A.parts.edgeFault? n edge = some (.memoryTransition source target)
    else A.parts.edgeFault? n edge = none := by
  obtain ⟨s, q⟩ := edge
  obtain ⟨p, hs⟩ := exists_step_of_mem_edges hn hedge
  cases s with
  | epsilon => rfl
  | literal name =>
    have hne : name ≠ "" := by
      rintro rfl
      exact hA.nameless_not_mem (hA.mem_alphabet hs (by simp))
    simp [Parts.edgeFault?, Symbol.isRef, hne]
  | ref cell => exact ⟨_, _, rfl⟩

theorem assembleFinite_parts_iff (hA : A.Named) :
    A.parts.assembleFinite = .ok A ↔ ∀ p s q, A.Step p s q → s.isRef = false := by
  have halphabet : A.parts.alphabet = A.alphabet := rfl
  rw [Parts.assembleFinite_eq_ok_iff, automaton_parts hA.toLabelled,
    structureFault?_parts hA.toIntact]
  simp only [halphabet, hA.epsilon_not_mem, hA.nameless_not_mem, not_false_eq_true, true_and,
    and_true]
  constructor
  · intro h p s q hs
    obtain ⟨n, hn, hedge⟩ := exists_mem_edges hs
    have hfault := hA.edgeFault?_eq hn hedge
    rw [h n hn _ hedge] at hfault
    simpa using hfault
  · intro h n hn edge hedge
    have hfault := hA.edgeFault?_eq hn hedge
    obtain ⟨p, hs⟩ := exists_step_of_mem_edges hn hedge
    rwa [h _ _ _ hs] at hfault

/-- Nothing else is wrong with the parts than an edge on a reference. -/
theorem exists_memoryTransition (hA : A.Named) {p q : Nat} {s : Symbol} (hs : A.Step p s q)
    (href : s.isRef = true) :
    ∃ source target, A.parts.assembleFinite = .error (.memoryTransition source target) := by
  have halphabet : A.parts.alphabet = A.alphabet := rfl
  unfold Parts.assembleFinite
  rw [halphabet, if_neg hA.epsilon_not_mem, if_neg hA.nameless_not_mem,
    structureFault?_parts hA.toIntact]
  dsimp only
  split
  · rename_i fault hfault
    obtain ⟨n, hn, hfault⟩ := List.exists_of_findSome?_eq_some hfault
    obtain ⟨edge, hedge, hfault⟩ := List.exists_of_findSome?_eq_some hfault
    have hedge := hA.edgeFault?_eq hn hedge
    rw [hfault] at hedge
    split at hedge
    · obtain ⟨source, target, h⟩ := hedge
      exact ⟨source, target, congrArg Except.error (Option.some.inj h)⟩
    · cases hedge
  · rename_i hnone
    obtain ⟨n, hn, hedge⟩ := exists_mem_edges hs
    have hfault := hA.edgeFault?_eq hn hedge
    rw [List.findSome?_eq_none_iff.mp (List.findSome?_eq_none_iff.mp hnone n hn) _ hedge] at hfault
    simp [href] at hfault

/-- What is intact over the same alphabet is named too. -/
theorem of_alphabet_eq (hA : A.Named) {B : FiniteAutomaton} (hB : B.Intact)
    (halphabet : B.alphabet = A.alphabet) : B.Named where
  toIntact := hB
  epsilon_not_mem := halphabet ▸ hA.epsilon_not_mem
  nameless_not_mem := halphabet ▸ hA.nameless_not_mem

end Named

theorem alphabet_complement (A : FiniteAutomaton) : A.complement.alphabet = A.alphabet :=
  alphabet_complete

/-! ## Completion -/

/-- Completion makes an edge on a reference, from the sink at least, where it has something to add
and the alphabet has a reference. -/
theorem exists_step_ref_complete_iff (hA : A.Assembled) :
    (∃ p s q, A.complete.Step p s q ∧ s.isRef = true) ↔
      ¬ (A.isComplete = true ∨ ∀ s ∈ A.alphabet, s.isLiteral = true) := by
  have hedge : ∀ p s q, A.Step p s q → s.isRef = false := by
    intro p s q hs
    rcases hA.label hs with rfl | ⟨name, _, rfl⟩ <;> rfl
  have hkind : ∀ s ∈ A.alphabet, s.isLiteral = !s.isRef := fun s hs =>
    Symbol.isLiteral_eq_not_isRef fun he => hA.epsilon_not_mem_alphabet (he ▸ hs)
  cases h : A.isComplete with
  | true =>
    refine iff_of_false ?_ (by simp)
    rw [complete, if_pos h]
    rintro ⟨p, s, q, hs, href⟩
    simp [hedge p s q hs] at href
  | false =>
    simp only [Bool.false_eq_true, false_or, not_forall]
    constructor
    · rintro ⟨p, s, q, hs, href⟩
      rcases (step_complete h).mp hs with hs | ⟨_, hs, _⟩
      · simp [hedge p s q hs] at href
      · exact ⟨s, hs, by simp [hkind s hs, href]⟩
    · rintro ⟨s, hs, hliteral⟩
      refine ⟨A.size, s, A.size, (step_complete h).mpr (.inr ⟨le_rfl, hs, not_hasEntry_size, rfl⟩),
        ?_⟩
      simpa [hkind s hs] using hliteral

/-- What is completed, or complemented, passes the checks, and its expression keeps its words, where
completion adds nothing or the alphabet has literals only. Everywhere else the checks find a memory
transition. -/
theorem assembleFinite_parts_complete_iff (hA : A.Assembled) {B : FiniteAutomaton}
    (hB : B = A.complete ∨ B = A.complement) :
    if A.isComplete = true ∨ ∀ s ∈ A.alphabet, s.isLiteral = true then
      B.parts.assembleFinite = .ok B ∧
        ∀ w : Word, w.Plain → (Expression.ofAutomaton B).accepts w = B.accepts w
    else ∃ source target, B.parts.assembleFinite = .error (.memoryTransition source target) := by
  have hnamed : B.Named := by
    rcases hB with rfl | rfl
    · exact hA.named.of_alphabet_eq ⟨hA.labelled.complete, hA.indexed.complete⟩ alphabet_complete
    · exact hA.named.of_alphabet_eq
        ⟨hA.labelled.complement, hA.indexed.complement⟩ A.alphabet_complement
  have hstep : ∀ p s q, B.Step p s q ↔ A.complete.Step p s q := by
    rcases hB with rfl | rfl
    · exact fun _ _ _ => Iff.rfl
    · exact fun _ _ _ => step_complement
  have href := exists_step_ref_complete_iff hA
  simp only [← hstep] at href
  split
  · rename_i h
    have hparts : B.parts.assembleFinite = .ok B := by
      rw [hnamed.assembleFinite_parts_iff]
      intro p s q hs
      rw [← Bool.not_eq_true]
      exact fun hs' => href.mp ⟨p, s, q, hs, hs'⟩ h
    have hlanguage := Expression.language_ofAutomaton hnamed.wellFormed
      (EquationSystem.literalEdges_epsilonFree ⟨B.parts, hparts⟩)
    exact ⟨hparts, fun w hw => Expression.accepts_eq_of_language hnamed.wellFormed hlanguage hw⟩
  · rename_i h
    obtain ⟨p, s, q, hs, href⟩ := href.mpr h
    exact hnamed.exists_memoryTransition hs href

/-- One terminal state without edges, over an alphabet of one reference. -/
def referring : Parts Nat := ⟨0, [⟨0, "", true, ∅⟩], SortedSet.ofList [.ref 1]⟩

theorem assembleFinite_parts_complete_gapped_referring :
    gapped.automaton.Assembled ∧
      gapped.automaton.complement.parts.assembleFinite = .ok gapped.automaton.complement ∧
      (Expression.ofAutomaton gapped.automaton.complement).accepts (Word.ofText "ab") = true ∧
      referring.automaton.Assembled ∧
      ∃ source target, referring.automaton.complete.parts.assembleFinite =
        .error (.memoryTransition source target) := by
  have hgapped : gapped.automaton.Assembled := ⟨gapped, rfl⟩
  have hreferring : referring.automaton.Assembled := ⟨referring, rfl⟩
  have hfilled := assembleFinite_parts_complete_iff hgapped (.inr rfl)
  have hrefused := assembleFinite_parts_complete_iff hreferring (.inl rfl)
  rw [if_pos (by decide)] at hfilled
  rw [if_neg (by decide)] at hrefused
  refine ⟨hgapped, hfilled.1, ?_, hreferring, hrefused⟩
  rw [hfilled.2 _ (by decide)]
  decide +kernel

/-- The sink takes an edge on the reference, and the expression of the complement loses a word with
it. -/
theorem not_assembleFinite_parts_complete_referring :
    referring.automaton.Assembled ∧ referring.automaton.isDeterministic = true ∧
      (∀ B, referring.automaton.complete.parts.assembleFinite ≠ .ok B) ∧
      (∀ B, referring.automaton.complement.parts.assembleFinite ≠ .ok B) ∧
      Word.Plain [.ref 1] ∧ referring.automaton.complement.accepts [.ref 1] = true ∧
      (Expression.ofAutomaton referring.automaton.complement).accepts [.ref 1] = false := by
  have hcomplete : referring.automaton.complete.parts.assembleFinite =
      .error (.memoryTransition "0" "sink") := by decide +kernel
  have hcomplement : referring.automaton.complement.parts.assembleFinite =
      .error (.memoryTransition "0" "sink") := by decide +kernel
  refine ⟨⟨referring, rfl⟩, by decide, fun B => ?_, fun B => ?_, by decide, by decide +kernel,
    by decide +kernel⟩
  · rw [hcomplete]
    exact nofun
  · rw [hcomplement]
    exact nofun

/-! ## Literal alphabets -/

/-- Lettered with names: what the operations keep if they start from literal alphabets. -/
structure Proper (A : FiniteAutomaton) : Prop extends A.Lettered where
  nameless_not_mem : Symbol.literal "" ∉ A.alphabet

namespace Proper

variable {B : FiniteAutomaton}

theorem named (hA : A.Proper) : A.Named where
  toIntact := hA.toIntact
  epsilon_not_mem h := by
    obtain ⟨_, h⟩ := hA.literal _ h
    cases h
  nameless_not_mem := hA.nameless_not_mem

/-- The checks pass the parts of a proper automaton, and it is assembled of them as it was. -/
theorem assembleFinite_parts (hA : A.Proper) : A.parts.assembleFinite = .ok A := by
  rw [hA.named.assembleFinite_parts_iff]
  intro p s q hs
  by_cases he : s = .epsilon
  · rw [he]
    rfl
  · obtain ⟨_, rfl⟩ := hA.literal s (hA.mem_alphabet hs he)
    rfl

theorem assembled (hA : A.Proper) : A.Assembled := ⟨A.parts, hA.assembleFinite_parts⟩

/-- What is lettered over the same alphabet is proper too. -/
theorem of_alphabet_eq (hA : A.Proper) (hB : B.Lettered) (halphabet : B.alphabet = A.alphabet) :
    B.Proper where
  toLettered := hB
  nameless_not_mem := halphabet ▸ hA.nameless_not_mem

theorem of_denotes (hA : A.Proper) (hB : B.Denotes A.meaning) : B.Proper :=
  hA.of_alphabet_eq hB.lettered (congrArg Prod.snd hB.meaning)

theorem recasts (hA : A.Proper) (h : A.Recasts B) : B.Proper :=
  hA.of_denotes (hA.toLettered.denotes.recasts h)

theorem minimal (hA : A.Proper) : A.determinize.minimize.Proper :=
  hA.of_denotes hA.toLettered.denotes.minimal

theorem complement (hA : A.Proper) : A.complement.Proper :=
  hA.of_alphabet_eq hA.toLettered.complement A.alphabet_complement

theorem intersection (hA : A.Proper) (hB : B.Proper) : (A.intersection B).Proper where
  toLettered := hA.toLettered.intersection hB.toLettered
  nameless_not_mem h := (SortedSet.mem_union.mp h).elim hA.nameless_not_mem hB.nameless_not_mem

end Proper

theorem Assembled.proper (hA : A.Assembled) (hliteral : ∀ s ∈ A.alphabet, s.isLiteral = true) :
    A.Proper where
  toIntact := hA.intact
  literal s hs := Symbol.isLiteral_iff.mp (hliteral s hs)
  nameless_not_mem := hA.named.nameless_not_mem

end Automaton

/-- A tree with names has a proper automaton. -/
theorem Expression.proper_ofRegex {r : Regex} (hnames : ∀ name ∈ r.names, name ≠ "") :
    (ofRegex r).toAutomaton.Proper where
  toLettered := (covered_ofRegex r).lettered_toAutomaton
  nameless_not_mem hmem := by
    obtain ⟨name, hname, h⟩ := List.mem_map.mp (SortedSet.mem_ofList.mp hmem)
    exact hnames name hname (Symbol.literal.inj h)

/-- A description has no symbols but literals, and the checks pass these with names alone. -/
theorem Description.proper_of_toFinite {d : Description} {A : FiniteAutomaton}
    (h : d.toFinite = .ok A) :
    A.Proper := by
  have hassembled : A.Assembled := by
    unfold toFinite at h
    split at h
    · cases h
    · exact ⟨_, h⟩
  exact ⟨Description.lettered_of_toFinite h, hassembled.named.nameless_not_mem⟩

end Acceptors
