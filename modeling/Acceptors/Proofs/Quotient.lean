import Acceptors.Proofs.Coarsest

/-!
The quotient by the coarsest bisimulation. A state and its block are bisimilar
(`bisimulation_mergeBisimilar`) and no two blocks are (`eq_of_bisimilarAt_mergeBisimilar`). So each
block is a class of its own when blocks are merged again, and keeps its number
(`bisimulationClass_mergeBisimilar`). Main statement: `mergeBisimilar_irredundant`.
-/

namespace Acceptors

theorem Decimal.text_ne_empty (n : Nat) : Decimal.text n ≠ "" := by
  intro h
  have hdigits : Decimal.digits n = [] := by simpa [Decimal.text] using congrArg String.toList h
  exact Decimal.digits_ne_nil n hdigits

theorem State.label_ne_empty (q : State Nat) : q.label ≠ "" := by
  unfold State.label
  split
  · exact Decimal.text_ne_empty q.index
  · assumption

namespace Automaton

variable {A : FiniteAutomaton} {b c p q : Nat}

/-! ## Labels -/

theorem label_ne_empty (hq : q < A.size) : A.label q ≠ "" := by
  have hstate : A.states[q]? = some A.states[q] := List.getElem?_eq_getElem hq
  rw [label, hstate]
  exact State.label_ne_empty _

theorem labels_singleton (A : FiniteAutomaton) (q : Nat) : A.labels [q] = A.label q := rfl

theorem labels_ne_empty {qs : List Nat} (hqs : qs ≠ []) (hlt : ∀ q ∈ qs, q < A.size) :
    A.labels qs ≠ "" := by
  cases qs with
  | nil => exact absurd rfl hqs
  | cons q qs =>
    intro hempty
    have hfirst : (A.label q).toList = [] := by
      have hlist := congrArg String.toList hempty
      rw [labels, String.toList_intercalate] at hlist
      cases qs with
      | nil => simpa using hlist
      | cons r qs => simp [List.intercalate] at hlist
    exact label_ne_empty (hlt q List.mem_cons_self) (String.toList_eq_nil_iff.mp hfirst)

/-! ## States and their blocks -/

theorem size_mergeBisimilar_le (A : FiniteAutomaton) : A.mergeBisimilar.size ≤ A.size := by
  have hsize : A.mergeBisimilar.size = (Partition.groups (bisimulationBlocks A.states)).length := by
    simp [mergeBisimilar, size]
  rw [hsize, Partition.length_groups, ← size_bisimulationBlocks A, ← Array.length_toList]
  exact Partition.length_distinct_le _

/-- A state is bisimilar to its block. -/
theorem bisimulation_mergeBisimilar (hA : A.WellFormed) :
    Bisimulation A A.mergeBisimilar fun p b => p < A.size ∧ A.bisimulationClass p = b where
  terminal := by
    rintro p _ ⟨hp, rfl⟩
    exact (isTerminal_mergeBisimilar hp).symm
  forth := by
    rintro p _ p' s ⟨hp, rfl⟩ hs
    exact ⟨_, (step_mergeBisimilar hp).mpr ⟨p', hs, rfl⟩, hA.target_lt hs, rfl⟩
  back := by
    rintro p _ b s ⟨hp, rfl⟩ hs
    obtain ⟨p', hs', rfl⟩ := (step_mergeBisimilar hp).mp hs
    exact ⟨p', hs', hA.target_lt hs', rfl⟩

/-- The tables of the quotient are made of edges. -/
theorem not_hollow_mergeBisimilar (A : FiniteAutomaton) (b : Nat) (s : Symbol) :
    ¬ A.mergeBisimilar.Hollow b s := by
  refine not_hollow_of_ofEdges (fun state hstate => ?_) b s
  obtain ⟨_, _, rfl⟩ := List.mem_map.mp hstate
  exact ⟨_, rfl⟩

/-- No two blocks are bisimilar. -/
theorem eq_of_bisimilarAt_mergeBisimilar (hA : A.WellFormed) (hfull : ∀ p s, ¬ A.Hollow p s)
    (hb : b < A.mergeBisimilar.size) (hc : c < A.mergeBisimilar.size)
    (h : A.mergeBisimilar.BisimilarAt A.mergeBisimilar b c) : b = c := by
  obtain ⟨R, hR, hbc⟩ := h
  obtain ⟨p, hp, rfl⟩ := lt_size_mergeBisimilar_iff.mp hb
  obtain ⟨q, hq, rfl⟩ := lt_size_mergeBisimilar_iff.mp hc
  -- From a member of the one block to its block, to the other block, to a member of that.
  have hclass := bisimulation_mergeBisimilar hA
  have hchain := (hclass.trans hR).trans hclass.symm
  exact (bisimulationClass_eq_iff hA hfull hp hq).mpr
    ⟨_, hchain, _, ⟨_, ⟨hp, rfl⟩, hbc⟩, hq, rfl⟩

/-! ## Merging again -/

theorem bisimulationClass_mergeBisimilar (hA : A.Labelled) (hfull : ∀ p s, ¬ A.Hollow p s)
    (hb : b < A.mergeBisimilar.size) : A.mergeBisimilar.bisimulationClass b = b := by
  have hsize := size_bisimulationBlocks A.mergeBisimilar
  refine (ranked_bisimulationBlocks A.mergeBisimilar).blockOf_eq_self ?_ (hsize.symm ▸ hb)
  intro p hp q hq h
  rw [hsize] at hp hq
  have hsame :=
    (bisimulationClass_eq_iff hA.mergeBisimilar.wellFormed (not_hollow_mergeBisimilar A) hp hq).mp h
  exact eq_of_bisimilarAt_mergeBisimilar hA.wellFormed hfull hp hq hsame

theorem bisimulationGroup_eq_singleton (hself : ∀ b < A.size, A.bisimulationClass b = b)
    (hb : b < A.size) : A.bisimulationGroup b = [b] := by
  have hfilter : A.bisimulationGroup b = (List.range A.size).filter (· == b) :=
    List.filter_congr fun p hp => by rw [hself p (List.mem_range.mp hp)]
  rw [hfilter, List.filter_beq, List.count_eq_one_of_mem List.nodup_range (List.mem_range.mpr hb),
    List.replicate_one]

/-- Named states of which each is a block of its own are not changed by merging. -/
theorem mergeBisimilar_eq_self (hA : A.WellFormed) (hindexed : A.Indexed)
    (hfull : ∀ p s, ¬ A.Hollow p s) (hself : ∀ b < A.size, A.bisimulationClass b = b)
    (hnames : ∀ state ∈ A.states, state.name ≠ "") :
    A.mergeBisimilar = A := by
  have hsize : A.mergeBisimilar.size = A.size := by
    refine le_antisymm (size_mergeBisimilar_le A) (Nat.le_of_not_lt fun hlt => ?_)
    exact absurd (lt_size_mergeBisimilar_iff.mpr ⟨_, hlt, hself _ hlt⟩) (Nat.lt_irrefl _)
  have hstate (b : Nat) (hb : b < A.mergeBisimilar.size) (hb' : b < A.size) :
      A.mergeBisimilar.states[b] = A.states[b] := by
    have hget : A.states[b]? = some A.states[b] := List.getElem?_eq_getElem hb'
    have hlabel : A.labels [b] = A.states[b].name := by
      rw [labels_singleton, label, hget]
      exact if_neg (hnames _ (List.getElem_mem hb'))
    have hterminal : ([b].take 1).any A.isTerminal = A.states[b].terminal := by
      simp [isTerminal, hget]
    apply Option.some.inj
    rw [← List.getElem?_eq_getElem hb, getElem?_mergeBisimilar hb,
      bisimulationGroup_eq_singleton hself hb', List.flatMap_singleton,
      map_edges_eq_self hA hself, hlabel, hterminal, ofEdges_edges_of_not_hollow hfull hget]
    exact congrArg (fun index => some (State.mk index _ _ _)) (hindexed b _ hget).symm
  have hstates : A.mergeBisimilar.states = A.states := List.ext_getElem hsize hstate
  have hinitial : A.mergeBisimilar.initial = A.initial := hself A.initial hA.initial_lt
  calc A.mergeBisimilar = ⟨A.mergeBisimilar.initial, A.mergeBisimilar.states, A.alphabet⟩ := rfl
    _ = A := by rw [hinitial, hstates]

theorem name_mergeBisimilar_ne_empty : ∀ state ∈ A.mergeBisimilar.states, state.name ≠ "" := by
  intro state hstate
  obtain ⟨b, hb, rfl⟩ := List.getElem_of_mem hstate
  have hget := (List.getElem?_eq_getElem hb).symm.trans (getElem?_mergeBisimilar hb)
  rw [Option.some.inj hget]
  obtain ⟨q, hq, hclass⟩ := lt_size_mergeBisimilar_iff.mp hb
  exact labels_ne_empty (List.ne_nil_of_mem (mem_bisimulationGroup.mpr ⟨hq, hclass⟩)) fun p hp =>
    (mem_bisimulationGroup.mp hp).1

/-- Merging bisimilar states gives an automaton with no more states, which is bisimilar to the given
one and accepts the same words. No two of its states are bisimilar, and merging them again changes
nothing, names included. -/
theorem mergeBisimilar_irredundant (hA : A.Assembled) (hfull : ∀ p s, ¬ A.Hollow p s) :
    A.mergeBisimilar.size ≤ A.size ∧
      A.mergeBisimilar.bisimilar A = true ∧ A.bisimilar A.mergeBisimilar = true ∧
      (∀ w, A.mergeBisimilar.accepts w = A.accepts w) ∧
      (∀ b < A.mergeBisimilar.size, ∀ c < A.mergeBisimilar.size,
        A.mergeBisimilar.BisimilarAt A.mergeBisimilar b c → b = c) ∧
      A.mergeBisimilar.mergeBisimilar = A.mergeBisimilar := by
  have hwf := hA.wellFormed
  have hwf' := hA.labelled.mergeBisimilar.wellFormed
  have hfull' := not_hollow_mergeBisimilar A
  have hclass := bisimulation_mergeBisimilar hwf
  have hbisimilar : A.Bisimilar A.mergeBisimilar := ⟨_, hclass, hwf.initial_lt, rfl⟩
  refine ⟨size_mergeBisimilar_le A, ?_, ?_, fun w => ?_, fun b hb c hc => ?_, ?_⟩
  · exact (bisimilar_iff hwf' hwf).mpr ⟨fun p _ _ => hfull' p, hbisimilar.symm⟩
  · exact (bisimilar_iff hwf hwf').mpr ⟨fun p _ _ => hfull p, hbisimilar⟩
  · exact (hclass.acceptsFrom_eq hwf hwf' hwf.initial_lt hwf'.initial_lt
      ⟨hwf.initial_lt, rfl⟩ w).symm
  · exact eq_of_bisimilarAt_mergeBisimilar hwf hfull hb hc
  · exact mergeBisimilar_eq_self hwf' (indexed_mergeBisimilar A) hfull'
      (fun b => bisimulationClass_mergeBisimilar hA.labelled hfull)
      name_mergeBisimilar_ne_empty

theorem mergeBisimilar_irredundant_unrolled :
    unrolled.automaton.Assembled ∧ (∀ p s, ¬ unrolled.automaton.Hollow p s) ∧
      unrolled.automaton.mergeBisimilar.states.map (·.name) = ["0, 2", "1"] ∧
      unrolled.automaton.mergeBisimilar.accepts [.literal "a", .epsilon] =
        unrolled.automaton.accepts [.literal "a", .epsilon] ∧
      ¬ unrolled.automaton.mergeBisimilar.BisimilarAt unrolled.automaton.mergeBisimilar 0 1 ∧
      unrolled.automaton.mergeBisimilar.mergeBisimilar = unrolled.automaton.mergeBisimilar := by
  have hA : unrolled.automaton.Assembled := ⟨unrolled, rfl⟩
  have hfull : ∀ p s, ¬ unrolled.automaton.Hollow p s := forall_not_hollow_iff.mpr (by decide)
  obtain ⟨_, _, _, haccepts, hseparate, hagain⟩ := mergeBisimilar_irredundant hA hfull
  have hsize : unrolled.automaton.mergeBisimilar.size = 2 := by decide +kernel
  refine ⟨hA, hfull, by decide +kernel, haccepts _, fun h => ?_, hagain⟩
  exact absurd (hseparate 0 (by rw [hsize]; decide) 1 (by rw [hsize]; decide) h) (by decide)

end Automaton

end Acceptors
