import Acceptors.Proofs.Backtrack
import Acceptors.Proofs.Equality
import Mathlib.Data.Set.Function

/-!
Isomorphism as a renaming of states. A one-to-one bisimulation is a one-to-one map of the states
that the one initial state leads to onto those that the other one leads to, under which states keep
their flags and their edges (`Bisimulation.renumbering`), and a relation that matches two automata
state by state is one under which they keep their tables but for the names of the targets
(`isomorphic_iff_relabelling`). Main statement: `equal_iff_relabelling`, automata of which one is
not deterministic are equal exactly when there is such a map.
-/

namespace Acceptors

namespace Table

/-- The table with its targets renamed. -/
def rename (f : Nat → Nat) (t : Table Nat) : Table Nat :=
  t.map fun _ targets => SortedSet.ofList (targets.toList.map f)

variable {f : Nat → Nat} {t u : Table Nat} {s : Symbol}

theorem get?_rename : (t.rename f).get? s =
      (t.get? s).map fun targets => SortedSet.ofList (targets.toList.map f) :=
  SortedMap.get?_map

/-- A table is another one renamed if and only if it has entries for the same symbols and its edges
are the renamed ones. -/
theorem eq_rename_iff : u = t.rename f ↔
    (∀ s, (t.get? s).isSome = true ↔ (u.get? s).isSome = true) ∧
      ∀ s q, q ∈ u.next s ↔ ∃ p ∈ t.next s, f p = q := by
  have hext : u = t.rename f ↔ ∀ s, u.get? s = (t.rename f).get? s :=
    ⟨fun h s => by rw [h], SortedMap.ext⟩
  rw [hext, ← forall_and]
  refine forall_congr' fun s => ?_
  rw [get?_rename]
  unfold next
  cases t.get? s with
  | none => cases u.get? s <;> simp
  | some targets =>
    cases u.get? s with
    | none => simp
    | some targets' =>
      simp only [Option.map_some, Option.some.injEq, Option.isSome_some, true_and]
      constructor
      · rintro rfl q
        simp [SortedSet.mem_toList]
      · intro h
        refine SortedSet.ext fun q => ?_
        rw [← SortedSet.mem_toList, h]
        simp

end Table

namespace Automaton

variable {A B : FiniteAutomaton} {R : Nat → Nat → Prop} {f : Nat → Nat} {p q : Nat}

/-- The states that walks from the initial state lead to. -/
def reached (A : FiniteAutomaton) : Set Nat := {q | ∃ w, Walk A.Step A.initial w q}

theorem initial_mem_reached (A : FiniteAutomaton) : A.initial ∈ A.reached := ⟨[], .nil _⟩

theorem mem_reached_of_step {s : Symbol} (hp : p ∈ A.reached) (hs : A.Step p s q) :
    q ∈ A.reached := by
  obtain ⟨w, hw⟩ := hp
  exact ⟨_, hw.append (.edge hs)⟩

/-! ## Renaming as an isomorphism of graphs -/

/-- A one-to-one map of the reached states onto those of another automaton, which maps the initial
state to the initial state, terminal states to terminal ones and others to others, and keeps and
reflects edges on each symbol. -/
structure Renumbering (A B : FiniteAutomaton) (f : Nat → Nat) : Prop where
  bijOn : Set.BijOn f A.reached B.reached
  initial : f A.initial = B.initial
  terminal : ∀ p ∈ A.reached, B.isTerminal (f p) = A.isTerminal p
  step : ∀ p ∈ A.reached, ∀ q ∈ A.reached, ∀ s, A.Step p s q ↔ B.Step (f p) s (f q)

theorem Bisimulation.exists_images (h : Bisimulation A B R) (hinitial : R A.initial B.initial) :
    ∃ f : Nat → Nat, ∀ p ∈ A.reached, R p (f p) := by
  have himage : ∀ p, ∃ q, p ∈ A.reached → R p q := by
    intro p
    by_cases hp : p ∈ A.reached
    · obtain ⟨w, hw⟩ := hp
      obtain ⟨q, _, hpq⟩ := h.exists_walk hinitial hw
      exact ⟨q, fun _ => hpq⟩
    · exact ⟨0, fun h => absurd h hp⟩
  choose f hf using himage
  exact ⟨f, hf⟩

/-- A one-to-one bisimulation that holds between a reached state and its image is an isomorphism of
graphs. -/
theorem Bisimulation.renumbering (h : Bisimulation A B R) (hR : Relator.BiUnique R)
    (hinitial : R A.initial B.initial) (hf : ∀ p ∈ A.reached, R p (f p)) : Renumbering A B f := by
  have himage {p q : Nat} (hp : p ∈ A.reached) (hpq : R p q) : f p = q := hR.2 (hf p hp) hpq
  refine ⟨⟨?_, ?_, ?_⟩, himage (initial_mem_reached A) hinitial,
    fun p hp => (h.terminal (hf p hp)).symm,
    fun p hp q hq s => ⟨fun hs => ?_, fun hs => ?_⟩⟩
  · rintro p ⟨w, hw⟩
    obtain ⟨q, hw', hpq⟩ := h.exists_walk hinitial hw
    exact himage ⟨w, hw⟩ hpq ▸ ⟨w, hw'⟩
  · intro p hp p' hp' heq
    exact hR.1 (hf p hp) (heq ▸ hf p' hp')
  · rintro q ⟨w, hw⟩
    obtain ⟨p, hw', hpq⟩ := h.symm.exists_walk hinitial hw
    exact ⟨p, ⟨w, hw'⟩, himage ⟨w, hw'⟩ hpq⟩
  · obtain ⟨q', hs', hqq'⟩ := h.forth (hf p hp) hs
    exact himage hq hqq' ▸ hs'
  · obtain ⟨q', hs', hqq'⟩ := h.back (hf p hp) hs
    exact hR.1 hqq' (hf q hq) ▸ hs'

theorem Renumbering.step_iff (h : Renumbering A B f) (hp : p ∈ A.reached) {s : Symbol} {r : Nat} :
    B.Step (f p) s r ↔ ∃ q, A.Step p s q ∧ f q = r := by
  constructor
  · intro hs
    obtain ⟨q, hq, rfl⟩ := h.bijOn.surjOn (mem_reached_of_step (h.bijOn.mapsTo hp) hs)
    exact ⟨q, (h.step p hp q hq s).mpr hs, rfl⟩
  · rintro ⟨q, hs, rfl⟩
    exact (h.step p hp q (mem_reached_of_step hp hs) s).mp hs

theorem Renumbering.bisimulation (h : Renumbering A B f) :
    Bisimulation A B fun p q => p ∈ A.reached ∧ f p = q where
  terminal := by
    rintro p _ ⟨hp, rfl⟩
    exact (h.terminal p hp).symm
  forth := by
    rintro p _ p' s ⟨hp, rfl⟩ hs
    exact ⟨f p', (h.step_iff hp).mpr ⟨p', hs, rfl⟩, mem_reached_of_step hp hs, rfl⟩
  back := by
    rintro p _ q' s ⟨hp, rfl⟩ hs
    obtain ⟨p', hs', rfl⟩ := (h.step_iff hp).mp hs
    exact ⟨p', hs', mem_reached_of_step hp hs', rfl⟩

theorem Renumbering.biUnique (h : Renumbering A B f) :
    Relator.BiUnique fun p q => p ∈ A.reached ∧ f p = q := by
  constructor
  · rintro p p' _ ⟨hp, rfl⟩ ⟨hp', heq⟩
    exact h.bijOn.injOn hp hp' heq.symm
  · rintro p _ _ ⟨_, rfl⟩ ⟨_, rfl⟩
    rfl

/-! ## Renaming of tables -/

theorem tableAt_eq_rename_iff : B.tableAt q = (A.tableAt p).rename f ↔
    (∀ s, A.HasEntry p s ↔ B.HasEntry q s) ∧ ∀ s r, B.Step q s r ↔
    ∃ p', A.Step p s p' ∧ f p' = r := by
  simp only [Table.eq_rename_iff, hasEntry_iff_tableAt, Step, next_eq_tableAt]

/-- A one-to-one map of the reached states onto those of another automaton, which maps the initial
state to the initial state, terminal states to terminal ones and others to others, and whose images
have the renamed tables. -/
structure Relabelling (A B : FiniteAutomaton) (f : Nat → Nat) : Prop where
  bijOn : Set.BijOn f A.reached B.reached
  initial : f A.initial = B.initial
  terminal : ∀ p ∈ A.reached, B.isTerminal (f p) = A.isTerminal p
  table : ∀ p ∈ A.reached, B.tableAt (f p) = (A.tableAt p).rename f

/-- Tables tell edges and entries for symbols. -/
theorem relabelling_iff : Relabelling A B f ↔
    Renumbering A B f ∧ ∀ p ∈ A.reached, ∀ s, A.HasEntry p s ↔ B.HasEntry (f p) s := by
  constructor
  · intro h
    have htable {p : Nat} (hp : p ∈ A.reached) := tableAt_eq_rename_iff.mp (h.table p hp)
    refine ⟨⟨h.bijOn, h.initial, h.terminal, fun p hp q hq s => ⟨fun hs => ?_, fun hs => ?_⟩⟩,
      fun p hp => (htable hp).1⟩
    · exact ((htable hp).2 s (f q)).mpr ⟨q, hs, rfl⟩
    · obtain ⟨q', hs', heq⟩ := ((htable hp).2 s (f q)).mp hs
      exact h.bijOn.injOn (mem_reached_of_step hp hs') hq heq ▸ hs'
  · rintro ⟨h, hentry⟩
    exact ⟨h.bijOn, h.initial, h.terminal,
      fun p hp => tableAt_eq_rename_iff.mpr ⟨hentry p hp, fun _ _ => h.step_iff hp⟩⟩

theorem Relabelling.isomorphism (h : Relabelling A B f) :
    Isomorphism A B fun p q => p ∈ A.reached ∧ f p = q where
  toBisimulation := (relabelling_iff.mp h).1.bisimulation
  initial := ⟨initial_mem_reached A, h.initial⟩
  biUnique := (relabelling_iff.mp h).1.biUnique
  entry := by
    rintro p _ ⟨hp, rfl⟩
    exact (relabelling_iff.mp h).2 p hp

/-- Automata are isomorphic if and only if the reached states of one are those of the other under
other names. -/
theorem isomorphic_iff_relabelling : A.Isomorphic B ↔ ∃ f, Relabelling A B f := by
  constructor
  · rintro ⟨R, hR⟩
    obtain ⟨f, hf⟩ := hR.toBisimulation.exists_images hR.initial
    exact ⟨f, relabelling_iff.mpr ⟨hR.toBisimulation.renumbering hR.biUnique hR.initial hf,
      fun p hp => hR.entry (hf p hp)⟩⟩
  · rintro ⟨f, hf⟩
    exact ⟨_, hf.isomorphism⟩

/-- Automata of which at least one is not deterministic are found equal if and only if they have one
alphabet and the reached states of one are those of the other under other names. Queues find the
reachable states of both, and the loop that goes through the candidates for their images ends with
this answer and no other. -/
theorem equal_iff_relabelling (hA : A.Assembled) (hB : B.Assembled)
    (hdet : A.isDeterministic = false ∨ B.isDeterministic = false) :
    (A.equal B = true ↔ A.alphabet = B.alphabet ∧ ∃ f, Relabelling A B f) ∧
      Queue.Lists A.successors A.initial A.breadthFirst ∧
      Queue.Lists B.successors B.initial B.breadthFirst ∧
      (A.alphabet = B.alphabet → ∀ answer, Backtrack.Decides A B answer ↔ answer = A.equal B) := by
  have hnot : (A.isDeterministic && B.isDeterministic) = false := by
    rcases hdet with h | h <;> simp [h]
  have hisomorphic : A.alphabet = B.alphabet → A.equal B = A.isomorphic B := fun halphabet => by
    simp [equal, halphabet, hnot]
  refine ⟨?_, lists_breadthFirst hA.wellFormed, lists_breadthFirst hB.wellFormed,
    fun halphabet answer => ?_⟩
  · rw [equal_iff_of_not_deterministic hA.wellFormed hB.wellFormed
      (by simp [← Bool.and_eq_true, hnot]), isomorphic_iff_relabelling]
  · rw [hisomorphic halphabet]
    exact Backtrack.decides_iff hA.wellFormed

/-- Two ways from the initial state on one symbol, and an entry without an edge at the end of one of
them. -/
def parting : Parts Nat :=
  ⟨0, [⟨0, "", false, Table.ofEdges [(.literal "a", 1), (.literal "a", 2)]⟩,
    ⟨1, "", false, Table.ofRows [(.epsilon, [0]), (.literal "b", [])]⟩,
    ⟨2, "", true, Table.ofEdges [(.literal "b", 2)]⟩], ∅⟩

/-- The same states in another order, and one that no walk leads to. -/
def reparting : Parts Nat :=
  ⟨3, [⟨0, "", true, Table.ofEdges [(.literal "b", 0)]⟩,
    ⟨1, "", true, Table.ofEdges [(.literal "a", 3)]⟩,
    ⟨2, "", false, Table.ofRows [(.epsilon, [3]), (.literal "b", [])]⟩,
    ⟨3, "", false, Table.ofEdges [(.literal "a", 0), (.literal "a", 2)]⟩], ∅⟩

/-- The same states but for the entry without an edge. -/
def bareParting : Parts Nat :=
  ⟨0, [⟨0, "", false, Table.ofEdges [(.literal "a", 1), (.literal "a", 2)]⟩,
    ⟨1, "", false, Table.ofEdges [(.epsilon, 0)]⟩,
    ⟨2, "", true, Table.ofEdges [(.literal "b", 2)]⟩], ∅⟩

theorem equal_iff_relabelling_parting :
    parting.automaton.Assembled ∧ reparting.automaton.Assembled ∧ bareParting.automaton.Assembled ∧
      parting.automaton.isDeterministic = false ∧
      (∃ f, Relabelling parting.automaton reparting.automaton f) ∧
      parting.automaton.alphabet = bareParting.automaton.alphabet ∧
      (¬ ∃ f, Relabelling parting.automaton bareParting.automaton f) ∧
      parting.automaton.breadthFirst = [0, 1, 2] ∧ reparting.automaton.breadthFirst = [3, 0, 2] ∧
      Backtrack.Answers parting.automaton reparting.automaton [0, 1, 2] [3, 0, 2] (.start 3) true ∧
      Backtrack.Answers parting.automaton bareParting.automaton [0, 1, 2] [0, 1, 2] (.start 3)
        false := by
  have hA : parting.automaton.Assembled := ⟨parting, rfl⟩
  have hB : reparting.automaton.Assembled := ⟨reparting, rfl⟩
  have hC : bareParting.automaton.Assembled := ⟨bareParting, rfl⟩
  have hdet : parting.automaton.isDeterministic = false := by decide
  have halphabet : parting.automaton.alphabet = reparting.automaton.alphabet := by decide
  have halphabet' : parting.automaton.alphabet = bareParting.automaton.alphabet := by decide
  have hequal : parting.automaton.equal reparting.automaton = true := by decide +kernel
  have hdifferent : parting.automaton.equal bareParting.automaton = false := by decide +kernel
  have hparting : parting.automaton.breadthFirst = [0, 1, 2] := by decide
  have hreparting : reparting.automaton.breadthFirst = [3, 0, 2] := by decide
  have hbare : bareParting.automaton.breadthFirst = [0, 1, 2] := by decide
  obtain ⟨hiff, _, _, hdecides⟩ := equal_iff_relabelling hA hB (.inl hdet)
  obtain ⟨hiff', _, _, hdecides'⟩ := equal_iff_relabelling hA hC (.inl hdet)
  have hfinds := (hdecides halphabet true).mpr hequal.symm
  have hfails := (hdecides' halphabet' false).mpr hdifferent.symm
  simp only [Backtrack.Decides, hparting, hreparting, List.length_cons, List.length_nil,
    if_true] at hfinds
  simp only [Backtrack.Decides, hparting, hbare, List.length_cons, List.length_nil,
    if_true] at hfails
  refine ⟨hA, hB, hC, hdet, (hiff.mp hequal).2, halphabet', fun hf => ?_, hparting, hreparting,
    hfinds, hfails⟩
  have hsame := hiff'.mpr ⟨halphabet', hf⟩
  rw [hdifferent] at hsame
  cases hsame

end Automaton

end Acceptors
