import Acceptors.Automaton.Quotient
import Acceptors.Proofs.Complement
import Acceptors.Proofs.Minimize

/-!
The quotient of an automaton by its coarsest bisimulation. States of one block have edges on the
same symbols to the same blocks (`step_of_bisimulationClass_eq`), so a state and its block have the
same words. Main statement: `wordsFrom_mergeBisimilar`.
-/

namespace Acceptors.Automaton

variable {A : FiniteAutomaton}

/-- The block of a state. -/
def bisimulationClass (A : FiniteAutomaton) (q : Nat) : Nat :=
  Partition.blockOf (bisimulationBlocks A.states) q

theorem size_bisimulationBlocks (A : FiniteAutomaton) :
    (bisimulationBlocks A.states).size = A.size :=
  (Partition.size_refine _ _).trans (size_acceptanceBlocks A)

theorem ranked_bisimulationBlocks (A : FiniteAutomaton) :
    Partition.Ranked (bisimulationBlocks A.states) :=
  (Partition.round_refine _ _).1

theorem isTerminal_eq_of_bisimulationClass_eq {p q : Nat} (hp : p < A.size) (hq : q < A.size)
    (h : A.bisimulationClass p = A.bisimulationClass q) : A.isTerminal p = A.isTerminal q := by
  have hsize := size_acceptanceBlocks A
  exact (blockOf_acceptanceBlocks_eq_iff hp hq).mp
    (Partition.blockOf_eq_of_refine (hsize.symm ▸ hp) (hsize.symm ▸ hq) h)

/-! ## Signatures -/

/-- The table of a state; the empty one for a number that is no state. -/
def tableAt (A : FiniteAutomaton) (p : Nat) : Table Nat :=
  match A.states[p]? with
  | some state => state.table
  | none => ∅

theorem next_eq_tableAt (p : Nat) (s : Symbol) : A.next p s = (A.tableAt p).next s := by
  unfold next tableAt
  cases A.states[p]? <;> rfl

theorem hasEntry_iff_tableAt {p : Nat} {s : Symbol} :
    A.HasEntry p s ↔ ((A.tableAt p).get? s).isSome = true := by
  unfold HasEntry tableAt
  cases A.states[p]? <;> simp [SortedMap.contains]

theorem signature_eq_tableAt (block : Nat → Nat) (p : Nat) :
    signature A.states block p = ((A.tableAt p).map fun _ targets =>
      SortedSet.ofList (targets.toList.map block)).entries := by
  unfold signature tableAt
  cases A.states[p]? <;> rfl

/-- States have one signature if and only if they have entries for the same symbols and edges on the
same symbols to the same blocks. -/
theorem signature_eq_iff {block : Nat → Nat} {p q : Nat} :
    signature A.states block p = signature A.states block q ↔
      (∀ s, A.HasEntry p s ↔ A.HasEntry q s) ∧
        ∀ s b, (∃ r, A.Step p s r ∧ block r = b) ↔ ∃ r, A.Step q s r ∧ block r = b := by
  rw [signature_eq_tableAt, signature_eq_tableAt, SortedMap.entries_map_eq_iff, ← forall_and]
  refine forall_congr' fun s => ?_
  simp only [hasEntry_iff_tableAt, Step, next_eq_tableAt, Table.next]
  cases (A.tableAt p).get? s with
  | none => cases (A.tableAt q).get? s <;> simp
  | some targets =>
    cases (A.tableAt q).get? s with
    | none => simp
    | some targets' =>
      have himage (ts : SortedSet Nat) (b : Nat) :
          (∃ r ∈ ts.toList, block r = b) ↔ b ∈ SortedSet.ofList (ts.toList.map block) := by simp
      simp only [Option.map_some, Option.some.injEq, Option.isSome_some, true_and, himage]
      exact ⟨fun h b => by rw [h], SortedSet.ext⟩

theorem signature_bisimulationClass_eq {p q : Nat} (hp : p < A.size) (hq : q < A.size)
    (h : A.bisimulationClass p = A.bisimulationClass q) :
    signature A.states A.bisimulationClass p = signature A.states A.bisimulationClass q :=
  Partition.signature_refine ((size_acceptanceBlocks A).symm ▸ hp)
    ((size_acceptanceBlocks A).symm ▸ hq) h

theorem hasEntry_iff_of_bisimulationClass_eq {p q : Nat} (hp : p < A.size) (hq : q < A.size)
    (h : A.bisimulationClass p = A.bisimulationClass q) (s : Symbol) :
    A.HasEntry p s ↔ A.HasEntry q s :=
  (signature_eq_iff.mp (signature_bisimulationClass_eq hp hq h)).1 s

/-- States of one block have edges on the same symbols to the same blocks. -/
theorem step_of_bisimulationClass_eq {p p' q : Nat} {s : Symbol} (hp : p < A.size) (hq : q < A.size)
    (h : A.bisimulationClass p = A.bisimulationClass q) (hs : A.Step p s p') :
    ∃ q', A.Step q s q' ∧ A.bisimulationClass q' = A.bisimulationClass p' :=
  ((signature_eq_iff.mp (signature_bisimulationClass_eq hp hq h)).2 s _).mp ⟨p', hs, rfl⟩

/-! ## The quotient -/

theorem lt_size_mergeBisimilar_iff {b : Nat} :
    b < A.mergeBisimilar.size ↔ ∃ q < A.size, A.bisimulationClass q = b := by
  have hsize : A.mergeBisimilar.size = (Partition.groups (bisimulationBlocks A.states)).length := by
    simp [mergeBisimilar, size]
  rw [hsize, Partition.lt_length_groups_iff (ranked_bisimulationBlocks A), size_bisimulationBlocks]
  rfl

/-- The states of a block. -/
def bisimulationGroup (A : FiniteAutomaton) (b : Nat) : List Nat :=
  (List.range A.size).filter fun p => A.bisimulationClass p == b

theorem group_bisimulationBlocks (b : Nat) :
    Partition.group (bisimulationBlocks A.states) b = A.bisimulationGroup b := by
  rw [Partition.group, size_bisimulationBlocks]
  rfl

theorem mem_bisimulationGroup {p b : Nat} :
    p ∈ A.bisimulationGroup b ↔ p < A.size ∧ A.bisimulationClass p = b := by
  simp [bisimulationGroup]

theorem getElem?_mergeBisimilar {b : Nat} (hb : b < A.mergeBisimilar.size) :
    A.mergeBisimilar.states[b]? = some ⟨b, A.labels (A.bisimulationGroup b),
      ((A.bisimulationGroup b).take 1).any A.isTerminal,
      Table.ofEdges (((A.bisimulationGroup b).flatMap A.edges).map fun edge =>
        (edge.1, A.bisimulationClass edge.2))⟩ := by
  have hlt : b < (Partition.groups (bisimulationBlocks A.states)).length := by
    simpa [mergeBisimilar, size] using hb
  have hindex := Partition.blockOf_headD_group (ranked_bisimulationBlocks A) hlt
  rw [group_bisimulationBlocks] at hindex
  simp only [mergeBisimilar, List.getElem?_map, Partition.getElem?_groups hlt,
    group_bisimulationBlocks, Option.map_some, Option.some.injEq, State.mk.injEq]
  exact ⟨hindex, trivial, trivial, rfl⟩

/-- The states are numbered as the blocks are. -/
theorem indexed_mergeBisimilar (A : FiniteAutomaton) : A.mergeBisimilar.Indexed := by
  intro b q hq
  have hb : b < A.mergeBisimilar.size := (List.getElem?_eq_some_iff.mp hq).1
  rw [getElem?_mergeBisimilar hb] at hq
  cases hq
  rfl

theorem step_mergeBisimilar {q : Nat} (hq : q < A.size) {s : Symbol} {b : Nat} :
    A.mergeBisimilar.Step (A.bisimulationClass q) s b ↔
      ∃ r, A.Step q s r ∧ A.bisimulationClass r = b := by
  have hnext : A.mergeBisimilar.Step (A.bisimulationClass q) s b ↔
      ∃ p ∈ A.bisimulationGroup (A.bisimulationClass q), ∃ r, A.Step p s r ∧
        A.bisimulationClass r = b := by
    rw [Step, next, getElem?_mergeBisimilar (lt_size_mergeBisimilar_iff.mpr ⟨q, hq, rfl⟩)]
    simp only [State.next, Table.mem_next_ofEdges, List.mem_map, List.mem_flatMap, Prod.exists,
      Prod.mk.injEq, mem_edges]
    constructor
    · rintro ⟨s, r, ⟨p, hp, hs⟩, rfl, rfl⟩
      exact ⟨p, hp, r, hs, rfl⟩
    · rintro ⟨p, hp, r, hs, rfl⟩
      exact ⟨s, r, ⟨p, hp, hs⟩, rfl, rfl⟩
  rw [hnext]
  constructor
  · rintro ⟨p, hp, r, hs, rfl⟩
    obtain ⟨hp, hclass⟩ := mem_bisimulationGroup.mp hp
    exact step_of_bisimulationClass_eq hp hq hclass hs
  · rintro ⟨r, hs, rfl⟩
    exact ⟨q, mem_bisimulationGroup.mpr ⟨hq, rfl⟩, r, hs, rfl⟩

theorem isTerminal_mergeBisimilar {q : Nat} (hq : q < A.size) :
    A.mergeBisimilar.isTerminal (A.bisimulationClass q) = A.isTerminal q := by
  have hself : q ∈ A.bisimulationGroup (A.bisimulationClass q) :=
    mem_bisimulationGroup.mpr ⟨hq, rfl⟩
  rw [isTerminal, getElem?_mergeBisimilar (lt_size_mergeBisimilar_iff.mpr ⟨q, hq, rfl⟩)]
  cases hgroup : A.bisimulationGroup (A.bisimulationClass q) with
  | nil =>
    rw [hgroup] at hself
    cases hself
  | cons p rest =>
    have hp : p ∈ A.bisimulationGroup (A.bisimulationClass q) := by
      rw [hgroup]
      exact List.mem_cons_self
    obtain ⟨hp, hclass⟩ := mem_bisimulationGroup.mp hp
    simpa using isTerminal_eq_of_bisimulationClass_eq hp hq hclass

theorem covering_mergeBisimilar (hA : A.WellFormed) :
    Covering A.Step (fun q => A.isTerminal q = true) A.mergeBisimilar.Step
      (fun q => A.mergeBisimilar.isTerminal q = true) (· < A.size) A.bisimulationClass where
  closed _ _ _ _ hs := hA.target_lt hs
  terminal q hq := by rw [isTerminal_mergeBisimilar hq]
  edge _ _ _ hq := step_mergeBisimilar hq

/-- A state and its block have the same words. -/
theorem wordsFrom_mergeBisimilar (hA : A.WellFormed) {q : Nat} (hq : q < A.size) :
    A.mergeBisimilar.wordsFrom (A.bisimulationClass q) = A.wordsFrom q :=
  (covering_mergeBisimilar hA).wordsTo_eq hq

theorem exists_of_step_mergeBisimilar {b c : Nat} {s : Symbol} (h : A.mergeBisimilar.Step b s c) :
    ∃ q r, A.bisimulationClass q = b ∧ A.bisimulationClass r = c ∧ A.Step q s r := by
  obtain ⟨q, hq, rfl⟩ := lt_size_mergeBisimilar_iff.mp (source_lt h)
  obtain ⟨r, hs, rfl⟩ := (step_mergeBisimilar hq).mp h
  exact ⟨q, r, rfl, rfl, hs⟩

theorem Labelled.mergeBisimilar (hA : A.Labelled) : A.mergeBisimilar.Labelled where
  wellFormed := by
    refine ⟨?_, fun b s c h => ?_⟩
    · exact lt_size_mergeBisimilar_iff.mpr ⟨A.initial, hA.wellFormed.initial_lt, rfl⟩
    · obtain ⟨_, r, _, rfl, hs⟩ := exists_of_step_mergeBisimilar h
      exact lt_size_mergeBisimilar_iff.mpr ⟨r, hA.wellFormed.target_lt hs, rfl⟩
  mem_alphabet h hne := by
    obtain ⟨_, _, _, _, hs⟩ := exists_of_step_mergeBisimilar h
    exact hA.mem_alphabet hs hne

end Acceptors.Automaton
