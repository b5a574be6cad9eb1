import Acceptors.Proofs.Bisimulation

/-!
How refinement comes to its end, round by round and without the bound on rounds that it is given. A
round only splits blocks, so their number grows until it stays, and where it stays no block is split
(`exists_settles`). The count starts at 0 whatever the first partition is, which costs one round at
most. Main statement: `Automaton.refinement_settles`, for the coarsest bisimulation and for the
minimal form.
-/

namespace Acceptors

namespace Partition

variable {κ : Type} [DecidableEq κ] {signature : (Nat → Nat) → Nat → κ} {blocks : Array Nat}

/-- Members of one block are in one block of the coarser partition too. -/
def Refines (fine coarse : Array Nat) : Prop :=
  ∀ p < fine.size, ∀ q < fine.size, blockOf fine p = blockOf fine q →
    blockOf coarse p = blockOf coarse q

/-- The number of blocks and the blocks after so many rounds. -/
def after (signature : (Nat → Nat) → Nat → κ) (blocks : Array Nat) : Nat → Nat × Array Nat
  | 0 => (0, blocks)
  | k + 1 => round signature (after signature blocks k).2

/-- Rounds are made until round `k + 1` finds as many blocks as round `k` did, and `last` is what it
leaves. -/
structure Settles (signature : (Nat → Nat) → Nat → κ) (blocks last : Array Nat) (k : Nat) :
    Prop where
  grows : ∀ j < k, (after signature blocks j).1 < (after signature blocks (j + 1)).1
  stops : (after signature blocks (k + 1)).1 = (after signature blocks k).1
  last_eq : last = (after signature blocks (k + 1)).2
  refines : ∀ j, Refines (after signature blocks (j + 1)).2 (after signature blocks j).2
  unsplit : Refines (after signature blocks k).2 last
  stable : ∀ p < last.size, ∀ q < last.size, blockOf last p = blockOf last q →
    signature (blockOf last) p = signature (blockOf last) q

theorem size_after (k : Nat) : (after signature blocks k).2.size = blocks.size := by
  induction k with
  | zero => rfl
  | succ k ih => rw [after, size_round, ih]

theorem refines_round : Refines (round signature blocks).2 blocks := by
  intro p hp q hq h
  rw [size_round] at hp hq
  exact ((blockOf_round_eq_iff hp hq).mp h).1

/-- The count is the number of blocks, but for the first one. -/
theorem length_distinct_after (k : Nat) :
    (distinct (after signature blocks (k + 1)).2.toList).length =
      (after signature blocks (k + 1)).1 :=
  length_distinct_round _ _

theorem after_le_succ (k : Nat) :
    (after signature blocks k).1 ≤ (after signature blocks (k + 1)).1 := by
  cases k with
  | zero => exact Nat.zero_le _
  | succ k =>
    rw [← length_distinct_after k]
    exact le_round _ _

theorem after_le_size (k : Nat) : (after signature blocks k).1 ≤ blocks.size := by
  cases k with
  | zero => exact Nat.zero_le _
  | succ k => exact Nat.le_trans (round_le_size _ _) (Nat.le_of_eq (size_after k))

/-- As long as every round finds a new block there are as many blocks as rounds. -/
theorem le_after {k : Nat}
    (h : ∀ j < k, (after signature blocks j).1 < (after signature blocks (j + 1)).1) :
    k ≤ (after signature blocks k).1 := by
  induction k with
  | zero => exact Nat.zero_le _
  | succ k ih =>
    have hk := ih fun j hj => h j (Nat.lt_succ_of_lt hj)
    exact Nat.lt_of_le_of_lt hk (h k (Nat.lt_succ_self k))

/-- One of the first rounds, one more than there are members, finds no new block. -/
theorem exists_stop (signature : (Nat → Nat) → Nat → κ) (blocks : Array Nat) :
    ∃ k ≤ blocks.size,
      (∀ j < k, (after signature blocks j).1 < (after signature blocks (j + 1)).1) ∧
      (after signature blocks (k + 1)).1 = (after signature blocks k).1 := by
  have hstop : ∃ k, (after signature blocks (k + 1)).1 = (after signature blocks k).1 := by
    by_contra hnone
    have hgrows :
        ∀ j < blocks.size + 1, (after signature blocks j).1 < (after signature blocks (j + 1)).1 :=
      fun j _ => Nat.lt_of_le_of_ne (after_le_succ j) fun heq => hnone ⟨j, heq.symm⟩
    have hlow := le_after hgrows
    have hhigh : (after signature blocks (blocks.size + 1)).1 ≤ blocks.size := after_le_size _
    omega
  have hgrows :
      ∀ j < Nat.find hstop, (after signature blocks j).1 < (after signature blocks (j + 1)).1 :=
    fun j hj => Nat.lt_of_le_of_ne (after_le_succ j) fun heq => Nat.find_min hstop hj heq.symm
  exact ⟨Nat.find hstop, Nat.le_trans (le_after hgrows) (after_le_size _), hgrows,
    Nat.find_spec hstop⟩

/-- Refinement from any round on ends with the round that finds no new block, if it has rounds
enough. -/
theorem refineFrom_after {k : Nat}
    (hgrows : ∀ j < k, (after signature blocks j).1 < (after signature blocks (j + 1)).1)
    (hstop : (after signature blocks (k + 1)).1 = (after signature blocks k).1) {j rounds : Nat}
    (hj : j ≤ k) (hrounds : k + 1 ≤ j + rounds) :
    refineFrom signature rounds (after signature blocks j).1 (after signature blocks j).2 =
      (after signature blocks (k + 1)).2 := by
  induction rounds generalizing j with
  | zero => omega
  | succ rounds ih =>
    have hround : round signature (after signature blocks j).2 = after signature blocks (j + 1) :=
      rfl
    unfold refineFrom
    dsimp only
    rw [hround]
    rcases Nat.eq_or_lt_of_le hj with rfl | hlt
    · rw [if_pos hstop]
    · rw [if_neg (Nat.ne_of_gt (hgrows j hlt))]
      exact ih hlt (by omega)

/-- A round that finds no new block leaves the partition as it is. -/
theorem refines_after_of_stop {k : Nat}
    (hstop : (after signature blocks (k + 1)).1 = (after signature blocks k).1) :
    Refines (after signature blocks k).2 (after signature blocks (k + 1)).2 := by
  cases k with
  | zero =>
    -- The first round finds no block at all, so there are no members.
    have hle : (distinct blocks.toList).length ≤ 0 :=
      (le_round signature blocks).trans (Nat.le_of_eq hstop)
    have hempty : blocks.toList = [] := by
      rw [List.eq_nil_iff_forall_not_mem]
      intro b hb
      exact Nat.not_lt_of_le hle (List.length_pos_of_mem (mem_distinct.mpr hb))
    intro p hp
    rw [after, ← Array.length_toList, hempty] at hp
    exact absurd hp (Nat.not_lt_zero p)
  | succ k =>
    have hlen : (round signature (after signature blocks (k + 1)).2).1 =
        (distinct (after signature blocks (k + 1)).2.toList).length :=
          hstop.trans (length_distinct_after k).symm
    have heq : (after signature blocks (k + 1 + 1)).2 = (after signature blocks (k + 1)).2 :=
      round_eq_of_length ranked_round hlen
    rw [heq]
    exact fun _ _ _ _ h => h

/-- Refinement makes one round more than there are members at most. Each round counts more blocks
than the one before, until one splits none, and members of a block that is left have one
signature. -/
theorem exists_settles (signature : (Nat → Nat) → Nat → κ) (blocks : Array Nat) :
    ∃ k ≤ blocks.size, Settles signature blocks (refine signature blocks) k := by
  obtain ⟨k, hk, hgrows, hstop⟩ := exists_stop signature blocks
  have hlast : refine signature blocks = (after signature blocks (k + 1)).2 :=
    refineFrom_after hgrows hstop (Nat.zero_le k) (by omega)
  refine ⟨k, hk, hgrows, hstop, hlast, fun j => refines_round, ?_, fun p hp q hq h => ?_⟩
  · rw [hlast]
    exact refines_after_of_stop hstop
  · rw [size_refine] at hp hq
    exact signature_refine hp hq h

end Partition

namespace Automaton

variable {A : FiniteAutomaton} {q : Nat} {s : Symbol}

/-! ## Successors among the useful states -/

/-- The blocks of the successors, symbol by symbol. -/
def successorSignature (A : FiniteAutomaton) (block : Nat → Nat) (q : Nat) : List (Option Nat) :=
  A.alphabet.toList.map fun s => (A.successor q s).map block

theorem equivalenceBlocks_eq (A : FiniteAutomaton) :
    A.equivalenceBlocks = Partition.refine A.successorSignature (State.acceptanceBlocks A.states) :=
    rfl

theorem successorSignature_classOf_eq {p : Nat} (hp : p < A.size) (hq : q < A.size)
    (h : A.classOf p = A.classOf q) :
    A.successorSignature A.classOf p = A.successorSignature A.classOf q :=
  Partition.signature_refine ((size_acceptanceBlocks A).symm ▸ hp)
    ((size_acceptanceBlocks A).symm ▸ hq) h

/-- The successor of a state, if it is of use. -/
def usefulSuccessor (A : FiniteAutomaton) (q : Nat) (s : Symbol) : Option Nat :=
  (A.successor q s).filter (· ∈ A.useful)

/-- The block of a useful state in the minimal form. -/
def minimalBlock (A : FiniteAutomaton) (q : Nat) : Nat := A.trim.classOf (A.useful.idxOf q)

theorem size_trim_le (hA : A.WellFormed) : A.trim.size ≤ A.size := by
  have hlt : ∀ q ∈ A.useful, q < A.size := fun q hq => by
    obtain ⟨⟨w, hw⟩, _⟩ := (mem_useful hA).mp hq
    exact hA.lt_of_walk hw hA.initial_lt
  have hsize : A.trim.size = A.useful.length := by simp [trim, restrict, size]
  have hsub : A.useful ⊆ List.range A.size := fun q hq => List.mem_range.mpr (hlt q hq)
  rw [hsize]
  exact ((nodup_useful A).subperm hsub).length_le.trans (Nat.le_of_eq List.length_range)

/-- Where a state is of use, so is the initial one. -/
theorem initial_mem_productive_of_mem_useful (hA : A.WellFormed) (hq : q ∈ A.useful) :
    A.initial ∈ A.productive := by
  obtain ⟨⟨v, hv⟩, w, r, hr, hw⟩ := (mem_useful hA).mp hq
  exact mem_productive.mpr ⟨v ++ w, r, hr, hv.append hw⟩

theorem successor_trim (hA : A.Labelled) (hdet : Deterministic A.Step) (hq : q ∈ A.useful)
    (s : Symbol) :
    A.trim.successor (A.useful.idxOf q) s = (A.usefulSuccessor q s).map A.useful.idxOf := by
  have hprod := initial_mem_productive_of_mem_useful hA.wellFormed hq
  have hstep (j : Nat) : A.trim.Step (A.useful.idxOf q) s j ↔
      ∃ r, (A.Step q s r ∧ r ∈ A.useful) ∧ A.useful.idxOf r = j := by
    rw [trim_eq_numbered, Graph.step_numbered hq]
    simp only [step_usefulGraph]
  ext j
  rw [successor_eq_some_iff (trimmed_trim hA hdet hprod).deterministic, hstep]
  simp [usefulSuccessor, Option.filter_eq_some_iff, successor_eq_some_iff hdet]

/-- The states of a block lead to the same blocks. -/
theorem usefulSuccessor_of_minimalBlock_eq (hA : A.Labelled) (hdet : Deterministic A.Step) {p : Nat}
    (hp : p ∈ A.useful) (hq : q ∈ A.useful) (h : A.minimalBlock p = A.minimalBlock q)
    (hs : s ∈ A.alphabet) :
    (A.usefulSuccessor p s).map A.minimalBlock = (A.usefulSuccessor q s).map A.minimalBlock := by
  have hlt {r : Nat} (hr : r ∈ A.useful) : A.useful.idxOf r < A.trim.size := by
    rw [trim_eq_numbered, Graph.size_numbered]
    exact List.idxOf_lt_length_of_mem hr
  have hsign := successorSignature_classOf_eq (hlt hp) (hlt hq) h
  have hsame := List.map_inj_left.mp hsign s hs
  have hblock : A.trim.classOf ∘ A.useful.idxOf = A.minimalBlock := by
    funext r
    rw [minimalBlock, Function.comp]
  rwa [successor_trim hA hdet hp, successor_trim hA hdet hq, Option.map_map, Option.map_map,
    hblock] at hsame

/-- On any states, those of one automaton or of two side by side, the search for the coarsest
bisimulation makes one round more than there are states at most; so does the minimal form of a
deterministic automaton on its useful states. Blocks are split in each round and never put together,
until a round splits none, and members of a block that is left have one signature, which in the
minimal form says of each symbol to which block the useful successor belongs. -/
theorem refinement_settles :
    (∀ states : List (State Nat), ∃ k ≤ states.length,
      Partition.Settles (signature states) (State.acceptanceBlocks states)
        (bisimulationBlocks states) k) ∧
    ∀ A : FiniteAutomaton, A.Assembled → A.isDeterministic = true →
      (∃ k ≤ A.size,
        Partition.Settles A.trim.successorSignature (State.acceptanceBlocks A.trim.states)
          A.trim.equivalenceBlocks k) ∧
      ∀ p ∈ A.useful, ∀ q ∈ A.useful, A.minimalBlock p = A.minimalBlock q → ∀ s ∈ A.alphabet,
        (A.usefulSuccessor p s).map A.minimalBlock =
          (A.usefulSuccessor q s).map A.minimalBlock := by
  constructor
  · intro states
    have hsize : (State.acceptanceBlocks states).size = states.length := by
      simp [State.acceptanceBlocks]
    obtain ⟨k, hk, hsettles⟩ :=
      Partition.exists_settles (signature states) (State.acceptanceBlocks states)
    exact ⟨k, hsize ▸ hk, hsettles⟩
  · intro A hA hdet
    refine ⟨?_, fun p hp q hq h s hs =>
      usefulSuccessor_of_minimalBlock_eq hA.labelled
        (deterministic_of_isDeterministic hdet) hp hq h hs⟩
    obtain ⟨k, hk, hsettles⟩ :=
      Partition.exists_settles A.trim.successorSignature (State.acceptanceBlocks A.trim.states)
    rw [size_acceptanceBlocks] at hk
    exact ⟨k, hk.trans (size_trim_le hA.wellFormed), equivalenceBlocks_eq A.trim ▸ hsettles⟩

/-- Each state has one word, longer than that of the next state; the fourth round finds nothing
new. -/
def descending : Parts Nat :=
  ⟨0, [⟨0, "", false, Table.ofEdges [(.literal "a", 1)]⟩,
    ⟨1, "", false, Table.ofEdges [(.literal "a", 2)]⟩,
      ⟨2, "", false, Table.ofEdges [(.literal "a", 3)]⟩,
    ⟨3, "", false, Table.ofEdges [(.literal "a", 4)]⟩, ⟨4, "", true, ∅⟩], ∅⟩

theorem refinement_settles_descending :
    descending.automaton.Assembled ∧ descending.automaton.isDeterministic = true ∧
      (∃ k ≤ 5, Partition.Settles (signature descending.automaton.states)
        (State.acceptanceBlocks descending.automaton.states)
        (bisimulationBlocks descending.automaton.states) k) ∧
      (∃ k ≤ 5, Partition.Settles descending.automaton.trim.successorSignature
        (State.acceptanceBlocks descending.automaton.trim.states)
        descending.automaton.trim.equivalenceBlocks k) ∧
      (List.range 6).map (fun k => (Partition.after descending.automaton.trim.successorSignature
        (State.acceptanceBlocks descending.automaton.trim.states) k).1) = [0, 3, 4, 5, 5, 5] := by
  have hA : descending.automaton.Assembled := ⟨descending, rfl⟩
  have hdet : descending.automaton.isDeterministic = true := by decide
  obtain ⟨hbisimulation, hminimal⟩ := refinement_settles
  exact ⟨hA, hdet, hbisimulation descending.automaton.states, (hminimal _ hA hdet).1,
    by decide +kernel⟩

end Automaton

end Acceptors
