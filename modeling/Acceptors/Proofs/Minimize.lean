import Acceptors.Automaton.Quotient
import Acceptors.Proofs.Assembly
import Acceptors.Proofs.Graph
import Acceptors.Proofs.Partition

/-!
Minimization. Trimming keeps the states that lie on accepted walks (`trimmed_trim`,
`wordsFrom_trim`), refinement puts states into one class exactly when they have the same words
(`Trimmed.classOf_eq_iff`), and the quotient by classes is reduced (`Trimmed.reduced_classes`). Main
statement: `minimize_minimal`.
-/

namespace Acceptors.Automaton

variable {A B : FiniteAutomaton}

/-! ## Trimming -/

/-- The useful part of an automaton as a graph. -/
def usefulGraph (A : FiniteAutomaton) : Graph Nat where
  start := A.initial
  edges q := (A.edges q).filter fun edge => edge.2 ∈ A.useful
  name := A.label
  terminal := A.isTerminal

theorem trim_eq_numbered (A : FiniteAutomaton) :
    A.trim = A.usefulGraph.numbered A.useful A.alphabet := rfl

theorem step_usefulGraph {p q : Nat} {s : Symbol} :
    A.usefulGraph.Step p s q ↔ A.Step p s q ∧ q ∈ A.useful := by
  rw [Graph.Step, usefulGraph, List.mem_filter, mem_edges, decide_eq_true_eq]

theorem nodup_useful (A : FiniteAutomaton) : A.useful.Nodup :=
  (A.reachable A.initial).nodup_toList.filter _

theorem lists_useful (hA : A.WellFormed) (h : A.initial ∈ A.productive) :
    A.usefulGraph.Lists A.useful where
  nodup := nodup_useful A
  start := initial_mem_useful hA h
  closed _ _ _ _ hs := (step_usefulGraph.mp hs).2

/-- A walk from a useful state to a useful one stays on useful states. -/
theorem walk_usefulGraph (hA : A.WellFormed) {p q : Nat} {u : Word} (hu : Walk A.Step p u q)
    (hp : p ∈ A.useful) (hq : q ∈ A.useful) : Walk A.usefulGraph.Step p u q := by
  induction hu with
  | nil p => exact .nil p
  | @cons p r q s u hs hu ih =>
    obtain ⟨⟨v, hv⟩, _⟩ := (mem_useful hA).mp hp
    obtain ⟨_, w, t, ht, hw⟩ := (mem_useful hA).mp hq
    have hr : r ∈ A.useful :=
      (mem_useful hA).mpr ⟨⟨_, hv.append (.edge hs)⟩, u ++ w, t, ht, hu.append hw⟩
    exact .cons (step_usefulGraph.mpr ⟨hs, hr⟩) (ih hr hq)

/-- Edges to states from which no word is accepted may be left out. -/
theorem wordsFrom_usefulGraph (hA : A.WellFormed) {q : Nat} (hq : q ∈ A.useful) :
    A.usefulGraph.wordsFrom q = A.wordsFrom q := by
  apply le_antisymm
  · rintro w ⟨t, ht, hw⟩
    exact ⟨t, ht, hw.mono fun _ _ _ hs => (step_usefulGraph.mp hs).1⟩
  · rintro w ⟨t, ht, hw⟩
    obtain ⟨⟨u, hu⟩, _⟩ := (mem_useful hA).mp hq
    have htu : t ∈ A.useful := (mem_useful hA).mpr ⟨⟨_, hu.append hw⟩, [], t, ht, .nil t⟩
    exact ⟨t, ht, walk_usefulGraph hA hw hq htu⟩

theorem wordsFrom_trim (hA : A.WellFormed) (h : A.initial ∈ A.productive) {q : Nat}
    (hq : q ∈ A.useful) : A.trim.wordsFrom (A.useful.idxOf q) = A.wordsFrom q := by
  rw [trim_eq_numbered, ← wordsFrom_usefulGraph hA hq]
  exact (lists_useful hA h).wordsFrom_numbered hq

theorem Trimmed.labelled (hA : A.Trimmed) : A.Labelled :=
  ⟨hA.wellFormed, fun {p q s} hs _ => hA.mem_alphabet p s q hs⟩

theorem trimmed_trim (hA : A.Labelled) (hdet : Deterministic A.Step)
    (h : A.initial ∈ A.productive) : A.trim.Trimmed := by
  have hlists := lists_useful hA.wellFormed h
  have hsize : ∀ i < A.trim.size, ∃ q ∈ A.useful, A.useful.idxOf q = i := fun i hi =>
    Graph.exists_of_lt_size (g := A.usefulGraph) hi hlists.nodup
  constructor
  · exact hlists.wellFormed_numbered
  · refine hlists.deterministic_numbered ⟨fun p q hs => ?_, fun p s q r hq hr => ?_⟩
    · exact hdet.noEpsilon p q (step_usefulGraph.mp hs).1
    · exact hdet.unique p s q r (step_usefulGraph.mp hq).1 (step_usefulGraph.mp hr).1
  · intro i s j hs
    obtain ⟨p, _, q, _, _, _, hpq⟩ := hlists.exists_of_step hs
    have hstep := (step_usefulGraph.mp hpq).1
    exact hA.mem_alphabet hstep fun he => hdet.noEpsilon p q (he ▸ hstep)
  · intro i hi
    obtain ⟨q, hq, rfl⟩ := hsize i hi
    obtain ⟨⟨u, hu⟩, _⟩ := (mem_useful hA.wellFormed).mp hq
    have hwalk := walk_usefulGraph hA.wellFormed hu hlists.start hq
    exact ⟨u, (hlists.covering A.alphabet).walk hwalk hlists.start⟩
  · intro i hi
    obtain ⟨q, hq, rfl⟩ := hsize i hi
    rw [wordsFrom_trim hA.wellFormed h hq]
    exact ((mem_useful hA.wellFormed).mp hq).2

/-! ## Blocks of states with the same words -/

theorem size_acceptanceBlocks (A : FiniteAutomaton) :
    (State.acceptanceBlocks A.states).size = A.size := by
  simp [State.acceptanceBlocks, size]

theorem blockOf_acceptanceBlocks_eq_iff {p q : Nat} (hp : p < A.size) (hq : q < A.size) :
    Partition.blockOf (State.acceptanceBlocks A.states) p =
        Partition.blockOf (State.acceptanceBlocks A.states) q ↔
      A.isTerminal p = A.isTerminal q := by
  have hblock : ∀ r < A.size, Partition.blockOf (State.acceptanceBlocks A.states) r =
      if A.isTerminal r then 0 else 1 := by
    intro r hr
    have hget : A.states[r]? = some A.states[r] := List.getElem?_eq_getElem hr
    simp [Partition.blockOf, State.acceptanceBlocks, isTerminal, hget]
  rw [hblock p hp, hblock q hq]
  cases A.isTerminal p <;> cases A.isTerminal q <;> simp

theorem size_equivalenceBlocks (A : FiniteAutomaton) : A.equivalenceBlocks.size = A.size := by
  rw [equivalenceBlocks, Partition.size_refine, size_acceptanceBlocks]

/-- The block of a state. -/
def classOf (A : FiniteAutomaton) (q : Nat) : Nat := Partition.blockOf A.equivalenceBlocks q

theorem isTerminal_eq_of_classOf_eq {p q : Nat} (hp : p < A.size) (hq : q < A.size)
    (h : A.classOf p = A.classOf q) : A.isTerminal p = A.isTerminal q := by
  have hsize := size_acceptanceBlocks A
  exact (blockOf_acceptanceBlocks_eq_iff hp hq).mp
    (Partition.blockOf_eq_of_refine (hsize.symm ▸ hp) (hsize.symm ▸ hq) h)

theorem Trimmed.step_of_classOf_eq (hA : A.Trimmed) {p p' q : Nat} {s : Symbol} (hp : p < A.size)
    (hq : q < A.size) (h : A.classOf p = A.classOf q) (hs : A.Step p s p') :
    ∃ q', A.Step q s q' ∧ A.classOf p' = A.classOf q' := by
  have hsize := size_acceptanceBlocks A
  have hsign := Partition.signature_refine (hsize.symm ▸ hp) (hsize.symm ▸ hq) h
  have hsame := List.map_inj_left.mp hsign s (hA.mem_alphabet p s p' hs)
  rw [(successor_eq_some_iff hA.deterministic).mpr hs, Option.map_some, eq_comm,
    Option.map_eq_some_iff] at hsame
  obtain ⟨q', hq', hclass⟩ := hsame
  exact ⟨q', (successor_eq_some_iff hA.deterministic).mp hq', hclass.symm⟩

theorem Trimmed.wordsFrom_le_of_classOf_eq (hA : A.Trimmed) {p q : Nat} (hp : p < A.size)
    (hq : q < A.size) (h : A.classOf p = A.classOf q) : A.wordsFrom p ≤ A.wordsFrom q := by
  refine wordsTo_le_of_simulation
    (R := fun p q => p < A.size ∧ q < A.size ∧ A.classOf p = A.classOf q) ?_ ?_ ⟨hp, hq, h⟩
  · rintro p q ⟨hp, hq, h⟩ ht
    rwa [← isTerminal_eq_of_classOf_eq hp hq h]
  · rintro p q s p' ⟨hp, hq, h⟩ hs _
    obtain ⟨q', hq', hclass⟩ := hA.step_of_classOf_eq hp hq h hs
    exact ⟨q', hq', hA.wellFormed.target_lt hs, hA.wellFormed.target_lt hq', hclass⟩

/-- The successors of states with the same words have the same words again. -/
theorem Trimmed.map_successor_eq (hA : A.Trimmed) {block : Nat → Nat}
    (hblock : ∀ p q, p < A.size ∧ q < A.size ∧ A.wordsFrom p = A.wordsFrom q → block p = block q)
    {p q : Nat} (h : A.wordsFrom p = A.wordsFrom q) (s : Symbol) :
    (A.successor p s).map block = (A.successor q s).map block := by
  have hstep : ∀ {p q r : Nat}, A.wordsFrom p = A.wordsFrom q → A.Step p s r →
      ∃ r', A.Step q s r' ∧ block r = block r' := by
    intro p q r h hr
    have hlt := hA.wellFormed.target_lt hr
    obtain ⟨r', hr', hwords⟩ := exists_step_of_wordsFrom_eq hA.deterministic hA.deterministic h hr
      (hA.productive r hlt)
    exact ⟨r', hr', hblock r r' ⟨hlt, hA.wellFormed.target_lt hr', hwords⟩⟩
  cases hp : A.successor p s with
  | none =>
    have hq : A.successor q s = none := by
      rw [successor_eq_none_iff]
      intro r hr
      obtain ⟨r', hr', _⟩ := hstep h.symm hr
      exact successor_eq_none_iff.mp hp r' hr'
    rw [hq]
  | some r =>
    obtain ⟨r', hr', hrr'⟩ := hstep h ((successor_eq_some_iff hA.deterministic).mp hp)
    rw [(successor_eq_some_iff hA.deterministic).mpr hr', Option.map_some, Option.map_some, hrr']

/-- Refinement separates exactly the states with different words. -/
theorem Trimmed.classOf_eq_iff (hA : A.Trimmed) {p q : Nat} (hp : p < A.size) (hq : q < A.size) :
    A.classOf p = A.classOf q ↔ A.wordsFrom p = A.wordsFrom q := by
  constructor
  · intro h
    exact le_antisymm (hA.wordsFrom_le_of_classOf_eq hp hq h)
      (hA.wordsFrom_le_of_classOf_eq hq hp h.symm)
  · intro h
    have hsize := size_acceptanceBlocks A
    refine Partition.blockOf_refine_eq_of_invariant
      (E := fun p q => p < A.size ∧ q < A.size ∧ A.wordsFrom p = A.wordsFrom q) ?_ ?_ ?_ ⟨hp, hq, h⟩
    · rintro p q ⟨hp, hq, _⟩
      rw [hsize]
      exact ⟨hp, hq⟩
    · rintro p q ⟨hp, hq, h⟩
      exact (blockOf_acceptanceBlocks_eq_iff hp hq).mpr
        (isTerminal_eq_of_wordsFrom_eq hA.deterministic hA.deterministic h)
    · rintro block hblock p q ⟨_, _, h⟩
      exact List.map_congr_left fun s _ => hA.map_successor_eq hblock h s

/-! ## The quotient -/

/-- The quotient by the blocks of states with the same words. -/
def classes (A : FiniteAutomaton) : FiniteAutomaton := A.quotient A.equivalenceBlocks

theorem initial_classes (A : FiniteAutomaton) : A.classes.initial = A.classOf A.initial := rfl

theorem ranked_equivalenceBlocks (A : FiniteAutomaton) :
    Partition.Ranked A.equivalenceBlocks :=
  (Partition.round_refine _ _).1

theorem lt_size_classes_iff {b : Nat} :
    b < A.classes.size ↔ ∃ q < A.size, A.classOf q = b := by
  have hsize : A.classes.size = (Partition.groups A.equivalenceBlocks).length := by
    simp [classes, quotient, size]
  rw [hsize, Partition.lt_length_groups_iff (ranked_equivalenceBlocks A), size_equivalenceBlocks]
  rfl

/-- The first member of a block speaks for it. -/
theorem getElem?_classes {q : Nat} (hq : q < A.size) :
    ∃ p name, p < A.size ∧ A.classOf p = A.classOf q ∧
      A.classes.states[A.classOf q]? = some ⟨A.classOf q, name, A.isTerminal p,
        Table.ofEdges (A.alphabet.toList.filterMap fun s =>
          (A.successor p s).map fun r => (s, A.classOf r))⟩ := by
  have hsize := size_equivalenceBlocks A
  have hlt := (Partition.lt_length_groups_iff (ranked_equivalenceBlocks A)).mpr
    ⟨q, hsize.symm ▸ hq, rfl⟩
  obtain ⟨p, rest, hgroup, hp, hclass⟩ :=
    Partition.exists_cons_of_group (ranked_equivalenceBlocks A) hlt
  refine ⟨p, A.labels (p :: rest), hsize ▸ hp, hclass, ?_⟩
  rw [classes, quotient, List.getElem?_map, classOf, Partition.getElem?_groups hlt, hgroup]
  simpa [classOf] using hclass

theorem Trimmed.step_classes (hA : A.Trimmed) {q : Nat} (hq : q < A.size) {s : Symbol} {b : Nat} :
    A.classes.Step (A.classOf q) s b ↔ ∃ r, A.Step q s r ∧ A.classOf r = b := by
  obtain ⟨p, name, hp, hpq, hstate⟩ := getElem?_classes hq
  have hnext : A.classes.Step (A.classOf q) s b ↔ ∃ r, A.Step p s r ∧ A.classOf r = b := by
    rw [Step, next, hstate]
    simp only [State.next, Table.mem_next_ofEdges, List.mem_filterMap,
      Option.map_eq_some_iff, Prod.mk.injEq, successor_eq_some_iff hA.deterministic]
    constructor
    · rintro ⟨s, _, r, hr, rfl, rfl⟩
      exact ⟨r, hr, rfl⟩
    · rintro ⟨r, hr, rfl⟩
      exact ⟨s, hA.mem_alphabet p s r hr, r, hr, rfl, rfl⟩
  rw [hnext]
  constructor
  · rintro ⟨r, hr, rfl⟩
    obtain ⟨r', hr', hclass⟩ := hA.step_of_classOf_eq hp hq hpq hr
    exact ⟨r', hr', hclass.symm⟩
  · rintro ⟨r, hr, rfl⟩
    obtain ⟨r', hr', hclass⟩ := hA.step_of_classOf_eq hq hp hpq.symm hr
    exact ⟨r', hr', hclass.symm⟩

theorem isTerminal_classes {q : Nat} (hq : q < A.size) :
    A.classes.isTerminal (A.classOf q) = A.isTerminal q := by
  obtain ⟨p, name, hp, hpq, hstate⟩ := getElem?_classes hq
  rw [isTerminal, hstate, ← isTerminal_eq_of_classOf_eq hp hq hpq]

theorem Trimmed.covering (hA : A.Trimmed) :
    Covering A.Step (fun q => A.isTerminal q = true) A.classes.Step
      (fun q => A.classes.isTerminal q = true) (· < A.size) A.classOf where
  closed _ _ _ _ hs := hA.wellFormed.target_lt hs
  terminal q hq := by rw [isTerminal_classes hq]
  edge _ _ _ hq := hA.step_classes hq

theorem Trimmed.wordsFrom_classes (hA : A.Trimmed) {q : Nat} (hq : q < A.size) :
    A.classes.wordsFrom (A.classOf q) = A.wordsFrom q :=
  hA.covering.wordsTo_eq hq

/-- One state for each set of words: the quotient of a trimmed automaton is reduced. -/
theorem Trimmed.reduced_classes (hA : A.Trimmed) : A.classes.Reduced :=
  hA.reduced_of_covering hA.covering (fun _ hq => hq) hA.wellFormed.initial_lt
    (initial_classes A).symm
    (fun _ => lt_size_classes_iff) (fun _ hs => hs) fun _ _ hp hq h =>
      (hA.classOf_eq_iff hp hq).mpr h

/-! ## The minimal form -/

theorem minimize_of_productive (h : A.initial ∈ A.productive) :
    A.minimize = A.trim.classes.canonical := by
  rw [minimize, if_pos h]
  rfl

theorem minimize_of_not_productive (h : A.initial ∉ A.productive) :
    A.minimize = ⟨0, [⟨0, A.label A.initial, false, ∅⟩], A.alphabet⟩ := by
  rw [minimize, if_neg h]

theorem not_step_of_not_productive (h : A.initial ∉ A.productive) (p q : Nat) (s : Symbol) :
    ¬ A.minimize.Step p s q := by
  rw [minimize_of_not_productive h, step_iff]
  rintro ⟨state, targets, hstate, htargets, _⟩
  obtain rfl := List.mem_singleton.mp (List.mem_of_getElem? hstate)
  cases htargets

theorem isTerminal_of_not_productive (h : A.initial ∉ A.productive) (q : Nat) :
    A.minimize.isTerminal q = false := by
  rw [minimize_of_not_productive h]
  cases q <;> simp [isTerminal]

theorem not_mem_wordsFrom_of_not_productive (h : A.initial ∉ A.productive) (q : Nat) (w : Word) :
    w ∉ A.minimize.wordsFrom q := by
  rintro ⟨r, hr, _⟩
  exact absurd hr (by rw [isTerminal_of_not_productive h]; decide)

theorem reduced_trim_classes (hA : A.Labelled) (hdet : Deterministic A.Step)
    (h : A.initial ∈ A.productive) : A.trim.classes.Reduced :=
  (trimmed_trim hA hdet h).reduced_classes

theorem wordsFrom_trim_classes (hA : A.Labelled) (hdet : Deterministic A.Step)
    (h : A.initial ∈ A.productive) :
    A.trim.classes.wordsFrom A.trim.classes.initial = A.wordsFrom A.initial := by
  have htrim := trimmed_trim hA hdet h
  rw [initial_classes, htrim.wordsFrom_classes htrim.wellFormed.initial_lt]
  exact wordsFrom_trim hA.wellFormed h (initial_mem_useful hA.wellFormed h)

theorem wellFormed_minimize (hA : A.Labelled) (hdet : Deterministic A.Step) :
    A.minimize.WellFormed := by
  by_cases h : A.initial ∈ A.productive
  · rw [minimize_of_productive h]
    exact wellFormed_canonical (reduced_trim_classes hA hdet h).wellFormed
  · refine ⟨?_, fun p s q hs => absurd hs (not_step_of_not_productive h p q s)⟩
    rw [minimize_of_not_productive h]
    exact Nat.one_pos

theorem isDeterministic_minimize (hA : A.Labelled) (hdet : Deterministic A.Step) :
    A.minimize.isDeterministic = true := by
  by_cases h : A.initial ∈ A.productive
  · have hreduced := reduced_trim_classes hA hdet h
    rw [minimize_of_productive h]
    exact isDeterministic_canonical hreduced.wellFormed hreduced.deterministic
  · rw [minimize_of_not_productive h]
    rfl

theorem wordsFrom_minimize (hA : A.Labelled) (hdet : Deterministic A.Step) :
    A.minimize.wordsFrom A.minimize.initial = A.wordsFrom A.initial := by
  by_cases h : A.initial ∈ A.productive
  · rw [minimize_of_productive h,
      wordsFrom_canonical (reduced_trim_classes hA hdet h).wellFormed]
    exact wordsFrom_trim_classes hA hdet h
  · ext w
    exact iff_of_false (not_mem_wordsFrom_of_not_productive h _ w)
      fun hw => h (mem_productive.mpr ⟨w, hw⟩)

theorem size_minimize_le (hA : A.Labelled) (hdetA : Deterministic A.Step) (hB : B.WellFormed)
    (hdetB : Deterministic B.Step) (h : A.wordsFrom A.initial = B.wordsFrom B.initial) :
    A.minimize.size ≤ B.size := by
  by_cases hprod : A.initial ∈ A.productive
  · have hreduced := reduced_trim_classes hA hdetA hprod
    calc A.minimize.size = A.trim.classes.canonical.size := by rw [minimize_of_productive hprod]
      _ ≤ A.trim.classes.size := size_canonical_le hreduced.wellFormed
      _ ≤ B.size :=
        hreduced.size_le hB hdetB ((wordsFrom_trim_classes hA hdetA hprod).trans h)
  · rw [minimize_of_not_productive hprod]
    exact Nat.one_le_of_lt hB.initial_lt

/-- The minimal form is deterministic and accepts the same words, and no deterministic automaton for
them has fewer states. -/
theorem minimize_minimal (hA : A.Assembled) (hdet : A.isDeterministic = true) :
    A.minimize.isDeterministic = true ∧ (∀ w, A.minimize.accepts w = A.accepts w) ∧
      ∀ B : FiniteAutomaton, B.WellFormed → B.isDeterministic = true →
        (∀ w, B.accepts w = A.accepts w) → A.minimize.size ≤ B.size := by
  have hdetA := deterministic_of_isDeterministic hdet
  have hmin := isDeterministic_minimize hA.labelled hdetA
  refine ⟨hmin, ?_, fun B hB hdetB h => ?_⟩
  · exact (forall_accepts_eq_iff (wellFormed_minimize hA.labelled hdetA) hA.wellFormed
      (deterministic_of_isDeterministic hmin) hdetA).mpr (wordsFrom_minimize hA.labelled hdetA)
  · have hdetB := deterministic_of_isDeterministic hdetB
    exact size_minimize_le hA.labelled hdetA hB hdetB
      ((forall_accepts_eq_iff hB hA.wellFormed hdetB hdetA).mp h).symm

/-- Two states with the same words, a state that leads to no terminal one, and a state that no walk
leads to. -/
def redundant : Parts Nat :=
  ⟨0, [⟨0, "", false, Table.ofEdges [(.literal "a", 1), (.literal "b", 2), (.literal "c", 3)]⟩,
    ⟨1, "", true, Table.ofEdges [(.literal "a", 2)]⟩,
    ⟨2, "", true, Table.ofEdges [(.literal "a", 1)]⟩,
    ⟨3, "", false, Table.ofEdges [(.literal "a", 3)]⟩,
    ⟨4, "", true, Table.ofEdges [(.literal "b", 0)]⟩], ∅⟩

theorem minimize_minimal_redundant :
    redundant.automaton.Assembled ∧ redundant.automaton.isDeterministic = true ∧
      redundant.automaton.minimize.isDeterministic = true ∧
      redundant.automaton.minimize.accepts [.literal "b", .literal "a"] = true ∧
      redundant.automaton.minimize.size ≤ redundant.automaton.size := by
  have hA : redundant.automaton.Assembled := ⟨redundant, rfl⟩
  have hdet : redundant.automaton.isDeterministic = true := by decide
  obtain ⟨hmin, haccepts, hsize⟩ := minimize_minimal hA hdet
  refine ⟨hA, hdet, hmin, ?_, hsize _ hA.wellFormed hdet fun w => rfl⟩
  rw [haccepts]
  decide

end Acceptors.Automaton
