import Acceptors.Proofs.Assembly
import Acceptors.Proofs.EpsilonFree
import Acceptors.Proofs.Graph
import Mathlib.Data.List.Sublists

/-!
The subset construction. A set of states has the words of its members (`mem_wordsFrom_subsets`), and
`n` states have `2 ^ n` sets (`bounded_subsets`), so exploration finds all that are needed. Main
statements: `deterministic_determinize` and `wordsFrom_determinize`, `mem_members_iff`, which says
what a state stands for, and `accepts_determinize`.
-/

namespace Acceptors.Automaton

variable {A : FiniteAutomaton}

/-! ## Sets of states -/

/-- An edge leads to all targets at once, and there is none to the empty set. -/
theorem step_subsets {qs rs : SortedSet Nat} {s : Symbol} :
    A.subsets.Step qs s rs ↔ s ∈ A.alphabet ∧ A.move qs s = rs ∧ ∃ r, r ∈ rs := by
  simp only [Graph.Step, subsets, List.mem_filterMap, SortedSet.mem_toList, SortedSet.isEmpty,
    List.isEmpty_iff]
  constructor
  · rintro ⟨s, hs, h⟩
    split at h
    · cases h
    · rename_i hne
      cases h
      exact ⟨hs, rfl, List.exists_mem_of_ne_nil _ hne⟩
  · rintro ⟨hs, rfl, r, hr⟩
    refine ⟨s, hs, ?_⟩
    rw [if_neg (List.ne_nil_of_mem hr)]

theorem deterministic_subsets (he : ∀ p q, ¬ A.Step p .epsilon q) :
    Deterministic A.subsets.Step where
  noEpsilon qs rs h := by
    obtain ⟨_, rfl, r, hr⟩ := step_subsets.mp h
    obtain ⟨q, _, hs⟩ := mem_move.mp hr
    exact he q r hs
  unique qs s rs ts hr ht := by
    rw [← (step_subsets.mp hr).2.1, (step_subsets.mp ht).2.1]

/-- The words of a set are those of its members. -/
theorem mem_wordsFrom_subsets (he : ∀ p q, ¬ A.Step p .epsilon q)
    (halphabet : ∀ p s q, A.Step p s q → s ∈ A.alphabet) {qs : SortedSet Nat} {w : Word} :
    w ∈ A.subsets.wordsFrom qs ↔ ∃ q ∈ qs, w ∈ A.wordsFrom q := by
  have hdet := deterministic_subsets he
  induction w generalizing qs with
  | nil =>
    simp only [Graph.wordsFrom, nil_mem_wordsTo hdet.noEpsilon, nil_mem_wordsFrom he]
    simp [subsets, SortedSet.mem_toList]
  | cons s w ih =>
    rw [Graph.wordsFrom, cons_mem_wordsTo hdet.noEpsilon]
    constructor
    · rintro ⟨rs, hs, hw⟩
      obtain ⟨_, rfl, _⟩ := step_subsets.mp hs
      obtain ⟨r, hr, hw⟩ := ih.mp hw
      obtain ⟨q, hq, hqr⟩ := mem_move.mp hr
      exact ⟨q, hq, (cons_mem_wordsTo he).mpr ⟨r, hqr, hw⟩⟩
    · rintro ⟨q, hq, hw⟩
      obtain ⟨r, hqr, hw⟩ := (cons_mem_wordsTo he).mp hw
      have hr := mem_move.mpr ⟨q, hq, hqr⟩
      exact ⟨A.move qs s, step_subsets.mpr ⟨halphabet q s r hqr, rfl, r, hr⟩, ih.mpr ⟨r, hr, hw⟩⟩

/-- All sets of states below `n`. -/
def setsBelow (n : Nat) : List (SortedSet Nat) := (List.range n).sublists.map SortedSet.ofList

theorem mem_setsBelow {n : Nat} {qs : SortedSet Nat} (h : ∀ q ∈ qs, q < n) : qs ∈ setsBelow n := by
  refine List.mem_map.mpr ⟨(List.range n).filter (· ∈ qs), ?_, SortedSet.ext fun q => ?_⟩
  · exact List.mem_sublists.mpr List.filter_sublist
  · rw [SortedSet.mem_ofList, List.mem_filter, List.mem_range, decide_eq_true_eq]
    exact ⟨fun hq => hq.2, fun hq => ⟨h q hq, hq⟩⟩

theorem bounded_subsets (hA : A.WellFormed) : A.subsets.Bounded (Nat.pow 2 A.size) := by
  refine ⟨setsBelow A.size, by simp [setsBelow], mem_setsBelow fun q hq => ?_, ?_⟩
  · rw [SortedSet.mem_singleton.mp hq]
    exact hA.initial_lt
  · intro qs _ s rs hs
    obtain ⟨_, rfl, _⟩ := step_subsets.mp hs
    refine mem_setsBelow fun r hr => ?_
    obtain ⟨q, _, hqr⟩ := mem_move.mp hr
    exact hA.target_lt hqr

/-! ## The deterministic automaton -/

theorem determinize_eq_numbered (A : FiniteAutomaton) :
    A.determinize =
      A.epsilonFree.subsets.numbered (A.epsilonFree.subsets.nodes (Nat.pow 2 A.size)) A.alphabet :=
  Graph.toAutomaton_eq_numbered _ _ _

theorem bounded_subsets_epsilonFree (hA : A.WellFormed) :
    A.epsilonFree.subsets.Bounded (Nat.pow 2 A.size) := by
  rw [← size_epsilonFree]
  exact bounded_subsets hA.epsilonFree

theorem lists_subsets (hA : A.WellFormed) :
    A.epsilonFree.subsets.Lists (A.epsilonFree.subsets.nodes (Nat.pow 2 A.size)) :=
  (bounded_subsets_epsilonFree hA).lists_nodes

theorem indexed_determinize (A : FiniteAutomaton) : A.determinize.Indexed :=
  Graph.indexed_toAutomaton _ _ _

theorem wellFormed_determinize (hA : A.WellFormed) : A.determinize.WellFormed := by
  rw [determinize_eq_numbered]
  exact (lists_subsets hA).wellFormed_numbered

theorem deterministic_determinize (hA : A.WellFormed) : Deterministic A.determinize.Step := by
  rw [determinize_eq_numbered]
  exact (lists_subsets hA).deterministic_numbered
    (deterministic_subsets not_step_epsilon_epsilonFree)

theorem isDeterministic_determinize (hA : A.WellFormed) : A.determinize.isDeterministic = true := by
  rw [determinize_eq_numbered]
  exact (lists_subsets hA).isDeterministic_numbered
    (deterministic_subsets not_step_epsilon_epsilonFree)

theorem mem_alphabet_of_step_determinize (hA : A.WellFormed) {p q : Nat} {s : Symbol}
    (h : A.determinize.Step p s q) : s ∈ A.alphabet := by
  rw [determinize_eq_numbered] at h
  obtain ⟨_, _, _, _, _, _, hs⟩ := (lists_subsets hA).exists_of_step h
  exact alphabet_epsilonFree (A := A) ▸ (step_subsets.mp hs).1

theorem Labelled.determinize (hA : A.Labelled) : A.determinize.Labelled where
  wellFormed := wellFormed_determinize hA.wellFormed
  mem_alphabet hs _ := mem_alphabet_of_step_determinize hA.wellFormed hs

theorem mem_alphabet_of_step_epsilonFree (hA : A.Labelled) (p : Nat) (s : Symbol) (q : Nat)
    (h : A.epsilonFree.Step p s q) : s ∈ A.epsilonFree.alphabet := by
  obtain ⟨hne, p', hs⟩ := step_of_step_epsilonFree h
  exact alphabet_epsilonFree (A := A) ▸ hA.mem_alphabet hs hne

/-- The deterministic automaton has the words of the one it is made of. -/
theorem wordsFrom_determinize (hA : A.Labelled) :
    A.determinize.wordsFrom A.determinize.initial = A.wordsFrom A.initial := by
  have hlists := lists_subsets hA.wellFormed
  rw [determinize_eq_numbered]
  refine (hlists.wordsFrom_numbered hlists.start).trans ?_
  ext w
  rw [mem_wordsFrom_subsets not_step_epsilon_epsilonFree (mem_alphabet_of_step_epsilonFree hA),
    ← wordsFrom_epsilonFree hA.wellFormed, ← initial_epsilonFree]
  simp [subsets]

/-! ## What the states stand for -/

/-- The sets that exploration finds, by the numbers of their states. -/
def explored (A : FiniteAutomaton) : List (SortedSet Nat) :=
  A.epsilonFree.subsets.nodes (Nat.pow 2 A.size)

/-- The set that a state of the deterministic automaton stands for. -/
def members (A : FiniteAutomaton) (i : Nat) : SortedSet Nat := A.explored.getD i ∅

theorem members_idxOf {qs : SortedSet Nat} (hqs : qs ∈ A.explored) :
    A.members (A.explored.idxOf qs) = qs := by
  have hlt := List.idxOf_lt_length_of_mem hqs
  rw [members, List.getD_eq_getElem?_getD, List.getElem?_eq_getElem hlt, Option.getD_some,
    List.getElem_idxOf]

theorem exists_explored {i : Nat} (hA : A.WellFormed) (hi : i < A.determinize.size) :
    ∃ qs ∈ A.explored, A.explored.idxOf qs = i := by
  rw [determinize_eq_numbered] at hi
  exact Graph.exists_of_lt_size hi (lists_subsets hA).nodup

theorem exists_walk_determinize (hA : A.WellFormed) {i : Nat} (hi : i < A.determinize.size) :
    ∃ w, Walk A.determinize.Step A.determinize.initial w i := by
  rw [determinize_eq_numbered] at hi ⊢
  exact (bounded_subsets_epsilonFree hA).exists_walk_numbered hi

/-- Different states stand for different sets. -/
theorem eq_of_members_eq (hA : A.WellFormed) {i j : Nat} (hi : i < A.determinize.size)
    (hj : j < A.determinize.size) (h : A.members i = A.members j) : i = j := by
  obtain ⟨qs, hqs, rfl⟩ := exists_explored hA hi
  obtain ⟨rs, hrs, rfl⟩ := exists_explored hA hj
  rw [members_idxOf hqs, members_idxOf hrs] at h
  rw [h]

/-- A walk on sets leads to the ends of the walks from their members. -/
theorem mem_of_walk_subsets (he : ∀ p q, ¬ A.Step p .epsilon q) {qs rs : SortedSet Nat} {w : Word}
    (h : Walk A.subsets.Step qs w rs) {r : Nat} : r ∈ rs ↔ ∃ q ∈ qs, Walk A.Step q w r := by
  induction h with
  | nil qs => simp [Walk.nil_iff_eq he]
  | @cons qs ps rs s w hs _ ih =>
    have hspelled : s.spelled = [s] := (deterministic_subsets he).spelled hs
    obtain ⟨_, rfl, _⟩ := step_subsets.mp hs
    rw [hspelled, List.singleton_append, ih]
    simp only [mem_move, Walk.cons_iff he]
    constructor
    · rintro ⟨p, ⟨q, hq, hqp⟩, hw⟩
      exact ⟨q, hq, p, hqp, hw⟩
    · rintro ⟨q, hq, p, hqp, hw⟩
      exact ⟨p, ⟨q, hq, hqp⟩, hw⟩

/-- A state stands for the states on which a word that leads to it lands. -/
theorem mem_members_iff (hA : A.WellFormed) {i q : Nat} {w : Word}
    (hw : Walk A.determinize.Step A.determinize.initial w i) : q ∈ A.members i ↔ A.Lands w q := by
  have hlists := lists_subsets hA
  rw [determinize_eq_numbered] at hw
  obtain ⟨qs, hqs, rfl, hwalk⟩ := (hlists.covering A.alphabet).exists_walk hlists.start hw
  have hstart : ∀ p, p ∈ A.epsilonFree.subsets.start ↔ p = A.initial := by
    simp [subsets, initial_epsilonFree]
  rw [← explored, members_idxOf hqs, mem_of_walk_subsets not_step_epsilon_epsilonFree hwalk]
  simp only [hstart, exists_eq_left, walk_epsilonFree_iff_lands hA]

/-- The subset construction makes a deterministic automaton for the same words. All its states are
reachable, each stands for the states on which the words that lead to it land, and no two for the
same ones. -/
theorem accepts_determinize (hA : A.Assembled) :
    A.determinize.isDeterministic = true ∧
      (∀ i < A.determinize.size, ∃ w, Walk A.determinize.Step A.determinize.initial w i) ∧
      (∀ i w, Walk A.determinize.Step A.determinize.initial w i → ∀ q, q ∈ A.members i ↔
        A.Lands w q) ∧
      (∀ i < A.determinize.size, ∀ j < A.determinize.size, A.members i = A.members j → i = j) ∧
      ∀ w : Word, w.Plain → A.determinize.accepts w = A.accepts w := by
  refine ⟨isDeterministic_determinize hA.wellFormed,
    fun i hi => exists_walk_determinize hA.wellFormed hi,
    fun i w hw q => mem_members_iff hA.wellFormed hw,
    fun i hi j hj h => eq_of_members_eq hA.wellFormed hi hj h, ?_⟩
  rw [forall_plain_accepts_eq_iff (wellFormed_determinize hA.wellFormed) hA.wellFormed]
  exact wordsFrom_determinize hA.labelled

/-- The start and the state after one `b` have the same words, but they stand for different sets. -/
theorem accepts_determinize_trailing :
    trailing.automaton.Assembled ∧ trailing.automaton.determinize.isDeterministic = true ∧
      3 < trailing.automaton.determinize.size ∧
      (∃ w, Walk trailing.automaton.determinize.Step trailing.automaton.determinize.initial w 3) ∧
      trailing.automaton.members 0 ≠ trailing.automaton.members 2 ∧
      Word.Plain (Word.ofText "bab") ∧ trailing.automaton.accepts (Word.ofText "bab") = true ∧
      trailing.automaton.determinize.accepts (Word.ofText "bab") = true := by
  have hA : trailing.automaton.Assembled := ⟨trailing, rfl⟩
  have hsize : trailing.automaton.determinize.size = 4 := by decide +kernel
  have hw : Word.Plain (Word.ofText "bab") := by decide
  have haccepts : trailing.automaton.accepts (Word.ofText "bab") = true := by decide +kernel
  obtain ⟨hdet, hreachable, _, hdifferent, hsame⟩ := accepts_determinize hA
  have hne : trailing.automaton.members 0 ≠ trailing.automaton.members 2 := fun h =>
    absurd (hdifferent 0 (by omega) 2 (by omega) h) (by decide)
  exact ⟨hA, hdet, by omega, hreachable 3 (by omega), hne, hw, haccepts,
    (hsame _ hw).trans haccepts⟩

end Acceptors.Automaton
