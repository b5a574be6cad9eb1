import Acceptors.Automaton.Graph
import Acceptors.Proofs.EpsilonFree
import Acceptors.Proofs.Tables
import Mathlib.Computability.MyhillNerode
import Mathlib.Data.Fintype.Card

/-!
Determinism and what it does to words: a state that a walk leads to has the left quotient of the
words by the word of the walk (`Deterministic.wordsTo_of_walk`). Main statements:
`deterministic_of_isDeterministic`, and `Reduced.size_le`, no deterministic automaton for the same
words has fewer states than a reduced one.
-/

namespace Acceptors

section Edges

variable {α : Type} {E : α → Symbol → α → Prop} {T : α → Prop}

/-- No edge carries epsilon, and one edge at most leads from a node on a symbol. -/
structure Deterministic (E : α → Symbol → α → Prop) : Prop where
  noEpsilon : ∀ x y, ¬ E x .epsilon y
  unique : ∀ x s y z, E x s y → E x s z → y = z

theorem Deterministic.spelled (h : Deterministic E) {x y : α} {s : Symbol} (hs : E x s y) :
    s.spelled = [s] :=
  Symbol.spelled_of_ne fun he => h.noEpsilon x y (he ▸ hs)

/-- After an edge the words are those that began with its symbol, less that symbol. -/
theorem Deterministic.cons_mem_iff (h : Deterministic E) {x y : α} {s : Symbol} (hs : E x s y)
    {w : Word} : s :: w ∈ wordsTo E T x ↔ w ∈ wordsTo E T y := by
  rw [cons_mem_wordsTo h.noEpsilon]
  constructor
  · rintro ⟨z, hz, hw⟩
    rwa [h.unique x s y z hs hz]
  · exact fun hw => ⟨y, hs, hw⟩

theorem Deterministic.wordsTo_of_walk (h : Deterministic E) {x y : α} {u : Word}
    (hu : Walk E x u y) : wordsTo E T y = (wordsTo E T x).leftQuotient u := by
  induction hu with
  | nil x => rfl
  | @cons x y z s u hs _ ih =>
    ext w
    rw [ih, h.spelled hs]
    exact (h.cons_mem_iff hs).symm

/-- A word leads from a node to one node at most. -/
theorem Deterministic.walk_unique (h : Deterministic E) {x y z : α} {w : Word} (hy : Walk E x w y)
    (hz : Walk E x w z) : y = z := by
  induction w generalizing x with
  | nil => rw [← (Walk.nil_iff_eq h.noEpsilon).mp hy, (Walk.nil_iff_eq h.noEpsilon).mp hz]
  | cons s w ih =>
    obtain ⟨x', hx', hy⟩ := (Walk.cons_iff h.noEpsilon).mp hy
    obtain ⟨x'', hx'', hz⟩ := (Walk.cons_iff h.noEpsilon).mp hz
    obtain rfl := h.unique x s x' x'' hx' hx''
    exact ih hy hz

/-- The words to other nodes than the terminal ones are the words of walks that lead to no terminal
node. -/
theorem Deterministic.mem_wordsTo_not_iff (h : Deterministic E) {x : α} {w : Word} :
    w ∈ wordsTo E (fun y => ¬ T y) x ↔ (∃ y, Walk E x w y) ∧ w ∉ wordsTo E T x := by
  constructor
  · rintro ⟨y, hy, hw⟩
    refine ⟨⟨y, hw⟩, ?_⟩
    rintro ⟨z, hz, hw'⟩
    exact hy (h.walk_unique hw hw' ▸ hz)
  · rintro ⟨⟨y, hw⟩, hnot⟩
    exact ⟨y, fun hy => hnot ⟨y, hy, hw⟩, hw⟩

end Edges

namespace Automaton

variable {A B : FiniteAutomaton}

/-- The check on the tables, state by state. -/
theorem isDeterministic_iff :
    A.isDeterministic = true ↔
      ∀ state ∈ A.states, state.table.get? .epsilon = none ∧
        ∀ s targets, state.table.get? s = some targets → ∀ p ∈ targets, ∀ q ∈ targets, p = q := by
  simp only [isDeterministic, hasEpsilon, Bool.and_eq_true, Bool.not_eq_true', List.any_eq_false,
    List.all_eq_true, decide_eq_true_eq, SortedMap.contains, Bool.not_eq_true,
    Option.isSome_eq_false_iff, Option.isNone_iff_eq_none, SortedSet.size_le_one_iff]
  have hvalues : ∀ (t : Table Nat) (targets : SortedSet Nat),
      targets ∈ t.values ↔ ∃ s, t.get? s = some targets := by
    intro t targets
    simp [SortedMap.values, SortedMap.mem_entries_iff]
  simp only [hvalues]
  constructor
  · rintro ⟨he, hall⟩ state hstate
    exact ⟨he state hstate, fun s targets h => hall state hstate targets ⟨s, h⟩⟩
  · intro h
    refine ⟨fun state hstate => (h state hstate).1, ?_⟩
    rintro state hstate targets ⟨s, hs⟩
    exact (h state hstate).2 s targets hs

theorem deterministic_of_isDeterministic (h : A.isDeterministic = true) : Deterministic A.Step := by
  rw [isDeterministic_iff] at h
  constructor
  · intro p q hs
    obtain ⟨state, targets, hstate, htargets, _⟩ := step_iff.mp hs
    have hnone := (h state (List.mem_of_getElem? hstate)).1
    rw [htargets] at hnone
    cases hnone
  · intro p s q r hq hr
    obtain ⟨state, targets, hstate, htargets, hq⟩ := step_iff.mp hq
    obtain ⟨state', targets', hstate', htargets', hr⟩ := step_iff.mp hr
    rw [hstate] at hstate'
    cases hstate'
    rw [htargets] at htargets'
    cases htargets'
    exact (h state (List.mem_of_getElem? hstate)).2 s targets htargets q hq r hr

/-- An automaton whose tables are made of edges is deterministic when its edges are. -/
theorem isDeterministic_of_ofEdges
    (htable : ∀ state ∈ A.states, ∃ es, state.table = Table.ofEdges es)
    (h : Deterministic A.Step) : A.isDeterministic = true := by
  rw [isDeterministic_iff]
  intro state hstate
  obtain ⟨p, hp, rfl⟩ := List.getElem_of_mem hstate
  have hget : A.states[p]? = some A.states[p] := List.getElem?_eq_getElem hp
  obtain ⟨es, hes⟩ := htable _ hstate
  constructor
  · by_contra hne
    obtain ⟨targets, htargets⟩ := Option.ne_none_iff_exists'.mp hne
    have hsome : ∃ q, (Symbol.epsilon, q) ∈ es := by
      by_contra hnone
      rw [hes, Table.get?_ofEdges_eq_none_iff.mpr (by simpa using hnone)] at htargets
      cases htargets
    obtain ⟨q, hq⟩ := hsome
    have hmem : q ∈ targets := (Table.mem_of_get?_ofEdges (hes ▸ htargets)).mpr hq
    exact h.noEpsilon p q (step_iff.mpr ⟨_, targets, hget, htargets, hmem⟩)
  · intro s targets htargets q hq r hr
    exact h.unique p s q r (step_iff.mpr ⟨_, targets, hget, htargets, hq⟩)
      (step_iff.mpr ⟨_, targets, hget, htargets, hr⟩)

theorem successor_eq_some_iff (hdet : Deterministic A.Step) {q r : Nat} {s : Symbol} :
    A.successor q s = some r ↔ A.Step q s r := by
  unfold successor
  constructor
  · exact fun h => List.mem_of_mem_head? h
  · intro hs
    cases hnext : A.next q s with
    | nil =>
      rw [Step, hnext] at hs
      cases hs
    | cons r' rest =>
      have hr' : A.Step q s r' := by
        rw [Step, hnext]
        exact List.mem_cons_self
      rw [List.head?_cons, hdet.unique q s r' r hr' hs]

theorem successor_eq_none_iff {q : Nat} {s : Symbol} :
    A.successor q s = none ↔ ∀ r, ¬ A.Step q s r := by
  simp [successor, List.head?_eq_none_iff, List.eq_nil_iff_forall_not_mem, Step]

theorem wordsFrom_of_walk (h : Deterministic A.Step) {p q : Nat} {u : Word}
    (hu : Walk A.Step p u q) : A.wordsFrom q = (A.wordsFrom p).leftQuotient u :=
  h.wordsTo_of_walk hu

/-- Where words agree, an edge from which a word leads on has a counterpart, and words agree after
it. -/
theorem exists_step_of_wordsFrom_eq (hA : Deterministic A.Step) (hB : Deterministic B.Step)
    {p p' q : Nat} {s : Symbol} (h : A.wordsFrom p = B.wordsFrom q) (hs : A.Step p s p')
    (hw : ∃ w, w ∈ A.wordsFrom p') : ∃ q', B.Step q s q' ∧ A.wordsFrom p' = B.wordsFrom q' := by
  obtain ⟨w, hw⟩ := hw
  have hsw : s :: w ∈ B.wordsFrom q := h ▸ (hA.cons_mem_iff hs).mpr hw
  obtain ⟨q', hq', _⟩ := (cons_mem_wordsTo hB.noEpsilon).mp hsw
  refine ⟨q', hq', ?_⟩
  ext v
  calc v ∈ A.wordsFrom p' ↔ s :: v ∈ A.wordsFrom p := (hA.cons_mem_iff hs).symm
    _ ↔ s :: v ∈ B.wordsFrom q := by rw [h]
    _ ↔ v ∈ B.wordsFrom q' := hB.cons_mem_iff hq'

theorem isTerminal_eq_of_wordsFrom_eq (hA : Deterministic A.Step) (hB : Deterministic B.Step)
    {p q : Nat} (h : A.wordsFrom p = B.wordsFrom q) : A.isTerminal p = B.isTerminal q := by
  rw [Bool.eq_iff_iff]
  calc A.isTerminal p = true ↔ [] ∈ A.wordsFrom p := (nil_mem_wordsFrom hA.noEpsilon).symm
    _ ↔ [] ∈ B.wordsFrom q := by rw [h]
    _ ↔ B.isTerminal q = true := nil_mem_wordsFrom hB.noEpsilon

/-- Deterministic automata accept the same words if and only if the same words lead on from their
initial states. -/
theorem forall_accepts_eq_iff (hA : A.WellFormed) (hB : B.WellFormed)
    (hdetA : Deterministic A.Step) (hdetB : Deterministic B.Step) :
    (∀ w, A.accepts w = B.accepts w) ↔ A.wordsFrom A.initial = B.wordsFrom B.initial := by
  constructor
  · intro h
    ext w
    rw [← accepts_iff_of_not_step_epsilon hA hdetA.noEpsilon,
      ← accepts_iff_of_not_step_epsilon hB hdetB.noEpsilon, h]
  · intro h w
    rw [Bool.eq_iff_iff, accepts_iff_of_not_step_epsilon hA hdetA.noEpsilon,
      accepts_iff_of_not_step_epsilon hB hdetB.noEpsilon, h]

/-! ## Reduced automata -/

/-- Deterministic, with symbols of the alphabet on its edges, and every state on a walk from the
initial to a terminal state. -/
structure Trimmed (A : FiniteAutomaton) : Prop where
  wellFormed : A.WellFormed
  deterministic : Deterministic A.Step
  mem_alphabet : ∀ p s q, A.Step p s q → s ∈ A.alphabet
  reachable : ∀ q < A.size, ∃ u, Walk A.Step A.initial u q
  productive : ∀ q < A.size, ∃ w, w ∈ A.wordsFrom q

/-- Trimmed, and no two states have the same words. -/
structure Reduced (A : FiniteAutomaton) : Prop extends Trimmed A where
  separated : ∀ p < A.size, ∀ q < A.size, A.wordsFrom p = A.wordsFrom q → p = q

/-- A map of states onto those of another automaton that keeps their words and tells them apart by
these makes a reduced automaton of a trimmed one. -/
theorem Trimmed.reduced_of_covering {P : Nat → Prop} {f : Nat → Nat} (hA : A.Trimmed)
    (h : Covering A.Step (fun q => A.isTerminal q = true) B.Step
      (fun q => B.isTerminal q = true) P f)
    (hlt : ∀ q, P q → q < A.size) (hstart : P A.initial) (hinitial : f A.initial = B.initial)
    (hstates : ∀ b, b < B.size ↔ ∃ q, P q ∧ f q = b) (halphabet : ∀ s ∈ A.alphabet, s ∈ B.alphabet)
    (hseparated : ∀ p q, P p → P q → A.wordsFrom p = A.wordsFrom q → f p = f q) : B.Reduced := by
  have hwords : ∀ q, P q → B.wordsFrom (f q) = A.wordsFrom q := fun q hq => h.wordsTo_eq hq
  have hstep : ∀ b s c, B.Step b s c → ∃ q r, P q ∧ f q = b ∧ f r = c ∧ A.Step q s r := by
    intro b s c hs
    obtain ⟨q, hq, rfl⟩ := (hstates b).mp (source_lt hs)
    obtain ⟨r, hr, rfl⟩ := (h.edge q s c hq).mp hs
    exact ⟨q, r, hq, rfl, rfl, hr⟩
  refine ⟨⟨⟨?_, fun b s c hs => ?_⟩, ⟨fun b c hs => ?_, fun b s c d hc hd => ?_⟩,
    fun b s c hs => ?_,
    fun b hb => ?_, fun b hb => ?_⟩, fun b hb c hc hbc => ?_⟩
  · exact (hstates _).mpr ⟨A.initial, hstart, hinitial⟩
  · obtain ⟨q, r, hq, rfl, rfl, hr⟩ := hstep b s c hs
    exact (hstates _).mpr ⟨r, h.closed q s r hq hr, rfl⟩
  · obtain ⟨q, r, _, _, _, hr⟩ := hstep b .epsilon c hs
    exact hA.deterministic.noEpsilon q r hr
  · obtain ⟨q, r, hq, rfl, rfl, hr⟩ := hstep b s c hc
    obtain ⟨r', hr', rfl⟩ := (h.edge q s d hq).mp hd
    rw [hA.deterministic.unique q s r r' hr hr']
  · obtain ⟨q, r, _, _, _, hr⟩ := hstep b s c hs
    exact halphabet s (hA.mem_alphabet q s r hr)
  · obtain ⟨q, hq, rfl⟩ := (hstates b).mp hb
    obtain ⟨u, hu⟩ := hA.reachable q (hlt q hq)
    exact ⟨u, hinitial ▸ h.walk hu hstart⟩
  · obtain ⟨q, hq, rfl⟩ := (hstates b).mp hb
    rw [hwords q hq]
    exact hA.productive q (hlt q hq)
  · obtain ⟨p, hp, rfl⟩ := (hstates b).mp hb
    obtain ⟨q, hq, rfl⟩ := (hstates c).mp hc
    exact hseparated p q hp hq (by rw [← hwords p hp, hbc, hwords q hq])

theorem Reduced.exists_same_words (hA : A.Reduced) (hB : B.WellFormed) (hdet : Deterministic B.Step)
    (h : A.wordsFrom A.initial = B.wordsFrom B.initial) {p : Nat} (hp : p < A.size) :
    ∃ q < B.size, B.wordsFrom q = A.wordsFrom p := by
  obtain ⟨u, hu⟩ := hA.reachable p hp
  obtain ⟨v, hv⟩ := hA.productive p hp
  rw [wordsFrom_of_walk hA.deterministic hu, h] at hv ⊢
  obtain ⟨q, hq, _⟩ := (append_mem_wordsTo hdet.noEpsilon).mp hv
  exact ⟨q, hB.lt_of_walk hq hB.initial_lt, wordsFrom_of_walk hdet hq⟩

/-- The states of a reduced automaton have different words, and each word set is that of some state
elsewhere. -/
theorem Reduced.size_le (hA : A.Reduced) (hB : B.WellFormed) (hdet : Deterministic B.Step)
    (h : A.wordsFrom A.initial = B.wordsFrom B.initial) : A.size ≤ B.size := by
  have himage : ∀ p : Fin A.size, ∃ q : Fin B.size, B.wordsFrom q = A.wordsFrom p := by
    intro p
    obtain ⟨q, hq, hwords⟩ := hA.exists_same_words hB hdet h p.isLt
    exact ⟨⟨q, hq⟩, hwords⟩
  choose f hf using himage
  have hinj : Function.Injective f := by
    intro p q hpq
    apply Fin.ext
    exact hA.separated p p.isLt q q.isLt (by rw [← hf p, ← hf q, hpq])
  simpa using Fintype.card_le_of_injective f hinj

end Automaton

end Acceptors
