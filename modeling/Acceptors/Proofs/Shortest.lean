import Acceptors.Proofs.Discovery
import Acceptors.Proofs.EpsilonFree

/-!
Shortest words. Without epsilon edges the search comes to every state that a walk leads to, by a
word that is no longer than that of the walk (`exists_visit_le`), and to states with shorter words
first, so the first terminal state that it comes to has a word that no accepted word is shorter
than. Main statement: `shortestWord_shortest`.
-/

namespace Acceptors

/-- What is found first comes before all else that might have been found. -/
theorem rel_of_find?_eq_some {α : Type} {R : α → α → Prop} {p : α → Bool} {xs : List α}
    (hxs : xs.Pairwise R)
    {x y : α} (hx : xs.find? p = some x) (hy : y ∈ xs) (hp : p y = true) : x = y ∨ R x y := by
  obtain ⟨_, before, after, rfl, hbefore⟩ := List.find?_eq_some_iff_append.mp hx
  rcases List.mem_append.mp hy with hy | hy
  · have hnot : p y = false := by simpa using hbefore y hy
    rw [hp] at hnot
    cases hnot
  · obtain ⟨hafter, _⟩ := List.pairwise_cons.mp (List.pairwise_append.mp hxs).2.1
    exact (List.mem_cons.mp hy).imp Eq.symm (hafter y)

theorem Word.length_flatMap_spelled_le (w : Word) :
    (w.flatMap Symbol.spelled).length ≤ w.length := by
  induction w with
  | nil => exact Nat.le_refl 0
  | cons s w ih =>
    have hs : s.spelled.length ≤ 1 := by cases s <;> simp [Symbol.spelled]
    rw [List.flatMap_cons, List.length_append, List.length_cons]
    omega

namespace Automaton

variable {A : FiniteAutomaton} {u v : Visit} {q : Nat} {w : Word}

/-! ## The search -/

/-- What is visited by one more edge. -/
def follow (A : FiniteAutomaton) (v : Visit) : List Visit :=
  (A.edges v.state).map fun (s, q) => ⟨q, v.word ++ [s]⟩

theorem mem_follow : u ∈ A.follow v ↔ ∃ s, A.Step v.state s u.state ∧ u.word = v.word ++ [s] := by
  simp only [follow, List.mem_map, Prod.exists, mem_edges]
  constructor
  · rintro ⟨s, q, hs, rfl⟩
    exact ⟨s, hs, rfl⟩
  · rintro ⟨s, hs, hword⟩
    exact ⟨s, u.state, hs, hword ▸ rfl⟩

theorem length_word_of_mem_follow (h : u ∈ A.follow v) : u.word.length = v.word.length + 1 := by
  obtain ⟨s, _, hword⟩ := mem_follow.mp h
  rw [hword, List.length_append, List.length_singleton]

/-- Visits by longer words come later. -/
theorem graded_follow (A : FiniteAutomaton) :
    Graded A.follow (fun v => v.word.length) fun u v => u.word.length ≤ v.word.length where
  deeper _ _ h := length_word_of_mem_follow h
  later _ _ h := Nat.le_of_lt h
  inside v := List.pairwise_of_forall_mem_list fun x hx y hy => by
    rw [length_word_of_mem_follow hx, length_word_of_mem_follow hy]
  across u v h x hx y hy := by
    rw [length_word_of_mem_follow hx, length_word_of_mem_follow hy]
    exact Nat.succ_le_succ h

theorem pairwise_visits (A : FiniteAutomaton) :
    A.visits.Pairwise fun u v => u.word.length ≤ v.word.length :=
  pairwise_exploreBy Visit.state (graded_follow A) A.size ⟨A.initial, []⟩

/-- Each state is visited by a word that leads to it. -/
theorem walk_of_mem_visits (he : ∀ p q, ¬ A.Step p .epsilon q) :
    ∀ v ∈ A.visits, Walk A.Step A.initial v.word v.state := by
  refine exploreBy_preserves (P := fun v : Visit => Walk A.Step A.initial v.word v.state)
    (fun v hv u hu => ?_) A.size ?_
  · obtain ⟨s, hs, hword⟩ := mem_follow.mp hu
    rw [hword]
    exact (Walk.append_iff he).mpr ⟨v.state, hv, (Walk.cons_iff he).mpr ⟨u.state, hs, .nil _⟩⟩
  · simpa using Walk.nil A.initial

/-- Each edge from a visited state leads to a state that is visited by a word no longer than with
this edge. -/
theorem exists_visit_of_step (hA : A.WellFormed) (hv : v ∈ A.visits) {s : Symbol}
    (hs : A.Step v.state s q) :
    ∃ u ∈ A.visits, u.state = q ∧ u.word.length ≤ v.word.length + 1 := by
  have hclosed : ∀ x : Visit, x.state ∈ List.range A.size →
      ∀ y ∈ A.follow x, y.state ∈ List.range A.size := by
    intro x _ y hy
    obtain ⟨_, hs, _⟩ := mem_follow.mp hy
    exact List.mem_range.mpr (hA.target_lt hs)
  have hnew : (⟨q, v.word ++ [s]⟩ : Visit) ∈ A.follow v := mem_follow.mpr ⟨s, hs, rfl⟩
  obtain ⟨u, hu, hstate⟩ := exploreBy_closed Visit.state hclosed (by simp)
    (by simpa using hA.initial_lt) v hv _ hnew
  refine ⟨u, hu, hstate, ?_⟩
  rcases first_exploreBy (graded_follow A) hu hv hnew hstate with rfl | hle
  · simp
  · simpa using hle

/-- Each state that a walk leads to is visited by a word no longer than that of the walk. -/
theorem exists_visit_le (hA : A.WellFormed) (he : ∀ p q, ¬ A.Step p .epsilon q)
    (hw : Walk A.Step A.initial w q) : ∃ v ∈ A.visits, v.state = q ∧ v.word.length ≤ w.length := by
  induction w using List.reverseRecOn generalizing q with
  | nil =>
    have hstart : (⟨A.initial, []⟩ : Visit) ∈ A.visits :=
      subset_exploreFrom A.size [_] [_] (List.mem_singleton_self _)
    exact ⟨_, hstart, (Walk.nil_iff_eq he).mp hw, Nat.le_refl 0⟩
  | append_singleton w s ih =>
    obtain ⟨p, hp, hlast⟩ := (Walk.append_iff he).mp hw
    obtain ⟨_, hs, hq⟩ := (Walk.cons_iff he).mp hlast
    obtain rfl := (Walk.nil_iff_eq he).mp hq
    obtain ⟨v, hv, rfl, hle⟩ := ih hp
    obtain ⟨u, hu, hstate, hle'⟩ := exists_visit_of_step hA hv hs
    refine ⟨u, hu, hstate, ?_⟩
    rw [List.length_append, List.length_singleton]
    omega

/-! ## The word found -/

theorem shortestWord_eq_some (hA : A.WellFormed) (h : A.shortestWord = some w) :
    w ∈ A.wordsFrom A.initial ∧ ∀ v ∈ A.wordsFrom A.initial, w.length ≤ v.length := by
  have hB := hA.withoutEpsilon
  have he : ∀ p q, ¬ A.withoutEpsilon.Step p .epsilon q :=
    not_step_epsilon (hasEpsilon_withoutEpsilon A)
  obtain ⟨v, hfind, rfl⟩ := Option.map_eq_some_iff.mp h
  have hv : v ∈ A.withoutEpsilon.visits := List.mem_of_find?_eq_some hfind
  have hterminal : A.withoutEpsilon.isTerminal v.state = true := by
    simpa using List.find?_some hfind
  rw [← wordsFrom_withoutEpsilon hA]
  refine ⟨⟨v.state, hterminal, walk_of_mem_visits he v hv⟩, ?_⟩
  rintro u ⟨q, hq, hwalk⟩
  obtain ⟨x, hx, rfl, hle⟩ := exists_visit_le hB he hwalk
  rcases rel_of_find?_eq_some (pairwise_visits _) hfind hx hq with rfl | hfirst
  · exact hle
  · exact hfirst.trans hle

theorem shortestWord_eq_none_iff (hA : A.WellFormed) :
    A.shortestWord = none ↔ ∀ w, w ∉ A.wordsFrom A.initial := by
  have hB := hA.withoutEpsilon
  have he : ∀ p q, ¬ A.withoutEpsilon.Step p .epsilon q :=
    not_step_epsilon (hasEpsilon_withoutEpsilon A)
  constructor
  · intro h w hw
    rw [← wordsFrom_withoutEpsilon hA] at hw
    obtain ⟨q, hq, hwalk⟩ := hw
    obtain ⟨x, hx, rfl, _⟩ := exists_visit_le hB he hwalk
    exact List.find?_eq_none.mp (Option.map_eq_none_iff.mp h) x hx hq
  · intro h
    refine Option.eq_none_iff_forall_ne_some.mpr fun w hw => ?_
    exact h w (shortestWord_eq_some hA hw).1

/-- The search for a word ends without one if and only if no terminal state is reachable, if and
only if no word is accepted. A word that it ends with has no epsilon and is accepted, and no
accepted word is shorter. -/
theorem shortestWord_shortest (hA : A.Assembled) :
    (A.shortestWord = none ↔ ∀ w : Word, w.Plain → A.accepts w = false) ∧
      (A.shortestWord = none ↔ A.isEmpty = true) ∧
      ∀ w, A.shortestWord = some w →
        w.Plain ∧ A.accepts w = true ∧ ∀ v, A.accepts v = true → w.length ≤ v.length := by
  have hwf := hA.wellFormed
  refine ⟨?_, ?_, fun w hw => ?_⟩
  · rw [shortestWord_eq_none_iff hwf]
    constructor
    · intro h w hw
      rw [← Bool.not_eq_true, accepts_iff hwf hw]
      exact h w
    · rintro h w ⟨q, hq, hwalk⟩
      have hfalse := h w hwalk.plain
      rw [accepts_of_mem_wordsFrom hwf ⟨q, hq, hwalk⟩] at hfalse
      cases hfalse
  · rw [shortestWord_eq_none_iff hwf, isEmpty_iff hwf]
  · obtain ⟨⟨q, hq, hwalk⟩, hleast⟩ := shortestWord_eq_some hwf hw
    refine ⟨hwalk.plain, accepts_of_mem_wordsFrom hwf ⟨q, hq, hwalk⟩, fun v hv => ?_⟩
    exact (hleast _ (mem_wordsFrom_of_accepts hwf hv)).trans v.length_flatMap_spelled_le

/-- A state that epsilon edges lead round, and two ways to the terminal state, of which the longer
one is found by the symbol that comes first. -/
def detouring : Parts Nat :=
  ⟨0, [⟨0, "", false, Table.ofEdges [(.epsilon, 1)]⟩,
    ⟨1, "", false, Table.ofEdges [(.epsilon, 0), (.literal "a", 2), (.literal "b", 3)]⟩,
    ⟨2, "", false, Table.ofEdges [(.literal "a", 3)]⟩,
    ⟨3, "", false, Table.ofEdges [(.epsilon, 4), (.literal "a", 3)]⟩, ⟨4, "", true, ∅⟩], ∅⟩

theorem shortestWord_shortest_detouring :
    detouring.automaton.Assembled ∧ detouring.automaton.shortestWord = some (Word.ofText "b") ∧
      detouring.automaton.isEmpty = false ∧
      (∃ w : Word, w.Plain ∧ detouring.automaton.accepts w ≠ false) ∧
      ∀ v, detouring.automaton.accepts v = true → 1 ≤ v.length := by
  have hA : detouring.automaton.Assembled := ⟨detouring, rfl⟩
  have hword : detouring.automaton.shortestWord = some (Word.ofText "b") := by decide +kernel
  obtain ⟨_, hempty, hfound⟩ := shortestWord_shortest hA
  obtain ⟨hplain, haccepts, hleast⟩ := hfound _ hword
  have hnot : detouring.automaton.isEmpty = false := by
    rw [← Bool.not_eq_true, ← hempty, hword]
    simp
  exact ⟨hA, hword, hnot, ⟨_, hplain, by simp [haccepts]⟩, hleast⟩

end Automaton

end Acceptors
