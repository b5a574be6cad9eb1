import Acceptors.Automaton.Basic
import Acceptors.Proofs.Exploration
import Acceptors.Proofs.Walk

/-!
Acceptance as a matter of walks. Main statements: the closures of an automaton are exactly the
states that walks lead to (`mem_epsilonClosure`, `mem_reachable`, `mem_productive`), and an
automaton accepts a word without epsilon if and only if a walk spells it (`accepts_iff`).
-/

namespace Acceptors.Automaton

open Relation

variable {A : FiniteAutomaton}

/-- An edge of the automaton. -/
def Step (A : FiniteAutomaton) (p : Nat) (s : Symbol) (q : Nat) : Prop := q ∈ A.next p s

/-- The words that lead from a state to a terminal one. -/
def wordsFrom (A : FiniteAutomaton) (p : Nat) : WordSet Symbol :=
  wordsTo A.Step (fun q => A.isTerminal q = true) p

theorem labelling_wordsFrom (A : FiniteAutomaton) :
    Labelling A.Step (fun q => A.isTerminal q = true) A.wordsFrom :=
  labelling_wordsTo

theorem nil_mem_wordsFrom (he : ∀ p q, ¬ A.Step p .epsilon q) {p : Nat} :
    [] ∈ A.wordsFrom p ↔ A.isTerminal p = true :=
  nil_mem_wordsTo (T := fun q => A.isTerminal q = true) he

/-! ## Edges and targets -/

theorem WellFormed.initial_lt (h : A.WellFormed) : A.initial < A.size := h.1

theorem WellFormed.target_lt (h : A.WellFormed) {p q : Nat} {s : Symbol} (hs : A.Step p s q) :
    q < A.size := h.2 p s q hs

theorem step_iff {p q : Nat} {s : Symbol} :
    A.Step p s q ↔ ∃ state targets, A.states[p]? = some state ∧
      state.table.get? s = some targets ∧ q ∈ targets := by
  unfold Step next
  cases A.states[p]? with
  | none => simp
  | some state =>
    cases h : state.table.get? s <;> simp [State.next, Table.next, h, SortedSet.mem_toList]

theorem source_lt {p q : Nat} {s : Symbol} (h : A.Step p s q) : p < A.size := by
  obtain ⟨state, _, hstate, _⟩ := step_iff.mp h
  exact (List.getElem?_eq_some_iff.mp hstate).1

theorem isTerminal_of_size_le {p : Nat} (h : A.size ≤ p) : A.isTerminal p = false := by
  rw [isTerminal, List.getElem?_eq_none h]

theorem lt_of_isTerminal {p : Nat} (h : A.isTerminal p = true) : p < A.size := by
  by_contra hp
  rw [isTerminal_of_size_le (Nat.le_of_not_lt hp)] at h
  cases h

/-- A number that is no state has no words. -/
theorem lt_of_mem_wordsFrom {p : Nat} {w : Word} (h : w ∈ A.wordsFrom p) : p < A.size := by
  obtain ⟨q, hq, hw⟩ := h
  cases hw with
  | nil _ => exact lt_of_isTerminal hq
  | cons hs _ => exact source_lt hs

theorem WellFormed.lt_of_walk (h : A.WellFormed) {p q : Nat} {w : Word} (hw : Walk A.Step p w q)
    (hp : p < A.size) : q < A.size :=
  hw.keeps (I := (· < A.size)) (fun _ _ _ hs _ => h.target_lt hs) hp

theorem mem_edges {p q : Nat} {s : Symbol} : (s, q) ∈ A.edges p ↔ A.Step p s q := by
  unfold edges Step next
  split
  · exact Table.mem_edges
  · simp

theorem mem_successors {p q : Nat} : q ∈ A.successors p ↔ ∃ s, A.Step p s q := by
  simp [successors, mem_edges]

theorem mem_terminals {q : Nat} : q ∈ A.terminals ↔ A.isTerminal q = true := by
  simp only [terminals, List.mem_filter, List.mem_range, and_iff_right_iff_imp]
  exact lt_of_isTerminal

theorem mem_allEdges {p q : Nat} {s : Symbol} : (p, s, q) ∈ A.allEdges ↔ A.Step p s q := by
  simp only [allEdges, List.mem_flatMap, List.mem_range, List.mem_map, Prod.mk.injEq, Prod.exists]
  constructor
  · rintro ⟨p, _, s, q, h, rfl, rfl, rfl⟩
    exact mem_edges.mp h
  · intro h
    exact ⟨p, source_lt h, s, q, mem_edges.mpr h, rfl, rfl, rfl⟩

/-! ## Closures -/

theorem leads_successors {p q : Nat} :
    Leads A.successors p q ↔ ∃ w, Walk A.Step p w q :=
  leads_iff_walk fun _ _ => mem_successors

theorem mem_reachable (hA : A.WellFormed) {p q : Nat} (hp : p < A.size) :
    q ∈ A.reachable p ↔ ∃ w, Walk A.Step p w q := by
  have hU : ∀ x ∈ List.range A.size, ∀ y ∈ A.successors x, y ∈ List.range A.size := by
    intro x _ y hy
    obtain ⟨s, hs⟩ := mem_successors.mp hy
    exact List.mem_range.mpr (hA.target_lt hs)
  rw [reachable, SortedSet.mem_ofList, mem_explore hU (by simp) (by simpa using hp)]
  simp [leads_successors]

theorem mem_epsilonClosure (hA : A.WellFormed) {ps : List Nat} (hps : ∀ p ∈ ps, p < A.size)
    {q : Nat} : q ∈ A.epsilonClosure ps ↔ ∃ p ∈ ps, Walk A.Step p [] q := by
  have hU : ∀ x ∈ List.range A.size, ∀ y ∈ A.next x .epsilon, y ∈ List.range A.size :=
    fun x _ y hy => List.mem_range.mpr (hA.target_lt hy)
  rw [epsilonClosure, SortedSet.mem_ofList, mem_explore hU (by simp) (by simpa using hps)]
  simp only [Walk.nil_iff]
  rfl

theorem mem_epsilonClosure_singleton (hA : A.WellFormed) {p q : Nat} (hp : p < A.size) :
    q ∈ A.epsilonClosure [p] ↔ Walk A.Step p [] q := by
  rw [mem_epsilonClosure hA (by simpa using hp)]
  simp

/-- The sources of the edges into a state. -/
def predecessors (A : FiniteAutomaton) (q : Nat) : List Nat :=
  (A.allEdges.filter fun edge => edge.2.2 == q).map (·.1)

theorem productive_eq :
    A.productive = SortedSet.ofList (explore A.predecessors A.size A.terminals) := rfl

theorem mem_predecessors {p q : Nat} : p ∈ A.predecessors q ↔ q ∈ A.successors p := by
  rw [mem_successors]
  simp [predecessors, mem_allEdges]

theorem leads_predecessors {p q : Nat} : Leads A.predecessors q p ↔ Leads A.successors p q := by
  rw [Leads, Leads, ← reflTransGen_swap]
  simp only [mem_predecessors]

/-- The productive states are those that edges taken backwards lead to from a terminal state. -/
theorem mem_productive_iff_leads {p : Nat} :
    p ∈ A.productive ↔ ∃ q ∈ A.terminals, Leads A.predecessors q p := by
  have hU : ∀ x ∈ List.range A.size, ∀ y ∈ A.predecessors x, y ∈ List.range A.size := by
    intro x _ y hy
    obtain ⟨s, hs⟩ := mem_successors.mp (mem_predecessors.mp hy)
    exact List.mem_range.mpr (source_lt hs)
  have hterm : ∀ x ∈ A.terminals, x ∈ List.range A.size := fun x hx => (List.mem_filter.mp hx).1
  rw [productive_eq, SortedSet.mem_ofList, mem_explore hU (by simp) hterm]

/-- The productive states are those from which a word is accepted. -/
theorem mem_productive {p : Nat} : p ∈ A.productive ↔ ∃ w, w ∈ A.wordsFrom p := by
  simp only [mem_productive_iff_leads, leads_predecessors, leads_successors, mem_terminals]
  constructor
  · rintro ⟨q, hq, w, hw⟩
    exact ⟨w, q, hq, hw⟩
  · rintro ⟨w, q, hq, hw⟩
    exact ⟨q, hq, w, hw⟩

/-- The useful states are those that lie on a walk from the initial state to a terminal one. -/
theorem mem_useful (hA : A.WellFormed) {q : Nat} :
    q ∈ A.useful ↔ (∃ w, Walk A.Step A.initial w q) ∧ ∃ w, w ∈ A.wordsFrom q := by
  unfold useful
  rw [List.mem_filter, SortedSet.mem_toList, mem_reachable hA hA.initial_lt, decide_eq_true_eq,
    mem_productive]

theorem initial_mem_useful (hA : A.WellFormed) (h : A.initial ∈ A.productive) :
    A.initial ∈ A.useful :=
  (mem_useful hA).mpr ⟨⟨[], .nil _⟩, mem_productive.mp h⟩

/-- No terminal state is found if and only if no word is accepted. -/
theorem isEmpty_iff (hA : A.WellFormed) : A.isEmpty = true ↔ ∀ w, w ∉ A.wordsFrom A.initial := by
  simp only [isEmpty, List.all_eq_true, SortedSet.mem_toList, mem_reachable hA hA.initial_lt,
    Bool.not_eq_true']
  constructor
  · rintro h w ⟨q, hq, hw⟩
    rw [h q ⟨w, hw⟩] at hq
    cases hq
  · rintro h q ⟨w, hw⟩
    rw [← Bool.not_eq_true]
    exact fun hq => h w ⟨q, hq, hw⟩

/-! ## Runs -/

theorem mem_move {qs : SortedSet Nat} {s : Symbol} {r : Nat} :
    r ∈ A.move qs s ↔ ∃ q ∈ qs, A.Step q s r := by
  simp [move, Step, SortedSet.mem_toList]

theorem WellFormed.lt_of_mem_move (hA : A.WellFormed) {qs : SortedSet Nat} {s : Symbol} {r : Nat}
    (hr : r ∈ A.move qs s) : r < A.size := by
  obtain ⟨p, _, hp⟩ := mem_move.mp hr
  exact hA.target_lt hp

/-- Epsilon in a word is an obstacle to walks, and to runs where no edge carries it. -/
theorem mem_run (hA : A.WellFormed) {w : Word} (hw : w.Plain ∨ ∀ p q, ¬ A.Step p .epsilon q)
    {ps : List Nat} (hps : ∀ p ∈ ps, p < A.size) {q : Nat} :
    q ∈ A.run (A.epsilonClosure ps) w ↔ ∃ p ∈ ps, Walk A.Step p w q := by
  induction w generalizing ps with
  | nil => exact mem_epsilonClosure hA hps
  | cons s w ih =>
    have hrest : Word.Plain w ∨ ∀ p q, ¬ A.Step p .epsilon q :=
      hw.imp_left fun h hmem => h (List.mem_cons_of_mem s hmem)
    have hs : ∀ p r, A.Step p s r → s ≠ .epsilon := by
      rintro p r hr rfl
      rcases hw with hw | hw
      · exact hw List.mem_cons_self
      · exact hw p r hr
    rw [run, List.foldl_cons, ← run, ih hrest fun r hr => hA.lt_of_mem_move hr]
    constructor
    · rintro ⟨r, hr, hrq⟩
      obtain ⟨p', hp', hstep⟩ := mem_move.mp hr
      obtain ⟨p, hp, hpp'⟩ := (mem_epsilonClosure hA hps).mp hp'
      refine ⟨p, hp, ?_⟩
      have h := hpp'.append (.cons hstep hrq)
      rwa [Symbol.spelled_of_ne (hs _ _ hstep)] at h
    · rintro ⟨p, hp, hpq⟩
      obtain ⟨p', r, hpp', hstep, hrq⟩ := hpq.split_cons
      exact ⟨r, mem_move.mpr ⟨p', (mem_epsilonClosure hA hps).mpr ⟨p, hp, hpp'⟩, hstep⟩, hrq⟩

/-- A run takes an epsilon of its word by an edge that carries it, and a walk along that edge spells
nothing. -/
theorem walk_of_mem_run (hA : A.WellFormed) {w : Word} {ps : List Nat} (hps : ∀ p ∈ ps, p < A.size)
    {q : Nat} (h : q ∈ A.run (A.epsilonClosure ps) w) :
    ∃ p ∈ ps, Walk A.Step p (w.flatMap Symbol.spelled) q := by
  induction w generalizing ps with
  | nil => exact (mem_epsilonClosure hA hps).mp h
  | cons s w ih =>
    rw [run, List.foldl_cons, ← run] at h
    obtain ⟨r, hr, hrq⟩ := ih (fun r hr => hA.lt_of_mem_move hr) h
    obtain ⟨p', hp', hstep⟩ := mem_move.mp hr
    obtain ⟨p, hp, hpp'⟩ := (mem_epsilonClosure hA hps).mp hp'
    exact ⟨p, hp, hpp'.append (.cons hstep hrq)⟩

/-- The run on the word from the state comes to a terminal state. -/
def acceptsFrom (A : FiniteAutomaton) (p : Nat) (w : Word) : Bool :=
  (A.run (A.epsilonClosure [p]) w).toList.any A.isTerminal

theorem acceptsFrom_iff (hA : A.WellFormed) {w : Word} (hw : w.Plain ∨ ∀ p q, ¬ A.Step p .epsilon q)
    {p : Nat} (hp : p < A.size) : A.acceptsFrom p w = true ↔ w ∈ A.wordsFrom p := by
  have hstart : ∀ r ∈ [p], r < A.size := by simpa using hp
  simp only [acceptsFrom, List.any_eq_true, SortedSet.mem_toList, mem_run hA hw hstart]
  constructor
  · rintro ⟨q, ⟨r, hr, hw⟩, hq⟩
    exact ⟨q, hq, List.mem_singleton.mp hr ▸ hw⟩
  · rintro ⟨q, hq, hw⟩
    exact ⟨q, ⟨p, List.mem_singleton_self _, hw⟩, hq⟩

theorem accepts_iff_of_mem_run (hA : A.WellFormed) {w : Word}
    (hw : w.Plain ∨ ∀ p q, ¬ A.Step p .epsilon q) :
    A.accepts w = true ↔ w ∈ A.wordsFrom A.initial :=
  acceptsFrom_iff hA hw hA.initial_lt

/-- A word without epsilon is accepted if and only if a walk from the initial to a terminal state
spells it. -/
theorem accepts_iff (hA : A.WellFormed) {w : Word} (hw : w.Plain) :
    A.accepts w = true ↔ w ∈ A.wordsFrom A.initial :=
  accepts_iff_of_mem_run hA (.inl hw)

theorem accepts_of_mem_wordsFrom (hA : A.WellFormed) {w : Word} (hw : w ∈ A.wordsFrom A.initial) :
    A.accepts w = true := by
  obtain ⟨q, hq, hwalk⟩ := hw
  exact (accepts_iff hA hwalk.plain).mpr ⟨q, hq, hwalk⟩

/-- Without its epsilons an accepted word is spelled by a walk from the initial to a terminal
state. -/
theorem mem_wordsFrom_of_accepts (hA : A.WellFormed) {w : Word} (h : A.accepts w = true) :
    w.flatMap Symbol.spelled ∈ A.wordsFrom A.initial := by
  obtain ⟨q, hq, hterminal⟩ := List.any_eq_true.mp h
  obtain ⟨p, hp, hwalk⟩ :=
    walk_of_mem_run hA (by simpa using hA.initial_lt) (SortedSet.mem_toList.mp hq)
  obtain rfl := List.mem_singleton.mp hp
  exact ⟨q, hterminal, hwalk⟩

/-- Where no walk leads from the initial state to a terminal one nothing is accepted, epsilon in
words or not. -/
theorem accepts_eq_false_of_wordsFrom (hA : A.WellFormed) (h : A.wordsFrom A.initial = 0)
    (w : Word) :
    A.accepts w = false := by
  rw [← Bool.not_eq_true]
  intro haccepts
  have hmem := mem_wordsFrom_of_accepts hA haccepts
  rw [h] at hmem
  exact Language.notMem_zero _ hmem

/-- Automata accept the same words without epsilon if and only if the same words lead on from their
initial states. -/
theorem forall_plain_accepts_eq_iff {B : FiniteAutomaton} (hA : A.WellFormed) (hB : B.WellFormed) :
    (∀ w : Word, w.Plain → A.accepts w = B.accepts w) ↔
      A.wordsFrom A.initial = B.wordsFrom B.initial := by
  constructor
  · intro h
    ext w
    by_cases hw : Word.Plain w
    · rw [← accepts_iff hA hw, ← accepts_iff hB hw, h w hw]
    · constructor <;> exact fun ⟨_, _, hwalk⟩ => absurd hwalk.plain hw
  · intro h w hw
    rw [Bool.eq_iff_iff, accepts_iff hA hw, accepts_iff hB hw, h]

/-- Without epsilon edges the same holds of all words. -/
theorem accepts_iff_of_not_step_epsilon (hA : A.WellFormed) (he : ∀ p q, ¬ A.Step p .epsilon q)
    (w : Word) : A.accepts w = true ↔ w ∈ A.wordsFrom A.initial :=
  accepts_iff_of_mem_run hA (.inr he)

end Acceptors.Automaton
