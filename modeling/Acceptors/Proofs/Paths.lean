import Acceptors.Proofs.Assembly

/-!
Paths as lists of edges, and acceptance by them. A walk says which word it spells and leaves its
edges out; a path lists them, and what it spells is read off the list (`walk_iff_exists_path`). Main
statement: `accepts_iff_exists_path`.
-/

namespace Acceptors.Automaton

variable {A : FiniteAutomaton} {p q r : Nat} {s : Symbol} {w : Word}

/-- Edges of the automaton from one state to another, each of them leaving the state that the one
before leads to. -/
def IsPath (A : FiniteAutomaton) : Nat → List (Nat × Symbol × Nat) → Nat → Prop
  | p, [], q => p = q
  | p, (p', s, r) :: path, q => p' = p ∧ (p', s, r) ∈ A.allEdges ∧ A.IsPath r path q

instance decidableIsPath (A : FiniteAutomaton) (p : Nat) (path : List (Nat × Symbol × Nat))
    (q : Nat) :
    Decidable (A.IsPath p path q) :=
  match path with
  | [] => inferInstanceAs (Decidable (p = q))
  | (p', s, r) :: path =>
    have := decidableIsPath A r path q
    inferInstanceAs (Decidable (p' = p ∧ (p', s, r) ∈ A.allEdges ∧ A.IsPath r path q))

/-- The labels of the edges, those with epsilon left out. -/
def spelling (path : List (Nat × Symbol × Nat)) : Word :=
  (path.map fun edge => edge.2.1).filter fun s => !s.isEpsilon

theorem spelling_cons (edge : Nat × Symbol × Nat) (path : List (Nat × Symbol × Nat)) :
    spelling (edge :: path) = edge.2.1.spelled ++ spelling path := by
  obtain ⟨p, s, r⟩ := edge
  cases s <;> simp [spelling, Symbol.isEpsilon, Symbol.spelled]

theorem walk_of_isPath {path : List (Nat × Symbol × Nat)} (h : A.IsPath p path q) :
    Walk A.Step p (spelling path) q := by
  induction path generalizing p with
  | nil => exact h ▸ .nil p
  | cons edge path ih =>
    obtain ⟨p', s, r⟩ := edge
    obtain ⟨rfl, hedge, hpath⟩ := h
    rw [spelling_cons]
    exact .cons (mem_allEdges.mp hedge) (ih hpath)

theorem exists_path_of_walk (h : Walk A.Step p w q) :
    ∃ path, A.IsPath p path q ∧ spelling path = w := by
  induction h with
  | nil p => exact ⟨[], rfl, rfl⟩
  | @cons p r q s w hs _ ih =>
    obtain ⟨path, hpath, hw⟩ := ih
    refine ⟨(p, s, r) :: path, ⟨rfl, mem_allEdges.mpr hs, hpath⟩, ?_⟩
    rw [spelling_cons, hw]

theorem walk_iff_exists_path : Walk A.Step p w q ↔
    ∃ path, A.IsPath p path q ∧ spelling path = w := by
  constructor
  · exact exists_path_of_walk
  · rintro ⟨path, hpath, rfl⟩
    exact walk_of_isPath hpath

/-- A word without epsilon is accepted if and only if some path from the initial state to a terminal
one spells it. -/
theorem accepts_iff_exists_path (hA : A.Assembled) (hw : w.Plain) : A.accepts w = true ↔
    ∃ path q, A.IsPath A.initial path q ∧ A.isTerminal q = true ∧ spelling path = w := by
  have hwords : w ∈ A.wordsFrom A.initial ↔ ∃ q, A.isTerminal q = true ∧
      Walk A.Step A.initial w q := Iff.rfl
  rw [accepts_iff hA.wellFormed hw, hwords]
  simp only [walk_iff_exists_path]
  constructor
  · rintro ⟨q, hq, path, hpath, hw⟩
    exact ⟨path, q, hpath, hq, hw⟩
  · rintro ⟨path, q, hpath, hq, hw⟩
    exact ⟨q, hq, path, hpath, hw⟩

/-- Epsilon edges in a circle, out of which one symbol leads to a state with an epsilon edge
back. -/
def circling : Parts Nat :=
  ⟨0, [⟨0, "", false, Table.ofEdges [(.epsilon, 1)]⟩,
    ⟨1, "", false, Table.ofEdges [(.epsilon, 0), (.literal "a", 2)]⟩,
    ⟨2, "", false, Table.ofEdges [(.epsilon, 1), (.literal "b", 3)]⟩, ⟨3, "", true, ∅⟩], ∅⟩

theorem accepts_iff_exists_path_circling :
    circling.automaton.Assembled ∧ Word.Plain [.literal "a", .literal "a", .literal "b"] ∧
      circling.automaton.accepts [.literal "a", .literal "a", .literal "b"] = true ∧
      ∀ path q, circling.automaton.IsPath 0 path q → circling.automaton.isTerminal q = true →
        spelling path ≠ [.literal "b", .literal "a"] := by
  have hA : circling.automaton.Assembled := ⟨circling, rfl⟩
  have haab : Word.Plain [.literal "a", .literal "a", .literal "b"] := by decide
  refine ⟨hA, haab, (accepts_iff_exists_path hA haab).mpr ?_, fun path q hpath hq hw => ?_⟩
  · exact ⟨[(0, .epsilon, 1), (1, .epsilon, 0), (0, .epsilon, 1), (1, .literal "a", 2),
      (2, .epsilon, 1),
      (1, .literal "a", 2), (2, .literal "b", 3)], 3, by decide, by decide, by decide⟩
  · have hba : circling.automaton.accepts [.literal "b", .literal "a"] = true :=
      (accepts_iff_exists_path hA (by decide)).mpr ⟨path, q, hpath, hq, hw⟩
    exact absurd hba (by decide)

end Acceptors.Automaton
