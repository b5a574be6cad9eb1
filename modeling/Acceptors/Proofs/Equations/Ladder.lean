import Acceptors.Proofs.Equations.Nesting

/-!
Automata whose expressions nest as deep as they have states. A ladder leads up and down again step
by step, and at the top also round. Elimination takes the top away, and the state below is a top
again, the loop of which has the old one inside (`substitute_row`, `Rows.eliminate`). Main
statements: `Ladder.nesting_text`, the bound by the number of states is attained, and
`Ladder.exists_parse_text_iff`, a text is read again if and only if its ladder has no more states
than parentheses may nest.
-/

namespace Acceptors

open Regex.Grammar

theorem Equation.ext {e f : Equation} (hterms : ∀ x, e.terms.get? x = f.terms.get? x)
    (hconstant : e.constant = f.constant) : e = f := by
  cases e
  cases f
  congr
  exact SortedMap.ext hterms

namespace Ladder

/-- The loop of a state when the `k` states above it have been eliminated. -/
def loop : Nat → Regex
  | 0 => .union [.literal "a", .literal "b"]
  | k + 1 => .concat [.literal "a", .star (loop k), .literal "c"]

theorem loop_ne_empty (k : Nat) : loop k ≠ .empty := by
  cases k <;> simp [loop]

theorem iterate_loop (k : Nat) : Regex.iterate (loop k) = .star (loop k) := by
  cases k <;> rfl

/-- The ways up, or round at the top. -/
def up (n i : Nat) : List (String × Nat) := if i < n then [("a", i + 1)] else [("a", i), ("b", i)]

def down (i : Nat) : List (String × Nat) := if i = 0 then [] else [("c", i - 1)]

def state (n i : Nat) : State Nat :=
  ⟨i, "", i == 0, Table.ofEdges ((up n i ++ down i).map fun edge => (.literal edge.1, edge.2))⟩

def parts (n : Nat) : Parts Nat := ⟨0, (List.range (n + 1)).map (state n), ∅⟩

/-- The ladder with `n` states above the bottom, where it starts and ends. -/
def automaton (n : Nat) : FiniteAutomaton := (parts n).automaton

variable {n k i x y q : Nat} {s : Symbol} {r : Regex}

/-! ## The automaton -/

theorem size_automaton (n : Nat) : (automaton n).size = n + 1 := by
  simp [automaton, Automaton.size, Parts.automaton, parts]

theorem getElem?_parts {p : Numbered Nat} :
    (parts n).states[i]? = some p ↔ i ≤ n ∧ p = state n i := by
  by_cases hi : i ≤ n
  · simp [parts, hi, Nat.lt_succ_of_le hi, eq_comm]
  · simp [parts, hi, show ¬ i < n + 1 by omega]

theorem getElem?_automaton (hi : i ≤ n) : (automaton n).states[i]? = some (state n i) := by
  rw [automaton, Parts.automaton, getElem?_parts.mpr ⟨hi, rfl⟩]

theorem isTerminal_automaton (hi : i ≤ n) : (automaton n).isTerminal i = (i == 0) := by
  rw [Automaton.isTerminal, getElem?_automaton hi]
  rfl

theorem edges_automaton (hi : i ≤ n) :
    (automaton n).edges i = (up n i ++ down i).map fun edge => (.literal edge.1, edge.2) := by
  rw [Automaton.edges, getElem?_automaton hi]
  dsimp only
  rw [State.edges, state, Table.edges_ofEdges]
  unfold up down
  split <;> split <;> simp <;> decide

theorem step_automaton : (automaton n).Step i s q ↔
    i ≤ n ∧ ∃ name, s = .literal name ∧ (name, q) ∈ up n i ++ down i := by
  rw [← Automaton.mem_edges]
  constructor
  · intro h
    have hi : i ≤ n := by
      have hlt := Automaton.source_lt (Automaton.mem_edges.mp h)
      rw [size_automaton] at hlt
      omega
    rw [edges_automaton hi] at h
    obtain ⟨edge, hedge, heq⟩ := List.mem_map.mp h
    cases heq
    exact ⟨hi, _, rfl, hedge⟩
  · rintro ⟨hi, name, rfl, hedge⟩
    rw [edges_automaton hi]
    exact List.mem_map.mpr ⟨_, hedge, rfl⟩

theorem name_ne_and_le (hi : i ≤ n) {name : String} (h : (name, q) ∈ up n i ++ down i) :
    name ≠ "" ∧ q ≤ n := by
  simp only [up, down] at h
  grind

theorem assembled_automaton (n : Nat) : (automaton n).Assembled := by
  have hedge : ∀ (i : Nat) (p : Numbered Nat), (parts n).states[i]? = some p → ∀ edge ∈ p.edges,
      ∃ name, name ≠ "" ∧ edge.1 = .literal name ∧ edge.2 ≤ n := by
    intro i p hp edge hedge
    obtain ⟨hi, name, hs, h⟩ := step_automaton.mp (Parts.step_automaton.mpr ⟨p, hp, hedge⟩)
    exact ⟨name, (name_ne_and_le hi h).1, hs, (name_ne_and_le hi h).2⟩
  have hstructure : (parts n).structureFault? = none := by
    refine Parts.structureFault?_eq_none_iff.mpr
      ⟨fun i p hp => ⟨?_, fun edge h => ?_⟩, by simp [parts]⟩
    · rw [(getElem?_parts.mp hp).2, state]
    · obtain ⟨_, _, _, hle⟩ := hedge i p hp edge h
      have hlt : edge.2 < (parts n).states.length := by simpa [parts] using Nat.lt_succ_of_le hle
      exact hlt
  refine ⟨parts n, Parts.assembleFinite_eq_ok_iff.mpr
    ⟨SortedSet.not_mem_empty, SortedSet.not_mem_empty, hstructure, fun p hp edge h => ?_, rfl⟩⟩
  obtain ⟨i, hi⟩ := List.mem_iff_getElem?.mp hp
  obtain ⟨name, hne, hs, _⟩ := hedge i p hi edge h
  exact Parts.edgeFault?_eq_none_iff.mpr (.inr ⟨name, hne, hs⟩)

theorem epsilonFree_automaton (n : Nat) : (automaton n).epsilonFree = automaton n := by
  have hepsilon : (automaton n).hasEpsilon = false := by
    have hstate (i : Nat) : (state n i).table.contains .epsilon = false := by
      rw [SortedMap.contains, state, Table.get?_ofEdges_eq_none_iff.mpr (by simp)]
      rfl
    simp [automaton, Parts.automaton, parts, Automaton.hasEpsilon, hstate]
  rw [Automaton.epsilonFree, hepsilon, if_neg Bool.false_ne_true]

theorem exists_walk_up (hi : i ≤ n) : ∃ w, Walk (automaton n).Step 0 w i := by
  induction i with
  | zero => exact ⟨[], .nil 0⟩
  | succ i ih =>
    obtain ⟨w, hw⟩ := ih (by omega)
    have hstep : (automaton n).Step i (.literal "a") (i + 1) :=
      step_automaton.mpr ⟨by omega, "a", rfl, by simp [up, Nat.lt_of_succ_le hi]⟩
    exact ⟨_, hw.append (.edge hstep)⟩

theorem exists_walk_down (hi : i ≤ n) : ∃ w, Walk (automaton n).Step i w 0 := by
  induction i with
  | zero => exact ⟨[], .nil 0⟩
  | succ i ih =>
    obtain ⟨w, hw⟩ := ih (by omega)
    have hstep : (automaton n).Step (i + 1) (.literal "c") i :=
      step_automaton.mpr ⟨hi, "c", rfl, by simp [down]⟩
    exact ⟨_, .cons hstep hw⟩

theorem mem_productive (hi : i ≤ n) : i ∈ (automaton n).productive := by
  obtain ⟨w, hw⟩ := exists_walk_down hi
  exact Automaton.mem_productive.mpr ⟨w, 0, isTerminal_automaton (Nat.zero_le n), hw⟩

theorem mem_useful : i ∈ (automaton n).useful ↔ i ≤ n := by
  rw [Automaton.mem_useful (assembled_automaton n).wellFormed]
  constructor
  · rintro ⟨_, w, hw⟩
    have hlt := Automaton.lt_of_mem_wordsFrom hw
    rw [size_automaton] at hlt
    omega
  · exact fun hi => ⟨exists_walk_up hi, Automaton.mem_productive.mp (mem_productive hi)⟩

/-! ## The equations -/

open EquationSystem

theorem literalEdges_automaton (hi : i ≤ n) : literalEdges (automaton n) i = up n i ++ down i := by
  rw [literalEdges, edges_automaton hi, List.filterMap_map]
  refine (List.filterMap_congr fun edge hedge => ?_).trans List.filterMap_some
  simp [mem_productive (name_ne_and_le hi hedge).2]

/-- The equation of a state without terms. -/
def bare (i : Nat) : Equation := ⟨∅, if i == 0 then .epsilon else .empty⟩

/-- The equation with a term for each edge. -/
def addEdges (e : Equation) (edges : List (String × Nat)) : Equation :=
  edges.foldl (fun e edge => e.addTerm edge.2 (.literal edge.1)) e

theorem equationOf_automaton (hi : i ≤ n) :
    equationOf (automaton n) i = addEdges (bare i) (up n i ++ down i) := by
  rw [equationOf, literalEdges_automaton hi, isTerminal_automaton hi]
  rfl

/-- The equation of a state with the term of one variable beside the way down. -/
def row (i x : Nat) (r : Regex) : Equation := addEdges ((bare i).addTerm x r) (down i)

theorem constant_row (i x : Nat) (r : Regex) :
    (row i x r).constant = if i == 0 then .epsilon else .empty :=
  Equation.constant_foldl_addTerm _ _ _ _

theorem get?_addTerm_bare (i : Nat) (hr : r ≠ .empty) (y : Nat) :
    ((bare i).addTerm x r).terms.get? y = if y = x then some r else none :=
  Equation.get?_addTerm_of_merged (s := r) rfl hr y

theorem get?_row (hx : i ≤ x) (hr : r ≠ .empty) (y : Nat) : (row i x r).terms.get? y =
      if y = x then some r else if y + 1 = i then some (.literal "c") else none := by
  cases i with
  | zero => exact get?_addTerm_bare 0 hr y
  | succ i =>
    have hnone : ((bare (i + 1)).addTerm x r).terms.get? i = none := by
      rw [get?_addTerm_bare _ hr, if_neg (by omega)]
    have hmerged : ((bare (i + 1)).addTerm x r).merged i (.literal "c") = .literal "c" := by
      rw [Equation.merged, hnone]
      rfl
    have hdown := Equation.get?_addTerm_of_merged hmerged (by simp) y
    rw [get?_addTerm_bare _ hr] at hdown
    refine hdown.trans ?_
    grind

theorem equationOf_of_lt (hi : i < n) :
    equationOf (automaton n) i = row i (i + 1) (.literal "a") := by
  rw [equationOf_automaton hi.le, up, if_pos hi]
  rfl

/-- The ways round at the top make one loop. -/
theorem equationOf_top (n : Nat) : equationOf (automaton n) n = row n n (loop 0) := by
  have hround :
      ((bare n).addTerm n (.literal "a")).addTerm n (.literal "b") =
      (bare n).addTerm n (loop 0) := by
    have hup := get?_addTerm_bare (x := n) (r := .literal "a") n (by simp)
    have hmerged : ((bare n).addTerm n (.literal "a")).merged n (.literal "b") = loop 0 := by
      rw [Equation.merged, hup, if_pos rfl]
      decide
    refine Equation.ext (fun y => ?_) rfl
    rw [Equation.get?_addTerm_of_merged hmerged (loop_ne_empty 0), hup,
      get?_addTerm_bare n (loop_ne_empty 0)]
    grind
  rw [equationOf_automaton (Nat.le_refl n), up, if_neg (Nat.lt_irrefl n), row, ← hround]
  rfl

/-! ## Elimination -/

theorem isolate_row (i k : Nat) : (row (i + 1) (i + 1) (loop k)).isolate (i + 1) =
      ⟨SortedMap.ofList [(i, .concat [.star (loop k), .literal "c"])], .empty⟩ := by
  have hget (y : Nat) := get?_row (Nat.le_refl (i + 1)) (loop_ne_empty k) y
  have hdown :
      Regex.product [.star (loop k), .literal "c"] = .concat [.star (loop k), .literal "c"] := by
    simp [Regex.product, Regex.factors, Regex.ofFactors]
  rw [Equation.isolate, hget, if_pos rfl]
  dsimp only
  rw [iterate_loop]
  refine Equation.ext (fun y => ?_) ?_
  · rw [SortedMap.get?_map, SortedMap.get?_erase, hget, SortedMap.ofList, List.foldl_cons,
      List.foldl_nil, SortedMap.get?_insert]
    by_cases hy : y = i
    · simp [hy, hdown]
    · by_cases hy' : y = i + 1 <;> simp [hy, hy']
  · simp [Regex.product, constant_row]

/-- The state below the top that is eliminated is a top, with a longer loop. -/
theorem substitute_row (i k : Nat) :
    (row i (i + 1) (.literal "a")).substitute (i + 1)
      ((row (i + 1) (i + 1) (loop k)).isolate (i + 1)) =
      row i i (loop (k + 1)) := by
  have hget (y : Nat) := get?_row (r := .literal "a") (Nat.le_succ i) (by simp) y
  have hentries : (SortedMap.ofList [(i, Regex.concat [.star (loop k), .literal "c"])]).entries =
      [(i, .concat [.star (loop k), .literal "c"])] := rfl
  have hround :
      Regex.product [.literal "a", .concat [.star (loop k), .literal "c"]] = loop (k + 1) := by
    simp [loop, Regex.product, Regex.factors, Regex.ofFactors]
  have hrest (y : Nat) : ((row i (i + 1) (.literal "a")).without (i + 1)).terms.get? y =
      if y + 1 = i then some (.literal "c") else none := by
    refine SortedMap.get?_erase.trans ?_
    rw [hget]
    grind
  rw [isolate_row, Equation.substitute, hget, if_pos rfl]
  dsimp only
  -- The solution has one term, so the row below gets one term for the one that it loses.
  rw [hentries, List.foldl_cons, List.foldl_nil, hround]
  refine Equation.ext (fun y => ?_) ?_
  · have hmerged :
        ((row i (i + 1) (.literal "a")).without (i + 1)).merged i (loop (k + 1)) =
        loop (k + 1) := by
      rw [Equation.merged, hrest, if_neg (by omega)]
      rfl
    rw [get?_row (Nat.le_refl i) (loop_ne_empty _)]
    exact (Equation.get?_addTerm_of_merged hmerged (loop_ne_empty _) y).trans (by rw [hrest])
  · dsimp only
    rw [constant_row, constant_row]
    split <;> decide

/-- The equations when the states above `k` have been eliminated. -/
def Rows (n k : Nat) (equations : SortedMap Nat Equation) : Prop :=
  ∀ i, equations.get? i =
    if i < k then some (row i (i + 1) (.literal "a"))
    else if i = k then some (row k k (loop (n - k))) else none

theorem rows_ofEpsilonFree (n : Nat) : Rows n n (ofEpsilonFree (automaton n)).equations := by
  intro i
  rw [get?_ofEpsilonFree (mem_productive (Nat.zero_le n))]
  simp only [mem_useful]
  rcases Nat.lt_trichotomy i n with hi | rfl | hi
  · rw [if_pos hi.le, if_pos hi, equationOf_of_lt hi]
  · simp [equationOf_top]
  · rw [if_neg (by omega), if_neg (by omega), if_neg (by omega)]

theorem Rows.eliminate {equations : SortedMap Nat Equation} (h : Rows n (k + 1) equations)
    (hk : k < n) :
    Rows n k (eliminate equations (k + 1)) := by
  have htop : equations.get? (k + 1) = some (row (k + 1) (k + 1) (loop (n - (k + 1)))) := by
    simp [h (k + 1)]
  have hlonger : n - k = n - (k + 1) + 1 := by omega
  intro i
  rw [get?_eliminate htop, h i, hlonger]
  rcases Nat.lt_trichotomy i k with hi | rfl | hi
  -- Only the state next to the top has a term in it.
  · have hkeep (solution : Equation) : (row i (i + 1) (.literal "a")).substitute (k + 1) solution =
        row i (i + 1) (.literal "a") := by
      rw [Equation.substitute, get?_row (Nat.le_succ i) (by simp), if_neg (by omega),
        if_neg (by omega)]
    rw [if_neg (by omega), if_pos (by omega), if_pos hi, Option.map_some, hkeep]
  · rw [if_neg (by omega), if_pos (by omega), if_neg (by omega), if_pos rfl, Option.map_some,
      substitute_row]
  · by_cases htop : i = k + 1
    · rw [if_pos htop, if_neg (by omega), if_neg (by omega)]
    · rw [if_neg htop, if_neg (by omega), if_neg (by omega), if_neg (by omega), if_neg (by omega)]
      rfl

/-- The order of elimination is from the top down to the state above the bottom. -/
theorem Rows.foldl_eliminate {equations : SortedMap Nat Equation} (h : Rows n k equations)
    (hk : k ≤ n) :
    Rows n 0 (((List.range (k + 1)).reverse.filter (· != 0)).foldl EquationSystem.eliminate
      equations) := by
  induction k generalizing equations with
  | zero => exact h
  | succ k ih =>
    rw [List.range_succ, List.reverse_append, List.reverse_singleton, List.singleton_append,
      List.filter_cons_of_pos (by simp), List.foldl_cons]
    exact ih (h.eliminate hk) (by omega)

theorem keys_ofEpsilonFree (n : Nat) :
    (ofEpsilonFree (automaton n)).equations.keys = List.range (n + 1) := by
  have hrange : (List.range (n + 1)).Pairwise fun a b => compare a b = .lt :=
    List.pairwise_lt_range.imp Nat.compare_eq_lt.mpr
  refine SortedSet.eq_of_ascending (List.pairwise_map.mpr (SortedMap.ascending _))
    hrange fun i => ?_
  rw [mem_keys, rows_ofEpsilonFree n i, List.mem_range]
  grind

theorem solve_ofEpsilonFree (n : Nat) : (ofEpsilonFree (automaton n)).solve = .star (loop n) := by
  have hbottom := (rows_ofEpsilonFree n).foldl_eliminate (Nat.le_refl n) 0
  have hinitial : (ofEpsilonFree (automaton n)).initial = 0 := initial_ofEpsilonFree _
  rw [if_neg (Nat.lt_irrefl 0), if_pos rfl, Nat.sub_zero] at hbottom
  rw [solve, keys_ofEpsilonFree, hinitial, hbottom]
  dsimp only
  rw [Equation.isolate, get?_row (Nat.le_refl 0) (loop_ne_empty n), if_pos rfl]
  dsimp only
  rw [constant_row, iterate_loop]
  simp [Regex.product, Regex.factors, Regex.ofFactors]

/-! ## The text -/

theorem regex_ofAutomaton (n : Nat) :
    (Expression.ofAutomaton (automaton n)).regex = .star (loop n) := by
  rw [Expression.regex_ofAutomaton, epsilonFree_automaton, solve_ofEpsilonFree]

theorem nesting_star_loop (k : Nat) : nesting (Regex.star (loop k)).render = k + 1 := by
  induction k with
  | zero => decide
  | succ k ih =>
    have hup : Flat ['a'] := Flat.char (by decide)
    have hdown : Flat ['c'] := Flat.char (by decide)
    have hinner : Whole (Regex.star (loop k)).render := Regex.whole_render _
    have hloop : (loop (k + 1)).render = ['a'] ++ (Regex.star (loop k)).render ++ ['c'] := rfl
    have hstar :
        (Regex.star (loop (k + 1))).render = '(' :: (loop (k + 1)).render ++ [')'] ++ ['*'] := by
      rw [Regex.render]
      rfl
    rw [hstar, (Regex.whole_render _).grouped.nesting_append Flat.star.whole,
      (Regex.whole_render _).nesting_grouped, Flat.star.nested.nesting_eq, hloop,
      (hup.whole.append hinner).nesting_append hdown.whole, hup.whole.nesting_append hinner, ih,
      hup.nested.nesting_eq, hdown.nested.nesting_eq, Nat.zero_max, Nat.max_zero, Nat.max_zero]

/-- The text nests as deep as there are states. -/
theorem nesting_text (n : Nat) :
    nesting (Expression.ofAutomaton (automaton n)).regex.text.toList = (automaton n).size := by
  rw [regex_ofAutomaton, Regex.text, String.toList_ofList, nesting_star_loop, size_automaton]

/-- The text is read again as long as there are no more states than parentheses may nest. -/
theorem exists_parse_text_iff (n : Nat) :
    (∃ e, Expression.parse (Expression.ofAutomaton (automaton n)).regex.text = .ok e) ↔
      (automaton n).size ≤ Regex.nestLimit := by
  rw [Expression.exists_parse_text_ofAutomaton_iff (assembled_automaton n), nesting_text]

/-- A terminal state without edges. -/
def point : Parts Nat := ⟨0, [⟨0, "", true, ∅⟩], ∅⟩

/-- The text of a ladder of 201 states is not read again. And where the text is, an epsilon in the
input is read by the automaton that is made of it, though not by the one it was made from. -/
theorem not_parse_text_ladder :
    ((automaton 200).Assembled ∧ (automaton 200).size = 201 ∧
      ¬ ∃ e, Expression.parse (Expression.ofAutomaton (automaton 200)).regex.text = .ok e) ∧
    (point.automaton.Assembled ∧
      ∃ e, Expression.parse (Expression.ofAutomaton point.automaton).regex.text = .ok e ∧
        e.accepts [.epsilon] = true ∧ point.automaton.accepts [.epsilon] = false) := by
  refine ⟨⟨assembled_automaton 200, size_automaton 200, ?_⟩, ⟨point, rfl⟩, .ofRegex .epsilon, ?_,
    ?_, ?_⟩
  · rw [exists_parse_text_iff, size_automaton]
    decide
  · rw [show (Expression.ofAutomaton point.automaton).regex.text = "ε" by decide]
    decide
  · decide
  · decide

end Ladder

end Acceptors
