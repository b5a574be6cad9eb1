import Acceptors.Proofs.Equations.Automaton
import Acceptors.Proofs.Regex.Simplified

/-!
The trees that solving a system builds. It puts trees together by the simplifying constructors
alone, so a class of trees closed under these that has the coefficients and constants has the
solution (`Regex.Closed.solve`). Of classes that are not closed each elimination may lead to the
next one (`Regex.Graded.eliminate`), and the solution is as many grades above the coefficients as
there are variables (`Regex.Graded.solve`). Main statements: `Regex.Closed.solve_ofEpsilonFree` and
`Regex.Graded.solve_ofEpsilonFree`, for the equations of an automaton.
-/

namespace Acceptors

/-- All trees of the equation are in the class. -/
structure Equation.All (P : Regex → Prop) (e : Equation) : Prop where
  terms : ∀ x r, e.terms.get? x = some r → P r
  constant : P e.constant

theorem Equation.All.imp {P Q : Regex → Prop} {e : Equation} (he : e.All P) (h : ∀ r, P r → Q r) :
    e.All Q :=
  ⟨fun x r hr => h r (he.terms x r hr), h _ he.constant⟩

/-- The variables are states. -/
theorem EquationSystem.lt_of_mem_keys {A : FiniteAutomaton} (hA : A.WellFormed) {q : Nat}
    (hq : q ∈ (ofEpsilonFree A).equations.keys) : q < A.size := by
  rw [mem_keys] at hq
  by_cases h : A.initial ∈ A.productive
  · rw [get?_ofEpsilonFree h, ite_ne_right_iff] at hq
    obtain ⟨_, w, hw⟩ := (Automaton.mem_useful hA).mp hq.1
    exact Automaton.lt_of_mem_wordsFrom hw
  · rw [get?_ofEpsilonFree_of_notMem h, ite_ne_right_iff] at hq
    exact hq.1 ▸ hA.initial_lt

/-- All variables but the initial one are eliminated, so there are fewer of these than states. -/
theorem EquationSystem.length_order_lt {A : FiniteAutomaton} (hA : A.WellFormed) :
    ((ofEpsilonFree A).equations.keys.reverse.filter (· != (ofEpsilonFree A).initial)).length <
      A.size := by
  rw [initial_ofEpsilonFree]
  have hnodup :
      (A.initial :: (ofEpsilonFree A).equations.keys.reverse.filter (· != A.initial)).Nodup :=
    List.nodup_cons.mpr ⟨by simp, (List.nodup_reverse.mpr (SortedMap.nodup_keys _)).filter _⟩
  have hsubset : A.initial :: (ofEpsilonFree A).equations.keys.reverse.filter (· != A.initial) ⊆
      List.range A.size := by
    intro q hq
    rw [List.mem_range]
    rcases List.mem_cons.mp hq with rfl | hq
    · exact hA.initial_lt
    · exact lt_of_mem_keys hA (List.mem_reverse.mp (List.mem_filter.mp hq).1)
  simpa [Nat.succ_le_iff] using (hnodup.subperm hsubset).length_le

namespace Regex

/-- The class of a grade, and the class of the trees that are of the grade as factors. -/
structure Graded (P F : Nat → Regex → Prop) : Prop where
  empty : P 0 .empty
  product {k : Nat} {rs : List Regex} : (∀ r ∈ rs, F k r) → F k (Regex.product rs)
  sum {k : Nat} {rs : List Regex} : (∀ r ∈ rs, P k r) → P k (Regex.sum rs)
  iterate {k : Nat} {r : Regex} : P k r → F (k + 1) (Regex.iterate r)
  factor {k : Nat} {r : Regex} : P k r → F (k + 1) r
  of_factor {k : Nat} {r : Regex} : F k r → P k r

namespace Graded

variable {P F : Nat → Regex → Prop} {k : Nat} {e : Equation} {x : Nat} {r : Regex}

theorem mono (hP : Graded P F) {n : Nat} (hkn : k ≤ n) (h : P k r) : P n r := by
  induction hkn with
  | refl => exact h
  | step _ ih => exact hP.of_factor (hP.factor ih)

theorem product_pair (hP : Graded P F) {s : Regex} (hr : F k r) (hs : F k s) :
    F k (Regex.product [r, s]) :=
  hP.product (by simp [hr, hs])

theorem sum_pair (hP : Graded P F) {s : Regex} (hr : P k r) (hs : P k s) : P k (Regex.sum [r, s]) :=
  hP.sum (by simp [hr, hs])

theorem addTerm (hP : Graded P F) (he : e.All (P k)) (hr : P k r) : (e.addTerm x r).All (P k) where
  constant := he.constant
  terms y t ht := by
    have hmerged : P k (e.merged x r) := by
      unfold Equation.merged
      cases hold : e.terms.get? x with
      | none => exact hr
      | some old => exact hP.sum_pair (he.terms x old hold) hr
    rw [Equation.get?_addTerm] at ht
    split at ht
    · split at ht
      · cases ht
      · cases ht
        exact hmerged
    · exact he.terms y t ht

theorem foldl_addTerm (hP : Graded P F) {α : Type} (var : α → Nat) (coeff : α → Regex) (xs : List α)
    (hxs : ∀ a ∈ xs, P k (coeff a)) (he : e.All (P k)) :
    (xs.foldl (fun e a => e.addTerm (var a) (coeff a)) e).All (P k) := by
  induction xs generalizing e with
  | nil => exact he
  | cons a xs ih =>
    refine ih (fun b hb => hxs b (List.mem_cons_of_mem a hb)) ?_
    exact hP.addTerm he (hxs a List.mem_cons_self)

/-- An isolated right-hand side is made of products, with the loop as a factor. -/
theorem isolate (hP : Graded P F) (he : e.All (P k)) : (e.isolate x).All (F (k + 1)) := by
  unfold Equation.isolate
  split
  · exact he.imp fun _ => hP.factor
  · rename_i r hr
    have hloop := hP.iterate (he.terms x r hr)
    refine ⟨fun y t ht => ?_, hP.product_pair hloop (hP.factor he.constant)⟩
    rw [SortedMap.get?_map, SortedMap.get?_erase] at ht
    split at ht
    · cases ht
    · obtain ⟨s, hs, rfl⟩ := Option.map_eq_some_iff.mp ht
      exact hP.product_pair hloop (hP.factor (he.terms y s hs))

theorem substitute (hP : Graded P F) {solution : Equation} (he : e.All (P k))
    (hsolution : solution.All (F (k + 1))) : (e.substitute x solution).All (P (k + 1)) := by
  have hnext : e.All (P (k + 1)) := he.imp fun _ => hP.mono (Nat.le_succ k)
  unfold Equation.substitute
  split
  · exact hnext
  · rename_i r hr
    have hcoefficient := hP.factor (he.terms x r hr)
    have hrest : ({ e with terms := e.terms.erase x } : Equation).All (P (k + 1)) := by
      refine ⟨fun y t ht => ?_, hnext.constant⟩
      rw [SortedMap.get?_erase] at ht
      split at ht
      · cases ht
      · exact hnext.terms y t ht
    have hmerged := hP.foldl_addTerm (fun term : Nat × Regex => term.1)
      (fun term => Regex.product [r, term.2]) solution.terms.entries
      (fun term hterm => hP.of_factor (hP.product_pair hcoefficient
        (hsolution.terms term.1 term.2 (SortedMap.mem_entries_iff.mp hterm)))) hrest
    have hconstant := hP.of_factor (hP.product_pair hcoefficient hsolution.constant)
    exact ⟨hmerged.terms, hP.sum_pair hnext.constant hconstant⟩

/-- Elimination leads to the next grade. -/
theorem eliminate (hP : Graded P F) {equations : SortedMap Nat Equation}
    (h : ∀ y e, equations.get? y = some e → e.All (P k)) (x y : Nat) (e : Equation)
    (he : (EquationSystem.eliminate equations x).get? y = some e) : e.All (P (k + 1)) := by
  cases hx : equations.get? x with
  | none =>
    rw [EquationSystem.eliminate, hx] at he
    exact (h y e he).imp fun _ => hP.mono (Nat.le_succ k)
  | some f =>
    rw [EquationSystem.get?_eliminate hx] at he
    split at he
    · cases he
    · obtain ⟨g, hg, rfl⟩ := Option.map_eq_some_iff.mp he
      exact hP.substitute (h y g hg) (hP.isolate (h x f hx))

theorem foldl_eliminate (hP : Graded P F) {equations : SortedMap Nat Equation}
    (h : ∀ y e, equations.get? y = some e → e.All (P k)) (order : List Nat) (y : Nat) (e : Equation)
    (he : (order.foldl EquationSystem.eliminate equations).get? y = some e) :
    e.All (P (k + order.length)) := by
  induction order generalizing k equations with
  | nil => exact h y e he
  | cons x order ih =>
    have hrest := ih (hP.eliminate h x) he
    rwa [Nat.add_right_comm] at hrest

/-- The solution is one grade up for each variable. -/
theorem solve (hP : Graded P F) {S : EquationSystem}
    (h : ∀ y e, S.equations.get? y = some e → e.All (P k)) :
    P (k + ((S.equations.keys.reverse.filter (· != S.initial)).length + 1)) S.solve := by
  unfold EquationSystem.solve
  dsimp only
  split
  · rename_i e he
    exact hP.of_factor (hP.isolate (hP.foldl_eliminate h _ _ e he)).constant
  · exact hP.mono (Nat.zero_le _) hP.empty

/-- The equations of an automaton have the literals of its edges. -/
theorem all_ofEpsilonFree (hP : Graded P F) {A : FiniteAutomaton} (hepsilon : P k .epsilon)
    (hliteral : ∀ p name q, A.Step p (.literal name) q → P k (.literal name)) (q : Nat)
    (e : Equation)
    (he : (EquationSystem.ofEpsilonFree A).equations.get? q = some e) : e.All (P k) := by
  have hempty : P k .empty := hP.mono (Nat.zero_le k) hP.empty
  by_cases h : A.initial ∈ A.productive
  · rw [EquationSystem.get?_ofEpsilonFree h] at he
    split at he
    · cases he
      refine hP.foldl_addTerm (fun edge : String × Nat => edge.2) (fun edge => .literal edge.1) _
        (fun edge hedge => ?_) ⟨fun _ _ h => ?_, ?_⟩
      · exact hliteral q edge.1 edge.2 (EquationSystem.mem_literalEdges.mp hedge).1
      · simp at h
      · show P k (if A.isTerminal q then .epsilon else .empty)
        split
        · exact hepsilon
        · exact hempty
    · cases he
  · rw [EquationSystem.get?_ofEpsilonFree_of_notMem h] at he
    split at he
    · cases he
      exact ⟨fun _ _ h => by simp at h, hempty⟩
    · cases he

/-- The solution is at most as many grades up as there are states. -/
theorem solve_ofEpsilonFree (hP : Graded P F) {A : FiniteAutomaton} (hA : A.WellFormed)
    (hepsilon : P k .epsilon)
    (hliteral : ∀ p name q, A.Step p (.literal name) q → P k (.literal name)) :
    P (k + A.size) (EquationSystem.ofEpsilonFree A).solve :=
  hP.mono (Nat.add_le_add_left (EquationSystem.length_order_lt hA) k)
    (hP.solve (hP.all_ofEpsilonFree hepsilon hliteral))

end Graded

namespace Closed

variable {P : Regex → Prop}

/-- A closed class is one and the same at all grades. -/
theorem graded (hP : Closed P) : Graded (fun _ => P) fun _ => P where
  empty := hP.empty
  product := hP.product
  sum := hP.sum
  iterate := hP.iterate
  factor h := h
  of_factor h := h

/-- The solution of a system of trees in the class is in the class. -/
theorem solve (hP : Closed P) {S : EquationSystem}
    (h : ∀ y e, S.equations.get? y = some e → e.All P) : P S.solve :=
  hP.graded.solve (k := 0) h

theorem all_ofEpsilonFree (hP : Closed P) {A : FiniteAutomaton} (hepsilon : P .epsilon)
    (hliteral : ∀ p name q, A.Step p (.literal name) q → P (.literal name)) (q : Nat) (e : Equation)
    (he : (EquationSystem.ofEpsilonFree A).equations.get? q = some e) : e.All P :=
  hP.graded.all_ofEpsilonFree (k := 0) hepsilon hliteral q e he

/-- The equations of an automaton have the literals of its edges, and the solution has what is built
of these. -/
theorem solve_ofEpsilonFree (hP : Closed P) {A : FiniteAutomaton} (hepsilon : P .epsilon)
    (hliteral : ∀ p name q, A.Step p (.literal name) q → P (.literal name)) :
    P (EquationSystem.ofEpsilonFree A).solve :=
  hP.solve (hP.all_ofEpsilonFree hepsilon hliteral)

end Closed

end Regex

end Acceptors
