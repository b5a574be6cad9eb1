import Acceptors.Expression
import Acceptors.Proofs.Regex.Denotation
import Mathlib.Order.FixedPoints

/-!
The least solution of a system of equations. Main statements: `leastSolution_eliminate`, what
eliminating one variable does to the least solution, and `isLeast_solutions_solve`, the solver finds
the initial component of it.
-/

namespace Acceptors

open Computability

namespace Equation

/-- The right-hand side of an equation for given values of the variables. -/
def value (e : Equation) (X : Nat → WordSet Symbol) : WordSet Symbol :=
  (e.terms.entries.map fun term => term.2.language * X term.1).sum + e.constant.language

/-- The words before a variable, none if the variable does not occur. -/
def coefficient (e : Equation) (y : Nat) : WordSet Symbol :=
  match e.terms.get? y with
  | some r => r.language
  | none => 0

/-- The equation less the term of one variable. -/
def without (e : Equation) (x : Nat) : Equation := { e with terms := e.terms.erase x }

variable {e : Equation} {X Y : Nat → WordSet Symbol} {x y : Nat}

theorem value_le_iff {L : WordSet Symbol} :
    e.value X ≤ L ↔ (∀ y, e.coefficient y * X y ≤ L) ∧ e.constant.language ≤ L := by
  have hterms : (e.terms.entries.map fun term => term.2.language * X term.1).sum ≤ L ↔
      ∀ y, e.coefficient y * X y ≤ L := by
    rw [list_sum_le_iff, List.forall_mem_map]
    constructor
    · intro h y
      unfold coefficient
      split
      · rename_i r hr
        exact h (y, r) (SortedMap.mem_entries_iff.mpr hr)
      · rw [zero_mul]
        exact zero_le
    · rintro h ⟨y, r⟩ hterm
      have hy := h y
      rwa [coefficient, SortedMap.mem_entries_iff.mp hterm] at hy
  rw [value, add_le_iff, hterms]

theorem coefficient_mul_le_value (e : Equation) (X : Nat → WordSet Symbol) (y : Nat) :
    e.coefficient y * X y ≤ e.value X :=
  (value_le_iff.mp (le_refl _)).1 y

theorem constant_le_value (e : Equation) (X : Nat → WordSet Symbol) :
    e.constant.language ≤ e.value X :=
  (value_le_iff.mp (le_refl _)).2

theorem value_mono (e : Equation) (h : X ≤ Y) : e.value X ≤ e.value Y :=
  value_le_iff.mpr ⟨fun y => (mul_le_mul_right (h y) _).trans (e.coefficient_mul_le_value Y y),
    e.constant_le_value Y⟩

/-- Only the variables that occur count. -/
theorem value_congr (h : ∀ y, e.terms.get? y ≠ none → X y = Y y) : e.value X = e.value Y := by
  unfold value
  congr 2
  refine List.map_congr_left fun term hterm => ?_
  rw [h term.1 (by rw [SortedMap.mem_entries_iff.mp hterm]; exact Option.some_ne_none _)]

/-! ## Terms -/

theorem coefficient_without :
    (e.without x).coefficient y = if y = x then 0 else e.coefficient y := by
  unfold coefficient without
  rw [SortedMap.get?_erase]
  by_cases h : y = x <;> simp [h]

/-- An equation is the term of one variable and the rest. -/
theorem value_eq_add (e : Equation) (x : Nat) (X : Nat → WordSet Symbol) :
    e.value X = e.coefficient x * X x + (e.without x).value X := by
  refine eq_of_forall_ge_iff fun L => ?_
  simp only [add_le_iff, value_le_iff, coefficient_without]
  constructor
  · rintro ⟨hterms, hconst⟩
    refine ⟨hterms x, fun y => ?_, hconst⟩
    by_cases hy : y = x
    · simp [hy]
    · simpa [hy] using hterms y
  · rintro ⟨hx, hterms, hconst⟩
    refine ⟨fun y => ?_, hconst⟩
    by_cases hy : y = x
    · exact hy ▸ hx
    · simpa [hy] using hterms y

/-- What stands before a variable when a term of it has been added. -/
def merged (e : Equation) (x : Nat) (r : Regex) : Regex :=
  (e.terms.get? x).elim r fun old => Regex.sum [old, r]

theorem get?_addTerm (e : Equation) (x y : Nat) (r : Regex) :
    (e.addTerm x r).terms.get? y =
      if y = x then if (e.merged x r).isEmptyLanguage then none else some (e.merged x r)
      else e.terms.get? y := by
  have hterms : (e.addTerm x r).terms = if (e.merged x r).isEmptyLanguage then e.terms.erase x
      else (e.terms.erase x).insert x (e.merged x r) := by
    unfold addTerm merged
    cases e.terms.get? x <;> rfl
  rw [hterms]
  split
  · rw [SortedMap.get?_erase]
  · rw [SortedMap.get?_insert, SortedMap.get?_erase]
    by_cases hy : y = x <;> simp [hy]

theorem get?_addTerm_of_merged {r s : Regex} (hs : e.merged x r = s) (hne : s ≠ .empty) (y : Nat) :
    (e.addTerm x r).terms.get? y = if y = x then some s else e.terms.get? y := by
  have hempty : ¬ s.isEmptyLanguage = true := by rwa [Regex.isEmptyLanguage_iff]
  rw [get?_addTerm, hs, if_neg hempty]

theorem coefficient_addTerm (e : Equation) (x y : Nat) (r : Regex) :
    (e.addTerm x r).coefficient y = e.coefficient y + if y = x then r.language else 0 := by
  have hmerged : (e.merged x r).language = e.coefficient x + r.language := by
    unfold merged coefficient
    cases e.terms.get? x <;> simp [Regex.language_sum]
  rw [coefficient, get?_addTerm]
  by_cases hy : y = x
  · subst hy
    rw [if_pos rfl, if_pos rfl, ← hmerged]
    by_cases hempty : (e.merged y r).isEmptyLanguage = true
    · simp [hempty, Regex.language_of_isEmptyLanguage hempty]
    · simp [hempty]
  · simp [hy, coefficient]

theorem value_addTerm (e : Equation) (x : Nat) (r : Regex) (X : Nat → WordSet Symbol) :
    (e.addTerm x r).value X = e.value X + r.language * X x := by
  have hconst : (e.addTerm x r).constant = e.constant := rfl
  refine eq_of_forall_ge_iff fun L => ?_
  simp only [add_le_iff, value_le_iff, coefficient_addTerm, add_mul, hconst]
  constructor
  · rintro ⟨hterms, hc⟩
    exact ⟨⟨fun y => (hterms y).1, hc⟩, by simpa using (hterms x).2⟩
  · rintro ⟨⟨hterms, hc⟩, hr⟩
    refine ⟨fun y => ⟨hterms y, ?_⟩, hc⟩
    by_cases hy : y = x
    · simpa [hy] using hr
    · simp [hy]

theorem value_foldl_addTerm {α : Type} (var : α → Nat) (coeff : α → Regex) (xs : List α)
    (e : Equation) (X : Nat → WordSet Symbol) :
    (xs.foldl (fun e a => e.addTerm (var a) (coeff a)) e).value X =
      e.value X + (xs.map fun a => (coeff a).language * X (var a)).sum := by
  induction xs generalizing e with
  | nil => simp
  | cons a xs ih =>
    rw [List.foldl_cons, ih, value_addTerm, List.map_cons, List.sum_cons, add_assoc]

theorem value_of_constant_eq (e : Equation) {c : Regex} {L : WordSet Symbol}
    (h : c.language = e.constant.language + L) (X : Nat → WordSet Symbol) :
    ({ e with constant := c } : Equation).value X = e.value X + L := by
  unfold value
  rw [h, add_assoc]

theorem constant_foldl_addTerm {α : Type} (var : α → Nat) (coeff : α → Regex) (xs : List α)
    (e : Equation) :
    (xs.foldl (fun e a => e.addTerm (var a) (coeff a)) e).constant = e.constant := by
  induction xs generalizing e with
  | nil => rfl
  | cons a xs ih =>
    rw [List.foldl_cons, ih]
    rfl

/-! ## Isolation and substitution -/

theorem value_without_update (e : Equation) (x : Nat) (X : Nat → WordSet Symbol)
    (L : WordSet Symbol) : (e.without x).value (Function.update X x L) = (e.without x).value X := by
  refine value_congr fun y hy => Function.update_of_ne (fun h => hy ?_) _ _
  rw [without, SortedMap.get?_erase, if_pos h]

/-- The star of the coefficient stands before the rest of the equation. -/
theorem value_isolate (e : Equation) (x : Nat) (X : Nat → WordSet Symbol) :
    (e.isolate x).value X = (e.coefficient x)∗ * (e.without x).value X := by
  unfold isolate coefficient
  cases hx : e.terms.get? x with
  | none =>
    have hc : e.coefficient x = 0 := by rw [coefficient, hx]
    simp [value_eq_add e x X, hc]
  | some r =>
    simp only [value, without, SortedMap.map, List.map_map, Function.comp_def,
      Regex.language_product, Regex.language_iterate, List.map_cons, List.map_nil, List.prod_cons,
      List.prod_nil, mul_one, mul_add, mul_assoc, List.sum_map_mul_left]

/-- Substitution gives the variable the value of its solution. -/
theorem value_substitute (e : Equation) (x : Nat) (solution : Equation)
    (X : Nat → WordSet Symbol) :
    (e.substitute x solution).value X = e.value (Function.update X x (solution.value X)) := by
  unfold substitute
  split
  · rename_i hx
    refine value_congr fun y hy => (Function.update_of_ne (fun h => hy ?_) _ _).symm
    rw [h, hx]
  · rename_i r hx
    have hcoeff : e.coefficient x = r.language := by rw [coefficient, hx]
    have hconst : (Regex.sum [e.constant, Regex.product [r, solution.constant]]).language =
        e.constant.language + r.language * solution.constant.language := by
      simp [Regex.language_sum, Regex.language_product]
    rw [value_of_constant_eq (L := r.language * solution.constant.language),
      value_foldl_addTerm, value_eq_add e x, Function.update_self, value_without_update, hcoeff]
    · change (e.without x).value X + _ + _ = _
      simp only [value, mul_add, ← List.sum_map_mul_left, Regex.language_product, List.map_cons,
        List.map_nil, List.prod_cons, List.prod_nil, mul_one, mul_assoc]
      rw [add_assoc, add_comm]
    · rw [constant_foldl_addTerm]
      exact hconst

end Equation

namespace EquationSystem

/-! ## Solutions -/

/-- What the equations make of some values for the variables; no equation makes the empty set. -/
def evaluate (equations : SortedMap Nat Equation) (X : Nat → WordSet Symbol) (x : Nat) :
    WordSet Symbol :=
  match equations.get? x with
  | some e => e.value X
  | none => 0

/-- The values satisfy every equation. -/
def Solves (S : EquationSystem) (X : Nat → WordSet Symbol) : Prop :=
  ∀ x, X x = evaluate S.equations X x

variable {equations : SortedMap Nat Equation} {e : Equation} {X Y : Nat → WordSet Symbol}
    {x y : Nat}

theorem evaluate_some (h : equations.get? x = some e) : evaluate equations X x = e.value X := by
  rw [evaluate, h]

theorem evaluate_none (h : equations.get? x = none) : evaluate equations X x = 0 := by
  rw [evaluate, h]

theorem evaluate_mono (equations : SortedMap Nat Equation) : Monotone (evaluate equations) := by
  intro X Y h x
  unfold evaluate
  split
  · exact Equation.value_mono _ h
  · exact le_refl _

/-- The least values that satisfy the equations. -/
noncomputable def leastSolution (equations : SortedMap Nat Equation) : Nat → WordSet Symbol :=
  OrderHom.lfp ⟨evaluate equations, evaluate_mono equations⟩

theorem evaluate_leastSolution (equations : SortedMap Nat Equation) :
    evaluate equations (leastSolution equations) = leastSolution equations :=
  OrderHom.map_lfp ⟨evaluate equations, evaluate_mono equations⟩

theorem leastSolution_le (h : evaluate equations X ≤ X) : leastSolution equations ≤ X :=
  OrderHom.lfp_le ⟨evaluate equations, evaluate_mono equations⟩ h

theorem leastSolution_some (h : equations.get? x = some e) :
    leastSolution equations x = e.value (leastSolution equations) := by
  rw [← evaluate_some h, evaluate_leastSolution]

theorem leastSolution_none (h : equations.get? x = none) : leastSolution equations x = 0 := by
  rw [← evaluate_none h, evaluate_leastSolution]

theorem isLeast_leastSolution (S : EquationSystem) :
    IsLeast {X | S.Solves X} (leastSolution S.equations) := by
  constructor
  · exact fun x => (congrFun (evaluate_leastSolution S.equations) x).symm
  · intro X hX
    exact leastSolution_le (le_of_eq (funext fun x => (hX x).symm))

/-! ## Elimination -/

theorem get?_eliminate (h : equations.get? x = some e) (y : Nat) :
    (eliminate equations x).get? y =
      if y = x then none else (equations.get? y).map fun f => f.substitute x (e.isolate x) := by
  unfold eliminate
  rw [h]
  simp only [SortedMap.get?_map, SortedMap.get?_erase]
  by_cases hy : y = x <;> simp [hy]

/-- Whatever satisfies the equation of a variable is above the isolated right-hand side. -/
theorem value_isolate_le (h : e.value X ≤ X x) : (e.isolate x).value X ≤ X x := by
  rw [Equation.value_eq_add e x, add_le_iff] at h
  rw [Equation.value_isolate]
  exact kstar_mul_le h.2 h.1

/-- The isolated right-hand side satisfies the equation of its variable. -/
theorem value_update_isolate_le (e : Equation) (x : Nat) (X : Nat → WordSet Symbol) :
    e.value (Function.update X x ((e.isolate x).value X)) ≤ (e.isolate x).value X := by
  rw [Equation.value_eq_add e x, Function.update_self, Equation.value_without_update,
    Equation.value_isolate, ← mul_assoc]
  calc e.coefficient x * (e.coefficient x)∗ * (e.without x).value X + (e.without x).value X
      = (1 + e.coefficient x * (e.coefficient x)∗) * (e.without x).value X := by
        rw [add_mul, one_mul, add_comm]
    _ ≤ (e.coefficient x)∗ * (e.without x).value X := by rw [one_add_mul_kstar]

/-- After elimination a variable is evaluated as before, with the isolated right-hand side for the
one eliminated. -/
theorem evaluate_eliminate (h : equations.get? x = some e) (hy : y ≠ x) :
    evaluate (eliminate equations x) X y =
      evaluate equations (Function.update X x ((e.isolate x).value X)) y := by
  unfold evaluate
  rw [get?_eliminate h, if_neg hy]
  cases equations.get? y with
  | none => rfl
  | some f => exact Equation.value_substitute f x (e.isolate x) X

/-- Elimination of a variable keeps the least solution of the others, which the solved equation
extends. -/
theorem leastSolution_eliminate (h : equations.get? x = some e) :
    leastSolution equations =
      Function.update (leastSolution (eliminate equations x)) x
        ((e.isolate x).value (leastSolution (eliminate equations x))) := by
  have hx : (e.isolate x).value (leastSolution equations) ≤ leastSolution equations x :=
    value_isolate_le (leastSolution_some h).ge
  -- The old least solution, being above the isolated right-hand side, satisfies the new equations.
  have hbelow : leastSolution (eliminate equations x) ≤ leastSolution equations := by
    refine leastSolution_le fun y => ?_
    by_cases hy : y = x
    · rw [evaluate_none (by rw [get?_eliminate h, if_pos hy])]
      exact zero_le
    · rw [evaluate_eliminate h hy]
      have hle : Function.update (leastSolution equations) x
          ((e.isolate x).value (leastSolution equations)) ≤ leastSolution equations :=
        update_le_iff.mpr ⟨hx, fun _ _ => le_refl _⟩
      exact (evaluate_mono equations hle y).trans (congrFun (evaluate_leastSolution equations) y).le
  apply le_antisymm
  -- The new one, with the isolated right-hand side at `x`, satisfies the old equations.
  · refine leastSolution_le (le_update_iff.mpr ⟨?_, fun y hy => ?_⟩)
    · rw [evaluate_some h]
      exact value_update_isolate_le e x _
    · rw [← evaluate_eliminate h hy, evaluate_leastSolution]
  · exact update_le_iff.mpr
      ⟨(Equation.value_mono _ hbelow).trans hx, fun y _ => hbelow y⟩

theorem get?_eliminate_eq_none_iff :
    (eliminate equations x).get? y = none ↔ y = x ∨ equations.get? y = none := by
  cases h : equations.get? x with
  | none =>
    have heq : eliminate equations x = equations := by rw [eliminate, h]
    rw [heq]
    constructor
    · exact .inr
    · rintro (rfl | hy)
      · exact h
      · exact hy
  | some e =>
    rw [get?_eliminate h]
    by_cases hy : y = x <;> simp [hy]

theorem leastSolution_eliminate_of_ne (hy : y ≠ x) :
    leastSolution (eliminate equations x) y = leastSolution equations y := by
  cases h : equations.get? x with
  | none => rw [eliminate, h]
  | some e => rw [leastSolution_eliminate h, Function.update_of_ne hy]

theorem get?_foldl_eliminate_eq_none_iff (order : List Nat) :
    (order.foldl eliminate equations).get? y = none ↔ y ∈ order ∨ equations.get? y = none := by
  induction order generalizing equations with
  | nil => simp
  | cons x order ih =>
    rw [List.foldl_cons, ih, get?_eliminate_eq_none_iff, List.mem_cons]
    tauto

theorem leastSolution_foldl_eliminate {order : List Nat} (hy : y ∉ order) :
    leastSolution (order.foldl eliminate equations) y = leastSolution equations y := by
  induction order generalizing equations with
  | nil => rfl
  | cons x order ih =>
    obtain ⟨hx, hrest⟩ : y ≠ x ∧ y ∉ order := by simpa using hy
    rw [List.foldl_cons, ih hrest, leastSolution_eliminate_of_ne hx]

/-- Without equations for other variables the isolated constant is the least solution. -/
theorem leastSolution_of_alone (h : equations.get? x = some e)
    (hothers : ∀ y, y ≠ x → equations.get? y = none) :
    leastSolution equations x = (e.isolate x).constant.language := by
  have hzero : ∀ y, leastSolution (eliminate equations x) y = 0 := fun y =>
    leastSolution_none (get?_eliminate_eq_none_iff.mpr (or_iff_not_imp_left.mpr (hothers y)))
  rw [leastSolution_eliminate h, Function.update_self]
  apply le_antisymm
  · exact Equation.value_le_iff.mpr ⟨fun y => by simp [hzero y], le_refl _⟩
  · exact Equation.constant_le_value _ _

theorem mem_keys : y ∈ equations.keys ↔ equations.get? y ≠ none := by
  rw [SortedMap.keys, List.mem_map, Option.ne_none_iff_exists']
  constructor
  · rintro ⟨⟨y, f⟩, hf, rfl⟩
    exact ⟨f, SortedMap.mem_entries_iff.mp hf⟩
  · rintro ⟨f, hf⟩
    exact ⟨(y, f), SortedMap.mem_entries_iff.mpr hf, rfl⟩

theorem language_solve (S : EquationSystem) :
    S.solve.language = leastSolution S.equations S.initial := by
  have hinit : S.initial ∉ S.equations.keys.reverse.filter (· != S.initial) := by simp
  rw [← leastSolution_foldl_eliminate hinit]
  have hothers : ∀ y, y ≠ S.initial →
      ((S.equations.keys.reverse.filter (· != S.initial)).foldl eliminate S.equations).get? y =
        none := by
    intro y hy
    rw [get?_foldl_eliminate_eq_none_iff]
    simp only [List.mem_filter, List.mem_reverse, mem_keys, bne_iff_ne]
    tauto
  unfold solve
  dsimp only
  split
  · rename_i e he
    rw [leastSolution_of_alone he hothers]
  · rename_i hnone
    rw [leastSolution_none hnone, Regex.language_empty]

example : EquationSystem.solve ⟨0, SortedMap.ofList [
    (0, ⟨SortedMap.ofList [(0, .literal "a"), (1, .literal "b")], .empty⟩),
    (1, ⟨SortedMap.ofList [(0, .literal "c")], .epsilon⟩)]⟩ =
      .concat [.star (.union [.literal "a", .concat [.literal "b", .literal "c"]]),
        .literal "b"] := by
  decide

/-- Elimination finds the initial variable's component of the least solution of the equations. -/
theorem isLeast_solutions_solve (S : EquationSystem) :
    ∃ X, IsLeast {X | S.Solves X} X ∧ S.solve.language = X S.initial :=
  ⟨leastSolution S.equations, isLeast_leastSolution S, language_solve S⟩

end EquationSystem

end Acceptors
