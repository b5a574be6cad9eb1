import Acceptors.Proofs.Regex.Denotation
import Acceptors.Proofs.Tables

/-!
Trees in simplified form. The simplifying constructors keep it (`simplified_product`,
`simplified_sum`, `simplified_iterate`), leave a simplified tree alone, and put a part that they
built themselves back into its own parts (`product_splice`, `sum_splice`). Main statements:
`simplified_simplify`, `Simplified.simplify_eq` and `language_simplify`.
-/

namespace Acceptors.Regex

/-- May stand in a concatenation. -/
def IsFactor : Regex → Prop
  | empty => False
  | epsilon => False
  | concat _ => False
  | _ => True

/-- May stand in a union. -/
def IsAlternative : Regex → Prop
  | empty => False
  | union _ => False
  | _ => True

/-- May stand under a star. -/
def IsBody : Regex → Prop
  | empty => False
  | epsilon => False
  | star _ => False
  | _ => True

inductive Simplified : Regex → Prop
  | empty : Simplified .empty
  | epsilon : Simplified .epsilon
  | literal (name : String) : Simplified (.literal name)
  | concat {rs : List Regex} :
      2 ≤ rs.length → (∀ r ∈ rs, Simplified r) → (∀ r ∈ rs, r.IsFactor) → Simplified (.concat rs)
  | union {rs : List Regex} :
      2 ≤ rs.length → rs.Pairwise (fun r s => compare r s = .lt) → (∀ r ∈ rs, Simplified r) →
        (∀ r ∈ rs, r.IsAlternative) → Simplified (.union rs)
  | star {r : Regex} : Simplified r → r.IsBody → Simplified (.star r)

variable {r s : Regex} {rs xs ys : List Regex}

/-! ## Concatenation -/

theorem factors_of_isFactor (h : r.IsFactor) : r.factors = [r] := by
  cases r with
  | empty | epsilon | concat => exact h.elim
  | literal | union | star => rfl

theorem ofFactors_eq_concat (h : 2 ≤ rs.length) : ofFactors rs = concat rs := by
  match rs, h with
  | _ :: _ :: _, _ => rfl

theorem factors_ofFactors (h : ∀ r ∈ rs, r.IsFactor) : (ofFactors rs).factors = rs := by
  match rs with
  | [] => rfl
  | [r] => exact factors_of_isFactor (h r (by simp))
  | _ :: _ :: _ => rfl

theorem ofFactors_ne_empty (h : ∀ r ∈ rs, r.IsFactor) : ofFactors rs ≠ empty := by
  match rs with
  | [] => simp [ofFactors]
  | [r] =>
    rintro rfl
    exact h _ List.mem_cons_self
  | _ :: _ :: _ => simp [ofFactors]

theorem Simplified.of_mem_factors (h : r.Simplified) (hs : s ∈ r.factors) : s.Simplified := by
  cases h with
  | epsilon => cases hs
  | concat _ hrs _ => exact hrs s hs
  | empty => exact List.mem_singleton.mp hs ▸ .empty
  | literal name => exact List.mem_singleton.mp hs ▸ .literal name
  | union hlen hasc hrs halt => exact List.mem_singleton.mp hs ▸ .union hlen hasc hrs halt
  | star hr hbody => exact List.mem_singleton.mp hs ▸ .star hr hbody

theorem Simplified.isFactor_of_mem_factors (h : r.Simplified) (hne : r ≠ .empty)
    (hs : s ∈ r.factors) : s.IsFactor := by
  cases h with
  | epsilon => cases hs
  | concat _ _ hfactor => exact hfactor s hs
  | empty => exact absurd rfl hne
  | literal | union | star =>
    rw [List.mem_singleton.mp hs]
    trivial

theorem isFactor_of_mem_flatMap (h : ∀ r ∈ rs, r.Simplified) (he : .empty ∉ rs) :
    ∀ s ∈ rs.flatMap factors, s.IsFactor := by
  intro s hs
  obtain ⟨r, hr, hs⟩ := List.mem_flatMap.mp hs
  exact (h r hr).isFactor_of_mem_factors (fun heq => he (heq ▸ hr)) hs

theorem simplified_ofFactors (h : ∀ r ∈ rs, r.Simplified) (hf : ∀ r ∈ rs, r.IsFactor) :
    (ofFactors rs).Simplified := by
  match rs with
  | [] => exact .epsilon
  | [r] => exact h r (by simp)
  | _ :: _ :: _ => exact .concat (by simp) h hf

theorem simplified_product (h : ∀ r ∈ rs, r.Simplified) : (product rs).Simplified := by
  unfold product
  split
  · exact .empty
  · rename_i he
    refine simplified_ofFactors (fun s hs => ?_) (isFactor_of_mem_flatMap h he)
    obtain ⟨r, hr, hs⟩ := List.mem_flatMap.mp hs
    exact (h r hr).of_mem_factors hs

theorem product_eq_empty_iff (h : ∀ r ∈ rs, r.Simplified) : product rs = .empty ↔ .empty ∈ rs := by
  unfold product
  split
  · rename_i he
    simp [he]
  · rename_i he
    simp [he, ofFactors_ne_empty (isFactor_of_mem_flatMap h he)]

theorem factors_product (h : ∀ r ∈ rs, r.Simplified) (he : .empty ∉ rs) :
    (product rs).factors = rs.flatMap factors := by
  rw [product, if_neg he, factors_ofFactors (isFactor_of_mem_flatMap h he)]

theorem product_singleton (h : r.Simplified) : product [r] = r := by
  cases h with
  | empty | epsilon | literal | union | star => rfl
  | concat hlen _ _ => simp [product, factors, ofFactors_eq_concat hlen]

theorem product_congr (hempty : .empty ∈ xs ↔ .empty ∈ ys)
    (hfactors : xs.flatMap factors = ys.flatMap factors) : product xs = product ys := by
  rw [product, product, if_congr hempty rfl rfl, hfactors]

/-- A concatenation of parts in a concatenation makes no difference. -/
theorem product_splice (xs zs : List Regex) (h : ∀ r ∈ ys, r.Simplified) :
    product (xs ++ product ys :: zs) = product (xs ++ ys ++ zs) := by
  by_cases he : empty ∈ ys
  · simp [product, he]
  · have hmem : empty ∈ xs ++ product ys :: zs ↔ empty ∈ xs ++ ys ++ zs := by
      have hne : empty ≠ product ys := fun heq => he ((product_eq_empty_iff h).mp heq.symm)
      simp [he, hne]
    exact product_congr hmem (by simp [factors_product h he])

theorem product_pair_cons (zs : List Regex) (hr : r.Simplified) (hs : s.Simplified) :
    product (product [r, s] :: zs) = product (r :: s :: zs) :=
  product_splice [] zs (by simp [hr, hs])

/-! ## Union -/

theorem alternatives_of_isAlternative (h : r.IsAlternative) : r.alternatives = [r] := by
  cases r with
  | empty | union => exact h.elim
  | epsilon | literal | concat | star => rfl

theorem ofAlternatives_eq_union (h : 2 ≤ rs.length) : ofAlternatives rs = union rs := by
  match rs, h with
  | _ :: _ :: _, _ => rfl

theorem alternatives_ofAlternatives (h : ∀ r ∈ rs, r.IsAlternative) :
    (ofAlternatives rs).alternatives = rs := by
  match rs with
  | [] => rfl
  | [r] => exact alternatives_of_isAlternative (h r (by simp))
  | _ :: _ :: _ => rfl

theorem Simplified.of_mem_alternatives (h : r.Simplified) (hs : s ∈ r.alternatives) :
    s.Simplified := by
  cases h with
  | empty => cases hs
  | union _ _ hrs _ => exact hrs s hs
  | epsilon => exact List.mem_singleton.mp hs ▸ .epsilon
  | literal name => exact List.mem_singleton.mp hs ▸ .literal name
  | concat hlen hrs hfactor => exact List.mem_singleton.mp hs ▸ .concat hlen hrs hfactor
  | star hr hbody => exact List.mem_singleton.mp hs ▸ .star hr hbody

theorem Simplified.isAlternative_of_mem_alternatives (h : r.Simplified) (hs : s ∈ r.alternatives) :
    s.IsAlternative := by
  cases h with
  | empty => cases hs
  | union _ _ _ halt => exact halt s hs
  | epsilon | literal | concat | star =>
    rw [List.mem_singleton.mp hs]
    trivial

theorem isAlternative_of_mem_ofList (h : ∀ r ∈ rs, r.Simplified) :
    ∀ s ∈ (SortedSet.ofList (rs.flatMap alternatives)).toList, s.IsAlternative := by
  intro s hs
  obtain ⟨r, hr, hs⟩ := List.mem_flatMap.mp (SortedSet.mem_ofList.mp hs)
  exact (h r hr).isAlternative_of_mem_alternatives hs

theorem simplified_ofAlternatives (h : ∀ r ∈ rs, r.Simplified) (ha : ∀ r ∈ rs, r.IsAlternative)
    (hasc : rs.Pairwise fun r s => compare r s = .lt) : (ofAlternatives rs).Simplified := by
  match rs with
  | [] => exact .empty
  | [r] => exact h r (by simp)
  | _ :: _ :: _ => exact .union (by simp) hasc h ha

theorem simplified_sum (h : ∀ r ∈ rs, r.Simplified) : (sum rs).Simplified := by
  refine simplified_ofAlternatives (fun s hs => ?_) (isAlternative_of_mem_ofList h)
    (SortedSet.ascending _)
  obtain ⟨r, hr, hs⟩ := List.mem_flatMap.mp (SortedSet.mem_ofList.mp hs)
  exact (h r hr).of_mem_alternatives hs

theorem alternatives_sum (h : ∀ r ∈ rs, r.Simplified) :
    (sum rs).alternatives = (SortedSet.ofList (rs.flatMap alternatives)).toList :=
  alternatives_ofAlternatives (isAlternative_of_mem_ofList h)

theorem Simplified.ascending_alternatives (h : r.Simplified) :
    r.alternatives.Pairwise fun r s => compare r s = .lt := by
  cases h with
  | union _ hasc _ _ => exact hasc
  | empty => exact .nil
  | epsilon | literal | concat | star => exact List.pairwise_singleton _ _

theorem Simplified.ofAlternatives_alternatives (h : r.Simplified) :
    ofAlternatives r.alternatives = r := by
  cases h with
  | empty | epsilon | literal | concat | star => rfl
  | union hlen _ _ _ => exact ofAlternatives_eq_union hlen

theorem sum_singleton (h : r.Simplified) : sum [r] = r := by
  rw [sum, List.flatMap_singleton, SortedSet.toList_ofList h.ascending_alternatives,
    h.ofAlternatives_alternatives]

/-- A union depends on which alternatives its parts have, not on their order or number. -/
theorem sum_congr (h : ∀ s, s ∈ xs.flatMap alternatives ↔ s ∈ ys.flatMap alternatives) :
    sum xs = sum ys := by
  have hset : SortedSet.ofList (xs.flatMap alternatives) =
      SortedSet.ofList (ys.flatMap alternatives) := by
    apply SortedSet.ext
    intro s
    rw [SortedSet.mem_ofList, SortedSet.mem_ofList, h s]
  rw [sum, hset, sum]

/-- The sorted parts without repetitions ascend. -/
theorem ascending_dedup_sort (rs : List Regex) :
    (sort rs).dedup.Pairwise fun r s => compare r s = .lt := by
  have hsorted : (sort rs).Pairwise fun r s => (r.compare s).isLE = true :=
    List.pairwise_mergeSort (fun r s t => compare_isLE_trans r s t)
      (fun r s => by rw [compare_swap s r]; cases r.compare s <;> rfl) rs
  refine ((hsorted.sublist (List.dedup_sublist _)).and (List.nodup_dedup _)).imp
    fun {r s} ⟨hle, hne⟩ => ?_
  show r.compare s = .lt
  cases hcompare : r.compare s with
  | lt => rfl
  | eq => exact absurd (eq_of_compare r s hcompare) hne
  | gt =>
    rw [hcompare] at hle
    cases hle

/-- The parts of a union are sorted, and each is listed once. -/
theorem sum_eq_sort (rs : List Regex) :
    sum rs = ofAlternatives (sort (rs.flatMap alternatives)).dedup := by
  have hset : SortedSet.ofList (rs.flatMap alternatives) =
      SortedSet.ofList (sort (rs.flatMap alternatives)).dedup := by
    refine SortedSet.ext fun s => ?_
    rw [SortedSet.mem_ofList, SortedSet.mem_ofList, List.mem_dedup, sort, List.mem_mergeSort]
  rw [sum, hset, SortedSet.toList_ofList (ascending_dedup_sort _)]

/-- A union of parts in a union makes no difference. -/
theorem sum_splice (xs zs : List Regex) (h : ∀ r ∈ ys, r.Simplified) :
    sum (xs ++ sum ys :: zs) = sum (xs ++ ys ++ zs) :=
  sum_congr (by simp [alternatives_sum h, SortedSet.mem_toList])

theorem sum_pair_cons (zs : List Regex) (hr : r.Simplified) (hs : s.Simplified) :
    sum (sum [r, s] :: zs) = sum (r :: s :: zs) :=
  sum_splice [] zs (by simp [hr, hs])

/-! ## Closure -/

theorem simplified_iterate (h : r.Simplified) : (iterate r).Simplified := by
  cases h with
  | empty | epsilon => exact .epsilon
  | star hr hbody => exact .star hr hbody
  | literal name => exact .star (.literal name) trivial
  | concat hlen hrs hfactor => exact .star (.concat hlen hrs hfactor) trivial
  | union hlen hasc hrs halt => exact .star (.union hlen hasc hrs halt) trivial

/-- The class has the empty language, and the simplifying constructors do not lead out of it. -/
structure Closed (P : Regex → Prop) : Prop where
  empty : P .empty
  product {rs : List Regex} : (∀ r ∈ rs, P r) → P (Regex.product rs)
  sum {rs : List Regex} : (∀ r ∈ rs, P r) → P (Regex.sum rs)
  iterate {r : Regex} : P r → P (Regex.iterate r)

theorem closed_simplified : Closed Simplified :=
  ⟨.empty, simplified_product, simplified_sum, simplified_iterate⟩

/-! ## Rebuilt trees -/

mutual

theorem simplified_simplify : (r : Regex) → r.simplify.Simplified
  | empty => .empty
  | epsilon => .epsilon
  | literal name => .literal name
  | concat rs => simplified_product (simplified_simplifyParts rs)
  | union rs => simplified_sum (simplified_simplifyParts rs)
  | star r => by
    rw [simplify]
    exact simplified_iterate (simplified_simplify r)

theorem simplified_simplifyParts : (rs : List Regex) → ∀ r ∈ simplifyParts rs, r.Simplified
  | [] => by simp [simplifyParts]
  | r :: rs => by
    rw [simplifyParts]
    intro s hs
    rcases List.mem_cons.mp hs with rfl | hs
    · exact simplified_simplify r
    · exact simplified_simplifyParts rs s hs

end

theorem simplifyParts_eq (h : ∀ r ∈ rs, r.simplify = r) : simplifyParts rs = rs := by
  induction rs with
  | nil => rfl
  | cons r rs ih =>
    rw [simplifyParts, h r List.mem_cons_self, ih fun s hs => h s (List.mem_cons_of_mem r hs)]

theorem Simplified.product_eq (h : (Regex.concat rs).Simplified) : product rs = .concat rs := by
  cases h with
  | concat hlen _ hfactor =>
    have hempty : .empty ∉ rs := fun hmem => hfactor .empty hmem
    have hfactors : rs.flatMap factors = rs :=
      (List.flatMap_congr fun r hr => factors_of_isFactor (hfactor r hr)).trans
        (List.flatMap_singleton' rs)
    rw [product, if_neg hempty, hfactors, ofFactors_eq_concat hlen]

theorem Simplified.sum_eq (h : (Regex.union rs).Simplified) : sum rs = .union rs := by
  cases h with
  | union hlen hasc _ halt =>
    have halternatives : rs.flatMap alternatives = rs :=
      (List.flatMap_congr fun r hr => alternatives_of_isAlternative (halt r hr)).trans
        (List.flatMap_singleton' rs)
    rw [sum, halternatives, SortedSet.toList_ofList hasc, ofAlternatives_eq_union hlen]

/-- A simplified tree is built up again as it is. -/
theorem Simplified.simplify_eq (h : r.Simplified) : r.simplify = r := by
  induction h with
  | empty | epsilon | literal => rfl
  | concat hlen hrs hfactor ih =>
    rw [simplify, simplifyParts_eq ih, Simplified.product_eq (.concat hlen hrs hfactor)]
  | union hlen hasc hrs halt ih =>
    rw [simplify, simplifyParts_eq ih, Simplified.sum_eq (.union hlen hasc hrs halt)]
  | @star r hr hbody ih =>
    rw [simplify, ih]
    cases r with
    | empty | epsilon | star => exact hbody.elim
    | literal | concat | union => rfl

mutual

theorem language_simplify : (r : Regex) → r.simplify.language = r.language
  | empty => rfl
  | epsilon => rfl
  | literal _ => rfl
  | concat rs => by
    rw [simplify, language_product, language_simplifyParts rs, language_concat]
  | union rs => by
    rw [simplify, language_sum, language_simplifyParts rs, language_union]
  | star r => by
    rw [simplify, language_iterate, language_simplify r, language_star]

theorem language_simplifyParts :
    (rs : List Regex) → (simplifyParts rs).map language = rs.map language
  | [] => rfl
  | r :: rs => by
    rw [simplifyParts, List.map_cons, List.map_cons, language_simplify r, language_simplifyParts rs]

end

end Acceptors.Regex
