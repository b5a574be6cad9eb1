import Acceptors.Regex.Build
import Acceptors.Proofs.Walk
import Mathlib.Algebra.BigOperators.Ring.List

/-!
The words that a tree denotes. Main statements: the simplifying constructors denote what they are
named for, `language_product`, `language_sum` and `language_iterate`.
-/

namespace Acceptors.Regex

open Computability

mutual

/-- The words denoted by a tree. -/
def language : Regex → WordSet Symbol
  | empty => 0
  | epsilon => 1
  | literal name => (Symbol.literal name).words
  | concat rs => languageProduct rs
  | union rs => languageSum rs
  | star r => (language r)∗

def languageProduct : List Regex → WordSet Symbol
  | [] => 1
  | r :: rs => language r * languageProduct rs

def languageSum : List Regex → WordSet Symbol
  | [] => 0
  | r :: rs => language r + languageSum rs

end

@[simp] theorem language_empty : language empty = 0 := by rw [language]

@[simp] theorem language_epsilon : language epsilon = 1 := by rw [language]

@[simp] theorem language_literal (name : String) :
    language (literal name) = (Symbol.literal name).words := by rw [language]

theorem languageProduct_eq (rs : List Regex) : languageProduct rs = (rs.map language).prod := by
  induction rs with
  | nil => rw [languageProduct, List.map_nil, List.prod_nil]
  | cons r rs ih => rw [languageProduct, List.map_cons, List.prod_cons, ih]

theorem languageSum_eq (rs : List Regex) : languageSum rs = (rs.map language).sum := by
  induction rs with
  | nil => rw [languageSum, List.map_nil, List.sum_nil]
  | cons r rs ih => rw [languageSum, List.map_cons, List.sum_cons, ih]

@[simp] theorem language_concat (rs : List Regex) :
    language (concat rs) = (rs.map language).prod := by
  rw [language, languageProduct_eq]

@[simp] theorem language_union (rs : List Regex) :
    language (union rs) = (rs.map language).sum := by
  rw [language, languageSum_eq]

@[simp] theorem language_star (r : Regex) : language (star r) = (language r)∗ := by rw [language]

/-! ## Concatenation -/

theorem prod_language_factors (r : Regex) : (r.factors.map language).prod = r.language := by
  cases r <;> simp [factors]

theorem language_ofFactors (rs : List Regex) :
    (ofFactors rs).language = (rs.map language).prod := by
  match rs with
  | [] => simp [ofFactors]
  | [r] => simp [ofFactors]
  | r :: s :: rs => exact language_concat (r :: s :: rs)

theorem prod_language_flatMap_factors (rs : List Regex) :
    ((rs.flatMap factors).map language).prod = (rs.map language).prod := by
  induction rs with
  | nil => rfl
  | cons r rs ih =>
    rw [List.flatMap_cons, List.map_append, List.prod_append, ih, prod_language_factors,
      List.map_cons, List.prod_cons]

theorem language_product (rs : List Regex) : (product rs).language = (rs.map language).prod := by
  unfold product
  split
  · rename_i h
    rw [language_empty, eq_comm]
    exact List.prod_eq_zero (List.mem_map.mpr ⟨empty, h, language_empty⟩)
  · rw [language_ofFactors, prod_language_flatMap_factors]

/-! ## Union -/

theorem mem_sum_language {rs : List Regex} {w : Word} :
    w ∈ (rs.map language).sum ↔ ∃ r ∈ rs, w ∈ r.language := by
  simp [mem_list_sum]

theorem mem_language_alternatives {r : Regex} {w : Word} :
    (∃ s ∈ r.alternatives, w ∈ s.language) ↔ w ∈ r.language := by
  cases r <;> simp [alternatives, mem_sum_language]

theorem language_ofAlternatives (rs : List Regex) :
    (ofAlternatives rs).language = (rs.map language).sum := by
  match rs with
  | [] => simp [ofAlternatives]
  | [r] => simp [ofAlternatives]
  | r :: s :: rs => exact language_union (r :: s :: rs)

theorem language_sum (rs : List Regex) : (sum rs).language = (rs.map language).sum := by
  ext w
  rw [sum, language_ofAlternatives, mem_sum_language, mem_sum_language]
  simp only [SortedSet.mem_toList, SortedSet.mem_ofList, List.mem_flatMap]
  constructor
  · rintro ⟨s, ⟨r, hr, hs⟩, hw⟩
    exact ⟨r, hr, mem_language_alternatives.mp ⟨s, hs, hw⟩⟩
  · rintro ⟨r, hr, hw⟩
    obtain ⟨s, hs, hw⟩ := mem_language_alternatives.mpr hw
    exact ⟨s, ⟨r, hr, hs⟩, hw⟩

/-! ## Closure -/

theorem language_iterate (r : Regex) : (iterate r).language = r.language∗ := by
  cases r with
  | empty => simp [iterate]
  | epsilon => simp [iterate]
  | star r => rw [iterate, language_star, kstar_idem]
  | literal name => exact language_star _
  | concat rs => exact language_star _
  | union rs => exact language_star _

theorem isEmptyLanguage_iff {r : Regex} : r.isEmptyLanguage = true ↔ r = empty := by
  rw [isEmptyLanguage, beq_iff_eq]

theorem language_of_isEmptyLanguage {r : Regex} (h : r.isEmptyLanguage = true) :
    r.language = 0 := by
  rw [isEmptyLanguage_iff.mp h, language_empty]

end Acceptors.Regex
