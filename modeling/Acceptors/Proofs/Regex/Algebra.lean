import Acceptors.Proofs.Regex.Simplified

/-!
The algebra of the simplifying constructors. They denote product, union and closure, and keep the
simplified form (`language_simplified_constructors`). On simplified trees the laws of union and of
concatenation hold as equations of trees, not of languages alone (`simplified_laws`): a union
depends on its set of alternatives (`sum_congr_mem`) and a concatenation on its row of factors, and
what is spliced into either leaves these as they are.
-/

namespace Acceptors.Regex

open Computability

variable {r s t : Regex} {rs xs ys : List Regex}

/-! ## Simplified form -/

/-- The simplified trees are those that are built up again as they are. -/
theorem simplified_iff_simplify_eq : r.Simplified ↔ r.simplify = r :=
  ⟨Simplified.simplify_eq, fun h => h ▸ simplified_simplify r⟩

instance : DecidablePred Simplified := fun _ => decidable_of_iff _ simplified_iff_simplify_eq.symm

/-- The simplifying constructors denote the product, the union and the closure of their arguments'
languages, and lead from simplified trees to simplified trees. -/
theorem language_simplified_constructors (rs : List Regex) (r : Regex) :
    ((product rs).language = (rs.map language).prod ∧ (sum rs).language = (rs.map language).sum ∧
      (iterate r).language = r.language∗) ∧
    ((∀ s ∈ rs, s.Simplified) → (product rs).Simplified ∧ (sum rs).Simplified) ∧
    (r.Simplified → (iterate r).Simplified) :=
  ⟨⟨language_product rs, language_sum rs, language_iterate r⟩,
    fun h => ⟨simplified_product h, simplified_sum h⟩, simplified_iterate⟩

/-- A union, a concatenation, a unit, and a part of the union by itself. -/
def assorted : List Regex :=
  [.union [.literal "a", .literal "b"], .concat [.literal "b", .star (.literal "a")], .epsilon,
    .literal "a"]

theorem language_simplified_constructors_assorted :
    (∀ r ∈ assorted, r.Simplified) ∧
      Simplified (.concat [.union [.literal "a", .literal "b"], .literal "b", .star (.literal "a"),
        .literal "a"]) ∧
      Simplified (.union [.epsilon, .literal "a", .literal "b",
        .concat [.literal "b", .star (.literal "a")]]) ∧
      Simplified (iterate (.star (.literal "a"))) := by
  have hassorted : ∀ r ∈ assorted, r.Simplified := by decide
  obtain ⟨_, hrs, hr⟩ := language_simplified_constructors assorted (.star (.literal "a"))
  exact ⟨hassorted, (hrs hassorted).1, (hrs hassorted).2, hr (by decide)⟩

/-! ## Union -/

theorem sum_congr_mem (h : ∀ r, r ∈ xs ↔ r ∈ ys) : sum xs = sum ys :=
  sum_congr (by simp [List.mem_flatMap, h])

theorem sum_comm (r s : Regex) : sum [r, s] = sum [s, r] :=
  sum_congr_mem (by simp [or_comm])

theorem sum_self (h : r.Simplified) : sum [r, r] = r := by
  have honce : sum [r, r] = sum [r] := sum_congr_mem (by simp)
  rw [honce, sum_singleton h]

theorem sum_empty_cons (rs : List Regex) : sum (empty :: rs) = sum rs :=
  sum_congr fun _ => Iff.rfl

theorem empty_sum (h : r.Simplified) : sum [empty, r] = r := by
  rw [sum_empty_cons, sum_singleton h]

theorem sum_empty (h : r.Simplified) : sum [r, empty] = r := by
  rw [sum_comm, empty_sum h]

theorem sum_sum_right (r : Regex) (hs : s.Simplified) (ht : t.Simplified) :
    sum [r, sum [s, t]] = sum [r, s, t] :=
  sum_splice [r] [] (by simp [hs, ht])

/-! ## Concatenation -/

theorem product_of_empty_mem (h : empty ∈ rs) : product rs = empty := if_pos h

theorem epsilon_product (h : r.Simplified) : product [epsilon, r] = r := by
  have hdrop : product [epsilon, r] = product [r] := product_congr (by simp) (by simp [factors])
  rw [hdrop, product_singleton h]

theorem product_epsilon (h : r.Simplified) : product [r, epsilon] = r := by
  have hdrop : product [r, epsilon] = product [r] := product_congr (by simp) (by simp [factors])
  rw [hdrop, product_singleton h]

theorem product_product_right (r : Regex) (hs : s.Simplified) (ht : t.Simplified) :
    product [r, product [s, t]] = product [r, s, t] :=
  product_splice [r] [] (by simp [hs, ht])

/-! ## Closure -/

theorem iterate_iterate (r : Regex) : iterate (iterate r) = iterate r := by
  cases r <;> rfl

/-! ## Laws -/

/-- On simplified trees union is associative, commutative and idempotent with the empty language as
unit, concatenation is associative with epsilon as unit and the empty language as zero, and closure
is idempotent. -/
theorem simplified_laws (hr : r.Simplified) (hs : s.Simplified) (ht : t.Simplified) :
    (sum [r, sum [s, t]] = sum [r, s, t] ∧ sum [sum [r, s], t] = sum [r, s, t] ∧
      sum [r, s] = sum [s, r] ∧ sum [r, r] = r ∧ sum [r, empty] = r ∧ sum [empty, r] = r) ∧
    (product [r, product [s, t]] = product [r, s, t] ∧
      product [product [r, s], t] = product [r, s, t] ∧
      product [r, epsilon] = r ∧ product [epsilon, r] = r ∧
      product [r, empty] = empty ∧ product [empty, r] = empty) ∧
    iterate (iterate r) = iterate r := by
  refine ⟨⟨sum_sum_right r hs ht, sum_pair_cons [t] hr hs, sum_comm r s, sum_self hr, sum_empty hr,
    empty_sum hr⟩, ⟨product_product_right r hs ht, product_pair_cons [t] hr hs, product_epsilon hr,
    epsilon_product hr, ?_, ?_⟩, iterate_iterate r⟩
  · exact product_of_empty_mem (by simp)
  · exact product_of_empty_mem (by simp)

/-- Unions that have a part in common, a concatenation between them, and a star. -/
theorem simplified_laws_overlapping :
    let r : Regex := .union [.literal "a", .literal "b"]
    let s : Regex := .union [.epsilon, .literal "b"]
    let t : Regex := .concat [.literal "b", .star (.literal "a")]
    r.Simplified ∧ s.Simplified ∧ t.Simplified ∧
      sum [r, sum [s, t]] = .union [.epsilon, .literal "a", .literal "b", t] ∧
      sum [sum [r, s], t] = .union [.epsilon, .literal "a", .literal "b", t] ∧
      product [product [r, s], t] = .concat [r, s, .literal "b", .star (.literal "a")] := by
  intro r s t
  have hr : r.Simplified := by decide
  have hs : s.Simplified := by decide
  have ht : t.Simplified := by decide
  obtain ⟨⟨hright, hleft, _⟩, ⟨_, hproduct, _⟩, _⟩ := simplified_laws hr hs ht
  have hsum : sum [r, s, t] = .union [.epsilon, .literal "a", .literal "b", t] := by decide
  exact ⟨hr, hs, ht, hright.trans hsum, hleft.trans hsum, hproduct.trans rfl⟩

/-- Of a tree that is not simplified a union with itself makes another. -/
example : sum [.union [.literal "a"], .union [.literal "a"]] = .literal "a" := by decide

end Acceptors.Regex
