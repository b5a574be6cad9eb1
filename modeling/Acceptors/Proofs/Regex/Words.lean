import Acceptors.Proofs.Regex.Names

/-!
The family of words of a tree. A union contributes the word of one of its parts, of the first with a
literal or, if there is none, of the first (`nthWordFirst_eq`), so where every node denotes some
word all words of the family belong to the language (`nthWord_mem_language`). Main statement:
`Expression.accepts_nthWord`.
-/

namespace Acceptors

namespace Regex

open Computability

variable {r s : Regex} {rs : List Regex}

/-! ## Subtrees -/

mutual

/-- The tree and all trees below it, from left to right. -/
def subtrees : Regex → List Regex
  | empty => [empty]
  | epsilon => [epsilon]
  | literal name => [literal name]
  | concat rs => concat rs :: subtreesParts rs
  | union rs => union rs :: subtreesParts rs
  | star r => star r :: subtrees r

def subtreesParts : List Regex → List Regex
  | [] => []
  | r :: rs => subtrees r ++ subtreesParts rs

end

theorem subtreesParts_eq (rs : List Regex) : subtreesParts rs = rs.flatMap subtrees := by
  induction rs with
  | nil => rfl
  | cons r rs ih => rw [subtreesParts, ih, List.flatMap_cons]

/-- Nowhere in the tree is the empty language or a union without parts. -/
def VoidFree (r : Regex) : Prop := empty ∉ r.subtrees ∧ union [] ∉ r.subtrees

instance (r : Regex) : Decidable r.VoidFree := inferInstanceAs (Decidable (_ ∧ _))

theorem not_voidFree_empty : ¬ VoidFree empty := fun h => h.1 List.mem_cons_self

theorem voidFree_parts_iff :
    empty ∉ subtreesParts rs ∧ union [] ∉ subtreesParts rs ↔ ∀ r ∈ rs, r.VoidFree := by
  simp only [subtreesParts_eq, List.mem_flatMap, not_exists, not_and, ← forall_and, VoidFree]

theorem voidFree_concat_iff : (concat rs).VoidFree ↔ ∀ r ∈ rs, r.VoidFree := by
  rw [← voidFree_parts_iff]
  simp [VoidFree, subtrees]

theorem voidFree_union_iff : (union rs).VoidFree ↔ rs ≠ [] ∧ ∀ r ∈ rs, r.VoidFree := by
  have hself : union [] ∉ (union rs).subtrees ↔ rs ≠ [] ∧ union [] ∉ subtreesParts rs := by
    simp [subtrees, eq_comm]
  have hempty : empty ∉ (union rs).subtrees ↔ empty ∉ subtreesParts rs := by simp [subtrees]
  rw [← voidFree_parts_iff, VoidFree, hself, hempty, and_left_comm]

theorem voidFree_star_iff : (star r).VoidFree ↔ r.VoidFree := by
  simp [VoidFree, subtrees]

/-! ## Trees without literals -/

mutual

theorem nthWord_eq_nil (n : Nat) : (r : Regex) → r.hasLiteral = false → nthWord n r = []
  | empty, _ => rfl
  | epsilon, _ => rfl
  | literal _, h => by cases h
  | concat rs, h => nthWordAll_eq_nil n rs h
  | union rs, h => nthWordFirst_eq_nil n rs h
  | star r, h => by
    rw [nthWord, nthWord_eq_nil n r h, List.flatten_replicate_nil]

theorem nthWordAll_eq_nil (n : Nat) :
    (rs : List Regex) → hasLiteralParts rs = false → nthWordAll n rs = []
  | [], _ => rfl
  | r :: rs, h => by
    rw [hasLiteralParts, Bool.or_eq_false_iff] at h
    rw [nthWordAll, nthWord_eq_nil n r h.1, nthWordAll_eq_nil n rs h.2, List.append_nil]

theorem nthWordFirst_eq_nil (n : Nat) :
    (rs : List Regex) → hasLiteralParts rs = false → nthWordFirst n rs = []
  | [], _ => rfl
  | r :: rs, h => by
    rw [hasLiteralParts, Bool.or_eq_false_iff] at h
    rw [nthWordFirst, if_neg (by simp [h.1]), nthWordFirst_eq_nil n rs h.2]

end

/-! ## Words of the family -/

/-- A union takes its first part with a literal, or its first part where none has one. -/
theorem nthWordFirst_eq (n : Nat) (rs : List Regex) :
    nthWordFirst n rs = ((rs.find? hasLiteral).or rs.head?).elim [] (nthWord n) := by
  induction rs with
  | nil => rfl
  | cons r rs ih =>
    rw [nthWordFirst, List.find?_cons]
    cases hr : r.hasLiteral with
    | true => rfl
    | false =>
      rw [if_neg Bool.false_ne_true, ih]
      cases hfind : rs.find? hasLiteral with
      | some s => rfl
      | none =>
        -- No part has a literal, and then neither has the first of the rest.
        rw [Option.none_or, Option.none_or, List.head?_cons, Option.elim_some,
          nthWord_eq_nil n r hr]
        cases rs with
        | nil => rfl
        | cons s rs =>
          have hs := List.find?_eq_none.mp hfind s List.mem_cons_self
          exact nthWord_eq_nil n s (by simpa using hs)

theorem exists_nthWordFirst_eq (n : Nat) (h : rs ≠ []) :
    ∃ r ∈ rs, nthWordFirst n rs = nthWord n r := by
  rw [nthWordFirst_eq]
  cases hfind : rs.find? hasLiteral with
  | some r => exact ⟨r, List.mem_of_find?_eq_some hfind, rfl⟩
  | none => exact ⟨rs.head h, List.head_mem h, by rw [List.head?_eq_some_head h]; rfl⟩

mutual

theorem nthWord_mem_language (n : Nat) : (r : Regex) → r.VoidFree → nthWord n r ∈ r.language
  | empty, h => absurd h not_voidFree_empty
  | epsilon, _ => by
    rw [language_epsilon]
    exact rfl
  | literal _, _ => by
    rw [language_literal]
    exact rfl
  | concat rs, h => by
    rw [nthWord, language]
    exact nthWordAll_mem_languageProduct n rs (voidFree_concat_iff.mp h)
  | union rs, h => by
    obtain ⟨hne, hrs⟩ := voidFree_union_iff.mp h
    obtain ⟨r, hr, heq⟩ := exists_nthWordFirst_eq n hne
    rw [nthWord, heq, language_union, mem_sum_language]
    exact ⟨r, hr, nthWord_mem_language n r (hrs r hr)⟩
  | star r, h => by
    have hr := nthWord_mem_language n r (voidFree_star_iff.mp h)
    rw [nthWord, language_star]
    exact Language.join_mem_kstar fun w hw => List.eq_of_mem_replicate hw ▸ hr

theorem nthWordAll_mem_languageProduct (n : Nat) :
    (rs : List Regex) → (∀ r ∈ rs, r.VoidFree) → nthWordAll n rs ∈ languageProduct rs
  | [], _ => rfl
  | r :: rs, h => by
    rw [nthWordAll, languageProduct]
    exact Language.append_mem_mul (nthWord_mem_language n r (h r List.mem_cons_self))
      (nthWordAll_mem_languageProduct n rs fun s hs => h s (List.mem_cons_of_mem r hs))

end

end Regex

namespace Expression

/-- The words that the tree denotes are accepted. -/
theorem accepts_of_mem_language {e : Expression} {w : Word} (h : w ∈ e.regex.language) :
    e.accepts w = true := by
  rw [← wordsFrom_toAutomaton] at h
  exact Automaton.accepts_of_mem_wordsFrom e.wellFormed_toAutomaton h

/-- All words of the family of a tree are accepted, if the tree has no node that denotes nothing. -/
theorem accepts_nthWord {r : Regex} (h : r.VoidFree) (n : Nat) :
    (ofRegex r).accepts (r.nthWord n) = true :=
  accepts_of_mem_language (Regex.nthWord_mem_language n r h)

/-- A star on a union whose first parts have no literal, a union that has none at all, and a star in
a star. -/
def starred : Regex :=
  .concat [.star (.union [.epsilon, .concat [], .star (.literal "a")]),
    .union [.concat [], .star .epsilon],
    .literal "b"]

theorem accepts_nthWord_starred :
    starred.VoidFree ∧ starred.nthWord 2 = Word.ofText "aaaab" ∧
      (ofRegex starred).accepts (Word.ofText "aaaab") = true := by
  have hfree : starred.VoidFree := by decide
  have hword : starred.nthWord 2 = Word.ofText "aaaab" := by decide
  exact ⟨hfree, hword, hword ▸ accepts_nthWord hfree 2⟩

end Expression

end Acceptors
