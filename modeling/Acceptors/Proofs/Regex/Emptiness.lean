import Acceptors.Proofs.Equations.Nesting
import Acceptors.Proofs.Regex.RoundTrip
import Acceptors.Proofs.Regex.Words

/-!
When an expression denotes nothing. A simplified tree has the empty language at its root or nowhere
(`Simplified.voidFree`), so its root tells whether it denotes a word
(`Simplified.language_eq_zero_iff`), and all trees that are read or solved for are simplified. Main
statement: `Expression.isEmptyLanguage_iff_accepts_eq_false`.
-/

namespace Acceptors

namespace Regex

variable {r : Regex}

/-- No part of a simplified tree denotes nothing, and so no node but the root can. -/
theorem Simplified.voidFree (h : r.Simplified) (hne : r ≠ .empty) : r.VoidFree := by
  induction h with
  | empty => exact absurd rfl hne
  | epsilon | literal => simp [VoidFree, subtrees]
  | concat _ _ hfactor ih =>
    refine voidFree_concat_iff.mpr fun r hr => ih r hr ?_
    rintro rfl
    exact hfactor _ hr
  | union hlen _ _ halt ih =>
    refine voidFree_union_iff.mpr ⟨List.ne_nil_of_length_pos (by omega), fun r hr => ih r hr ?_⟩
    rintro rfl
    exact halt _ hr
  | star _ hbody ih =>
    refine voidFree_star_iff.mpr (ih ?_)
    rintro rfl
    exact hbody

theorem VoidFree.language_ne_zero (h : r.VoidFree) : r.language ≠ 0 := by
  intro hzero
  have hmem := nthWord_mem_language 0 r h
  rw [hzero] at hmem
  exact Language.notMem_zero _ hmem

theorem Simplified.language_eq_zero_iff (h : r.Simplified) : r.language = 0 ↔ r = .empty := by
  constructor
  · exact fun hzero => by_contra fun hne => (h.voidFree hne).language_ne_zero hzero
  · rintro rfl
    exact language_empty

end Regex

namespace Expression

variable {e : Expression}

/-- The expression was read from a text, or is the solution of an automaton's equations. -/
inductive Obtained : Expression → Prop
  | parse {text : String} {e : Expression} : Expression.parse text = .ok e → Obtained e
  | ofAutomaton (A : FiniteAutomaton) : Obtained (Expression.ofAutomaton A)

theorem Obtained.simplified (h : e.Obtained) : e.regex.Simplified := by
  cases h with
  | parse h =>
    obtain ⟨r, hr, rfl⟩ := parse_ok_iff.mp h
    exact Regex.readable_simplified.derives (Regex.derives_of_read hr)
  | ofAutomaton A => exact simplified_ofAutomaton A

/-- An expression accepts no word, epsilon in words or not, if and only if its tree denotes none. -/
theorem forall_accepts_eq_false_iff : (∀ w, e.accepts w = false) ↔ e.regex.language = 0 := by
  constructor
  · intro h
    refine Set.eq_empty_of_forall_notMem fun w hw => ?_
    exact absurd (accepts_of_mem_language hw) (by simp [h w])
  · intro h
    rw [← wordsFrom_toAutomaton] at h
    exact Automaton.accepts_eq_false_of_wordsFrom e.wellFormed_toAutomaton h

/-- The root of an expression tells whether it accepts any word; and if it does, no node of its tree
is the empty language or a union without parts. -/
theorem isEmptyLanguage_iff_accepts_eq_false (h : e.Obtained) :
    (e.regex.isEmptyLanguage = true ↔ ∀ w, e.accepts w = false) ∧
      (e.regex.isEmptyLanguage = false → e.regex.VoidFree) := by
  have hsimplified := h.simplified
  constructor
  · rw [forall_accepts_eq_false_iff, hsimplified.language_eq_zero_iff, Regex.isEmptyLanguage_iff]
  · intro hfalse
    rw [← Bool.not_eq_true, Regex.isEmptyLanguage_iff] at hfalse
    exact hsimplified.voidFree hfalse

/-- Alternatives that all come to nothing, one that does beside one that does not, and a state that
leads nowhere. -/
theorem isEmptyLanguage_iff_accepts_eq_false_absorbed :
    (parse "a∅|b(∅|∅*∅)" = .ok (ofRegex .empty) ∧ ∀ w, (ofRegex .empty).accepts w = false) ∧
      (∃ e, parse "(a∅|b)*c" = .ok e ∧ e.regex.VoidFree) ∧
      (ofAutomaton looping.automaton).regex.VoidFree := by
  have hnothing : parse "a∅|b(∅|∅*∅)" = .ok (ofRegex .empty) := rfl
  have hsome : parse "(a∅|b)*c" = .ok (ofRegex (.concat [.star (.literal "b"), .literal "c"])) :=
    rfl
  have hlooping : (ofAutomaton looping.automaton).regex.isEmptyLanguage = false := by decide
  exact ⟨⟨hnothing, (isEmptyLanguage_iff_accepts_eq_false (.parse hnothing)).1.mp rfl⟩,
    ⟨_, hsome, (isEmptyLanguage_iff_accepts_eq_false (.parse hsome)).2 rfl⟩,
    (isEmptyLanguage_iff_accepts_eq_false (.ofAutomaton _)).2 hlooping⟩

end Expression

end Acceptors
