import Acceptors.Proofs.Meaning
import Acceptors.Proofs.Regex.Parentheses

/-!
How deep the text of an automaton's expression nests. Each elimination puts parentheses around what
was there at most once (`graded_nesting`), so the parentheses nest at most as deep as there are
states, and up to the limit of the reader the text is read again. Main statement:
`parse_text_ofAutomaton`.
-/

namespace Acceptors

open Regex.Grammar

namespace Regex

variable {k : Nat} {r : Regex}

theorem nesting_flatMap_le {α : Type} {f : α → List Char} (hf : ∀ a, Whole (f a)) {xs : List α}
    (h : ∀ a ∈ xs, nesting (f a) ≤ k) : nesting (xs.flatMap f) ≤ k := by
  induction xs with
  | nil => exact Nat.zero_le k
  | cons a xs ih =>
    have hrest : Whole (xs.flatMap f) := (Sparer.flatMap (fun a => Sparer.refl (hf a)) xs).left
    rw [List.flatMap_cons, (hf a).nesting_append hrest]
    exact max_le (h a List.mem_cons_self) (ih fun b hb => h b (List.mem_cons_of_mem a hb))

theorem nesting_alternative (r : Regex) : nesting ('|' :: r.render) = nesting r.render := by
  have happend := Flat.bar.whole.nesting_append (whole_render r)
  rwa [Flat.bar.nested.nesting_eq, Nat.zero_max] at happend

/-- How deep a tree nests, as a text of its own and as a factor. -/
theorem graded_nesting :
    Graded (fun k r => nesting r.render ≤ k) fun k r =>
      nesting (group (groupedInConcat r) r.render) ≤ k where
  empty := Flat.empty.nested.nesting_eq.le
  product {k rs} h := by
    refine (sparer_factor_product rs).nesting.trans ?_
    rw [renderFactors_eq_flatMap]
    exact nesting_flatMap_le whole_factor h
  sum {k rs} h := by
    refine (sparer_sum rs).nesting.trans ?_
    rw [renderAlternatives_eq_flatMap]
    exact nesting_flatMap_le whole_alternative fun r hr => (nesting_alternative r).trans_le (h r hr)
  iterate {k r} h := by
    have hfactor :=
      ((whole_render r).nesting_group_le (groupedInConcat r)).trans (Nat.succ_le_succ h)
    have hstar : nesting (star r).render ≤ k + 1 := by
      rw [render, ((whole_render r).group _).nesting_append Flat.star.whole,
        Flat.star.nested.nesting_eq, Nat.max_zero]
      exact ((whole_render r).nesting_group_le _).trans (Nat.succ_le_succ h)
    cases r with
    | empty | epsilon => exact (Flat.epsilon (.inl rfl)).nested.nesting_eq.trans_le (Nat.zero_le _)
    | star r => exact hfactor
    | literal | concat | union => exact hstar
  factor {k r} h := ((whole_render r).nesting_group_le _).trans (Nat.succ_le_succ h)
  of_factor {k r} h := (sparer_render_factor r).nesting.trans h

theorem nesting_literal (name : String) : nesting (literal name).render = 0 :=
  (flat_renderName name.toList).nested.nesting_eq

end Regex

namespace Expression

open EquationSystem

variable {A : FiniteAutomaton}

theorem regex_ofAutomaton (A : FiniteAutomaton) :
    (ofAutomaton A).regex = (ofEpsilonFree A.epsilonFree).solve := by
  rw [ofAutomaton, EquationSystem.ofAutomaton]

/-- The text nests no deeper than there are states. -/
theorem nesting_text_ofAutomaton_le (hA : A.WellFormed) :
    nesting (ofAutomaton A).regex.text.toList ≤ A.size := by
  have hsolve := Regex.graded_nesting.solve_ofEpsilonFree (k := 0) hA.epsilonFree
    (Flat.epsilon (.inl rfl)).nested.nesting_eq.le fun _ name _ _ => (Regex.nesting_literal name).le
  rw [Automaton.size_epsilonFree, Nat.zero_add, ← regex_ofAutomaton] at hsolve
  rwa [Regex.text, String.toList_ofList]

theorem simplified_ofAutomaton (A : FiniteAutomaton) : (ofAutomaton A).regex.Simplified := by
  rw [regex_ofAutomaton]
  exact Regex.closed_simplified.solve_ofEpsilonFree .epsilon fun _ name _ _ => .literal name

theorem names_ofAutomaton (hA : A.Assembled) : ∀ name ∈ (ofAutomaton A).regex.names, name ≠ "" := by
  rw [regex_ofAutomaton]
  refine (Regex.closed_names (· ≠ "")).solve_ofEpsilonFree
    (by simp [Regex.names]) fun p name q hs => ?_
  simpa [Regex.names] using hA.name_ne hs

/-- Up to the limit the tree is read from its text, and beyond it nothing is. -/
theorem parse_text_ofAutomaton_iff (hA : A.Assembled) {r : Regex} :
    Regex.parse (ofAutomaton A).regex.text = .ok r ↔
      nesting (ofAutomaton A).regex.text.toList ≤ Regex.nestLimit ∧ r = (ofAutomaton A).regex := by
  have hrender : ∃ d, Derives d (ofAutomaton A).regex.render (ofAutomaton A).regex := by
    have h := Regex.derives_render (names_ofAutomaton hA)
    rwa [(simplified_ofAutomaton A).simplify_eq] at h
  rw [Regex.parse, Regex.text, String.toList_ofList]
  constructor
  · intro h
    have hread := Regex.derives_of_read h
    have hnesting := (derives_iff_nesting_le.mp hread).1
    have hself := Regex.read_of_derives (derives_iff_nesting_le.mpr ⟨hnesting, hrender⟩)
    exact ⟨hnesting, Except.ok.inj (h.symm.trans hself)⟩
  · rintro ⟨hnesting, rfl⟩
    exact Regex.read_of_derives (derives_iff_nesting_le.mpr ⟨hnesting, hrender⟩)

theorem parse_ok_iff {text : String} {e : Expression} :
    parse text = .ok e ↔ ∃ r, Regex.parse text = .ok r ∧ ofRegex r = e := by
  unfold parse
  cases Regex.parse text <;> simp [Except.map]

theorem exists_parse_text_ofAutomaton_iff (hA : A.Assembled) :
    (∃ e, parse (ofAutomaton A).regex.text = .ok e) ↔
      nesting (ofAutomaton A).regex.text.toList ≤ Regex.nestLimit := by
  constructor
  · rintro ⟨e, he⟩
    obtain ⟨r, hr, _⟩ := parse_ok_iff.mp he
    exact ((parse_text_ofAutomaton_iff hA).mp hr).1
  · intro h
    have hread := (parse_text_ofAutomaton_iff hA).mpr ⟨h, rfl⟩
    exact ⟨ofRegex (ofAutomaton A).regex, parse_ok_iff.mpr ⟨_, hread, rfl⟩⟩

/-- The text of the expression is read again if and only if it does not nest deeper than the limit,
which it does not with as few states; and what is read is the tree of the expression, which accepts
the words of the automaton. -/
theorem parse_text_ofAutomaton (hA : A.Assembled) :
    hasNameless A = false ∧ nesting (ofAutomaton A).regex.text.toList ≤ A.size ∧
      ((∃ e, parse (ofAutomaton A).regex.text = .ok e) ↔
        nesting (ofAutomaton A).regex.text.toList ≤ Regex.nestLimit) ∧
      ∀ e, parse (ofAutomaton A).regex.text = .ok e →
        e.regex = (ofAutomaton A).regex ∧ ∀ w : Word, w.Plain → e.accepts w = A.accepts w := by
  refine ⟨hasNameless_of_assembled hA, nesting_text_ofAutomaton_le hA.wellFormed,
    exists_parse_text_ofAutomaton_iff hA, fun e he => ?_⟩
  obtain ⟨r, hr, rfl⟩ := parse_ok_iff.mp he
  have hregex : (ofRegex r).regex = (ofAutomaton A).regex :=
    ((parse_text_ofAutomaton_iff hA).mp hr).2
  refine ⟨hregex, fun w hw => accepts_eq_of_language hA.wellFormed ?_ hw⟩
  rw [hregex, language_ofAutomaton hA.wellFormed (literalEdges_epsilonFree hA)]

/-- Brackets around letters, one of which has a bracket in its name. -/
def bracketed : Parts Nat :=
  ⟨0, [⟨0, "", true, Table.ofEdges [(.literal "(", 1)]⟩,
    ⟨1, "", false, Table.ofEdges [(.literal "a", 1), (.literal "x>", 1), (.literal ")", 0)]⟩], ∅⟩

theorem parse_text_ofAutomaton_bracketed :
    bracketed.automaton.Assembled ∧ (ofAutomaton bracketed.automaton).regex.text =
      "(\\((a|<x\\>>)*\\))*" ∧
      ∃ e, parse "(\\((a|<x\\>>)*\\))*" = .ok e ∧
        e.accepts [.literal "(", .literal "x>", .literal "a", .literal ")"] = true := by
  have hA : bracketed.automaton.Assembled := ⟨bracketed, rfl⟩
  have htext : (ofAutomaton bracketed.automaton).regex.text = "(\\((a|<x\\>>)*\\))*" := by
    decide +kernel
  obtain ⟨_, hle, hiff, hread⟩ := parse_text_ofAutomaton hA
  obtain ⟨e, he⟩ := hiff.mpr (hle.trans (by decide))
  refine ⟨hA, htext, e, htext ▸ he, ?_⟩
  rw [(hread e he).2 _ (by decide)]
  decide

end Expression

end Acceptors
