import Acceptors.Regex.Reader
import Acceptors.Proofs.Regex.Words

/-!
How the words of the family grow with their index. A word uses all parts of a concatenation but one
part of a union, the first with a literal (`Uses`), so a star makes the words grow if it is used and
its body has a literal (`length_nthWord_lt`), and without such a star they do not change at all
(`nthWord_succ_eq`). Main statement: `length_nthWord_lt_iff`.
-/

namespace Acceptors.Regex

variable {r s : Regex} {rs : List Regex}

/-! ## Literals -/

theorem hasLiteralParts_eq_any (rs : List Regex) : hasLiteralParts rs = rs.any hasLiteral := by
  induction rs with
  | nil => rfl
  | cons r rs ih => rw [hasLiteralParts, ih, List.any_cons]

mutual

theorem hasLiteral_iff : (r : Regex) → (r.hasLiteral = true ↔ ∃ name, literal name ∈ r.subtrees)
  | empty => by simp [hasLiteral, subtrees]
  | epsilon => by simp [hasLiteral, subtrees]
  | literal _ => by simp [hasLiteral, subtrees]
  | concat rs => by simpa [hasLiteral, subtrees] using hasLiteralParts_iff rs
  | union rs => by simpa [hasLiteral, subtrees] using hasLiteralParts_iff rs
  | star r => by simpa [hasLiteral, subtrees] using hasLiteral_iff r

theorem hasLiteralParts_iff :
    (rs : List Regex) → (hasLiteralParts rs = true ↔ ∃ name, literal name ∈ subtreesParts rs)
  | [] => by simp [hasLiteralParts, subtreesParts]
  | r :: rs => by
    simp only [hasLiteralParts, subtreesParts, Bool.or_eq_true, List.mem_append, exists_or,
      hasLiteral_iff r, hasLiteralParts_iff rs]

end

/-! ## Subtrees that are used -/

/-- The words of the tree use the subtree: it is below no part of a union but the first with a
literal. -/
inductive Uses : Regex → Regex → Prop
  | self (r : Regex) : Uses r r
  | concat {rs : List Regex} {r s : Regex} : r ∈ rs → Uses r s → Uses (concat rs) s
  | union {rs : List Regex} {r s : Regex} :
      rs.find? hasLiteral = some r → Uses r s → Uses (union rs) s
  | star {r s : Regex} : Uses r s → Uses (star r) s

theorem Uses.hasLiteral (h : r.Uses s) (hs : s.hasLiteral = true) : r.hasLiteral = true := by
  induction h with
  | self => exact hs
  | concat hr _ ih =>
    rw [Regex.hasLiteral, hasLiteralParts_eq_any]
    exact List.any_eq_true.mpr ⟨_, hr, ih hs⟩
  | union hr _ ih =>
    rw [Regex.hasLiteral, hasLiteralParts_eq_any]
    exact List.any_eq_true.mpr ⟨_, List.mem_of_find?_eq_some hr, ih hs⟩
  | star _ ih => exact ih hs

/-- Some star on a body with a literal is used. -/
def Grows (r : Regex) : Prop := ∃ s, r.Uses (star s) ∧ s.hasLiteral = true

theorem grows_concat_iff : (concat rs).Grows ↔ ∃ r ∈ rs, r.Grows := by
  constructor
  · rintro ⟨s, hs, hliteral⟩
    cases hs with
    | concat hr hs => exact ⟨_, hr, s, hs, hliteral⟩
  · rintro ⟨r, hr, s, hs, hliteral⟩
    exact ⟨s, .concat hr hs, hliteral⟩

theorem grows_union_iff : (union rs).Grows ↔ ∃ r, rs.find? hasLiteral = some r ∧ r.Grows := by
  constructor
  · rintro ⟨s, hs, hliteral⟩
    cases hs with
    | union hr hs => exact ⟨_, hr, s, hs, hliteral⟩
  · rintro ⟨r, hr, s, hs, hliteral⟩
    exact ⟨s, .union hr hs, hliteral⟩

/-- A star is used itself, whatever is below it. -/
theorem grows_star_iff : (star r).Grows ↔ r.hasLiteral = true := by
  constructor
  · rintro ⟨s, hs, hliteral⟩
    exact hs.hasLiteral hliteral
  · exact fun h => ⟨r, .self _, h⟩

/-! ## Words from one index to the next -/

theorem nthWord_union_of_find? (n : Nat) (h : rs.find? hasLiteral = some r) :
    nthWord n (union rs) = nthWord n r := by
  rw [nthWord, nthWordFirst_eq, h, Option.some_or, Option.elim_some]

theorem nthWord_union_eq_nil (n : Nat) (h : rs.find? hasLiteral = none) :
    nthWord n (union rs) = [] := by
  refine nthWord_eq_nil n _ ?_
  rw [hasLiteral, hasLiteralParts_eq_any, List.any_eq_false]
  exact List.find?_eq_none.mp h

theorem length_nthWord_star (n : Nat) (r : Regex) :
    (nthWord n (star r)).length = n * (nthWord n r).length := by
  simp [nthWord, List.length_flatten]

mutual

/-- A tree that does not grow has one word. -/
theorem nthWord_succ_eq (n : Nat) : (r : Regex) → ¬ r.Grows → nthWord (n + 1) r = nthWord n r
  | empty, _ => rfl
  | epsilon, _ => rfl
  | literal _, _ => rfl
  | concat rs, h => by
    rw [nthWord, nthWord]
    exact nthWordAll_succ_eq n rs fun r hr hgrows => h (grows_concat_iff.mpr ⟨r, hr, hgrows⟩)
  | union rs, h => by
    cases hfind : rs.find? hasLiteral with
    | none => rw [nthWord_union_eq_nil _ hfind, nthWord_union_eq_nil _ hfind]
    | some r =>
      have hr : r ∈ rs := List.mem_of_find?_eq_some hfind
      rw [nthWord_union_of_find? _ hfind, nthWord_union_of_find? _ hfind]
      exact nthWord_succ_eq n r fun hgrows => h (grows_union_iff.mpr ⟨r, hfind, hgrows⟩)
  | star r, h => by
    have hnone : (star r).hasLiteral = false := by
      rw [hasLiteral, ← Bool.not_eq_true]
      exact fun hliteral => h (grows_star_iff.mpr hliteral)
    rw [nthWord_eq_nil _ _ hnone, nthWord_eq_nil _ _ hnone]

theorem nthWordAll_succ_eq (n : Nat) :
    (rs : List Regex) → (∀ r ∈ rs, ¬ r.Grows) → nthWordAll (n + 1) rs = nthWordAll n rs
  | [], _ => rfl
  | r :: rs, h => by
    rw [nthWordAll, nthWordAll, nthWord_succ_eq n r (h r List.mem_cons_self),
      nthWordAll_succ_eq n rs fun s hs => h s (List.mem_cons_of_mem r hs)]

end

mutual

/-- From the index one on a literal in the tree puts a symbol into the word. -/
theorem length_nthWord_pos (n : Nat) : (r : Regex) → r.hasLiteral = true →
    0 < (nthWord (n + 1) r).length
  | literal _, _ => Nat.one_pos
  | concat rs, h => length_nthWordAll_pos n rs h
  | union rs, h => by
    cases hfind : rs.find? hasLiteral with
    | none =>
      rw [hasLiteral, hasLiteralParts_eq_any, List.any_eq_true] at h
      obtain ⟨r, hr, hliteral⟩ := h
      exact absurd hliteral (List.find?_eq_none.mp hfind r hr)
    | some r =>
      have hr : r ∈ rs := List.mem_of_find?_eq_some hfind
      rw [nthWord_union_of_find? _ hfind]
      exact length_nthWord_pos n r (List.find?_some hfind)
  | star r, h => by
    rw [length_nthWord_star]
    exact Nat.mul_pos (Nat.succ_pos n) (length_nthWord_pos n r h)

theorem length_nthWordAll_pos (n : Nat) :
    (rs : List Regex) → hasLiteralParts rs = true → 0 < (nthWordAll (n + 1) rs).length
  | r :: rs, h => by
    rw [hasLiteralParts, Bool.or_eq_true] at h
    rw [nthWordAll, List.length_append]
    rcases h with h | h
    · have := length_nthWord_pos n r h
      omega
    · have := length_nthWordAll_pos n rs h
      omega

end

mutual

theorem length_nthWord_le (n : Nat) : (r : Regex) →
    (nthWord n r).length ≤ (nthWord (n + 1) r).length
  | empty | epsilon | literal _ => Nat.le_refl _
  | concat rs => length_nthWordAll_le n rs
  | union rs => by
    cases hfind : rs.find? hasLiteral with
    | none => rw [nthWord_union_eq_nil _ hfind, nthWord_union_eq_nil _ hfind]
    | some r =>
      have hr : r ∈ rs := List.mem_of_find?_eq_some hfind
      rw [nthWord_union_of_find? _ hfind, nthWord_union_of_find? _ hfind]
      exact length_nthWord_le n r
  | star r => by
    rw [length_nthWord_star, length_nthWord_star]
    exact Nat.mul_le_mul (Nat.le_succ n) (length_nthWord_le n r)

theorem length_nthWordAll_le (n : Nat) :
    (rs : List Regex) → (nthWordAll n rs).length ≤ (nthWordAll (n + 1) rs).length
  | [] => Nat.le_refl _
  | r :: rs => by
    rw [nthWordAll, nthWordAll, List.length_append, List.length_append]
    exact Nat.add_le_add (length_nthWord_le n r) (length_nthWordAll_le n rs)

end

mutual

/-- A tree that grows has a longer word at each index. -/
theorem length_nthWord_lt (n : Nat) :
    (r : Regex) → r.Grows → (nthWord n r).length < (nthWord (n + 1) r).length
  | concat rs, h => length_nthWordAll_lt n rs (grows_concat_iff.mp h)
  | union rs, h => by
    obtain ⟨r, hfind, hgrows⟩ := grows_union_iff.mp h
    have hr : r ∈ rs := List.mem_of_find?_eq_some hfind
    rw [nthWord_union_of_find? _ hfind, nthWord_union_of_find? _ hfind]
    exact length_nthWord_lt n r hgrows
  | star r, h => by
    -- One repetition more, of a body that has not become shorter and is not empty.
    have hle := length_nthWord_le n r
    have hpos := length_nthWord_pos n r (grows_star_iff.mp h)
    calc (nthWord n (star r)).length = n * (nthWord n r).length := length_nthWord_star n r
      _ ≤ n * (nthWord (n + 1) r).length := Nat.mul_le_mul_left n hle
      _ < (n + 1) * (nthWord (n + 1) r).length :=
        Nat.mul_lt_mul_of_pos_right (Nat.lt_succ_self n) hpos
      _ = (nthWord (n + 1) (star r)).length := (length_nthWord_star (n + 1) r).symm

theorem length_nthWordAll_lt (n : Nat) :
    (rs : List Regex) → (∃ r ∈ rs, r.Grows) →
    (nthWordAll n rs).length < (nthWordAll (n + 1) rs).length
  | r :: rs, h => by
    rw [nthWordAll, nthWordAll, List.length_append, List.length_append]
    have hsome : r.Grows ∨ ∃ s ∈ rs, s.Grows := by simpa using h
    rcases hsome with hgrows | hgrows
    · exact Nat.add_lt_add_of_lt_of_le (length_nthWord_lt n r hgrows) (length_nthWordAll_le n rs)
    · exact Nat.add_lt_add_of_le_of_lt (length_nthWord_le n r) (length_nthWordAll_lt n rs hgrows)

end

/-- The words of a tree grow from each index to the next if and only if they use a star with a
literal in its body, a star that is below no part of a union but the first with a literal; else the
family is one word. -/
theorem length_nthWord_lt_iff (r : Regex) :
    ((∀ n, (nthWord n r).length < (nthWord (n + 1) r).length) ↔
        ∃ s name, r.Uses (star s) ∧ literal name ∈ s.subtrees) ∧
      ((∀ n, (nthWord n r).length < (nthWord (n + 1) r).length) ∨
        ∀ n, nthWord n r = nthWord 0 r) := by
  have hgrows : r.Grows ↔ ∃ s name, r.Uses (star s) ∧ literal name ∈ s.subtrees := by
    simp only [Grows, hasLiteral_iff, exists_and_left]
  have hsame : ¬ r.Grows → ∀ n, nthWord n r = nthWord 0 r := by
    intro hnot n
    induction n with
    | zero => rfl
    | succ n ih => rw [nthWord_succ_eq n r hnot, ih]
  rw [← hgrows]
  refine ⟨⟨fun h => ?_, fun h n => length_nthWord_lt n r h⟩, ?_⟩
  · by_contra hnot
    have hlt := h 0
    rw [hsame hnot 1] at hlt
    exact Nat.lt_irrefl _ hlt
  · exact (Classical.em r.Grows).imp (fun h n => length_nthWord_lt n r h) hsame

/-- A star on a literal beside another literal, which unions take. -/
def overshadowed : Regex := .union [.literal "a", .star (.literal "b")]

/-- The tree has no empty language, and in it a star with a literal in its body, but all its words
are the same. -/
theorem not_length_nthWord_lt_overshadowed :
    parse "a|b*" = .ok overshadowed ∧ empty ∉ overshadowed.subtrees ∧
      (∃ s name, star s ∈ overshadowed.subtrees ∧ literal name ∈ s.subtrees) ∧
      (∀ n, nthWord n overshadowed = [.literal "a"]) ∧
      ¬ ∀ n, (nthWord n overshadowed).length < (nthWord (n + 1) overshadowed).length := by
  have hsame : ∀ n, nthWord n overshadowed = [.literal "a"] := fun _ => rfl
  refine ⟨rfl, by decide, ⟨literal "b", "b", by decide, by decide⟩, hsame, fun h => ?_⟩
  have hlt := h 0
  rw [hsame, hsame] at hlt
  exact Nat.lt_irrefl _ hlt

end Acceptors.Regex
