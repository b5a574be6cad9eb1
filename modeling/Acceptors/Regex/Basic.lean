import Acceptors.Symbol

/-!
Regular expressions as trees, with any number of parts in a concatenation or a union. Trees are
totally ordered: by kind of node, then by name, by parts from left to right with a proper beginning
first, or by body. Main statements: the instances of `TransOrd` and `LawfulEqOrd`.
-/

namespace Acceptors

open Std

inductive Regex where
  | empty
  | epsilon
  | literal (name : String)
  | concat (parts : List Regex)
  | union (parts : List Regex)
  | star (body : Regex)
  deriving Repr, Inhabited

namespace Regex

/-- The place of a kind of node in the order of trees. -/
def rank : Regex → Nat
  | empty => 0
  | epsilon => 1
  | literal _ => 2
  | concat _ => 3
  | union _ => 4
  | star _ => 5

mutual

protected def compare : Regex → Regex → Ordering
  | literal a, literal b => Ord.compare a b
  | concat rs, concat ss => compareParts rs ss
  | union rs, union ss => compareParts rs ss
  | star r, star s => Regex.compare r s
  | r, s => Ord.compare r.rank s.rank

def compareParts : List Regex → List Regex → Ordering
  | [], [] => .eq
  | [], _ :: _ => .lt
  | _ :: _, [] => .gt
  | r :: rs, s :: ss => (Regex.compare r s).then (compareParts rs ss)

end

instance : Ord Regex := ⟨Regex.compare⟩

theorem compare_of_rank_ne {r s : Regex} (h : r.rank ≠ s.rank) :
    r.compare s = Ord.compare r.rank s.rank := by
  cases r <;> cases s <;> simp_all [rank, Regex.compare]

mutual

theorem compare_self : (r : Regex) → r.compare r = .eq
  | empty => rfl
  | epsilon => rfl
  | literal _ => ReflOrd.compare_self (α := String)
  | concat rs => compareParts_self rs
  | union rs => compareParts_self rs
  | star r => by
    simp only [Regex.compare]
    exact compare_self r

theorem compareParts_self : (rs : List Regex) → compareParts rs rs = .eq
  | [] => rfl
  | r :: rs => by
    rw [compareParts, compare_self r, compareParts_self rs]
    rfl

end

mutual

theorem eq_of_compare : (r s : Regex) → r.compare s = .eq → r = s
  | literal _, s, h => by
    cases s with
    | literal _ => exact congrArg literal (LawfulEqOrd.eq_of_compare (α := String) h)
    | _ => cases h
  | concat rs, s, h => by
    cases s with
    | concat ss => exact congrArg concat (eq_of_compareParts rs ss h)
    | _ => cases h
  | union rs, s, h => by
    cases s with
    | union ss => exact congrArg union (eq_of_compareParts rs ss h)
    | _ => cases h
  | star r, s, h => by
    cases s with
    | star s => exact congrArg star (eq_of_compare r s (by simpa only [Regex.compare] using h))
    | _ => cases h
  | empty, s, h => by
    cases s with
    | empty => rfl
    | _ => cases h
  | epsilon, s, h => by
    cases s with
    | epsilon => rfl
    | _ => cases h

theorem eq_of_compareParts : (rs ss : List Regex) → compareParts rs ss = .eq → rs = ss
  | [], [], _ => rfl
  | [], _ :: _, h => by cases h
  | _ :: _, [], h => by cases h
  | r :: rs, s :: ss, h => by
    rw [compareParts, Ordering.then_eq_eq] at h
    rw [eq_of_compare r s h.1, eq_of_compareParts rs ss h.2]

end

mutual

theorem compare_swap : (r s : Regex) → r.compare s = (s.compare r).swap
  | literal _, s => by
    cases s with
    | literal _ => exact OrientedOrd.eq_swap (α := String)
    | _ => rfl
  | concat rs, s => by
    cases s with
    | concat ss => exact compareParts_swap rs ss
    | _ => rfl
  | union rs, s => by
    cases s with
    | union ss => exact compareParts_swap rs ss
    | _ => rfl
  | star r, s => by
    cases s with
    | star s =>
      simp only [Regex.compare]
      exact compare_swap r s
    | _ => rfl
  | empty, s => by cases s <;> rfl
  | epsilon, s => by cases s <;> rfl

theorem compareParts_swap :
    (rs ss : List Regex) → compareParts rs ss = (compareParts ss rs).swap
  | [], [] => rfl
  | [], _ :: _ => rfl
  | _ :: _, [] => rfl
  | r :: rs, s :: ss => by
    rw [compareParts, compareParts, compare_swap r s, compareParts_swap rs ss, Ordering.swap_then]

end

/-- Where one of three trees differs in kind, the order of the kinds decides. -/
theorem isLE_trans_of_rank {r s t : Regex} (h : ¬ (r.rank = s.rank ∧ s.rank = t.rank))
    (hrs : (r.compare s).isLE) (hst : (s.compare t).isLE) : (r.compare t).isLE := by
  have rank_le {x y : Regex} (hxy : (x.compare y).isLE) : x.rank ≤ y.rank := by
    by_cases hr : x.rank = y.rank
    · omega
    · rw [compare_of_rank_ne hr] at hxy
      exact Nat.isLE_compare.1 hxy
  have hrs := rank_le hrs
  have hst := rank_le hst
  rw [compare_of_rank_ne (by omega)]
  exact Nat.isLE_compare.2 (by omega)

mutual

theorem compare_isLE_trans : (r s t : Regex) →
    (r.compare s).isLE → (s.compare t).isLE → (r.compare t).isLE
  | literal _, s, t, hrs, hst => by
    cases s with
    | literal _ =>
      cases t with
      | literal _ => exact TransOrd.isLE_trans (α := String) hrs hst
      | _ => exact isLE_trans_of_rank (by simp [rank]) hrs hst
    | _ => exact isLE_trans_of_rank (by simp [rank]) hrs hst
  | concat rs, s, t, hrs, hst => by
    cases s with
    | concat ss =>
      cases t with
      | concat ts => exact compareParts_isLE_trans rs ss ts hrs hst
      | _ => exact isLE_trans_of_rank (by simp [rank]) hrs hst
    | _ => exact isLE_trans_of_rank (by simp [rank]) hrs hst
  | union rs, s, t, hrs, hst => by
    cases s with
    | union ss =>
      cases t with
      | union ts => exact compareParts_isLE_trans rs ss ts hrs hst
      | _ => exact isLE_trans_of_rank (by simp [rank]) hrs hst
    | _ => exact isLE_trans_of_rank (by simp [rank]) hrs hst
  | star r, s, t, hrs, hst => by
    cases s with
    | star s =>
      cases t with
      | star t =>
        simp only [Regex.compare] at hrs hst ⊢
        exact compare_isLE_trans r s t hrs hst
      | _ => exact isLE_trans_of_rank (by simp [rank]) hrs hst
    | _ => exact isLE_trans_of_rank (by simp [rank]) hrs hst
  | empty, _, t, _, _ => by cases t <;> rfl
  | epsilon, s, t, hrs, hst => by
    cases s with
    | epsilon => exact hst
    | _ => exact isLE_trans_of_rank (by simp [rank]) hrs hst

theorem compareParts_isLE_trans : (rs ss ts : List Regex) →
    (compareParts rs ss).isLE → (compareParts ss ts).isLE → (compareParts rs ts).isLE
  | [], _, [], _, _ => rfl
  | [], _, _ :: _, _, _ => rfl
  | _ :: _, [], _, h, _ => by cases h
  | _ :: _, _ :: _, [], _, h => by cases h
  | r :: rs, s :: ss, t :: ts, hrs, hst => by
    rw [compareParts, Ordering.isLE_then_iff_or] at hrs hst ⊢
    have htrans := compare_isLE_trans r s t
    have hparts := compareParts_isLE_trans rs ss ts
    rcases hrs with hrs | ⟨hrs, hrs'⟩
    · have hle : (r.compare t).isLE := by
        rcases hst with hst | ⟨hst, _⟩ <;> exact htrans (by simp [hrs]) (by simp [hst])
      by_cases hrt : r.compare t = .eq
      · have hsr : s.compare r = .gt := by rw [compare_swap, hrs]; rfl
        have heq := eq_of_compare r t hrt
        subst heq
        rcases hst with hst | ⟨hst, _⟩ <;> simp [hsr] at hst
      · left
        cases h : r.compare t <;> simp_all
    · have heq := eq_of_compare r s hrs
      subst heq
      rcases hst with hst | ⟨hst, hst'⟩
      · exact .inl hst
      · exact .inr ⟨hst, hparts hrs' hst'⟩

end

instance : TransOrd Regex where
  eq_swap {r s} := compare_swap r s
  isLE_trans {r s t} := compare_isLE_trans r s t

instance : LawfulEqOrd Regex where
  compare_self {r} := compare_self r
  eq_of_compare {r s} := eq_of_compare r s

instance : DecidableEq Regex := fun r s =>
  decidable_of_iff (r.compare s = .eq) ⟨eq_of_compare r s, fun h => h ▸ compare_self r⟩

/-- Trees in ascending order. -/
def sort (rs : List Regex) : List Regex := rs.mergeSort fun r s => (r.compare s).isLE

end Regex

end Acceptors
