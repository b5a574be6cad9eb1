/-!
Finite sets as strictly ascending lists, so that equal sets are equal values and are listed in one
order only. Main statements: `mem_insert`, `mem_ofList`, `mem_union`, and `ext`.
-/

namespace Acceptors

open Std

structure SortedSet (α : Type) [Ord α] where
  toList : List α
  ascending : toList.Pairwise (fun a b => compare a b = .lt)
  deriving DecidableEq

namespace SortedSet

variable {α : Type} [Ord α]

instance : Membership α (SortedSet α) := ⟨fun s a => a ∈ s.toList⟩

theorem mem_toList {a : α} {s : SortedSet α} : a ∈ s.toList ↔ a ∈ s := Iff.rfl

instance [DecidableEq α] (a : α) (s : SortedSet α) : Decidable (a ∈ s) :=
  inferInstanceAs (Decidable (a ∈ s.toList))

def empty : SortedSet α := ⟨[], .nil⟩

instance : EmptyCollection (SortedSet α) := ⟨empty⟩

instance : Inhabited (SortedSet α) := ⟨empty⟩

def size (s : SortedSet α) : Nat := s.toList.length

def isEmpty (s : SortedSet α) : Bool := s.toList.isEmpty

/-- Places `a` before the first greater member; a member that is already listed stays. -/
def insertSorted (a : α) : List α → List α
  | [] => [a]
  | b :: rest =>
    match compare a b with
    | .lt => a :: b :: rest
    | .eq => b :: rest
    | .gt => b :: insertSorted a rest

theorem mem_insertSorted [LawfulEqOrd α] {a x : α} {xs : List α} :
    x ∈ insertSorted a xs ↔ x = a ∨ x ∈ xs := by
  induction xs with
  | nil => simp [insertSorted]
  | cons b rest ih =>
    unfold insertSorted
    split
    · simp
    · rename_i h
      rw [LawfulEqOrd.eq_of_compare h]
      simp
    · simp only [List.mem_cons, ih]
      constructor <;> rintro (h | h | h) <;> simp [h]

theorem insertSorted_ascending [TransOrd α] [LawfulEqOrd α] (a : α) {xs : List α}
    (h : xs.Pairwise (fun a b => compare a b = .lt)) :
    (insertSorted a xs).Pairwise (fun a b => compare a b = .lt) := by
  induction xs with
  | nil => simp [insertSorted]
  | cons b rest ih =>
    obtain ⟨hb, hrest⟩ := List.pairwise_cons.1 h
    unfold insertSorted
    split
    · rename_i hab
      refine List.pairwise_cons.2 ⟨fun x hx => ?_, h⟩
      rcases List.mem_cons.1 hx with rfl | hx
      · exact hab
      · exact TransCmp.lt_trans hab (hb x hx)
    · exact h
    · rename_i hab
      refine List.pairwise_cons.2 ⟨fun x hx => ?_, ih hrest⟩
      rcases mem_insertSorted.1 hx with rfl | hx
      · exact OrientedCmp.lt_of_gt hab
      · exact hb x hx

def singleton (a : α) : SortedSet α := ⟨[a], by simp⟩

theorem not_mem_empty {x : α} : ¬ x ∈ (∅ : SortedSet α) := List.not_mem_nil

@[simp] theorem mem_singleton {a x : α} : x ∈ singleton a ↔ x = a := List.mem_singleton

section Lawful

variable [TransOrd α] [LawfulEqOrd α]

def insert (s : SortedSet α) (a : α) : SortedSet α :=
  ⟨insertSorted a s.toList, insertSorted_ascending a s.ascending⟩

def ofList (xs : List α) : SortedSet α := xs.foldl insert ∅

def union (s t : SortedSet α) : SortedSet α := t.toList.foldl insert s

@[simp] theorem mem_insert {s : SortedSet α} {a x : α} : x ∈ s.insert a ↔ x = a ∨ x ∈ s :=
  mem_insertSorted

theorem mem_foldl_insert {xs : List α} {s : SortedSet α} {x : α} :
    x ∈ xs.foldl insert s ↔ x ∈ s ∨ x ∈ xs := by
  induction xs generalizing s with
  | nil => simp
  | cons a rest ih =>
    rw [List.foldl_cons, ih, mem_insert, List.mem_cons]
    constructor
    · rintro ((h | h) | h) <;> simp [h]
    · rintro (h | h | h) <;> simp [h]

@[simp] theorem mem_ofList {xs : List α} {x : α} : x ∈ ofList xs ↔ x ∈ xs := by
  simp [ofList, mem_foldl_insert, not_mem_empty]

@[simp] theorem mem_union {s t : SortedSet α} {x : α} : x ∈ s.union t ↔ x ∈ s ∨ x ∈ t :=
  mem_foldl_insert

/-- Two ascending lists with the same members are the same list. -/
theorem eq_of_ascending {xs ys : List α}
    (hx : xs.Pairwise (fun a b => compare a b = .lt))
    (hy : ys.Pairwise (fun a b => compare a b = .lt)) (h : ∀ a, a ∈ xs ↔ a ∈ ys) : xs = ys := by
  have nodup {zs : List α} (hz : zs.Pairwise (fun a b => compare a b = .lt)) : zs.Nodup :=
    hz.imp fun {a b} hab heq => by subst b; simp at hab
  have hperm := (List.perm_ext_iff_of_nodup (nodup hx) (nodup hy)).2 h
  exact @List.Perm.eq_of_pairwise _ (fun a b => compare a b = .lt) _ _
    (fun _ _ _ _ hab hba => (OrientedCmp.not_lt_of_lt hab hba).elim) hx hy hperm

theorem ext {s t : SortedSet α} (h : ∀ a, a ∈ s ↔ a ∈ t) : s = t := by
  cases s with
  | mk xs hx =>
    cases t with
    | mk ys hy =>
      congr
      exact eq_of_ascending hx hy h

end Lawful

/-- Sets compare as their ascending lists do, a proper beginning first. -/
instance : Ord (SortedSet α) := ⟨fun s t => compare s.toList t.toList⟩

instance [TransOrd α] : TransOrd (SortedSet α) where
  eq_swap := OrientedOrd.eq_swap (α := List α)
  isLE_trans := TransOrd.isLE_trans (α := List α)

instance [LawfulEqOrd α] : LawfulEqOrd (SortedSet α) where
  compare_self := ReflOrd.compare_self (α := List α)
  eq_of_compare {s t} h := by
    cases s
    cases t
    congr
    exact LawfulEqOrd.eq_of_compare (α := List α) h

end SortedSet

end Acceptors
