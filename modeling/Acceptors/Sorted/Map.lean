/-!
Finite maps as lists of entries with strictly ascending keys, so that maps with the same entries are
equal values and are listed in one order only. Main statements: `mem_entries_iff`, `get?_update`,
`get?_erase`, `get?_map`.
-/

namespace Acceptors

open Std

structure SortedMap (κ β : Type) [Ord κ] where
  entries : List (κ × β)
  ascending : entries.Pairwise (fun a b => compare a.1 b.1 = .lt)
  deriving DecidableEq

namespace SortedMap

variable {κ β γ : Type} [Ord κ]

def empty : SortedMap κ β := ⟨[], .nil⟩

instance : EmptyCollection (SortedMap κ β) := ⟨empty⟩

instance : Inhabited (SortedMap κ β) := ⟨empty⟩

def keys (m : SortedMap κ β) : List κ := m.entries.map (·.1)

def values (m : SortedMap κ β) : List β := m.entries.map (·.2)

def size (m : SortedMap κ β) : Nat := m.entries.length

def lookup [DecidableEq κ] (k : κ) : List (κ × β) → Option β
  | [] => none
  | (j, v) :: rest => if k = j then some v else lookup k rest

def get? [DecidableEq κ] (m : SortedMap κ β) (k : κ) : Option β := lookup k m.entries

def contains [DecidableEq κ] (m : SortedMap κ β) (k : κ) : Bool := (m.get? k).isSome

/-- Every value is replaced by `f` of its key and itself. -/
def map (f : κ → β → γ) (m : SortedMap κ β) : SortedMap κ γ :=
  ⟨m.entries.map fun e => (e.1, f e.1 e.2), List.pairwise_map.2 m.ascending⟩

/-- The entries whose key satisfies `p`. -/
def filterKeys (p : κ → Bool) (m : SortedMap κ β) : SortedMap κ β :=
  ⟨m.entries.filter fun e => p e.1, m.ascending.filter _⟩

def erase [DecidableEq κ] (m : SortedMap κ β) (k : κ) : SortedMap κ β :=
  m.filterKeys (· != k)

/-- Gives `k` the value `f` makes of its old one; a new key is placed before the first greater
one. -/
def updateSorted (k : κ) (f : Option β → β) : List (κ × β) → List (κ × β)
  | [] => [(k, f none)]
  | (j, v) :: rest =>
    match compare k j with
    | .lt => (k, f none) :: (j, v) :: rest
    | .eq => (j, f (some v)) :: rest
    | .gt => (j, v) :: updateSorted k f rest

theorem key_mem_updateSorted {k : κ} {f : Option β → β} {es : List (κ × β)} {e : κ × β}
    (h : e ∈ updateSorted k f es) : e.1 = k ∨ ∃ v, (e.1, v) ∈ es := by
  induction es with
  | nil => simp_all [updateSorted]
  | cons d rest ih =>
    obtain ⟨j, v⟩ := d
    unfold updateSorted at h
    split at h
    · rcases List.mem_cons.1 h with rfl | h
      · exact .inl rfl
      · exact .inr ⟨e.2, h⟩
    · rcases List.mem_cons.1 h with rfl | h
      · exact .inr ⟨v, by simp⟩
      · exact .inr ⟨e.2, by simp [h]⟩
    · rcases List.mem_cons.1 h with rfl | h
      · exact .inr ⟨v, by simp⟩
      · rcases ih h with h | ⟨u, h⟩
        · exact .inl h
        · exact .inr ⟨u, by simp [h]⟩

theorem updateSorted_ascending [TransOrd κ] (k : κ) (f : Option β → β) {es : List (κ × β)}
    (h : es.Pairwise (fun a b => compare a.1 b.1 = .lt)) :
    (updateSorted k f es).Pairwise (fun a b => compare a.1 b.1 = .lt) := by
  induction es with
  | nil => simp [updateSorted]
  | cons d rest ih =>
    obtain ⟨j, v⟩ := d
    obtain ⟨hj, hrest⟩ := List.pairwise_cons.1 h
    unfold updateSorted
    split
    · rename_i hkj
      refine List.pairwise_cons.2 ⟨fun e he => ?_, h⟩
      rcases List.mem_cons.1 he with rfl | he
      · exact hkj
      · exact TransCmp.lt_trans hkj (hj e he)
    · exact List.pairwise_cons.2 ⟨hj, hrest⟩
    · rename_i hkj
      refine List.pairwise_cons.2 ⟨fun e he => ?_, ih hrest⟩
      rcases key_mem_updateSorted he with h | ⟨u, h⟩
      · exact h ▸ OrientedCmp.lt_of_gt hkj
      · exact hj (e.1, u) h

section Lawful

variable [TransOrd κ]

def update (m : SortedMap κ β) (k : κ) (f : Option β → β) : SortedMap κ β :=
  ⟨updateSorted k f m.entries, updateSorted_ascending k f m.ascending⟩

def insert (m : SortedMap κ β) (k : κ) (v : β) : SortedMap κ β := m.update k fun _ => v

/-- Of several entries with one key the last counts. -/
def ofList (es : List (κ × β)) : SortedMap κ β := es.foldl (fun m e => m.insert e.1 e.2) ∅

variable [DecidableEq κ]

theorem lookup_eq_none {es : List (κ × β)} {k : κ} (h : ∀ e ∈ es, compare k e.1 = .lt) :
    lookup k es = none := by
  induction es with
  | nil => rfl
  | cons e rest ih =>
    have hne : k ≠ e.1 := by
      intro he
      have := h e (by simp)
      simp [he] at this
    rw [lookup, if_neg hne]
    exact ih fun d hd => h d (by simp [hd])

theorem lookup_updateSorted [LawfulEqOrd κ] {k i : κ} {f : Option β → β} {es : List (κ × β)}
    (h : es.Pairwise (fun a b => compare a.1 b.1 = .lt)) :
    lookup i (updateSorted k f es) = if i = k then some (f (lookup k es)) else lookup i es := by
  induction es with
  | nil => rfl
  | cons d rest ih =>
    obtain ⟨j, v⟩ := d
    obtain ⟨hj, hrest⟩ := List.pairwise_cons.1 h
    unfold updateSorted
    split
    · rename_i hkj
      have hnone : lookup k ((j, v) :: rest) = none := lookup_eq_none fun e he => by
        rcases List.mem_cons.1 he with rfl | he
        · exact hkj
        · exact TransCmp.lt_trans hkj (hj e he)
      rw [hnone, lookup]
    · rename_i hkj
      have hkj := LawfulEqOrd.eq_of_compare hkj
      subst hkj
      by_cases hik : i = k <;> simp [lookup, hik]
    · rename_i hkj
      have hne : k ≠ j := by
        rintro rfl
        simp at hkj
      by_cases hik : i = k
      · subst hik
        simp [lookup, hne, ih hrest]
      · simp [lookup, hik, ih hrest]

omit [Ord κ] [TransOrd κ] in
theorem mem_of_lookup {es : List (κ × β)} {k : κ} {v : β} (h : lookup k es = some v) :
    (k, v) ∈ es := by
  induction es with
  | nil => simp [lookup] at h
  | cons e rest ih =>
    obtain ⟨j, u⟩ := e
    unfold lookup at h
    split at h
    · simp_all
    · exact List.mem_cons_of_mem _ (ih h)

theorem lookup_of_mem {es : List (κ × β)} {k : κ} {v : β}
    (ha : es.Pairwise (fun a b => compare a.1 b.1 = .lt)) (h : (k, v) ∈ es) :
    lookup k es = some v := by
  induction es with
  | nil => simp at h
  | cons e rest ih =>
    obtain ⟨j, u⟩ := e
    obtain ⟨hj, hrest⟩ := List.pairwise_cons.1 ha
    rcases List.mem_cons.1 h with h | hmem
    · cases h
      simp [lookup]
    · have hne : k ≠ j := by
        rintro rfl
        have := hj _ hmem
        simp at this
      rw [lookup, if_neg hne]
      exact ih hrest hmem

theorem mem_entries_iff {m : SortedMap κ β} {k : κ} {v : β} :
    (k, v) ∈ m.entries ↔ m.get? k = some v :=
  ⟨lookup_of_mem m.ascending, mem_of_lookup⟩

theorem get?_update [LawfulEqOrd κ] {m : SortedMap κ β} {k i : κ} {f : Option β → β} :
    (m.update k f).get? i = if i = k then some (f (m.get? k)) else m.get? i :=
  lookup_updateSorted m.ascending

theorem get?_insert [LawfulEqOrd κ] {m : SortedMap κ β} {k i : κ} {v : β} :
    (m.insert k v).get? i = if i = k then some v else m.get? i :=
  get?_update

end Lawful

@[simp] theorem get?_empty [DecidableEq κ] {k : κ} : (∅ : SortedMap κ β).get? k = none := rfl

theorem get?_map [DecidableEq κ] {f : κ → β → γ} {m : SortedMap κ β} {k : κ} :
    (m.map f).get? k = (m.get? k).map (f k) := by
  change lookup k (m.entries.map _) = (lookup k m.entries).map (f k)
  induction m.entries with
  | nil => rfl
  | cons e rest ih =>
    by_cases h : k = e.1
    · simp [lookup, h]
    · simpa [lookup, h] using ih

theorem get?_filterKeys [DecidableEq κ] {p : κ → Bool} {m : SortedMap κ β} {k : κ} :
    (m.filterKeys p).get? k = if p k then m.get? k else none := by
  change lookup k (m.entries.filter _) = if p k then lookup k m.entries else none
  induction m.entries with
  | nil => simp [lookup]
  | cons e rest ih =>
    by_cases h : k = e.1
    · subst h
      by_cases hp : p e.1 <;> simp_all [lookup]
    · by_cases hp : p e.1 <;> simp_all [lookup]

theorem get?_erase [DecidableEq κ] {m : SortedMap κ β} {k i : κ} :
    (m.erase k).get? i = if i = k then none else m.get? i := by
  rw [erase, get?_filterKeys]
  by_cases h : i = k <;> simp [h]

end SortedMap

end Acceptors
