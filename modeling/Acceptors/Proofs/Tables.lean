import Acceptors.Automaton.Basic
import Mathlib.Data.List.Forall2

/-!
Sorted sets, maps and tables beyond membership: what their order and the making of a table from a
list of edges settle. Main statements: `SortedMap.entries_map_eq_iff`,
`Table.get?_ofEdges_eq_none_iff`, a table made of edges has no empty entry, `Table.pairwise_edges`,
edges are listed by symbol, and `Automaton.pairwise_next`, those on one symbol in the order of what
they carry. No other list of the same edges is in this order (`Table.eq_of_pairwise`).
-/

namespace Acceptors

open Std

/-! ## Lists -/

/-- Lists with the same keys match where members with the same key do. -/
theorem forall₂_of_map_eq {α β κ : Type} {R : α → β → Prop} {f : α → κ} {g : β → κ} {xs : List α}
    {ys : List β} (h : xs.map f = ys.map g) (hR : ∀ x ∈ xs, ∀ y ∈ ys, f x = g y → R x y) :
    List.Forall₂ R xs ys := by
  induction xs generalizing ys with
  | nil =>
    cases ys with
    | nil => exact .nil
    | cons y ys => cases h
  | cons x xs ih =>
    cases ys with
    | nil => cases h
    | cons y ys =>
      obtain ⟨hxy, hrest⟩ := List.cons.inj h
      exact .cons (hR x (by simp) y (by simp) hxy)
        (ih hrest fun x hx y hy => hR x (by simp [hx]) y (by simp [hy]))

theorem map_eq_of_forall₂ {α β κ : Type} {R : α → β → Prop} {f : α → κ} {g : β → κ} {xs : List α}
    {ys : List β} (h : List.Forall₂ R xs ys) (hR : ∀ x y, R x y → f x = g y) :
    xs.map f = ys.map g := by
  induction h with
  | nil => rfl
  | cons hxy _ ih => rw [List.map_cons, List.map_cons, hR _ _ hxy, ih]

theorem length_le_one_iff {α : Type} {xs : List α} (h : xs.Nodup) :
    xs.length ≤ 1 ↔ ∀ x ∈ xs, ∀ y ∈ xs, x = y := by
  constructor
  · intro hlen x hx y hy
    match xs, hlen with
    | [], _ => cases hx
    | [z], _ => rw [List.mem_singleton.mp hx, List.mem_singleton.mp hy]
  · intro hall
    match xs, h with
    | [], _ => simp
    | [x], _ => simp
    | x :: y :: rest, h =>
      have hxy : x = y := hall x (by simp) y (by simp)
      simp [hxy] at h

/-! ## Sets and maps -/

theorem nodup_of_ascending {α : Type} [Ord α] [TransOrd α] {xs : List α}
    (h : xs.Pairwise fun a b => compare a b = .lt) : xs.Nodup :=
  h.imp fun {a b} hab heq => by
    subst b
    simp at hab

theorem SortedSet.nodup_toList {α : Type} [Ord α] [TransOrd α] (s : SortedSet α) :
    s.toList.Nodup :=
  nodup_of_ascending s.ascending

theorem SortedSet.toList_ofList {α : Type} [Ord α] [TransOrd α] [LawfulEqOrd α] {xs : List α}
    (h : xs.Pairwise fun a b => compare a b = .lt) : (SortedSet.ofList xs).toList = xs :=
  SortedSet.eq_of_ascending (SortedSet.ofList xs).ascending h fun _ => SortedSet.mem_ofList

theorem SortedSet.size_le_one_iff {s : SortedSet Nat} :
    s.size ≤ 1 ↔ ∀ p ∈ s, ∀ q ∈ s, p = q :=
  length_le_one_iff s.nodup_toList

theorem SortedMap.nodup_keys {κ β : Type} [Ord κ] [TransOrd κ] (m : SortedMap κ β) :
    m.keys.Nodup := by
  refine List.pairwise_map.mpr (m.ascending.imp fun {a b} hab heq => ?_)
  rw [heq] at hab
  simp at hab

theorem SortedMap.mem_values {κ β : Type} [Ord κ] [TransOrd κ] [LawfulEqOrd κ] [DecidableEq κ]
    {m : SortedMap κ β} {k : κ} {v : β} (h : m.get? k = some v) : v ∈ m.values :=
  List.mem_map.mpr ⟨(k, v), SortedMap.mem_entries_iff.mpr h, rfl⟩

theorem SortedMap.get?_ofList_map {κ β : Type} [Ord κ] [TransOrd κ] [LawfulEqOrd κ]
    [DecidableEq κ] (f : κ → β) (ks : List κ) (k : κ) :
    (SortedMap.ofList (ks.map fun k => (k, f k))).get? k = if k ∈ ks then some (f k) else none := by
  have hfold : ∀ m : SortedMap κ β,
      ((ks.map fun k => (k, f k)).foldl (fun m e => m.insert e.1 e.2) m).get? k =
        if k ∈ ks then some (f k) else m.get? k := by
    induction ks with
    | nil => simp
    | cons j ks ih =>
      intro m
      rw [List.map_cons, List.foldl_cons, ih, SortedMap.get?_insert]
      by_cases hk : k ∈ ks
      · simp [hk]
      · by_cases hj : k = j <;> simp [hk, hj]
  exact hfold ∅

/-- Maps with the same value at every key are equal. -/
theorem SortedMap.ext {κ β : Type} [Ord κ] [TransOrd κ] [LawfulEqOrd κ] [DecidableEq κ]
    {m n : SortedMap κ β} (h : ∀ k, m.get? k = n.get? k) : m = n := by
  have nodup (l : SortedMap κ β) : l.entries.Nodup := l.ascending.imp fun {a b} hab heq => by
    subst b
    simp at hab
  have hperm : m.entries.Perm n.entries :=
    (List.perm_ext_iff_of_nodup (nodup m) (nodup n)).mpr fun e => by
      rw [SortedMap.mem_entries_iff, SortedMap.mem_entries_iff, h]
  have hentries : m.entries = n.entries :=
    @List.Perm.eq_of_pairwise _ (fun a b => compare a.1 b.1 = .lt) _ _
      (fun _ _ _ _ hab hba => (OrientedCmp.not_lt_of_lt hab hba).elim) m.ascending n.ascending hperm
  cases m
  cases n
  congr

/-- The images of two maps list the same entries if and only if they agree at every key. -/
theorem SortedMap.entries_map_eq_iff {κ β γ δ : Type} [Ord κ] [TransOrd κ] [LawfulEqOrd κ]
    [DecidableEq κ] {f : κ → β → δ} {g : κ → γ → δ} {m : SortedMap κ β} {n : SortedMap κ γ} :
    (m.map f).entries = (n.map g).entries ↔
      ∀ k, (m.get? k).map (f k) = (n.get? k).map (g k) := by
  simp only [← SortedMap.get?_map]
  constructor
  · exact fun h k => congrArg (SortedMap.lookup k) h
  · exact fun h => congrArg SortedMap.entries (SortedMap.ext h)

/-! ## Tables -/

namespace Table

theorem pairwise_next {ε : Type} [Ord ε] (t : Table ε) (s : Symbol) :
    (t.next s).Pairwise fun a b => compare a b = .lt := by
  unfold next
  split
  · exact SortedSet.ascending _
  · exact .nil

theorem mem_of_get?_ofEdges {es : List (Symbol × Nat)} {s : Symbol} {targets : SortedSet Nat}
    (h : (ofEdges es).get? s = some targets) {q : Nat} : q ∈ targets ↔ (s, q) ∈ es := by
  rw [← mem_next_ofEdges, next, h]
  rfl

theorem get?_foldl_connect_eq_none_iff {t : Table Nat} {es : List (Symbol × Nat)} {s : Symbol} :
    (es.foldl connect t).get? s = none ↔ t.get? s = none ∧ ∀ q, (s, q) ∉ es := by
  induction es generalizing t with
  | nil => simp
  | cons edge rest ih =>
    obtain ⟨r, p⟩ := edge
    rw [List.foldl_cons, ih, connect, SortedMap.get?_update]
    by_cases hs : s = r
    · subst hs
      exact ⟨fun h => absurd h.1 (by simp), fun h => absurd List.mem_cons_self (h.2 p)⟩
    · simp [hs]

/-- A table made of edges has no entry without an edge. -/
theorem get?_ofEdges_eq_none_iff {es : List (Symbol × Nat)} {s : Symbol} :
    (ofEdges es).get? s = none ↔ ∀ q, (s, q) ∉ es := by
  rw [ofEdges, get?_foldl_connect_eq_none_iff]
  simp

/-- Lists of the same edges make the same table. -/
theorem ofEdges_congr {es fs : List (Symbol × Nat)} (h : ∀ edge, edge ∈ es ↔ edge ∈ fs) :
    ofEdges es = ofEdges fs := by
  refine SortedMap.ext fun s => ?_
  cases hes : (ofEdges es).get? s with
  | none =>
    have hnone := get?_ofEdges_eq_none_iff.mp hes
    exact (get?_ofEdges_eq_none_iff.mpr fun q hq => hnone q ((h (s, q)).mpr hq)).symm
  | some targets =>
    cases hfs : (ofEdges fs).get? s with
    | none =>
      have hnone := get?_ofEdges_eq_none_iff.mp hfs
      rw [get?_ofEdges_eq_none_iff.mpr fun q hq => hnone q ((h (s, q)).mp hq)] at hes
      cases hes
    | some targets' =>
      have hsame : targets = targets' := SortedSet.ext fun q => by
        rw [mem_of_get?_ofEdges hes, mem_of_get?_ofEdges hfs, h]
      rw [hsame]

/-- Edges stand by symbol, and by target where the symbols are equal. -/
theorem pairwise_edges (t : Table Nat) :
    t.edges.Pairwise fun a b =>
      compare a.1 b.1 = .lt ∨ a.1 = b.1 ∧ compare a.2 b.2 = .lt := by
  unfold edges
  rw [List.pairwise_flatMap]
  constructor
  · intro entry _
    rw [List.pairwise_map]
    exact entry.2.ascending.imp fun h => .inr ⟨rfl, h⟩
  · refine t.ascending.imp fun {a b} hab x hx y hy => ?_
    obtain ⟨_, _, rfl⟩ := List.mem_map.mp hx
    obtain ⟨_, _, rfl⟩ := List.mem_map.mp hy
    exact .inl hab

/-- Lists of the same edges by symbol, then by target, are equal. -/
theorem eq_of_pairwise {es fs : List (Symbol × Nat)}
    (hes : es.Pairwise fun a b => compare a.1 b.1 = .lt ∨ a.1 = b.1 ∧ compare a.2 b.2 = .lt)
    (hfs : fs.Pairwise fun a b => compare a.1 b.1 = .lt ∨ a.1 = b.1 ∧ compare a.2 b.2 = .lt)
    (h : ∀ edge, edge ∈ es ↔ edge ∈ fs) : es = fs := by
  have hnodup {es : List (Symbol × Nat)}
      (hes : es.Pairwise fun a b => compare a.1 b.1 = .lt ∨ a.1 = b.1 ∧
        compare a.2 b.2 = .lt) : es.Nodup :=
    hes.imp fun {a b} hab heq => by
      subst b
      simp at hab
  have hperm := (List.perm_ext_iff_of_nodup (hnodup hes) (hnodup hfs)).mpr h
  refine hperm.eq_of_pairwise (fun a b _ _ hab hba => ?_) hes hfs
  rcases hab with hab | ⟨heq, hab⟩ <;> rcases hba with hba | ⟨heq', hba⟩
  · exact absurd hba (OrientedCmp.not_lt_of_lt hab)
  · simp [heq'] at hab
  · simp [heq] at hba
  · exact absurd hba (OrientedCmp.not_lt_of_lt hab)

/-- Edges on ascending symbols are listed as they were given. -/
theorem edges_ofEdges {es : List (Symbol × Nat)}
    (h : es.Pairwise fun a b => compare a.1 b.1 = .lt) :
    (ofEdges es).edges = es :=
  eq_of_pairwise (pairwise_edges _) (h.imp .inl) fun _ => mem_edges.trans mem_next_ofEdges

/-- The edges symbol by symbol, the symbols of all edges being listed in order. -/
theorem edges_eq_flatMap {t : Table Nat} {ss : List Symbol}
    (hss : ss.Pairwise fun a b => compare a b = .lt) (h : ∀ s q, q ∈ t.next s → s ∈ ss) :
    t.edges = ss.flatMap fun s => (t.next s).map fun q => (s, q) := by
  refine eq_of_pairwise (pairwise_edges t)
    (List.pairwise_flatMap.mpr ⟨fun s _ => ?_, hss.imp ?_⟩) fun edge => ?_
  · rw [List.pairwise_map]
    exact (pairwise_next t s).imp fun hlt => .inr ⟨rfl, hlt⟩
  · intro r s hrs x hx y hy
    obtain ⟨_, _, rfl⟩ := List.mem_map.mp hx
    obtain ⟨_, _, rfl⟩ := List.mem_map.mp hy
    exact .inl hrs
  · obtain ⟨s, q⟩ := edge
    simp only [mem_edges, List.mem_flatMap, List.mem_map, Prod.mk.injEq]
    constructor
    · exact fun hq => ⟨s, h s q hq, q, hq, rfl, rfl⟩
    · rintro ⟨_, _, _, hq, rfl, rfl⟩
      exact hq

/-- A table without empty entries is made of its edges. -/
theorem ofEdges_edges {t : Table Nat} (h : ∀ targets ∈ t.values, targets.toList ≠ []) :
    ofEdges t.edges = t := by
  refine SortedMap.ext fun s => ?_
  cases hentry : t.get? s with
  | none =>
    refine get?_ofEdges_eq_none_iff.mpr fun q hq => ?_
    rw [mem_edges, next, hentry] at hq
    cases hq
  | some targets =>
    have hmem (q : Nat) : (s, q) ∈ t.edges ↔ q ∈ targets := by
      rw [mem_edges, next, hentry]
      exact SortedSet.mem_toList
    obtain ⟨q, hq⟩ := List.exists_mem_of_ne_nil _ (h targets (SortedMap.mem_values hentry))
    cases hmade : (ofEdges t.edges).get? s with
    | none => exact absurd ((hmem q).mpr hq) (get?_ofEdges_eq_none_iff.mp hmade q)
    | some made => rw [SortedSet.ext fun q => (mem_of_get?_ofEdges hmade).trans (hmem q)]

end Table

namespace Automaton

theorem pairwise_edges (A : FiniteAutomaton) (q : Nat) :
    (A.edges q).Pairwise fun a b => compare a.1 b.1 = .lt ∨ a.1 = b.1 ∧ compare a.2 b.2 = .lt := by
  unfold edges
  split
  · exact Table.pairwise_edges _
  · exact .nil

theorem pairwise_next {ε : Type} [Ord ε] (A : Automaton ε) (q : Nat) (s : Symbol) :
    (A.next q s).Pairwise fun a b => compare a b = .lt := by
  unfold next
  split
  · exact Table.pairwise_next _ s
  · exact .nil

theorem nodup_next {ε : Type} [Ord ε] [TransOrd ε] (A : Automaton ε) (q : Nat) (s : Symbol) :
    (A.next q s).Nodup :=
  nodup_of_ascending (A.pairwise_next q s)

end Automaton

end Acceptors
