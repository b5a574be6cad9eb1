import Acceptors.Exploration
import Mathlib.Data.List.Forall2
import Mathlib.Data.List.Perm.Subperm
import Mathlib.Logic.Relation

/-!
What exploration finds. Main statements: `exploreBy_closed` (given rounds for a universe of keys, no
step leads to a key that is not found), `mem_explore` (exactly the nodes that the start leads to,
given rounds for a universe that no step leaves), `explore_eq_of_le` (more rounds change nothing),
`nodup_exploreBy`, and `forall₂_explore` (explorations of two graphs that match step by step list
matching nodes in the same order).
-/

namespace Acceptors

open Relation

section Keys

variable {α κ : Type} [DecidableEq κ] {key : α → κ} {next : α → List α}

theorem fresh_cons_of_mem {found : List α} {x : α} (h : key x ∈ found.map key) (rest : List α) :
    fresh key found (x :: rest) = fresh key found rest := by
  rw [fresh, if_pos (by simpa using h)]

theorem fresh_cons_of_not_mem {found : List α} {x : α} (h : key x ∉ found.map key) (rest : List α) :
    fresh key found (x :: rest) = x :: fresh key (x :: found) rest := by
  rw [fresh, if_neg (by simpa using h)]

theorem mem_fresh {found xs : List α} {y : α} (h : y ∈ fresh key found xs) :
    y ∈ xs ∧ ∀ x ∈ found, key x ≠ key y := by
  induction xs generalizing found with
  | nil => simp [fresh] at h
  | cons x rest ih =>
    by_cases hx : key x ∈ found.map key
    · rw [fresh_cons_of_mem hx] at h
      obtain ⟨hy, hn⟩ := ih h
      exact ⟨List.mem_cons_of_mem _ hy, hn⟩
    · rw [fresh_cons_of_not_mem hx] at h
      rcases List.mem_cons.mp h with rfl | h
      · exact ⟨List.mem_cons_self, fun z hz hk => hx (List.mem_map.mpr ⟨z, hz, hk⟩)⟩
      · obtain ⟨hy, hn⟩ := ih h
        exact ⟨List.mem_cons_of_mem _ hy, fun z hz => hn z (List.mem_cons_of_mem _ hz)⟩

/-- Every key of the list is a key found before or a fresh one. -/
theorem fresh_covers (key : α → κ) (found : List α) {xs : List α} {y : α} (h : y ∈ xs) :
    ∃ x ∈ found ++ fresh key found xs, key x = key y := by
  induction xs generalizing found with
  | nil => simp at h
  | cons x rest ih =>
    by_cases hx : key x ∈ found.map key
    · rw [fresh_cons_of_mem hx]
      rcases List.mem_cons.mp h with rfl | h
      · obtain ⟨z, hz, hk⟩ := List.mem_map.mp hx
        exact ⟨z, List.mem_append_left _ hz, hk⟩
      · exact ih found h
    · rw [fresh_cons_of_not_mem hx]
      rcases List.mem_cons.mp h with rfl | h
      · exact ⟨y, by simp, rfl⟩
      · obtain ⟨z, hz, hk⟩ := ih (x :: found) h
        refine ⟨z, ?_, hk⟩
        simp only [List.cons_append, List.mem_cons, List.mem_append] at hz ⊢
        exact or_left_comm.mp hz

/-- Which members are fresh depends on the keys found alone. -/
theorem fresh_congr {found found' : List α} (h : ∀ k, k ∈ found.map key ↔ k ∈ found'.map key)
    (xs : List α) :
    fresh key found xs = fresh key found' xs := by
  induction xs generalizing found found' with
  | nil => rfl
  | cons x rest ih =>
    by_cases hx : key x ∈ found.map key
    · rw [fresh_cons_of_mem hx, fresh_cons_of_mem ((h _).mp hx), ih h]
    · rw [fresh_cons_of_not_mem hx, fresh_cons_of_not_mem fun hx' => hx ((h _).mpr hx')]
      have hcons : ∀ k, k ∈ (x :: found).map key ↔ k ∈ (x :: found').map key := fun k => by
        simp only [List.map_cons, List.mem_cons, h k]
      rw [ih hcons]

theorem fresh_append (key : α → κ) (found xs ys : List α) :
    fresh key found (xs ++ ys) =
      fresh key found xs ++ fresh key (found ++ fresh key found xs) ys := by
  induction xs generalizing found with
  | nil => simp [fresh]
  | cons x rest ih =>
    rw [List.cons_append]
    by_cases hx : key x ∈ found.map key
    · rw [fresh_cons_of_mem hx, fresh_cons_of_mem hx, ih]
    · have hkeys : ∀ k, k ∈ ((x :: found) ++ fresh key (x :: found) rest).map key ↔
          k ∈ (found ++ x :: fresh key (x :: found) rest).map key := fun k => by
        simp only [List.map_append, List.map_cons, List.mem_append, List.mem_cons]
        tauto
      rw [fresh_cons_of_not_mem hx, fresh_cons_of_not_mem hx, ih, fresh_congr hkeys,
        List.cons_append]

theorem nodup_fresh (key : α → κ) (found xs : List α) : ((fresh key found xs).map key).Nodup := by
  induction xs generalizing found with
  | nil => simp [fresh]
  | cons x rest ih =>
    by_cases hx : key x ∈ found.map key
    · rw [fresh_cons_of_mem hx]
      exact ih found
    · rw [fresh_cons_of_not_mem hx, List.map_cons, List.nodup_cons]
      refine ⟨fun h => ?_, ih (x :: found)⟩
      obtain ⟨y, hy, hk⟩ := List.mem_map.mp h
      exact (mem_fresh hy).2 x List.mem_cons_self hk.symm

/-- Of a list in strict order the fresh members are those that stand first with their key. -/
theorem mem_fresh_iff_of_pairwise {R : α → α → Prop} (hR : ∀ x y, R x y → ¬ R y x)
    {found xs : List α} (hxs : xs.Pairwise R) {y : α} :
    y ∈ fresh key found xs ↔
      y ∈ xs ∧ (∀ x ∈ found, key x ≠ key y) ∧ ∀ x ∈ xs, key x = key y → ¬ R x y := by
  induction xs generalizing found with
  | nil => simp [fresh]
  | cons x rest ih =>
    obtain ⟨hx, hrest⟩ := List.pairwise_cons.mp hxs
    have hself : ¬ R x x := fun h => hR x x h h
    by_cases hmem : key x ∈ found.map key
    · obtain ⟨z, hz, hkey⟩ := List.mem_map.mp hmem
      rw [fresh_cons_of_mem hmem, ih hrest]
      constructor
      · rintro ⟨hy, hfound, hfirst⟩
        refine ⟨List.mem_cons_of_mem x hy, hfound, List.forall_mem_cons.mpr ⟨fun hxy => ?_, hfirst⟩⟩
        exact absurd (hkey.trans hxy) (hfound z hz)
      · rintro ⟨hy, hfound, hfirst⟩
        rcases List.mem_cons.mp hy with rfl | hy
        · exact absurd hkey (hfound z hz)
        · exact ⟨hy, hfound, (List.forall_mem_cons.mp hfirst).2⟩
    · have hfresh : ∀ z ∈ found, key z ≠ key x := fun z hz hkey =>
        hmem (List.mem_map.mpr ⟨z, hz, hkey⟩)
      rw [fresh_cons_of_not_mem hmem, List.mem_cons, ih hrest, List.forall_mem_cons]
      constructor
      · rintro (rfl | ⟨hy, ⟨hxy, hfound⟩, hfirst⟩)
        · exact ⟨List.mem_cons_self, hfresh,
            List.forall_mem_cons.mpr ⟨fun _ => hself, fun z hz _ => hR _ _ (hx z hz)⟩⟩
        · exact ⟨List.mem_cons_of_mem x hy, hfound,
            List.forall_mem_cons.mpr ⟨fun h => absurd h hxy, hfirst⟩⟩
      · rintro ⟨hy, hfound, hfirst⟩
        obtain ⟨hxfirst, hfirst⟩ := List.forall_mem_cons.mp hfirst
        rcases List.mem_cons.mp hy with rfl | hy
        · exact .inl rfl
        · exact .inr ⟨hy, ⟨fun hxy => hxfirst hxy (hx y hy), hfound⟩, hfirst⟩

theorem nodup_append_fresh {found xs : List α} (h : (found.map key).Nodup) :
    ((found ++ fresh key found xs).map key).Nodup := by
  rw [List.map_append, List.nodup_append]
  refine ⟨h, nodup_fresh key found xs, fun k hk l hl => ?_⟩
  obtain ⟨x, hx, rfl⟩ := List.mem_map.mp hk
  obtain ⟨y, hy, rfl⟩ := List.mem_map.mp hl
  exact (mem_fresh hy).2 x hx

theorem exploreFrom_nil (key : α → κ) (next : α → List α) (n : Nat) (found : List α) :
    exploreFrom key next n found [] = found := by
  cases n <;> rfl

/-- One round, which finds nothing or a new level. -/
theorem exploreFrom_succ (key : α → κ) (next : α → List α) (n : Nat) (found level : List α) :
    exploreFrom key next (n + 1) found level =
      exploreFrom key next n (found ++ fresh key found (level.flatMap next))
        (fresh key found (level.flatMap next)) := by
  rw [exploreFrom]
  split
  · rename_i hnone
    rw [hnone, List.append_nil, exploreFrom_nil]
  · rfl

theorem nodup_exploreFrom (key : α → κ) (next : α → List α) (n : Nat) {found : List α}
    (level : List α) (h : (found.map key).Nodup) :
    ((exploreFrom key next n found level).map key).Nodup := by
  induction n generalizing found level with
  | zero => exact h
  | succ n ih =>
    rw [exploreFrom_succ]
    exact ih _ (nodup_append_fresh h)

/-- What is found stays first. -/
theorem prefix_exploreFrom (n : Nat) (found level : List α) :
    found <+: exploreFrom key next n found level := by
  induction n generalizing found level with
  | zero => exact List.prefix_refl found
  | succ n ih =>
    rw [exploreFrom_succ]
    exact (List.prefix_append _ _).trans (ih _ _)

theorem subset_exploreFrom (n : Nat) (found level : List α) :
    found ⊆ exploreFrom key next n found level :=
  (prefix_exploreFrom n found level).subset

/-- Exploration keeps what holds of the start and is passed on by every step. -/
theorem exploreFrom_preserves {P : α → Prop} (hnext : ∀ x, P x → ∀ y ∈ next x, P y) (n : Nat)
    {found level : List α} (hf : ∀ x ∈ found, P x) (hl : ∀ x ∈ level, P x) :
    ∀ x ∈ exploreFrom key next n found level, P x := by
  induction n generalizing found level with
  | zero => exact hf
  | succ n ih =>
    have hnew : ∀ y ∈ fresh key found (level.flatMap next), P y := fun y hy => by
      obtain ⟨x, hx, hxy⟩ := List.mem_flatMap.mp (mem_fresh hy).1
      exact hnext x (hl x hx) y hxy
    rw [exploreFrom_succ]
    exact ih (List.forall_mem_append.mpr ⟨hf, hnew⟩) hnew

/-- `Explored key next found level`: all steps from nodes found before the last level lead to keys
found. -/
def Explored (key : α → κ) (next : α → List α) (found level : List α) : Prop :=
  ∀ x ∈ found, x ∉ level → ∀ y ∈ next x, ∃ z ∈ found, key z = key y

theorem Explored.round {found level : List α} (h : Explored key next found level) :
    Explored key next (found ++ fresh key found (level.flatMap next))
      (fresh key found (level.flatMap next)) := by
  intro x hx hnew y hy
  rcases List.mem_append.mp hx with hx | hx
  · by_cases hlevel : x ∈ level
    · exact fresh_covers key found (List.mem_flatMap.mpr ⟨x, hlevel, hy⟩)
    · obtain ⟨z, hz, hk⟩ := h x hx hlevel y hy
      exact ⟨z, List.mem_append_left _ hz, hk⟩
  · exact absurd hx hnew

/-- Each round but the last finds a key, so with rounds for a universe of keys the last level leads
nowhere new. -/
theorem exploreFrom_closed {U : List κ} (hU : ∀ x, key x ∈ U → ∀ y ∈ next x, key y ∈ U) (n : Nat)
    {found level : List α} (hf : ∀ x ∈ found, key x ∈ U) (hl : level ⊆ found)
    (hnodup : (found.map key).Nodup) (hn : U.length ≤ n + found.length)
    (he : Explored key next found level) :
    ∀ x ∈ exploreFrom key next n found level, ∀ y ∈ next x,
      ∃ z ∈ exploreFrom key next n found level, key z = key y := by
  induction n generalizing found level with
  | zero =>
    -- No round is left, so the keys found are the whole universe.
    intro x hx y hy
    have hsub : found.map key ⊆ U := fun k hk => by
      obtain ⟨z, hz, rfl⟩ := List.mem_map.mp hk
      exact hf z hz
    have hperm := (List.subperm_of_subset hnodup hsub).perm_of_length_le (by simpa using hn)
    exact List.mem_map.mp (hperm.mem_iff.mpr (hU x (hf x hx) y hy))
  | succ n ih =>
    unfold exploreFrom
    split
    · rename_i hnew
      intro x hx y hy
      by_cases hxl : x ∈ level
      · have hcov := fresh_covers key found (List.mem_flatMap.mpr ⟨x, hxl, hy⟩)
        rwa [hnew, List.append_nil] at hcov
      · exact he x hx hxl y hy
    · rename_i hnew
      have hpos : 0 < (fresh key found (level.flatMap next)).length :=
        List.length_pos_iff.mpr hnew
      refine ih (fun x hx => ?_) (List.subset_append_right _ _)
        (nodup_append_fresh hnodup) ?_ he.round
      · rcases List.mem_append.mp hx with hx | hx
        · exact hf x hx
        · obtain ⟨z, hz, hzx⟩ := List.mem_flatMap.mp (mem_fresh hx).1
          exact hU z (hf z (hl hz)) x hzx
      · rw [List.length_append]
        omega

/-- Rounds after the last one that finds a key change nothing. -/
theorem exploreFrom_add (n k : Nat) {found level : List α} (hl : level ⊆ found)
    (h : ∀ x ∈ exploreFrom key next n found level, ∀ y ∈ next x,
      ∃ z ∈ exploreFrom key next n found level, key z = key y) :
    exploreFrom key next (n + k) found level = exploreFrom key next n found level := by
  induction n generalizing found level with
  | zero =>
    have hnone : fresh key found (level.flatMap next) = [] := by
      refine List.eq_nil_iff_forall_not_mem.mpr fun y hy => ?_
      obtain ⟨hcandidate, hnew⟩ := mem_fresh hy
      obtain ⟨x, hx, hxy⟩ := List.mem_flatMap.mp hcandidate
      obtain ⟨z, hz, hkey⟩ := h x (hl hx) y hxy
      exact hnew z hz hkey
    cases k with
    | zero => rfl
    | succ k =>
      rw [Nat.zero_add, exploreFrom_succ, hnone, List.append_nil, exploreFrom_nil, exploreFrom]
  | succ n ih =>
    rw [Nat.add_right_comm, exploreFrom_succ, exploreFrom_succ]
    rw [exploreFrom_succ] at h
    exact ih (List.subset_append_right _ _) h

theorem exploreBy_preserves {P : α → Prop} (hnext : ∀ x, P x → ∀ y ∈ next x, P y) (n : Nat)
    {start : List α} (hs : ∀ x ∈ start, P x) : ∀ x ∈ exploreBy key next n start, P x :=
  exploreFrom_preserves hnext n (fun x hx => hs x (mem_fresh hx).1) fun x hx =>
    hs x (mem_fresh hx).1

theorem nodup_exploreBy (key : α → κ) (next : α → List α) (n : Nat) (start : List α) :
    ((exploreBy key next n start).map key).Nodup :=
  nodup_exploreFrom key next n (fresh key [] start) (nodup_fresh key [] start)

theorem exploreBy_covers (key : α → κ) (next : α → List α) (n : Nat) {start : List α} {x : α}
    (hx : x ∈ start) :
    ∃ y ∈ exploreBy key next n start, key y = key x := by
  obtain ⟨y, hy, hk⟩ := fresh_covers key [] hx
  exact ⟨y, subset_exploreFrom n _ _ hy, hk⟩

/-- With rounds for a universe of keys no step leads to a new key. -/
theorem exploreBy_closed (key : α → κ) {U : List κ} (hU : ∀ x, key x ∈ U → ∀ y ∈ next x, key y ∈ U)
    {n : Nat} (hn : U.length ≤ n) {start : List α} (hs : ∀ x ∈ start, key x ∈ U) :
    ∀ x ∈ exploreBy key next n start, ∀ y ∈ next x,
      ∃ z ∈ exploreBy key next n start, key z = key y :=
  exploreFrom_closed hU n (fun x hx => hs x (mem_fresh hx).1) (List.Subset.refl _)
    (nodup_fresh key [] start) (by omega) fun x hx hnot => absurd hx hnot

end Keys

section Nodes

variable {α β : Type} [DecidableEq α] [DecidableEq β] {next : α → List α} {next' : β → List β}

/-- Some steps lead from one node to another. -/
def Leads (next : α → List α) : α → α → Prop := ReflTransGen fun x y => y ∈ next x

theorem mem_fresh_id {found xs : List α} {x : α} : x ∈ fresh id found xs ↔ x ∈ xs ∧ x ∉ found := by
  constructor
  · intro h
    obtain ⟨hx, hnew⟩ := mem_fresh h
    exact ⟨hx, fun hold => hnew x hold rfl⟩
  · rintro ⟨hx, hnew⟩
    obtain ⟨y, hy, rfl : y = x⟩ := fresh_covers id found hx
    exact (List.mem_append.mp hy).resolve_left hnew

theorem mem_fresh_nil {start : List α} {x : α} :
    x ∈ fresh (id : α → α) [] start ↔ x ∈ start := by
  simp [mem_fresh_id]

theorem nodup_explore (n : Nat) (start : List α) : (explore next n start).Nodup := by
  have h := nodup_exploreBy id next n start
  rwa [List.map_id] at h

/-- Exploration finds exactly the nodes that the start leads to. -/
theorem mem_explore {U : List α} (hU : ∀ x ∈ U, ∀ y ∈ next x, y ∈ U) {n : Nat} (hn : U.length ≤ n)
    {start : List α} (hs : ∀ x ∈ start, x ∈ U) {y : α} :
    y ∈ explore next n start ↔ ∃ x ∈ start, Leads next x y := by
  constructor
  · exact exploreBy_preserves (P := fun y => ∃ x ∈ start, Leads next x y)
      (fun x ⟨z, hz, hzx⟩ y hy => ⟨z, hz, hzx.tail hy⟩) n (fun x hx => ⟨x, hx, .refl⟩) y
  · rintro ⟨x, hx, hxy⟩
    induction hxy with
    | refl =>
      obtain ⟨z, hz, rfl⟩ := exploreBy_covers id next n hx
      exact hz
    | tail _ hstep ih =>
      obtain ⟨z, hz, rfl⟩ := exploreBy_closed id hU hn hs _ ih _ hstep
      exact hz

/-- The start is listed first. -/
theorem explore_singleton (n : Nat) (x : α) : (explore next n [x])[0]? = some x := by
  obtain ⟨rest, hrest⟩ : [x] <+: explore next n [x] := prefix_exploreFrom n [x] [x]
  rw [← hrest]
  rfl

/-- More rounds than there are nodes make no difference. -/
theorem explore_eq_of_le {U : List α} (hU : ∀ x ∈ U, ∀ y ∈ next x, y ∈ U) {n m : Nat}
    (hn : U.length ≤ n) (hm : n ≤ m) {start : List α} (hs : ∀ x ∈ start, x ∈ U) :
    explore next m start = explore next n start := by
  obtain ⟨k, rfl⟩ := Nat.exists_eq_add_of_le hm
  exact exploreFrom_add n k (List.Subset.refl _) (exploreBy_closed id hU hn hs)

/-! ## Explorations of matching graphs -/

variable {R : α → β → Prop}

/-- Matching nodes stand at the same position in matching lists. -/
theorem idxOf_eq_of_forall₂ (hR : Relator.BiUnique R) {xs : List α} {ys : List β}
    (h : List.Forall₂ R xs ys) {x : α} {y : β} (hxy : R x y) : xs.idxOf x = ys.idxOf y := by
  induction h with
  | nil => rfl
  | cons hz _ ih =>
    rw [List.idxOf_cons, List.idxOf_cons, ih]
    congr 1
    exact Bool.eq_iff_iff.mpr (by simpa using Relator.rel_eq hR hz hxy)

theorem mem_iff_of_forall₂ (hR : Relator.BiUnique R) {xs : List α} {ys : List β}
    (h : List.Forall₂ R xs ys) {x : α} {y : β} (hxy : R x y) : x ∈ xs ↔ y ∈ ys := by
  rw [← List.idxOf_lt_length_iff, ← List.idxOf_lt_length_iff, idxOf_eq_of_forall₂ hR h hxy,
    h.length_eq]

theorem forall₂_fresh (hR : Relator.BiUnique R) {found xs : List α}
    {found' ys : List β} (hf : List.Forall₂ R found found') (hxs : List.Forall₂ R xs ys) :
    List.Forall₂ R (fresh id found xs) (fresh id found' ys) := by
  induction hxs generalizing found found' with
  | nil => exact .nil
  | @cons x y _ _ hxy _ ih =>
    have hmem : id x ∈ found.map id ↔ id y ∈ found'.map id := by
      simpa using mem_iff_of_forall₂ hR hf hxy
    by_cases hx : id x ∈ found.map id
    · rw [fresh_cons_of_mem hx, fresh_cons_of_mem (hmem.mp hx)]
      exact ih hf
    · rw [fresh_cons_of_not_mem hx, fresh_cons_of_not_mem fun hy => hx (hmem.mpr hy)]
      exact .cons hxy (ih (.cons hxy hf))

theorem forall₂_exploreFrom (hR : Relator.BiUnique R)
    (hnext : ∀ x y, R x y → List.Forall₂ R (next x) (next' y)) (n : Nat) {found level : List α}
    {found' level' : List β} (hf : List.Forall₂ R found found') (hl : List.Forall₂ R level level') :
    List.Forall₂ R (exploreFrom id next n found level) (exploreFrom id next' n found' level') := by
  induction n generalizing found found' level level' with
  | zero => exact hf
  | succ n ih =>
    have hnew := forall₂_fresh hR hf (List.rel_flatMap hl fun x y => hnext x y)
    rw [exploreFrom_succ, exploreFrom_succ]
    exact ih (List.rel_append hf hnew) hnew

/-- Graphs that match node by node and step by step are explored in the same order. -/
theorem forall₂_explore (hR : Relator.BiUnique R)
    (hnext : ∀ x y, R x y → List.Forall₂ R (next x) (next' y)) (n : Nat) {x : α} {y : β}
    (hxy : R x y) : List.Forall₂ R (explore next n [x]) (explore next' n [y]) :=
  forall₂_exploreFrom hR hnext n (forall₂_fresh hR .nil (.cons hxy .nil))
    (forall₂_fresh hR .nil (.cons hxy .nil))

end Nodes

end Acceptors
