import Acceptors.Proofs.Exploration
import Acceptors.Sorted.Set
import Mathlib.Data.Set.Function

/-!
The order of discovery. Where steps lead one level deeper and put the nodes that they lead to in an
order of their own, exploration lists nodes in that order (`pairwise_exploreBy`), and the node that
it keeps for a key is the first of all that have this key and that a step from a listed node leads
to (`first_exploreBy`). Nodes that are renamed in the order in which they are found are found in the
same order under their new names, though the steps from each node may be listed in another order
(`explore_map`). A queue finds them in this order one by one (`lists_explore`).
-/

namespace Acceptors

variable {α κ : Type} [DecidableEq κ] {key : α → κ} {next : α → List α} {depth : α → Nat}
  {R : α → α → Prop}

theorem fresh_sublist (key : α → κ) (found xs : List α) : (fresh key found xs).Sublist xs := by
  induction xs generalizing found with
  | nil => exact .slnil
  | cons x rest ih =>
    by_cases hx : key x ∈ found.map key
    · rw [fresh_cons_of_mem hx]
      exact (ih found).cons x
    · rw [fresh_cons_of_not_mem hx]
      exact (ih (x :: found)).cons_cons x

/-- Of an ordered list a fresh member comes before all others with its key. -/
theorem first_fresh {found xs : List α} (hxs : xs.Pairwise R) {z y : α}
    (hz : z ∈ fresh key found xs) (hy : y ∈ xs) (hkey : key z = key y) : z = y ∨ R z y := by
  induction xs generalizing found with
  | nil => cases hy
  | cons x rest ih =>
    obtain ⟨hx, hrest⟩ := List.pairwise_cons.mp hxs
    by_cases hmem : key x ∈ found.map key
    · rw [fresh_cons_of_mem hmem] at hz
      obtain ⟨x', hx', hsame⟩ := List.mem_map.mp hmem
      rcases List.mem_cons.mp hy with rfl | hy
      · exact absurd (hsame.trans hkey.symm) ((mem_fresh hz).2 x' hx')
      · exact ih hrest hz hy
    · rw [fresh_cons_of_not_mem hmem] at hz
      rcases List.mem_cons.mp hz with rfl | hz
      · exact (List.mem_cons.mp hy).imp Eq.symm (hx y)
      · rcases List.mem_cons.mp hy with rfl | hy
        · exact absurd hkey.symm ((mem_fresh hz).2 y List.mem_cons_self)
        · exact ih hrest hz hy

/-- Steps lead one level deeper, deeper nodes come later, and the nodes that steps lead to are in
order where the nodes that the steps start from are. -/
structure Graded (next : α → List α) (depth : α → Nat) (R : α → α → Prop) : Prop where
  deeper : ∀ x, ∀ y ∈ next x, depth y = depth x + 1
  later : ∀ x y, depth x < depth y → R x y
  inside : ∀ x, (next x).Pairwise R
  across : ∀ x y, R x y → ∀ x' ∈ next x, ∀ y' ∈ next y, R x' y'

theorem Graded.pairwise_flatMap (h : Graded next depth R) {level : List α}
    (hlevel : level.Pairwise R) :
    (level.flatMap next).Pairwise R :=
  List.pairwise_flatMap.mpr ⟨fun x _ => h.inside x, hlevel.imp fun hxy => h.across _ _ hxy⟩

/-- What holds of the nodes found, the last of which are those at depth `n`. -/
structure Discovered (key : α → κ) (next : α → List α) (depth : α → Nat) (R : α → α → Prop)
    (n : Nat) (found level : List α) : Prop where
  explored : Explored key next found level
  depth_le : ∀ x ∈ found, depth x ≤ n
  depth_eq : ∀ x ∈ level, depth x = n
  ordered : found.Pairwise R
  level_ordered : level.Pairwise R
  first : ∀ z ∈ found, ∀ x ∈ found, ∀ y ∈ next x, key z = key y → z = y ∨ R z y

/-- One round of exploration. -/
theorem Discovered.step (hnext : Graded next depth R) {n : Nat} {found level : List α}
    (h : Discovered key next depth R n found level) :
    Discovered key next depth R (n + 1) (found ++ fresh key found (level.flatMap next))
      (fresh key found (level.flatMap next)) := by
  have hcandidates := hnext.pairwise_flatMap h.level_ordered
  have hdepth : ∀ x ∈ fresh key found (level.flatMap next), depth x = n + 1 := by
    intro x hx
    obtain ⟨z, hz, hzx⟩ := List.mem_flatMap.mp (mem_fresh hx).1
    rw [hnext.deeper z x hzx, h.depth_eq z hz]
  have hordered := hcandidates.sublist (fresh_sublist key found (level.flatMap next))
  refine ⟨h.explored.round, ?_, hdepth, ?_, hordered, ?_⟩
  · intro x hx
    rcases List.mem_append.mp hx with hx | hx
    · exact Nat.le_succ_of_le (h.depth_le x hx)
    · exact Nat.le_of_eq (hdepth x hx)
  · refine List.pairwise_append.mpr ⟨h.ordered, hordered, fun x hx y hy => hnext.later x y ?_⟩
    rw [hdepth y hy]
    exact Nat.lt_succ_of_le (h.depth_le x hx)
  · intro z hz x hx y hy hkey
    rcases List.mem_append.mp hx with hx | hx
    · rcases List.mem_append.mp hz with hz | hz
      · exact h.first z hz x hx y hy hkey
      · by_cases hlevel : x ∈ level
        · exact first_fresh hcandidates hz (List.mem_flatMap.mpr ⟨x, hlevel, hy⟩) hkey
        · -- The key was found before, so that no fresh node has it.
          obtain ⟨z', hz', hsame⟩ := h.explored x hx hlevel y hy
          exact absurd (hsame.trans hkey.symm) ((mem_fresh hz).2 z' hz')
    · -- The step leads below all nodes found so far.
      refine .inr (hnext.later z y ?_)
      have hy := hnext.deeper x y hy
      have hx := hdepth x hx
      rcases List.mem_append.mp hz with hz | hz
      · have hz := h.depth_le z hz
        omega
      · have hz := hdepth z hz
        omega

theorem Discovered.exploreFrom (hnext : Graded next depth R) (rounds : Nat) {n : Nat}
    {found level : List α} (h : Discovered key next depth R n found level) :
    ∃ m last, Discovered key next depth R m (exploreFrom key next rounds found level) last := by
  induction rounds generalizing n found level with
  | zero => exact ⟨n, level, h⟩
  | succ rounds ih =>
    rw [exploreFrom_succ]
    exact ih (h.step hnext)

theorem discovered_exploreBy (key : α → κ) (hnext : Graded next depth R) (rounds : Nat) (x : α) :
    ∃ m last, Discovered key next depth R m (exploreBy key next rounds [x]) last := by
  have hstart : Discovered key next depth R (depth x) [x] [x] := by
    refine ⟨fun y hy hnot => absurd hy hnot, by simp, by simp, List.pairwise_singleton R x,
      List.pairwise_singleton R x, fun z hz y hy y' hy' _ => .inr (hnext.later z y' ?_)⟩
    rw [hnext.deeper y y' hy', List.mem_singleton.mp hz, List.mem_singleton.mp hy]
    exact Nat.lt_succ_self _
  exact hstart.exploreFrom hnext rounds

/-- Nodes are listed in order. -/
theorem pairwise_exploreBy (key : α → κ) (hnext : Graded next depth R) (rounds : Nat) (x : α) :
    (exploreBy key next rounds [x]).Pairwise R := by
  obtain ⟨_, _, h⟩ := discovered_exploreBy key hnext rounds x
  exact h.ordered

/-- A listed node comes before all others with its key that a step from a listed node leads to. -/
theorem first_exploreBy (hnext : Graded next depth R) {rounds : Nat} {start x y z : α}
    (hz : z ∈ exploreBy key next rounds [start]) (hx : x ∈ exploreBy key next rounds [start])
    (hy : y ∈ next x) (hkey : key z = key y) : z = y ∨ R z y := by
  obtain ⟨_, _, h⟩ := discovered_exploreBy key hnext rounds start
  exact h.first z hz x hx y hy hkey

/-! ## Renaming in the order of discovery -/

section Renaming

open Std

variable {α β : Type} [Ord β] {f : α → β}

/-- A list under new names, made of groups each of which is put in the order of the new names. -/
inductive Renamed (f : α → β) : List α → List β → Prop
  | group {xs : List α} {ys : List β} (hys : ys.Pairwise fun a b => compare a b = .lt)
      (hmem : ∀ y, y ∈ ys ↔ ∃ x ∈ xs, f x = y) : Renamed f xs ys
  | append {xs xs' : List α} {ys ys' : List β} (h : Renamed f xs ys) (h' : Renamed f xs' ys') :
      Renamed f (xs ++ xs') (ys ++ ys')

theorem Renamed.flatMap {ι : Type} {is : List ι} {g : ι → List α} {g' : ι → List β}
    (h : ∀ i ∈ is, Renamed f (g i) (g' i)) : Renamed f (is.flatMap g) (is.flatMap g') := by
  induction is with
  | nil => exact .group .nil (by simp)
  | cons i is ih =>
    rw [List.flatMap_cons, List.flatMap_cons]
    exact .append (h i List.mem_cons_self) (ih fun j hj => h j (List.mem_cons_of_mem i hj))

variable [TransOrd β] [LawfulEqOrd β] [DecidableEq α] [DecidableEq β] {next : α → List α}
    {next' : β → List β}
  {S : Set α}

/-- Where the new names of what is fresh ascend, they are what is fresh among the new names. -/
theorem Renamed.fresh_eq {xs : List α} {ys : List β} (h : Renamed f xs ys) (hf : Set.InjOn f S)
    {found : List α} (hfound : ∀ x ∈ found, x ∈ S) (hxs : ∀ x ∈ xs, x ∈ S)
    (hordered : ((fresh id found xs).map f).Pairwise fun a b => compare a b = .lt) :
    fresh id (found.map f) ys = (fresh id found xs).map f := by
  induction h generalizing found with
  | @group xs ys hys hmem =>
    have hold {x : α} (hx : x ∈ xs) : f x ∈ found.map f ↔ x ∈ found := by
      rw [List.mem_map]
      constructor
      · rintro ⟨z, hz, heq⟩
        exact hf (hfound z hz) (hxs x hx) heq ▸ hz
      · exact fun h => ⟨x, h, rfl⟩
    refine SortedSet.eq_of_ascending (hys.sublist (fresh_sublist _ _ _)) hordered fun y => ?_
    rw [mem_fresh_id, hmem]
    constructor
    · rintro ⟨⟨x, hx, rfl⟩, hnew⟩
      exact List.mem_map_of_mem (mem_fresh_id.mpr ⟨hx, fun h => hnew ((hold hx).mpr h)⟩)
    · intro hy
      obtain ⟨x, hfresh, rfl⟩ := List.mem_map.mp hy
      obtain ⟨hx, hnew⟩ := mem_fresh_id.mp hfresh
      exact ⟨⟨x, hx, rfl⟩, fun h => hnew ((hold hx).mp h)⟩
  | @append xs xs' ys ys' _ _ ih ih' =>
    have hxs' := List.forall_mem_append.mp hxs
    rw [fresh_append, List.map_append] at hordered
    obtain ⟨hfirst, hsecond, _⟩ := List.pairwise_append.mp hordered
    have hfound' : ∀ x ∈ found ++ fresh id found xs, x ∈ S :=
      List.forall_mem_append.mpr ⟨hfound, fun x hx => hxs'.1 x (mem_fresh hx).1⟩
    rw [fresh_append, fresh_append, ih hfound hxs'.1 hfirst, ← List.map_append,
      ih' hfound' hxs'.2 hsecond, List.map_append]

/-- Where the new names ascend in the order in which the nodes are found, exploration under the new
names finds them in this order. -/
theorem exploreFrom_map (hf : Set.InjOn f S) (hclosed : ∀ x ∈ S, ∀ y ∈ next x, y ∈ S)
    (hnext : ∀ x ∈ S, Renamed f (next x) (next' (f x))) (n : Nat) {found level : List α}
    (hfound : ∀ x ∈ found, x ∈ S) (hlevel : ∀ x ∈ level, x ∈ S)
    (hordered : ((exploreFrom id next n found level).map f).Pairwise fun a b => compare a b = .lt) :
    exploreFrom id next' n (found.map f) (level.map f) =
      (exploreFrom id next n found level).map f := by
  induction n generalizing found level with
  | zero => rfl
  | succ n ih =>
    have hcandidates : ∀ y ∈ level.flatMap next, y ∈ S := fun y hy => by
      obtain ⟨x, hx, hxy⟩ := List.mem_flatMap.mp hy
      exact hclosed x (hlevel x hx) y hxy
    have hrenamed : Renamed f (level.flatMap next) ((level.map f).flatMap next') := by
      rw [List.flatMap_map]
      exact .flatMap fun x hx => hnext x (hlevel x hx)
    rw [exploreFrom_succ] at hordered ⊢
    rw [exploreFrom_succ]
    have hnew : ∀ y ∈ fresh id found (level.flatMap next), y ∈ S := fun y hy =>
      hcandidates y (mem_fresh hy).1
    have hsofar := hordered.sublist ((prefix_exploreFrom n _ _).map f).sublist
    rw [List.map_append] at hsofar
    rw [hrenamed.fresh_eq hf hfound hcandidates (List.pairwise_append.mp hsofar).2.1,
      ← List.map_append]
    exact ih (List.forall_mem_append.mpr ⟨hfound, hnew⟩) hnew hordered

theorem explore_map (hf : Set.InjOn f S) (hclosed : ∀ x ∈ S, ∀ y ∈ next x, y ∈ S)
    (hnext : ∀ x ∈ S, Renamed f (next x) (next' (f x))) (n : Nat) {x : α} (hx : x ∈ S)
    (hordered : ((explore next n [x]).map f).Pairwise fun a b => compare a b = .lt) :
    explore next' n [f x] = (explore next n [x]).map f :=
  exploreFrom_map hf hclosed hnext n (by simpa [fresh] using hx)
    (by simpa [fresh] using hx) hordered

end Renaming

/-! ## Nodes in a queue -/

/-- The nodes found, and the number of those that have been taken up. -/
structure Queue (α : Type) where
  order : List α
  position : Nat

namespace Queue

variable {α : Type} [DecidableEq α] {next : α → List α} {before level : List α}

/-- A node that is found for the first time joins the queue. -/
def visit (order : List α) (y : α) : List α := if y ∈ order then order else order ++ [y]

/-- Takes up the next node, unless all have been taken up. -/
def step (next : α → List α) (b : Queue α) : Queue α :=
  match b.order[b.position]? with
  | some x => ⟨(next x).foldl visit b.order, b.position + 1⟩
  | none => b

/-- As many steps as the list has members take up all nodes, no fewer do, and the list is what is
found. -/
structure Lists (next : α → List α) (x : α) (xs : List α) : Prop where
  runs : ∀ k < xs.length, ((step next)^[k] ⟨[x], 0⟩).position <
    ((step next)^[k] ⟨[x], 0⟩).order.length
  ends : (step next)^[xs.length] ⟨[x], 0⟩ = ⟨xs, xs.length⟩

theorem foldl_visit (order ys : List α) : ys.foldl visit order = order ++ fresh id order ys := by
  induction ys generalizing order with
  | nil => simp [fresh]
  | cons y ys ih =>
    rw [List.foldl_cons, visit]
    by_cases hy : y ∈ order
    · rw [if_pos hy, ih, fresh_cons_of_mem (by simpa using hy)]
    · have hkeys : ∀ k, k ∈ (order ++ [y]).map id ↔ k ∈ (y :: order).map id := fun k => by
        simp [or_comm]
      rw [if_neg hy, ih, fresh_cons_of_not_mem (by simpa using hy), fresh_congr hkeys,
        List.append_assoc]
      rfl

/-- The nodes of a level are taken up one after the other, and the queue grows by what they lead
to. -/
theorem iterate_level (next : α → List α) (before level new : List α) :
    (step next)^[level.length] ⟨before ++ level ++ new, before.length⟩ =
      ⟨before ++ level ++ new ++ fresh id (before ++ level ++ new) (level.flatMap next),
        before.length + level.length⟩ := by
  induction level generalizing before new with
  | nil => simp [fresh]
  | cons x level ih =>
    have hstep : step next ⟨before ++ x :: level ++ new, before.length⟩ =
        ⟨(before ++ [x]) ++ level ++ (new ++ fresh id (before ++ x :: level ++ new) (next x)),
          (before ++ [x]).length⟩ := by
      simp [step, foldl_visit]
    rw [List.length_cons, Function.iterate_succ_apply, hstep, ih, List.flatMap_cons, fresh_append]
    simp [Nat.add_comm, Nat.add_left_comm]

/-- Level after level the queue finds what exploration finds, in the same order. -/
theorem iterate_exploreFrom (n : Nat) {xs : List α}
    (hxs : exploreFrom id next n (before ++ level) level = xs)
    (hclosed : ∀ x ∈ xs, ∀ y ∈ next x, y ∈ xs) :
    ∃ k, before.length + k = xs.length ∧
      (step next)^[k] ⟨before ++ level, before.length⟩ = ⟨xs, xs.length⟩ := by
  have hlevel := iterate_level next before level []
  rw [List.append_nil] at hlevel
  induction n generalizing before level with
  | zero =>
    have hfresh : fresh id (before ++ level) (level.flatMap next) = [] := by
      refine List.eq_nil_iff_forall_not_mem.mpr fun y hy => ?_
      obtain ⟨hy, hnot⟩ := mem_fresh_id.mp hy
      obtain ⟨x, hx, hxy⟩ := List.mem_flatMap.mp hy
      have hfound : before ++ level = xs := hxs
      exact hnot (hfound ▸ hclosed x (hfound ▸ List.mem_append_right before hx) y hxy)
    obtain rfl : before ++ level = xs := hxs
    refine ⟨level.length, by simp, ?_⟩
    rw [hlevel, hfresh, List.append_nil, List.length_append]
  | succ n ih =>
    rw [exploreFrom_succ] at hxs
    have hnext :=
      iterate_level next (before ++ level) (fresh id (before ++ level) (level.flatMap next)) []
    rw [List.append_nil] at hnext
    obtain ⟨k, hlength, hk⟩ := ih hxs hnext
    rw [List.length_append, Nat.add_assoc] at hlength
    refine ⟨level.length + k, hlength, ?_⟩
    rw [Nat.add_comm, Function.iterate_add_apply, hlevel, ← List.length_append, hk]

/-- The position is the number of steps made, unless the queue has been at its end before. -/
theorem position_iterate_le (x : α) (k : Nat) : ((step next)^[k] ⟨[x], 0⟩).position ≤ k := by
  induction k with
  | zero => exact le_rfl
  | succ k ih =>
    rw [Function.iterate_succ_apply', step]
    split
    · exact Nat.succ_le_succ ih
    · exact ih.trans k.le_succ

theorem lists_explore {U : List α} (hU : ∀ x ∈ U, ∀ y ∈ next x, y ∈ U) {n : Nat} (hn : U.length ≤ n)
    {x : α} (hx : x ∈ U) : Lists next x (explore next n [x]) := by
  have hclosed : ∀ y ∈ explore next n [x], ∀ z ∈ next y, z ∈ explore next n [x] := by
    intro y hy z hz
    rw [mem_explore hU hn (by simpa using hx)] at hy ⊢
    obtain ⟨w, hw, hwy⟩ := hy
    exact ⟨w, hw, hwy.tail hz⟩
  have hends : (step next)^[(explore next n [x]).length] ⟨[x], 0⟩ =
      ⟨explore next n [x], (explore next n [x]).length⟩ := by
    have hxs : exploreFrom id next n ([] ++ [x]) [x] = explore next n [x] := rfl
    obtain ⟨k, hlength, hk⟩ := iterate_exploreFrom n hxs hclosed
    rw [List.length_nil, Nat.zero_add] at hlength
    exact hlength ▸ hk
  refine ⟨fun k hk => ?_, hends⟩
  by_contra hstuck
  -- A queue at its end stays there, and the end comes with the last step only.
  have hstep : step next ((step next)^[k] ⟨[x], 0⟩) = (step next)^[k] ⟨[x], 0⟩ := by
    rw [step, List.getElem?_eq_none (Nat.not_lt.mp hstuck)]
  have hsplit := Function.iterate_add_apply (step next) ((explore next n [x]).length - k) k ⟨[x], 0⟩
  rw [Function.iterate_fixed hstep, Nat.sub_add_cancel hk.le, hends] at hsplit
  have hposition : (explore next n [x]).length ≤ ((step next)^[k] ⟨[x], 0⟩).position := by
    rw [← hsplit]
  exact absurd (hposition.trans (position_iterate_le x k)) (Nat.not_le.mpr hk)

end Queue

end Acceptors
