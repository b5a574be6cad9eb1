import Acceptors.Proofs.Assembly
import Acceptors.Proofs.Pushdown.Run
import Acceptors.Proofs.Tables
import Mathlib.Algebra.BigOperators.Intervals
import Mathlib.Algebra.Order.BigOperators.Group.List
import Mathlib.Algebra.Order.BigOperators.Group.Finset
import Mathlib.Algebra.Order.Interval.Finset.SuccPred
import Mathlib.Algebra.Ring.GeomSum
import Mathlib.Tactic.GCongr
import Mathlib.Tactic.Ring

/-!
How long a search lasts. What waits and what was not tried yet are counted together, each with the
weight of its position (`potential`). A look at one configuration lowers the count, although it
makes the search forget what was tried later in the input (`potential_expand_lt`). Main statement:
`search_ends`.
-/

namespace Acceptors

namespace Automaton

variable {ε : Type} [Ord ε] {A : Automaton ε}

theorem mem_allEdges_of_mem_next [Std.TransOrd ε] {q : Nat} {s : Symbol} {e : ε}
    (h : e ∈ A.next q s) : (q, s, e) ∈ A.allEdges := by
  unfold next at h
  cases hq : A.states[q]? with
  | none => simp [hq] at h
  | some state =>
    rw [hq] at h
    have hedge : (s, e) ∈ A.edges q := by
      rw [edges, hq]
      exact Table.mem_edges.mpr h
    have hlt : q < A.size := (List.getElem?_eq_some_iff.mp hq).1
    exact List.mem_flatMap.mpr
      ⟨q, List.mem_range.mpr hlt, List.mem_map.mpr ⟨(s, e), hedge, rfl⟩⟩

theorem length_next_le [Std.TransOrd ε] (A : Automaton ε) (q : Nat) (s : Symbol) :
    (A.next q s).length ≤ A.allEdges.length := by
  have hnodup : ((A.next q s).map fun e => (q, s, e)).Nodup :=
    (A.nodup_next q s).map fun _ _ h => (Prod.mk.inj (Prod.mk.inj h).2).2
  have hsubset : (A.next q s).map (fun e => (q, s, e)) ⊆ A.allEdges := by
    intro edge hedge
    obtain ⟨e, he, rfl⟩ := List.mem_map.mp hedge
    exact mem_allEdges_of_mem_next he
  simpa using (hnodup.subperm hsubset).length_le

end Automaton

namespace PushdownAutomaton

open Finset

variable {P : PushdownAutomaton} {w : Word} {c d : Configuration} {p : Nat}

/-- Some parts passed the checks and were assembled to the automaton. -/
def Assembled (P : PushdownAutomaton) : Prop := ∃ p : Parts StackMove, p.assemble = .ok P

theorem Assembled.wellFormed (h : P.Assembled) : P.WellFormed :=
  have ⟨_, hp⟩ := h
  Parts.wellFormed_of_assemble hp

/-! ## Weights -/

/-- How much one configuration can add at all later positions together, per weight of these. -/
def spread (P : PushdownAutomaton) : Nat := P.size * P.size + P.allEdges.length

/-- How many configurations may have to be looked at because of one at this position. -/
def weight (P : PushdownAutomaton) (w : Word) (position : Nat) : Nat :=
  (P.spread + 1) ^ (w.length - position)

/-- The weight of a position is one more than the weights of all later ones, each taken `spread`
times. -/
theorem spread_mul_sum_weight (hp : p ≤ w.length) :
    P.spread * ∑ q ∈ Ioc p w.length, P.weight w q + 1 = P.weight w p := by
  have hsum : ∑ q ∈ Ioc p w.length, P.weight w q =
      ∑ k ∈ range (w.length - p), (P.spread + 1) ^ k := by
    rw [← sum_range_reflect, ← Ico_add_one_add_one_eq_Ioc, sum_Ico_eq_sum_range]
    refine sum_congr (by congr 1; omega) fun k hk => ?_
    rw [weight]
    congr 1
    omega
  rw [hsum, mul_comm, geom_sum_mul_add, weight]

theorem one_le_weight (P : PushdownAutomaton) (w : Word) (p : Nat) : 1 ≤ P.weight w p :=
  Nat.one_le_pow _ _ (Nat.succ_pos _)

/-! ## What was not tried -/

/-- The epsilon moves that are not tried yet, by position, source and target. -/
def untried (P : PushdownAutomaton) (w : Word) (tried : List Trial) : Finset (Nat × Nat × Nat) :=
  (range (w.length + 1) ×ˢ range P.size ×ˢ range P.size).filter fun t => ⟨t.1, t.2.1, t.2.2⟩ ∉ tried

theorem sum_untried_cons {t : Trial} {tried : List Trial} (hposition : t.position ≤ w.length)
    (hsource : t.source < P.size) (htarget : t.target < P.size) (hnew : t ∉ tried) :
    P.weight w t.position + ∑ u ∈ P.untried w (t :: tried), P.weight w u.1 =
      ∑ u ∈ P.untried w tried, P.weight w u.1 := by
  have hmem : (t.position, t.source, t.target) ∈ P.untried w tried := by
    simp [untried, hsource, htarget, hnew]
    omega
  have herase : P.untried w (t :: tried) =
      (P.untried w tried).erase (t.position, t.source, t.target) := by
    ext ⟨position, source, target⟩
    obtain ⟨_, _, _⟩ := t
    simp only [untried, mem_filter, mem_erase, List.mem_cons, not_or, Trial.mk.injEq, ne_eq,
      Prod.mk.injEq]
    tauto
  rw [herase]
  exact add_sum_erase _ (fun u => P.weight w u.1) hmem

/-- What is forgotten stands at later positions. -/
theorem sum_untried_filter_le (tried : List Trial) (p : Nat) :
    ∑ u ∈ P.untried w (tried.filter fun t => decide (t.position ≤ p)), P.weight w u.1 ≤
      ∑ u ∈ P.untried w tried, P.weight w u.1 +
        P.size * P.size * ∑ q ∈ Ioc p w.length, P.weight w q := by
  have hsubset : P.untried w (tried.filter fun t => decide (t.position ≤ p)) ⊆
      P.untried w tried ∪ Ioc p w.length ×ˢ range P.size ×ˢ range P.size := by
    intro ⟨position, source, target⟩ h
    simp only [untried, mem_filter, mem_product, mem_range, List.mem_filter, mem_union, mem_Ioc,
      decide_eq_true_eq] at h ⊢
    by_cases hle : position ≤ p
    · exact .inl ⟨h.1, fun hmem => h.2 ⟨hmem, hle⟩⟩
    · exact .inr ⟨by omega, h.1.2⟩
  have hproduct : ∑ u ∈ Ioc p w.length ×ˢ range P.size ×ˢ range P.size, P.weight w u.1 =
      P.size * P.size * ∑ q ∈ Ioc p w.length, P.weight w q := by
    rw [sum_product, mul_sum]
    simp
  calc ∑ u ∈ P.untried w (tried.filter fun t => decide (t.position ≤ p)), P.weight w u.1
    _ ≤ ∑ u ∈ P.untried w tried ∪ Ioc p w.length ×ˢ range P.size ×ˢ range P.size, P.weight w u.1 :=
      sum_le_sum_of_subset hsubset
    _ ≤ _ := by
      rw [← hproduct, ← sum_union_inter]
      exact Nat.le_add_right _ _

/-! ## What one expansion costs -/

/-- The position and the state of the configuration exist. -/
structure Inside (P : PushdownAutomaton) (w : Word) (c : Configuration) : Prop where
  position : c.position ≤ w.length
  state : c.state < P.size

/-- What waits and what is not tried yet, by weight. -/
def potential (P : PushdownAutomaton) (w : Word) (s : Search) : Nat :=
  (s.pending.map fun c => P.weight w c.position).sum + ∑ u ∈ P.untried w s.tried, P.weight w u.1

theorem length_symbolMoves_le : (P.symbolMoves w c).length ≤ P.allEdges.length := by
  unfold symbolMoves
  split
  · exact Nat.zero_le _
  · rename_i s _
    rw [List.length_map]
    exact (List.length_filter_le _ _).trans (P.length_next_le c.state s)

theorem position_of_mem_symbolMoves (hd : d ∈ P.symbolMoves w c) :
    d.position = c.position + 1 ∧ c.position < w.length := by
  obtain ⟨s, hs, m, _, _, rfl⟩ := mem_symbolMoves.mp hd
  exact ⟨rfl, (List.getElem?_eq_some_iff.mp hs).1⟩

theorem sum_symbolMoves_le :
    ((P.symbolMoves w c).map fun d => P.weight w d.position).sum ≤
      P.allEdges.length * ∑ q ∈ Ioc c.position w.length, P.weight w q := by
  have hweight : ∀ n ∈ (P.symbolMoves w c).map fun d => P.weight w d.position,
      n ≤ ∑ q ∈ Ioc c.position w.length, P.weight w q := by
    intro n hn
    obtain ⟨d, hd, rfl⟩ := List.mem_map.mp hn
    obtain ⟨hposition, hlt⟩ := position_of_mem_symbolMoves hd
    exact single_le_sum (f := P.weight w) (fun _ _ => Nat.zero_le _)
      (mem_Ioc.mpr ⟨by omega, by omega⟩)
  have hsum := List.sum_le_card_nsmul _ _ hweight
  rw [List.length_map, nsmul_eq_mul, Nat.cast_id] at hsum
  exact hsum.trans (Nat.mul_le_mul_right _ length_symbolMoves_le)

/-- An epsilon move that is found takes the place of its trial. -/
theorem sum_epsilonMoves (hc : P.Inside w c) {moves : List StackMove}
    (hmoves : ∀ m ∈ moves, m.target < P.size) (tried : List Trial) :
    ((epsilonMoves c moves tried).1.map fun d => P.weight w d.position).sum +
        ∑ u ∈ P.untried w (epsilonMoves c moves tried).2, P.weight w u.1 =
      ∑ u ∈ P.untried w tried, P.weight w u.1 := by
  induction moves generalizing tried with
  | nil => simp [epsilonMoves]
  | cons m moves ih =>
    have hrest : ∀ m ∈ moves, m.target < P.size := fun n hn => hmoves n (List.mem_cons_of_mem m hn)
    simp only [epsilonMoves]
    split
    · rename_i hnew
      have hfresh : (⟨c.position, c.state, m.target⟩ : Trial) ∉ tried := by
        simpa using (Bool.and_eq_true_iff.mp hnew).2
      have htrial := sum_untried_cons hc.position hc.state (hmoves m List.mem_cons_self) hfresh
      have hih := ih hrest (⟨c.position, c.state, m.target⟩ :: tried)
      simp only [List.map_cons, List.sum_cons, Configuration.fire, Nat.add_zero] at htrial hih ⊢
      omega
    · exact ih hrest tried

theorem inside_start (hP : P.WellFormed) : P.Inside w ⟨0, P.initial, []⟩ where
  position := Nat.zero_le _
  state := hP.1

theorem inside_expand {rest : Search} (hP : P.WellFormed) (hc : P.Inside w c)
    (hrest : ∀ d ∈ rest.pending, P.Inside w d) :
    ∀ d ∈ (P.expand w c rest).pending, P.Inside w d := by
  intro d hd
  simp only [expand, List.mem_append, List.mem_reverse] at hd
  rcases hd with (hd | hd) | hd
  · obtain ⟨m, hm, _, rfl⟩ := of_mem_epsilonMoves hd
    exact ⟨hc.position, hP.2 _ _ m hm⟩
  · obtain ⟨hposition, hlt⟩ := position_of_mem_symbolMoves hd
    obtain ⟨s, _, m, hm, _, rfl⟩ := mem_symbolMoves.mp hd
    exact ⟨by omega, hP.2 _ _ m hm⟩
  · exact hrest d hd

theorem potential_eq {s : Search} {pending : List Configuration} (hs : s.pending = c :: pending) :
    P.potential w s = P.weight w c.position + P.potential w ⟨pending, s.tried⟩ := by
  simp only [potential, hs, List.map_cons, List.sum_cons, Nat.add_assoc]

/-- A look at one configuration lowers the potential. -/
theorem potential_expand_lt {s : Search} {pending : List Configuration} (hP : P.WellFormed)
    (hc : P.Inside w c) (hs : s.pending = c :: pending) :
    P.potential w (P.expand w c ⟨pending, s.tried⟩) < P.potential w s := by
  have hepsilon := sum_epsilonMoves hc (fun m hm => hP.2 c.state .epsilon m hm)
    (s.tried.filter fun t => decide (t.position ≤ c.position))
  have hforgotten := P.sum_untried_filter_le (w := w) s.tried c.position
  have hsymbol := P.sum_symbolMoves_le (w := w) (c := c)
  have hweight := P.spread_mul_sum_weight hc.position
  rw [spread, Nat.add_mul] at hweight
  rw [potential_eq hs]
  simp only [potential, expand, List.map_append, List.map_reverse, List.sum_append,
    List.sum_reverse]
  omega

/-! ## Searches end -/

theorem potential_pos {s : Search} {pending : List Configuration} (hs : s.pending = c :: pending) :
    0 < P.potential w s := by
  rw [potential_eq hs]
  exact Nat.add_pos_left (P.one_le_weight w c.position) _

/-- As much fuel as the potential is enough, under any limit. -/
theorem exists_outcome (limit : Option Nat) (steps : Nat) {fuel : Nat} {s : Search}
    (hP : P.WellFormed) (hs : ∀ c ∈ s.pending, P.Inside w c) (hfuel : P.potential w s ≤ fuel) :
    ∃ o, P.searchFrom w limit fuel steps s = some o ∧ o.steps ≤ steps + P.potential w s := by
  fun_induction P.searchFrom w limit fuel steps s with
  | case1 => exact ⟨_, rfl, Nat.le_add_right _ _⟩
  | case2 => exact ⟨_, rfl, Nat.le_add_right _ _⟩
  | case3 steps s c pending hcons hlimit =>
    exact absurd (potential_pos hcons) (Nat.not_lt.mpr hfuel)
  | case4 steps s c pending hcons hlimit fuel haccepting =>
    exact ⟨_, rfl, Nat.add_le_add_left (potential_pos hcons) steps⟩
  | case5 steps s c pending hcons hlimit fuel haccepting ih =>
    have hc : P.Inside w c := hs c (by simp [hcons])
    have hrest : ∀ d ∈ pending, P.Inside w d := fun d hd => hs d (by simp [hcons, hd])
    have hlt := potential_expand_lt hP hc hcons
    obtain ⟨o, ho, hsteps⟩ := ih (inside_expand hP hc hrest) (by omega)
    exact ⟨o, ho, by omega⟩

theorem potential_start_le (P : PushdownAutomaton) (w : Word) :
    P.potential w P.start ≤ P.searchBound w := by
  have hrange : ∑ q ∈ range (w.length + 1), P.weight w q =
      P.weight w 0 + ∑ q ∈ Ioc 0 w.length, P.weight w q := by
    rw [range_eq_Ico, sum_eq_sum_Ico_succ_bot (Nat.succ_pos _)]
    exact congrArg _ (congrArg (∑ q ∈ ·, P.weight w q) (Ico_add_one_add_one_eq_Ioc 0 w.length))
  have hpotential : P.potential w P.start =
      P.weight w 0 + P.size * P.size * ∑ q ∈ range (w.length + 1), P.weight w q := by
    simp [potential, start, untried, sum_product, mul_sum]
  have hlater := P.spread_mul_sum_weight (Nat.zero_le w.length)
  have hspread : P.size * P.size ≤ P.spread := Nat.le_add_right _ _
  have hmul := Nat.mul_le_mul_right (∑ q ∈ Ioc 0 w.length, P.weight w q) hspread
  calc P.potential w P.start
    _ = P.weight w 0 + (P.size * P.size * P.weight w 0 +
          P.size * P.size * ∑ q ∈ Ioc 0 w.length, P.weight w q) := by
      rw [hpotential, hrange, Nat.mul_add]
    _ ≤ P.weight w 0 + (P.spread * P.weight w 0 + P.weight w 0) := by
      gcongr
      omega
    _ = P.weight w 0 * (P.spread + 2) := by ring
    _ ≤ (P.spread + 2) ^ w.length * (P.spread + 2) ^ 2 := by
      gcongr
      · exact Nat.pow_le_pow_left (Nat.le_succ _) _
      · exact Nat.le_self_pow (by decide) _
    _ = P.searchBound w := (pow_add _ _ _).symm

/-- More fuel makes no difference to a search that ends. -/
theorem searchFrom_mono {limit : Option Nat} {fuel more steps : Nat} {s : Search} {o : Outcome}
    (h : P.searchFrom w limit fuel steps s = some o) (hle : fuel ≤ more) :
    P.searchFrom w limit more steps s = some o := by
  fun_induction P.searchFrom w limit fuel steps s generalizing more with
  | case1 fuel steps s hnil =>
    rw [searchFrom]
    simpa only [hnil] using h
  | case2 fuel steps s c pending hcons hlimit =>
    rw [searchFrom]
    simpa only [hcons, hlimit, if_true] using h
  | case3 => cases h
  | case4 steps s c pending hcons hlimit fuel haccepting =>
    cases more with
    | zero => exact absurd hle (Nat.not_succ_le_zero fuel)
    | succ more =>
      rw [searchFrom]
      simpa only [hcons, if_neg hlimit, if_pos haccepting] using h
  | case5 steps s c pending hcons hlimit fuel haccepting ih =>
    cases more with
    | zero => exact absurd hle (Nat.not_succ_le_zero fuel)
    | succ more =>
      have hrest := ih h (Nat.le_of_succ_le_succ hle)
      rw [searchFrom]
      simpa only [hcons, if_neg hlimit, if_neg haccepting] using hrest

theorem exhausted_eq_false {fuel steps : Nat} {s : Search} {o : Outcome}
    (h : P.searchFrom w none fuel steps s = some o) : o.exhausted = false := by
  have hkeeps : P.Keeps w fun _ => True := fun _ _ _ _ _ _ => trivial
  obtain ⟨_, _, hending⟩ := hkeeps.exists_ending trivial h
  cases hending with
  | emptied | accepted => rfl
  | stopped hlimit => cases hlimit

/-- The bound is enough: what the search returns is what it found, and it looked at no more than the
bound. -/
theorem searchFrom_searchBound (hP : P.Assembled) (w : Word) (limit : Option Nat) :
    P.searchFrom w limit (P.searchBound w) 0 P.start = some (P.search w limit) ∧
      (P.search w limit).steps ≤ P.searchBound w := by
  have hstart : ∀ c ∈ P.start.pending, P.Inside w c := by
    simpa [start] using inside_start hP.wellFormed
  have hbound := P.potential_start_le w
  obtain ⟨o, ho, hsteps⟩ := exists_outcome limit 0 hP.wellFormed hstart hbound
  rw [search, ho, Option.getD_some]
  exact ⟨rfl, by omega⟩

/-- Without a limit the search comes to a verdict within the bound, and more fuel changes
nothing. -/
theorem search_ends (hP : P.Assembled) (w : Word) :
    (∀ fuel, P.searchBound w ≤ fuel → P.searchFrom w none fuel 0 P.start = some (P.search w none)) ∧
      (P.search w none).exhausted = false ∧ (P.search w none).steps ≤ P.searchBound w := by
  obtain ⟨hsearch, hsteps⟩ := searchFrom_searchBound hP w none
  exact ⟨fun fuel hfuel => searchFrom_mono hsearch hfuel, exhausted_eq_false hsearch, hsteps⟩

/-- An epsilon move that comes back to its state and pushes each time, beside one that reads and
pops. -/
def pushing : PushdownAutomaton :=
  let a := Symbol.literal "a"
  let x := Symbol.literal "x"
  ⟨0, [⟨0, "", false, Table.ofEdges [(.epsilon, ⟨0, some x, none⟩), (a, ⟨0, none, some x⟩),
      (a, ⟨1, none, some x⟩)]⟩, ⟨1, "", true, Table.ofEdges [(.epsilon, ⟨0, some x, none⟩)]⟩],
    SortedSet.ofList [a]⟩

theorem assembled_pushing : pushing.Assembled := ⟨pushing.parts, rfl⟩

theorem search_ends_pushing :
    pushing.Assembled ∧ (pushing.search (Word.ofText "aab") none).exhausted = false ∧
      (pushing.search (Word.ofText "aab") none).steps ≤ 100000 := by
  obtain ⟨_, hverdict, hsteps⟩ := search_ends assembled_pushing (Word.ofText "aab")
  exact ⟨assembled_pushing, hverdict, hsteps.trans (by decide)⟩

end PushdownAutomaton

end Acceptors
