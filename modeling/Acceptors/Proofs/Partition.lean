import Acceptors.Exploration
import Acceptors.Proofs.Exploration
import Acceptors.Proofs.Tables
import Mathlib.Data.Finset.Card

/-!
Partition refinement ends with a partition that another round leaves as it is. Blocks are numbered
by first occurrence, so partitions that agree on which members belong together are equal arrays
(`rank_distinct_eq`); rounds that split no block therefore change nothing. Main statements:
`round_refine`, and `refine_preserves` for what rounds keep.
-/

namespace Acceptors.Partition

variable {κ μ : Type} [DecidableEq κ] [DecidableEq μ]

/-! ## Distinct keys and their ranks -/

theorem mem_distinct {ks : List κ} {k : κ} : k ∈ distinct ks ↔ k ∈ ks := mem_fresh_nil

theorem nodup_distinct (ks : List κ) : (distinct ks).Nodup := by
  have h := nodup_fresh (id : κ → κ) [] ks
  rwa [List.map_id] at h

theorem fresh_eq_self {found ks : List κ} (h : ∀ k ∈ ks, k ∉ found) (hks : ks.Nodup) :
    fresh id found ks = ks := by
  induction ks generalizing found with
  | nil => rfl
  | cons k ks ih =>
    obtain ⟨hk, hks⟩ := List.nodup_cons.mp hks
    have hnew : id k ∉ found.map id := by simpa using h k List.mem_cons_self
    rw [fresh_cons_of_not_mem hnew, ih (fun l hl hmem => ?_) hks]
    rcases List.mem_cons.mp hmem with rfl | hmem
    · exact hk hl
    · exact h l (List.mem_cons_of_mem k hl) hmem

theorem distinct_eq_self {ks : List κ} (h : ks.Nodup) : distinct ks = ks :=
  fresh_eq_self (fun _ _ => List.not_mem_nil) h

theorem length_distinct (ks : List κ) : (distinct ks).length = ks.toFinset.card := by
  rw [← List.toFinset_card_of_nodup (nodup_distinct ks)]
  congr 1
  ext k
  simp [mem_distinct]

theorem length_distinct_le (ks : List κ) : (distinct ks).length ≤ ks.length := by
  rw [length_distinct]
  exact List.toFinset_card_le ks

theorem toFinset_map (f : κ → μ) (ks : List κ) : (ks.map f).toFinset = ks.toFinset.image f := by
  ext l
  simp

theorem length_distinct_map_le (f : κ → μ) (ks : List κ) :
    (distinct (ks.map f)).length ≤ (distinct ks).length := by
  rw [length_distinct, length_distinct, toFinset_map]
  exact Finset.card_image_le

/-- A map that keeps the number of distinct keys tells all keys apart. -/
theorem injOn_of_length_distinct_map {f : κ → μ} {ks : List κ}
    (h : (distinct (ks.map f)).length = (distinct ks).length) {k l : κ} (hk : k ∈ ks) (hl : l ∈ ks)
    (hf : f k = f l) : k = l := by
  rw [length_distinct, length_distinct, toFinset_map] at h
  exact Finset.card_image_iff.mp h (by simpa using hk) (by simpa using hl) hf

/-- Ranks depend only on which keys are equal. -/
theorem rank_distinct_eq {R : κ → μ → Prop} (hR : Relator.BiUnique R) {ks : List κ} {ls : List μ}
    (h : List.Forall₂ R ks ls) : rank (distinct ks) ks = rank (distinct ls) ls := by
  have hfound : List.Forall₂ R (distinct ks) (distinct ls) := forall₂_fresh hR .nil h
  unfold rank
  congr 1
  have hidx : List.Forall₂ (· = ·) (ks.map fun k => (distinct ks).idxOf k)
      (ls.map fun l => (distinct ls).idxOf l) := by
    rw [List.forall₂_map_left_iff, List.forall₂_map_right_iff]
    exact h.imp fun k l hkl => idxOf_eq_of_forall₂ hR hfound hkl
  exact List.forall₂_eq_eq_eq ▸ hidx

/-- The number of a key. -/
def Ranks (ks : List κ) (i : Nat) (k : κ) : Prop := k ∈ ks ∧ i = (distinct ks).idxOf k

theorem biUnique_ranks (ks : List κ) : Relator.BiUnique (Ranks ks) := by
  constructor
  · rintro i j k ⟨_, rfl⟩ ⟨_, rfl⟩
    rfl
  · rintro i k l ⟨hk, rfl⟩ ⟨hl, h⟩
    exact (List.idxOf_inj (mem_distinct.mpr hk)).mp h

theorem forall₂_rank (ks : List κ) :
    List.Forall₂ (Ranks ks) (rank (distinct ks) ks).toList ks := by
  unfold rank
  rw [List.toList_toArray, List.forall₂_map_left_iff, List.forall₂_same]
  exact fun k hk => ⟨hk, rfl⟩

/-- Blocks are numbered by first occurrence. -/
def Ranked (blocks : Array Nat) : Prop := rank (distinct blocks.toList) blocks.toList = blocks

theorem ranked_rank (ks : List κ) : Ranked (rank (distinct ks) ks) :=
  rank_distinct_eq (biUnique_ranks ks) (forall₂_rank ks)

theorem length_distinct_rank (ks : List κ) :
    (distinct (rank (distinct ks) ks).toList).length = (distinct ks).length :=
  (forall₂_fresh (biUnique_ranks ks) .nil (forall₂_rank ks)).length_eq

theorem blockOf_rank_eq_iff {ks : List κ} {p q : Nat} (hp : p < ks.length) (hq : q < ks.length) :
    blockOf (rank (distinct ks) ks) p = blockOf (rank (distinct ks) ks) q ↔ ks[p] = ks[q] := by
  have hblock : ∀ i (hi : i < ks.length),
      blockOf (rank (distinct ks) ks) i = (distinct ks).idxOf ks[i] := by
    intro i hi
    simp [blockOf, rank, hi]
  rw [hblock p hp, hblock q hq, List.idxOf_inj (mem_distinct.mpr (List.getElem_mem hp))]

/-! ## Rounds -/

variable {signature : (Nat → Nat) → Nat → κ} {blocks : Array Nat}

omit [DecidableEq κ] in
theorem map_fst_keys (signature : (Nat → Nat) → Nat → κ) (blocks : Array Nat) :
    (keys signature blocks).map (·.1) = blocks.toList := by
  apply List.ext_getElem
  · simp [keys]
  · intro q hq _
    have hlt : q < blocks.size := by simpa [keys] using hq
    simp [keys, blockOf, hlt]

theorem size_round : (round signature blocks).2.size = blocks.size := by
  simp [round, rank, keys]

/-- A round puts two members into one block if and only if they were in one block and have one
signature. -/
theorem blockOf_round_eq_iff {p q : Nat} (hp : p < blocks.size) (hq : q < blocks.size) :
    blockOf (round signature blocks).2 p = blockOf (round signature blocks).2 q ↔
      blockOf blocks p = blockOf blocks q ∧
        signature (blockOf blocks) p = signature (blockOf blocks) q := by
  have hlen : (keys signature blocks).length = blocks.size := by simp [keys]
  rw [round, blockOf_rank_eq_iff (hlen.symm ▸ hp) (hlen.symm ▸ hq)]
  simp [keys]

theorem ranked_round : Ranked (round signature blocks).2 := ranked_rank _

theorem length_distinct_round (signature : (Nat → Nat) → Nat → κ) (blocks : Array Nat) :
    (distinct (round signature blocks).2.toList).length = (round signature blocks).1 :=
  length_distinct_rank _

theorem le_round (signature : (Nat → Nat) → Nat → κ) (blocks : Array Nat) :
    (distinct blocks.toList).length ≤ (round signature blocks).1 := by
  have h := length_distinct_map_le (·.1) (keys signature blocks)
  rwa [map_fst_keys] at h

theorem round_le_size (signature : (Nat → Nat) → Nat → κ) (blocks : Array Nat) :
    (round signature blocks).1 ≤ blocks.size := by
  have h := length_distinct_le (keys signature blocks)
  rwa [keys, List.length_map, List.length_range] at h

/-- A round that leaves the number of blocks unchanged splits none. -/
theorem round_eq_of_length (hr : Ranked blocks)
    (h : (round signature blocks).1 = (distinct blocks.toList).length) :
    (round signature blocks).2 = blocks := by
  have hkeys : List.Forall₂ (fun k b => k ∈ keys signature blocks ∧ k.1 = b)
      (keys signature blocks) blocks.toList := by
    rw [← map_fst_keys signature blocks, List.forall₂_map_right_iff, List.forall₂_same]
    exact fun k hk => ⟨hk, rfl⟩
  have hR : Relator.BiUnique fun (k : Nat × κ) b => k ∈ keys signature blocks ∧ k.1 = b := by
    constructor
    · rintro k l b ⟨hk, hkb⟩ ⟨hl, hlb⟩
      have hlen : (distinct ((keys signature blocks).map (·.1))).length =
          (distinct (keys signature blocks)).length := by
        rw [map_fst_keys]
        exact h.symm
      exact injOn_of_length_distinct_map hlen hk hl (hkb.trans hlb.symm)
    · rintro k b c ⟨_, rfl⟩ ⟨_, rfl⟩
      rfl
  exact (rank_distinct_eq hR hkeys).trans hr

/-! ## Refinement -/

/-- Refinement keeps what every round keeps. -/
theorem refineFrom_preserves {P : Array Nat → Prop}
    (hround : ∀ blocks, P blocks → P (round signature blocks).2) (rounds count : Nat)
    (h : P blocks) : P (refineFrom signature rounds count blocks) := by
  induction rounds generalizing blocks count with
  | zero => exact h
  | succ rounds ih =>
    unfold refineFrom
    dsimp only
    split
    · exact hround blocks h
    · exact ih _ (hround blocks h)

theorem refine_preserves (signature : (Nat → Nat) → Nat → κ) (blocks : Array Nat)
    {P : Array Nat → Prop}
    (hround : ∀ blocks, P blocks → P (round signature blocks).2) (h : P blocks) :
    P (refine signature blocks) :=
  refineFrom_preserves hround _ _ h

theorem size_refine (signature : (Nat → Nat) → Nat → κ) (blocks : Array Nat) :
    (refine signature blocks).size = blocks.size :=
  refine_preserves signature blocks (P := fun refined => refined.size = blocks.size)
    (fun _ h => size_round.trans h) rfl

/-- With rounds for every member that is not yet alone, refinement ends where no round changes
anything. -/
theorem refineFrom_fixed (rounds : Nat) (hr : Ranked blocks)
    (hn : blocks.size ≤ rounds + (distinct blocks.toList).length) :
    Ranked (refineFrom signature rounds (distinct blocks.toList).length blocks) ∧
      (round signature (refineFrom signature rounds (distinct blocks.toList).length blocks)).2 =
        refineFrom signature rounds (distinct blocks.toList).length blocks := by
  have hle := le_round signature blocks
  have hsize := round_le_size signature blocks
  induction rounds generalizing blocks with
  | zero =>
    -- Every member is alone in its block.
    have h : (round signature blocks).2 = blocks := round_eq_of_length hr (by omega)
    exact ⟨hr, h⟩
  | succ rounds ih =>
    unfold refineFrom
    dsimp only
    split
    · rename_i hstop
      rw [round_eq_of_length hr hstop]
      exact ⟨hr, round_eq_of_length hr hstop⟩
    · rename_i hgo
      have hlen := length_distinct_round signature blocks
      rw [← hlen]
      exact ih ranked_round (by rw [size_round]; omega) (le_round _ _) (round_le_size _ _)

/-- The refined blocks are numbered by first occurrence, and one more round leaves them as they
are. -/
theorem round_refine (signature : (Nat → Nat) → Nat → κ) (blocks : Array Nat) :
    Ranked (refine signature blocks) ∧
      (round signature (refine signature blocks)).2 = refine signature blocks := by
  have hlen := length_distinct_round signature blocks
  unfold refine refineFrom
  dsimp only
  split
  · rename_i hzero
    have hle := le_round signature blocks
    have hnil : distinct blocks.toList = [] := List.length_eq_zero_iff.mp (by omega)
    have hempty : blocks.size = 0 := by
      rw [← Array.length_toList, List.length_eq_zero_iff, List.eq_nil_iff_forall_not_mem]
      intro b hb
      have hmem := mem_distinct.mpr hb
      rw [hnil] at hmem
      cases hmem
    have hlow := le_round signature (round signature blocks).2
    have hhigh := round_le_size signature (round signature blocks).2
    rw [size_round] at hhigh
    exact ⟨ranked_round, round_eq_of_length ranked_round (by omega)⟩
  · rw [← hlen]
    exact refineFrom_fixed blocks.size ranked_round (by rw [size_round]; omega)

example : refine (fun block q => block (q / 2)) #[0, 1, 1, 1, 1, 1] = #[0, 1, 2, 2, 3, 3] := by
  decide

/-- Members of one block have one signature. -/
theorem signature_refine {p q : Nat} (hp : p < blocks.size) (hq : q < blocks.size)
    (h : blockOf (refine signature blocks) p = blockOf (refine signature blocks) q) :
    signature (blockOf (refine signature blocks)) p =
      signature (blockOf (refine signature blocks)) q := by
  have hfix := (round_refine signature blocks).2
  rw [← size_refine signature blocks] at hp hq
  rw [← hfix] at h
  exact ((blockOf_round_eq_iff hp hq).mp h).2

/-- Members of one block were in one block at the start. -/
theorem blockOf_eq_of_refine {p q : Nat} (hp : p < blocks.size) (hq : q < blocks.size)
    (h : blockOf (refine signature blocks) p = blockOf (refine signature blocks) q) :
    blockOf blocks p = blockOf blocks q := by
  have hkeep := refine_preserves signature blocks
    (P := fun refined => refined.size = blocks.size ∧
      (blockOf refined p = blockOf refined q → blockOf blocks p = blockOf blocks q))
    (fun refined ⟨hsize, hrefined⟩ => ⟨size_round.trans hsize, fun hround =>
      hrefined ((blockOf_round_eq_iff (hsize.symm ▸ hp) (hsize.symm ▸ hq)).mp hround).1⟩)
    ⟨rfl, id⟩
  exact hkeep.2 h

/-- A relation that implies equal blocks at the start, and equal signatures wherever it implies
equal blocks, is never separated. -/
theorem blockOf_refine_eq_of_invariant {E : Nat → Nat → Prop}
    (hlt : ∀ p q, E p q → p < blocks.size ∧ q < blocks.size)
    (hstart : ∀ p q, E p q → blockOf blocks p = blockOf blocks q)
    (hsign : ∀ block : Nat → Nat, (∀ p q, E p q → block p = block q) →
      ∀ p q, E p q → signature block p = signature block q) {p q : Nat} (h : E p q) :
    blockOf (refine signature blocks) p = blockOf (refine signature blocks) q := by
  have hkeep := refine_preserves signature blocks
    (P := fun refined => refined.size = blocks.size ∧
      ∀ p q, E p q → blockOf refined p = blockOf refined q)
    (fun refined ⟨hsize, hrefined⟩ => ⟨size_round.trans hsize, fun p q hpq =>
      (blockOf_round_eq_iff (hsize.symm ▸ (hlt p q hpq).1) (hsize.symm ▸ (hlt p q hpq).2)).mpr
        ⟨hrefined p q hpq, hsign _ hrefined p q hpq⟩⟩)
    ⟨rfl, hstart⟩
  exact hkeep.2 p q h

/-! ## Groups -/

theorem length_groups (blocks : Array Nat) :
    (groups blocks).length = (distinct blocks.toList).length := by
  simp [groups]

/-- The members of one block, in ascending order. -/
def group (blocks : Array Nat) (b : Nat) : List Nat :=
  (List.range blocks.size).filter fun q => blockOf blocks q == b

theorem mem_group {q b : Nat} :
    q ∈ group blocks b ↔ q < blocks.size ∧ blockOf blocks q = b := by
  simp [group]

theorem groups_eq_map_group (blocks : Array Nat) :
    groups blocks = (List.range (groups blocks).length).map (group blocks) := by
  rw [length_groups]
  rfl

theorem getElem?_groups {b : Nat} (hb : b < (groups blocks).length) :
    (groups blocks)[b]? = some (group blocks b) := by
  rw [groups_eq_map_group, List.getElem?_map, List.getElem?_range hb, Option.map_some]

theorem Ranked.blockOf_eq (h : Ranked blocks) {q : Nat} (hq : q < blocks.size) :
    blockOf blocks q = (distinct blocks.toList).idxOf blocks[q] := by
  conv_lhs => rw [← h]
  simp [blockOf, rank, hq]

/-- The numbers of the groups are exactly the blocks of the members. -/
theorem lt_length_groups_iff (h : Ranked blocks) {b : Nat} :
    b < (groups blocks).length ↔ ∃ q < blocks.size, blockOf blocks q = b := by
  rw [length_groups]
  constructor
  · intro hb
    obtain ⟨q, hq, hget⟩ := List.getElem_of_mem (mem_distinct.mp (List.getElem_mem hb))
    refine ⟨q, hq, ?_⟩
    rw [h.blockOf_eq hq, ← Array.getElem_toList, hget, (nodup_distinct _).idxOf_getElem]
  · rintro ⟨q, hq, rfl⟩
    rw [h.blockOf_eq hq]
    exact List.idxOf_lt_length_of_mem (mem_distinct.mpr (by simp))

/-- Where no two members share a block, each has its own number for its block. -/
theorem Ranked.blockOf_eq_self (h : Ranked blocks)
    (halone : ∀ p < blocks.size, ∀ q < blocks.size, blockOf blocks p = blockOf blocks q → p = q)
    {q : Nat} (hq : q < blocks.size) : blockOf blocks q = q := by
  have hnodup : blocks.toList.Nodup := by
    refine List.pairwise_iff_getElem.mpr fun i j hi hj hij heq => Nat.ne_of_lt hij ?_
    rw [Array.length_toList] at hi hj
    exact halone i hi j hj (by simpa [blockOf, hi, hj] using heq)
  rw [h.blockOf_eq hq, distinct_eq_self hnodup, ← Array.getElem_toList, hnodup.idxOf_getElem]

theorem group_ne_nil_iff (h : Ranked blocks) {b : Nat} :
    group blocks b ≠ [] ↔ b < (groups blocks).length := by
  rw [lt_length_groups_iff h]
  simp [group]

/-- Each group has a first member, which is in the block like all others. -/
theorem exists_cons_of_group (h : Ranked blocks) {b : Nat} (hb : b < (groups blocks).length) :
    ∃ p rest, group blocks b = p :: rest ∧ p < blocks.size ∧ blockOf blocks p = b := by
  obtain ⟨p, rest, hgroup⟩ := List.exists_cons_of_ne_nil ((group_ne_nil_iff h).mpr hb)
  exact ⟨p, rest, hgroup, mem_group.mp (hgroup ▸ List.mem_cons_self)⟩

theorem blockOf_headD_group (h : Ranked blocks) {b : Nat} (hb : b < (groups blocks).length) :
    blockOf blocks ((group blocks b).headD 0) = b := by
  obtain ⟨p, rest, hgroup, _, hp⟩ := exists_cons_of_group h hb
  rw [hgroup]
  exact hp

/-! ## Members -/

theorem get?_members {b : Nat} :
    (members blocks).get? b = if group blocks b = [] then none else some (group blocks b) := by
  rw [members, group]
  induction List.range blocks.size using List.reverseRecOn with
  | nil => rfl
  | append_singleton qs q ih =>
    rw [List.foldl_append, List.foldl_cons, List.foldl_nil, SortedMap.get?_update, ih,
      List.filter_append, List.filter_singleton]
    by_cases h : blockOf blocks q = b
    · subst h
      by_cases hqs : (qs.filter fun p => blockOf blocks p == blockOf blocks q) = [] <;>
        simp [hqs, ih]
    · have hne : (blockOf blocks q == b) = false := beq_false_of_ne h
      simp [hne, Ne.symm h]

/-- The blocks of the members are the numbers of the groups. -/
theorem entries_members (h : Ranked blocks) :
    (members blocks).entries = (List.range (groups blocks).length).map fun b =>
      (b, group blocks b) := by
  have hascending : ((List.range (groups blocks).length).map fun b => (b, group blocks b)).Pairwise
      fun a b => compare a.1 b.1 = .lt :=
    List.pairwise_map.mpr (List.pairwise_lt_range.imp Nat.compare_eq_lt.mpr)
  have hmembers : members blocks = ⟨_, hascending⟩ := by
    refine SortedMap.ext fun b => Option.ext fun qs => ?_
    rw [get?_members, ← SortedMap.mem_entries_iff, List.mem_map]
    simp only [List.mem_range, Prod.mk.injEq, ← group_ne_nil_iff h]
    constructor
    · intro hqs
      split at hqs
      · cases hqs
      · rename_i hne
        exact ⟨b, hne, rfl, Option.some.inj hqs⟩
    · rintro ⟨_, hne, rfl, rfl⟩
      exact if_neg hne
  rw [hmembers]

end Acceptors.Partition
