import Acceptors.Monoid
import Acceptors.Proofs.Complement
import Mathlib.Data.Fintype.BigOperators
import Mathlib.Data.List.GetD
import Mathlib.Data.List.OfFn

/-!
Transformations of states by words. Exploration by images finds what every word brings about
(`exists_element`), so words over the alphabet lead to one element if and only if they lead every
state to one state (`elementOf_eq_iff`). Main statement: `walk_target`, these are the states that
the words lead to in the completed automaton.
-/

namespace Acceptors.TransformationMonoid

/-! ## Images of words -/

/-- Where a word leads a state. -/
def target (M : TransformationMonoid) (w : Word) (q : Nat) : Nat :=
  w.foldl (fun q s => go M.delta (M.alphabet.idxOf s) q) q

/-- Where a word leads each of the states. -/
def imageOf (M : TransformationMonoid) (w : Word) : List Nat :=
  (List.range M.delta.length).map (M.target w)

section Images

variable {M : TransformationMonoid} {u v w : Word} {s : Symbol} {q : Nat}

@[simp] theorem target_nil : M.target [] q = q := rfl

@[simp] theorem target_cons :
    M.target (s :: w) q = M.target w (go M.delta (M.alphabet.idxOf s) q) := rfl

theorem target_append : M.target (u ++ v) q = M.target v (M.target u q) := List.foldl_append

theorem imageOf_nil : M.imageOf [] = List.range M.delta.length := List.map_id _

theorem imageOf_append_singleton :
    M.imageOf (w ++ [s]) = (M.imageOf w).map (go M.delta (M.alphabet.idxOf s)) := by
  simp [imageOf, target_append]

theorem imageOf_eq_iff :
    M.imageOf u = M.imageOf v ↔ ∀ q < M.delta.length, M.target u q = M.target v q := by
  rw [imageOf, imageOf, List.map_inj_left]
  simp only [List.mem_range]

/-- A word has an image if and only if it stays in the alphabet. -/
theorem image?_eq (M : TransformationMonoid) (w : Word) :
    M.image? w = if ∀ s ∈ w, s ∈ M.alphabet then some (M.imageOf w) else none := by
  have hfold : ∀ image : List Nat,
      w.foldlM (fun image s => if s ∈ M.alphabet then
          some (image.map (go M.delta (M.alphabet.idxOf s))) else none) image =
        if ∀ s ∈ w, s ∈ M.alphabet then some (image.map (M.target w)) else none := by
    induction w with
    | nil =>
      intro image
      exact congrArg some (List.map_id image).symm
    | cons s w ih =>
      intro image
      by_cases hs : s ∈ M.alphabet
      · simp only [List.foldlM_cons, hs, if_true, Option.bind_eq_bind, Option.bind_some, ih,
          List.map_map, List.forall_mem_cons, true_and]
        rfl
      · simp [List.foldlM_cons, hs]
  exact hfold _

theorem image?_of_over (hw : ∀ s ∈ w, s ∈ M.alphabet) : M.image? w = some (M.imageOf w) := by
  rw [image?_eq, if_pos hw]

end Images

/-! ## Enumeration -/

/-- All lists of `n` numbers below `n`. -/
theorem exists_images (n : Nat) :
    ∃ U : List (List Nat), U.length = n ^ n ∧
      ∀ image, image ∈ U ↔ image.length = n ∧ ∀ q ∈ image, q < n := by
  refine ⟨(Finset.univ : Finset (Fin n → Fin n)).toList.map fun f => List.ofFn fun i => (f i).val,
    ?_,
    fun image => ?_⟩
  · simp
  · simp only [List.mem_map, Finset.mem_toList, Finset.mem_univ, true_and]
    constructor
    · rintro ⟨f, rfl⟩
      simp
    · rintro ⟨rfl, hlt⟩
      exact ⟨fun i => ⟨image[i], hlt _ (List.getElem_mem i.isLt)⟩, by simp⟩

theorem mem_extend_iff {alphabet : List Symbol} (hnodup : alphabet.Nodup) {delta : List (List Nat)}
    {t t' : Transformation} :
    t' ∈ extend alphabet delta t ↔
      ∃ s ∈ alphabet, t' = ⟨t.word ++ [s], t.image.map (go delta (alphabet.idxOf s))⟩ := by
  simp only [extend, List.mem_map, Prod.exists, List.mem_zipIdx_iff_getElem?]
  constructor
  · rintro ⟨s, i, hs, rfl⟩
    obtain ⟨hi, rfl⟩ := List.getElem?_eq_some_iff.mp hs
    exact ⟨alphabet[i], List.getElem_mem hi, by rw [hnodup.idxOf_getElem i hi]⟩
  · rintro ⟨s, hs, rfl⟩
    exact ⟨s, alphabet.idxOf s, by simp [hs], rfl⟩

/-- Symbols lead states to states. -/
def Closed (M : TransformationMonoid) : Prop :=
  ∀ q < M.delta.length, ∀ s ∈ M.alphabet, go M.delta (M.alphabet.idxOf s) q < M.delta.length

theorem Closed.target_lt {M : TransformationMonoid} (h : M.Closed) {w : Word}
    (hw : ∀ s ∈ w, s ∈ M.alphabet) {q : Nat} (hq : q < M.delta.length) :
    M.target w q < M.delta.length := by
  induction w generalizing q with
  | nil => exact hq
  | cons s w ih =>
    obtain ⟨hs, hw⟩ := List.forall_mem_cons.mp hw
    exact ih hw (h q hq s hs)

variable {A : FiniteAutomaton}

theorem mem_elements {t : Transformation} (ht : t ∈ (ofAutomaton A).elements) :
    t.word.Over A.alphabet ∧ t.image = (ofAutomaton A).imageOf t.word := by
  refine exploreBy_preserves (P := fun t => t.word.Over A.alphabet ∧
    t.image = (ofAutomaton A).imageOf t.word) ?_ _ ?_ t ht
  · rintro t ⟨hover, himage⟩ t' ht'
    obtain ⟨s, hs, rfl⟩ := (mem_extend_iff A.alphabet.nodup_toList).mp ht'
    refine ⟨Word.over_append_iff.mpr ⟨hover, Word.over_cons_iff.mpr ⟨hs, Word.over_nil⟩⟩, ?_⟩
    rw [imageOf_append_singleton, ← himage]
    rfl
  · intro t ht
    obtain rfl := List.mem_singleton.mp ht
    exact ⟨Word.over_nil, (imageOf_nil (M := ofAutomaton A)).symm⟩

/-- What a word brings about is listed. The induction goes by the last symbol, as exploration
does. -/
theorem exists_element (h : (ofAutomaton A).Closed) {w : Word} (hw : w.Over A.alphabet) :
    ∃ t ∈ (ofAutomaton A).elements, t.image = (ofAutomaton A).imageOf w := by
  obtain ⟨U, hlength, hU⟩ := exists_images (deltaOf A).length
  induction w using List.reverseRecOn with
  | nil =>
    rw [imageOf_nil]
    exact exploreBy_covers _ _ _ (List.mem_singleton_self _)
  | append_singleton w s ih =>
    obtain ⟨hw, hs⟩ := Word.over_append_iff.mp hw
    obtain ⟨t, ht, himage⟩ := ih hw
    have hstart : ∀ t ∈ [(⟨[], List.range (deltaOf A).length⟩ : Transformation)], t.image ∈ U := by
      intro t ht
      obtain rfl := List.mem_singleton.mp ht
      exact (hU _).mpr ⟨List.length_range, fun q hq => List.mem_range.mp hq⟩
    have hstep : ∀ t : Transformation, t.image ∈ U →
        ∀ t' ∈ extend A.alphabet.toList (deltaOf A) t, t'.image ∈ U := by
      intro t ht t' ht'
      obtain ⟨s, hs, rfl⟩ := (mem_extend_iff A.alphabet.nodup_toList).mp ht'
      obtain ⟨hlen, hlt⟩ := (hU _).mp ht
      refine (hU _).mpr ⟨by rw [List.length_map, hlen], ?_⟩
      simp only [List.mem_map, forall_exists_index, and_imp, forall_apply_eq_imp_iff₂]
      exact fun q hq => h q (hlt q hq) s hs
    obtain ⟨z, hz, hkey⟩ := exploreBy_closed _ hstep hlength.le hstart t ht _
      ((mem_extend_iff A.alphabet.nodup_toList).mpr ⟨s, hs s (List.mem_singleton_self s), rfl⟩)
    refine ⟨z, hz, hkey.trans ?_⟩
    rw [imageOf_append_singleton, ← himage]
    rfl

theorem exists_elementOf (h : (ofAutomaton A).Closed) {w : Word} (hw : w.Over A.alphabet) :
    ∃ t, (ofAutomaton A).elementOf w = some t ∧ t.image = (ofAutomaton A).imageOf w := by
  obtain ⟨t, ht, hkey⟩ := exists_element h hw
  have hfind : ((ofAutomaton A).elements.find?
      fun t => t.image == (ofAutomaton A).imageOf w).isSome :=
    List.find?_isSome.mpr ⟨t, ht, by simp [hkey]⟩
  obtain ⟨t', ht'⟩ := Option.isSome_iff_exists.mp hfind
  refine ⟨t', ?_, by simpa using List.find?_some ht'⟩
  rw [elementOf, image?_of_over (M := ofAutomaton A) hw]
  exact ht'

/-- Words lead to one element if and only if they lead every state to one state. -/
theorem elementOf_eq_iff (h : (ofAutomaton A).Closed) {u v : Word} (hu : u.Over A.alphabet)
    (hv : v.Over A.alphabet) :
    (∃ t, (ofAutomaton A).elementOf u = some t ∧ (ofAutomaton A).elementOf v = some t) ↔
      ∀ q < (ofAutomaton A).delta.length, (ofAutomaton A).target u q =
        (ofAutomaton A).target v q := by
  obtain ⟨t, ht, htu⟩ := exists_elementOf h hu
  obtain ⟨t', ht', htv⟩ := exists_elementOf h hv
  rw [← imageOf_eq_iff]
  constructor
  · rintro ⟨z, hzu, hzv⟩
    obtain rfl : t = z := Option.some.inj (ht.symm.trans hzu)
    obtain rfl : t' = t := Option.some.inj (ht'.symm.trans hzv)
    rw [← htu, htv]
  · intro heq
    have hsame : (ofAutomaton A).elementOf u = (ofAutomaton A).elementOf v := by
      rw [elementOf, elementOf, image?_of_over (M := ofAutomaton A) hu,
        image?_of_over (M := ofAutomaton A) hv, heq]
    exact ⟨t, ht, hsame ▸ ht⟩

/-! ## States of the completed automaton -/

theorem alphabet_ofAutomaton (A : FiniteAutomaton) :
    (ofAutomaton A).alphabet = A.alphabet.toList := rfl

theorem delta_of_isEmpty (h : A.terminals.isEmpty = true) :
    (ofAutomaton A).delta = [A.alphabet.toList.map fun _ => 0] := by
  rw [ofAutomaton, ofDelta, deltaOf, if_pos h]

theorem delta_of_not_isEmpty (h : A.terminals.isEmpty = false) :
    (ofAutomaton A).delta = (List.range A.complete.size).map (row A.complete) := by
  rw [ofAutomaton, ofDelta, deltaOf, if_neg (by simp [h])]

theorem length_delta (h : A.terminals.isEmpty = false) :
    (ofAutomaton A).delta.length = A.complete.size := by
  simp [delta_of_not_isEmpty h]

/-- The table of successors has the successor of a state, or the state itself where there is
none. -/
theorem go_delta (h : A.terminals.isEmpty = false) {q : Nat} (hq : q < A.complete.size) {s : Symbol}
    (hs : s ∈ A.alphabet) :
    go (ofAutomaton A).delta ((ofAutomaton A).alphabet.idxOf s) q =
      (A.complete.successor q s).getD q := by
  have hs : s ∈ A.alphabet.toList := hs
  rw [delta_of_not_isEmpty h, alphabet_ofAutomaton]
  simp [go, row, hq, hs]

theorem closed_ofAutomaton (hA : A.Labelled) : (ofAutomaton A).Closed := by
  intro q hq s hs
  cases h : A.terminals.isEmpty with
  | true =>
    rw [delta_of_isEmpty h, List.length_singleton] at hq ⊢
    rw [Nat.lt_one_iff] at hq
    rw [go, hq, List.getD_cons_zero, List.map_const', List.getD_eq_getElem?_getD,
      List.getElem?_getD_replicate_default_eq]
    exact Nat.one_pos
  | false =>
    rw [length_delta h] at hq ⊢
    rw [go_delta h hq hs]
    cases hr : A.complete.successor q s with
    | none => exact hq
    | some r => exact hA.complete.wellFormed.target_lt (List.mem_of_mem_head? hr)

/-- Without entries that lead nowhere, a word leads each state where walks of the completed
automaton lead it. -/
theorem walk_target (hA : A.Labelled) (hdet : Deterministic A.Step)
    (he : Symbol.epsilon ∉ A.alphabet) (hfull : ∀ p s, ¬ A.Hollow p s)
    (h : A.terminals.isEmpty = false) {q : Nat} (hq : q < A.complete.size) {w : Word}
    (hw : w.Over A.alphabet) : Walk A.complete.Step q w ((ofAutomaton A).target w q) := by
  have hcomplete := Automaton.deterministic_complete hdet he
  induction w generalizing q with
  | nil => exact .nil q
  | cons s w ih =>
    obtain ⟨hs, hw⟩ := Word.over_cons_iff.mp hw
    obtain ⟨r, hr⟩ := (Automaton.exists_step_complete_iff hq hs).mpr (hfull q s)
    have hgo : go (ofAutomaton A).delta ((ofAutomaton A).alphabet.idxOf s) q = r := by
      rw [go_delta h hq hs, (Automaton.successor_eq_some_iff hcomplete).mpr hr, Option.getD_some]
    rw [target_cons, hgo]
    exact (Walk.cons_iff hcomplete.noEpsilon).mpr
      ⟨r, hr, ih (hA.complete.wellFormed.target_lt hr) hw⟩

end Acceptors.TransformationMonoid
