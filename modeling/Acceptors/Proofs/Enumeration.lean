import Acceptors.Proofs.Discovery
import Acceptors.Proofs.Monoid
import Mathlib.Data.List.Shortlex

/-!
The elements of a transformation monoid, in order. Shorter words come before longer ones and words
of one length by their symbols (`Word.Before`), which is the order in which exploration comes to
words. So each transformation is listed with the first of its words (`mem_elements_iff`) and a word
evaluates to the element that does to states what the word does (`elementOf_eq_some_iff`). Main
statement: `elements_eq_induced`.
-/

namespace Acceptors

/-! ## Words by length, then by symbols -/

/-- Where lists of one length differ decides also when they go on. -/
theorem lex_append {α : Type} {r : α → α → Prop} {xs ys : List α} (h : List.Lex r xs ys)
    (hlength : xs.length = ys.length) (us vs : List α) : List.Lex r (xs ++ us) (ys ++ vs) := by
  induction h with
  | nil => simp at hlength
  | rel hab => exact .rel hab
  | cons _ ih => exact .cons (ih (Nat.succ.inj hlength))

namespace Word

variable {u v w : Word}

/-- The word comes first, being shorter or of the same length and less by its symbols. -/
def Before (u v : Word) : Prop := List.Shortlex (fun a b => compare a b = .lt) u v

instance (u v : Word) : Decidable (u.Before v) := decidable_of_iff _ List.shortlex_def.symm

theorem before_of_length_lt (h : u.length < v.length) : u.Before v := List.Shortlex.of_length_lt h

theorem Before.trans (huv : u.Before v) (hvw : v.Before w) : u.Before w := by
  rcases List.shortlex_def.mp huv with huv | ⟨hlength, huv⟩
  · refine before_of_length_lt (huv.trans_le ?_)
    rcases List.shortlex_def.mp hvw with hvw | ⟨hlength, _⟩
    · exact hvw.le
    · exact hlength.le
  · rcases List.shortlex_def.mp hvw with hvw | ⟨hlength', hvw⟩
    · exact before_of_length_lt (hlength ▸ hvw)
    · exact .of_lex (hlength.trans hlength') (List.lex_trans Std.TransCmp.lt_trans huv hvw)

theorem Before.asymm (huv : u.Before v) : ¬ v.Before u := by
  have hsymbols : Std.Asymm fun a b : Symbol => compare a b = .lt :=
    ⟨fun _ _ hab => Std.OrientedCmp.not_lt_of_lt hab⟩
  exact List.Shortlex.asymm.asymm u v huv

/-- What comes first does so also with one more symbol. -/
theorem Before.append_singleton (h : u.Before v) (a b : Symbol) : (u ++ [a]).Before (v ++ [b]) := by
  rcases List.shortlex_def.mp h with hlt | ⟨hlength, hlex⟩
  · exact before_of_length_lt (by simpa using hlt)
  · exact .of_lex (by simpa using hlength) (lex_append hlex hlength [a] [b])

theorem before_append_singleton {a b : Symbol} (h : compare a b = .lt) :
    (u ++ [a]).Before (u ++ [b]) :=
  List.Shortlex.append_left ((List.shortlex_singleton_iff a b).mpr h) u

end Word

namespace TransformationMonoid

variable {A : FiniteAutomaton} {u v w : Word} {t : Transformation}

/-! ## The order of the elements -/

theorem graded_extend (alphabet : Alphabet) (delta : List (List Nat)) :
    Graded (extend alphabet.toList delta) (fun t => t.word.length)
      (fun t t' => t.word.Before t'.word) where
  deeper t t' ht' := by
    obtain ⟨s, _, rfl⟩ := (mem_extend_iff alphabet.nodup_toList).mp ht'
    simp
  later t t' h := Word.before_of_length_lt h
  inside t := by
    have hsymbols : (alphabet.toList.zipIdx.map Prod.fst).Pairwise fun a b =>
        compare a b = .lt := by
      rw [List.zipIdx_map_fst]
      exact alphabet.ascending
    exact List.pairwise_map.mpr ((List.pairwise_map.mp hsymbols).imp Word.before_append_singleton)
  across t t' h := by
    intro x hx y hy
    obtain ⟨s, _, rfl⟩ := (mem_extend_iff alphabet.nodup_toList).mp hx
    obtain ⟨s', _, rfl⟩ := (mem_extend_iff alphabet.nodup_toList).mp hy
    exact h.append_singleton s s'

theorem pairwise_elements (A : FiniteAutomaton) :
    (ofAutomaton A).elements.Pairwise fun t t' => t.word.Before t'.word :=
  pairwise_exploreBy _ (graded_extend A.alphabet _) _ _

theorem nodup_image_elements (A : FiniteAutomaton) :
    ((ofAutomaton A).elements.map (·.image)).Nodup :=
  nodup_exploreBy _ _ _ _

theorem eq_of_image_eq {t t' : Transformation} (ht : t ∈ (ofAutomaton A).elements)
    (ht' : t' ∈ (ofAutomaton A).elements) (h : t.image = t'.image) : t = t' :=
  List.inj_on_of_nodup_map (nodup_image_elements A) ht ht' h

theorem identity_mem (A : FiniteAutomaton) :
    ⟨[], List.range (deltaOf A).length⟩ ∈ (ofAutomaton A).elements :=
  subset_exploreFrom _ _ _ (List.mem_singleton_self _)

/-- What a word brings about is listed with a word that does not come after it. -/
theorem exists_element_before (h : (ofAutomaton A).Closed) (hw : w.Over A.alphabet) :
    ∃ t ∈ (ofAutomaton A).elements, t.image = (ofAutomaton A).imageOf w ∧
      (t.word = w ∨ t.word.Before w) := by
  induction w using List.reverseRecOn with
  | nil => exact ⟨_, identity_mem A, (imageOf_nil (M := ofAutomaton A)).symm, .inl rfl⟩
  | append_singleton w s ih =>
    obtain ⟨t, ht, himage, hword⟩ := ih (Word.over_append_iff.mp hw).1
    obtain ⟨z, hz, hkey⟩ := exists_element h hw
    -- Exploration came to this transformation from `t` as well.
    have hstep : ⟨t.word ++ [s], t.image.map (go (deltaOf A) (A.alphabet.toList.idxOf s))⟩ ∈
        extend A.alphabet.toList (deltaOf A) t :=
      (mem_extend_iff A.alphabet.nodup_toList).mpr ⟨s, hw s (by simp), rfl⟩
    have hsame : z.image = t.image.map (go (deltaOf A) (A.alphabet.toList.idxOf s)) := by
      rw [hkey, imageOf_append_singleton, himage]
      rfl
    have hfirst : z.word = t.word ++ [s] ∨ z.word.Before (t.word ++ [s]) :=
      (first_exploreBy (graded_extend A.alphabet _) hz ht hstep hsame).imp_left (congrArg _)
    refine ⟨z, hz, hkey, ?_⟩
    rcases hword with rfl | hword
    · exact hfirst
    · have hlast := hword.append_singleton s s
      rcases hfirst with hz | hz
      · exact .inr (hz ▸ hlast)
      · exact .inr (hz.trans hlast)

/-- The elements are the transformations by words over the alphabet, each with the first of its
words. -/
theorem mem_elements_iff (h : (ofAutomaton A).Closed) :
    t ∈ (ofAutomaton A).elements ↔ t.word.Over A.alphabet ∧
    t.image = (ofAutomaton A).imageOf t.word ∧
      ∀ v, Word.Over A.alphabet v → t.image = (ofAutomaton A).imageOf v →
        t.word = v ∨ t.word.Before v := by
  constructor
  · intro ht
    obtain ⟨hover, himage⟩ := mem_elements ht
    refine ⟨hover, himage, fun v hv hsame => ?_⟩
    obtain ⟨z, hz, hzv, hfirst⟩ := exists_element_before h hv
    rwa [eq_of_image_eq hz ht (hzv.trans hsame.symm)] at hfirst
  · rintro ⟨hover, himage, hleast⟩
    obtain ⟨z, hz, hzt, hfirst⟩ := exists_element_before h hover
    obtain ⟨hzover, hzimage⟩ := mem_elements hz
    have hsame : t.image = z.image := himage.trans hzt.symm
    have hword : z.word = t.word := by
      refine hfirst.resolve_right fun hbefore => ?_
      rcases hleast z.word hzover (hsame.trans hzimage) with heq | hback
      · exact hbefore.asymm (heq ▸ hbefore)
      · exact hbefore.asymm hback
    have heq : z = t := by
      cases z
      cases t
      cases hword
      cases hsame
      rfl
    exact heq ▸ hz

/-! ## Evaluation -/

theorem elementOf_eq_none_iff (h : (ofAutomaton A).Closed) :
    (ofAutomaton A).elementOf w = none ↔ ¬ w.Over A.alphabet := by
  constructor
  · intro hnone hw
    obtain ⟨t, ht, _⟩ := exists_elementOf h hw
    rw [hnone] at ht
    cases ht
  · intro hw
    have himage : (ofAutomaton A).image? w = none := (image?_eq _ w).trans (if_neg hw)
    rw [elementOf, himage]

theorem elementOf_eq_some_iff (h : (ofAutomaton A).Closed) :
    (ofAutomaton A).elementOf w = some t ↔
      t ∈ (ofAutomaton A).elements ∧ w.Over A.alphabet ∧ t.image = (ofAutomaton A).imageOf w := by
  by_cases hw : w.Over A.alphabet
  · obtain ⟨z, hz, himage⟩ := exists_elementOf h hw
    have hmem : z ∈ (ofAutomaton A).elements := by
      rw [elementOf, image?_of_over (M := ofAutomaton A) hw] at hz
      exact List.mem_of_find?_eq_some hz
    rw [hz, Option.some.injEq]
    constructor
    · rintro rfl
      exact ⟨hmem, hw, himage⟩
    · rintro ⟨ht, _, hsame⟩
      exact eq_of_image_eq hmem ht (himage.trans hsame.symm)
  · rw [(elementOf_eq_none_iff h).mpr hw]
    simp [hw]

end TransformationMonoid

/-! ## Transformations of the completed automaton -/

namespace Automaton

open TransformationMonoid

variable {A : FiniteAutomaton} {w : Word}

/-- The list has for each state of the completed automaton the state that reading the word leads it
to. -/
def Induces (A : FiniteAutomaton) (w : Word) (image : List Nat) : Prop :=
  image.length = A.complete.size ∧ ∀ q r, image[q]? = some r → Walk A.complete.Step q w r

theorem induces_iff (hA : A.Assembled) (hdet : Deterministic A.Step) (hfull : ∀ p s, ¬ A.Hollow p s)
    (h : A.terminals.isEmpty = false) (hw : w.Over A.alphabet) {image : List Nat} :
    A.Induces w image ↔ image = (ofAutomaton A).imageOf w := by
  have he := hA.epsilon_not_mem_alphabet
  have hlength := length_delta h
  have hwalk {q : Nat} (hq : q < A.complete.size) :
      Walk A.complete.Step q w ((ofAutomaton A).target w q) :=
    walk_target hA.labelled hdet he hfull h hq hw
  constructor
  · rintro ⟨hsize, hall⟩
    refine List.ext_getElem (by simp [imageOf, hsize, hlength]) fun q hq _ => ?_
    have hread := hall q image[q] (List.getElem?_eq_getElem hq)
    have hunique := (deterministic_complete hdet he).walk_unique hread (hwalk (hsize ▸ hq))
    simpa [imageOf] using hunique
  · rintro rfl
    refine ⟨by simp [imageOf, hlength], fun q r hr => ?_⟩
    obtain ⟨hq, rfl⟩ := List.getElem?_eq_some_iff.mp hr
    have hlt : q < A.complete.size := by simpa [imageOf, hlength] using hq
    simpa [imageOf] using hwalk hlt

/-- The elements of the monoid of a deterministic automaton are the transformations of its completed
form by words over the alphabet, each with the first of its words and in the order of these. A word
that leaves the alphabet evaluates to no element, and every other one to the element that does to
states what reading the word does. -/
theorem elements_eq_induced (hA : A.Assembled) (hdet : A.isDeterministic = true)
    (hfull : ∀ p s, ¬ A.Hollow p s) (hterminal : ∃ q, A.isTerminal q = true) :
    (∀ t, t ∈ (ofAutomaton A).elements ↔ t.word.Over A.alphabet ∧ A.Induces t.word t.image ∧
        ∀ v, Word.Over A.alphabet v → A.Induces v t.image → t.word = v ∨ t.word.Before v) ∧
      ((ofAutomaton A).elements.Pairwise fun t t' => t.word.Before t'.word ∧ t.image ≠ t'.image) ∧
      (∀ w t, (ofAutomaton A).elementOf w = some t ↔
        t ∈ (ofAutomaton A).elements ∧ w.Over A.alphabet ∧ A.Induces w t.image) ∧
      ∀ w, (ofAutomaton A).elementOf w = none ↔ ∃ s ∈ w, s ∉ A.alphabet := by
  have hclosed := closed_ofAutomaton hA.labelled
  have h : A.terminals.isEmpty = false := by
    obtain ⟨q, hq⟩ := hterminal
    exact List.isEmpty_eq_false_iff.mpr (List.ne_nil_of_mem (mem_terminals.mpr hq))
  have hinduces {w : Word} (hw : w.Over A.alphabet) {image : List Nat} :
      A.Induces w image ↔ image = (ofAutomaton A).imageOf w :=
    induces_iff hA (deterministic_of_isDeterministic hdet) hfull h hw
  refine ⟨fun t => ?_, ?_, fun w t => ?_, fun w => ?_⟩
  · rw [mem_elements_iff hclosed]
    refine and_congr_right fun hover => and_congr (hinduces hover).symm ?_
    exact forall_congr' fun v => imp_congr_right fun hv => imp_congr_left (hinduces hv).symm
  · exact (pairwise_elements A).and (List.pairwise_map.mp (nodup_image_elements A))
  · rw [elementOf_eq_some_iff hclosed]
    exact and_congr_right fun _ => and_congr_right fun hw => (hinduces hw).symm
  · rw [elementOf_eq_none_iff hclosed]
    simp [Word.Over]

/-- Two states that one symbol exchanges, and another that only one of them reads. -/
def swapping : Parts Nat :=
  ⟨0, [⟨0, "", false, Table.ofEdges [(.literal "a", 1), (.literal "b", 0)]⟩,
    ⟨1, "", true, Table.ofEdges [(.literal "a", 0)]⟩], ∅⟩

theorem elements_eq_induced_swapping :
    swapping.automaton.Assembled ∧ swapping.automaton.isDeterministic = true ∧
      (∀ p s, ¬ swapping.automaton.Hollow p s) ∧ (∃ q, swapping.automaton.isTerminal q = true) ∧
      (ofAutomaton swapping.automaton).size = 7 ∧
      swapping.automaton.Induces [.literal "a", .literal "b", .literal "a", .literal "b"]
        [2, 2, 2] ∧
      (∀ v, Word.Over swapping.automaton.alphabet v → swapping.automaton.Induces v [2, 2, 2] →
        3 ≤ v.length) ∧
      (ofAutomaton swapping.automaton).elementOf [.literal "a", .literal "c"] = none := by
  have hA : swapping.automaton.Assembled := ⟨swapping, rfl⟩
  have hdet : swapping.automaton.isDeterministic = true := by decide
  have hfull : ∀ p s, ¬ swapping.automaton.Hollow p s := forall_not_hollow_iff.mpr (by decide)
  have hterminal : ∃ q, swapping.automaton.isTerminal q = true := ⟨1, by decide⟩
  obtain ⟨hmem, _, hsome, hnone⟩ := elements_eq_induced hA hdet hfull hterminal
  -- The element that brings every state to the sink.
  have helement : (ofAutomaton swapping.automaton).elementOf
      [.literal "a", .literal "b", .literal "a", .literal "b"] =
        some ⟨[.literal "b", .literal "a", .literal "b"], [2, 2, 2]⟩ := by decide +kernel
  obtain ⟨hlisted, _, hinduces⟩ := (hsome _ _).mp helement
  obtain ⟨_, _, hfirst⟩ := (hmem _).mp hlisted
  refine ⟨hA, hdet, hfull, hterminal, by decide +kernel, hinduces, fun v hv hv' => ?_,
    (hnone _).mpr ⟨.literal "c", by simp, by decide⟩⟩
  rcases hfirst v hv hv' with rfl | hbefore
  · exact Nat.le_refl 3
  · exact Nat.le_of_not_lt fun hlt => (Word.before_of_length_lt hlt).asymm hbefore

end Automaton

end Acceptors
