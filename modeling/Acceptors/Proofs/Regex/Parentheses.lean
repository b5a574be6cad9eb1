import Acceptors.Proofs.Regex.Names
import Acceptors.Proofs.Regex.RoundTrip

/-!
The parentheses of printed trees. A text is sparer than another if it has no more groups and nests
them no deeper (`Sparer`). The text of a tree is sparer than each text that the tree was read from:
phrase by phrase, the printed factors, alternatives and bodies are sparer than what they were read
from (`sparer_concatenation` and so on), and flattening, sorting and absorbing only drop text. Main
statement: `text_minimal`.
-/

namespace Acceptors.Regex

namespace Grammar

variable {d m : Nat} {u u' v v' w : List Char}

/-- How many parentheses of a text group. -/
def parentheses (text : List Char) : Nat := (groupings .plain text).length

/-! ## Whole texts -/

/-- The groups of a text are complete. -/
def Whole (u : List Char) : Prop := ∃ m, Nested u m

namespace Whole

theorem append (hu : Whole u) (hv : Whole v) : Whole (u ++ v) := by
  obtain ⟨m, hu⟩ := hu
  obtain ⟨n, hv⟩ := hv
  exact ⟨max m n, hu.append hv⟩

theorem nesting_append (hu : Whole u) (hv : Whole v) :
    nesting (u ++ v) = max (nesting u) (nesting v) := by
  obtain ⟨m, hu⟩ := hu
  obtain ⟨n, hv⟩ := hv
  rw [(hu.append hv).nesting_eq, hu.nesting_eq, hv.nesting_eq]

theorem parentheses_append (hu : Whole u) (v : List Char) :
    parentheses (u ++ v) = parentheses u + parentheses v := by
  obtain ⟨m, hu⟩ := hu
  rw [parentheses, hu.groupings, List.length_append, parentheses, parentheses]

theorem grouped (h : Whole u) : Whole ('(' :: u ++ [')']) := by
  obtain ⟨m, h⟩ := h
  exact ⟨m + 1, h.group⟩

theorem nesting_grouped (h : Whole u) : nesting ('(' :: u ++ [')']) = nesting u + 1 := by
  obtain ⟨m, h⟩ := h
  rw [h.group.nesting_eq, h.nesting_eq]

theorem parentheses_grouped (h : Whole u) :
    parentheses ('(' :: u ++ [')']) = parentheses u + 2 := by
  obtain ⟨m, h⟩ := h
  rw [parentheses, h.groupings_group, parentheses, List.length_append, List.length_cons,
    List.length_singleton]

theorem group (h : Whole u) (b : Bool) : Whole (group b u) := by
  cases b with
  | false => exact h
  | true => exact h.grouped

theorem nesting_group_le (h : Whole u) (b : Bool) : nesting (Regex.group b u) ≤ nesting u + 1 := by
  cases b with
  | false => exact Nat.le_add_right _ _
  | true => exact h.nesting_grouped.le

theorem parentheses_group_le (h : Whole u) (b : Bool) :
    parentheses (Regex.group b u) ≤ parentheses u + 2 := by
  cases b with
  | false => exact Nat.le_add_right _ _
  | true => exact h.parentheses_grouped.le

end Whole

theorem Flat.whole (h : Flat u) : Whole u := ⟨0, h.nested⟩

theorem Flat.parentheses_eq (h : Flat u) : parentheses u = 0 := by
  rw [parentheses, h.groupings_eq, List.length_nil]

theorem whole_nil : Whole [] := (Flat.blank blank_nil).whole

/-! ## Sparer texts -/

/-- The text has at most as many parentheses that group, and nests them at most as deep. -/
structure Sparer (u v : List Char) : Prop where
  left : Whole u
  right : Whole v
  parentheses : parentheses u ≤ parentheses v
  nesting : nesting u ≤ nesting v

theorem Flat.sparer (hu : Flat u) (hv : Whole v) : Sparer u v where
  left := hu.whole
  right := hv
  parentheses := by
    rw [hu.parentheses_eq]
    exact Nat.zero_le _
  nesting := by
    rw [hu.nested.nesting_eq]
    exact Nat.zero_le _

namespace Sparer

theorem refl (h : Whole u) : Sparer u u := ⟨h, h, Nat.le_refl _, Nat.le_refl _⟩

theorem trans (h : Sparer u v) (h' : Sparer v w) : Sparer u w :=
  ⟨h.left, h'.right, h.parentheses.trans h'.parentheses, h.nesting.trans h'.nesting⟩

theorem append (h : Sparer u v) (h' : Sparer u' v') : Sparer (u ++ u') (v ++ v') where
  left := h.left.append h'.left
  right := h.right.append h'.right
  parentheses := by
    rw [h.left.parentheses_append, h.right.parentheses_append]
    exact Nat.add_le_add h.parentheses h'.parentheses
  nesting := by
    rw [h.left.nesting_append h'.left, h.right.nesting_append h'.right]
    exact max_le_max h.nesting h'.nesting

theorem append_left (h : Sparer u v) (hw : Whole w) : Sparer u (w ++ v) :=
  (Flat.sparer (Flat.blank blank_nil) hw).append h

theorem append_right (h : Sparer u v) (hw : Whole w) : Sparer u (v ++ w) := by
  have happend := h.append (Flat.sparer (Flat.blank blank_nil) hw)
  rwa [List.append_nil] at happend

theorem swap (hu : Whole u) (hv : Whole v) : Sparer (u ++ v) (v ++ u) where
  left := hu.append hv
  right := hv.append hu
  parentheses := by rw [hu.parentheses_append, hv.parentheses_append, Nat.add_comm]
  nesting := by rw [hu.nesting_append hv, hv.nesting_append hu, max_comm]

theorem flatMap {α : Type} {f g : α → List Char} (h : ∀ a, Sparer (f a) (g a)) (xs : List α) :
    Sparer (xs.flatMap f) (xs.flatMap g) := by
  induction xs with
  | nil => exact refl whole_nil
  | cons a xs ih => exact (h a).append ih

/-- The parentheses of a group may be left out. -/
theorem grouped (h : Sparer u v) (b : Bool) : Sparer (group b u) ('(' :: v ++ [')']) where
  left := h.left.group b
  right := h.right.grouped
  parentheses := by
    rw [h.right.parentheses_grouped]
    exact (h.left.parentheses_group_le b).trans (Nat.add_le_add_right h.parentheses 2)
  nesting := by
    rw [h.right.nesting_grouped]
    exact (h.left.nesting_group_le b).trans (Nat.add_le_add_right h.nesting 1)

end Sparer

end Grammar

open Grammar

variable {d : Nat} {u v b : List Char} {r : Regex} {rs ts : List Regex}

/-! ## Printed trees -/

theorem flat_renderName : (cs : List Char) → Flat (renderName cs)
  | [] => Flat.name .nil
  | [c] => by
    rw [renderName]
    split
    · exact Flat.escape c
    · rename_i hspecial
      exact Flat.char (by simpa using hspecial)
  | _ :: _ :: _ => Flat.name (name_escapeName _)

mutual

theorem whole_render : (r : Regex) → Whole r.render
  | empty => Flat.empty.whole
  | epsilon => (Flat.epsilon (.inl rfl)).whole
  | literal name => (flat_renderName name.toList).whole
  | concat [] => (Flat.epsilon (.inl rfl)).whole
  | concat (r :: rs) => ((whole_render r).group _).append (whole_renderFactors rs)
  | union [] => Flat.empty.whole
  | union (r :: rs) => (whole_render r).append (whole_renderAlternatives rs)
  | star r => by
    rw [render]
    exact ((whole_render r).group _).append Flat.star.whole

theorem whole_renderFactors : (rs : List Regex) → Whole (renderFactors rs)
  | [] => whole_nil
  | r :: rs => ((whole_render r).group _).append (whole_renderFactors rs)

theorem whole_renderAlternatives : (rs : List Regex) → Whole (renderAlternatives rs)
  | [] => whole_nil
  | r :: rs => (Flat.bar.whole.append (whole_render r)).append (whole_renderAlternatives rs)

end

theorem whole_factor (r : Regex) : Whole (group (groupedInConcat r) r.render) :=
  (whole_render r).group _

theorem whole_alternative (r : Regex) : Whole ('|' :: r.render) :=
  Flat.bar.whole.append (whole_render r)

theorem renderFactors_eq_flatMap (rs : List Regex) :
    renderFactors rs = rs.flatMap fun r => group (groupedInConcat r) r.render := by
  induction rs with
  | nil => rfl
  | cons r rs ih => rw [renderFactors, ih, List.flatMap_cons]

theorem renderAlternatives_eq_flatMap (rs : List Regex) :
    renderAlternatives rs = rs.flatMap fun r => '|' :: r.render := by
  induction rs with
  | nil => rfl
  | cons r rs ih => rw [renderAlternatives, ih, List.flatMap_cons]

/-- What needs parentheses in a concatenation needs them under a star. -/
theorem sparer_factor_body (r : Regex) :
    Sparer (group (groupedInConcat r) r.render) (group (groupedInStar r) r.render) := by
  have hrender := Sparer.refl (whole_render r)
  cases r with
  | concat rs =>
    cases rs with
    | nil => exact hrender
    | cons => exact hrender.grouped false
  | star r => exact hrender.grouped false
  | union rs => cases rs <;> exact Sparer.refl (whole_factor _)
  | empty | epsilon | literal => exact hrender

/-! ## Concatenation -/

theorem sparer_factors (r : Regex) :
    Sparer (renderFactors r.factors) (group (groupedInConcat r) r.render) := by
  have hone : Sparer (renderFactors [r]) (group (groupedInConcat r) r.render) := by
    rw [renderFactors, renderFactors, List.append_nil]
    exact Sparer.refl (whole_factor r)
  cases r with
  | epsilon => exact (Flat.blank blank_nil).sparer (whole_factor _)
  | concat rs =>
    cases rs with
    | nil => exact (Flat.blank blank_nil).sparer (whole_factor _)
    | cons r rs => exact Sparer.refl (whole_renderFactors (r :: rs))
  | empty | literal | union | star => exact hone

theorem sparer_flatMap_factors (rs : List Regex) :
    Sparer (renderFactors (rs.flatMap factors)) (renderFactors rs) := by
  rw [renderFactors_eq_flatMap, List.flatMap_assoc, renderFactors_eq_flatMap]
  refine Sparer.flatMap (fun r => ?_) rs
  rw [← renderFactors_eq_flatMap]
  exact sparer_factors r

theorem sparer_render_factor (r : Regex) :
    Sparer r.render (group (groupedInConcat r) r.render) := by
  cases hgrouped : groupedInConcat r with
  | false => exact Sparer.refl (whole_render r)
  | true => exact (Sparer.refl (whole_render r)).grouped false

/-- A factor alone is printed as a factor, and other factors make a concatenation, which is not
grouped in another. -/
theorem sparer_factor_ofFactors (rs : List Regex) :
    Sparer (group (groupedInConcat (ofFactors rs)) (ofFactors rs).render) (renderFactors rs) := by
  match rs with
  | [] => exact (Flat.epsilon (.inl rfl)).sparer whole_nil
  | [r] => exact (Sparer.refl (whole_factor r)).append_right whole_nil
  | r :: s :: rs => exact Sparer.refl (whole_renderFactors (r :: s :: rs))

theorem sparer_factor_product (rs : List Regex) :
    Sparer (group (groupedInConcat (product rs)) (product rs).render) (renderFactors rs) := by
  unfold product
  split
  · exact Flat.empty.sparer (whole_renderFactors rs)
  · exact (sparer_factor_ofFactors _).trans (sparer_flatMap_factors rs)

theorem sparer_product (rs : List Regex) : Sparer (product rs).render (renderFactors rs) :=
  (sparer_render_factor _).trans (sparer_factor_product rs)

/-! ## Union -/

theorem sparer_alternatives (r : Regex) :
    Sparer (renderAlternatives r.alternatives) ('|' :: r.render) := by
  have hone : Sparer (renderAlternatives [r]) ('|' :: r.render) := by
    rw [renderAlternatives, renderAlternatives, List.append_nil]
    exact Sparer.refl (whole_alternative r)
  cases r with
  | empty => exact (Flat.blank blank_nil).sparer (whole_alternative _)
  | union rs =>
    cases rs with
    | nil => exact (Flat.blank blank_nil).sparer (whole_alternative _)
    | cons r rs => exact Sparer.refl (whole_renderAlternatives (r :: rs))
  | epsilon | literal | concat | star => exact hone

theorem sparer_flatMap_alternatives (rs : List Regex) :
    Sparer (renderAlternatives (rs.flatMap alternatives)) (renderAlternatives rs) := by
  rw [renderAlternatives_eq_flatMap, List.flatMap_assoc, renderAlternatives_eq_flatMap]
  refine Sparer.flatMap (fun r => ?_) rs
  rw [← renderAlternatives_eq_flatMap]
  exact sparer_alternatives r

/-- Sorting moves a text to its place, or drops it where it stands already. -/
theorem sparer_insertSorted (r : Regex) (rs : List Regex) :
    Sparer (renderAlternatives (SortedSet.insertSorted r rs))
    ('|' :: r.render ++ renderAlternatives rs) := by
  induction rs with
  | nil => exact Sparer.refl (whole_renderAlternatives [r])
  | cons s rs ih =>
    unfold SortedSet.insertSorted
    split
    · exact Sparer.refl (whole_renderAlternatives (r :: s :: rs))
    · exact (Sparer.refl (whole_renderAlternatives (s :: rs))).append_left (whole_alternative r)
    · have hs := Sparer.refl (whole_alternative s)
      have hswap := (Sparer.swap (whole_alternative s) (whole_alternative r)).append
        (Sparer.refl (whole_renderAlternatives rs))
      rw [List.append_assoc, List.append_assoc] at hswap
      exact (hs.append ih).trans hswap

theorem sparer_foldl_insert (rs : List Regex) (s : SortedSet Regex) :
    Sparer (renderAlternatives (rs.foldl SortedSet.insert s).toList)
      (renderAlternatives s.toList ++ renderAlternatives rs) := by
  induction rs generalizing s with
  | nil => exact (Sparer.refl (whole_renderAlternatives s.toList)).append_right whole_nil
  | cons r rs ih =>
    have hrs := Sparer.refl (whole_renderAlternatives rs)
    have hinsert := (sparer_insertSorted r s.toList).append hrs
    have hswap := (Sparer.swap (whole_alternative r) (whole_renderAlternatives s.toList)).append hrs
    rw [List.append_assoc (renderAlternatives s.toList)] at hswap
    exact ((ih (s.insert r)).trans hinsert).trans hswap

theorem sparer_ofAlternatives (rs : List Regex) :
    Sparer (ofAlternatives rs).render (renderAlternatives rs) := by
  match rs with
  | [] => exact Flat.empty.sparer whole_nil
  | r :: rs =>
    have hself := Sparer.refl ((whole_render r).append (whole_renderAlternatives rs))
    have hbar := hself.append_left Flat.bar.whole
    cases rs with
    | nil => simpa [ofAlternatives, renderAlternatives] using hbar
    | cons s rs => exact hbar

theorem sparer_sum (rs : List Regex) : Sparer (sum rs).render (renderAlternatives rs) := by
  have hsorted : Sparer (renderAlternatives (SortedSet.ofList (rs.flatMap alternatives)).toList)
      (renderAlternatives (rs.flatMap alternatives)) := sparer_foldl_insert _ ∅
  exact ((sparer_ofAlternatives _).trans hsorted).trans (sparer_flatMap_alternatives rs)

/-! ## Phrases -/

theorem sparer_alternative (h : Sparer r.render u) : Sparer ('|' :: r.render) u :=
  (Flat.bar.sparer whole_nil).append h

/-- Printed as a factor the tree is sparer than the text, and so it is as a body if it may be
one. -/
structure SparerStarred (r : Regex) (u : List Char) : Prop where
  factor : Sparer (group (groupedInConcat r) r.render) u
  body : r.IsBody → Sparer (group (groupedInStar r) r.render) u

theorem SparerStarred.of_body (h : Sparer (group (groupedInStar r) r.render) u) :
    SparerStarred r u :=
  ⟨(sparer_factor_body r).trans h, fun _ => h⟩

theorem SparerStarred.iterate (h : SparerStarred r u) : SparerStarred (iterate r) (u ++ ['*']) where
  factor := by
    have hstar := Sparer.refl Flat.star.whole
    cases r with
    | empty | epsilon =>
      exact (Flat.epsilon (.inl rfl)).sparer (h.factor.right.append Flat.star.whole)
    | star r => exact h.factor.append_right Flat.star.whole
    | literal | concat | union => exact (h.body trivial).append hstar
  body hbody := by
    cases r with
    | empty | epsilon | star | literal | concat | union => exact hbody.elim

theorem SparerStarred.append_right (h : SparerStarred r u) (hv : Whole v) :
    SparerStarred r (u ++ v) :=
  ⟨h.factor.append_right hv, fun hbody => (h.body hbody).append_right hv⟩

mutual

theorem sparer_alternation : {d : Nat} → {u : List Char} → {ts : List Regex} → Alternation d u ts →
    Sparer (renderAlternatives ts) u
  | _, _, _, @Alternation.single _ _ rs h => by
    rw [renderAlternatives, renderAlternatives, List.append_nil]
    exact sparer_alternative ((sparer_product rs).trans (sparer_concatenation h))
  | _, _, _, @Alternation.cons _ _ _ _ rs _ h hb h' => by
    have hone := sparer_alternative ((sparer_product rs).trans (sparer_concatenation h))
    have hmore := (sparer_alternation h').append_left Flat.bar.whole
    exact (hone.append_right (Flat.blank hb).whole).append hmore

theorem sparer_concatenation : {d : Nat} → {u : List Char} → {rs : List Regex} →
    Concatenation d u rs →
    Sparer (renderFactors rs) u
  | _, _, _, .single h => by
    rw [renderFactors, renderFactors, List.append_nil]
    exact (sparer_starred h).factor
  | _, _, _, .cons h h' => (sparer_starred h).factor.append (sparer_concatenation h')

theorem sparer_starred : {d : Nat} → {u : List Char} → {r : Regex} → Starred d u r →
    SparerStarred r u
  | _, _, _, .atom hb h => .of_body ((sparer_atom h).append_left (Flat.blank hb).whole)
  | _, _, _, .star h hb => ((sparer_starred h).append_right (Flat.blank hb).whole).iterate

theorem sparer_atom : {d : Nat} → {u : List Char} → {r : Regex} → Atom d u r →
    Sparer (group (groupedInStar r) r.render) u
  | _, _, _, @Atom.group _ _ _ ts h hb =>
    (((sparer_sum ts).trans (sparer_alternation h)).append_right (Flat.blank hb).whole).grouped _
  | _, _, _, .char h => (flat_renderName _).sparer (Flat.char h).whole
  | _, _, _, .escape => (flat_renderName _).sparer (Flat.escape _).whole
  | _, _, _, .name h _ => (flat_renderName _).sparer (Flat.name h).whole
  | _, _, _, .epsilon h => (Flat.epsilon (.inl rfl)).sparer (Flat.epsilon h).whole
  | _, _, _, .empty => Sparer.refl Flat.empty.whole

end

theorem Grammar.Derives.sparer {text : List Char} (h : Derives d text r) :
    Sparer r.render text := by
  obtain ⟨u, b, ts, h, hb, rfl, rfl⟩ := h
  exact ((sparer_sum ts).trans (sparer_alternation h)).append_right (Flat.blank hb).whole

/-! ## Trees that are read -/

theorem readable_names : Readable fun r => ∀ name ∈ r.names, name ≠ "" where
  toClosed := closed_names (· ≠ "")
  epsilon := by simp [names]
  literal hne := by simpa [names] using hne

/-- Of all texts that are read as a tree, the printed one has the fewest parentheses and nests them
least deep. -/
theorem text_minimal {text : String} {t : Regex} (h : parse text = .ok t) :
    parse t.text = .ok t ∧ parentheses t.text.toList ≤ parentheses text.toList ∧
      nesting t.text.toList ≤ nesting text.toList := by
  have htext : Derives nestLimit text.toList t := derives_of_read h
  have hsparer := htext.sparer
  have hnesting := hsparer.nesting.trans (derives_iff_nesting_le.mp htext).1
  have hrender := derives_render (readable_names.derives htext)
  rw [(readable_simplified.derives htext).simplify_eq] at hrender
  rw [parse, Regex.text, String.toList_ofList]
  exact ⟨read_of_derives (derives_iff_nesting_le.mpr ⟨hnesting, hrender⟩), hsparer.parentheses,
    hsparer.nesting⟩

/-- Ten parentheses that nest three deep, of which the printed text `(a|b)c*` keeps two. -/
theorem text_minimal_redundant :
    parse "((a|(b)))((c)*)*" =
      .ok (.concat [.union [.literal "a", .literal "b"], .star (.literal "c")]) ∧
      parse "(a|b)c*" = .ok (.concat [.union [.literal "a", .literal "b"], .star (.literal "c")]) ∧
        parentheses "(a|b)c*".toList = 2 ∧ parentheses "((a|(b)))((c)*)*".toList = 10 := by
  have hparse : parse "((a|(b)))((c)*)*" =
      .ok (.concat [.union [.literal "a", .literal "b"], .star (.literal "c")]) := by decide
  have htext :
      (concat [.union [.literal "a", .literal "b"], .star (.literal "c")]).text = "(a|b)c*" := by
    rw [text]
    decide
  obtain ⟨hagain, _⟩ := text_minimal hparse
  rw [htext] at hagain
  exact ⟨hparse, hagain, by decide, by decide⟩

end Acceptors.Regex
