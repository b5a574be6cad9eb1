import Acceptors.Proofs.Regex.Nesting
import Acceptors.Proofs.Regex.Reader
import Acceptors.Proofs.Regex.Simplified

/-!
Reading what was printed. A printed tree derives as a union, with the parentheses of a concatenation
as a factor, and with those of a star as an atom (`printed`); it stands for the tree built up again.
Main statement: `parse_text`.
-/

namespace Acceptors.Regex

open Grammar

variable {d : Nat} {u v : List Char} {r s : Regex}

/-! ## Trees of phrases -/

/-- The class has all that the reader builds: it is closed, and has epsilon and the literals with a
name. -/
structure Readable (P : Regex → Prop) : Prop extends Closed P where
  epsilon : P .epsilon
  literal {name : String} : name ≠ "" → P (.literal name)

namespace Readable

variable {P : Regex → Prop}

mutual

theorem alternation (hP : Readable P) : {d : Nat} → {u : List Char} → {ts : List Regex} →
    Alternation d u ts → ∀ t ∈ ts, P t
  | _, _, _, .single h => by simpa using hP.product (hP.concatenation h)
  | _, _, _, .cons h _ h' => by simpa using ⟨hP.product (hP.concatenation h), hP.alternation h'⟩

theorem concatenation (hP : Readable P) : {d : Nat} → {u : List Char} → {rs : List Regex} →
    Concatenation d u rs → ∀ r ∈ rs, P r
  | _, _, _, .single h => by simpa using hP.starred h
  | _, _, _, .cons h h' => by simpa using ⟨hP.starred h, hP.concatenation h'⟩

theorem starred (hP : Readable P) : {d : Nat} → {u : List Char} → {r : Regex} → Starred d u r → P r
  | _, _, _, .atom _ h => hP.atom h
  | _, _, _, .star h _ => hP.iterate (hP.starred h)

theorem atom (hP : Readable P) : {d : Nat} → {u : List Char} → {r : Regex} → Atom d u r → P r
  | _, _, _, .group h _ => hP.sum (hP.alternation h)
  | _, _, _, .char _ => hP.literal (by simp)
  | _, _, _, .escape => hP.literal (by simp)
  | _, _, _, .name _ hne => hP.literal (by simpa using hne)
  | _, _, _, .epsilon _ => hP.epsilon
  | _, _, _, .empty => hP.empty

end

theorem derives (hP : Readable P) {text : List Char} (h : Derives d text r) : P r := by
  obtain ⟨u, b, ts, h, _, _, rfl⟩ := h
  exact hP.sum (hP.alternation h)

end Readable

theorem readable_simplified : Readable Simplified where
  toClosed := closed_simplified
  epsilon := .epsilon
  literal _ := .literal _

theorem Grammar.Alternation.simplified {ts : List Regex} (h : Alternation d u ts) :
    ∀ t ∈ ts, t.Simplified := readable_simplified.alternation h

theorem Grammar.Concatenation.simplified {rs : List Regex} (h : Concatenation d u rs) :
    ∀ r ∈ rs, r.Simplified := readable_simplified.concatenation h

theorem Grammar.Starred.simplified (h : Starred d u r) : r.Simplified :=
  readable_simplified.starred h

theorem Grammar.Atom.simplified (h : Atom d u r) : r.Simplified := readable_simplified.atom h

/-! ## Texts by precedence -/

def UnionText (u : List Char) (r : Regex) : Prop := ∃ d ts, Alternation d u ts ∧ sum ts = r

def ConcatText (u : List Char) (r : Regex) : Prop := ∃ d rs, Concatenation d u rs ∧ product rs = r

def AtomText (u : List Char) (r : Regex) : Prop := ∃ d, Atom d u r

theorem AtomText.concatText (h : AtomText u r) : ConcatText u r := by
  obtain ⟨d, h⟩ := h
  exact ⟨d, [r], .single (.atom blank_nil h), product_singleton h.simplified⟩

theorem ConcatText.unionText (h : ConcatText u r) : UnionText u r := by
  obtain ⟨d, rs, h, rfl⟩ := h
  exact ⟨d, [product rs], .single h, sum_singleton (simplified_product h.simplified)⟩

theorem UnionText.grouped (h : UnionText u r) : AtomText ('(' :: u ++ [')']) r := by
  obtain ⟨d, ts, h, rfl⟩ := h
  exact ⟨d + 1, by simpa using Atom.group h blank_nil⟩

theorem AtomText.star (h : AtomText u r) : ConcatText (u ++ ['*']) (iterate r) := by
  obtain ⟨d, h⟩ := h
  have hstar : Starred d (u ++ ['*']) (iterate r) := by
    simpa using Starred.star (.atom blank_nil h) blank_nil
  exact ⟨d, [iterate r], .single hstar, product_singleton hstar.simplified⟩

theorem ConcatText.simplified (h : ConcatText u r) : r.Simplified := by
  obtain ⟨d, rs, h, rfl⟩ := h
  exact simplified_product h.simplified

theorem UnionText.simplified (h : UnionText u r) : r.Simplified := by
  obtain ⟨d, ts, h, rfl⟩ := h
  exact simplified_sum h.simplified

theorem ConcatText.append (hu : ConcatText u r) (hv : ConcatText v s) :
    ConcatText (u ++ v) (product [r, s]) := by
  obtain ⟨d, rs, hu, rfl⟩ := hu
  obtain ⟨e, ss, hv, rfl⟩ := hv
  refine ⟨max d e, rs ++ ss,
    (hu.mono (Nat.le_max_left d e)).append (hv.mono (Nat.le_max_right d e)), ?_⟩
  calc product (rs ++ ss)
    _ = product (product rs :: ss) := (product_splice [] ss hu.simplified).symm
    _ = product ([product rs] ++ ss ++ []) := by simp
    _ = product [product rs, product ss] := (product_splice [product rs] [] hv.simplified).symm

theorem UnionText.append (hu : UnionText u r) (hv : UnionText v s) :
    UnionText (u ++ '|' :: v) (sum [r, s]) := by
  obtain ⟨d, rs, hu, rfl⟩ := hu
  obtain ⟨e, ss, hv, rfl⟩ := hv
  refine ⟨max d e, rs ++ ss,
    (hu.mono (Nat.le_max_left d e)).append (hv.mono (Nat.le_max_right d e)), ?_⟩
  calc sum (rs ++ ss)
    _ = sum (sum rs :: ss) := (sum_splice [] ss hu.simplified).symm
    _ = sum ([sum rs] ++ ss ++ []) := by simp
    _ = sum [sum rs, sum ss] := (sum_splice [sum rs] [] hv.simplified).symm

/-! ## Literals -/

theorem name_escapeName : (cs : List Char) → Name (escapeName cs) cs
  | [] => .nil
  | c :: cs => by
    rw [escapeName]
    split
    · exact .escape (name_escapeName cs)
    · rename_i h
      rw [not_or] at h
      exact .char h.1 h.2 (name_escapeName cs)

theorem atom_renderName {cs : List Char} (h : cs ≠ []) :
    Atom d (renderName cs) (literal (String.ofList cs)) := by
  match cs with
  | [c] =>
    rw [renderName]
    split
    · exact .escape
    · rename_i hspecial
      exact .char (by simpa using hspecial)
  | _ :: _ :: _ => exact .name (name_escapeName _) h

/-! ## Printed trees -/

/-- The tree is printed so that it can be read in any place. -/
structure Printed (r : Regex) : Prop where
  union : UnionText r.render r.simplify
  concat : ConcatText (group (groupedInConcat r) r.render) r.simplify
  star : AtomText (group (groupedInStar r) r.render) r.simplify

namespace Printed

theorem of_atom (hconcat : groupedInConcat r = false) (hstar : groupedInStar r = false)
    (h : AtomText r.render r.simplify) : Printed r where
  union := h.concatText.unionText
  concat := by simpa [hconcat, group] using h.concatText
  star := by simpa [hstar, group] using h

theorem of_concat (hconcat : groupedInConcat r = false) (hstar : groupedInStar r = true)
    (h : ConcatText r.render r.simplify) : Printed r where
  union := h.unionText
  concat := by simpa [hconcat, group] using h
  star := by simpa [hstar, group] using h.unionText.grouped

theorem of_union (hconcat : groupedInConcat r = true) (hstar : groupedInStar r = true)
    (h : UnionText r.render r.simplify) : Printed r where
  union := h
  concat := by simpa [hconcat, group] using h.grouped.concatText
  star := by simpa [hstar, group] using h.grouped

end Printed

mutual

theorem printed : (r : Regex) → (∀ name ∈ r.names, name ≠ "") → Printed r
  | empty, _ => .of_atom rfl rfl ⟨0, .empty⟩
  | epsilon, _ => .of_atom rfl rfl ⟨0, .epsilon (.inl rfl)⟩
  | literal name, h => by
    have hne : name.toList ≠ [] := by simpa using h name (List.mem_singleton_self name)
    refine .of_atom rfl rfl ⟨0, ?_⟩
    simpa [render, simplify] using atom_renderName (d := 0) hne
  | concat [], _ => .of_atom rfl rfl ⟨0, .epsilon (.inl rfl)⟩
  | concat (r :: rs), h => by
    have hr := printed r fun name hname => h name (List.mem_append_left _ hname)
    have hrs := concatText_renderFactors rs
      (fun name hname => h name (List.mem_append_right _ hname))
      hr.concat
    exact .of_concat rfl rfl hrs
  | union [], _ => .of_atom rfl rfl ⟨0, .empty⟩
  | union (r :: rs), h => by
    have hr := printed r fun name hname => h name (List.mem_append_left _ hname)
    have hrs := unionText_renderAlternatives rs
      (fun name hname => h name (List.mem_append_right _ hname)) hr.union
    exact .of_union rfl rfl hrs
  | star r, h => by
    have hr := printed r h
    refine .of_concat rfl rfl ?_
    rw [render, simplify]
    exact hr.star.star

theorem concatText_renderFactors : (rs : List Regex) → (∀ name ∈ namesParts rs, name ≠ "") →
    {u : List Char} → {s : Regex} → ConcatText u s →
      ConcatText (u ++ renderFactors rs) (product (s :: simplifyParts rs))
  | [], _, _, _, hu => by
    simpa [renderFactors, simplifyParts, product_singleton hu.simplified] using hu
  | r :: rs, h, u, s, hu => by
    have hr := printed r fun name hname => h name (List.mem_append_left _ hname)
    have hrs := concatText_renderFactors rs
      (fun name hname => h name (List.mem_append_right _ hname))
      (hu.append hr.concat)
    rwa [List.append_assoc, product_pair_cons _ hu.simplified (simplified_simplify r)] at hrs

theorem unionText_renderAlternatives : (rs : List Regex) → (∀ name ∈ namesParts rs, name ≠ "") →
    {u : List Char} → {s : Regex} → UnionText u s →
      UnionText (u ++ renderAlternatives rs) (sum (s :: simplifyParts rs))
  | [], _, _, _, hu => by
    simpa [renderAlternatives, simplifyParts, sum_singleton hu.simplified] using hu
  | r :: rs, h, u, s, hu => by
    have hr := printed r fun name hname => h name (List.mem_append_left _ hname)
    have hrs := unionText_renderAlternatives rs
      (fun name hname => h name (List.mem_append_right _ hname)) (hu.append hr.union)
    rwa [List.append_assoc, sum_pair_cons _ hu.simplified (simplified_simplify r)] at hrs

end

theorem derives_render (hnames : ∀ name ∈ r.names, name ≠ "") :
    ∃ d, Derives d r.render r.simplify := by
  obtain ⟨d, ts, h, hsum⟩ := (printed r hnames).union
  exact ⟨d, r.render, [], ts, h, blank_nil, (List.append_nil _).symm, hsum.symm⟩

/-- A printed tree is read as the tree built up again, which has the same language. -/
theorem parse_text (r : Regex) (hnames : ∀ name ∈ r.names, name ≠ "")
    (hnesting : nesting r.text.toList ≤ nestLimit) :
    parse r.text = .ok r.simplify ∧ r.simplify.language = r.language := by
  rw [text, String.toList_ofList] at hnesting
  have h : Derives nestLimit r.render r.simplify :=
    derives_iff_nesting_le.mpr ⟨hnesting, derives_render hnames⟩
  refine ⟨?_, language_simplify r⟩
  rw [parse, text, String.toList_ofList]
  exact read_of_derives h

/-- Concatenations and unions with no part or one part, and names in which characters are
escaped. -/
def unsimplified : Regex :=
  .concat [.union [.union [.literal "a>\\", .concat []], .literal "*", .union []],
    .star (.concat [.star (.literal " ")]), .concat [.literal "ε"]]

theorem parse_text_unsimplified :
    (∀ name ∈ unsimplified.names, name ≠ "") ∧ nesting unsimplified.text.toList ≤ nestLimit ∧
      parse unsimplified.text = .ok (.concat
        [.union [.epsilon, .literal "*", .literal "a>\\"], .star (.literal " "),
          .literal "ε"]) := by
  have hnames : ∀ name ∈ unsimplified.names, name ≠ "" := by decide
  have hnesting : nesting unsimplified.text.toList ≤ nestLimit := by
    rw [text, String.toList_ofList]
    decide
  obtain ⟨hparse, _⟩ := parse_text unsimplified hnames hnesting
  refine ⟨hnames, hnesting, hparse.trans ?_⟩
  decide

end Acceptors.Regex
