import Acceptors.Proofs.Acceptance

/-!
A drawn graph can be read back from its text. Numerals end at the first character that is no digit,
quoted labels at the first quote without a backslash before it, and so each part of a line tells
where it ends, however the text goes on (`quoted_append_inj`, `Node.line_append_inj`,
`Arrow.line_append_inj`). Main statement: `text_eq_text_iff`.
-/

namespace Acceptors

namespace Digraph

/-! ## Parts of a line -/

/-- A run of characters of one kind ends at the first character of another kind. -/
theorem append_inj_of_all {P : Char → Prop} {xs ys r s : List Char} (hxs : ∀ c ∈ xs, P c)
    (hys : ∀ c ∈ ys, P c) (hr : ∀ c ∈ r.head?, ¬ P c) (hs : ∀ c ∈ s.head?, ¬ P c)
    (h : xs ++ r = ys ++ s) :
    xs = ys ∧ r = s := by
  induction xs generalizing ys with
  | nil =>
    cases ys with
    | nil => exact ⟨rfl, h⟩
    | cons y ys =>
      subst h
      exact absurd (hys y List.mem_cons_self) (hr y (by simp))
  | cons x xs ih =>
    cases ys with
    | nil =>
      subst h
      exact absurd (hxs x List.mem_cons_self) (hs x (by simp))
    | cons y ys =>
      obtain ⟨hxy, hrest⟩ := List.cons.inj h
      obtain ⟨hxsys, hrs⟩ := ih (fun c hc => hxs c (List.mem_cons_of_mem x hc))
        (fun c hc => hys c (List.mem_cons_of_mem y hc)) hrest
      exact ⟨by rw [hxy, hxsys], hrs⟩

/-- The character has the value of a digit. -/
def IsDigit (c : Char) : Prop := (Decimal.value? c).isSome = true

instance (c : Char) : Decidable (IsDigit c) := inferInstanceAs (Decidable (_ = true))

/-- No digit comes first. -/
def Stops (r : List Char) : Prop := ∀ c ∈ r.head?, ¬ IsDigit c

theorem stops_of_head {r : List Char} {c : Char} (hr : r.head? = some c) (hc : ¬ IsDigit c) :
    Stops r := by
  intro d hd
  rw [hr] at hd
  exact Option.some.inj hd ▸ hc

theorem isDigit_digit {d : Nat} (h : d < 10) : IsDigit (Decimal.digit d) := by
  rw [IsDigit, Decimal.value?_digit h]
  rfl

theorem isDigit_of_mem_digits {n : Nat} : ∀ c ∈ Decimal.digits n, IsDigit c := by
  induction n using Nat.strongRecOn with
  | ind n ih =>
    intro c hc
    unfold Decimal.digits at hc
    split at hc
    · rename_i h
      rw [List.mem_singleton.mp hc]
      exact isDigit_digit h
    · rcases List.mem_append.mp hc with hc | hc
      · exact ih (n / 10) (by omega) c hc
      · rw [List.mem_singleton.mp hc]
        exact isDigit_digit (by omega)

theorem not_stops_digits_append (n : Nat) (r : List Char) : ¬ Stops (Decimal.digits n ++ r) := by
  intro h
  cases hdigits : Decimal.digits n with
  | nil => exact Decimal.digits_ne_nil n hdigits
  | cons c rest =>
    rw [hdigits] at h
    exact h c rfl (isDigit_of_mem_digits c (hdigits ▸ List.mem_cons_self))

theorem digits_inj {m n : Nat} (h : Decimal.digits m = Decimal.digits n) : m = n := by
  have hread := Decimal.readFrom_digits m
  rw [h, Decimal.readFrom_digits n] at hread
  exact (Option.some.inj hread).symm

/-- A numeral ends where no digit follows. -/
theorem digits_append_inj {m n : Nat} {r s : List Char} (hr : Stops r) (hs : Stops s)
    (h : Decimal.digits m ++ r = Decimal.digits n ++ s) : m = n ∧ r = s := by
  obtain ⟨hdigits, hrest⟩ := append_inj_of_all isDigit_of_mem_digits isDigit_of_mem_digits hr hs h
  exact ⟨digits_inj hdigits, hrest⟩

/-- A label inside quotes ends at the first quote that no backslash stands before. -/
theorem escape_append_inj {xs ys r s : List Char}
    (h : escape xs ++ '"' :: r = escape ys ++ '"' :: s) :
    xs = ys ∧ r = s := by
  induction xs generalizing ys with
  | nil =>
    cases ys with
    | nil => exact ⟨rfl, (List.cons.inj h).2⟩
    | cons y ys =>
      by_cases hy : y = '"' ∨ y = '\\'
      · simp [escape, hy] at h
      · simp only [escape, if_neg hy, List.nil_append, List.cons_append, List.cons.injEq] at h
        exact absurd (.inl h.1.symm) hy
  | cons x xs ih =>
    cases ys with
    | nil =>
      by_cases hx : x = '"' ∨ x = '\\'
      · simp [escape, hx] at h
      · simp only [escape, if_neg hx, List.nil_append, List.cons_append, List.cons.injEq] at h
        exact absurd (.inl h.1) hx
    | cons y ys =>
      -- A backslash that escapes is no character of its own, since a backslash of the label is
      -- doubled.
      by_cases hx : x = '"' ∨ x = '\\' <;> by_cases hy : y = '"' ∨ y = '\\' <;>
        simp only [escape, hx, hy, if_true, if_false, List.cons_append, List.cons.injEq,
          true_and] at h
      · obtain ⟨hxs, hrs⟩ := ih h.2
        exact ⟨by rw [h.1, hxs], hrs⟩
      · exact absurd (.inr h.1.symm) hy
      · exact absurd (.inr h.1) hx
      · obtain ⟨hxs, hrs⟩ := ih h.2
        exact ⟨by rw [h.1, hxs], hrs⟩

theorem quoted_append_inj {a b : String} {r s : List Char} (h : quoted a ++ r = quoted b ++ s) :
    a = b ∧ r = s := by
  simp only [quoted, List.cons_append, List.append_assoc, List.nil_append, List.cons.injEq,
    true_and] at h
  obtain ⟨hlabel, hrest⟩ := escape_append_inj h
  exact ⟨String.toList_inj.mp hlabel, hrest⟩

theorem shape_append_inj {m n : Node} {r s : List Char}
    (h : m.shape ++ "]\n".toList ++ r = n.shape ++ "]\n".toList ++ s) :
    m.terminal = n.terminal ∧ r = s := by
  unfold Node.shape at h
  cases hm : m.terminal <;> cases hn : n.terminal <;> simp_all

/-! ## Lines -/

theorem Node.line_append_inj {m n : Node} {r s : List Char} (h : m.line ++ r = n.line ++ s) :
    m = n ∧ r = s := by
  simp only [Node.line, List.cons_append, List.append_assoc, List.cons.injEq, true_and] at h
  obtain ⟨hindex, h⟩ :=
    digits_append_inj (stops_of_head rfl (by decide)) (stops_of_head rfl (by decide)) h
  obtain ⟨hlabel, h⟩ := quoted_append_inj (List.append_cancel_left h)
  have hshape := List.append_cancel_left h
  rw [← List.append_assoc, ← List.append_assoc] at hshape
  obtain ⟨hterminal, hrest⟩ := shape_append_inj hshape
  cases m
  cases n
  subst hindex hlabel hterminal
  exact ⟨rfl, hrest⟩

theorem Arrow.line_append_inj {a b : Arrow} {r s : List Char} (h : a.line ++ r = b.line ++ s) :
    a = b ∧ r = s := by
  simp only [Arrow.line, List.cons_append, List.append_assoc, List.cons.injEq, true_and] at h
  obtain ⟨hsource, h⟩ :=
    digits_append_inj (stops_of_head rfl (by decide)) (stops_of_head rfl (by decide)) h
  obtain ⟨htarget, h⟩ :=
    digits_append_inj (stops_of_head rfl (by decide)) (stops_of_head rfl (by decide))
    (List.append_cancel_left h)
  obtain ⟨hlabel, h⟩ := quoted_append_inj (List.append_cancel_left h)
  have hrest := List.append_cancel_left h
  cases a
  cases b
  subst hsource htarget hlabel
  exact ⟨rfl, hrest⟩

/-- Pieces that tell where they end are told from what comes after the last of them, if no piece
begins like that. -/
theorem flatMap_append_inj {α : Type} {f : α → List Char} (Ends : List Char → Prop)
    (hf : ∀ {x y : α} {r s : List Char}, f x ++ r = f y ++ s → x = y ∧ r = s)
    (hends : ∀ (x : α) (r : List Char), ¬ Ends (f x ++ r)) {xs ys : List α} {r s : List Char}
    (hr : Ends r) (hs : Ends s) (h : xs.flatMap f ++ r = ys.flatMap f ++ s) : xs = ys ∧ r = s := by
  induction xs generalizing ys with
  | nil =>
    cases ys with
    | nil => exact ⟨rfl, h⟩
    | cons y ys =>
      rw [List.flatMap_nil, List.nil_append, List.flatMap_cons, List.append_assoc] at h
      exact absurd (h ▸ hr) (hends y _)
  | cons x xs ih =>
    cases ys with
    | nil =>
      rw [List.flatMap_nil, List.nil_append, List.flatMap_cons, List.append_assoc] at h
      exact absurd (h ▸ hs) (hends x _)
    | cons y ys =>
      rw [List.flatMap_cons, List.flatMap_cons, List.append_assoc, List.append_assoc] at h
      obtain ⟨hxy, hrest⟩ := hf h
      obtain ⟨hxsys, hrs⟩ := ih hrest
      exact ⟨by rw [hxy, hxsys], hrs⟩

/-- A node's line has a digit after its tab, which the line of the initial node has not. -/
theorem nodes_append_inj {ms ns : List Node} {r s : List Char} (hr : Stops r.tail)
    (hs : Stops s.tail)
    (h : ms.flatMap Node.line ++ r = ns.flatMap Node.line ++ s) : ms = ns ∧ r = s := by
  refine flatMap_append_inj (fun r => Stops r.tail) Node.line_append_inj (fun n r => ?_) hr hs h
  simp only [Node.line, List.cons_append, List.append_assoc, List.tail_cons]
  exact not_stops_digits_append n.index _

/-- An arrow's line begins with a tab, and the last line does not. -/
theorem arrows_append_inj {as bs : List Arrow} {r s : List Char} (hr : r.head? ≠ some '\t')
    (hs : s.head? ≠ some '\t') (h : as.flatMap Arrow.line ++ r = bs.flatMap Arrow.line ++ s) :
    as = bs ∧ r = s :=
  flatMap_append_inj (fun r => r.head? ≠ some '\t') Arrow.line_append_inj
    (fun _ _ hends => hends (by simp [Arrow.line])) hr hs h

theorem initialLine_append_inj {m n : Nat} {r s : List Char}
    (h : initialLine m ++ r = initialLine n ++ s) :
    m = n ∧ r = s := by
  unfold initialLine at h
  rw [List.append_assoc, List.append_assoc, List.append_assoc, List.append_assoc] at h
  obtain ⟨hinitial, h⟩ :=
    digits_append_inj (stops_of_head rfl (by decide)) (stops_of_head rfl (by decide))
    (List.append_cancel_left h)
  exact ⟨hinitial, List.append_cancel_left h⟩

theorem stops_tail_initialLine (n : Nat) (r : List Char) : Stops (initialLine n ++ r).tail :=
  stops_of_head (c := 'd') (by unfold initialLine; simp) (by decide)

theorem lines_inj {g h : Digraph} (heq : g.lines = h.lines) : g = h := by
  simp only [lines, List.append_assoc] at heq
  have hbody := List.append_cancel_left heq
  obtain ⟨hnodes, hbody⟩ :=
    nodes_append_inj (stops_tail_initialLine _ _) (stops_tail_initialLine _ _) hbody
  obtain ⟨hinitial, hbody⟩ := initialLine_append_inj hbody
  obtain ⟨harrows, _⟩ := arrows_append_inj (by decide) (by decide) hbody
  cases g
  cases h
  subst hnodes hinitial harrows
  rfl

theorem text_inj {g h : Digraph} (heq : g.text = h.text) : g = h :=
  lines_inj (String.ofList_inj.mp heq)

end Digraph

namespace Automaton

variable {A B : FiniteAutomaton}

theorem label_of_size_le {q : Nat} (h : A.size ≤ q) : A.label q = "" := by
  rw [label, List.getElem?_eq_none h]

/-- Each state is drawn as the node of its number. -/
theorem nodes_digraph_eq_iff : A.digraph.nodes = B.digraph.nodes ↔
    A.size = B.size ∧ ∀ q, A.label q = B.label q ∧ A.isTerminal q = B.isTerminal q := by
  simp only [digraph]
  constructor
  · intro h
    have hsize : A.size = B.size := by simpa using congrArg List.length h
    refine ⟨hsize, fun q => ?_⟩
    rcases Nat.lt_or_ge q A.size with hq | hq
    · have hnode := congrArg (·[q]?) h
      simpa [hq, hsize ▸ hq] using hnode
    · rw [label_of_size_le hq, label_of_size_le (hsize ▸ hq), isTerminal_of_size_le hq,
        isTerminal_of_size_le (hsize ▸ hq)]
      exact ⟨rfl, rfl⟩
  · rintro ⟨hsize, h⟩
    rw [hsize]
    exact List.map_congr_left fun q _ => by rw [(h q).1, (h q).2]

/-- All edges by source, a symbol being known by its text alone. -/
def textEdges (A : FiniteAutomaton) : List (Nat × String × Nat) :=
  A.allEdges.map fun edge => (edge.1, edge.2.1.text, edge.2.2)

theorem arrows_digraph_eq_iff : A.digraph.arrows = B.digraph.arrows ↔
    A.textEdges = B.textEdges := by
  have hdrawn (C : FiniteAutomaton) :
      C.digraph.arrows = C.textEdges.map fun t => ⟨t.1, t.2.2, t.2.1⟩ := by
    rw [textEdges, List.map_map]
    rfl
  rw [hdrawn A, hdrawn B]
  refine List.map_inj_right fun t u h => ?_
  obtain ⟨hsource, htarget, hlabel⟩ := Digraph.Arrow.mk.inj h
  exact Prod.ext hsource (Prod.ext hlabel htarget)

theorem digraph_eq_iff : A.digraph = B.digraph ↔
    A.initial = B.initial ∧
    (A.size = B.size ∧ ∀ q, A.label q = B.label q ∧ A.isTerminal q = B.isTerminal q) ∧
      A.textEdges = B.textEdges := by
  rw [← nodes_digraph_eq_iff, ← arrows_digraph_eq_iff]
  constructor
  · exact fun h => ⟨congrArg Digraph.initial h, congrArg Digraph.nodes h, congrArg Digraph.arrows h⟩
  · rintro ⟨hinitial, hnodes, harrows⟩
    have hparts (C : FiniteAutomaton) :
        C.digraph = ⟨C.initial, C.digraph.nodes, C.digraph.arrows⟩ := rfl
    rw [hparts A, hinitial, hnodes, harrows]
    rfl

/-- Graphs with one text are equal, whatever their labels. So automata with one text have the same
initial state, as many states, with the same labels, the same ones terminal, and the same edges up
to the texts of their symbols. -/
theorem text_eq_text_iff : (∀ g h : Digraph, g.text = h.text ↔ g = h) ∧
    ∀ A B : FiniteAutomaton, A.text = B.text ↔ A.initial = B.initial ∧
      (A.size = B.size ∧ ∀ q, A.label q = B.label q ∧ A.isTerminal q = B.isTerminal q) ∧
      A.textEdges = B.textEdges := by
  have htext (g h : Digraph) : g.text = h.text ↔ g = h := ⟨Digraph.text_inj, fun heq => by rw [heq]⟩
  refine ⟨htext, fun A B => ?_⟩
  rw [← digraph_eq_iff]
  exact htext A.digraph B.digraph

/-- A label that imitates the end of its own line. -/
example : (⟨0, [⟨0, "\"]\n\t", true⟩], []⟩ : Digraph).text =
    "digraph \x7b\n\trankdir = LR\n\tdummy [label = \"\", shape = none]\n" ++
      "\t0 [label = \"\\\"]\n\t\", shape = doublecircle]\n" ++ "\tdummy -> 0\n\x7d\n" := by
  decide +kernel

end Automaton

end Acceptors
