import Acceptors.Proofs.Discovery
import Acceptors.Proofs.Isomorphism

/-!
The search for an isomorphism as a loop. Every state of the first automaton has a cursor over the
candidates for its image. Where a candidate fits, the loop goes on to the next state; where none is
left, it goes back to the state before, takes its pair back and tries the candidates that follow
(`Backtrack.step`). By induction on the states to be matched, and on the candidates left for the
first of them, the loop passes all candidates by or comes to the end (`Backtrack.explores`). Main
statement: `Backtrack.decides_iff`, the loop ends and answers as the recursion does.
-/

namespace Acceptors.Automaton

/-- The variables of the loop: the pairs made, the images taken, the next candidate to be tried for
each state, the position of the state to be matched, and whether its candidates are being tried. -/
structure Backtrack where
  forward : Matching
  used : List Nat
  cursor : List Nat
  position : Nat
  trying : Bool
  deriving DecidableEq

namespace Backtrack

def start (count : Nat) : Backtrack := ⟨[], [], List.replicate count 0, 0, false⟩

/-- Takes back the pair of a state, if it has one. -/
def undo (b : Backtrack) (p : Nat) : Backtrack :=
  match image? b.forward p with
  | some q =>
    { b with forward := b.forward.filter fun pair => pair.1 != p, used := b.used.filter (· != q) }
  | none => b

/-- The initial states are matched with each other. An image must not be taken, and must agree with
the pairs made. -/
def fits (A B : FiniteAutomaton) (b : Backtrack) (p q : Nat) : Bool :=
  !(b.position == 0 && q != B.initial || b.used.contains q) && A.compatible B b.forward p q

/-- One turn of the loop, with an answer or the variables after it. It takes a state up and takes
its pair back, or tries one candidate for it; when there is none left, the next turn takes up the
state before. -/
def step (A B : FiniteAutomaton) (order candidates : List Nat) (b : Backtrack) : Bool ⊕ Backtrack :=
  match order[b.position]? with
  | none => .inl true
  | some p =>
    if b.trying then
      let c := b.cursor.getD b.position 0
      match candidates[c]? with
      | some q =>
        let cursor := b.cursor.set b.position (c + 1)
        if b.fits A B p q then
          .inr ⟨(p, q) :: b.forward, q :: b.used, cursor, b.position + 1, false⟩
        else .inr { b with cursor := cursor }
      | none =>
        if b.position = 0 then .inl false
        else .inr { b with
          cursor := b.cursor.set b.position 0, position := b.position - 1, trying := false }
    else .inr { b.undo p with trying := true }

/-- The loop ends, after so many turns as there are rules applied, and gives the answer. -/
inductive Answers (A B : FiniteAutomaton) (order candidates : List Nat) : Backtrack → Bool → Prop
  | ends {b : Backtrack} {answer : Bool} : step A B order candidates b = .inl answer →
      Answers A B order candidates b answer
  | turns {b b' : Backtrack} {answer : Bool} : step A B order candidates b = .inr b' →
      Answers A B order candidates b' answer → Answers A B order candidates b answer

variable {A B : FiniteAutomaton} {order candidates before todo : List Nat} {m : Matching}
    {p q c : Nat}

/-- The loop gives one answer at most. -/
theorem Answers.unique {b : Backtrack} {x y : Bool} (hx : Answers A B order candidates b x)
    (hy : Answers A B order candidates b y) : x = y := by
  induction hx with
  | ends hx =>
    cases hy with
    | ends hy => exact Sum.inl.inj (hx.symm.trans hy)
    | turns hy _ => cases hx.symm.trans hy
  | turns hx _ ih =>
    cases hy with
    | ends hy => cases hx.symm.trans hy
    | turns hy h =>
      cases hx.symm.trans hy
      exact ih h

/-- Turns that give no answer. -/
def Turns (A B : FiniteAutomaton) (order candidates : List Nat) : Backtrack → Backtrack → Prop :=
  Relation.ReflTransGen fun b b' => step A B order candidates b = .inr b'

theorem Answers.of_turns {b b' : Backtrack} {answer : Bool} (h : Turns A B order candidates b b')
    (hb : Answers A B order candidates b' answer) : Answers A B order candidates b answer := by
  induction h using Relation.ReflTransGen.head_induction_on with
  | refl => exact hb
  | head hstep _ ih => exact .turns hstep ih

/-! ## Turns -/

/-- The variables while a state is matched. The states before it have the pairs of `m` and the
cursors `before`, the cursor of the state itself is `c`, and those of the states after it are at the
start. -/
def facing (m : Matching) (before : List Nat) (c : Nat) (todo : List Nat) (trying : Bool) :
    Backtrack :=
  ⟨m, m.map (·.2), before ++ c :: List.replicate todo.length 0, m.length, trying⟩

section Turns

variable (horder : order = (m.map (·.1)).reverse ++ p :: todo)

include horder

theorem getElem?_order : order[m.length]? = some p := by simp [horder]

theorem not_mem_keys (hnodup : order.Nodup) : p ∉ m.map (·.1) := by
  rw [horder, List.nodup_append] at hnodup
  exact fun hp => hnodup.2.2 p (List.mem_reverse.mpr hp) p List.mem_cons_self rfl

/-- A state without a pair is taken up. -/
theorem step_facing (hp : p ∉ m.map (·.1)) :
    step A B order candidates (facing m before c todo false) =
      .inr (facing m before c todo true) := by
  have hnone : image? m p = none := by
    rw [image?, Option.map_eq_none_iff, List.find?_eq_none]
    rintro x hx heq
    exact hp (List.mem_map.mpr ⟨x, hx, beq_iff_eq.mp heq⟩)
  simp [step, facing, getElem?_order horder, undo, hnone]

/-- The pair of a state that the loop comes back to is taken back. -/
theorem step_back (hp : p ∉ m.map (·.1)) (hq : q ∉ m.map (·.2)) :
    step A B order candidates ⟨(p, q) :: m, q :: m.map (·.2),
      before ++ c :: List.replicate todo.length 0, m.length, false⟩ =
        .inr (facing m before c todo true) := by
  have himage : image? ((p, q) :: m) p = some q := by simp [image?]
  have hkeys : m.filter (fun pair => pair.1 != p) = m :=
    List.filter_eq_self.mpr fun x hx => bne_iff_ne.mpr fun h => hp (List.mem_map.mpr ⟨x, hx, h⟩)
  have hused : (m.map (·.2)).filter (· != q) = m.map (·.2) :=
    List.filter_eq_self.mpr fun r hr => bne_iff_ne.mpr fun h => hq (h ▸ hr)
  simp [step, facing, getElem?_order horder, undo, himage, hkeys, hused]

variable (hbefore : before.length = m.length)

include hbefore

/-- A candidate that fits becomes the image, and any other is passed by. -/
theorem step_candidate (hq : candidates[c]? = some q) :
    step A B order candidates (facing m before c todo true) =
      if (facing m before c todo true).fits A B p q then
        .inr ⟨(p, q) :: m, q :: m.map (·.2), before ++ (c + 1) :: List.replicate todo.length 0,
          m.length + 1, false⟩
      else .inr (facing m before (c + 1) todo true) := by
  have hget : order[before.length]? = some p := hbefore ▸ getElem?_order horder
  simp [step, facing, ← hbefore, hget, hq]

/-- Where no candidate is left, the loop goes back to the state before, if there is one. -/
theorem step_exhausted (hc : candidates.length ≤ c) :
    step A B order candidates (facing m before c todo true) =
      if m.length = 0 then .inl false
      else .inr ⟨m, m.map (·.2), before ++ 0 :: List.replicate todo.length 0, m.length - 1,
        false⟩ := by
  have hget : order[before.length]? = some p := hbefore ▸ getElem?_order horder
  simp [step, facing, ← hbefore, hget, hc]

end Turns

/-! ## The search -/

/-- The loop comes to a happy end if something is found, and otherwise to the other variables. -/
structure Explores (A B : FiniteAutomaton) (order candidates : List Nat) (found : Bool)
    (b b' : Backtrack) : Prop where
  answers : found = true → Answers A B order candidates b true
  turns : found = false → Turns A B order candidates b b'

namespace Explores

variable {x y : Bool} {b b' b'' : Backtrack}

theorem refl (b : Backtrack) : Explores A B order candidates false b b := ⟨nofun, fun _ => .refl⟩

theorem turn (hstep : step A B order candidates b = .inr b')
    (h : Explores A B order candidates x b' b'') :
    Explores A B order candidates x b b'' :=
  ⟨fun hx => .turns hstep (h.answers hx), fun hx => .head hstep (h.turns hx)⟩

theorem or (h : Explores A B order candidates x b b')
    (h' : Explores A B order candidates y b' b'') :
    Explores A B order candidates (x || y) b b'' := by
  cases x with
  | true => exact ⟨fun _ => h.answers rfl, nofun⟩
  | false =>
    exact ⟨fun hy => .of_turns (h.turns rfl) (h'.answers hy),
      fun hy => (h.turns rfl).trans (h'.turns hy)⟩

end Explores

/-- The candidate fits, and the states after can be matched as well. -/
def succeeds (A B : FiniteAutomaton) (candidates : List Nat) (m : Matching) (p : Nat)
    (todo : List Nat) (q : Nat) : Bool :=
  (!(m.length == 0 && q != B.initial) && !(m.any fun pair => pair.2 == q) &&
    A.compatible B m p q) &&
    A.extendMatching B candidates todo ((p, q) :: m)

/-- After the first pair the recursion goes on if a candidate succeeds. -/
theorem extendMatching_cons {x : Nat × Nat} : A.extendMatching B candidates (p :: todo) (x :: m) =
      candidates.any (succeeds A B candidates (x :: m) p todo) := by
  rw [extendMatching]
  refine congrArg candidates.any (funext fun q => ?_)
  simp [succeeds]

theorem fits_facing : (facing m before c todo true).fits A B p q =
    (!(m.length == 0 && q != B.initial) && !(m.any fun pair => pair.2 == q) &&
      A.compatible B m p q) := by
  have hused : (m.map (·.2)).contains q = m.any fun pair => pair.2 == q := by
    rw [Bool.eq_iff_iff, List.contains_iff_mem, List.mem_map, List.any_eq_true]
    simp
  simp only [fits, facing, Bool.not_or, hused]

/-- The candidates of a state are tried one after the other, provided that the pair with one that
fits is followed up and taken back. -/
theorem explores_candidates (horder : order = (m.map (·.1)).reverse ++ p :: todo)
    (hbefore : before.length = m.length)
    (hnext : ∀ q c, q ∉ m.map (·.2) →
      Explores A B order candidates (A.extendMatching B candidates todo ((p, q) :: m))
        ⟨(p, q) :: m, q :: m.map (·.2), before ++ (c + 1) :: List.replicate todo.length 0,
          m.length + 1, false⟩
        (facing m before (c + 1) todo true))
    {tried rest : List Nat} (hcandidates : candidates = tried ++ rest) :
    Explores A B order candidates (rest.any (succeeds A B candidates m p todo))
      (facing m before tried.length todo true) (facing m before candidates.length todo true) := by
  induction rest generalizing tried with
  | nil =>
    rw [hcandidates, List.append_nil]
    exact .refl _
  | cons q rest ih =>
    have hq : candidates[tried.length]? = some q := by simp [hcandidates]
    have hstep := step_candidate (A := A) (B := B) horder hbefore hq
    have hmore : candidates = (tried ++ [q]) ++ rest := by simp [hcandidates]
    have hrest := ih hmore
    have hsucceeds : succeeds A B candidates m p todo q =
        ((facing m before tried.length todo true).fits A B p q &&
          A.extendMatching B candidates todo ((p, q) :: m)) := by rw [fits_facing, succeeds]
    rw [List.length_append, List.length_singleton] at hrest
    rw [List.any_cons, hsucceeds]
    cases hfits : (facing m before tried.length todo true).fits A B p q with
    | true =>
      rw [hfits, if_pos rfl] at hstep
      have hfree : q ∉ m.map (·.2) := by
        simp only [fits, Bool.and_eq_true, Bool.not_eq_true', Bool.or_eq_false_iff] at hfits
        simpa [facing] using hfits.1.2
      exact .or (.turn hstep (hnext q _ hfree)) hrest
    | false =>
      rw [hfits, if_neg Bool.false_ne_true] at hstep
      exact .turn hstep hrest

/-- The induction on the states to be matched: the states after are matched, or all their candidates
are passed by and the loop comes back. -/
theorem explores (hnodup : order.Nodup) (horder : order = (m.map (·.1)).reverse ++ p :: todo)
    (hbefore : before.length = m.length) {tried rest : List Nat}
    (hcandidates : candidates = tried ++ rest) :
    Explores A B order candidates (rest.any (succeeds A B candidates m p todo))
      (facing m before tried.length todo true) (facing m before candidates.length todo true) := by
  induction todo generalizing m p before tried rest with
  | nil =>
    -- The state is the last one: with its image all are matched.
    refine explores_candidates horder hbefore (fun q c _ => ⟨fun _ => .ends ?_, nofun⟩) hcandidates
    simp [step, horder]
  | cons p' todo ih =>
    refine explores_candidates horder hbefore (fun q c hq => ?_) hcandidates
    have hp := not_mem_keys horder hnodup
    have horder' : order = (((p, q) :: m).map (·.1)).reverse ++ p' :: todo := by simp [horder]
    have hbefore' : (before ++ [c + 1]).length = ((p, q) :: m).length := by simp [hbefore]
    have hstart :
        step A B order candidates (facing ((p, q) :: m) (before ++ [c + 1]) 0 todo false) =
        .inr (facing ((p, q) :: m) (before ++ [c + 1]) 0 todo true) :=
      step_facing horder' (not_mem_keys horder' hnodup)
    have hend : step A B order candidates
        (facing ((p, q) :: m) (before ++ [c + 1]) candidates.length todo true) =
        .inr ⟨(p, q) :: m, q :: m.map (·.2),
          before ++ (c + 1) :: List.replicate (p' :: todo).length 0, m.length, false⟩ := by
      rw [step_exhausted horder' hbefore' le_rfl]
      simp [List.replicate_succ]
    have hback : step A B order candidates ⟨(p, q) :: m, q :: m.map (·.2),
        before ++ (c + 1) :: List.replicate (p' :: todo).length 0, m.length, false⟩ =
          .inr (facing m before (c + 1) (p' :: todo) true) := step_back horder hp hq
    rw [extendMatching_cons]
    have hlevel := (Explores.turn hstart (ih horder' hbefore' (List.nil_append candidates).symm)).or
      (.turn hend (.turn hback (.refl _)))
    simpa [facing, List.replicate_succ] using hlevel

end Backtrack

/-! ## Isomorphism -/

variable {A B : FiniteAutomaton}

theorem breadthFirst_eq_cons (A : FiniteAutomaton) : ∃ todo, A.breadthFirst = A.initial :: todo :=
  A.graph.nodes_eq_cons A.size

theorem lists_breadthFirst (hA : A.WellFormed) :
    Queue.Lists A.successors A.initial A.breadthFirst := by
  refine Queue.lists_explore (U := List.range A.size) (fun p _ q hq => ?_) (by simp) ?_
  · obtain ⟨s, hs⟩ := mem_successors.mp hq
    exact List.mem_range.mpr (hA.target_lt hs)
  · exact List.mem_range.mpr hA.initial_lt

namespace Backtrack

/-- Automata with different numbers of reachable states are told apart at once, and others are
compared by the loop. -/
def Decides (A B : FiniteAutomaton) (answer : Bool) : Prop :=
  if A.breadthFirst.length = B.breadthFirst.length then
    Answers A B A.breadthFirst B.breadthFirst (start A.breadthFirst.length) answer
  else answer = false

theorem isomorphic_eq_any {todo : List Nat} (horder : A.breadthFirst = A.initial :: todo)
    (hlength : A.breadthFirst.length = B.breadthFirst.length) :
    A.isomorphic B = B.breadthFirst.any (succeeds A B B.breadthFirst [] A.initial todo) := by
  have hinitial : B.initial ∈ B.breadthFirst := by
    obtain ⟨rest, hrest⟩ := B.breadthFirst_eq_cons
    rw [hrest]
    exact List.mem_cons_self
  rw [isomorphic, hlength, beq_self_eq_true, Bool.true_and, horder, Bool.eq_iff_iff,
    List.any_eq_true]
  simp [succeeds, hinitial]

/-- The loop ends and answers as the recursion does. -/
theorem decides_isomorphic (hA : A.WellFormed) : Decides A B (A.isomorphic B) := by
  obtain ⟨todo, horder⟩ := A.breadthFirst_eq_cons
  have hnodup : A.breadthFirst.Nodup := (lists_graph hA).nodup
  unfold Decides
  split
  · rename_i hlength
    rw [isomorphic_eq_any horder hlength]
    rw [horder] at hnodup ⊢
    generalize B.breadthFirst = candidates
    have hstart : step A B (A.initial :: todo) candidates (facing [] [] 0 todo false) =
        .inr (facing [] [] 0 todo true) := step_facing rfl List.not_mem_nil
    have hsearch : Explores A B (A.initial :: todo) candidates
        (candidates.any (succeeds A B candidates [] A.initial todo)) (facing [] [] 0 todo true)
        (facing [] [] candidates.length todo true) :=
      explores hnodup rfl rfl (List.nil_append candidates).symm
    refine .turns hstart ?_
    cases hfound : candidates.any (succeeds A B candidates [] A.initial todo) with
    | true => exact hsearch.answers hfound
    | false =>
      -- All candidates of the initial state are passed by, and there is no state before it.
      refine .of_turns (hsearch.turns hfound) (.ends ?_)
      exact step_exhausted rfl rfl le_rfl
  · rename_i hlength
    rw [isomorphic, beq_false_of_ne hlength, Bool.false_and]

theorem decides_iff (hA : A.WellFormed) {answer : Bool} :
    Decides A B answer ↔ answer = A.isomorphic B := by
  refine ⟨fun h => ?_, fun h => h ▸ decides_isomorphic hA⟩
  have hdecides := decides_isomorphic (B := B) hA
  unfold Decides at h hdecides
  split at h
  · rename_i hlength
    rw [if_pos hlength] at hdecides
    exact h.unique hdecides
  · rename_i hlength
    rw [if_neg hlength] at hdecides
    exact h.trans hdecides.symm

end Backtrack

end Acceptors.Automaton
