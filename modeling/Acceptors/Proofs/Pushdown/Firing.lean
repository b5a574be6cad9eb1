import Acceptors.Proofs.Pushdown.Completeness

/-!
Which epsilon edges one look at a configuration fires: of the enabled edges to one target the first,
unless a move to that target is recorded (`mem_fired_iff`). What is recorded goes back to a
configuration with the same position and state that was looked at before
(`Underway.exists_arrival`). Main statement: `epsilonEdge_fired_or_skipped`. With two edges between
the same states the first arrival does not fire all (`not_epsilonEdge_fired_forked`).
-/

namespace Acceptors.PushdownAutomaton

variable {P : PushdownAutomaton} {w : Word} {c : Configuration} {m : StackMove}
  {looked pending : List Configuration} {s : Search} {tried : List Trial}

/-! ## The points of a search -/

/-- The search stands at this point after it has looked at these configurations, the last first. -/
inductive Underway (P : PushdownAutomaton) (w : Word) : List Configuration → Search → Prop
  | start : Underway P w [] P.start
  | look {looked pending : List Configuration} {s next : Search} {c : Configuration} :
      Underway P w looked s → s.pending = c :: pending → P.isAccepting w c = false →
      P.expand w c ⟨pending, s.tried⟩ = next → Underway P w (c :: looked) next

/-- The search from the start comes to the point, unless a limit stops it before, and goes on from
there. -/
theorem Underway.searchFrom_eq (h : P.Underway w looked s) {limit : Option Nat}
    (hlimit : ∀ most ∈ limit, looked.length ≤ most) (fuel : Nat) :
    P.searchFrom w limit (looked.length + fuel) 0 P.start =
      P.searchFrom w limit fuel looked.length s := by
  induction h generalizing fuel with
  | start => rw [List.length_nil, Nat.zero_add]
  | @look looked pending s next c _ hs haccepting hnext ih =>
    have hlength : ∀ most ∈ limit, looked.length < most := hlimit
    have hany : ¬ (limit.any fun most => decide (most ≤ looked.length)) = true := by
      simpa [Option.any_eq_true] using hlength
    have hstep : P.searchFrom w limit (fuel + 1) looked.length s =
        P.searchFrom w limit fuel (looked.length + 1) next := by
      rw [searchFrom, hs]
      simp only [if_neg hany, haccepting, Bool.false_eq_true, if_false, hnext]
    rw [List.length_cons, Nat.add_assoc, Nat.add_comm 1 fuel,
      ih (fun most hmost => Nat.le_of_lt (hlength most hmost)), hstep]

/-- What is recorded as tried was tried at a configuration that was looked at. -/
theorem Underway.exists_arrival (h : P.Underway w looked s) {t : Trial} (ht : t ∈ s.tried) :
    ∃ d ∈ looked, ∃ n, P.EpsilonEdge d n ∧ d.trial n = t := by
  induction h with
  | start => simp [PushdownAutomaton.start] at ht
  | @look looked pending s next c _ hs _ hnext ih =>
    rw [← hnext] at ht
    rcases of_mem_tried_epsilonMoves ht with hkept | ⟨n, hn, hfires, htrial, _⟩
    · obtain ⟨d, hd, hedge⟩ := ih (List.mem_filter.mp hkept).1
      exact ⟨d, List.mem_cons_of_mem c hd, hedge⟩
    · exact ⟨c, List.mem_cons_self, n, ⟨hn, hfires⟩, htrial⟩

/-! ## What one look fires -/

/-- The move is enabled and its trial is not recorded. -/
def Configuration.isUntried (c : Configuration) (tried : List Trial) (m : StackMove) : Bool :=
  m.fires c.stack && !tried.contains (c.trial m)

/-- The epsilon edges that a look at the configuration fires: the first to each target that is not
recorded. -/
def fired (P : PushdownAutomaton) (c : Configuration) (tried : List Trial) : List StackMove :=
  fresh StackMove.target [] ((P.next c.state .epsilon).filter (c.isUntried tried))

theorem isUntried_iff : c.isUntried tried m = true ↔
    m.fires c.stack = true ∧ c.trial m ∉ tried := by
  simp [Configuration.isUntried]

theorem trial_eq_iff {n : StackMove} : c.trial n = c.trial m ↔ n.target = m.target := by
  simp [Configuration.trial]

theorem epsilonMoves_cons_of_isUntried {moves : List StackMove} (h : c.isUntried tried m = true) :
    (epsilonMoves c (m :: moves) tried).1 =
      c.fire 0 m :: (epsilonMoves c moves (c.trial m :: tried)).1 := by
  rw [Configuration.isUntried, Configuration.trial] at h
  simp only [epsilonMoves, if_pos h, Configuration.trial]

theorem epsilonMoves_cons_of_not_isUntried {moves : List StackMove}
    (h : ¬ c.isUntried tried m = true) :
    (epsilonMoves c (m :: moves) tried).1 = (epsilonMoves c moves tried).1 := by
  rw [Configuration.isUntried, Configuration.trial] at h
  simp only [epsilonMoves, if_neg h]

/-- The moves found so far are recorded by the time the others have their turn. -/
theorem epsilonMoves_eq_map_fresh (moves found : List StackMove) :
    (epsilonMoves c moves (found.map c.trial ++ tried)).1 =
      (fresh StackMove.target found (moves.filter (c.isUntried tried))).map (c.fire 0) := by
  induction moves generalizing found with
  | nil => rfl
  | cons m moves ih =>
    have hrecorded : c.isUntried (found.map c.trial ++ tried) m = true ↔
        c.isUntried tried m = true ∧ ∀ n ∈ found, n.target ≠ m.target := by
      simp only [isUntried_iff, List.mem_append, List.mem_map, trial_eq_iff, not_or, not_exists,
        not_and]
      tauto
    by_cases huntried : c.isUntried tried m = true
    · rw [List.filter_cons_of_pos huntried, fresh]
      split
      · rename_i hfound
        rw [epsilonMoves_cons_of_not_isUntried (by simpa [hrecorded, huntried] using hfound)]
        exact ih found
      · rename_i hfound
        rw [epsilonMoves_cons_of_isUntried (by simpa [hrecorded, huntried] using hfound)]
        exact congrArg (c.fire 0 m :: ·) (ih (m :: found))
    · rw [List.filter_cons_of_neg huntried, epsilonMoves_cons_of_not_isUntried fun h =>
        huntried (hrecorded.mp h).1]
      exact ih found

/-- Only the records at the position of the configuration count, and these are kept. -/
theorem isUntried_filter :
    c.isUntried (tried.filter fun t => decide (t.position ≤ c.position)) = c.isUntried tried := by
  funext m
  rw [Bool.eq_iff_iff, isUntried_iff, isUntried_iff]
  simp [Configuration.trial]

/-- A look puts what it fires before all else, the last edge first. -/
theorem pending_expand (P : PushdownAutomaton) (w : Word) (c : Configuration) (rest : Search) :
    (P.expand w c rest).pending =
      ((P.fired c rest.tried).map (c.fire 0)).reverse ++ (P.symbolMoves w c).reverse ++
      rest.pending := by
  have hfired : (epsilonMoves c (P.next c.state .epsilon)
      (rest.tried.filter fun t => decide (t.position ≤ c.position))).1 =
        (P.fired c rest.tried).map (c.fire 0) := by
    rw [fired, ← isUntried_filter]
    exact epsilonMoves_eq_map_fresh _ []
  simp only [expand, ← hfired]

theorem mem_filter_isUntried_iff :
    m ∈ (P.next c.state .epsilon).filter (c.isUntried tried) ↔
    P.EpsilonEdge c m ∧ c.trial m ∉ tried := by
  rw [List.mem_filter, isUntried_iff]
  exact ⟨fun ⟨hm, hfires, htried⟩ => ⟨⟨hm, hfires⟩, htried⟩,
    fun ⟨hm, htried⟩ => ⟨hm.edge, hm.fires, htried⟩⟩

/-- An enabled edge is fired if and only if no move to its target is recorded and no enabled edge to
its target comes before it. -/
theorem mem_fired_iff :
    m ∈ P.fired c tried ↔ P.EpsilonEdge c m ∧ c.trial m ∉ tried ∧
      ∀ n, P.EpsilonEdge c n → n.target = m.target → compare n m ≠ .lt := by
  have hsorted : ((P.next c.state .epsilon).filter (c.isUntried tried)).Pairwise fun a b =>
      compare a b = .lt :=
    (P.pairwise_next c.state .epsilon).filter _
  rw [fired, mem_fresh_iff_of_pairwise (fun _ _ => Std.OrientedCmp.not_lt_of_lt) hsorted]
  simp only [mem_filter_isUntried_iff, List.not_mem_nil, false_implies, implies_true, true_and,
    and_assoc]
  refine and_congr_right fun _ => and_congr_right fun htried => ?_
  constructor
  · intro hfirst n hn htarget
    exact hfirst n ⟨hn, trial_eq_iff.mpr htarget ▸ htried⟩ htarget
  · exact fun hfirst n hn => hfirst n hn.1

theorem compare_eq_lt_of_ne {n : StackMove} (hne : n ≠ m) (h : compare m n ≠ .lt) :
    compare n m = .lt := by
  cases hcompare : compare m n with
  | lt => exact absurd hcompare h
  | eq => exact absurd (Std.LawfulEqOrd.eq_of_compare hcompare).symm hne
  | gt => exact Std.OrientedCmp.gt_iff_lt.mp hcompare

/-- For an enabled edge without a record some edge to its target is fired. -/
theorem exists_fired (hm : P.EpsilonEdge c m) (htried : c.trial m ∉ tried) :
    ∃ n ∈ P.fired c tried, n.target = m.target :=
  fresh_covers StackMove.target [] (mem_filter_isUntried_iff.mpr ⟨hm, htried⟩)

/-- The search goes on with what it fires. Where it has no record at the position and the state, an
enabled epsilon edge is fired unless another one to its target comes before it. So an enabled edge
is skipped because of an earlier arrival at the position and the state, or for an edge to its target
that is fired in its place. -/
theorem epsilonEdge_fired_or_skipped (h : P.Underway w looked s) (hs : s.pending = c :: pending)
    (haccepting : P.isAccepting w c = false) :
    (∀ limit : Option Nat, (∀ most ∈ limit, looked.length < most) → ∀ fuel,
        P.searchFrom w limit (looked.length + 1 + fuel) 0 P.start =
          P.searchFrom w limit fuel (looked.length + 1) (P.expand w c ⟨pending, s.tried⟩)) ∧
      (P.expand w c ⟨pending, s.tried⟩).pending =
        ((P.fired c s.tried).map (c.fire 0)).reverse ++ (P.symbolMoves w c).reverse ++ pending ∧
      (∀ m ∈ P.fired c s.tried, P.EpsilonEdge c m) ∧
      ((∀ t ∈ s.tried, t.position = c.position → t.source ≠ c.state) → ∀ m, P.EpsilonEdge c m →
        (m ∈ P.fired c s.tried ↔ ∀ n, P.EpsilonEdge c n → n.target = m.target →
          compare n m ≠ .lt)) ∧
      ∀ m, P.EpsilonEdge c m → m ∉ P.fired c s.tried →
        (∃ d ∈ looked, d.position = c.position ∧ d.state = c.state ∧
          ∃ n, P.EpsilonEdge d n ∧ n.target = m.target) ∨
        ∃ n ∈ P.fired c s.tried, n.target = m.target ∧ compare n m = .lt := by
  refine ⟨fun limit hlimit fuel => ?_, pending_expand P w c ⟨pending, s.tried⟩,
    fun m hm => (mem_fired_iff.mp hm).1, fun hnone m hm => ?_, fun m hm hskipped => ?_⟩
  · exact (h.look hs haccepting rfl).searchFrom_eq hlimit fuel
  · have htried : c.trial m ∉ s.tried := fun ht => hnone _ ht rfl rfl
    rw [mem_fired_iff]
    exact ⟨fun hfired => hfired.2.2, fun hfirst => ⟨hm, htried, hfirst⟩⟩
  · by_cases htried : c.trial m ∈ s.tried
    · obtain ⟨d, hd, n, hn, htrial⟩ := h.exists_arrival htried
      obtain ⟨hposition, hstate, htarget⟩ :
          d.position = c.position ∧ d.state = c.state ∧ n.target = m.target := by
        simpa [Configuration.trial] using htrial
      exact .inl ⟨d, hd, hposition, hstate, n, hn, htarget⟩
    · obtain ⟨n, hn, htarget⟩ := exists_fired hm htried
      have hne : n ≠ m := fun heq => hskipped (heq ▸ hn)
      have hnot : compare m n ≠ .lt := (mem_fired_iff.mp hn).2.2 m hm htarget.symm
      exact .inr ⟨n, hn, htarget, compare_eq_lt_of_ne hne hnot⟩

/-- Two epsilon edges between the same states, of which the second leaves on top what the word needs
then. The state before them is reached with two stacks. -/
def forked : PushdownAutomaton :=
  let x := Symbol.literal "x"
  let y := Symbol.literal "y"
  let a := Symbol.literal "a"
  ⟨0, [⟨0, "", false, Table.ofEdges [(a, ⟨1, some x, none⟩), (a, ⟨1, some y, none⟩)]⟩,
    ⟨1, "", false, Table.ofEdges [(.epsilon, ⟨2, some x, none⟩), (.epsilon, ⟨2, some y, none⟩)]⟩,
    ⟨2, "", false, Table.ofEdges [(.literal "b", ⟨3, none, some y⟩)]⟩, ⟨3, "", true, ∅⟩],
    SortedSet.ofList [.literal "a", .literal "b"]⟩

theorem assembled_forked : forked.Assembled := ⟨forked.parts, rfl⟩

/-- The search looks at the start, then at one of the two configurations before the fork. -/
theorem underway_forked_first :
    forked.Underway (Word.ofText "ab") [⟨0, 0, []⟩]
      ⟨[⟨1, 1, [.literal "y"]⟩, ⟨1, 1, [.literal "x"]⟩], []⟩ :=
  .look .start rfl (by decide) (by decide +kernel)

/-- It comes to the other one when the one edge that it fired has led to nothing. -/
theorem underway_forked_second :
    forked.Underway (Word.ofText "ab")
      [⟨1, 2, [.literal "x", .literal "y"]⟩, ⟨1, 1, [.literal "y"]⟩, ⟨0, 0, []⟩]
        ⟨[⟨1, 1, [.literal "x"]⟩], [⟨1, 1, 2⟩]⟩ := by
  have hfork : forked.Underway (Word.ofText "ab") [⟨1, 1, [.literal "y"]⟩, ⟨0, 0, []⟩]
      ⟨[⟨1, 2, [.literal "x", .literal "y"]⟩, ⟨1, 1, [.literal "x"]⟩], [⟨1, 1, 2⟩]⟩ :=
    .look underway_forked_first rfl (by decide) (by decide +kernel)
  exact .look hfork rfl (by decide) (by decide +kernel)

/-- The second edge of the fork is enabled whatever the stack. -/
theorem epsilonEdge_forked (position : Nat) (stack : List Symbol) :
    forked.EpsilonEdge ⟨position, 1, stack⟩ ⟨2, some (.literal "y"), none⟩ where
  edge := by
    show _ ∈ forked.next 1 .epsilon
    decide +kernel
  fires := rfl

/-- At the first arrival the second edge is skipped for the first one, at the second arrival for the
arrival before. -/
theorem epsilonEdge_skipped_forked :
    forked.Underway (Word.ofText "ab") [⟨0, 0, []⟩]
        ⟨[⟨1, 1, [.literal "y"]⟩, ⟨1, 1, [.literal "x"]⟩], []⟩ ∧
      forked.isAccepting (Word.ofText "ab") ⟨1, 1, [.literal "y"]⟩ = false ∧
      (∃ n ∈ forked.fired ⟨1, 1, [.literal "y"]⟩ [],
        n.target = 2 ∧ compare n ⟨2, some (.literal "y"), none⟩ = .lt) ∧
      forked.Underway (Word.ofText "ab")
        [⟨1, 2, [.literal "x", .literal "y"]⟩, ⟨1, 1, [.literal "y"]⟩, ⟨0, 0, []⟩]
          ⟨[⟨1, 1, [.literal "x"]⟩], [⟨1, 1, 2⟩]⟩ ∧
      forked.isAccepting (Word.ofText "ab") ⟨1, 1, [.literal "x"]⟩ = false ∧
      ∃ d ∈ ([⟨1, 2, [.literal "x", .literal "y"]⟩, ⟨1, 1, [.literal "y"]⟩, ⟨0, 0, []⟩] :
        List Configuration),
        d.position = 1 ∧ d.state = 1 ∧ ∃ n, forked.EpsilonEdge d n ∧ n.target = 2 := by
  have hfirst : forked.isAccepting (Word.ofText "ab") ⟨1, 1, [.literal "y"]⟩ = false := by decide
  have hsecond : forked.isAccepting (Word.ofText "ab") ⟨1, 1, [.literal "x"]⟩ = false := by decide
  have hskipped := (epsilonEdge_fired_or_skipped underway_forked_first rfl hfirst).2.2.2.2
    ⟨2, some (.literal "y"), none⟩ (epsilonEdge_forked _ _) (by decide +kernel)
  have hskipped' := (epsilonEdge_fired_or_skipped underway_forked_second rfl hsecond).2.2.2.2
    ⟨2, some (.literal "y"), none⟩ (epsilonEdge_forked _ _) (by decide +kernel)
  have hnone : forked.fired ⟨1, 1, [.literal "x"]⟩ [⟨1, 1, 2⟩] = [] := by decide +kernel
  exact ⟨underway_forked_first, hfirst, hskipped.resolve_left (by simp), underway_forked_second,
    hsecond, hskipped'.resolve_right (by simp [hnone])⟩

theorem acceptingRun_forked : forked.AcceptingRun (Word.ofText "ab") := by
  have hread : forked.Move (0, []) (.literal "a") (1, [.literal "x"]) :=
    ⟨⟨1, some (.literal "x"), none⟩, by decide +kernel, rfl, [], rfl, rfl⟩
  have hfork : forked.Move (1, [.literal "x"]) .epsilon (2, [.literal "y", .literal "x"]) :=
    ⟨⟨2, some (.literal "y"), none⟩, by decide +kernel, rfl, [.literal "x"], rfl, rfl⟩
  have hpop : forked.Move (2, [.literal "y", .literal "x"]) (.literal "b") (3, [.literal "x"]) :=
    ⟨⟨3, none, some (.literal "y")⟩, by decide +kernel, rfl, [.literal "x"], rfl, rfl⟩
  exact ⟨3, [.literal "x"], .cons hread (.cons hfork (.cons hpop (.nil _))), rfl⟩

/-- No record does not make the search fire all enabled epsilon edges, and a word can be lost for
that. -/
theorem not_epsilonEdge_fired_forked :
    (¬ ∀ (P : PushdownAutomaton) (w : Word) (looked pending : List Configuration) (s : Search)
        (c : Configuration), P.Assembled → P.Underway w looked s → s.pending = c :: pending →
        P.isAccepting w c = false → (∀ t ∈ s.tried, t.position = c.position → t.source ≠ c.state) →
        ∀ m, P.EpsilonEdge c m → m ∈ P.fired c s.tried) ∧
      forked.accepts (Word.ofText "ab") = false ∧ forked.AcceptingRun (Word.ofText "ab") := by
  refine ⟨fun hall => ?_, by decide +kernel, acceptingRun_forked⟩
  have hfired := hall forked (Word.ofText "ab") _ _ _ _ assembled_forked underway_forked_first rfl
    (by decide) (by simp) ⟨2, some (.literal "y"), none⟩ (epsilonEdge_forked _ _)
  revert hfired
  decide +kernel

end Acceptors.PushdownAutomaton
