import Acceptors.Pushdown.Search
import Acceptors.Proofs.Walk

/-!
Runs of pushdown automata. A run is a walk on pairs of a state and a stack, and whatever waits in
the search stands at the end of a run on the input read so far (`Reached`, kept by
`reached_expand`). Main statement: `accepted_imp_acceptingRun`, the search accepts only what some
run accepts.
-/

namespace Acceptors

namespace StackMove

variable {m : StackMove} {stack after : List Symbol}

/-- What the move pops stands on top of the stack and goes before what it pushes comes. -/
def Turns (m : StackMove) (stack after : List Symbol) : Prop :=
  ∃ rest, stack = m.pop.toList ++ rest ∧ after = m.push.toList ++ rest

theorem fires_iff : m.fires stack = true ↔ ∃ rest, stack = m.pop.toList ++ rest := by
  unfold fires
  cases m.pop with
  | none => simp
  | some s =>
    cases stack with
    | nil => simp
    | cons top rest => exact ⟨fun h => ⟨rest, by simp_all⟩, fun ⟨_, h⟩ => by simp_all⟩

theorem apply_append {rest : List Symbol} :
    m.apply (m.pop.toList ++ rest) = m.push.toList ++ rest := by
  unfold apply
  cases m.pop <;> cases m.push <;> simp

/-- The executable move is the only one. -/
theorem turns_iff : m.Turns stack after ↔ m.fires stack = true ∧ after = m.apply stack := by
  constructor
  · rintro ⟨rest, rfl, rfl⟩
    exact ⟨fires_iff.mpr ⟨rest, rfl⟩, apply_append.symm⟩
  · rintro ⟨hfires, rfl⟩
    obtain ⟨rest, rfl⟩ := fires_iff.mp hfires
    exact ⟨rest, rfl, apply_append⟩

end StackMove

namespace PushdownAutomaton

variable {P : PushdownAutomaton} {w : Word} {c d : Configuration}

/-- One move between pairs of a state and a stack, along an edge on `s`. -/
def Move (P : PushdownAutomaton) (x : Nat × List Symbol) (s : Symbol) (y : Nat × List Symbol) :
    Prop :=
  ∃ m ∈ P.next x.1 s, m.target = y.1 ∧ m.Turns x.2 y.2

/-- Moves that spell the word lead from the initial state with the empty stack to a terminal
state. -/
def AcceptingRun (P : PushdownAutomaton) (w : Word) : Prop :=
  ∃ q stack, Walk P.Move (P.initial, []) w (q, stack) ∧ P.isTerminal q = true

theorem move_fire {m : StackMove} {s : Symbol} (n : Nat) (hm : m ∈ P.next c.state s)
    (hfires : m.fires c.stack = true) :
    P.Move (c.state, c.stack) s ((c.fire n m).state, (c.fire n m).stack) :=
  ⟨m, hm, rfl, StackMove.turns_iff.mpr ⟨hfires, rfl⟩⟩

/-! ## What one expansion finds -/

theorem mem_symbolMoves :
    d ∈ P.symbolMoves w c ↔
      ∃ s, w[c.position]? = some s ∧ ∃ m ∈ P.next c.state s, m.fires c.stack = true ∧
      c.fire 1 m = d := by
  unfold symbolMoves
  cases w[c.position]? with
  | none => simp
  | some s => simp [and_assoc]

/-- Whatever was tried before, an epsilon move that is found is one of the moves and fires. -/
theorem of_mem_epsilonMoves {moves : List StackMove} {tried : List Trial}
    (h : d ∈ (epsilonMoves c moves tried).1) :
    ∃ m ∈ moves, m.fires c.stack = true ∧ c.fire 0 m = d := by
  induction moves generalizing tried with
  | nil => simp [epsilonMoves] at h
  | cons m moves ih =>
    simp only [epsilonMoves] at h
    split at h
    · rename_i hnew
      rcases List.mem_cons.mp h with rfl | h
      · exact ⟨m, by simp, (Bool.and_eq_true_iff.mp hnew).1, rfl⟩
      · obtain ⟨n, hn, hd⟩ := ih h
        exact ⟨n, by simp [hn], hd⟩
    · obtain ⟨n, hn, hd⟩ := ih h
      exact ⟨n, by simp [hn], hd⟩

/-! ## The invariant of the search -/

/-- A run on the input up to the position of the configuration leads to it. -/
structure Reached (P : PushdownAutomaton) (w : Word) (c : Configuration) : Prop where
  inside : c.position ≤ w.length
  run : Walk P.Move (P.initial, []) (w.take c.position) (c.state, c.stack)

theorem reached_start : P.Reached w ⟨0, P.initial, []⟩ where
  inside := Nat.zero_le _
  run := .nil _

/-- A symbol of the input that is not epsilon is what the move along its edge spells. -/
theorem Reached.symbolMove (hw : w.Plain) (hc : P.Reached w c) (hd : d ∈ P.symbolMoves w c) :
    P.Reached w d := by
  obtain ⟨s, hs, m, hm, hfires, rfl⟩ := mem_symbolMoves.mp hd
  obtain ⟨hlt, hget⟩ := List.getElem?_eq_some_iff.mp hs
  have hspelled : s.spelled = [s] := Symbol.spelled_of_ne fun he =>
    hw (he ▸ hget ▸ List.getElem_mem hlt)
  have hword : w.take (c.position + 1) = w.take c.position ++ s.spelled := by
    rw [hspelled, ← hget, List.take_append_getElem]
  refine ⟨Nat.succ_le_of_lt hlt, ?_⟩
  show Walk P.Move _ (w.take (c.position + 1)) _
  rw [hword]
  exact hc.run.append (.edge (move_fire 1 hm hfires))

theorem Reached.epsilonMove {tried : List Trial} (hc : P.Reached w c)
    (hd : d ∈ (epsilonMoves c (P.next c.state .epsilon) tried).1) : P.Reached w d := by
  obtain ⟨m, hm, hfires, rfl⟩ := of_mem_epsilonMoves hd
  have hrun := hc.run.append (.edge (move_fire 0 hm hfires))
  rw [Symbol.spelled_epsilon, List.append_nil] at hrun
  exact ⟨hc.inside, hrun⟩

theorem reached_expand {rest : Search} (hw : w.Plain) (hc : P.Reached w c)
    (hrest : ∀ d ∈ rest.pending, P.Reached w d) :
    ∀ d ∈ (P.expand w c rest).pending, P.Reached w d := by
  intro d hd
  simp only [expand, List.mem_append, List.mem_reverse] at hd
  rcases hd with (hd | hd) | hd
  · exact hc.epsilonMove hd
  · exact hc.symbolMove hw hd
  · exact hrest d hd

/-! ## Whole searches -/

/-- How a search comes to its outcome: nothing waits, the limit is reached, or what comes first
accepts. -/
inductive Ending (P : PushdownAutomaton) (w : Word) (limit : Option Nat) : Search → Outcome → Prop
  | emptied {s : Search} {steps : Nat} : s.pending = [] → Ending P w limit s ⟨steps, false, false⟩
  | stopped {s : Search} {steps : Nat} :
      limit.any (fun most => decide (most ≤ steps)) = true → Ending P w limit s ⟨steps, false, true⟩
  | accepted {s : Search} {c : Configuration} {pending : List Configuration} {steps : Nat} :
      s.pending = c :: pending → P.isAccepting w c = true → Ending P w limit s ⟨steps, true, false⟩

/-- A look at a configuration that does not accept keeps the property. -/
def Keeps (P : PushdownAutomaton) (w : Word) (I : Search → Prop) : Prop :=
  ∀ s c pending, s.pending = c :: pending → P.isAccepting w c = false → I s →
    I (P.expand w c ⟨pending, s.tried⟩)

/-- What each look keeps holds where the search ends. -/
theorem Keeps.exists_ending {I : Search → Prop} (hI : P.Keeps w I) {limit : Option Nat}
    {fuel steps : Nat}
    {s : Search} {o : Outcome} (hs : I s) (h : P.searchFrom w limit fuel steps s = some o) :
    ∃ last, I last ∧ P.Ending w limit last o := by
  fun_induction P.searchFrom w limit fuel steps s with
  | case1 fuel steps s hnil =>
    cases h
    exact ⟨s, hs, .emptied hnil⟩
  | case2 fuel steps s c pending hcons hlimit =>
    cases h
    exact ⟨s, hs, .stopped hlimit⟩
  | case3 => cases h
  | case4 steps s c pending hcons hlimit fuel haccepting =>
    cases h
    exact ⟨s, hs, .accepted hcons haccepting⟩
  | case5 steps s c pending hcons hlimit fuel haccepting ih =>
    exact ih (hI s c pending hcons (Bool.eq_false_iff.mpr haccepting) hs) h

theorem keeps_reached (hw : w.Plain) : P.Keeps w fun s => ∀ d ∈ s.pending, P.Reached w d := by
  intro s c pending hcons _ hs
  exact reached_expand hw (hs c (by simp [hcons])) fun d hd => hs d (by simp [hcons, hd])

/-- A search that accepts has come to a terminal state at the end of the input. -/
theorem exists_reached_of_searchFrom (hw : w.Plain) {limit : Option Nat} {fuel steps : Nat}
    {s : Search} {o : Outcome} (hs : ∀ c ∈ s.pending, P.Reached w c)
    (h : P.searchFrom w limit fuel steps s = some o) (haccepted : o.accepted = true) :
    ∃ c, P.Reached w c ∧ P.isAccepting w c = true := by
  obtain ⟨last, hlast, hending⟩ := (keeps_reached hw).exists_ending hs h
  cases hending with
  | emptied | stopped => cases haccepted
  | accepted hcons haccepting => exact ⟨_, hlast _ (by simp [hcons]), haccepting⟩

theorem Reached.acceptingRun (hc : P.Reached w c) (h : P.isAccepting w c = true) :
    P.AcceptingRun w := by
  obtain ⟨hterminal, hposition⟩ : P.isTerminal c.state = true ∧ c.position = w.length := by
    simpa [isAccepting] using h
  have hrun := hc.run
  rw [hposition, List.take_length] at hrun
  exact ⟨c.state, c.stack, hrun, hterminal⟩

/-- Under any limit, what the search accepts has an accepting run. -/
theorem accepted_imp_acceptingRun (P : PushdownAutomaton) (hw : w.Plain) (limit : Option Nat)
    (h : (P.search w limit).accepted = true) : P.AcceptingRun w := by
  unfold search at h
  cases hsearch : P.searchFrom w limit (P.searchBound w) 0 P.start with
  | none => simp [hsearch] at h
  | some o =>
    have hstart : ∀ c ∈ P.start.pending, P.Reached w c := by
      simpa [start] using reached_start
    have haccepted : o.accepted = true := by simpa [hsearch] using h
    obtain ⟨c, hc, haccepting⟩ := exists_reached_of_searchFrom hw hstart hsearch haccepted
    exact hc.acceptingRun haccepting

/-- As many `b` as `a`: the stack holds what is ahead, on a bottom marker that is popped last. -/
def balanced : PushdownAutomaton :=
  let a := Symbol.literal "a"
  let b := Symbol.literal "b"
  let bottom := Symbol.literal "$"
  ⟨0, [⟨0, "", false, Table.ofEdges [(.epsilon, ⟨1, some bottom, none⟩)]⟩,
    ⟨1, "", false, Table.ofEdges [(a, ⟨1, some a, none⟩), (a, ⟨1, none, some b⟩),
      (b, ⟨1, some b, none⟩), (b, ⟨1, none, some a⟩), (.epsilon, ⟨2, none, some bottom⟩)]⟩,
    ⟨2, "", true, ∅⟩], SortedSet.ofList [a, b]⟩

theorem acceptingRun_balanced :
    Word.Plain (Word.ofText "abba") ∧
      (balanced.search (Word.ofText "abba") (some 40)).accepted = true ∧
      balanced.AcceptingRun (Word.ofText "abba") := by
  have hw : Word.Plain (Word.ofText "abba") := by decide
  have h : (balanced.search (Word.ofText "abba") (some 40)).accepted = true := by decide +kernel
  exact ⟨hw, h, accepted_imp_acceptingRun balanced hw (some 40) h⟩

end PushdownAutomaton

end Acceptors
