import Acceptors.Automaton.Statewise
import Acceptors.Proofs.Assembly
import Acceptors.Proofs.Deterministic

/-!
Completion and complement. The sink takes the edges that had no entry and leads nowhere else, so the
states of the automaton keep their words (`wordsFrom_complete`). An entry without an edge counts as
present: completion gives it no edge, and a word whose reading comes to one is in neither language
(`Stalls`). Main statement: `mem_wordsFrom_complement`.
-/

namespace Acceptors.Automaton

variable {A : FiniteAutomaton}

/-! ## Filled tables -/

theorem contains_connect {t : Table Nat} {edge : Symbol × Nat} {s : Symbol} :
    (t.connect edge).contains s = true ↔ s = edge.1 ∨ t.contains s = true := by
  rw [Table.connect, SortedMap.contains, SortedMap.get?_update]
  split <;> simp_all [SortedMap.contains]

theorem next_of_not_contains {t : Table Nat} {s : Symbol} (h : t.contains s = false) :
    t.next s = [] := by
  have hnone : t.get? s = none := by simpa [SortedMap.contains] using h
  rw [Table.next, hnone]

/-- A filled table leads to the sink where there was no entry. -/
theorem mem_next_fillTable {alphabet : Alphabet} {sink q : Nat} {t : Table Nat} {s : Symbol} :
    q ∈ (fillTable alphabet sink t).next s ↔
      q ∈ t.next s ∨ s ∈ alphabet ∧ t.contains s = false ∧ q = sink := by
  unfold fillTable
  rw [← SortedSet.mem_toList]
  induction alphabet.toList generalizing t with
  | nil => simp
  | cons r symbols ih =>
    rw [List.foldl_cons, ih]
    cases hr : t.contains r with
    | true => grind
    | false =>
      have hnext := next_of_not_contains hr
      simp only [Bool.false_eq_true, ↓reduceIte, Table.mem_next_connect, ← Bool.not_eq_true,
        contains_connect, Prod.mk.injEq, List.mem_cons]
      grind

/-! ## Completion -/

theorem size_complete_of (h : A.isComplete = false) : A.complete.size = A.size + 1 := by
  simp [complete, h, size]

theorem size_le_complete : A.size ≤ A.complete.size := by
  cases h : A.isComplete with
  | true => simp [complete, h]
  | false => simp [size_complete_of h]

theorem size_complete_le : A.complete.size ≤ A.size + 1 := by
  cases h : A.isComplete with
  | true => simp [complete, h]
  | false => exact (size_complete_of h).le

@[simp] theorem alphabet_complete : A.complete.alphabet = A.alphabet := by
  unfold complete
  split <;> rfl

@[simp] theorem initial_complete : A.complete.initial = A.initial := by
  unfold complete
  split <;> rfl

/-- The table of the state has an entry for the symbol, be it an empty one. -/
def HasEntry (A : FiniteAutomaton) (p : Nat) (s : Symbol) : Prop :=
  ∃ state, A.states[p]? = some state ∧ state.table.contains s = true

theorem getElem?_complete (h : A.isComplete = false) (p : Nat) :
    A.complete.states[p]? = ((A.states ++ [sink A.size])[p]?).map fun q =>
      { q with table := fillTable A.alphabet A.size q.table } := by
  rw [complete, if_neg (by simp [h]), List.getElem?_map]

theorem getElem?_append_sink (p : Nat) :
    (A.states ++ [sink A.size])[p]? = if p = A.size then some (sink A.size) else A.states[p]? := by
  rcases Nat.lt_trichotomy p A.size with hlt | heq | hgt
  · rw [List.getElem?_append_left hlt, if_neg (by omega)]
  · rw [heq, if_pos rfl, size, List.getElem?_concat_length]
  · have hlength : (A.states ++ [sink A.size]).length = A.size + 1 := by simp [size]
    rw [if_neg (by omega), List.getElem?_eq_none (by omega),
      List.getElem?_eq_none (Nat.le_of_lt hgt)]

/-- The sink carries the number after all others. -/
theorem Indexed.complete (hA : A.Indexed) : A.complete.Indexed := by
  cases h : A.isComplete with
  | true => rwa [Automaton.complete, if_pos h]
  | false =>
    intro i q hq
    rw [getElem?_complete h, getElem?_append_sink] at hq
    split at hq
    · rename_i hi
      cases hq
      exact hi.symm
    · obtain ⟨state, hstate, rfl⟩ := Option.map_eq_some_iff.mp hq
      exact hA i state hstate

/-- The edges that completion adds lead to the sink, from where there was no entry. -/
theorem step_complete (h : A.isComplete = false) {p q : Nat} {s : Symbol} :
    A.complete.Step p s q ↔
      A.Step p s q ∨ p ≤ A.size ∧ s ∈ A.alphabet ∧ ¬ A.HasEntry p s ∧ q = A.size := by
  rw [Step, Step, next, next, getElem?_complete h, getElem?_append_sink]
  by_cases hp : p = A.size
  · have hnone : A.states[p]? = none := List.getElem?_eq_none (by rw [hp, size])
    have hnot : ¬ A.HasEntry p s := by
      rintro ⟨state, hstate, _⟩
      simp [hnone] at hstate
    subst hp
    have hsink : (sink A.size).table.contains s = false ∧ (sink A.size).table.next s = [] :=
      ⟨rfl, rfl⟩
    simp [hnone, hnot, State.next, mem_next_fillTable, hsink]
  · rw [if_neg hp]
    cases hstate : A.states[p]? with
    | none =>
      have hle : A.size ≤ p := List.getElem?_eq_none_iff.mp hstate
      simp only [Option.map_none, List.not_mem_nil, false_or, false_iff]
      omega
    | some state =>
      have hlt : p < A.size := (List.getElem?_eq_some_iff.mp hstate).1
      have hentry : A.HasEntry p s ↔ state.table.contains s = true := by simp [HasEntry, hstate]
      simp [State.next, mem_next_fillTable, hentry, hlt.le]

theorem walk_complete {p q : Nat} {w : Word} (hw : Walk A.Step p w q) :
    Walk A.complete.Step p w q := by
  cases h : A.isComplete with
  | true => rwa [complete, if_pos h]
  | false => exact hw.mono fun p s q hs => (step_complete h).mpr (.inl hs)

theorem isTerminal_complete (p : Nat) : A.complete.isTerminal p = A.isTerminal p := by
  cases h : A.isComplete with
  | true => rw [complete, if_pos h]
  | false =>
    by_cases hp : p = A.size
    · rw [isTerminal, getElem?_complete h, getElem?_append_sink, if_pos hp, hp,
        isTerminal_of_size_le A.size.le_refl]
      rfl
    · rw [isTerminal, getElem?_complete h, getElem?_append_sink, if_neg hp, isTerminal]
      cases A.states[p]? <;> rfl

/-- No word leads on from the sink. -/
theorem wordsFrom_sink (h : A.isComplete = false) : A.complete.wordsFrom A.size = 0 := by
  refine le_antisymm ?_ zero_le
  have hlabelling : Labelling A.complete.Step (fun q => A.complete.isTerminal q = true)
      fun p => if p = A.size then 0 else ⊤ := by
    constructor
    · intro p hp
      have hne : p ≠ A.size := by
        rintro rfl
        simp [isTerminal_complete, isTerminal_of_size_le] at hp
      simp [hne]
    · intro p s q hs
      by_cases hp : p = A.size
      · have hq : q = A.size := by
          rcases (step_complete h).mp hs with hs | ⟨_, _, _, hq⟩
          · exact absurd (source_lt hs) (by omega)
          · exact hq
        simp [hq]
      · simp [hp]
  have hle := hlabelling.wordsTo_le A.size
  rwa [if_pos rfl] at hle

/-- Completion keeps the words of every state. -/
theorem wordsFrom_complete (p : Nat) : A.complete.wordsFrom p = A.wordsFrom p := by
  cases h : A.isComplete with
  | true => rw [complete, if_pos h]
  | false =>
    apply le_antisymm
    · refine wordsTo_le_of_simulation (R := fun p q => p = q) ?_ ?_ rfl
      · rintro p _ rfl hp
        rwa [isTerminal_complete] at hp
      · rintro p _ s q rfl hs ⟨w, hw⟩
        rcases (step_complete h).mp hs with hs | ⟨_, _, _, rfl⟩
        · exact ⟨q, hs, rfl⟩
        · rw [← wordsFrom, wordsFrom_sink h] at hw
          cases hw
    · refine wordsTo_le_of_simulation (R := fun p q => p = q) ?_ ?_ rfl
      · rintro p _ rfl hp
        rwa [isTerminal_complete]
      · rintro p _ s q rfl hs _
        exact ⟨q, (step_complete h).mpr (.inl hs), rfl⟩

theorem Labelled.complete (hA : A.Labelled) : A.complete.Labelled := by
  cases h : A.isComplete with
  | true =>
    rw [Automaton.complete, if_pos h]
    exact hA
  | false =>
    refine ⟨⟨?_, fun p s q hs => ?_⟩, fun {p q s} hs hne => ?_⟩
    · rw [initial_complete]
      exact hA.wellFormed.initial_lt.trans_le size_le_complete
    · rw [size_complete_of h]
      rcases (step_complete h).mp hs with hs | ⟨_, _, _, rfl⟩
      · exact Nat.lt_succ_of_lt (hA.wellFormed.target_lt hs)
      · exact Nat.lt_succ_self _
    · rw [alphabet_complete]
      rcases (step_complete h).mp hs with hs | ⟨_, hs, _⟩
      · exact hA.mem_alphabet hs hne
      · exact hs

/-! ## Words that completion reads -/

theorem hasEntry_of_step {p q : Nat} {s : Symbol} (h : A.Step p s q) : A.HasEntry p s := by
  obtain ⟨state, targets, hstate, htargets, _⟩ := step_iff.mp h
  exact ⟨state, hstate, by simp [SortedMap.contains, htargets]⟩

/-- Complete tables have an entry for every symbol of the alphabet. -/
theorem isComplete_iff : A.isComplete = true ↔ ∀ p < A.size, ∀ s ∈ A.alphabet, A.HasEntry p s := by
  simp only [isComplete, List.all_eq_true]
  constructor
  · intro h p hp s hs
    exact ⟨A.states[p], List.getElem?_eq_getElem hp, h _ (List.getElem_mem hp) s hs⟩
  · intro h state hstate s hs
    obtain ⟨p, hp, rfl⟩ := List.mem_iff_getElem.mp hstate
    obtain ⟨state, hget, hentry⟩ := h p hp s hs
    obtain rfl := Option.some.inj ((List.getElem?_eq_getElem hp).symm.trans hget)
    exact hentry

theorem not_hasEntry_size {s : Symbol} : ¬ A.HasEntry A.size s := by
  rintro ⟨state, hstate, _⟩
  exact absurd (List.getElem?_eq_some_iff.mp hstate).1 (Nat.lt_irrefl _)

/-- The table of the state has an entry for the symbol, but no edge. -/
def Hollow (A : FiniteAutomaton) (p : Nat) (s : Symbol) : Prop :=
  A.HasEntry p s ∧ ∀ q, ¬ A.Step p s q

/-- Reading the word from the state comes to an entry without an edge. -/
inductive Stalls (A : FiniteAutomaton) : Nat → Word → Prop
  | here {p : Nat} {s : Symbol} {w : Word} : A.Hollow p s → Stalls A p (s :: w)
  | later {p q : Nat} {s : Symbol} {w : Word} : A.Step p s q → Stalls A q w → Stalls A p (s :: w)

/-- A table made of edges has no entry without an edge. -/
theorem not_hollow_of_ofEdges
    (htable : ∀ state ∈ A.states, ∃ es, state.table = Table.ofEdges es) (p : Nat) (s : Symbol) :
    ¬ A.Hollow p s := by
  rintro ⟨⟨state, hstate, hentry⟩, hnone⟩
  obtain ⟨es, hes⟩ := htable state (List.mem_of_getElem? hstate)
  obtain ⟨targets, htargets⟩ := Option.isSome_iff_exists.mp hentry
  have hempty : ∀ q, (s, q) ∉ es := by
    intro q hq
    have hmem : q ∈ targets := (Table.mem_of_get?_ofEdges (hes ▸ htargets)).mpr hq
    exact hnone q (step_iff.mpr ⟨state, targets, hstate, htargets, hmem⟩)
  rw [hes, Table.get?_ofEdges_eq_none_iff.mpr hempty] at htargets
  cases htargets

/-- The tables have no entry without an edge if and only if no set of targets in them is empty. -/
theorem forall_not_hollow_iff : (∀ p s, ¬ A.Hollow p s) ↔
    ∀ state ∈ A.states, ∀ targets ∈ state.table.values, targets.toList ≠ [] := by
  constructor
  · intro h state hstate targets htargets hempty
    obtain ⟨p, hp⟩ := List.mem_iff_getElem?.mp hstate
    obtain ⟨⟨s, _⟩, hentry, rfl⟩ := List.mem_map.mp htargets
    have hget := SortedMap.mem_entries_iff.mp hentry
    refine h p s ⟨⟨state, hp, by simp [SortedMap.contains, hget]⟩, fun q hq => ?_⟩
    obtain ⟨state', targets', hstate', htargets', hmem⟩ := step_iff.mp hq
    obtain rfl := Option.some.inj (hp.symm.trans hstate')
    obtain rfl := Option.some.inj (hget.symm.trans htargets')
    rw [← SortedSet.mem_toList, hempty] at hmem
    cases hmem
  · rintro h p s ⟨⟨state, hstate, hentry⟩, hnone⟩
    obtain ⟨targets, htargets⟩ := Option.isSome_iff_exists.mp hentry
    have hne := h state (List.mem_of_getElem? hstate) targets (SortedMap.mem_values htargets)
    obtain ⟨q, hq⟩ := List.exists_mem_of_ne_nil _ hne
    exact hnone q (step_iff.mpr ⟨state, targets, hstate, htargets, hq⟩)

/-- Tables without empty entries are made of the edges of their states. -/
theorem ofEdges_edges_of_not_hollow (h : ∀ p s, ¬ A.Hollow p s) {p : Nat} {state : State Nat}
    (hstate : A.states[p]? = some state) : Table.ofEdges (A.edges p) = state.table := by
  rw [edges, hstate]
  exact Table.ofEdges_edges (forall_not_hollow_iff.mp h state (List.mem_of_getElem? hstate))

theorem not_stalls (h : ∀ p s, ¬ A.Hollow p s) (p : Nat) (w : Word) : ¬ A.Stalls p w := by
  intro hw
  induction hw with
  | here hs => exact h _ _ hs
  | later _ _ ih => exact ih

theorem not_stalls_size (w : Word) : ¬ A.Stalls A.size w := by
  rintro (⟨⟨hs, _⟩⟩ | ⟨hs, _⟩)
  · exact not_hasEntry_size hs
  · exact not_hasEntry_size (hasEntry_of_step hs)

theorem stalls_cons_iff_of_step (hdet : Deterministic A.Step) {p q : Nat} {s : Symbol} {w : Word}
    (hs : A.Step p s q) : A.Stalls p (s :: w) ↔ A.Stalls q w := by
  constructor
  · rintro (⟨⟨_, hnone⟩⟩ | ⟨hs', hw⟩)
    · exact absurd hs (hnone q)
    · rwa [hdet.unique p s q _ hs hs']
  · exact .later hs

/-- What the automaton stalls on it does not accept. -/
theorem Stalls.not_mem_wordsFrom (hdet : Deterministic A.Step) {p : Nat} {w : Word}
    (h : A.Stalls p w) : w ∉ A.wordsFrom p := by
  induction h with
  | here hs =>
    intro hw
    obtain ⟨q, hq, _⟩ := (cons_mem_wordsTo hdet.noEpsilon).mp hw
    exact hs.2 q hq
  | later hs _ ih =>
    intro hw
    exact ih ((hdet.cons_mem_iff hs).mp hw)

theorem deterministic_complete (hdet : Deterministic A.Step) (he : Symbol.epsilon ∉ A.alphabet) :
    Deterministic A.complete.Step := by
  cases h : A.isComplete with
  | true => rwa [complete, if_pos h]
  | false =>
    constructor
    · intro p q hs
      rcases (step_complete h).mp hs with hs | ⟨_, hs, _⟩
      · exact hdet.noEpsilon p q hs
      · exact he hs
    · intro p s q r hq hr
      rcases (step_complete h).mp hq with hq | ⟨_, _, hnq, hq⟩ <;>
        rcases (step_complete h).mp hr with hr | ⟨_, _, hnr, hr⟩
      · exact hdet.unique p s q r hq hr
      · exact absurd (hasEntry_of_step hq) hnr
      · exact absurd (hasEntry_of_step hr) hnq
      · exact hq.trans hr.symm

theorem wordsFrom_of_walk_complete (hdet : Deterministic A.Step) (he : Symbol.epsilon ∉ A.alphabet)
    {p q : Nat} {w : Word} (hw : Walk A.complete.Step p w q) :
    A.wordsFrom q = (A.wordsFrom p).leftQuotient w := by
  rw [← wordsFrom_complete, ← wordsFrom_complete (p := p)]
  exact wordsFrom_of_walk (deterministic_complete hdet he) hw

/-- The complete automaton goes on from every state by every symbol, but for entries without an
edge. -/
theorem exists_step_complete_iff {p : Nat} (hp : p < A.complete.size) {s : Symbol}
    (hs : s ∈ A.alphabet) : (∃ q, A.complete.Step p s q) ↔ ¬ A.Hollow p s := by
  cases h : A.isComplete with
  | true =>
    rw [complete, if_pos h] at hp ⊢
    simp [Hollow, isComplete_iff.mp h p hp s hs]
  | false =>
    rw [size_complete_of h] at hp
    have hle : p ≤ A.size := Nat.le_of_lt_succ hp
    simp only [step_complete h, Hollow, hle, hs, true_and]
    by_cases hentry : A.HasEntry p s
    · simp [hentry]
    · simp [hentry]

theorem stalls_cons_iff_of_step_complete (hdet : Deterministic A.Step) {p q : Nat} {s : Symbol}
    {w : Word} (hs : A.complete.Step p s q) : A.Stalls p (s :: w) ↔ A.Stalls q w := by
  cases h : A.isComplete with
  | true =>
    rw [complete, if_pos h] at hs
    exact stalls_cons_iff_of_step hdet hs
  | false =>
    rcases (step_complete h).mp hs with hs | ⟨_, _, hno, rfl⟩
    · exact stalls_cons_iff_of_step hdet hs
    · refine iff_of_false ?_ (not_stalls_size w)
      rintro (⟨⟨hs, _⟩⟩ | ⟨hs, _⟩)
      · exact hno hs
      · exact hno (hasEntry_of_step hs)

/-- The complete automaton reads the words over the alphabet on which the automaton does not
stall. -/
theorem exists_walk_complete_iff (hA : A.Labelled) (hdet : Deterministic A.Step)
    (he : Symbol.epsilon ∉ A.alphabet) {p : Nat} (hp : p < A.complete.size) {w : Word} :
    (∃ q, Walk A.complete.Step p w q) ↔ w.Over A.alphabet ∧ ¬ A.Stalls p w := by
  have hcomplete := deterministic_complete hdet he
  induction w generalizing p with
  | nil => exact iff_of_true ⟨p, .nil p⟩ ⟨Word.over_nil, nofun⟩
  | cons s w ih =>
    simp only [Walk.cons_iff hcomplete.noEpsilon, Word.over_cons_iff]
    constructor
    · rintro ⟨r, q, hs, hw⟩
      have hlt := hA.complete.wellFormed.target_lt hs
      obtain ⟨hover, hstalls⟩ := (ih hlt).mp ⟨r, hw⟩
      have hsymbol : s ∈ A.alphabet := by
        rw [← alphabet_complete]
        exact hA.complete.mem_alphabet hs fun h => hcomplete.noEpsilon p q (h ▸ hs)
      exact ⟨⟨hsymbol, hover⟩, fun h => hstalls ((stalls_cons_iff_of_step_complete hdet hs).mp h)⟩
    · rintro ⟨⟨hsymbol, hover⟩, hstalls⟩
      obtain ⟨q, hs⟩ := (exists_step_complete_iff hp hsymbol).mpr fun h => hstalls (.here h)
      have hlt := hA.complete.wellFormed.target_lt hs
      obtain ⟨r, hw⟩ := (ih hlt).mpr
        ⟨hover, fun h => hstalls ((stalls_cons_iff_of_step_complete hdet hs).mpr h)⟩
      exact ⟨r, q, hs, hw⟩

/-! ## Complement -/

theorem size_complement : A.complement.size = A.complete.size := by
  simp [complement, size]

theorem initial_complement : A.complement.initial = A.initial := initial_complete

theorem step_complement {p q : Nat} {s : Symbol} :
    A.complement.Step p s q ↔ A.complete.Step p s q := by
  rw [Step, Step, next, next, complement, List.getElem?_map]
  cases A.complete.states[p]? <;> rfl

theorem Indexed.complement (hA : A.Indexed) : A.complement.Indexed := by
  intro i q hq
  rw [Automaton.complement, List.getElem?_map, Option.map_eq_some_iff] at hq
  obtain ⟨q, hq, rfl⟩ := hq
  exact hA.complete i q hq

theorem Labelled.complement (hA : A.Labelled) : A.complement.Labelled where
  wellFormed := by
    refine ⟨?_, fun p s q hs => ?_⟩
    · rw [size_complement]
      exact hA.complete.wellFormed.initial_lt
    · rw [size_complement]
      exact hA.complete.wellFormed.target_lt (step_complement.mp hs)
  mem_alphabet hs hne := hA.complete.mem_alphabet (step_complement.mp hs) hne

theorem isTerminal_complement {p : Nat} (hp : p < A.complete.size) :
    A.complement.isTerminal p = !A.isTerminal p := by
  have hget : A.complete.states[p]? = some A.complete.states[p] := List.getElem?_eq_getElem hp
  have hflip : A.complement.states[p]? =
      some { A.complete.states[p] with terminal := !A.complete.states[p].terminal } := by
    rw [complement, List.getElem?_map, hget]
    rfl
  rw [← isTerminal_complete (A := A), isTerminal, isTerminal, hflip, hget]

/-- The complement has the words over the alphabet that the automaton neither accepts nor stalls
on. -/
theorem mem_wordsFrom_complement (hA : A.Labelled) (hdet : Deterministic A.Step)
    (he : Symbol.epsilon ∉ A.alphabet) {p : Nat} (hp : p < A.complete.size) {w : Word} :
    w ∈ A.complement.wordsFrom p ↔
      w.Over A.alphabet ∧ ¬ A.Stalls p w ∧ w ∉ A.wordsFrom p := by
  have hstep : A.complement.Step = A.complete.Step := by
    funext p s q
    exact propext step_complement
  have hflip : w ∈ A.complement.wordsFrom p ↔
      w ∈ wordsTo A.complete.Step (fun q => ¬ A.complete.isTerminal q = true) p := by
    rw [wordsFrom, hstep]
    refine exists_congr fun q => and_congr_left fun hw => ?_
    change A.complement.isTerminal q = true ↔ ¬ A.complete.isTerminal q = true
    rw [isTerminal_complement (hA.complete.wellFormed.lt_of_walk hw hp), isTerminal_complete]
    simp
  rw [hflip, (deterministic_complete hdet he).mem_wordsTo_not_iff,
    exists_walk_complete_iff hA hdet he hp, and_assoc, ← wordsFrom, wordsFrom_complete]

theorem accepts_complement_iff (hA : A.Labelled) (hdet : Deterministic A.Step)
    (he : Symbol.epsilon ∉ A.alphabet) (w : Word) :
    A.complement.accepts w = true ↔
      w.Over A.alphabet ∧ ¬ A.Stalls A.initial w ∧ A.accepts w = false := by
  have hlt := hA.wellFormed.initial_lt.trans_le size_le_complete
  have hno (p q : Nat) : ¬ A.complement.Step p .epsilon q := fun h =>
    (deterministic_complete hdet he).noEpsilon p q (step_complement.mp h)
  rw [accepts_iff_of_not_step_epsilon hA.complement.wellFormed hno, initial_complement,
    mem_wordsFrom_complement hA hdet he hlt,
    ← accepts_iff_of_not_step_epsilon hA.wellFormed hdet.noEpsilon, Bool.not_eq_true]

/-- On a word over the alphabet the complement is right if and only if the automaton does not stall
on the word. Other words are rejected by both. -/
theorem accepts_complement_eq_not_iff (hA : A.Assembled) (hdet : A.isDeterministic = true)
    (w : Word) :
    (w.Over A.alphabet →
        ((A.complement.accepts w = true ↔ A.accepts w = false) ↔ ¬ A.Stalls A.initial w)) ∧
      (¬ w.Over A.alphabet → A.complement.accepts w = false ∧ A.accepts w = false) := by
  have hstep := deterministic_of_isDeterministic hdet
  have hiff := accepts_complement_iff hA.labelled hstep hA.epsilon_not_mem_alphabet w
  have haccepts := accepts_iff_of_not_step_epsilon hA.wellFormed hstep.noEpsilon w
  constructor
  · intro hover
    constructor
    · intro h hstalls
      have hrejected : A.accepts w = false := by
        rw [← Bool.not_eq_true, haccepts]
        exact hstalls.not_mem_wordsFrom hstep
      exact (hiff.mp (h.mpr hrejected)).2.1 hstalls
    · intro hstalls
      simp [hiff, hover, hstalls]
  · intro hover
    constructor
    · rw [← Bool.not_eq_true, hiff]
      exact fun h => hover h.1
    · rw [← Bool.not_eq_true, haccepts]
      exact fun h => hover (hA.labelled.over_of_mem_wordsFrom h)

/-- An entry without an edge, and a state without entries. -/
def gapped : Parts Nat :=
  ⟨0, [⟨0, "", false, Table.ofRows [(.literal "a", [1]), (.literal "b", [])]⟩, ⟨1, "", true, ∅⟩],
    SortedSet.ofList [.literal "b"]⟩

theorem accepts_complement_gapped :
    gapped.automaton.Assembled ∧ gapped.automaton.isDeterministic = true ∧
      Word.Over gapped.automaton.alphabet [.literal "a", .literal "b"] ∧
      gapped.automaton.complement.accepts [.literal "a", .literal "b"] = true ∧
      ¬ gapped.automaton.Stalls 0 [.literal "a", .literal "b"] ∧
      ¬ Word.Over gapped.automaton.alphabet [.literal "c"] ∧
      gapped.automaton.complement.accepts [.literal "c"] = false := by
  have hA : gapped.automaton.Assembled := ⟨gapped, rfl⟩
  have hdet : gapped.automaton.isDeterministic = true := by decide
  have hover : Word.Over gapped.automaton.alphabet [.literal "a", .literal "b"] := by decide
  have hout : ¬ Word.Over gapped.automaton.alphabet [.literal "c"] := by decide
  have haccepts : gapped.automaton.complement.accepts [.literal "a", .literal "b"] = true := by
    decide +kernel
  have hright : gapped.automaton.complement.accepts [.literal "a", .literal "b"] = true ↔
      gapped.automaton.accepts [.literal "a", .literal "b"] = false :=
    iff_of_true haccepts (by decide +kernel)
  exact ⟨hA, hdet, hover, haccepts, ((accepts_complement_eq_not_iff hA hdet _).1 hover).mp hright,
    hout, ((accepts_complement_eq_not_iff hA hdet _).2 hout).1⟩

/-- A word over the alphabet that the automaton and its complement reject. -/
theorem not_accepts_complement_gapped :
    gapped.automaton.Assembled ∧ gapped.automaton.isDeterministic = true ∧
      Word.Over gapped.automaton.alphabet [.literal "b"] ∧
      ¬ (gapped.automaton.complement.accepts [.literal "b"] = true ↔
        gapped.automaton.accepts [.literal "b"] = false) := by
  refine ⟨⟨gapped, rfl⟩, by decide, by decide, ?_⟩
  decide +kernel

end Acceptors.Automaton
