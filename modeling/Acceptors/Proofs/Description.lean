import Acceptors.Description
import Acceptors.Proofs.Token
import Acceptors.Proofs.Violations

/-!
What a list of clauses describes, read off the clauses themselves. `collects_ofClauses` says what is
kept of them: each name, the last label of a name, the first mark of an initial state.
`Collects.exists_toFinite_eq_ok_iff` and `Collects.describes` say what becomes of that, whatever the
order. Main statement: `toFinite_ofClauses`.
-/

namespace Acceptors

/-- The token without characters alone is read as the literal without a name. -/
theorem Symbol.ofToken_eq_nameless_iff {token : String} :
    ofToken token = .literal "" ↔ token = "" := by
  refine ⟨fun h => (ofToken_eq_literal_iff.mp h).1, ?_⟩
  rintro rfl
  decide

namespace Description

/-! ## What clauses say -/

namespace Clause

/-- The states that a clause declares in any case. A mark of an initial state may be refused. -/
def names : Clause → List String
  | .state name | .label name _ | .terminal name => [name]
  | .initial _ => []
  | .transition t => [t.source, t.target]

/-- The state marked initial. -/
def mark? : Clause → Option String
  | .initial name => some name
  | _ => none

/-- The label given to a state. -/
def label? (name : String) : Clause → Option String
  | .label other text => if other = name then some text else none
  | _ => none

end Clause

/-- The state of the first mark, which alone counts. -/
def firstMark? (cs : List Clause) : Option String := cs.findSome? Clause.mark?

/-- The label that a state is given last. -/
def lastLabel? (cs : List Clause) (name : String) : Option String :=
  cs.reverse.findSome? (Clause.label? name)

/-- Some clause declares the state, or it is the one that the first mark is on. -/
def Mentions (cs : List Clause) (name : String) : Prop :=
  (∃ c ∈ cs, name ∈ c.names) ∨ firstMark? cs = some name

/-- A transition of a plain automaton. -/
structure Transition.Plain (t : Transition) : Prop where
  reference : ∀ cell, Symbol.ofToken t.token ≠ .ref cell
  opened : t.opened = ∅
  closed : t.closed = ∅
  token : t.token ≠ ""

/-- The automaton is the one that the clauses describe, where `names` are its states by number. -/
structure Describes (cs : List Clause) (names : List String) (A : FiniteAutomaton) : Prop where
  ascending : names.Pairwise (· < ·)
  mentioned : ∀ name, name ∈ names ↔ Mentions cs name
  size : A.size = names.length
  state : ∀ (i : Nat) (name : String), names[i]? = some name → ∃ q, A.states[i]? = some q ∧
    q.name = (lastLabel? cs name).getD name ∧ (q.terminal = true ↔ .terminal name ∈ cs)
  marked : ∀ name, firstMark? cs = some name → names[A.initial]? = some name
  unmarked : firstMark? cs = none → A.initial = 0
  step : ∀ (i j : Nat) (s : Symbol), A.Step i s j ↔ ∃ t, .transition t ∈ cs ∧
    names[i]? = some t.source ∧ names[j]? = some t.target ∧ Symbol.ofToken t.token = s
  alphabet : ∀ s, s ∈ A.alphabet ↔ s.isLiteral = true ∧ ∃ t, .transition t ∈ cs ∧
    Symbol.ofToken t.token = s

/-! ## What is kept of them -/

/-- What a description keeps of the clauses. -/
structure Collects (cs : List Clause) (d : Description) : Prop where
  names : ∀ name, name ∈ d.names ↔ Mentions cs name
  label : ∀ name, d.labels.get? name = lastLabel? cs name
  terminal : ∀ name, name ∈ d.terminal ↔ .terminal name ∈ cs
  initial : d.initial = firstMark? cs
  transitions : ∀ t, t ∈ d.transitions ↔ .transition t ∈ cs

section Step

variable {cs : List Clause} {c : Clause} {d : Description} {name : String}

theorem firstMark?_concat : firstMark? (cs ++ [c]) = (firstMark? cs).or c.mark? := by
  rw [firstMark?, List.findSome?_append]
  cases h : c.mark? <;> simp [firstMark?, h]

theorem lastLabel?_concat :
    lastLabel? (cs ++ [c]) name = (c.label? name).or (lastLabel? cs name) := by
  rw [lastLabel?, List.reverse_append, List.findSome?_append]
  cases h : c.label? name <;> simp [lastLabel?, h]

/-- Only a mark where there was none adds a state that the clause does not declare itself. -/
theorem mentions_concat : Mentions (cs ++ [c]) name ↔
    Mentions cs name ∨ name ∈ c.names ∨ (firstMark? cs = none ∧ c.mark? = some name) := by
  simp only [Mentions, firstMark?_concat, List.mem_append, List.mem_singleton,
    Option.or_eq_some_iff, or_and_right, exists_or, exists_eq_left]
  exact or_or_or_comm

/-! Each field after one more clause, whether it is added or refused. -/

theorem mem_names_addAll : name ∈ (d.addAll [c]).1.names ↔
    name ∈ d.names ∨ name ∈ c.names ∨ (d.initial = none ∧ c.mark? = some name) := by
  cases c with
  | initial n =>
    cases h : d.initial <;> simp [addAll, add, h, Clause.names, Clause.mark?, eq_comm, or_comm]
  | _ => simp [addAll, add, Clause.names, Clause.mark?, or_assoc, or_comm, or_left_comm]

theorem get?_labels_addAll :
    (d.addAll [c]).1.labels.get? name = (c.label? name).or (d.labels.get? name) := by
  cases c with
  | label n l => by_cases h : n = name <;>
    simp [addAll, add, Clause.label?, SortedMap.get?_insert, h, eq_comm (b := n)]
  | initial n => cases h : d.initial <;> simp [addAll, add, h, Clause.label?]
  | _ => simp [addAll, add, Clause.label?]

theorem mem_terminal_addAll : name ∈ (d.addAll [c]).1.terminal ↔
    name ∈ d.terminal ∨ .terminal name = c := by
  cases c with
  | initial n => cases h : d.initial <;> simp [addAll, add, h]
  | _ => simp [addAll, add, or_comm]

theorem initial_addAll : (d.addAll [c]).1.initial = d.initial.or c.mark? := by
  cases c with
  | initial n => cases h : d.initial <;> simp [addAll, add, h, Clause.mark?]
  | _ => simp [addAll, add, Clause.mark?]

theorem mem_transitions_addAll {t : Transition} :
    t ∈ (d.addAll [c]).1.transitions ↔ t ∈ d.transitions ∨ .transition t = c := by
  cases c with
  | initial n => cases h : d.initial <;> simp [addAll, add, h]
  | _ => simp [addAll, add]

theorem Collects.step (h : Collects cs d) (c : Clause) : Collects (cs ++ [c]) (d.addAll [c]).1 where
  names name := by rw [mem_names_addAll, mentions_concat, h.names, h.initial]
  label name := by rw [get?_labels_addAll, lastLabel?_concat, h.label]
  terminal name := by rw [mem_terminal_addAll, List.mem_append, List.mem_singleton, h.terminal]
  initial := by rw [initial_addAll, firstMark?_concat, h.initial]
  transitions t := by
    rw [mem_transitions_addAll, List.mem_append, List.mem_singleton, h.transitions]

end Step

theorem addAll_append_fst (d : Description) (cs ds : List Clause) :
    (d.addAll (cs ++ ds)).1 = ((d.addAll cs).1.addAll ds).1 := by
  induction cs generalizing d with
  | nil => rfl
  | cons c rest ih =>
    rw [List.cons_append, addAll, addAll]
    cases d.add c with
    | ok d => exact ih d
    | error fault => exact ih d

/-- What is kept of all clauses, by induction on them from the last one back. -/
theorem collects_ofClauses (cs : List Clause) : Collects cs (ofClauses cs).1 := by
  induction cs using List.reverseRecOn with
  | nil =>
    constructor <;>
      simp [ofClauses, addAll, empty, Mentions, firstMark?, lastLabel?, SortedSet.not_mem_empty]
  | append_singleton cs c ih =>
    rw [ofClauses, addAll_append_fst]
    exact ih.step c

/-! ## What becomes of it -/

section Assembly

variable {cs ds : List Clause} {d e : Description} {A : FiniteAutomaton} {name : String}

/-- The parts of the plain automaton described. -/
def plainParts (d : Description) : Parts Nat :=
  d.parts (fun t => d.indexOf t.target)
    (SortedSet.ofList ((d.transitions.map fun t => Symbol.ofToken t.token).filter Symbol.isLiteral))

/-- The state of a name, with the number that it gets. -/
def numbered (d : Description) (i : Nat) (name : String) : Numbered Nat :=
  ⟨i, d.labelOf name, name ∈ d.terminal,
    Table.ofEdges ((d.transitions.filter fun t => t.source = name).map fun t =>
      (Symbol.ofToken t.token, d.indexOf t.target))⟩

theorem Transition.usesMemory_eq_false_iff {t : Transition} : t.usesMemory = false ↔
    (∀ cell, Symbol.ofToken t.token ≠ .ref cell) ∧ t.opened = ∅ ∧ t.closed = ∅ := by
  have hempty (s : SortedSet Nat) : s.isEmpty = true ↔ s = ∅ := by
    rw [SortedSet.isEmpty, List.isEmpty_iff]
    exact ⟨fun h => SortedSet.ext fun a => by rw [← SortedSet.mem_toList, h]; rfl, fun h => h ▸ rfl⟩
  have href (s : Symbol) : s.isRef = false ↔ ∀ cell, s ≠ .ref cell := by
    cases s <;> simp [Symbol.isRef]
  simp [usesMemory, href, hempty, and_assoc]

theorem toFinite_eq_ok_iff : d.toFinite = .ok A ↔
    (∀ t ∈ d.transitions, t.usesMemory = false) ∧ d.plainParts.assembleFinite = .ok A := by
  unfold toFinite
  split
  · rename_i t ht
    have hmem := List.mem_of_find?_eq_some ht
    have huses := List.find?_some ht
    constructor
    · intro h
      cases h
    · intro h
      rw [h.1 t hmem] at huses
      cases huses
  · rename_i hnone
    have hall : ∀ t ∈ d.transitions, t.usesMemory = false := by simpa using hnone
    exact ⟨fun h => ⟨hall, h⟩, fun h => h.2⟩

theorem states_plainParts_getElem? {i : Nat} {q : Numbered Nat} : d.plainParts.states[i]? = some q ↔
    ∃ name, d.names.toList[i]? = some name ∧ d.numbered i name = q := by
  have hstates : d.plainParts.states = d.names.toList.zipIdx.map fun entry =>
      d.numbered entry.2 entry.1 := rfl
  rw [hstates, List.getElem?_map, List.getElem?_zipIdx]
  simp

theorem length_states_plainParts : d.plainParts.states.length = d.names.toList.length := by
  simp [plainParts, parts]

theorem mem_states_plainParts {q : Numbered Nat} : q ∈ d.plainParts.states ↔
    ∃ i name, d.names.toList[i]? = some name ∧ d.numbered i name = q := by
  simp only [List.mem_iff_getElem?, states_plainParts_getElem?]

theorem mem_edges_numbered {i j : Nat} {name : String} {s : Symbol} :
    (s, j) ∈ (d.numbered i name).edges ↔
      ∃ t ∈ d.transitions, t.source = name ∧ Symbol.ofToken t.token = s ∧
      d.indexOf t.target = j := by
  rw [State.edges, Table.mem_edges, numbered, Table.mem_next_ofEdges]
  simp [and_assoc]

theorem mem_alphabet_plainParts {s : Symbol} : s ∈ d.plainParts.alphabet ↔
    s.isLiteral = true ∧ ∃ t ∈ d.transitions, Symbol.ofToken t.token = s := by
  change s ∈ SortedSet.ofList _ ↔ _
  rw [SortedSet.mem_ofList, List.mem_filter, List.mem_map, and_comm]

theorem getElem?_names {i : Nat} {name : String} :
    d.names.toList[i]? = some name ↔ name ∈ d.names ∧ d.indexOf name = i := by
  constructor
  · intro h
    obtain ⟨hi, rfl⟩ := List.getElem?_eq_some_iff.mp h
    exact ⟨List.getElem_mem hi, d.names.nodup_toList.idxOf_getElem i hi⟩
  · rintro ⟨hname, rfl⟩
    exact List.getElem?_idxOf hname

theorem indexOf_lt (hname : name ∈ d.names) : d.indexOf name < d.names.toList.length :=
  List.idxOf_lt_length_of_mem hname

namespace Collects

/-- Both ends of a transition are declared by it. -/
theorem source_mem (h : Collects cs d) {t : Transition} (ht : t ∈ d.transitions) :
    t.source ∈ d.names :=
  (h.names _).mpr (.inl ⟨_, (h.transitions t).mp ht, List.mem_cons_self⟩)

theorem target_mem (h : Collects cs d) {t : Transition} (ht : t ∈ d.transitions) :
    t.target ∈ d.names :=
  (h.names _).mpr (.inl ⟨_, (h.transitions t).mp ht, List.mem_cons_of_mem _ List.mem_cons_self⟩)

theorem initial_mem (h : Collects cs d) (hname : d.initial = some name) : name ∈ d.names :=
  (h.names _).mpr (.inr (h.initial ▸ hname))

/-- There is an initial state as soon as there is a state. -/
theorem initialIndex_lt (h : Collects cs d) (hname : name ∈ d.names) :
    d.initialIndex < d.names.toList.length := by
  unfold initialIndex
  split
  · rename_i marked hmarked
    exact indexOf_lt (h.initial_mem hmarked)
  · exact List.length_pos_of_mem hname

theorem step_iff (h : Collects cs d) {i j : Nat} {s : Symbol} : d.plainParts.automaton.Step i s j ↔
    ∃ t, .transition t ∈ cs ∧ d.names.toList[i]? = some t.source ∧
    d.names.toList[j]? = some t.target ∧
      Symbol.ofToken t.token = s := by
  simp only [Parts.step_automaton, states_plainParts_getElem?]
  constructor
  · rintro ⟨_, ⟨name, hname, rfl⟩, hedge⟩
    obtain ⟨t, ht, rfl, hsymbol, htarget⟩ := mem_edges_numbered.mp hedge
    exact ⟨t, (h.transitions t).mp ht, hname, getElem?_names.mpr ⟨h.target_mem ht, htarget⟩,
      hsymbol⟩
  · rintro ⟨t, ht, hsource, htarget, hsymbol⟩
    have hindex := (getElem?_names.mp htarget).2
    exact ⟨_, ⟨_, hsource, rfl⟩,
      mem_edges_numbered.mpr ⟨t, (h.transitions t).mpr ht, rfl, hsymbol, hindex⟩⟩

/-- An edge of the parts is a transition, and a transition is an edge of the parts. -/
theorem forall_edges_iff (h : Collects cs d) (P : Symbol → Prop) :
    (∀ q ∈ d.plainParts.states, ∀ edge ∈ q.edges, P edge.1) ↔
      ∀ t, .transition t ∈ cs → P (Symbol.ofToken t.token) := by
  constructor
  · intro hall t ht
    have ht := (h.transitions t).mpr ht
    have hsource := getElem?_names.mpr ⟨h.source_mem ht, rfl⟩
    exact hall _ (mem_states_plainParts.mpr ⟨_, _, hsource, rfl⟩) _
      (mem_edges_numbered.mpr ⟨t, ht, rfl, rfl, rfl⟩)
  · rintro hall _ hq ⟨s, j⟩ hedge
    obtain ⟨i, name, _, rfl⟩ := mem_states_plainParts.mp hq
    obtain ⟨t, ht, _, rfl, _⟩ := mem_edges_numbered.mp hedge
    exact hall t ((h.transitions t).mp ht)

theorem faultless_iff (h : Collects cs d) : d.plainParts.Faultless ↔
    (∃ name, Mentions cs name) ∧
    (∀ t, .transition t ∈ cs → ∀ cell, Symbol.ofToken t.token ≠ .ref cell) ∧
      ∀ t, .transition t ∈ cs → Symbol.ofToken t.token ≠ .literal "" := by
  constructor
  · intro hfaultless
    refine ⟨?_, (h.forall_edges_iff fun s => ∀ cell, s ≠ .ref cell).mp hfaultless.reference,
      (h.forall_edges_iff (· ≠ .literal "")).mp hfaultless.name⟩
    have hpos : 0 < d.names.toList.length := by
      rw [← length_states_plainParts]
      exact Nat.zero_lt_of_lt hfaultless.initial
    exact ⟨_, (h.names _).mp (List.getElem_mem hpos)⟩
  · rintro ⟨⟨name, hname⟩, href, hnameless⟩
    constructor
    case epsilon =>
      intro hmem
      cases (mem_alphabet_plainParts.mp hmem).1
    case nameless =>
      intro hmem
      obtain ⟨_, t, ht, htoken⟩ := mem_alphabet_plainParts.mp hmem
      exact hnameless t ((h.transitions t).mp ht) htoken
    case index =>
      intro i q hq
      obtain ⟨_, _, rfl⟩ := states_plainParts_getElem?.mp hq
      rfl
    case target =>
      rintro _ hq ⟨s, j⟩ hedge
      obtain ⟨i, _, _, rfl⟩ := mem_states_plainParts.mp hq
      obtain ⟨t, ht, _, _, rfl⟩ := mem_edges_numbered.mp hedge
      rw [length_states_plainParts]
      exact indexOf_lt (h.target_mem ht)
    case initial =>
      rw [length_states_plainParts]
      exact h.initialIndex_lt ((h.names name).mpr hname)
    case reference => exact (h.forall_edges_iff fun s => ∀ cell, s ≠ .ref cell).mpr href
    case name => exact (h.forall_edges_iff (· ≠ .literal "")).mpr hnameless

theorem exists_toFinite_eq_ok_iff (h : Collects cs d) : (∃ A, d.toFinite = .ok A) ↔
    (∃ name, Mentions cs name) ∧ ∀ t, .transition t ∈ cs → t.Plain := by
  simp only [toFinite_eq_ok_iff, exists_and_left, Parts.exists_assembleFinite_eq_ok_iff,
    h.faultless_iff,
    Transition.usesMemory_eq_false_iff, h.transitions, Symbol.ofToken_eq_nameless_iff, ne_eq]
  constructor
  · rintro ⟨hmemory, hname, _, htoken⟩
    exact ⟨hname,
      fun t ht => ⟨(hmemory t ht).1, (hmemory t ht).2.1, (hmemory t ht).2.2, htoken t ht⟩⟩
  · rintro ⟨hname, hplain⟩
    exact ⟨fun t ht => ⟨(hplain t ht).reference, (hplain t ht).opened, (hplain t ht).closed⟩, hname,
      fun t ht => (hplain t ht).reference, fun t ht => (hplain t ht).token⟩

theorem describes (h : Collects cs d) (hA : d.toFinite = .ok A) :
    Describes cs d.names.toList A := by
  obtain ⟨_, _, _, _, rfl⟩ := Parts.assembleFinite_eq_ok_iff.mp (toFinite_eq_ok_iff.mp hA).2
  constructor
  case ascending => exact d.names.ascending.imp fun hlt => compareOfLessAndEq_eq_lt.mp hlt
  case mentioned => exact h.names
  case size => rw [Automaton.size, Parts.automaton, length_states_plainParts]
  case state =>
    intro i name hname
    have hq := states_plainParts_getElem?.mpr ⟨name, hname, rfl⟩
    refine ⟨d.numbered i name, ?_, ?_, ?_⟩
    · rw [Parts.automaton, hq]
    · exact congrArg (·.getD name) (h.label name)
    · exact (decide_eq_true_iff).trans (h.terminal name)
  case marked =>
    intro name hname
    rw [← h.initial] at hname
    have hindex : d.plainParts.automaton.initial = d.indexOf name := by
      simp [Parts.automaton, plainParts, parts, initialIndex, hname]
    exact getElem?_names.mpr ⟨h.initial_mem hname, hindex.symm⟩
  case unmarked =>
    intro hnone
    rw [← h.initial] at hnone
    simp [Parts.automaton, plainParts, parts, initialIndex, hnone]
  case step => exact fun _ _ _ => h.step_iff
  case alphabet =>
    intro s
    rw [Parts.mem_alphabet_automaton, mem_alphabet_plainParts]
    simp only [h.transitions]
    constructor
    · rintro (hs | ⟨name, rfl, q, hq, j, hedge⟩)
      · exact hs
      · obtain ⟨i, _, _, rfl⟩ := mem_states_plainParts.mp hq
        obtain ⟨t, ht, _, htoken, _⟩ := mem_edges_numbered.mp hedge
        exact ⟨rfl, t, (h.transitions t).mp ht, htoken⟩
    · exact .inl

/-- The parts depend on what the description keeps alone, and of the transitions neither on their
order nor on how often one is given. -/
theorem plainParts_eq (h : Collects cs d) (h' : Collects ds e) (hmem : ∀ c, c ∈ cs ↔ c ∈ ds)
    (hmark : firstMark? cs = firstMark? ds)
    (hlabel : ∀ name, lastLabel? cs name = lastLabel? ds name) :
    d.plainParts = e.plainParts := by
  have hmentions (name : String) : Mentions cs name ↔ Mentions ds name := by
    simp only [Mentions, hmem, hmark]
  have hnames : d.names = e.names := SortedSet.ext fun name => by rw [h.names, h'.names, hmentions]
  have hlabels : d.labels = e.labels := SortedMap.ext fun name => by rw [h.label, h'.label, hlabel]
  have hterminal : d.terminal = e.terminal := SortedSet.ext fun name => by
    rw [h.terminal, h'.terminal, hmem]
  have hinitial : d.initial = e.initial := by rw [h.initial, h'.initial, hmark]
  have htransitions (t : Transition) : t ∈ d.transitions ↔ t ∈ e.transitions := by
    rw [h.transitions, h'.transitions, hmem]
  obtain ⟨names, labels, terminal, initial, transitions⟩ := d
  obtain ⟨_, _, _, _, transitions'⟩ := e
  subst hnames hlabels hterminal hinitial
  have halphabet :
      SortedSet.ofList ((transitions.map fun t => Symbol.ofToken t.token).filter Symbol.isLiteral) =
      SortedSet.ofList
        ((transitions'.map fun t => Symbol.ofToken t.token).filter Symbol.isLiteral) :=
    SortedSet.ext fun s => by simp [htransitions]
  have htable (name : String) (target : Transition → Nat) :
      Table.ofEdges ((transitions.filter fun t => t.source = name).map fun t =>
        (Symbol.ofToken t.token, target t)) =
      Table.ofEdges ((transitions'.filter fun t => t.source = name).map fun t =>
        (Symbol.ofToken t.token, target t)) :=
    Table.ofEdges_congr fun edge => by simp [htransitions]
  unfold plainParts parts
  simp only [halphabet, htable]
  rfl

end Collects

end Assembly

/-! ## Refused marks -/

section Marks

variable {cs : List Clause}

/-- A clause is refused if and only if it is a mark after another one. -/
theorem add_ofClauses_eq_error_iff {c : Clause} {fault : Fault} :
    (ofClauses cs).1.add c = .error fault ↔
    ∃ name first, c = .initial name ∧ firstMark? cs = some first ∧ fault = .secondInitial name := by
  rw [← (collects_ofClauses cs).initial]
  cases c with
  | initial name => cases h : (ofClauses cs).1.initial <;> simp [add, h, eq_comm]
  | _ => simp [add]

theorem ofClauses_drop_mark {name first : String} (hfirst : firstMark? cs = some first)
    (later : List Clause) :
    (ofClauses (cs ++ .initial name :: later)).1 = (ofClauses (cs ++ later)).1 := by
  have hrefused := add_ofClauses_eq_error_iff.mpr ⟨name, first, rfl, hfirst, rfl⟩
  have hsame :
      ((ofClauses cs).1.addAll (.initial name :: later)).1 = ((ofClauses cs).1.addAll later).1 := by
    rw [addAll, hrefused]
  rw [ofClauses, ofClauses, addAll_append_fst, addAll_append_fst]
  exact hsame

end Marks

/-- Clauses describe a plain automaton if and only if they name a state and all their transitions
are plain. The automaton then has a state for each name, by name, with the last label and the
terminal mark, its initial state is the one of the first mark, and its edges are the transitions.
Any later mark is refused and might as well have been left out. The same clauses in another order,
or given more than once, describe the same automaton where the first mark and the last labels are
the same. Which of several transitions with memory a fault names does depend on the order. -/
theorem toFinite_ofClauses (cs : List Clause) :
    ((∃ A, (ofClauses cs).1.toFinite = .ok A) ↔
      (∃ name, Mentions cs name) ∧ ∀ t, .transition t ∈ cs → t.Plain) ∧
    (∀ A, (ofClauses cs).1.toFinite = .ok A → ∃ names, Describes cs names A) ∧
    (∀ c fault, (ofClauses cs).1.add c = .error fault ↔
      ∃ name first, c = .initial name ∧ firstMark? cs = some first ∧ fault = .secondInitial name) ∧
    (∀ first, firstMark? cs = some first → ∀ name later,
      (ofClauses (cs ++ .initial name :: later)).1 = (ofClauses (cs ++ later)).1) ∧
    ∀ ds, (∀ c, c ∈ cs ↔ c ∈ ds) → firstMark? cs = firstMark? ds →
      (∀ name, lastLabel? cs name = lastLabel? ds name) →
        ∀ A, (ofClauses cs).1.toFinite = .ok A ↔ (ofClauses ds).1.toFinite = .ok A := by
  refine ⟨(collects_ofClauses cs).exists_toFinite_eq_ok_iff,
    fun A hA => ⟨_, (collects_ofClauses cs).describes hA⟩,
    fun _ _ => add_ofClauses_eq_error_iff, fun _ hfirst _ later =>
      ofClauses_drop_mark hfirst later, ?_⟩
  intro ds hmem hmark hlabel A
  have hparts := (collects_ofClauses cs).plainParts_eq (collects_ofClauses ds) hmem hmark hlabel
  rw [toFinite_eq_ok_iff, toFinite_eq_ok_iff, hparts]
  simp only [(collects_ofClauses cs).transitions, (collects_ofClauses ds).transitions, hmem]

/-- Two labels and two marks for one state each, and an epsilon back to it. -/
def looping : List Clause :=
  [.initial "s", .terminal "s", .transition ⟨"s", "t", "a", ∅, ∅⟩, .label "s" "first",
    .transition ⟨"t", "u", "b", ∅, ∅⟩, .transition ⟨"u", "s", "eps", ∅, ∅⟩, .initial "t",
      .label "s" "start"]

/-- The clauses of `looping`, states being named in another order. -/
def rearranged : List Clause :=
  [.transition ⟨"u", "s", "eps", ∅, ∅⟩, .label "s" "first", .transition ⟨"t", "u", "b", ∅, ∅⟩,
    .label "s" "start",
    .initial "s", .initial "t", .transition ⟨"s", "t", "a", ∅, ∅⟩, .terminal "s"]

theorem toFinite_ofClauses_looping :
    (∃ A, (ofClauses looping).1.toFinite = .ok A ∧ (∃ names, Describes looping names A) ∧
      (ofClauses rearranged).1.toFinite = .ok A) ∧
    (ofClauses looping).1.add (.initial "u") = .error (.secondInitial "u") ∧
    (ofClauses (looping ++ [.initial "u", .state "v"])).1 =
      (ofClauses (looping ++ [.state "v"])).1 := by
  obtain ⟨hexists, hdescribes, hrefused, hdropped, horder⟩ := toFinite_ofClauses looping
  have hplain : ∀ t, .transition t ∈ looping → t.Plain := by
    intro t ht
    have hlisted : t ∈
        [(⟨"s", "t", "a", ∅, ∅⟩ : Transition), ⟨"t", "u", "b", ∅, ∅⟩, ⟨"u", "s", "eps", ∅, ∅⟩] := by
      simpa [looping] using ht
    have hall : ∀ t ∈
        [(⟨"s", "t", "a", ∅, ∅⟩ : Transition), ⟨"t", "u", "b", ∅, ∅⟩, ⟨"u", "s", "eps", ∅, ∅⟩],
        t.usesMemory = false ∧ t.token ≠ "" := by decide
    obtain ⟨hmemory, htoken⟩ := hall t hlisted
    obtain ⟨href, hopened, hclosed⟩ := Transition.usesMemory_eq_false_iff.mp hmemory
    exact ⟨href, hopened, hclosed, htoken⟩
  have hlabels : ∀ name, lastLabel? looping name = lastLabel? rearranged name := by
    intro name
    by_cases h : "s" = name <;>
      simp [lastLabel?, looping, rearranged, Clause.label?, List.findSome?_cons, h]
  obtain ⟨A, hA⟩ := hexists.mpr ⟨⟨"s", .inr rfl⟩, hplain⟩
  have hperm : looping.Perm rearranged := by decide
  refine ⟨⟨A, hA, hdescribes A hA,
    (horder rearranged (fun _ => hperm.mem_iff) rfl hlabels A).mp hA⟩, ?_, ?_⟩
  · exact (hrefused _ _).mpr ⟨"u", "s", rfl, rfl, rfl⟩
  · exact hdropped "s" rfl "u" [.state "v"]

end Description

end Acceptors
