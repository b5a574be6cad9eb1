import Acceptors.Proofs.Assembly
import Acceptors.Proofs.Tables

/-!
What is wrong with parts, and what is told of it. The violations of all rules are listed in the
order in which the checks come to them (`mem_violations`, `pairwise_violations`), and the checks
tell the first of the list (`head?_violations`). Main statement: `assembleFinite_first_violation`.
-/

namespace Acceptors

/-! ## Places in order -/

/-- Where a rule may be violated. -/
inductive Place where
  | epsilon
  | nameless
  | index (position : Nat)
  | target (position : Nat) (edge : Symbol × Nat)
  | initial
  | label (position : Nat) (edge : Symbol × Nat)

namespace Place

/-- The check that comes to the place: two of the alphabet, one of the positions, then the initial
state and labels. -/
def stage : Place → Nat
  | epsilon => 0
  | nameless => 1
  | index _ | target _ _ => 2
  | initial => 3
  | label _ _ => 4

def position : Place → Nat
  | index i | target i _ | label i _ => i
  | epsilon | nameless | initial => 0

/-- By symbol, then by target. -/
def EdgeBefore (a b : Symbol × Nat) : Prop :=
  compare a.1 b.1 = .lt ∨ a.1 = b.1 ∧ compare a.2 b.2 = .lt

/-- The order in which the checks come to the places: by check, then by position, where the index
comes before the edges, and these by symbol and target. -/
inductive Before : Place → Place → Prop
  | stage {x y : Place} (h : x.stage < y.stage) : Before x y
  | position {x y : Place} (hstage : x.stage = y.stage) (h : x.position < y.position) : Before x y
  | index (i : Nat) (edge : Symbol × Nat) : Before (.index i) (.target i edge)
  | target (i : Nat) {a b : Symbol × Nat} (h : EdgeBefore a b) : Before (.target i a) (.target i b)
  | label (i : Nat) {a b : Symbol × Nat} (h : EdgeBefore a b) : Before (.label i a) (.label i b)

theorem EdgeBefore.asymm {a b : Symbol × Nat} (h : EdgeBefore a b) : ¬ EdgeBefore b a := by
  rintro (h' | ⟨heq', h'⟩) <;> rcases h with h | ⟨heq, h⟩
  · exact Std.OrientedCmp.not_lt_of_lt h h'
  · simp [heq] at h'
  · simp [heq'] at h
  · exact Std.OrientedCmp.not_lt_of_lt h h'

theorem Before.asymm {x y : Place} (h : Before x y) : ¬ Before y x := by
  intro h'
  cases h with
  | stage h => cases h' <;> simp_all [Place.stage]; omega
  | position hstage h => cases h' <;> simp_all [Place.stage, Place.position]; omega
  | index i edge => cases h' <;> simp_all [Place.stage, Place.position]
  | target i h =>
    cases h' with
    | stage h' => simp [Place.stage] at h'
    | position _ h' => simp [Place.position] at h'
    | target _ h' => exact h.asymm h'
  | label i h =>
    cases h' with
    | stage h' => simp [Place.stage] at h'
    | position _ h' => simp [Place.position] at h'
    | label _ h' => exact h.asymm h'

theorem Before.irrefl (x : Place) : ¬ Before x x := fun h => h.asymm h

end Place

namespace Parts

variable {p : Parts Nat} {q : Numbered Nat} {i : Nat}

/-! ## Violations -/

/-- The rules on parts, and the fault by which a violation is told. -/
inductive Violation (p : Parts Nat) : Place → Fault → Prop
  | epsilon (h : Symbol.epsilon ∈ p.alphabet) : Violation p .epsilon .epsilonInAlphabet
  | nameless (h : Symbol.literal "" ∈ p.alphabet) : Violation p .nameless .emptyName
  | index {i : Nat} {q : Numbered Nat} (hq : p.states[i]? = some q) (h : q.index ≠ i) :
      Violation p (.index i) (.indexMismatch i q.index)
  | target {i : Nat} {q : Numbered Nat} {edge : Symbol × Nat} (hq : p.states[i]? = some q)
      (hedge : edge ∈ q.edges) (h : p.states.length ≤ edge.2) :
      Violation p (.target i edge) (.danglingTransition i edge.2)
  | initial (h : p.states.length ≤ p.initial) : Violation p .initial
    (.initialOutOfRange p.initial p.states.length)
  | reference {i cell r : Nat} {q target : Numbered Nat} (hq : p.states[i]? = some q)
      (hedge : (Symbol.ref cell, r) ∈ q.edges) (htarget : p.states[r]? = some target) :
      Violation p (.label i (.ref cell, r))
        (.memoryTransition q.label target.label)
  | name {i r : Nat} {q : Numbered Nat} (hq : p.states[i]? = some q)
      (hedge : (Symbol.literal "", r) ∈ q.edges) : Violation p
      (.label i (.literal "", r)) .emptyName

def alphabetViolations (p : Parts Nat) : List (Place × Fault) :=
  (if Symbol.epsilon ∈ p.alphabet then [(.epsilon, .epsilonInAlphabet)] else []) ++
    if Symbol.literal "" ∈ p.alphabet then [(.nameless, .emptyName)] else []

/-- What the first check of the states tells of one position, were it to go on after the first
fault. -/
def positionViolations (p : Parts Nat) (q : Numbered Nat) (i : Nat) : List (Place × Fault) :=
  (if q.index ≠ i then [(.index i, .indexMismatch i q.index)] else []) ++
    (q.edges.filter fun edge => decide (p.states.length ≤ edge.2)).map fun edge =>
      (.target i edge, .danglingTransition i edge.2)

def structureViolations (p : Parts Nat) : List (Place × Fault) :=
  (p.states.zipIdx.flatMap fun qi => p.positionViolations qi.1 qi.2) ++
    if p.initial < p.states.length then []
    else [(.initial, .initialOutOfRange p.initial p.states.length)]

/-- The fault of an edge, a reference being told only with the state that it leads to. -/
def labelFault? (p : Parts Nat) (q : Numbered Nat) (edge : Symbol × Nat) : Option Fault :=
  match edge.1 with
  | .epsilon => none
  | .literal name => if name = "" then some .emptyName else none
  | .ref _ => p.states[edge.2]?.map fun r => .memoryTransition q.label r.label

def labelViolations (p : Parts Nat) : List (Place × Fault) :=
  p.states.zipIdx.flatMap fun qi => qi.1.edges.filterMap fun edge =>
    (p.labelFault? qi.1 edge).map fun fault => (.label qi.2 edge, fault)

/-- All violations, in the order of the checks. -/
def violations (p : Parts Nat) : List (Place × Fault) :=
  p.alphabetViolations ++ (p.structureViolations ++ p.labelViolations)

theorem mem_alphabetViolations {v : Place × Fault} : v ∈ p.alphabetViolations ↔
    (Symbol.epsilon ∈ p.alphabet ∧ v = (.epsilon, .epsilonInAlphabet)) ∨
      (Symbol.literal "" ∈ p.alphabet ∧ v = (.nameless, .emptyName)) := by
  unfold alphabetViolations
  by_cases h : Symbol.epsilon ∈ p.alphabet <;> by_cases h' : Symbol.literal "" ∈ p.alphabet <;>
    simp [h, h']

theorem mem_positionViolations {v : Place × Fault} : v ∈ p.positionViolations q i ↔
    (q.index ≠ i ∧ v = (.index i, .indexMismatch i q.index)) ∨
      ∃ edge ∈ q.edges, p.states.length ≤ edge.2 ∧
      v = (.target i edge, .danglingTransition i edge.2) := by
  unfold positionViolations
  by_cases h : q.index = i <;> simp [h, and_assoc, eq_comm]

theorem mem_structureViolations {v : Place × Fault} : v ∈ p.structureViolations ↔
    (∃ i q, p.states[i]? = some q ∧ v ∈ p.positionViolations q i) ∨
      (p.states.length ≤ p.initial ∧
        v = (.initial, .initialOutOfRange p.initial p.states.length)) := by
  have hpositions : v ∈ p.states.zipIdx.flatMap (fun qi => p.positionViolations qi.1 qi.2) ↔
      ∃ i q, p.states[i]? = some q ∧ v ∈ p.positionViolations q i := by
    simp only [List.mem_flatMap, Prod.exists, List.mem_zipIdx_iff_getElem?]
    exact exists_comm
  rw [structureViolations, List.mem_append, hpositions]
  by_cases h : p.initial < p.states.length
  · simp [h]
  · simp [h, Nat.le_of_not_lt h]

theorem mem_labelViolations {v : Place × Fault} : v ∈ p.labelViolations ↔
    ∃ i q, p.states[i]? = some q ∧ ∃ edge ∈ q.edges, ∃ fault,
      p.labelFault? q edge = some fault ∧ v = (.label i edge, fault) := by
  simp only [labelViolations, List.mem_flatMap, Prod.exists, List.mem_zipIdx_iff_getElem?,
    List.mem_filterMap, Option.map_eq_some_iff, eq_comm (b := v)]
  exact exists_comm

/-- The list has each violation. -/
theorem mem_violations {place : Place} {fault : Fault} :
    (place, fault) ∈ p.violations ↔ p.Violation place fault := by
  simp only [violations, List.mem_append, mem_alphabetViolations, mem_structureViolations,
    mem_labelViolations, mem_positionViolations, Prod.mk.injEq]
  constructor
  · rintro ((⟨h, rfl, rfl⟩ | ⟨h, rfl, rfl⟩)
      | (⟨i, q, hq, ⟨h, rfl, rfl⟩ | ⟨edge, hedge, h, rfl, rfl⟩⟩ |
      ⟨h, rfl, rfl⟩) | ⟨i, q, hq, ⟨s, r⟩, hedge, fault, h, rfl, rfl⟩)
    · exact .epsilon h
    · exact .nameless h
    · exact .index hq h
    · exact .target hq hedge h
    · exact .initial h
    · cases s with
      | epsilon => cases h
      | literal name =>
        obtain ⟨rfl, hfault⟩ : name = "" ∧ Fault.emptyName = fault := by simpa [labelFault?] using h
        exact hfault ▸ .name hq hedge
      | ref cell =>
        obtain ⟨target, htarget, rfl⟩ := Option.map_eq_some_iff.mp h
        exact .reference hq hedge htarget
  · intro h
    cases h with
    | epsilon h => exact .inl (.inl ⟨h, rfl, rfl⟩)
    | nameless h => exact .inl (.inr ⟨h, rfl, rfl⟩)
    | index hq h => exact .inr (.inl (.inl ⟨_, _, hq, .inl ⟨h, rfl, rfl⟩⟩))
    | target hq hedge h => exact .inr (.inl (.inl ⟨_, _, hq, .inr ⟨_, hedge, h, rfl, rfl⟩⟩))
    | initial h => exact .inr (.inl (.inr ⟨h, rfl, rfl⟩))
    | reference hq hedge htarget =>
      exact .inr (.inr ⟨_, _, hq, _, hedge, _, by simp [labelFault?, htarget], rfl, rfl⟩)
    | name hq hedge => exact .inr (.inr ⟨_, _, hq, _, hedge, _, by simp [labelFault?], rfl, rfl⟩)

/-! ## The order of violations -/

theorem pairwise_append_of_stage {xs ys : List (Place × Fault)} (n : Nat)
    (hxs : xs.Pairwise fun v w => v.1.Before w.1) (hys : ys.Pairwise fun v w => v.1.Before w.1)
    (hx : ∀ v ∈ xs, v.1.stage ≤ n) (hy : ∀ w ∈ ys, n < w.1.stage) :
    (xs ++ ys).Pairwise fun v w => v.1.Before w.1 :=
  List.pairwise_append.mpr
    ⟨hxs, hys, fun v hv w hw => .stage (Nat.lt_of_le_of_lt (hx v hv) (hy w hw))⟩

/-- What one check tells of each position is in order if it is in order at each position. -/
theorem pairwise_positions {n : Nat} {f : Numbered Nat → Nat → List (Place × Fault)}
    (hinside : ∀ q i, (f q i).Pairwise fun v w => v.1.Before w.1)
    (hplace : ∀ q i, ∀ v ∈ f q i, v.1.stage = n ∧ v.1.position = i) (states : List (Numbered Nat)) :
    (states.zipIdx.flatMap fun qi => f qi.1 qi.2).Pairwise fun v w => v.1.Before w.1 := by
  have hindices : states.zipIdx.Pairwise fun a b => a.2 < b.2 := by
    rw [← List.pairwise_map (f := Prod.snd), List.zipIdx_map_snd]
    exact List.pairwise_lt_range' 1
  refine List.pairwise_flatMap.mpr
    ⟨fun qi _ => hinside qi.1 qi.2, hindices.imp fun {a b} hab v hv w hw => ?_⟩
  obtain ⟨hstage, hposition⟩ := hplace a.1 a.2 v hv
  obtain ⟨hstage', hposition'⟩ := hplace b.1 b.2 w hw
  exact .position (hstage.trans hstage'.symm) (by rw [hposition, hposition']; exact hab)

theorem stage_of_mem_alphabetViolations {v : Place × Fault} (h : v ∈ p.alphabetViolations) :
    v.1.stage ≤ 1 := by
  rcases mem_alphabetViolations.mp h with ⟨_, rfl⟩ | ⟨_, rfl⟩ <;> simp [Place.stage]

theorem pairwise_alphabetViolations (p : Parts Nat) :
    p.alphabetViolations.Pairwise fun v w => v.1.Before w.1 := by
  have hbefore : Place.epsilon.Before .nameless := .stage Nat.zero_lt_one
  unfold alphabetViolations
  split <;> split <;> simp [hbefore]

theorem place_of_mem_positionViolations {v : Place × Fault} (h : v ∈ p.positionViolations q i) :
    v.1.stage = 2 ∧ v.1.position = i := by
  rcases mem_positionViolations.mp h with ⟨_, rfl⟩ | ⟨_, _, _, rfl⟩ <;> exact ⟨rfl, rfl⟩

theorem pairwise_positionViolations (p : Parts Nat) (q : Numbered Nat) (i : Nat) :
    (p.positionViolations q i).Pairwise fun v w => v.1.Before w.1 := by
  have hedges : ((q.edges.filter fun edge => decide (p.states.length ≤ edge.2)).map
      fun edge => (Place.target i edge, Fault.danglingTransition i edge.2)).Pairwise fun v w =>
        v.1.Before w.1 :=
    List.pairwise_map.mpr (((Table.pairwise_edges _).filter _).imp fun h => .target i h)
  refine List.pairwise_append.mpr ⟨?_, hedges, fun v hv w hw => ?_⟩
  · split <;> simp
  · obtain ⟨edge, _, rfl⟩ := List.mem_map.mp hw
    split at hv
    · rw [List.mem_singleton.mp hv]
      exact .index i edge
    · cases hv

theorem pairwise_structureViolations (p : Parts Nat) :
    p.structureViolations.Pairwise fun v w => v.1.Before w.1 := by
  refine pairwise_append_of_stage 2 ?_ ?_ (fun v hv => ?_) fun w hw => ?_
  · exact pairwise_positions p.pairwise_positionViolations
      (fun _ _ _ => place_of_mem_positionViolations) _
  · split <;> simp
  · obtain ⟨qi, _, hv⟩ := List.mem_flatMap.mp hv
    exact Nat.le_of_eq (place_of_mem_positionViolations hv).1
  · split at hw
    · cases hw
    · rw [List.mem_singleton.mp hw]
      exact Nat.lt_succ_self 2

theorem stage_of_mem_structureViolations {v : Place × Fault} (h : v ∈ p.structureViolations) :
    1 < v.1.stage ∧ v.1.stage ≤ 3 := by
  rcases mem_structureViolations.mp h with ⟨_, _, _, h⟩ | ⟨_, rfl⟩
  · rw [(place_of_mem_positionViolations h).1]
    decide
  · simp [Place.stage]

theorem pairwise_labelViolations (p : Parts Nat) : p.labelViolations.Pairwise fun v w =>
      v.1.Before w.1 := by
  refine pairwise_positions (n := 4) (f := fun q i => q.edges.filterMap fun edge =>
    (p.labelFault? q edge).map fun fault => (.label i edge, fault)) (fun q i => ?_)
    (fun q i v hv => ?_) p.states
  · refine (Table.pairwise_edges q.table).filterMap _ fun a b hab v hv w hw => ?_
    obtain ⟨_, _, rfl⟩ := Option.map_eq_some_iff.mp hv
    obtain ⟨_, _, rfl⟩ := Option.map_eq_some_iff.mp hw
    exact .label i hab
  · obtain ⟨edge, _, hv⟩ := List.mem_filterMap.mp hv
    obtain ⟨_, _, rfl⟩ := Option.map_eq_some_iff.mp hv
    exact ⟨rfl, rfl⟩

theorem stage_of_mem_labelViolations {v : Place × Fault} (h : v ∈ p.labelViolations) :
    v.1.stage = 4 := by
  obtain ⟨_, _, _, _, _, _, _, rfl⟩ := mem_labelViolations.mp h
  rfl

/-- The list is in the order of the checks. -/
theorem pairwise_violations (p : Parts Nat) : p.violations.Pairwise fun v w => v.1.Before w.1 := by
  have hstates : (p.structureViolations ++ p.labelViolations).Pairwise fun v w => v.1.Before w.1 :=
    pairwise_append_of_stage 3 p.pairwise_structureViolations p.pairwise_labelViolations
      (fun v hv => (stage_of_mem_structureViolations hv).2)
      fun w hw => by rw [stage_of_mem_labelViolations hw]; exact Nat.lt_succ_self 3
  have hlater : ∀ w ∈ p.structureViolations ++ p.labelViolations, 1 < w.1.stage := by
    refine List.forall_mem_append.mpr
      ⟨fun w hw => (stage_of_mem_structureViolations hw).1, fun w hw => ?_⟩
    rw [stage_of_mem_labelViolations hw]
    decide
  exact pairwise_append_of_stage 1 p.pairwise_alphabetViolations hstates
    (fun v hv => stage_of_mem_alphabetViolations hv) hlater

/-! ## The first violation -/

theorem head?_positionViolations (p : Parts Nat) (q : Numbered Nat) (i : Nat) :
    ((p.positionViolations q i).map (·.2)).head? = p.positionFault? q i := by
  unfold positionViolations positionFault?
  by_cases h : q.index = i
  · rw [if_neg (not_not.mpr h), if_neg (not_not.mpr h), List.nil_append, List.map_map,
      List.head?_map, List.head?_filter]
    simp only [Edge.target, id]
    cases q.edges.find? fun edge => decide (p.states.length ≤ edge.2) <;> rfl
  · simp [h]

theorem structureFault?_eq (p : Parts Nat) : p.structureFault? =
    (p.states.zipIdx.findSome? fun qi => p.positionFault? qi.1 qi.2).or
      (if p.initial < p.states.length then none
        else some (.initialOutOfRange p.initial p.states.length)) := by
  unfold structureFault?
  split
  · rename_i fault hfault
    change p.states.zipIdx.findSome? (fun qi => p.positionFault? qi.1 qi.2) = some fault at hfault
    rw [hfault, Option.some_or]
  · rename_i hnone
    change p.states.zipIdx.findSome? (fun qi => p.positionFault? qi.1 qi.2) = none at hnone
    rw [hnone, Option.none_or]

theorem head?_structureViolations (p : Parts Nat) :
    (p.structureViolations.map (·.2)).head? = p.structureFault? := by
  rw [structureViolations, List.map_append, List.head?_append, List.map_flatMap, List.head?_flatMap,
    structureFault?_eq]
  simp only [head?_positionViolations]
  congr 1
  split <;> rfl

/-- With states as they must be each edge leads to a state. -/
theorem exists_target (h : p.structureFault? = none) (hq : q ∈ p.states) {edge : Symbol × Nat}
    (hedge : edge ∈ q.edges) : ∃ r, p.states[edge.2]? = some r := by
  obtain ⟨i, hi⟩ := List.mem_iff_getElem?.mp hq
  have hlt := ((structureFault?_eq_none_iff.mp h).1 i q hi).2 edge hedge
  exact ⟨_, List.getElem?_eq_getElem hlt⟩

theorem labelFault?_eq (h : p.structureFault? = none) (hq : q ∈ p.states) {edge : Symbol × Nat}
    (hedge : edge ∈ q.edges) : p.labelFault? q edge = p.edgeFault? q edge := by
  obtain ⟨r, hr⟩ := exists_target h hq hedge
  unfold labelFault? edgeFault?
  rw [hr]
  rfl

theorem findSome?_congr {α β : Type} {f g : α → Option β} {xs : List α} (h : ∀ x ∈ xs, f x = g x) :
    xs.findSome? f = xs.findSome? g := by
  rw [← List.head?_filterMap, ← List.head?_filterMap, List.filterMap_congr h]

theorem head?_labelViolations (h : p.structureFault? = none) :
    (p.labelViolations.map (·.2)).head? = p.states.findSome? fun q =>
      q.edges.findSome? (p.edgeFault? q) := by
  have hedges (qi : Numbered Nat × Nat) : ((qi.1.edges.filterMap fun edge =>
      (p.labelFault? qi.1 edge).map fun fault => (Place.label qi.2 edge, fault)).map (·.2)).head? =
        qi.1.edges.findSome? (p.labelFault? qi.1) := by
    simp [List.map_filterMap, List.head?_filterMap, Function.comp_def]
  have hstates : p.states.zipIdx.findSome? (fun qi => qi.1.edges.findSome? (p.labelFault? qi.1)) =
      p.states.findSome? fun q => q.edges.findSome? (p.labelFault? q) := by
    conv_rhs => rw [← List.zipIdx_map_fst 0 p.states, List.findSome?_map]
    rfl
  rw [labelViolations, List.map_flatMap, List.head?_flatMap]
  simp only [hedges]
  rw [hstates]
  exact findSome?_congr fun q hq => findSome?_congr fun edge hedge => labelFault?_eq h hq hedge

/-- The checks tell the first violation. -/
theorem assembleFinite_eq_head (p : Parts Nat) : p.assembleFinite =
    match (p.violations.map (·.2)).head? with
    | some fault => .error fault
    | none => .ok p.automaton := by
  have hlabels : p.structureFault?.or (p.labelViolations.map (·.2)).head? =
      p.structureFault?.or (p.states.findSome? fun q => q.edges.findSome? (p.edgeFault? q)) := by
    cases h : p.structureFault? with
    | some fault => rfl
    | none => rw [head?_labelViolations h]
  rw [violations, List.map_append, List.map_append, List.head?_append, List.head?_append,
    head?_structureViolations, hlabels]
  unfold assembleFinite alphabetViolations
  by_cases h : Symbol.epsilon ∈ p.alphabet
  · simp [h]
  by_cases h' : Symbol.literal "" ∈ p.alphabet
  · simp [h, h']
  simp only [h, h', if_false, List.append_nil, List.map_nil, List.head?_nil, Option.none_or]
  cases p.structureFault? with
  | some fault => rfl
  | none =>
    rw [Option.none_or]
    cases p.states.findSome? fun q => q.edges.findSome? (p.edgeFault? q) <;> rfl

/-- A fault is told if and only if it is that of the first violation. -/
theorem assembleFinite_eq_error_iff {fault : Fault} : p.assembleFinite = .error fault ↔
    ∃ place, p.Violation place fault ∧
      ∀ other fault', p.Violation other fault' → other = place ∨ place.Before other := by
  have hordered := p.pairwise_violations
  simp only [← mem_violations]
  rw [assembleFinite_eq_head]
  generalize p.violations = violations at hordered ⊢
  cases violations with
  | nil => simp
  | cons first rest =>
    obtain ⟨first, fault₀⟩ := first
    obtain ⟨hfirst, _⟩ := List.pairwise_cons.mp hordered
    rw [List.map_cons, List.head?_cons]
    constructor
    · rintro ⟨⟩
      refine ⟨first, List.mem_cons_self, fun other fault' hother => ?_⟩
      rcases List.mem_cons.mp hother with hsame | hlater
      · exact .inl (Prod.mk.inj hsame).1
      · exact .inr (hfirst _ hlater)
    · rintro ⟨place, hplace, hleast⟩
      rcases List.mem_cons.mp hplace with hsame | hlater
      · rw [(Prod.mk.inj hsame).2]
      · -- A violation that comes after the first one is not before all others.
        have hbefore : first.Before place := hfirst _ hlater
        rcases hleast first fault₀ List.mem_cons_self with rfl | hbefore'
        · exact absurd hbefore (Place.Before.irrefl _)
        · exact absurd hbefore' hbefore.asymm

/-! ## Parts without a violation -/

/-- Parts that keep all rules. -/
structure Faultless (p : Parts Nat) : Prop where
  epsilon : Symbol.epsilon ∉ p.alphabet
  nameless : Symbol.literal "" ∉ p.alphabet
  index : ∀ (i : Nat) (q : Numbered Nat), p.states[i]? = some q → q.index = i
  target : ∀ q ∈ p.states, ∀ edge ∈ q.edges, edge.2 < p.states.length
  initial : p.initial < p.states.length
  reference : ∀ q ∈ p.states, ∀ edge ∈ q.edges, ∀ cell, edge.1 ≠ .ref cell
  name : ∀ q ∈ p.states, ∀ edge ∈ q.edges, edge.1 ≠ .literal ""

theorem edgeFault?_eq_none_iff_ne {edge : Symbol × Nat} :
    p.edgeFault? q edge = none ↔ (∀ cell, edge.1 ≠ .ref cell) ∧ edge.1 ≠ .literal "" := by
  rw [edgeFault?_eq_none_iff]
  cases edge.1 <;> simp

theorem exists_assembleFinite_eq_ok_iff : (∃ A, p.assembleFinite = .ok A) ↔ p.Faultless := by
  simp only [assembleFinite_eq_ok_iff, structureFault?_eq_none_iff, edgeFault?_eq_none_iff_ne]
  constructor
  · rintro ⟨_, hepsilon, hname, ⟨hplaced, hinitial⟩, hlabels, _⟩
    refine ⟨hepsilon, hname, fun i q hq => (hplaced i q hq).1, fun q hq => ?_, hinitial,
      fun q hq edge hedge => (hlabels q hq edge hedge).1, fun q hq edge hedge =>
        (hlabels q hq edge hedge).2⟩
    obtain ⟨i, hi⟩ := List.mem_iff_getElem?.mp hq
    exact (hplaced i q hi).2
  · intro h
    exact ⟨_, h.epsilon, h.nameless,
      ⟨fun i q hq => ⟨h.index i q hq, h.target q (List.mem_of_getElem? hq)⟩, h.initial⟩,
      fun q hq edge hedge => ⟨h.reference q hq edge hedge, h.name q hq edge hedge⟩, rfl⟩

theorem mem_alphabet_automaton {s : Symbol} : s ∈ p.automaton.alphabet ↔
    s ∈ p.alphabet ∨ ∃ name, s = .literal name ∧ ∃ q ∈ p.states, ∃ r, (s, r) ∈ q.edges := by
  rw [automaton, SortedSet.mem_foldl_insert, List.mem_filter, Symbol.isLiteral_iff]
  simp only [List.mem_flatMap, List.mem_map, Prod.exists, exists_and_right, exists_eq_right]
  tauto

/-- Parts are assembled if and only if the alphabet has neither epsilon nor the symbol without a
name, each state carries its position, the initial state and all targets exist, and no edge carries
a reference or the symbol without a name. The states are then the given ones, and the alphabet is
the given one and the literals on edges. Otherwise the fault is that of the first violation in the
order of the checks. Labels are looked at only where all targets exist. -/
theorem assembleFinite_first_violation (p : Parts Nat) :
    ((∃ A, p.assembleFinite = .ok A) ↔ p.Faultless) ∧
      (∀ A, p.assembleFinite = .ok A → A.initial = p.initial ∧ A.states = p.states ∧
        ∀ s, s ∈ A.alphabet ↔
          s ∈ p.alphabet ∨ ∃ name, s = .literal name ∧ ∃ q ∈ p.states, ∃ r, (s, r) ∈ q.edges) ∧
      (∀ fault, p.assembleFinite = .error fault ↔ ∃ place, p.Violation place fault ∧
        ∀ other fault', p.Violation other fault' → other = place ∨ place.Before other) ∧
      (p.structureFault? = none →
        ∀ q ∈ p.states, ∀ edge ∈ q.edges, ∃ r, p.states[edge.2]? = some r) := by
  refine ⟨exists_assembleFinite_eq_ok_iff, fun A hA => ?_, fun _ => assembleFinite_eq_error_iff,
    fun h _ hq _ hedge => exists_target h hq hedge⟩
  obtain ⟨_, _, _, _, rfl⟩ := assembleFinite_eq_ok_iff.mp hA
  exact ⟨rfl, rfl, fun _ => mem_alphabet_automaton⟩

/-- Of a symbol without a name, a reference, a wrong index, an edge that leads nowhere from the same
position, and an initial state that does not exist, the index is told. -/
example : (⟨7, [⟨0, "", false, Table.ofEdges [(.literal "", 0), (.ref 1, 1)]⟩,
    ⟨0, "", true, Table.ofEdges [(.literal "a", 5)]⟩], ∅⟩ : Parts Nat).assembleFinite =
      .error (.indexMismatch 1 0) := by decide

end Parts

end Acceptors
