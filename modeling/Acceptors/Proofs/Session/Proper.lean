import Acceptors.Proofs.Reassembly
import Acceptors.Proofs.Regex.Parentheses
import Acceptors.Proofs.Session.Coherence

/-!
Automata in sessions. Where sources have alphabets of literals and trees with names, every automaton
that the operations lead to is proper, in whatever order they come, and the ones recalled from the
registry are too (`invariant_proper`). So no operation on automata meets a state, an edge or a name
that it must refuse, or looks for a state that is not there (`Value.Proper.exists_apply_eq_ok`).
Main statement: `proper_run`.
-/

namespace Acceptors

open Automaton

/-! ## Proper values -/

/-- No literal in the trees of the equations is without a name. -/
def EquationSystem.Named (S : EquationSystem) : Prop :=
  ∀ x e, S.equations.get? x = some e → e.All fun r => ∀ name ∈ r.names, name ≠ ""

/-- The minimal automaton is proper if it is known. -/
def Language.Proper (l : Language) : Prop := ∀ D, l.minimalDfa = some D → D.Proper

structure Value.Proper (v : Value) : Prop where
  acceptor : ∀ A, v.acceptor? = some A → A.Proper
  system : ∀ S, v = .system S → S.Named
  language : ∀ l, v = .language l → l.Proper

/-- What is stored of all languages is proper. -/
def Registry.Proper (r : Registry) : Prop :=
  ∀ slot ∈ r.slots, ∀ l, slot.language = some l → l.Proper

theorem Language.proper_ofAlphabet (alphabet : Alphabet) :
    (Language.ofAlphabet alphabet).Proper := by
  intro D hD
  cases hD

/-- A fact that is taught about minimal automata tells of a proper one. -/
def Fact.Proper (fact : Fact) : Prop := ∀ D, fact = .minimalDfa D → D.Proper

theorem Language.Proper.learn {l : Language} {fact : Fact} (hl : l.Proper) (hfact : fact.Proper) :
    (l.learn fact).Proper := by
  cases fact with
  | minimalDfa A =>
    intro D hD
    rcases Option.or_eq_some_iff.mp hD with hD | ⟨_, hD⟩
    · exact hl D hD
    · cases hD
      exact hfact _ rfl
  | _ => exact hl

/-! ## Registries -/

namespace Registry.Proper

variable {r : Registry} {id : LanguageId}

theorem set (hr : r.Proper) (slot : Nat) {s : Slot} (hs : ∀ l, s.language = some l → l.Proper)
    (free : List Nat) : (⟨r.slots.set slot s, free⟩ : Registry).Proper := by
  intro t ht
  rcases List.mem_or_eq_of_mem_set ht with ht | rfl
  · exact hr t ht
  · exact hs

theorem find? (hr : r.Proper) {l : Language} (h : r.find? id = some l) : l.Proper :=
  hr _ (List.mem_of_getElem? (Registry.find?_eq_some_iff.mp h)) l rfl

theorem register (hr : r.Proper) {l : Language} (hl : l.Proper) : (r.register l).1.Proper := by
  have hslot : ∀ generation k, (⟨generation, some l⟩ : Slot).language = some k → k.Proper := by
    rintro _ k hk
    cases hk
    exact hl
  unfold Registry.register
  split
  · intro t ht
    rcases List.mem_append.mp ht with ht | ht
    · exact hr t ht
    · exact List.mem_singleton.mp ht ▸ hslot 0
  · exact hr.set _ (hslot _) _

theorem modify (hr : r.Proper) {f : Language → Language} (hf : ∀ l, l.Proper → (f l).Proper) :
    (r.modify id f).Proper := by
  unfold Registry.modify
  split
  · rename_i l hl
    refine hr.set _ (fun k hk => ?_) _
    cases hk
    exact hf l (hr.find? hl)
  · exact hr

theorem learn (hr : r.Proper) {fact : Fact} (hfact : fact.Proper) : (r.learn id fact).Proper :=
  hr.modify fun _ hl => hl.learn hfact

theorem release (hr : r.Proper) (id : LanguageId) : (r.release id).Proper := by
  unfold Registry.release
  split
  · refine hr.set _ (fun l hl => ?_) _
    cases hl
  · exact hr

/-- What is recalled is proper, be it stored before or computed now. -/
theorem recallMinimal (hr : r.Proper) (id : LanguageId) {A : FiniteAutomaton} (hA : A.Proper) :
    (recallMinimal r id A).1.Proper ∧ ∃ D, (recallMinimal r id A).2 = .ok D ∧ D.Proper := by
  unfold Automaton.recallMinimal
  split
  · rename_i D hD
    obtain ⟨l, hl, hD⟩ := Option.bind_eq_some_iff.mp hD
    have hproper := hr.find? hl D hD
    exact ⟨hr, D, Checked.fromParts_parts hproper.wellFormed.initial_lt hproper.indexed, hproper⟩
  · rw [Checked.minimal_eq_ok hA.toIntact]
    refine ⟨hr.learn fun D hD => ?_, _, rfl, hA.minimal⟩
    cases hD
    exact hA.minimal

theorem recallPumpLength (hr : r.Proper) {A : FiniteAutomaton} (hA : A.Proper) :
    (recallPumpLength r id A).1.Proper := by
  unfold Automaton.recallPumpLength
  split
  · exact hr
  · obtain ⟨hr, D, hD, _⟩ := hr.recallMinimal id hA
    simp only [hD, Except.map, record]
    refine hr.learn fun E hE => ?_
    cases hE

theorem recallMonoid (hr : r.Proper) {A : FiniteAutomaton} (hA : A.Proper) :
    (recallMonoid r id A).1.Proper := by
  unfold Automaton.recallMonoid
  split
  · exact hr
  · obtain ⟨hr, D, hD, _⟩ := hr.recallMinimal id hA
    simp only [hD, Except.bind]
    cases Checked.monoid D with
    | error b => exact hr
    | ok M => exact hr.learn nofun

/-- A language that is attached has no facts. -/
theorem attach (hr : r.Proper) (v : Value) : (v.attach r).1.Proper := by
  cases hv : v.isUnlinked with
  | true =>
    obtain ⟨alphabet, hregistry, _⟩ := Value.attach_of_isUnlinked (r := r) hv
    rw [hregistry]
    exact hr.register (Language.proper_ofAlphabet alphabet)
  | false =>
    rw [(Value.attach_of_not_isUnlinked hv).1]
    exact hr

end Registry.Proper

/-! ## Values made of others -/

namespace EquationSystem

/-- The equations of a proper automaton have the names of its edges. -/
theorem named_ofAutomaton {A : FiniteAutomaton} (hA : A.Proper) : (ofAutomaton A).Named := by
  refine (Regex.closed_names (· ≠ "")).all_ofEpsilonFree (by simp [Regex.names])
    fun p name q hs => ?_
  simpa [Regex.names] using hA.assembled.name_ne hs

theorem Named.names_solve {S : EquationSystem} (hS : S.Named) : ∀ name ∈ S.solve.names, name ≠ "" :=
  (Regex.closed_names (· ≠ "")).solve hS

end EquationSystem

namespace Value

variable {r : Registry} {v w : Value} {A : FiniteAutomaton}

namespace Proper

theorem of_acceptor (hA : v.acceptor? = some A) (h : A.Proper) : v.Proper where
  acceptor B hB := by
    cases hA.symm.trans hB
    exact h
  system := by
    rintro S rfl
    cases hA
  language := by
    rintro l rfl
    cases hA

/-- A value that is neither a representation nor a system or a language holds no automaton. -/
theorem of_none (hA : v.acceptor? = none) (hsystem : ∀ S, v ≠ .system S)
    (hlanguage : v.isLanguage = false) :
    v.Proper where
  acceptor := by simp [hA]
  system S hS := absurd hS (hsystem S)
  language := by
    rintro l rfl
    cases hlanguage

theorem of_system {S : EquationSystem} (hS : S.Named) : (Value.system S).Proper where
  acceptor := nofun
  system T hT := by
    cases hT
    exact hS
  language := nofun

theorem of_language {l : Language} (hl : l.Proper) : (Value.language l).Proper where
  acceptor := nofun
  system := nofun
  language k hk := by
    cases hk
    exact hl

theorem attach (h : v.Proper) : (v.attach r).2.1.Proper := by
  cases v with
  | automaton | expression => exact of_acceptor acceptor?_attach (h.acceptor _ rfl)
  | pushdown x | memory x =>
    obtain ⟨body, link⟩ := x
    cases link <;> exact of_none rfl nofun rfl
  | _ => exact h

theorem of_derivation (h : v.Proper) {m : Maker} {f : Value → Except Failure Value}
    (hm : m.derivation = some f) (hw : f v = .ok w) : w.Proper := by
  cases yields_of_derivation (fun A hA => (h.acceptor A hA).toLettered) hm hw with
  | recast hA hB _ hrecasts => exact of_acceptor hB ((h.acceptor _ hA).recasts hrecasts)
  | complement => exact of_acceptor rfl (h.acceptor _ rfl).complement
  | equations => exact of_system (EquationSystem.named_ofAutomaton (h.acceptor _ rfl))
  | solution S => exact of_acceptor rfl (Expression.proper_ofRegex (h.system S rfl).names_solve)
  | assembled hA => exact of_acceptor rfl (Description.proper_of_toFinite hA)
  | language => exact h
  | other hA hlanguage hsystem => exact of_none hA hsystem hlanguage

end Proper

/-- The operation applies to the value: to any automaton or to deterministic ones, to any
expression, or to both. -/
def Suits (v : Value) (m : Maker) : Prop :=
  match v with
  | automaton x =>
    m ∈ [.withoutEpsilon, .determinize, .complete, .canonical, .mergeBisimilar, .minimalDfa,
      .toExpression] ∨
      m ∈ [.minimize, .complement] ∧ x.body.isDeterministic = true
  | expression _ => m ∈ [.toAutomaton, .minimalDfa]
  | _ => False

/-- The operation succeeds: no state is looked up that is not there, and what is put together passes
the assertions. Of a proper automaton, the expression has a name for every literal. -/
theorem Proper.exists_apply_eq_ok (h : v.Proper) {m : Maker} (hm : v.Suits m) {r : Registry}
    (hr : r.Proper) :
    ∃ w A, (v.apply m r).2.2 = .ok w ∧ w.acceptor? = some A := by
  have hminimal : ∀ A, v.acceptor? = some A →
      ∃ w B, (v.minimalDfa r).2.2 = .ok w ∧ w.acceptor? = some B := by
    intro A hA
    obtain ⟨id, _, hid⟩ := exists_attach_eq_ok (r := r) hA
    obtain ⟨_, D, hD, _⟩ := (hr.attach v).recallMinimal id (h.acceptor A hA)
    rw [minimalDfa_of_acceptor hA hid, hD]
    exact ⟨_, _, rfl, rfl⟩
  cases v with
  | automaton x =>
    have hproper := h.acceptor _ rfl
    have hA := hproper.toIntact
    have hderive :
        ∀ {f : FiniteAutomaton → Checked FiniteAutomaton} {B : FiniteAutomaton}, f x.body = .ok B →
        ∃ w A, (automaton x).deriveAutomaton f = .ok w ∧ w.acceptor? = some A := by
      intro f B hB
      exact ⟨.automaton (x.derive B), B, by rw [deriveAutomaton, hB]; rfl, rfl⟩
    have hnamed : ¬ EquationSystem.hasNameless x.body = true :=
      Bool.eq_false_iff.mp (EquationSystem.hasNameless_of_assembled hproper.assembled)
    simp only [Suits, List.mem_cons, List.not_mem_nil, or_false] at hm
    rcases hm with (rfl | rfl | rfl | rfl | rfl | rfl | rfl) | ⟨rfl | rfl, hdet⟩
    · exact hderive (Checked.withoutEpsilon_eq_ok hA)
    · exact hderive (Checked.determinize_eq_ok hA)
    · exact hderive (Checked.complete_eq_ok hA)
    · exact hderive (Checked.canonical_eq_ok hA.wellFormed)
    · exact hderive (Checked.mergeBisimilar_eq_ok hA)
    · exact hminimal _ rfl
    · refine ⟨.expression (x.derive (.ofAutomaton x.body)), _, ?_, rfl⟩
      rw [apply_of_derivation rfl, keeping, toExpression, Checked.toExpression_eq hA, if_neg hnamed]
      rfl
    · exact hderive (Checked.minimize_eq_ok hA hdet)
    · refine ⟨.automaton (.fresh x.body.complement), _, ?_, rfl⟩
      rw [apply_of_derivation rfl, keeping, complement, Checked.complement_eq_ok hA hdet]
      rfl
  | expression x =>
    simp only [Suits, List.mem_cons, List.not_mem_nil, or_false] at hm
    rcases hm with rfl | rfl
    · refine ⟨.automaton (x.derive x.body.toAutomaton), _, ?_, rfl⟩
      rw [apply_of_derivation rfl, keeping, toAutomaton, Checked.toAutomaton_eq_ok]
      rfl
    · exact hminimal _ rfl
  | _ => cases hm

end Value

/-! ## Sources -/

def Regex.isNamed (r : Regex) : Bool := r.names.all (· != "")

theorem Regex.isNamed_iff {r : Regex} : r.isNamed = true ↔ ∀ name ∈ r.names, name ≠ "" := by
  simp [isNamed]

def EquationSystem.isNamed (S : EquationSystem) : Bool :=
  S.equations.values.all fun e => e.constant.isNamed && e.terms.values.all Regex.isNamed

theorem EquationSystem.named_of_isNamed {S : EquationSystem} (h : S.isNamed = true) : S.Named := by
  intro x e he
  have hall := List.all_eq_true.mp h e (SortedMap.mem_values he)
  rw [Bool.and_eq_true] at hall
  exact ⟨fun y r hr =>
    Regex.isNamed_iff.mp (List.all_eq_true.mp hall.2 r (SortedMap.mem_values hr)),
    Regex.isNamed_iff.mp hall.1⟩

/-- What is built has an alphabet of literals if it is an automaton, and trees with names if it has
trees. -/
def Source.isNamed (source : Source) : Bool :=
  match source.build with
  | .ok (.automaton x) => x.body.alphabet.toList.all Symbol.isLiteral
  | .ok (.expression x) => x.body.regex.isNamed
  | .ok (.system S) => S.isNamed
  | _ => true

/-- A minimal automaton is taught only if the checks pass its parts and its alphabet has literals
only. -/
def Fact.isNamed : Fact → Bool
  | .minimalDfa D => D.parts.assembleFinite = .ok D && D.alphabet.toList.all Symbol.isLiteral
  | _ => true

theorem Fact.proper_of_isNamed {fact : Fact} (h : fact.isNamed = true) : fact.Proper := by
  rintro D rfl
  simp only [isNamed, Bool.and_eq_true, decide_eq_true_eq, List.all_eq_true] at h
  exact Assembled.proper ⟨D.parts, h.1⟩ h.2

/-- No text spells a literal without a name. -/
theorem Expression.proper_of_parse {text : String} {e : Expression} (h : parse text = .ok e) :
    e.toAutomaton.Proper := by
  obtain ⟨r, hr, rfl⟩ := map_eq_ok_iff.mp h
  exact proper_ofRegex (Regex.readable_names.derives (Regex.derives_of_read hr))

theorem Source.proper_build {source : Source} {v : Value} (hnamed : source.isNamed = true)
    (hv : source.build = .ok v) : v.Proper := by
  rw [isNamed, hv] at hnamed
  cases builds_of_build hv with
  | automaton hA => exact .of_acceptor rfl (Assembled.proper ⟨_, hA⟩ (List.all_eq_true.mp hnamed))
  | describedAutomaton hA => exact .of_acceptor rfl (Description.proper_of_toFinite hA)
  | expression he | automatonOfText he => exact .of_acceptor rfl (Expression.proper_of_parse he)
  | minimalOfText he => exact .of_acceptor rfl (Expression.proper_of_parse he).minimal
  | tree t r => exact .of_acceptor rfl (Expression.proper_ofRegex (Regex.isNamed_iff.mp hnamed))
  | system => exact .of_system (EquationSystem.named_of_isNamed hnamed)
  | language alphabet => exact .of_language (Language.proper_ofAlphabet alphabet)
  | other _ hA hlanguage hsystem => exact .of_none hA hsystem hlanguage

/-! ## Sessions -/

/-- What is stored and what is held is proper. -/
structure AllProper (r : Registry) (vs : List Value) : Prop where
  stored : r.Proper
  held : ∀ v ∈ vs, v.Proper

namespace AllProper

variable {r r' : Registry} {v : Value} {vs : List Value}

theorem cons (h : AllProper r vs) (hv : v.Proper) : AllProper r (v :: vs) :=
  ⟨h.stored, List.forall_mem_cons.mpr ⟨hv, h.held⟩⟩

theorem tail (h : AllProper r (v :: vs)) : AllProper r vs :=
  ⟨h.stored, fun u hu => h.held u (.tail v hu)⟩

theorem keep (h : AllProper r vs) (hr : r'.Proper) : AllProper r' vs := ⟨hr, h.held⟩

end AllProper

/-- Whatever the operations are, from named sources they lead to proper values. -/
theorem invariant_proper :
    Session.Invariant (·.isNamed = true) (·.isNamed = true) fun _ => AllProper where
  perm hp h := ⟨h.stored, fun v hv => h.held v (hp.mem_iff.mpr hv)⟩
  drop _ h := by
    unfold Session.releaseOwned
    split
    · exact h.tail.keep (h.stored.release _)
    · exact h.tail
  build hnamed hv h := h.cons (Source.proper_build hnamed hv)
  intersect hx hy hA h := by
    have hx := (h.held _ hx).acceptor _ rfl
    have hy := (h.held _ hy).acceptor _ rfl
    cases (Checked.intersection_eq_ok hx.toIntact hy.toIntact).symm.trans hA
    exact h.cons (.of_acceptor rfl (hx.intersection hy))
  derive hm hv hw h := h.cons ((h.held _ hv).of_derivation hm hw)
  attach {n r v vs} _ h :=
    (h.tail.keep (h.stored.attach v)).cons (h.held v List.mem_cons_self).attach
  enroll l hl hv h := by
    refine (h.keep (h.stored.register ((h.held _ hl).language l rfl))).cons ?_
    rcases hv with rfl | rfl <;> exact .of_none rfl nofun rfl
  inform v hv h := h.cons (by rcases hv with ⟨_, rfl⟩ | ⟨_, rfl⟩ <;> exact .of_none rfl nofun rfl)
  minimal hA _ hv h := by
    obtain ⟨hr, D, hrecall, hD⟩ := h.stored.recallMinimal _ ((h.held _ hv).acceptor _ hA)
    refine ⟨h.keep hr, fun E hE => ?_⟩
    cases hrecall.symm.trans hE
    exact (h.keep hr).cons (.of_acceptor rfl hD)
  pump hA _ hv h := h.keep (h.stored.recallPumpLength ((h.held _ hv).acceptor _ hA))
  monoid hA _ hv h := h.keep (h.stored.recallMonoid ((h.held _ hv).acceptor _ hA))
  learn _ hfact h := h.keep (h.stored.learn (Fact.proper_of_isNamed hfact))
  teach hfact h := by
    have hl := (h.held _ List.mem_cons_self).language _ rfl
    exact h.tail.cons (.of_language (hl.learn (Fact.proper_of_isNamed hfact)))

/-- The sources of the step are named, and so is what it teaches a language. -/
def Step.Named (step : Step) : Prop := step.Admits (·.isNamed = true) (·.isNamed = true)

instance : DecidablePred Step.Named := fun step =>
  inferInstanceAs (Decidable (step.Admits (·.isNamed = true) (·.isNamed = true)))

namespace Session

variable {steps : List Step} {v : Value} {op : Operand}

theorem holds_allProper (hsteps : ∀ step ∈ steps, step.Named) :
    Holds (fun _ => AllProper) 0 (start.run steps) [] := by
  have hstart : AllProper start.registry [] :=
    ⟨fun _ hslot => absurd hslot List.not_mem_nil, by simp⟩
  exact invariant_proper.run_uncounted steps ⟨.nil, hstart⟩ hsteps

theorem reply_intersect {s : Session} {a b : Operand} {x y : Linked FiniteAutomaton}
    (hx : s.resolve a = .ok (.automaton x)) (hy : s.resolve b = .ok (.automaton y))
    {A : FiniteAutomaton}
    (hA : Checked.intersection x.body y.body = .ok A) {target : Option String} :
    (s.step (.intersect a b target)).2 = .ok (.made (.automaton (.fresh A))) := by
  have hmade : s.intersect a b = .ok (.automaton (.fresh A)) := by
    simp only [Session.intersect, hx, hy, hA, bind, Except.bind, Failure.ofChecked, pure,
      Except.pure]
  show (conclude target (s, s.intersect a b)).2 = _
  rw [hmade]
  rfl

theorem proper_of_resolve (hsteps : ∀ step ∈ steps, step.Named) (hop : op.Admits (·.isNamed = true))
    (hv : (start.run steps).resolve op = .ok v) :
    ∃ vs, AllProper (start.run steps).registry (v :: vs) :=
  invariant_proper.exists_held (holds_allProper hsteps) hop hv

/-- In a run whose sources have alphabets of literals and trees with names, every automaton is
proper, so that the checks pass its own parts and assemble it again; the operations that apply to it
succeed, and make proper automata or expressions of such. -/
theorem proper_run (steps : List Step) (hsteps : ∀ step ∈ steps, step.Named) :
    (∀ name v A, (start.run steps).find? name = some v → v.acceptor? = some A →
      A.Proper ∧ A.parts.assembleFinite = .ok A) ∧
    (∀ m op target v, op.Admits (·.isNamed = true) → (start.run steps).resolve op = .ok v →
      v.Suits m → ∃ w A, ((start.run steps).step (.make m op target)).2 = .ok (.made w) ∧
        w.acceptor? = some A ∧ A.Proper ∧ A.parts.assembleFinite = .ok A) ∧
    ∀ a b target x y, a.Admits (·.isNamed = true) → b.Admits (·.isNamed = true) →
      (start.run steps).resolve a = .ok (.automaton x) →
      (start.run steps).resolve b = .ok (.automaton y) →
        ∃ z, ((start.run steps).step (.intersect a b target)).2 = .ok (.made (.automaton z)) ∧
          z.body.Proper ∧ z.body.parts.assembleFinite = .ok z.body := by
  refine ⟨?_, ?_, ?_⟩
  · intro name v A hfind hA
    have hproper := ((holds_allProper hsteps).held.held v (mem_values_of_find? hfind)).acceptor A hA
    exact ⟨hproper, hproper.assembleFinite_parts⟩
  · intro m op target v hop hv hm
    obtain ⟨vs, hall⟩ := proper_of_resolve hsteps hop hv
    obtain ⟨w, A, hw, hA⟩ := (hall.held v List.mem_cons_self).exists_apply_eq_ok hm hall.stored
    have happly := invariant_proper.apply (n := 0) hall m
    rw [hw] at happly
    have hproper := (happly.held w List.mem_cons_self).acceptor A hA
    refine ⟨w, A, ?_, hA, hproper, hproper.assembleFinite_parts⟩
    rw [reply_make hv, hw]
    rfl
  · intro a b target x y ha hb hx hy
    obtain ⟨_, hallx⟩ := proper_of_resolve hsteps ha hx
    obtain ⟨_, hally⟩ := proper_of_resolve hsteps hb hy
    have hx' := (hallx.held _ List.mem_cons_self).acceptor _ rfl
    have hy' := (hally.held _ List.mem_cons_self).acceptor _ rfl
    have hproper := hx'.intersection hy'
    have hmade := Checked.intersection_eq_ok hx'.toIntact hy'.toIntact
    exact ⟨_, reply_intersect hx hy hmade, hproper, hproper.assembleFinite_parts⟩

/-- Any `a` before any `b`, over an alphabet with one more letter. -/
def parted : Parts Nat :=
  ⟨0, [⟨0, "", false, Table.ofEdges [(.literal "a", 0), (.epsilon, 1)]⟩,
    ⟨1, "", true, Table.ofEdges [(.literal "b", 1)]⟩], .ofList [.literal "c"]⟩

/-- The complement is turned into an expression, the automaton of which is intersected with another;
the minimal automaton of the intersection is recalled. -/
def chained : List Step :=
  [.build (.automaton true parted) (some "A"), .make .determinize (.named "A") (some "D"),
    .make .complement (.named "D") (some "C"), .make .toExpression (.named "C") (some "R"),
    .make .toAutomaton (.named "R") (some "T"),
    .intersect (.named "T") (.source (.automatonOfText "(a|b)*")) (some "I"),
    .make .minimalDfa (.named "I") (some "M")]

theorem proper_run_chained :
    (∀ step ∈ chained, step.Named) ∧
      (∃ v A, (start.run chained).find? "M" = some v ∧ v.acceptor? = some A ∧ A.Proper) ∧
      (∃ w A, ((start.run chained).step (.make .complement (.named "M") none)).2 = .ok (.made w) ∧
        w.acceptor? = some A ∧ A.Proper ∧ A.parts.assembleFinite = .ok A) ∧
      ∃ z, ((start.run chained).step (.intersect (.named "M") (.named "A") none)).2 =
        .ok (.made (.automaton z)) ∧ z.body.Proper := by
  have hsteps : ∀ step ∈ chained, step.Named := by decide +kernel
  obtain ⟨hheld, hmake, hintersect⟩ := proper_run chained hsteps
  let R : Expression := .ofAutomaton parted.automaton.determinize.complement
  let L : Expression := .ofRegex (.star (.union [.literal "a", .literal "b"]))
  let M : FiniteAutomaton := (R.toAutomaton.intersection L.toAutomaton).determinize.minimize
  have hA : (start.run chained).find? "A" = some (.automaton ⟨parted.automaton, none⟩) := by
    decide +kernel
  have hM : (start.run chained).find? "M" = some (.automaton ⟨M, some (.shared ⟨0, 0⟩)⟩) := by
    decide +kernel
  obtain ⟨z, hz, hproper, _⟩ := hintersect (.named "M") (.named "A") none _ _ trivial trivial
    (resolve_named.mpr hM) (resolve_named.mpr hA)
  exact ⟨hsteps, ⟨_, _, hM, rfl, (hheld _ _ _ hM rfl).1⟩,
    hmake .complement (.named "M") none _ trivial (resolve_named.mpr hM)
    (.inr ⟨by decide, by decide +kernel⟩), z, hz, hproper⟩

end Session

end Acceptors
