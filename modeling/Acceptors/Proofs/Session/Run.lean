import Acceptors.Proofs.Language.Recall
import Acceptors.Session.Step
import Mathlib.Tactic

/-!
Runs of a session. A step takes its value out, changes the registry in one way or another, and puts
the value and what was made of it back; the order of the values plays no part. `Invariant` lists the
changes once, so that what they keep is kept by every step (`Invariant.step`) and every run
(`Invariant.run`).
-/

namespace Acceptors

open Automaton

namespace Value

/-- The language that the value is linked to. -/
def id? (v : Value) : Option LanguageId := v.link?.map Link.id

/-- The automaton that facts about a representation are computed from. -/
def acceptor? : Value → Option FiniteAutomaton
  | automaton x => some x.body
  | expression x => some x.body.toAutomaton
  | _ => none

/-- A representation whose language is not registered. -/
def isUnlinked : Value → Bool
  | automaton x => x.link.isNone
  | expression x => x.link.isNone
  | pushdown x => x.link.isNone
  | memory x => x.link.isNone
  | _ => false

def isLanguage : Value → Bool
  | language _ => true
  | _ => false

/-- A question about the minimal automaton registers the language of a representation that has
none. -/
def registersWhenAsked (v : Value) : Bool := v.acceptor?.isSome && v.isUnlinked

end Value

namespace Maker

/-- Whether the operation registers a language when it is applied to the value. -/
def registers (v : Value) : Maker → Bool
  | languageId => v.isUnlinked
  | minimalDfa => v.registersWhenAsked
  | syntacticMonoid => v.registersWhenAsked
  | register => v.isLanguage
  | registerLink => v.isLanguage
  | _ => false

/-- What the operation makes of a value, if it looks at nothing else and changes nothing. -/
def derivation : Maker → Option (Value → Except Failure Value)
  | clone => some Value.clone
  | withoutEpsilon => some fun v => v.deriveAutomaton Checked.withoutEpsilon
  | determinize => some fun v => v.deriveAutomaton Checked.determinize
  | minimize => some fun v => v.deriveAutomaton Checked.minimize
  | complete => some fun v => v.deriveAutomaton Checked.complete
  | complement => some Value.complement
  | canonical => some fun v => v.deriveAutomaton Checked.canonical
  | mergeBisimilar => some fun v => v.deriveAutomaton Checked.mergeBisimilar
  | toAutomaton => some Value.toAutomaton
  | toExpression => some Value.toExpression
  | equations => some Value.equations
  | solve => some Value.solve
  | transformationMonoid => some Value.transformationMonoid
  | assembleFinite => some Value.assembleFinite
  | assembleMemory => some Value.assembleMemory
  | share => some Value.share
  | minimalDfa | syntacticMonoid | languageId | register | registerLink => none

end Maker

namespace Session

def registers (s : Session) : Step → Bool
  | .make m v _ =>
    match s.resolve v with
    | .ok value => m.registers value
    | .error _ => false
  | .pumpLength v =>
    match s.resolve v with
    | .ok value => value.registersWhenAsked
    | .error _ => false
  | _ => false

def run (s : Session) : List Step → Session
  | [] => s
  | step :: steps => (s.step step).1.run steps

/-- The number of languages registered in the course of some steps. -/
def registrations (s : Session) : List Step → Nat
  | [] => 0
  | step :: steps => (if s.registers step then 1 else 0) + (s.step step).1.registrations steps

theorem run_append (s : Session) (before after : List Step) :
    s.run (before ++ after) = (s.run before).run after := by
  induction before generalizing s with
  | nil => rfl
  | cons step before ih => exact ih _

theorem registrations_append (s : Session) (before after : List Step) :
    s.registrations (before ++ after) =
      s.registrations before + (s.run before).registrations after := by
  induction before generalizing s with
  | nil => simp [registrations, run]
  | cons step before ih =>
    simp only [List.cons_append, registrations, run, ih]
    omega

end Session

/-! ## Operations -/

namespace Value

variable {r : Registry} {v w : Value} {A : FiniteAutomaton} {m : Maker}

theorem apply_of_derivation {f : Value → Except Failure Value} (h : m.derivation = some f) :
    v.apply m r = keeping r v (f v) := by
  cases m <;> cases h <;> rfl

theorem registers_of_derivation {f : Value → Except Failure Value} (h : m.derivation = some f) :
    m.registers v = false := by
  cases m <;> cases h <;> rfl

/-- Only a representation without a language is changed when it is attached. -/
theorem attach_of_not_isUnlinked (h : v.isUnlinked = false) :
    (v.attach r).1 = r ∧ (v.attach r).2.1 = v := by
  cases v with
  | automaton x | expression x | pushdown x | memory x =>
    obtain ⟨body, link⟩ := x
    cases link with
    | none => cases h
    | some link => exact ⟨rfl, rfl⟩
  | _ => exact ⟨rfl, rfl⟩

/-- An unlinked representation becomes the owner of a new language. -/
theorem attach_of_isUnlinked (h : v.isUnlinked = true) :
    ∃ alphabet, (v.attach r).1 = (r.register (.ofAlphabet alphabet)).1 ∧
      (v.attach r).2.1.link? = some (.owner (r.register (.ofAlphabet alphabet)).2) := by
  cases v with
  | automaton x | expression x | pushdown x | memory x =>
    obtain ⟨body, link⟩ := x
    cases link with
    | none => exact ⟨_, rfl, rfl⟩
    | some link => cases h
  | _ => cases h

@[simp] theorem acceptor?_attach : (v.attach r).2.1.acceptor? = v.acceptor? := by
  cases v with
  | automaton x | expression x | pushdown x | memory x =>
    obtain ⟨body, link⟩ := x
    cases link <;> rfl
  | _ => rfl

/-- What is made of a value by attaching it is its id. -/
theorem attach_eq_ok (h : (v.attach r).2.2 = .ok w) :
    ∃ id, w = .languageId id ∧ (v.attach r).2.1.id? = some id := by
  cases v with
  | automaton x | expression x | pushdown x | memory x =>
    obtain ⟨body, link⟩ := x
    cases link <;> cases h <;> exact ⟨_, rfl, rfl⟩
  | _ => cases h

theorem exists_attach_eq_ok (h : v.acceptor? = some A) :
    ∃ id, (v.attach r).2.2 = .ok (.languageId id) ∧ (v.attach r).2.1.id? = some id := by
  cases v with
  | automaton x | expression x =>
    obtain ⟨body, link⟩ := x
    cases link <;> exact ⟨_, rfl, rfl⟩
  | _ => cases h

theorem id?_languageId {α : Type} [Representation α] (x : Linked α) :
    (x.languageId r).2.1.link.map Link.id = some (x.languageId r).2.2 := by
  obtain ⟨body, link⟩ := x
  cases link <;> rfl

/-- A question attaches the representation and then looks up the fact under its id. -/
theorem minimalDfa_of_acceptor {id : LanguageId} (h : v.acceptor? = some A)
    (hid : (v.attach r).2.1.id? = some id) :
    v.minimalDfa r = ((recallMinimal (v.attach r).1 id A).1, (v.attach r).2.1,
      (Failure.ofChecked ((recallMinimal (v.attach r).1 id A).2.map fun D =>
        ⟨D, some (.shared id)⟩)).map .automaton) := by
  cases v with
  | automaton x =>
    cases h
    cases (id?_languageId x).symm.trans hid
    rw [minimalDfa, Linked.minimalDfa, Linked.ask_eq _ rfl]
    rfl
  | expression x =>
    cases h
    cases (id?_languageId x).symm.trans hid
    rw [minimalDfa, Linked.minimalDfa, Linked.ask_eq _ (Checked.toAutomaton_eq_ok x.body)]
    rfl
  | _ => cases h

theorem pumpLength_of_acceptor {id : LanguageId} (h : v.acceptor? = some A)
    (hid : (v.attach r).2.1.id? = some id) :
    v.pumpLength r = ((recallPumpLength (v.attach r).1 id A).1, (v.attach r).2.1,
      Failure.ofChecked (recallPumpLength (v.attach r).1 id A).2) := by
  cases v with
  | automaton x =>
    cases h
    cases (id?_languageId x).symm.trans hid
    rw [pumpLength, Linked.pumpLength, Linked.ask_eq _ rfl]
    rfl
  | expression x =>
    cases h
    cases (id?_languageId x).symm.trans hid
    rw [pumpLength, Linked.pumpLength, Linked.ask_eq _ (Checked.toAutomaton_eq_ok x.body)]
    rfl
  | _ => cases h

theorem syntacticMonoid_of_acceptor {id : LanguageId} (h : v.acceptor? = some A)
    (hid : (v.attach r).2.1.id? = some id) :
    v.syntacticMonoid r = ((recallMonoid (v.attach r).1 id A).1, (v.attach r).2.1,
      (Failure.ofChecked (recallMonoid (v.attach r).1 id A).2).map .monoid) := by
  cases v with
  | automaton x =>
    cases h
    cases (id?_languageId x).symm.trans hid
    rw [syntacticMonoid, Linked.syntacticMonoid, Linked.ask_eq _ rfl]
    rfl
  | expression x =>
    cases h
    cases (id?_languageId x).symm.trans hid
    rw [syntacticMonoid, Linked.syntacticMonoid, Linked.ask_eq _ (Checked.toAutomaton_eq_ok x.body)]
    rfl
  | _ => cases h

theorem minimalDfa_of_none (h : v.acceptor? = none) :
    v.minimalDfa r = keeping r v (.error .inapplicable) := by
  cases v <;> first | rfl | cases h

theorem pumpLength_of_none (h : v.acceptor? = none) :
    v.pumpLength r = keeping r v (.error .inapplicable) := by
  cases v <;> first | rfl | cases h

theorem syntacticMonoid_of_none (h : v.acceptor? = none) :
    v.syntacticMonoid r = keeping r v (.error .inapplicable) := by
  cases v <;> first | rfl | cases h

end Value

/-! ## Sources -/

theorem bind_eq_ok_iff {ε α β : Type} {x : Except ε α} {f : α → Except ε β} {b : β} :
    (x >>= f) = .ok b ↔ ∃ a, x = .ok a ∧ f a = .ok b := by
  cases x <;> simp [bind, Except.bind]

theorem map_eq_ok_iff {ε α β : Type} {x : Except ε α} {f : α → β} {b : β} :
    x.map f = .ok b ↔ ∃ a, x = .ok a ∧ f a = b := by
  cases x <;> simp [Except.map]

@[simp] theorem Failure.ofChecked_eq_ok {α : Type} {x : Checked α} {a : α} :
    ofChecked x = .ok a ↔ x = .ok a := by
  cases x <;> simp [ofChecked]

theorem Expression.covered_of_parse {text : String} {e : Expression} (h : parse text = .ok e) :
    e.Covered := by
  obtain ⟨r, _, rfl⟩ := map_eq_ok_iff.mp h
  exact covered_ofRegex r

namespace Source

theorem ofFault_eq_ok {α : Type} {strict : Bool} {breach : Fault → Breach} {x : Except Fault α}
    {a : α} :
    ofFault strict breach x = .ok a ↔ x = .ok a := by
  cases x <;> simp [ofFault]

theorem ofReadError_eq_ok {α : Type} {x : Except Regex.ReadError α} {a : α} :
    ofReadError x = .ok a ↔ x = .ok a := by
  cases x <;> simp [ofReadError]

/-- What a source builds: an automaton or an expression from what the checks pass or the reader
reads, equations, a language, or another value that holds none of these. -/
inductive Builds : Source → Value → Prop
  | automaton {strict : Bool} {p : Parts Nat} {A : FiniteAutomaton} : p.assembleFinite = .ok A →
      Builds (automaton strict p) (.automaton (.fresh A))
  | describedAutomaton {clauses : List Description.Clause} {d : Description} {A : FiniteAutomaton} :
      d.toFinite = .ok A → Builds (describedAutomaton clauses) (.automaton (.fresh A))
  | expression {text : String} {e : Expression} : Expression.parse text = .ok e →
      Builds (expression text) (.expression (.fresh e))
  | automatonOfText {text : String} {e : Expression} : Expression.parse text = .ok e →
      Builds (automatonOfText text) (.automaton (.fresh e.toAutomaton))
  | minimalOfText {text : String} {e : Expression} : Expression.parse text = .ok e →
      Builds (minimalOfText text) (.automaton (.fresh e.toAutomaton.determinize.minimize))
  | tree (t : Sketch) (r : Regex) : Builds (tree t) (.expression (.fresh (.ofRegex r)))
  | system (initial : Nat) (equations : List SketchedEquation) (S : EquationSystem) :
      Builds (system initial equations) (.system S)
  | language (alphabet : Alphabet) : Builds (language alphabet) (.language (.ofAlphabet alphabet))
  | other {source : Source} {v : Value} : v.link? = none → v.acceptor? = none →
    v.isLanguage = false →
      (∀ S, v ≠ .system S) → Builds source v

theorem builds_of_build {source : Source} {v : Value} (h : source.build = .ok v) :
    source.Builds v := by
  cases source with
  | automaton strict p =>
    obtain ⟨A, hA, hv⟩ := bind_eq_ok_iff.mp h
    cases hv
    exact .automaton (ofFault_eq_ok.mp hA)
  | describedAutomaton clauses =>
    obtain ⟨d, _, hv⟩ := bind_eq_ok_iff.mp h
    obtain ⟨A, hA, hv⟩ := bind_eq_ok_iff.mp hv
    cases hv
    exact .describedAutomaton (ofFault_eq_ok.mp hA)
  | expression text =>
    obtain ⟨e, he, hv⟩ := bind_eq_ok_iff.mp h
    cases hv
    exact .expression (ofReadError_eq_ok.mp he)
  | automatonOfText text =>
    obtain ⟨e, he, hv⟩ := bind_eq_ok_iff.mp h
    obtain ⟨A, hA, hv⟩ := bind_eq_ok_iff.mp hv
    rw [Failure.ofChecked_eq_ok, Checked.toAutomaton_eq_ok] at hA
    cases hA
    cases hv
    exact .automatonOfText (ofReadError_eq_ok.mp he)
  | minimalOfText text =>
    obtain ⟨e, he, hv⟩ := bind_eq_ok_iff.mp h
    obtain ⟨A, hA, hv⟩ := bind_eq_ok_iff.mp hv
    obtain ⟨D, hD, hv⟩ := bind_eq_ok_iff.mp hv
    have he := ofReadError_eq_ok.mp he
    have hcovered := Expression.covered_of_parse he
    rw [Failure.ofChecked_eq_ok, Checked.toAutomaton_eq_ok] at hA
    cases hA
    rw [Failure.ofChecked_eq_ok, Checked.minimal_eq_ok hcovered.lettered_toAutomaton.toIntact] at hD
    cases hD
    cases hv
    exact .minimalOfText he
  | tree t =>
    obtain ⟨r, _, hv⟩ := bind_eq_ok_iff.mp h
    cases hv
    exact .tree t r
  | system initial equations =>
    obtain ⟨_, _, hv⟩ := bind_eq_ok_iff.mp h
    cases hv
    exact .system initial equations _
  | language alphabet =>
    cases h
    exact .language alphabet
  | description clauses =>
    cases h
    exact .other rfl rfl rfl nofun
  | describedMemory clauses =>
    obtain ⟨_, _, hv⟩ := bind_eq_ok_iff.mp h
    obtain ⟨_, _, hv⟩ := bind_eq_ok_iff.mp hv
    cases hv
    exact .other rfl rfl rfl nofun
  | pushdown | memory =>
    obtain ⟨_, _, hv⟩ := bind_eq_ok_iff.mp h
    cases hv
    exact .other rfl rfl rfl nofun

/-- What is built has no language yet. -/
theorem link?_build {source : Source} {v : Value} (h : source.build = .ok v) : v.link? = none := by
  cases builds_of_build h with
  | other hlink => exact hlink
  | _ => rfl

end Source

/-! ## What steps keep -/

def Operand.Admits (P : Source → Prop) : Operand → Prop
  | .named _ => True
  | .source s => P s

instance (P : Source → Prop) [DecidablePred P] : DecidablePred fun op : Operand => op.Admits P
  | .named _ => inferInstanceAs (Decidable True)
  | .source s => inferInstanceAs (Decidable (P s))

/-- The sources of a step have `P`, and what it teaches a language has `Q`. -/
def Step.Admits (P : Source → Prop) (Q : Fact → Prop) : Step → Prop
  | .build s _ => P s
  | .make _ v _ => v.Admits P
  | .intersect a b _ => a.Admits P ∧ b.Admits P
  | .pumpLength v => v.Admits P
  | .learn v fact => v.Admits P ∧ Q fact
  | .drop _ => True

instance (P : Source → Prop) (Q : Fact → Prop) [DecidablePred P] [DecidablePred Q] :
    DecidablePred fun step : Step => step.Admits P Q
  | .build s _ => inferInstanceAs (Decidable (P s))
  | .make _ v _ => inferInstanceAs (Decidable (v.Admits P))
  | .intersect a b _ => inferInstanceAs (Decidable (a.Admits P ∧ b.Admits P))
  | .pumpLength v => inferInstanceAs (Decidable (v.Admits P))
  | .learn v fact => inferInstanceAs (Decidable (v.Admits P ∧ Q fact))
  | .drop _ => inferInstanceAs (Decidable True)

namespace Session

/-- A statement on a registry and the values held, after a number of registrations, that each change
keeps. -/
structure Invariant (P : Source → Prop) (Q : Fact → Prop) (I : Nat → Registry → List Value → Prop) :
    Prop where
  perm {n r vs ws} : vs.Perm ws → I n r vs → I n r ws
  drop {n r v vs} : n < 2 ^ 32 → I n r (v :: vs) → I n (releaseOwned r v) vs
  build {n r source v vs} : P source → source.build = .ok v → I n r vs → I n r (v :: vs)
  intersect {n r x y A vs} : .automaton x ∈ vs → .automaton y ∈ vs →
    Checked.intersection x.body y.body = .ok A → I n r vs → I n r (.automaton (.fresh A) :: vs)
  derive {n r v w vs} {m : Maker} {f : Value → Except Failure Value} : m.derivation = some f →
    v ∈ vs → f v = .ok w → I n r vs → I n r (w :: vs)
  attach {n r v vs} : v.isUnlinked = true → I n r (v :: vs) →
    I (n + 1) (v.attach r).1 ((v.attach r).2.1 :: vs)
  enroll {n r v vs} (l : Language) : .language l ∈ vs →
    v = .owner (r.register l).2 ∨ v = .link (.owner (r.register l).2) → I n r vs →
    I (n + 1) (r.register l).1 (v :: vs)
  inform {n r vs} (v : Value) : (∃ id, v = .languageId id) ∨ (∃ M, v = .monoid M) → I n r vs →
    I n r (v :: vs)
  minimal {n r v A id vs} : v.acceptor? = some A → v.id? = some id → v ∈ vs → I n r vs →
    I n (recallMinimal r id A).1 vs ∧ ∀ D, (recallMinimal r id A).2 = .ok D →
      I n (recallMinimal r id A).1 (.automaton ⟨D, some (.shared id)⟩ :: vs)
  pump {n r v A id vs} : v.acceptor? = some A → v.id? = some id → v ∈ vs → I n r vs →
    I n (recallPumpLength r id A).1 vs
  monoid {n r v A id vs} : v.acceptor? = some A → v.id? = some id → v ∈ vs → I n r vs →
    I n (recallMonoid r id A).1 vs
  learn {n r fact vs} (id : LanguageId) : Q fact → I n r vs → I n (r.learn id fact) vs
  teach {n r fact l vs} : Q fact → I n r (.language l :: vs) →
    I n r (.language (l.learn fact) :: vs)

/-- Names stand for one value each, and the statement holds of the values with a name and some
more. -/
structure Holds (I : Nat → Registry → List Value → Prop) (n : Nat) (s : Session)
    (more : List Value) : Prop where
  names : (s.values.map (·.1)).Nodup
  held : I n s.registry (more ++ s.values.map (·.2))

variable {P : Source → Prop} {Q : Fact → Prop} {I : Nat → Registry → List Value → Prop} {n : Nat}
  {s : Session} {v w : Value} {name : String} {op : Operand} {ws : List Value}

/-- The values made, if any. -/
def made : Except Failure Value → List Value
  | .ok v => [v]
  | .error _ => []

/-! ### Names -/

/-- A name is found where its value stands, and no other value has it. -/
theorem exists_split (hnames : (s.values.map (·.1)).Nodup) (h : s.find? name = some v) :
    ∃ before after, s.values = before ++ (name, v) :: after ∧
      (∀ entry ∈ before, entry.1 ≠ name) ∧ ∀ entry ∈ after, entry.1 ≠ name := by
  obtain ⟨before, after, hvalues, hbefore⟩ := List.lookup_eq_some_iff.mp h
  refine ⟨before, after, hvalues, fun entry hentry => ?_, fun entry hentry heq => ?_⟩
  · have hne := hbefore entry hentry
    rintro rfl
    simp at hne
  · rw [hvalues, List.map_append, List.map_cons] at hnames
    have hnot := (List.nodup_cons.mp (List.nodup_append.mp hnames).2.1).1
    exact hnot (List.mem_map.mpr ⟨entry, hentry, heq⟩)

theorem mem_values_of_find? (h : s.find? name = some v) : v ∈ s.values.map (·.2) := by
  obtain ⟨before, after, hvalues, _⟩ := List.lookup_eq_some_iff.mp h
  simp [hvalues]

theorem filter_of_forall_ne {entries : List (String × Value)}
    (h : ∀ entry ∈ entries, entry.1 ≠ name) :
    (entries.filter fun entry => entry.1 != name) = entries :=
  List.filter_eq_self.mpr fun entry hentry => by simpa using h entry hentry

theorem map_of_forall_ne {entries : List (String × Value)} (h : ∀ entry ∈ entries, entry.1 ≠ name) :
    (entries.map fun entry => if entry.1 == name then (name, v) else entry) = entries := by
  refine (List.map_congr_left fun entry hentry => ?_).trans (List.map_id _)
  rw [if_neg (by simpa using h entry hentry), id]

theorem resolve_named : s.resolve (.named name) = .ok v ↔ s.find? name = some v := by
  rw [resolve]
  cases s.find? name <;> simp

theorem intersect_eq_ok {a b : Operand} (h : s.intersect a b = .ok w) :
    ∃ x y A, s.resolve a = .ok (.automaton x) ∧ s.resolve b = .ok (.automaton y) ∧
      Checked.intersection x.body y.body = .ok A ∧ w = .automaton (.fresh A) := by
  obtain ⟨u, hu, h⟩ := bind_eq_ok_iff.mp h
  obtain ⟨v, hv, h⟩ := bind_eq_ok_iff.mp h
  split at h
  · obtain ⟨A, hA, h⟩ := bind_eq_ok_iff.mp h
    cases h
    exact ⟨_, _, A, hu, hv, Failure.ofChecked_eq_ok.mp hA, rfl⟩
  · cases h

/-- Without a value under the name there is none to drop. -/
theorem drop_of_none (h : s.find? name = none) : s.drop name = s := by
  unfold drop
  rw [h]

theorem forall_ne_of_find?_eq_none (h : s.find? name = none) :
    ∀ entry ∈ s.values, entry.1 ≠ name := by
  rintro entry hentry rfl
  have hne := List.lookup_eq_none_iff.mp h entry hentry
  simp at hne

/-- The values of a session whose name `name` stands for `v` are `v` and the others. -/
theorem perm_values {before after : List (String × Value)} :
    (ws ++ (before ++ (name, v) :: after).map (·.2)).Perm
      (v :: (ws ++ (before ++ after).map (·.2))) := by
  simp only [List.map_append, List.map_cons, ← List.append_assoc]
  exact List.perm_middle

namespace Invariant

theorem drop_name (hI : Invariant P Q I) (hn : n < 2 ^ 32) (hs : Holds I n s ws) (name : String) :
    Holds I n (s.drop name) ws ∧ ∀ entry ∈ (s.drop name).values, entry.1 ≠ name := by
  cases hfind : s.find? name with
  | none =>
    rw [drop_of_none hfind]
    exact ⟨hs, forall_ne_of_find?_eq_none hfind⟩
  | some v =>
    obtain ⟨before, after, hvalues, hbefore, hafter⟩ := exists_split hs.names hfind
    have hnames := hs.names
    have hheld := hs.held
    have hdrop : s.drop name = ⟨releaseOwned s.registry v, before ++ after⟩ := by
      simp [Session.drop, hfind, hvalues, filter_of_forall_ne hbefore, filter_of_forall_ne hafter]
    rw [hvalues] at hnames hheld
    rw [hdrop]
    refine ⟨⟨?_, hI.drop hn (hI.perm perm_values hheld)⟩, ?_⟩
    · exact hnames.sublist (((List.sublist_cons_self _ _).append_left _).map _)
    · intro entry hentry
      rcases List.mem_append.mp hentry with hentry | hentry
      · exact hbefore entry hentry
      · exact hafter entry hentry

/-- A value that was made gets its name, or goes if there is none for it. -/
theorem store (hI : Invariant P Q I) (hn : n < 2 ^ 32) (hs : Holds I n s [v]) :
    (target : Option String) → Holds I n (s.store v target) []
  | none => ⟨hs.names, hI.drop hn hs.held⟩
  | some name => by
    obtain ⟨hdrop, hne⟩ := hI.drop_name hn hs name
    refine ⟨List.nodup_cons.mpr ⟨fun hmem => ?_, hdrop.names⟩, hdrop.held⟩
    obtain ⟨entry, hentry, heq⟩ := List.mem_map.mp hmem
    exact hne entry hentry heq

/-- A change made to one value among any others is made to an operand of a session. -/
theorem putBack (hI : Invariant P Q I) {r : Registry} {m : Nat} (hm : m < 2 ^ 32)
    (hs : Holds I n s []) (hop : op.Admits P) (hv : s.resolve op = .ok v)
    (hchange : ∀ vs, I n s.registry (v :: vs) → I m r (ws ++ w :: vs)) :
    Holds I m (s.putBack r w op) ws := by
  cases op with
  | named name =>
    have hfind : s.find? name = some v := resolve_named.mp hv
    obtain ⟨before, after, hvalues, hbefore, hafter⟩ := exists_split hs.names hfind
    have hnames := hs.names
    have hheld := hs.held
    have hput : s.putBack r w (.named name) = ⟨r, before ++ (name, w) :: after⟩ := by
      simp only [Session.putBack, hvalues, List.map_append, List.map_cons, map_of_forall_ne hbefore,
        map_of_forall_ne hafter]
      simp
    rw [hvalues] at hnames hheld
    rw [hput]
    refine ⟨by simpa using hnames, hI.perm ?_ (hchange _ (hI.perm perm_values hheld))⟩
    exact List.perm_middle.trans perm_values.symm
  | source source =>
    have hbuilt := hchange _ (hI.build hop hv hs.held)
    exact ⟨hs.names, hI.drop hm (hI.perm List.perm_middle hbuilt)⟩

/-! ### Operations -/

variable {r : Registry} {vs : List Value}

/-- What is made of operands, a source being built for the step alone. -/
theorem with_operand (hI : Invariant P Q I) (hn : n < 2 ^ 32) (hop : op.Admits P)
    (hv : s.resolve op = .ok v) (h : I n r vs) (hvalues : ∀ u ∈ s.values.map (·.2), u ∈ vs)
    (hmake : ∀ us, v ∈ us → (∀ u ∈ vs, u ∈ us) → I n r us → I n r (w :: us)) : I n r (w :: vs) := by
  cases op with
  | named name =>
    have hfind : s.find? name = some v := resolve_named.mp hv
    exact hmake vs (hvalues v (mem_values_of_find? hfind)) (fun _ hu => hu) h
  | source source =>
    have hmade := hmake (v :: vs) List.mem_cons_self (fun _ hu => List.mem_cons_of_mem v hu)
      (hI.build hop hv h)
    have hdrop := hI.drop hn (hI.perm (.swap ..) hmade)
    rwa [releaseOwned, Value.owned?, Source.link?_build hv] at hdrop

theorem attach_value (hI : Invariant P Q I) (h : I n r (v :: vs)) :
    I (n + if v.isUnlinked then 1 else 0) (v.attach r).1 ((v.attach r).2.1 :: vs) := by
  cases hv : v.isUnlinked with
  | true => exact hI.attach hv h
  | false =>
    obtain ⟨hregistry, hvalue⟩ := Value.attach_of_not_isUnlinked (r := r) hv
    rw [hregistry, hvalue]
    exact h

theorem minimalDfa (hI : Invariant P Q I) (h : I n r (v :: vs)) :
    I (n + if v.registersWhenAsked then 1 else 0) (v.minimalDfa r).1
      (made (v.minimalDfa r).2.2 ++ (v.minimalDfa r).2.1 :: vs) := by
  cases hA : v.acceptor? with
  | none =>
    rw [Value.minimalDfa_of_none hA, Value.registersWhenAsked, hA]
    exact h
  | some A =>
    obtain ⟨id, _, hid⟩ := Value.exists_attach_eq_ok (r := r) hA
    have hattach := hI.attach_value h
    obtain ⟨hkept, hmade⟩ := hI.minimal (by simpa using hA) hid List.mem_cons_self hattach
    rw [Value.minimalDfa_of_acceptor hA hid, Value.registersWhenAsked, hA]
    cases hD : (recallMinimal (v.attach r).1 id A).2 with
    | error b => exact hkept
    | ok D => exact hmade D hD

theorem pumpLength (hI : Invariant P Q I) (h : I n r (v :: vs)) :
    I (n + if v.registersWhenAsked then 1 else 0) (v.pumpLength r).1
      ((v.pumpLength r).2.1 :: vs) := by
  cases hA : v.acceptor? with
  | none =>
    rw [Value.pumpLength_of_none hA, Value.registersWhenAsked, hA]
    exact h
  | some A =>
    obtain ⟨id, _, hid⟩ := Value.exists_attach_eq_ok (r := r) hA
    have hattach := hI.attach_value h
    rw [Value.pumpLength_of_acceptor hA hid, Value.registersWhenAsked, hA]
    exact hI.pump (by simpa using hA) hid List.mem_cons_self hattach

theorem syntacticMonoid (hI : Invariant P Q I) (h : I n r (v :: vs)) :
    I (n + if v.registersWhenAsked then 1 else 0) (v.syntacticMonoid r).1
      (made (v.syntacticMonoid r).2.2 ++ (v.syntacticMonoid r).2.1 :: vs) := by
  cases hA : v.acceptor? with
  | none =>
    rw [Value.syntacticMonoid_of_none hA, Value.registersWhenAsked, hA]
    exact h
  | some A =>
    obtain ⟨id, _, hid⟩ := Value.exists_attach_eq_ok (r := r) hA
    have hattach := hI.attach_value h
    have hmonoid := hI.monoid (by simpa using hA) hid List.mem_cons_self hattach
    rw [Value.syntacticMonoid_of_acceptor hA hid, Value.registersWhenAsked, hA]
    cases hM : (recallMonoid (v.attach r).1 id A).2 with
    | error b => exact hmonoid
    | ok M => exact hI.inform (.monoid M) (.inr ⟨M, rfl⟩) hmonoid

theorem register (hI : Invariant P Q I) (h : I n r (v :: vs)) {owner : LanguageId → Value}
    (howner : ∀ id, owner id = .owner id ∨ owner id = .link (.owner id)) :
    I (n + if v.isLanguage then 1 else 0) (v.register r owner).1
      (made (v.register r owner).2.2 ++ (v.register r owner).2.1 :: vs) := by
  cases v with
  | language l => exact hI.enroll l List.mem_cons_self (howner _) h
  | _ => exact h

/-- What an operation makes joins the values, its operand being changed in place. -/
theorem apply (hI : Invariant P Q I) (h : I n r (v :: vs)) (m : Maker) :
    I (n + if m.registers v then 1 else 0) (v.apply m r).1
      (made (v.apply m r).2.2 ++ (v.apply m r).2.1 :: vs) := by
  cases hm : m.derivation with
  | some f =>
    rw [Value.apply_of_derivation hm, Value.registers_of_derivation hm]
    cases hw : f v with
    | error e => simpa [Value.keeping, made, hw] using h
    | ok w => simpa [Value.keeping, made, hw] using hI.derive hm List.mem_cons_self hw h
  | none =>
    cases m with
    | languageId =>
      have hattach := hI.attach_value h
      show I _ (v.attach r).1 (made (v.attach r).2.2 ++ (v.attach r).2.1 :: vs)
      cases hw : (v.attach r).2.2 with
      | error e => exact hattach
      | ok w =>
        obtain ⟨id, rfl, _⟩ := Value.attach_eq_ok hw
        exact hI.inform (.languageId id) (.inl ⟨id, rfl⟩) hattach
    | minimalDfa => exact hI.minimalDfa h
    | syntacticMonoid => exact hI.syntacticMonoid h
    | register => exact hI.register h fun id => .inl rfl
    | registerLink => exact hI.register h fun id => .inr rfl
    | _ => cases hm

theorem learn_value (hI : Invariant P Q I) {fact : Fact} (hfact : Q fact) (h : I n r (v :: vs)) :
    I n (v.learn r fact).1 ((v.learn r fact).2.1 :: vs) := by
  cases v with
  | language l => exact hI.teach hfact h
  | languageId id | owner id => exact hI.learn id hfact h
  | link l => exact hI.learn l.id hfact h
  | _ => exact h

/-! ### Steps and runs -/

theorem step (hI : Invariant P Q I) (hs : Holds I n s []) {step : Step} (hstep : step.Admits P Q)
    (hn : (n + if s.registers step then 1 else 0) < 2 ^ 32) :
    Holds I (n + if s.registers step then 1 else 0) (s.step step).1 [] := by
  cases step with
  | build source name =>
    show Holds I n (conclude name (s, source.build)).1 []
    cases hv : source.build with
    | error e => exact hs
    | ok v => exact hI.store hn ⟨hs.names, hI.build hstep hv hs.held⟩ name
  | make m op name =>
    cases hv : s.resolve op with
    | error e => simpa [Session.step, applyTo, registers, hv, conclude] using hs
    | ok v =>
      simp only [registers, hv] at hn ⊢
      have hput := hI.putBack hn hs hstep hv fun vs h => hI.apply h m
      simp only [Session.step, applyTo, hv]
      cases hw : (v.apply m s.registry).2.2 with
      | error e =>
        rw [hw] at hput
        exact hput
      | ok w =>
        rw [hw] at hput
        exact hI.store hn hput name
  | intersect a b name =>
    show Holds I n (conclude name (s, s.intersect a b)).1 []
    cases hw : s.intersect a b with
    | error e => exact hs
    | ok w =>
      obtain ⟨x, y, A, hx, hy, hA, rfl⟩ := intersect_eq_ok hw
      refine hI.store hn ⟨hs.names, ?_⟩ name
      refine hI.with_operand hn hstep.1 hx hs.held (fun _ hu => hu) fun us hxs hus h => ?_
      refine hI.with_operand hn hstep.2 hy h hus fun us' hys hus' h => ?_
      exact hI.intersect (hus' _ hxs) hys hA h
  | pumpLength op =>
    cases hv : s.resolve op with
    | error e => simpa [Session.step, applyTo, registers, hv] using hs
    | ok v =>
      simp only [registers, hv] at hn ⊢
      simp only [Session.step, applyTo, hv]
      exact hI.putBack hn hs hstep hv fun vs h => hI.pumpLength h
  | learn op fact =>
    cases hv : s.resolve op with
    | error e => simpa [Session.step, applyTo, registers, hv] using hs
    | ok v =>
      simp only [Session.step, applyTo, hv]
      exact hI.putBack hn hs hstep.1 hv fun vs h => hI.learn_value hstep.2 h
  | drop name => exact (hI.drop_name hn hs name).1

theorem run (hI : Invariant P Q I) (steps : List Step) (hs : Holds I n s [])
    (hsteps : ∀ step ∈ steps, step.Admits P Q) (hn : n + s.registrations steps < 2 ^ 32) :
    Holds I (n + s.registrations steps) (s.run steps) [] := by
  induction steps generalizing n s with
  | nil => exact hs
  | cons step steps ih =>
    simp only [registrations, ← Nat.add_assoc] at hn ⊢
    refine ih (hI.step hs (hsteps _ List.mem_cons_self) (by omega)) ?_ hn
    exact fun step hstep => hsteps step (List.mem_cons_of_mem _ hstep)

/-- A statement that does not count registrations is kept however many there are. -/
theorem run_uncounted {J : Registry → List Value → Prop} (hI : Invariant P Q fun _ => J)
    (steps : List Step)
    (hs : Holds (fun _ => J) 0 s []) (hsteps : ∀ step ∈ steps, step.Admits P Q) :
    Holds (fun _ => J) 0 (s.run steps) [] := by
  induction steps generalizing s with
  | nil => exact hs
  | cons step steps ih =>
    have hstep := hI.step hs (hsteps _ List.mem_cons_self) (by split <;> decide)
    exact ih ⟨hstep.names, hstep.held⟩ fun step hstep => hsteps step (List.mem_cons_of_mem _ hstep)

end Invariant

end Session

end Acceptors
