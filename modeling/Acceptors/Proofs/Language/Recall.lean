import Acceptors.Language.Link
import Acceptors.Proofs.Checked

/-!
Facts that are not stored yet. Where no fact is known under the id of a value, or the value has no
id, recalling a fact computes it from the value alone (`Linked.pumpLength_of_unknown`,
`Linked.syntacticMonoid_of_unknown`).
-/

namespace Acceptors

namespace Registry

/-- Of the language under the id, if there is one, nothing but the alphabet is known. -/
def Unknown (r : Registry) (id : LanguageId) : Prop :=
  ∀ l, r.find? id = some l → ∀ topic : Topic, l.knows topic = true → topic = .alphabet

variable {r : Registry} {id : LanguageId}

/-- A look-up of what a topic tells about finds nothing. -/
theorem Unknown.bind_eq_none {β : Type} {fact : Language → Option β} (h : r.Unknown id)
    (topic : Topic) (hne : topic ≠ .alphabet) (hfact : ∀ l, (fact l).isSome = l.knows topic) :
    (r.find? id).bind fact = none := by
  cases hl : r.find? id with
  | none => rfl
  | some l =>
    have hnot : (fact l).isSome ≠ true := fun hsome => hne (h l hl topic (hfact l ▸ hsome))
    simpa using hnot

theorem Unknown.minimalDfa (h : r.Unknown id) : (r.find? id).bind (·.minimalDfa) = none :=
  h.bind_eq_none .minimalDfa nofun fun l => by simp [Language.knows, Language.«recall»]

theorem Unknown.pumpLength (h : r.Unknown id) : (r.find? id).bind (·.pumpLength) = none :=
  h.bind_eq_none .pumpLength nofun fun l => by simp [Language.knows, Language.«recall»]

theorem Unknown.syntacticMonoid (h : r.Unknown id) :
    (r.find? id).bind (·.syntacticMonoid) = none :=
  h.bind_eq_none .syntacticMonoid nofun fun l => by
    simp [Language.knows, Language.«recall»]

/-- Whatever slot it takes, the new id finds the new language, or nothing. -/
theorem find?_register_self (r : Registry) (l : Language) :
    (r.register l).1.find? (r.register l).2 = some l ∨
    (r.register l).1.find? (r.register l).2 = none := by
  cases hfree : r.free with
  | nil => simp [register, hfree, find?]
  | cons slot free =>
    by_cases hslot : slot < r.slots.length <;> simp [register, hfree, find?, hslot]

theorem unknown_register (r : Registry) (alphabet : Alphabet) :
    (r.register (.ofAlphabet alphabet)).1.Unknown (r.register (.ofAlphabet alphabet)).2 := by
  intro l hl topic hknows
  rcases find?_register_self r (.ofAlphabet alphabet) with hfind | hfind
  · rw [hfind] at hl
    cases hl
    cases topic with
    | alphabet => rfl
    | _ => cases hknows
  · rw [hfind] at hl
    cases hl

end Registry

namespace Automaton

variable {r : Registry} {id : LanguageId} {A : FiniteAutomaton}

@[simp] theorem record_snd {α : Type} {fact : α → Fact} (answer : Registry × Checked α) :
    (record id fact answer).2 = answer.2 := by
  obtain ⟨r, a | a⟩ := answer <;> rfl

theorem recallMinimal_of_unknown (hA : A.Intact) (h : r.Unknown id) :
    (recallMinimal r id A).2 = .ok A.determinize.minimize := by
  rw [recallMinimal, h.minimalDfa, ← Checked.minimal_eq_ok hA]
  exact record_snd _

theorem recallPumpLength_of_unknown (hA : A.Intact) (h : r.Unknown id) :
    (recallPumpLength r id A).2 = .ok A.determinize.minimize.size := by
  rw [recallPumpLength, h.pumpLength]
  exact (record_snd _).trans (congrArg (Except.map size) (recallMinimal_of_unknown hA h))

theorem recallMonoid_of_unknown (hA : A.Intact) (h : r.Unknown id) :
    (recallMonoid r id A).2 = .ok (.ofAutomaton A.determinize.minimize) := by
  have hdet :=
    isDeterministic_minimize hA.toLabelled.determinize (deterministic_determinize hA.wellFormed)
  rw [recallMonoid, h.syntacticMonoid, ← Checked.monoid_eq_ok hA.minimal hdet]
  exact (record_snd _).trans
    (congrArg (Except.bind · Checked.monoid) (recallMinimal_of_unknown hA h))

end Automaton

namespace Linked

variable {α : Type}

/-- The value has no id, or nothing but the alphabet is known under it. -/
def Unknown (r : Registry) (x : Linked α) : Prop := ∀ link, x.link = some link → r.Unknown link.id

variable {r : Registry} {x : Linked α}

theorem unknown_fresh (r : Registry) (body : α) : (fresh body).Unknown r := nofun

theorem body_attach (r : Registry) (x : Linked α) (alphabet : Alphabet) :
    (x.attach r alphabet).2.1.body = x.body := by
  unfold attach
  split <;> rfl

theorem Unknown.attach (h : x.Unknown r) (alphabet : Alphabet) :
    (x.attach r alphabet).1.Unknown (x.attach r alphabet).2.2 := by
  unfold Linked.attach
  split
  · rename_i link hlink
    exact h link hlink
  · exact Registry.unknown_register r alphabet

variable [Representation α]

variable {β : Type} (question : Registry → LanguageId → FiniteAutomaton → Registry × Checked β)
  {A : FiniteAutomaton}

/-- Where a value has an automaton, a fact is recalled under the id of the value. -/
theorem ask_eq (hA : Representation.automaton x.body = .ok A) :
    x.ask question r =
      ((question (x.languageId r).1 (x.languageId r).2.2 A).1, (x.languageId r).2.1,
        (question (x.languageId r).1 (x.languageId r).2.2 A).2) := by
  have hbody : Representation.automaton (x.languageId r).2.1.body = .ok A := by
    rw [languageId, body_attach, hA]
  rw [ask]
  simp only [hbody]

theorem pumpLength_of_unknown (hA : Representation.automaton x.body = .ok A) (hintact : A.Intact)
    (h : x.Unknown r) : (x.pumpLength r).2.2 = .ok A.determinize.minimize.size := by
  rw [pumpLength, ask_eq _ hA]
  exact Automaton.recallPumpLength_of_unknown hintact (h.attach _)

theorem syntacticMonoid_of_unknown (hA : Representation.automaton x.body = .ok A)
    (hintact : A.Intact)
    (h : x.Unknown r) : (x.syntacticMonoid r).2.2 = .ok (.ofAutomaton A.determinize.minimize) := by
  rw [syntacticMonoid, ask_eq _ hA]
  exact Automaton.recallMonoid_of_unknown hintact (h.attach _)

end Linked

end Acceptors
