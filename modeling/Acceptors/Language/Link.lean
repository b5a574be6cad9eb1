import Acceptors.Checked
import Acceptors.Language.Registry

/-!
Representations of a language and their links to its registry entry. The representation that
attaches a language owns it; what is derived from a representation, or copied, shares its language
and owns nothing. Facts that are costly to compute are computed once for a language, from whichever
representation asks first.
-/

namespace Acceptors

inductive Link where
  | owner (id : LanguageId)
  | shared (id : LanguageId)
  deriving DecidableEq

namespace Link

def id : Link → LanguageId
  | owner id => id
  | shared id => id

def isOwner : Link → Bool
  | owner _ => true
  | shared _ => false

def share (l : Link) : Link := shared l.id

end Link

structure Linked (α : Type) where
  body : α
  link : Option Link
  deriving DecidableEq

namespace Linked

variable {α β : Type}

def fresh (body : α) : Linked α := ⟨body, none⟩

/-- Another body of the same language. -/
def derive (x : Linked α) (body : β) : Linked β := ⟨body, x.link.map Link.share⟩

/-- Registers a language for a representation that has none yet. -/
def attach (r : Registry) (x : Linked α) (alphabet : Alphabet) :
    Registry × Linked α × LanguageId :=
  match x.link with
  | some link => (r, x, link.id)
  | none =>
    let (r, id) := r.register (.ofAlphabet alphabet)
    (r, { x with link := some (.owner id) }, id)

end Linked

/-- A step that may register languages or store facts, and may link a representation. -/
abbrev Recorded (α β : Type) := Registry × Linked α × β

namespace Automaton

/-- Records what was computed under an id, unless that was a breach. -/
def record {α : Type} (id : LanguageId) (fact : α → Fact) :
    Registry × Checked α → Registry × Checked α
  | (r, .ok a) => (r.learn id (fact a), .ok a)
  | (r, .error breach) => (r, .error breach)

/-- The minimal automaton recorded under an id; if none is, it is computed and recorded. -/
def recallMinimal (r : Registry) (id : LanguageId) (A : FiniteAutomaton) :
    Registry × Checked FiniteAutomaton :=
  match (r.find? id).bind (·.minimalDfa) with
  | some M => (r, Checked.fromParts M.parts)
  | none => record id .minimalDfa (r, Checked.minimal A)

def recallPumpLength (r : Registry) (id : LanguageId) (A : FiniteAutomaton) :
    Registry × Checked Nat :=
  match (r.find? id).bind (·.pumpLength) with
  | some n => (r, .ok n)
  | none =>
    let (r, M) := recallMinimal r id A
    record id .pumpLength (r, M.map size)

/-- The monoid recorded under an id, or that of the minimal automaton. -/
def recallMonoid (r : Registry) (id : LanguageId) (A : FiniteAutomaton) :
    Registry × Checked TransformationMonoid :=
  match (r.find? id).bind (·.syntacticMonoid) with
  | some M => (r, .ok M)
  | none =>
    let (r, M) := recallMinimal r id A
    record id .syntacticMonoid (r, M.bind Checked.monoid)

end Automaton

/-- A representation that facts can be computed from: its automaton and its alphabet. -/
class Representation (α : Type) where
  automaton : α → Checked FiniteAutomaton
  alphabet : α → Alphabet

instance : Representation FiniteAutomaton := ⟨.ok, fun A => A.alphabet⟩

instance : Representation Expression := ⟨Checked.toAutomaton, Expression.alphabet⟩

namespace Linked

variable {α β : Type} [Representation α]

def languageId (r : Registry) (x : Linked α) : Recorded α LanguageId :=
  x.attach r (Representation.alphabet x.body)

/-- Recalls a fact under the id of a representation, which gets one if it has none. -/
def ask (question : Registry → LanguageId → FiniteAutomaton → Registry × Checked β) (r : Registry)
    (x : Linked α) : Recorded α (Checked β) :=
  let (r, x, id) := x.languageId r
  match Representation.automaton x.body with
  | .ok A =>
    let (r, answer) := question r id A
    (r, x, answer)
  | .error breach => (r, x, .error breach)

def minimalDfa (r : Registry) (x : Linked α) : Recorded α (Checked (Linked FiniteAutomaton)) :=
  x.ask (fun r id A =>
    let (r, M) := Automaton.recallMinimal r id A
    (r, M.map fun M => ⟨M, some (.shared id)⟩)) r

def pumpLength (r : Registry) (x : Linked α) : Recorded α (Checked Nat) :=
  x.ask Automaton.recallPumpLength r

def syntacticMonoid (r : Registry) (x : Linked α) : Recorded α (Checked TransformationMonoid) :=
  x.ask Automaton.recallMonoid r

end Linked

end Acceptors
