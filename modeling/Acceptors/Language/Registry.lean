import Acceptors.Fault
import Acceptors.Monoid

/-!
What is known of a language: its alphabet, and facts that are stored once and then stay.

The registry of languages. An entry lives in a slot; a released slot is used again, last released
first, under the next generation, so that an id of a released language finds nothing.
-/

namespace Acceptors

/-! ## Languages -/

structure Language where
  alphabet : Alphabet
  pumpLength : Option Nat
  minimalDfa : Option FiniteAutomaton
  syntacticMonoid : Option TransformationMonoid
  /-- A lower bound on the size of any automaton of the language. -/
  nfaMinimumSize : Option Nat
  oneUnambiguous : Option Bool
  oneUnambiguousRegex : Option String
  deriving DecidableEq

/-- A fact with its value. -/
inductive Fact where
  | alphabet (symbols : Alphabet)
  | pumpLength (length : Nat)
  | minimalDfa (A : FiniteAutomaton)
  | syntacticMonoid (M : TransformationMonoid)
  | nfaMinimumSize (size : Nat)
  | oneUnambiguous (flag : Bool)
  | oneUnambiguousRegex (text : String)
  deriving DecidableEq

namespace Language

def ofAlphabet (alphabet : Alphabet) : Language := ⟨alphabet, none, none, none, none, none, none⟩

/-- Stores a fact unless one on the topic is stored. The alphabet alone is replaced. -/
def learn (l : Language) : Fact → Language
  | .alphabet symbols => { l with alphabet := symbols }
  | .pumpLength n => { l with pumpLength := l.pumpLength.or (some n) }
  | .minimalDfa A => { l with minimalDfa := l.minimalDfa.or (some A) }
  | .syntacticMonoid M => { l with syntacticMonoid := l.syntacticMonoid.or (some M) }
  | .nfaMinimumSize n => { l with nfaMinimumSize := l.nfaMinimumSize.or (some n) }
  | .oneUnambiguous b => { l with oneUnambiguous := l.oneUnambiguous.or (some b) }
  | .oneUnambiguousRegex t => { l with oneUnambiguousRegex := l.oneUnambiguousRegex.or (some t) }

def «recall» (l : Language) : Topic → Option Fact
  | .alphabet => some (.alphabet l.alphabet)
  | .pumpLength => l.pumpLength.map .pumpLength
  | .minimalDfa => l.minimalDfa.map .minimalDfa
  | .syntacticMonoid => l.syntacticMonoid.map .syntacticMonoid
  | .nfaMinimumSize => l.nfaMinimumSize.map .nfaMinimumSize
  | .oneUnambiguous => l.oneUnambiguous.map .oneUnambiguous
  | .oneUnambiguousRegex => l.oneUnambiguousRegex.map .oneUnambiguousRegex

def knows (l : Language) (t : Topic) : Bool := (l.«recall» t).isSome

end Language

/-! ## The registry -/

structure LanguageId where
  slot : Nat
  generation : UInt32
  deriving DecidableEq

namespace Registry

structure Slot where
  generation : UInt32
  language : Option Language
  deriving DecidableEq

end Registry

structure Registry where
  slots : List Registry.Slot
  /-- The slots without a language, the next to be used first. -/
  free : List Nat
  deriving DecidableEq

namespace Registry

def empty : Registry := ⟨[], []⟩

def generationAt (r : Registry) (slot : Nat) : UInt32 :=
  match r.slots[slot]? with
  | some s => s.generation
  | none => 0

def register (r : Registry) (l : Language) : Registry × LanguageId :=
  match r.free with
  | [] => ({ r with slots := r.slots ++ [⟨0, some l⟩] }, ⟨r.slots.length, 0⟩)
  | slot :: free =>
    let generation := r.generationAt slot
    (⟨r.slots.set slot ⟨generation, some l⟩, free⟩, ⟨slot, generation⟩)

def find? (r : Registry) (id : LanguageId) : Option Language :=
  match r.slots[id.slot]? with
  | some s => if s.generation = id.generation then s.language else none
  | none => none

def isAlive (r : Registry) (id : LanguageId) : Bool := (r.find? id).isSome

/-- Changes the language of an id; an id of a released language changes nothing. -/
def modify (r : Registry) (id : LanguageId) (f : Language → Language) : Registry :=
  match r.find? id with
  | some l => { r with slots := r.slots.set id.slot ⟨id.generation, some (f l)⟩ }
  | none => r

def learn (r : Registry) (id : LanguageId) (fact : Fact) : Registry :=
  r.modify id fun l => l.learn fact

def release (r : Registry) (id : LanguageId) : Registry :=
  match r.find? id with
  | some _ => ⟨r.slots.set id.slot ⟨id.generation + 1, none⟩, id.slot :: r.free⟩
  | none => r

/-- The number of languages registered and not released. -/
def live (r : Registry) : Nat := (r.slots.filter fun s => s.language.isSome).length

end Registry

end Acceptors
