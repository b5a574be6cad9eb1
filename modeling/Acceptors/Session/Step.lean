import Acceptors.Automaton.Quotient
import Acceptors.Automaton.Graph
import Acceptors.Session.Value

/-!
Sessions: named values and the registry of their languages. A value is dropped when its name is
given to another, or with the step that made it if it is given no name; a language is released with
the value that owns it. A step that fails stores nothing, but languages attached and facts recorded
before the failure stay.
-/

namespace Acceptors

structure Session where
  registry : Registry
  values : List (String × Value)
  deriving DecidableEq

inductive Operand where
  | named (name : String)
  | source (s : Source)

/-- Operations on one value that make another. -/
inductive Maker where
  | clone
  | withoutEpsilon
  | determinize
  | minimize
  | complete
  | complement
  | canonical
  | mergeBisimilar
  | minimalDfa
  | toAutomaton
  | toExpression
  | equations
  | solve
  | syntacticMonoid
  | transformationMonoid
  | assembleFinite
  | assembleMemory
  | languageId
  | register
  | registerLink
  | share
  deriving DecidableEq, Repr

/-- The steps that change a session. -/
inductive Step where
  | build (s : Source) (name : Option String)
  | make (m : Maker) (v : Operand) (name : Option String)
  | intersect (a b : Operand) (name : Option String)
  | pumpLength (v : Operand)
  | learn (v : Operand) (fact : Fact)
  | drop (name : String)

inductive Reply where
  | made (v : Value)
  | count (n : Nat)
  | flag (b : Bool)
  deriving DecidableEq

namespace Session

def start : Session := ⟨.empty, []⟩

def find? (s : Session) (name : String) : Option Value := s.values.lookup name

def resolve (s : Session) : Operand → Except Failure Value
  | .named name =>
    match s.find? name with
    | some v => .ok v
    | none => .error (.noSuchVariable name)
  | .source source => source.build

/-- Releases the language that a value owns. -/
def releaseOwned (r : Registry) (v : Value) : Registry :=
  match v.owned? with
  | some id => r.release id
  | none => r

/-- Removes a name and its value. -/
def drop (s : Session) (name : String) : Session :=
  match s.find? name with
  | some v => ⟨releaseOwned s.registry v, s.values.filter fun entry => entry.1 != name⟩
  | none => s

/-- Gives a value its name, or drops it if it gets none. -/
def store (s : Session) (v : Value) : Option String → Session
  | some name =>
    let s := s.drop name
    { s with values := (name, v) :: s.values }
  | none => { s with registry := releaseOwned s.registry v }

/-- Puts a value changed by a step back under its name; a value without a name is dropped. -/
def putBack (s : Session) (registry : Registry) (v : Value) : Operand → Session
  | .named name =>
    ⟨registry, s.values.map fun entry => if entry.1 == name then (name, v) else entry⟩
  | .source _ => { s with registry := releaseOwned registry v }

end Session

/-- The registry after an operation, the value it was applied to, and what it gave. -/
abbrev Applied (α : Type) := Registry × Value × Except Failure α

namespace Value

/-- An operation that changes neither the registry nor the value. -/
def keeping {α : Type} (r : Registry) (v : Value) (result : Except Failure α) : Applied α :=
  (r, v, result)

/-- A value derived from an automaton, of the same language. -/
def deriveAutomaton (v : Value) (f : FiniteAutomaton → Checked FiniteAutomaton) :
    Except Failure Value :=
  match v with
  | automaton x => do
    let A ← Failure.ofChecked (f x.body)
    return .automaton (x.derive A)
  | _ => .error .inapplicable

def clone : Value → Except Failure Value
  | automaton x => .ok (.automaton (x.derive x.body))
  | expression x => .ok (.expression (x.derive x.body))
  | pushdown x => .ok (.pushdown (x.derive x.body))
  | memory x => .ok (.memory (x.derive x.body))
  | link l => .ok (.link l.share)
  | language l => .ok (.language l)
  | _ => .error .inapplicable

/-- The complement is another language, so it has no link. -/
def complement : Value → Except Failure Value
  | automaton x => do
    let A ← Failure.ofChecked (Checked.complement x.body)
    return .automaton (.fresh A)
  | _ => .error .inapplicable

def toAutomaton : Value → Except Failure Value
  | expression x => do
    let A ← Failure.ofChecked (Checked.toAutomaton x.body)
    return .automaton (x.derive A)
  | _ => .error .inapplicable

def toExpression : Value → Except Failure Value
  | automaton x => do
    let e ← Failure.ofChecked (Checked.toExpression x.body)
    return .expression (x.derive e)
  | _ => .error .inapplicable

def equations : Value → Except Failure Value
  | automaton x => do
    let S ← Failure.ofChecked (Checked.equations x.body)
    return .system S
  | _ => .error .inapplicable

def solve : Value → Except Failure Value
  | system S => .ok (.expression (.fresh (.ofRegex S.solve)))
  | _ => .error .inapplicable

def transformationMonoid : Value → Except Failure Value
  | automaton x => do
    let M ← Failure.ofChecked (Checked.monoid x.body)
    return .monoid M
  | _ => .error .inapplicable

def assembleFinite : Value → Except Failure Value
  | description d _ => do
    let A ← Source.ofFault false .invalidAutomaton d.toFinite
    return .automaton (.fresh A)
  | _ => .error .inapplicable

def assembleMemory : Value → Except Failure Value
  | description d _ => do
    let M ← Source.ofFault false .invalidMemory d.toMemory
    return .memory (.fresh M)
  | _ => .error .inapplicable

def share : Value → Except Failure Value
  | link l => .ok (.link l.share)
  | _ => .error .inapplicable

def minimalDfa (r : Registry) : Value → Applied Value
  | automaton x =>
    let (r, x, D) := x.minimalDfa r
    (r, .automaton x, (Failure.ofChecked D).map .automaton)
  | expression x =>
    let (r, x, D) := x.minimalDfa r
    (r, .expression x, (Failure.ofChecked D).map .automaton)
  | v => keeping r v (.error .inapplicable)

def syntacticMonoid (r : Registry) : Value → Applied Value
  | automaton x =>
    let (r, x, M) := x.syntacticMonoid r
    (r, .automaton x, (Failure.ofChecked M).map .monoid)
  | expression x =>
    let (r, x, M) := x.syntacticMonoid r
    (r, .expression x, (Failure.ofChecked M).map .monoid)
  | v => keeping r v (.error .inapplicable)

def pumpLength (r : Registry) : Value → Applied Nat
  | automaton x =>
    let (r, x, n) := x.pumpLength r
    (r, .automaton x, Failure.ofChecked n)
  | expression x =>
    let (r, x, n) := x.pumpLength r
    (r, .expression x, Failure.ofChecked n)
  | v => keeping r v (.error .inapplicable)

def attach (r : Registry) : Value → Applied Value
  | automaton x =>
    let (r, x, id) := x.languageId r
    (r, .automaton x, .ok (.languageId id))
  | expression x =>
    let (r, x, id) := x.languageId r
    (r, .expression x, .ok (.languageId id))
  | pushdown x =>
    let (r, x, id) := x.attach r x.body.alphabet
    (r, .pushdown x, .ok (.languageId id))
  | memory x =>
    let (r, x, id) := x.attach r x.body.alphabet
    (r, .memory x, .ok (.languageId id))
  | v => keeping r v (.error .inapplicable)

def register (r : Registry) (owner : LanguageId → Value) : Value → Applied Value
  | language l =>
    let (r, id) := r.register l
    (r, .language l, .ok (owner id))
  | v => keeping r v (.error .inapplicable)

def apply (m : Maker) (r : Registry) (v : Value) : Applied Value :=
  match m with
  | .clone => keeping r v v.clone
  | .withoutEpsilon => keeping r v (v.deriveAutomaton Checked.withoutEpsilon)
  | .determinize => keeping r v (v.deriveAutomaton Checked.determinize)
  | .minimize => keeping r v (v.deriveAutomaton Checked.minimize)
  | .complete => keeping r v (v.deriveAutomaton Checked.complete)
  | .complement => keeping r v v.complement
  | .canonical => keeping r v (v.deriveAutomaton Checked.canonical)
  | .mergeBisimilar => keeping r v (v.deriveAutomaton Checked.mergeBisimilar)
  | .minimalDfa => v.minimalDfa r
  | .toAutomaton => keeping r v v.toAutomaton
  | .toExpression => keeping r v v.toExpression
  | .equations => keeping r v v.equations
  | .solve => keeping r v v.solve
  | .syntacticMonoid => v.syntacticMonoid r
  | .transformationMonoid => keeping r v v.transformationMonoid
  | .assembleFinite => keeping r v v.assembleFinite
  | .assembleMemory => keeping r v v.assembleMemory
  | .languageId => v.attach r
  | .register => v.register r .owner
  | .registerLink => v.register r fun id => .link (.owner id)
  | .share => keeping r v v.share

/-- What a language handle stands for learns a fact; `false` if its language was released. -/
def learn (r : Registry) (v : Value) (fact : Fact) : Applied Bool :=
  match v with
  | language l => (r, .language (l.learn fact), .ok true)
  | v =>
    match v.handle? with
    | some id => (r.learn id fact, v, .ok (r.isAlive id))
    | none => keeping r v (.error .inapplicable)

end Value

namespace Session

/-- Applies an operation to an operand. -/
def applyTo {α : Type} (s : Session) (v : Operand) (f : Registry → Value → Applied α) :
    Session × Except Failure α :=
  match s.resolve v with
  | .error e => (s, .error e)
  | .ok value =>
    let (registry, value, result) := f s.registry value
    (s.putBack registry value v, result)

/-- Stores what a step made and tells it. -/
def conclude (name : Option String) : Session × Except Failure Value →
    Session × Except Failure Reply
  | (s, .ok v) => (s.store v name, .ok (.made v))
  | (s, .error e) => (s, .error e)

def intersect (s : Session) (a b : Operand) : Except Failure Value := do
  let x ← s.resolve a
  let y ← s.resolve b
  match x, y with
  | .automaton x, .automaton y =>
    let A ← Failure.ofChecked (Checked.intersection x.body y.body)
    return .automaton (.fresh A)
  | _, _ => .error .inapplicable

def step (s : Session) : Step → Session × Except Failure Reply
  | .build source name => conclude name (s, source.build)
  | .make m v name => conclude name (s.applyTo v (Value.apply m))
  | .intersect a b name => conclude name (s, s.intersect a b)
  | .pumpLength v =>
    let (s, result) := s.applyTo v Value.pumpLength
    (s, result.map .count)
  | .learn v fact =>
    let (s, result) := s.applyTo v fun r value => value.learn r fact
    (s, result.map .flag)
  | .drop name => (s.drop name, .ok (.flag (s.find? name).isSome))

end Session

end Acceptors
