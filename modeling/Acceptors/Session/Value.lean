import Acceptors.Description
import Acceptors.Language.Link
import Acceptors.Pushdown.Search

/-!
The values of a session, the sources they are built from, and why a step may fail.
-/

namespace Acceptors

inductive Failure where
  | fault (f : Fault)
  | unreadable (e : Regex.ReadError)
  | breach (b : Breach)
  | noSuchVariable (name : String)
  /-- The operation does not apply to a value of this kind. -/
  | inapplicable
  deriving DecidableEq

inductive Value where
  | automaton (x : Linked FiniteAutomaton)
  | expression (x : Linked Expression)
  | pushdown (x : Linked PushdownAutomaton)
  | memory (x : Linked MemoryAutomaton)
  | description (d : Description) (faults : List Fault)
  | system (S : EquationSystem)
  | monoid (M : TransformationMonoid)
  | language (l : Language)
  | languageId (id : LanguageId)
  | owner (id : LanguageId)
  | link (l : Link)
  deriving DecidableEq

/-- A breach of what an operation relies on is a failure. -/
def Failure.ofChecked {α : Type} : Checked α → Except Failure α
  | .ok a => .ok a
  | .error b => .error (.breach b)

namespace Value

def link? : Value → Option Link
  | automaton x => x.link
  | expression x => x.link
  | pushdown x => x.link
  | memory x => x.link
  | owner id => some (.owner id)
  | link l => some l
  | _ => none

/-- The language that is released with the value. -/
def owned? (v : Value) : Option LanguageId :=
  match v.link? with
  | some (.owner id) => some id
  | _ => none

/-- The language that an id, an owner or a link stands for. -/
def handle? : Value → Option LanguageId
  | languageId id => some id
  | owner id => some id
  | link l => some l.id
  | _ => none

end Value

/-- A tree as it is to be built: a node is taken as it is, or made by its simplifying
constructor. -/
inductive Sketch where
  | empty
  | epsilon
  | literal (made : Bool) (name : String)
  | concat (made : Bool) (parts : List Sketch)
  | union (made : Bool) (parts : List Sketch)
  | star (made : Bool) (body : Sketch)

namespace Sketch

mutual

/-- Parts first, from left to right; a literal without a name cannot be made. -/
def build : Sketch → Except Failure Regex
  | empty => .ok .empty
  | epsilon => .ok .epsilon
  | literal made name =>
    if made && name == "" then .error (.breach .namelessLiteral) else .ok (.literal name)
  | concat made parts =>
    match buildParts parts with
    | .ok rs => .ok (if made then Regex.product rs else .concat rs)
    | .error e => .error e
  | union made parts =>
    match buildParts parts with
    | .ok rs => .ok (if made then Regex.sum rs else .union rs)
    | .error e => .error e
  | star made body =>
    match build body with
    | .ok r => .ok (if made then Regex.iterate r else .star r)
    | .error e => .error e

def buildParts : List Sketch → Except Failure (List Regex)
  | [] => .ok []
  | p :: rest =>
    match build p with
    | .error e => .error e
    | .ok r =>
      match buildParts rest with
      | .ok rs => .ok (r :: rs)
      | .error e => .error e

end

end Sketch

structure SketchedEquation where
  unknown : Nat
  terms : List (Nat × Sketch)
  constant : Sketch

/-- What a fresh value is built from. A strict source is one whose faults are breaches. -/
inductive Source where
  | automaton (strict : Bool) (p : Parts Nat)
  | pushdown (strict : Bool) (p : Parts StackMove)
  | memory (strict : Bool) (p : Parts MemoryMove)
  | description (clauses : List Description.Clause)
  | describedAutomaton (clauses : List Description.Clause)
  | describedMemory (clauses : List Description.Clause)
  | expression (text : String)
  | tree (t : Sketch)
  | automatonOfText (text : String)
  | minimalOfText (text : String)
  | system (initial : Nat) (equations : List SketchedEquation)
  | language (alphabet : Alphabet)

namespace Source

def ofFault {α : Type} (strict : Bool) (breach : Fault → Breach) :
    Except Fault α → Except Failure α
  | .ok a => .ok a
  | .error f => .error (if strict then .breach (breach f) else .fault f)

def ofReadError {α : Type} : Except Regex.ReadError α → Except Failure α
  | .ok a => .ok a
  | .error e => .error (.unreadable e)

/-- The description of some clauses, unless one of them was refused. -/
def describe (clauses : List Description.Clause) : Except Failure Description :=
  match Description.ofClauses clauses with
  | (d, []) => .ok d
  | (_, f :: _) => .error (.fault f)

def buildTerms (terms : List (Nat × Sketch)) : Except Failure (SortedMap Nat Regex) := do
  let built ← terms.mapM fun (x, t) => do return (x, ← t.build)
  return SortedMap.ofList built

def buildEquation (e : SketchedEquation) : Except Failure (Nat × Equation) := do
  let terms ← buildTerms e.terms
  let constant ← e.constant.build
  return (e.unknown, ⟨terms, constant⟩)

def build : Source → Except Failure Value
  | automaton strict p => do
    let A ← ofFault strict .invalidAutomaton p.assembleFinite
    return .automaton (.fresh A)
  | pushdown strict p => do
    let P ← ofFault strict .invalidPushdown p.assemble
    return .pushdown (.fresh P)
  | memory strict p => do
    let M ← ofFault strict .invalidMemory p.assemble
    return .memory (.fresh M)
  | description clauses =>
    let (d, faults) := Description.ofClauses clauses
    .ok (.description d faults)
  | describedAutomaton clauses => do
    let d ← describe clauses
    let A ← ofFault false .invalidAutomaton d.toFinite
    return .automaton (.fresh A)
  | describedMemory clauses => do
    let d ← describe clauses
    let M ← ofFault false .invalidMemory d.toMemory
    return .memory (.fresh M)
  | expression text => do
    let e ← ofReadError (Expression.parse text)
    return .expression (.fresh e)
  | tree t => do
    let r ← t.build
    return .expression (.fresh (.ofRegex r))
  | automatonOfText text => do
    let e ← ofReadError (Expression.parse text)
    let A ← Failure.ofChecked (Checked.toAutomaton e)
    return .automaton (.fresh A)
  | minimalOfText text => do
    let e ← ofReadError (Expression.parse text)
    let A ← Failure.ofChecked (Checked.toAutomaton e)
    let D ← Failure.ofChecked (Checked.minimal A)
    return .automaton (.fresh D)
  | system initial equations => do
    let built ← equations.mapM buildEquation
    return .system ⟨initial, SortedMap.ofList built⟩
  | language alphabet => .ok (.language (.ofAlphabet alphabet))

end Source

end Acceptors
