/-!
What can be wrong, and how it is told: a fault of the parts that an automaton is assembled from, and
a breach of what an operation relies on.
-/

namespace Acceptors

/-- What can be wrong with the parts of an automaton. -/
inductive Fault where
  | indexMismatch (position index : Nat)
  | danglingTransition (source target : Nat)
  | initialOutOfRange (initial states : Nat)
  | epsilonInAlphabet
  | secondInitial (name : String)
  | memoryTransition (source target : String)
  | emptyName
  deriving DecidableEq, Repr

def Fault.message : Fault → String
  | indexMismatch position index =>
    s!"state at position {position} carries index {index}; a state's index must equal its position"
  | danglingTransition source target =>
    s!"transition from state {source} leads to state {target}, which does not exist"
  | initialOutOfRange initial states =>
    s!"initial state {initial} is out of range for an automaton with {states} states"
  | epsilonInAlphabet => "epsilon is not a member of any alphabet"
  | secondInitial name => s!"second initial state found: '{name}'"
  | memoryTransition source target =>
    s!"memory transition from '{source}' to '{target}' in a plain finite automaton"
  | emptyName => "symbol names must not be empty"

/-- What a fact tells about. -/
inductive Topic where
  | alphabet
  | pumpLength
  | minimalDfa
  | syntacticMonoid
  | nfaMinimumSize
  | oneUnambiguous
  | oneUnambiguousRegex
  deriving DecidableEq, Repr

def Topic.text : Topic → String
  | alphabet => "alphabet"
  | pumpLength => "pump length"
  | minimalDfa => "minimal DFA"
  | syntacticMonoid => "syntactic monoid"
  | nfaMinimumSize => "NFA minimum size"
  | oneUnambiguous => "1-unambiguity flag"
  | oneUnambiguousRegex => "1-unambiguous regex"

/-- A precondition that does not hold, an assertion that fails, or an index that nothing stands
at. -/
inductive Breach where
  | invalidAutomaton (fault : Fault)
  | invalidPushdown (fault : Fault)
  | invalidMemory (fault : Fault)
  | unknownFact (topic : Topic)
  | minimizeNondeterministic
  | complementNondeterministic
  | monoidNondeterministic
  | namelessLiteral
  /-- A state made by an operation carries another index than its position. -/
  | misnumbered
  /-- The automaton made by an operation lacks its initial state. -/
  | initialMissing
  | outOfBounds (length index : Nat)
  | noEntry
  deriving DecidableEq

def Breach.message : Breach → String
  | invalidAutomaton fault => "invalid finite automaton: " ++ fault.message
  | invalidPushdown fault => "invalid pushdown automaton: " ++ fault.message
  | invalidMemory fault => "invalid memory automaton: " ++ fault.message
  | unknownFact topic => topic.text ++ " requested before it was cached"
  | minimizeNondeterministic =>
    "minimize expects a deterministic automaton without epsilon transitions"
  | complementNondeterministic =>
    "complement expects a deterministic automaton without epsilon transitions"
  | monoidNondeterministic => "assertion failed: dfa.is_deterministic()"
  | namelessLiteral => "literal names are never empty"
  | misnumbered => "assertion failed: states.iter().enumerate().all(|(i, s)| s.index == i)"
  | initialMissing => "assertion failed: initial_state < states.len()"
  | outOfBounds length index =>
    s!"index out of bounds: the len is {length} but the index is {index}"
  | noEntry => "no entry found for key"

end Acceptors
