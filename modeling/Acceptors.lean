import Acceptors.Session.Step
import Acceptors.Proofs.Acceptance
import Acceptors.Proofs.EpsilonFree
import Acceptors.Proofs.Assembly
import Acceptors.Proofs.Regex.Denotation
import Acceptors.Proofs.Regex.Fragment
import Acceptors.Proofs.Equations.Automaton
import Acceptors.Proofs.Partition
import Acceptors.Proofs.Deterministic
import Acceptors.Proofs.Graph
import Acceptors.Proofs.Minimize
import Acceptors.Proofs.Canonical
import Acceptors.Proofs.Determinize
import Acceptors.Proofs.Equivalence
import Acceptors.Proofs.Regex.Automaton
import Acceptors.Proofs.Regex.Grammar
import Acceptors.Proofs.Regex.Reader
import Acceptors.Proofs.Regex.Simplified
import Acceptors.Proofs.Regex.Nesting
import Acceptors.Proofs.Regex.RoundTrip
import Acceptors.Proofs.Language.Book
import Acceptors.Proofs.Pushdown.Run
import Acceptors.Proofs.Session.Run
import Acceptors.Proofs.Session.Ownership
import Acceptors.Proofs.Bisimulation
import Acceptors.Proofs.Complement
import Acceptors.Proofs.Equations.Trees
import Acceptors.Proofs.Product
import Acceptors.Proofs.Difference
import Acceptors.Proofs.Regex.Names
import Acceptors.Proofs.Meaning
import Acceptors.Proofs.Pumping
import Acceptors.Proofs.SyntacticMonoid
import Acceptors.Proofs.Shape
import Acceptors.Proofs.Language.Facts
import Acceptors.Proofs.Session.Coherence
import Acceptors.Proofs.Pushdown.Bound
import Acceptors.Proofs.Pushdown.Completeness
import Acceptors.Proofs.Regex.Failure
import Acceptors.Proofs.Regex.Parentheses
import Acceptors.Proofs.Merging
import Acceptors.Proofs.Equality
import Acceptors.Proofs.Pushdown.Limit
import Acceptors.Proofs.Reassembly
import Acceptors.Proofs.Session.Proper
import Acceptors.Proofs.Equations.Nesting
import Acceptors.Proofs.Equations.Ladder
import Acceptors.Proofs.Pushdown.Firing
import Acceptors.Proofs.Discovery
import Acceptors.Proofs.Enumeration
import Acceptors.Proofs.Relabelling
import Acceptors.Proofs.Coarsest
import Acceptors.Proofs.Quotient
import Acceptors.Proofs.Regex.Algebra
import Acceptors.Proofs.Regex.Emptiness
import Acceptors.Proofs.Regex.Growth
import Acceptors.Proofs.Shortest
import Acceptors.Proofs.Renumbering
import Acceptors.Proofs.Violations
import Acceptors.Proofs.Digraph
import Acceptors.Proofs.Paths
import Acceptors.Proofs.Rounds
import Acceptors.Proofs.Description
import Acceptors.Proofs.Worklist
import Acceptors.Proofs.Token
