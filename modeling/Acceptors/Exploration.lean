import Acceptors.Sorted.Map

/-!
Breadth-first exploration: the level of a node is its distance from the start, nodes with one key
count as one node, and the first of them found is kept. Every node is listed once, level after
level, in the order of discovery. Each round but the last finds a node, so as many rounds as there
are keys are enough.

Partition refinement. A partition of the first `n` numbers gives each its block. Each round tells
members of one block apart by a signature that may look at the blocks of others, and numbers the new
blocks by first occurrence. The refinement is over when a round leaves the number of blocks
unchanged. The count starts at 0 and grows with every round but the last, so one round more than
there are members is enough.
-/

namespace Acceptors

section Exploration

variable {α κ : Type} [DecidableEq κ]

/-- The members of a list whose key occurs neither in `found` nor before them. -/
def fresh (key : α → κ) (found : List α) : List α → List α
  | [] => []
  | y :: rest =>
    if found.any fun x => key x == key y then fresh key found rest
    else y :: fresh key (y :: found) rest

/-- Goes on from the nodes found so far, the last level of which is `level`. -/
def exploreFrom (key : α → κ) (next : α → List α) : Nat → List α → List α → List α
  | 0, found, _ => found
  | rounds + 1, found, level =>
    match fresh key found (level.flatMap next) with
    | [] => found
    | new => exploreFrom key next rounds (found ++ new) new

def exploreBy (key : α → κ) (next : α → List α) (rounds : Nat) (start : List α) : List α :=
  exploreFrom key next rounds (fresh key [] start) (fresh key [] start)

def explore [DecidableEq α] (next : α → List α) (rounds : Nat) (start : List α) : List α :=
  exploreBy id next rounds start

end Exploration

namespace Partition

variable {κ : Type} [DecidableEq κ]

def blockOf (blocks : Array Nat) (q : Nat) : Nat := blocks.getD q 0

def distinct (keys : List κ) : List κ := fresh id [] keys

/-- Numbers keys by first occurrence; `found` lists each of them once in this order. -/
def rank (found keys : List κ) : Array Nat := (keys.map fun k => found.idxOf k).toArray

/-- The keys by which one round tells the members apart. -/
def keys (signature : (Nat → Nat) → Nat → κ) (blocks : Array Nat) : List (Nat × κ) :=
  (List.range blocks.size).map fun q => (blockOf blocks q, signature (blockOf blocks) q)

/-- One round: how many blocks there are now, and the block of each member. -/
def round (signature : (Nat → Nat) → Nat → κ) (blocks : Array Nat) : Nat × Array Nat :=
  let keys := keys signature blocks
  let found := distinct keys
  (found.length, rank found keys)

/-- Goes on from some blocks and their number for at most so many rounds. -/
def refineFrom (signature : (Nat → Nat) → Nat → κ) : Nat → Nat → Array Nat → Array Nat
  | 0, _, blocks => blocks
  | rounds + 1, count, blocks =>
    let (found, refined) := round signature blocks
    if found = count then refined else refineFrom signature rounds found refined

/-- The coarsest refinement of `blocks` in which the signature is the same throughout a block. -/
def refine (signature : (Nat → Nat) → Nat → κ) (blocks : Array Nat) : Array Nat :=
  refineFrom signature (blocks.size + 1) 0 blocks

/-- The members of each block, in the order of the block numbers. -/
def groups (blocks : Array Nat) : List (List Nat) :=
  (List.range (distinct blocks.toList).length).map fun b =>
    (List.range blocks.size).filter fun q => blockOf blocks q == b

/-- The members under the numbers of their blocks, which need not be those of consecutive groups. -/
def members (blocks : Array Nat) : SortedMap Nat (List Nat) :=
  (List.range blocks.size).foldl
    (fun m q => m.update (blockOf blocks q) fun old => old.getD [] ++ [q]) ∅

end Partition

end Acceptors
