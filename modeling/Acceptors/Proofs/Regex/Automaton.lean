import Acceptors.Expression
import Acceptors.Proofs.Regex.Fragment

/-!
The automaton of an expression. Each node of the tree adds two states at most (`next_fragment_le`),
and only the exit of the whole fragment is terminal. Main statement: `toAutomaton_ofRegex`.
-/

namespace Acceptors

namespace Regex

mutual

theorem next_fragment_le (n : Nat) : (r : Regex) → (fragment n r).next ≤ n + 2 * r.size
  | empty => by simp [fragment, Fragment.leaf, size]
  | epsilon => by simp [fragment, Fragment.leaf, size]
  | literal _ => by simp [fragment, Fragment.leaf, size]
  | concat rs => by
    have hle := nextAfter_fragments_le n rs
    have hrs := consecutive_fragments n rs
    rw [fragment, size]
    cases hfs : fragments n rs with
    | nil =>
      simp only [Fragment.leaf]
      omega
    | cons f fs =>
      rw [hfs] at hrs hle
      rw [Fragment.nextAfter_cons] at hle
      rw [(Fragment.within_chain hrs.1 hrs.2).2]
      omega
  | union rs => by
    have hle := nextAfter_fragments_le n rs
    simp only [fragment, Fragment.choice, size]
    omega
  | star r => by
    have hle := next_fragment_le n r
    simp only [fragment, Fragment.loop, size]
    omega

theorem nextAfter_fragments_le (n : Nat) :
    (rs : List Regex) → Fragment.nextAfter n (fragments n rs) ≤ n + 2 * sizeParts rs
  | [] => by simp [fragments, Fragment.nextAfter, sizeParts]
  | r :: rs => by
    have hr := next_fragment_le n r
    have hrs := nextAfter_fragments_le (fragment n r).next rs
    rw [fragments, Fragment.nextAfter_cons, sizeParts]
    omega

end

theorem size_toAutomaton_le (r : Regex) (alphabet : Alphabet) :
    (r.toAutomaton alphabet).size ≤ 2 * r.size := by
  have hle := next_fragment_le 0 r
  rw [toAutomaton, size_toAutomaton]
  omega

theorem existsUnique_isTerminal_toAutomaton (r : Regex) (alphabet : Alphabet) :
    ∃! q, (r.toAutomaton alphabet).isTerminal q = true :=
  have h := within_fragment 0 r
  ⟨(r.fragment 0).exit, (isTerminal_toAutomaton h).mpr rfl,
    fun _ hq => (isTerminal_toAutomaton h).mp hq⟩

end Regex

namespace Expression

/-- The automaton of a tree accepts what the tree denotes, in one terminal state, and has two states
a node at most. -/
theorem toAutomaton_ofRegex (r : Regex) :
    (∀ w : Word, w.Plain → ((ofRegex r).toAutomaton.accepts w = true ↔ w ∈ r.language)) ∧
      (∃! q, (ofRegex r).toAutomaton.isTerminal q = true) ∧
      (ofRegex r).toAutomaton.size ≤ 2 * r.size :=
  ⟨fun _ hw => Regex.accepts_toAutomaton_iff r _ hw,
    Regex.existsUnique_isTerminal_toAutomaton r _, Regex.size_toAutomaton_le r _⟩

/-- A star on a star, a concatenation and a union without parts, and a union of one part. -/
def nested : Regex :=
  .star (.star (.concat [.union [.literal "a"], .concat [], .union [.literal "b", .union []]]))

theorem toAutomaton_ofRegex_nested :
    Word.Plain [.literal "a", .literal "b"] ∧ [.literal "a", .literal "b"] ∈ nested.language ∧
      (ofRegex nested).toAutomaton.size ≤ 18 := by
  obtain ⟨haccepts, _, hsize⟩ := toAutomaton_ofRegex nested
  have hplain : Word.Plain [.literal "a", .literal "b"] := by decide
  exact ⟨hplain, (haccepts _ hplain).mp (by decide), hsize⟩

end Expression

end Acceptors
