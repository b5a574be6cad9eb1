import Acceptors.Proofs.Determinize
import Acceptors.Proofs.Language.Recall
import Acceptors.Proofs.Minimize

/-!
Pumping. Of more beginnings of a word than an automaton has states, two leave the same words to read
(`exists_leftQuotient_eq`), and what stands between them may be repeated
(`append_repeated_append_mem`). Main statement: `accepts_repeated`, with the number of states of the
minimal automaton as the bound.
-/

namespace Acceptors

/-- The word so many times. -/
def Word.repeated (w : Word) (n : Nat) : Word := (List.replicate n w).flatten

/-- If two beginnings of a word leave the same words to read, the part between them may be
repeated. -/
theorem append_repeated_append_mem {L : WordSet Symbol} {u v z : Word}
    (h : L.leftQuotient u = L.leftQuotient (u ++ v)) (hw : u ++ v ++ z ∈ L) (n : Nat) :
    u ++ v.repeated n ++ z ∈ L := by
  have hz : z ∈ L.leftQuotient u := h ▸ hw
  have hrepeat : v.repeated n ++ z ∈ L.leftQuotient u := by
    induction n with
    | zero => exact hz
    | succ n ih =>
      have hsucc : v.repeated (n + 1) = v ++ v.repeated n := by
        simp [Word.repeated, List.replicate_succ]
      rw [h, Language.mem_leftQuotient] at ih
      rwa [hsucc, Language.mem_leftQuotient, List.append_assoc, ← List.append_assoc u]
  rwa [List.append_assoc]

namespace Automaton

variable {A : FiniteAutomaton}

/-- There are more beginnings up to the number of states than states that they lead to. -/
theorem exists_leftQuotient_eq (hA : A.WellFormed) (hdet : Deterministic A.Step) {w : Word}
    (hw : w ∈ A.wordsFrom A.initial) :
    ∃ i j, i < j ∧ j ≤ A.size ∧
      (A.wordsFrom A.initial).leftQuotient (w.take i) =
        (A.wordsFrom A.initial).leftQuotient (w.take j) := by
  have hstate : ∀ i : Fin (A.size + 1), ∃ q : Fin A.size, Walk A.Step A.initial (w.take i) q := by
    intro i
    rw [← List.take_append_drop i w] at hw
    obtain ⟨q, hq, _⟩ := (append_mem_wordsTo hdet.noEpsilon).mp hw
    exact ⟨⟨q, hA.lt_of_walk hq hA.initial_lt⟩, hq⟩
  choose f hf using hstate
  obtain ⟨i, j, hne, hij⟩ := Fintype.exists_ne_map_eq_of_card_lt f (by simp)
  have hquotient : (A.wordsFrom A.initial).leftQuotient (w.take i) =
      (A.wordsFrom A.initial).leftQuotient (w.take j) := by
    rw [← wordsFrom_of_walk hdet (hf i), ← wordsFrom_of_walk hdet (hf j), hij]
  rcases lt_or_gt_of_ne hne with hlt | hlt
  · exact ⟨i, j, hlt, Nat.le_of_lt_succ j.isLt, hquotient⟩
  · exact ⟨j, i, hlt, Nat.le_of_lt_succ i.isLt, hquotient.symm⟩

/-- A word with as many symbols as there are states has a part that may be repeated. -/
theorem exists_repeated_mem (hA : A.WellFormed) (hdet : Deterministic A.Step) {w : Word}
    (hw : w ∈ A.wordsFrom A.initial) (hlen : A.size ≤ w.length) :
    ∃ u v z, w = u ++ v ++ z ∧ v ≠ [] ∧ (u ++ v).length ≤ A.size ∧
      ∀ n, u ++ v.repeated n ++ z ∈ A.wordsFrom A.initial := by
  obtain ⟨i, j, hij, hj, hquotient⟩ := exists_leftQuotient_eq hA hdet hw
  have hbegin : w.take j = w.take i ++ (w.drop i).take (j - i) := by
    rw [← List.take_add]
    congr 1
    omega
  have hsplit : w = w.take i ++ (w.drop i).take (j - i) ++ w.drop j := by
    rw [← hbegin, List.take_append_drop]
  refine ⟨w.take i, (w.drop i).take (j - i), w.drop j, hsplit, ?_, ?_, fun n => ?_⟩
  · rw [← List.length_pos_iff, List.length_take, List.length_drop]
    omega
  · rw [← hbegin, List.length_take]
    omega
  · exact append_repeated_append_mem (hbegin ▸ hquotient) (hsplit ▸ hw) n

/-- A pumping length is computed of an automaton, and every accepted word without epsilon that is as
long has a part near its beginning that may be repeated. -/
theorem accepts_repeated {r : Registry} {x : Linked FiniteAutomaton} (hA : x.body.Assembled)
    (hx : x.Unknown r) :
    ∃ p, (x.pumpLength r).2.2 = .ok p ∧
      ∀ w : Word, w.Plain → x.body.accepts w = true → p ≤ w.length →
        ∃ u v z, w = u ++ v ++ z ∧ v ≠ [] ∧ (u ++ v).length ≤ p ∧
          ∀ n, x.body.accepts (u ++ v.repeated n ++ z) = true := by
  refine ⟨_, Linked.pumpLength_of_unknown rfl hA.intact hx, fun w hw haccepts hlen => ?_⟩
  have hdet := deterministic_determinize hA.wellFormed
  have hlabelled := hA.labelled.determinize
  have hwords : x.body.determinize.minimize.wordsFrom x.body.determinize.minimize.initial =
      x.body.wordsFrom x.body.initial :=
    (wordsFrom_minimize hlabelled hdet).trans (wordsFrom_determinize hA.labelled)
  have hmem := (accepts_iff hA.wellFormed hw).mp haccepts
  obtain ⟨u, v, z, rfl, hv, hlen, hall⟩ := exists_repeated_mem (wellFormed_minimize hlabelled hdet)
    (deterministic_of_isDeterministic (isDeterministic_minimize hlabelled hdet))
    (hwords ▸ hmem) hlen
  exact ⟨u, v, z, rfl, hv, hlen, fun n => accepts_of_mem_wordsFrom hA.wellFormed (hwords ▸ hall n)⟩

/-- A free edge to a terminal state with a loop. -/
def sprung : Parts Nat :=
  ⟨0, [⟨0, "", false, Table.ofEdges [(.epsilon, 1)]⟩,
    ⟨1, "", true, Table.ofEdges [(.literal "a", 1)]⟩], ∅⟩

theorem pumpLength_sprung :
    (Linked.pumpLength .empty (.fresh sprung.automaton)).2.2 = .ok 1 := by decide +kernel

theorem accepts_repeated_sprung :
    sprung.automaton.Assembled ∧ (Linked.fresh sprung.automaton).Unknown .empty ∧
      Word.Plain [.literal "a", .literal "a"] ∧
      sprung.automaton.accepts [.literal "a", .literal "a"] = true ∧
      ∃ u v z : Word, [.literal "a", .literal "a"] = u ++ v ++ z ∧ v ≠ [] ∧ (u ++ v).length ≤ 1 ∧
        ∀ n, sprung.automaton.accepts (u ++ v.repeated n ++ z) = true := by
  have hA : sprung.automaton.Assembled := ⟨sprung, rfl⟩
  have hx := Linked.unknown_fresh .empty sprung.automaton
  have hplain : Word.Plain [.literal "a", .literal "a"] := by decide
  have haccepts : sprung.automaton.accepts [.literal "a", .literal "a"] = true := by decide +kernel
  obtain ⟨p, hp, hsplit⟩ := accepts_repeated hA hx
  obtain rfl : 1 = p := Except.ok.inj (pumpLength_sprung.symm.trans hp)
  exact ⟨hA, hx, hplain, haccepts, hsplit _ hplain haccepts (by decide)⟩

/-- Epsilon in a word is read by an edge that carries it, and no language over the alphabet tells
how often. -/
theorem not_accepts_repeated_epsilon :
    sprung.automaton.Assembled ∧ (Linked.fresh sprung.automaton).Unknown .empty ∧
      sprung.automaton.accepts [.epsilon] = true ∧
      (Linked.pumpLength .empty (.fresh sprung.automaton)).2.2 = .ok 1 ∧
      1 ≤ List.length [Symbol.epsilon] ∧
      ¬ ∃ u v z : Word, [.epsilon] = u ++ v ++ z ∧ v ≠ [] ∧ (u ++ v).length ≤ 1 ∧
        ∀ n, sprung.automaton.accepts (u ++ v.repeated n ++ z) = true := by
  refine ⟨⟨sprung, rfl⟩, Linked.unknown_fresh .empty sprung.automaton, by decide +kernel,
    pumpLength_sprung, by decide, ?_⟩
  rintro ⟨u, v, z, hw, hv, _, hall⟩
  have hpos := List.length_pos_iff.mpr hv
  have hlength := congrArg List.length hw
  simp only [List.length_append, List.length_singleton] at hlength
  obtain rfl : u = [] := List.eq_nil_of_length_eq_zero (by omega)
  obtain rfl : z = [] := List.eq_nil_of_length_eq_zero (by omega)
  obtain rfl : v = [.epsilon] := by simpa using hw.symm
  exact absurd (hall 2) (by decide +kernel)

end Automaton

end Acceptors
