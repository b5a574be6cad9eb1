import Acceptors.Expression
import Acceptors.Proofs.Assembly
import Acceptors.Proofs.Equations.Trees
import Acceptors.Proofs.Regex.Fragment

/-!
The names in trees. The simplifying constructors add none (`closed_names`), and the edges of a
tree's automaton carry epsilon or literals of the tree (`step_fragment`). Main statements:
`Expression.Covered.lettered_toAutomaton` and `Expression.covered_ofAutomaton`.
-/

namespace Acceptors

namespace Regex

/-! ## Names -/

theorem mem_namesParts {name : String} {rs : List Regex} :
    name ∈ namesParts rs ↔ ∃ r ∈ rs, name ∈ r.names := by
  induction rs with
  | nil => simp [namesParts]
  | cons r rs ih => simp [namesParts, ih]

theorem mem_names_of_factors {name : String} {r s : Regex} (hs : s ∈ r.factors)
    (h : name ∈ s.names) :
    name ∈ r.names := by
  cases r with
  | concat rs =>
    rw [names, mem_namesParts]
    exact ⟨s, hs, h⟩
  | epsilon => cases hs
  | _ =>
    obtain rfl := List.mem_singleton.mp hs
    exact h

theorem mem_names_of_alternatives {name : String} {r s : Regex} (hs : s ∈ r.alternatives)
    (h : name ∈ s.names) : name ∈ r.names := by
  cases r with
  | union rs =>
    rw [names, mem_namesParts]
    exact ⟨s, hs, h⟩
  | empty => cases hs
  | _ =>
    obtain rfl := List.mem_singleton.mp hs
    exact h

theorem exists_of_mem_names_ofFactors {name : String} {rs : List Regex}
    (h : name ∈ (ofFactors rs).names) : ∃ r ∈ rs, name ∈ r.names := by
  match rs with
  | [] => simp [ofFactors, names] at h
  | [r] => exact ⟨r, List.mem_singleton_self r, h⟩
  | r :: s :: rs =>
    have hnames : name ∈ (concat (r :: s :: rs)).names := h
    rwa [names, mem_namesParts] at hnames

theorem exists_of_mem_names_ofAlternatives {name : String} {rs : List Regex}
    (h : name ∈ (ofAlternatives rs).names) : ∃ r ∈ rs, name ∈ r.names := by
  match rs with
  | [] => simp [ofAlternatives, names] at h
  | [r] => exact ⟨r, List.mem_singleton_self r, h⟩
  | r :: s :: rs =>
    have hnames : name ∈ (union (r :: s :: rs)).names := h
    rwa [names, mem_namesParts] at hnames

/-- The simplifying constructors add no names. -/
theorem closed_names (N : String → Prop) : Closed fun r => ∀ name ∈ r.names, N name where
  empty := by simp [names]
  product {rs} h name hname := by
    unfold product at hname
    split at hname
    · simp [names] at hname
    · obtain ⟨s, hs, hname⟩ := exists_of_mem_names_ofFactors hname
      obtain ⟨r, hr, hs⟩ := List.mem_flatMap.mp hs
      exact h r hr name (mem_names_of_factors hs hname)
  sum {rs} h name hname := by
    obtain ⟨s, hs, hname⟩ := exists_of_mem_names_ofAlternatives hname
    obtain ⟨r, hr, hs⟩ := List.mem_flatMap.mp (SortedSet.mem_ofList.mp hs)
    exact h r hr name (mem_names_of_alternatives hs hname)
  iterate {r} h name hname := by
    refine h name ?_
    cases r with
    | empty | epsilon => simp [iterate, names] at hname
    | _ => simpa [iterate, names] using hname

/-! ## Edges of fragments -/

/-- The label of an edge is epsilon or the literal of a name. -/
def Spells (N : String → Prop) (s : Symbol) : Prop :=
  s = .epsilon ∨ ∃ name, N name ∧ s = .literal name

theorem step_chain {f : Fragment} {gs : List Fragment} {p q : Nat} {s : Symbol}
    (h : (f.chain gs).Step p s q) : f.Step p s q ∨ (∃ g ∈ gs, g.Step p s q) ∨ s = .epsilon := by
  induction gs generalizing f with
  | nil => exact .inl h
  | cons g gs ih =>
    rcases ih h with h | ⟨k, hk, h⟩ | h
    · rcases Fragment.step_join.mp h with h | h | ⟨_, h, _⟩
      · exact .inl h
      · exact .inr (.inl ⟨g, List.mem_cons_self, h⟩)
      · exact .inr (.inr h)
    · exact .inr (.inl ⟨k, List.mem_cons_of_mem g hk, h⟩)
    · exact .inr (.inr h)

mutual

theorem step_fragment {p q : Nat} {s : Symbol} (n : Nat) :
    (r : Regex) → (fragment n r).Step p s q → Spells (· ∈ r.names) s
  | empty, h => by
    obtain ⟨hs, _⟩ := Fragment.step_leaf.mp h
    cases hs
  | epsilon, h => by
    obtain ⟨hs, _⟩ := Fragment.step_leaf.mp h
    exact .inl (List.mem_singleton.mp hs)
  | literal name, h => by
    obtain ⟨hs, _⟩ := Fragment.step_leaf.mp h
    exact .inr ⟨name, by simp [names], List.mem_singleton.mp hs⟩
  | concat rs, h => by
    have hparts := step_fragments (p := p) (q := q) (s := s) n rs
    rw [fragment] at h
    rw [names]
    cases hfs : fragments n rs with
    | nil =>
      rw [hfs] at h
      obtain ⟨hs, _⟩ := Fragment.step_leaf.mp h
      exact .inl (List.mem_singleton.mp hs)
    | cons f fs =>
      rw [hfs] at h hparts
      rcases step_chain h with h | ⟨g, hg, h⟩ | h
      · exact hparts f List.mem_cons_self h
      · exact hparts g (List.mem_cons_of_mem f hg) h
      · exact .inl h
  | union rs, h => by
    rw [fragment] at h
    obtain ⟨f, hf, h | ⟨_, h, _⟩ | ⟨_, h, _⟩⟩ := Fragment.step_choice.mp h
    · exact step_fragments n rs f hf h
    · exact .inl h
    · exact .inl h
  | star r, h => by
    rw [fragment] at h
    rcases Fragment.step_loop.mp h with h | ⟨h, _⟩
    · exact step_fragment n r h
    · exact .inl h

theorem step_fragments {p q : Nat} {s : Symbol} (n : Nat) :
    (rs : List Regex) → ∀ f ∈ fragments n rs, f.Step p s q → Spells (· ∈ namesParts rs) s
  | [], f, hf, _ => by
    cases hf
  | r :: rs, f, hf, h => by
    have hweaken : ∀ names : List String, (∀ name ∈ names, name ∈ namesParts (r :: rs)) →
        Spells (· ∈ names) s → Spells (· ∈ namesParts (r :: rs)) s :=
      fun names hnames => Or.imp_right fun ⟨name, hname, hs⟩ => ⟨name, hnames name hname, hs⟩
    rcases List.mem_cons.mp hf with rfl | hf
    · exact hweaken _ (fun name hname => by simp [namesParts, hname]) (step_fragment n r h)
    · exact hweaken _ (fun name hname => by simp [namesParts, hname])
        (step_fragments _ rs f hf h)

end

end Regex

/-! ## Expressions -/

namespace Automaton

variable {A : FiniteAutomaton}

theorem Lettered.literalEdges (hA : A.Lettered) : EquationSystem.LiteralEdges A.epsilonFree := by
  intro p s q hs
  obtain ⟨hne, p', hs'⟩ := step_of_step_epsilonFree hs
  exact hA.literal s (hA.mem_alphabet hs' hne)

/-- The literals that an equation is made from have names. -/
theorem Assembled.name_ne (hA : A.Assembled) {p q : Nat} {name : String}
    (hs : A.epsilonFree.Step p (.literal name) q) : name ≠ "" := by
  obtain ⟨_, p', hs'⟩ := step_of_step_epsilonFree hs
  rcases hA.label hs' with h | ⟨n, hn, h⟩
  · cases h
  · exact Symbol.literal.inj h ▸ hn

end Automaton

namespace Expression

/-- The alphabet has the literals of the tree, and nothing but literals. -/
structure Covered (e : Expression) : Prop where
  literal : ∀ s ∈ e.alphabet, ∃ name, s = .literal name
  names : ∀ name ∈ e.regex.names, Symbol.literal name ∈ e.alphabet

theorem covered_ofRegex (r : Regex) : (ofRegex r).Covered where
  literal s hs := by
    obtain ⟨name, _, rfl⟩ := List.mem_map.mp (SortedSet.mem_ofList.mp hs)
    exact ⟨name, rfl⟩
  names _ hname := SortedSet.mem_ofList.mpr (List.mem_map_of_mem hname)

/-- The expression of an automaton has no names but those of its edges. -/
theorem covered_ofAutomaton {A : FiniteAutomaton} (hA : A.Lettered) : (ofAutomaton A).Covered where
  literal := hA.literal
  names := by
    have hclosed := Regex.closed_names fun name => Symbol.literal name ∈ A.alphabet
    rw [ofAutomaton, EquationSystem.ofAutomaton]
    refine hclosed.solve_ofEpsilonFree (by simp [Regex.names]) fun p name q hs => ?_
    obtain ⟨hne, p', hs'⟩ := Automaton.step_of_step_epsilonFree hs
    simpa [Regex.names] using hA.mem_alphabet hs' hne

theorem wellFormed_toAutomaton (e : Expression) : e.toAutomaton.WellFormed :=
  Regex.wellFormed_toAutomaton (Regex.within_fragment 0 e.regex)

theorem Covered.lettered_toAutomaton {e : Expression} (h : e.Covered) : e.toAutomaton.Lettered where
  wellFormed := e.wellFormed_toAutomaton
  mem_alphabet hs hne := by
    rcases Regex.step_fragment 0 e.regex
      ((Regex.step_toAutomaton (Regex.within_fragment 0 e.regex)).mp hs) with heq
      | ⟨name, hname, rfl⟩
    · exact absurd heq hne
    · exact h.names name hname
  indexed := Regex.indexed_toAutomaton _ _
  literal := h.literal

theorem wordsFrom_toAutomaton (e : Expression) :
    e.toAutomaton.wordsFrom e.toAutomaton.initial = e.regex.language := by
  rw [← Regex.language_fragment 0 e.regex]
  exact Regex.wordsFrom_toAutomaton (Regex.within_fragment 0 e.regex) _

end Expression

end Acceptors
