import Acceptors.Proofs.Pushdown.Bound

/-!
A limit cuts a search short and changes nothing else. Both searches look at the same configurations
until the limit is reached, and a limit that is met exactly does not cut (`searchFrom_some`). Main
statement: `search_some_eq`.
-/

namespace Acceptors.PushdownAutomaton

variable {P : PushdownAutomaton} {w : Word} {limit : Option Nat} {fuel steps most : Nat}
    {s : Search}
  {o : Outcome}

/-- What a limit leaves of an outcome: a verdict that comes later is not reached. -/
def Outcome.within (o : Outcome) (most : Nat) : Outcome :=
  if o.steps ≤ most then o else ⟨most, false, true⟩

theorem Outcome.within_of_le (h : o.steps ≤ most) : o.within most = o := if_pos h

theorem Outcome.within_of_lt (h : most < o.steps) : o.within most = ⟨most, false, true⟩ :=
  if_neg (Nat.not_le_of_lt h)

theorem le_steps_of_searchFrom (h : P.searchFrom w limit fuel steps s = some o) :
    steps ≤ o.steps := by
  fun_induction P.searchFrom w limit fuel steps s with
  | case1 =>
    cases h
    exact Nat.le_refl _
  | case2 =>
    cases h
    exact Nat.le_refl _
  | case3 => cases h
  | case4 =>
    cases h
    exact Nat.le_succ _
  | case5 _ _ _ _ _ _ _ _ ih => exact Nat.le_of_succ_le (ih h)

/-- The search under the limit goes along with the one without until the limit is reached. -/
theorem searchFrom_some (h : P.searchFrom w none fuel steps s = some o) (hsteps : steps ≤ most) :
    P.searchFrom w (some most) fuel steps s = some (o.within most) := by
  fun_induction P.searchFrom w none fuel steps s with
  | case1 fuel steps s hnil =>
    cases h
    rw [searchFrom, hnil, Outcome.within_of_le hsteps]
  | case2 _ _ _ _ _ _ hlimit => cases hlimit
  | case3 => cases h
  | case4 steps s c pending hcons _ fuel haccepting =>
    cases h
    rw [searchFrom, hcons]
    by_cases hmost : most ≤ steps
    · obtain rfl : steps = most := Nat.le_antisymm hsteps hmost
      simp [Outcome.within]
    · have hwithin : (⟨steps + 1, true, false⟩ : Outcome).within most = ⟨steps + 1, true, false⟩ :=
        Outcome.within_of_le (Nat.lt_of_not_le hmost)
      simp [hmost, haccepting, hwithin]
  | case5 steps s c pending hcons _ fuel haccepting ih =>
    have hlt : steps < o.steps := le_steps_of_searchFrom h
    rw [searchFrom, hcons]
    by_cases hmost : most ≤ steps
    · obtain rfl : steps = most := Nat.le_antisymm hsteps hmost
      simp [Outcome.within_of_lt hlt]
    · simpa [hmost, haccepting] using ih h (Nat.lt_of_not_le hmost)

/-- An outcome that is not exhausted is what the search found, not what stands in for it without
fuel. -/
theorem searchFrom_of_search (h : (P.search w none).exhausted = false) :
    P.searchFrom w none (P.searchBound w) 0 P.start = some (P.search w none) := by
  unfold search at h ⊢
  cases hsearch : P.searchFrom w none (P.searchBound w) 0 P.start with
  | none => simp [hsearch] at h
  | some o => rfl

/-- Where the search without a limit comes to a verdict, it comes to the same after as many steps
under every limit that is not below these, and is stopped at every other limit. An assembled
automaton comes to one. -/
theorem search_some_eq (P : PushdownAutomaton) (w : Word) :
    (P.Assembled → (P.search w none).exhausted = false) ∧
      ∀ steps accepted, P.search w none = ⟨steps, accepted, false⟩ → ∀ most,
        P.search w (some most) =
          if steps ≤ most then ⟨steps, accepted, false⟩ else ⟨most, false, true⟩ := by
  refine ⟨fun hP => exhausted_eq_false (searchFrom_searchBound hP w none).1, ?_⟩
  intro steps accepted h most
  have hnone : P.searchFrom w none (P.searchBound w) 0 P.start = some ⟨steps, accepted, false⟩ := by
    rw [searchFrom_of_search (by rw [h]), h]
  rw [search, searchFrom_some hnone (Nat.zero_le most), Option.getD_some, Outcome.within]

/-- One search that ends by accepting and one that runs out of configurations, each with the limit
at its last step and just before it. -/
theorem search_some_eq_pushing :
    pushing.Assembled ∧ (pushing.search (Word.ofText "aaab") none).exhausted = false ∧
      pushing.search (Word.ofText "aa") none = ⟨6, true, false⟩ ∧
      pushing.search (Word.ofText "aa") (some 6) = ⟨6, true, false⟩ ∧
      pushing.search (Word.ofText "aa") (some 5) = ⟨5, false, true⟩ ∧
      pushing.search (Word.ofText "aab") none = ⟨12, false, false⟩ ∧
      pushing.search (Word.ofText "aab") (some 12) = ⟨12, false, false⟩ ∧
      pushing.search (Word.ofText "aab") (some 11) = ⟨11, false, true⟩ := by
  have hends := (search_some_eq pushing (Word.ofText "aaab")).1 assembled_pushing
  have haccepted : pushing.search (Word.ofText "aa") none = ⟨6, true, false⟩ := by decide +kernel
  have hemptied : pushing.search (Word.ofText "aab") none = ⟨12, false, false⟩ := by decide +kernel
  have hcut (w : Word) := (search_some_eq pushing w).2
  exact ⟨assembled_pushing, hends, haccepted, hcut _ _ _ haccepted 6, hcut _ _ _ haccepted 5,
    hemptied, hcut _ _ _ hemptied 12, hcut _ _ _ hemptied 11⟩

end Acceptors.PushdownAutomaton
