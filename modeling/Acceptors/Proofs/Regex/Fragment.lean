import Acceptors.Regex.Fragment
import Acceptors.Proofs.Acceptance
import Acceptors.Proofs.Regex.Denotation

/-!
The words of fragments. Each way of putting fragments together is an operation on their words
(`language_join`, `language_choice`, `language_loop`); upper bounds are labellings glued from those
of the parts, lower bounds are walks through the parts. Main statements: `language_fragment`, and
`accepts_toAutomaton_iff` for the automaton.
-/

namespace Acceptors.Regex

open Computability

namespace Fragment

/-- An edge of the fragment. -/
def Step (f : Fragment) (p : Nat) (s : Symbol) (q : Nat) : Prop := (p, s, q) ∈ f.edges

/-- The words that lead from a state to the exit. -/
def wordsFrom (f : Fragment) (p : Nat) : WordSet Symbol := wordsTo f.Step (· = f.exit) p

/-- The words that lead through the fragment. -/
def language (f : Fragment) : WordSet Symbol := f.wordsFrom f.entry

theorem one_le_wordsFrom_exit (f : Fragment) : 1 ≤ f.wordsFrom f.exit :=
  labelling_wordsTo.terminal f.exit rfl

theorem words_mul_wordsFrom_le {f : Fragment} {p q : Nat} {s : Symbol} (h : f.Step p s q) :
    s.words * f.wordsFrom q ≤ f.wordsFrom p :=
  labelling_wordsTo.edge p s q h

theorem wordsFrom_le_of_epsilon {f : Fragment} {p q : Nat} (h : f.Step p .epsilon q) :
    f.wordsFrom q ≤ f.wordsFrom p := by
  simpa using words_mul_wordsFrom_le h

/-- A labelling of the fragment bounds its words. -/
theorem language_le {f : Fragment} {K : Nat → WordSet Symbol} (hexit : 1 ≤ K f.exit)
    (hedge : ∀ p s q, f.Step p s q → s.words * K q ≤ K p) : f.language ≤ K f.entry :=
  Labelling.wordsTo_le ⟨fun _ hx => hx ▸ hexit, hedge⟩ f.entry

/-- Words through a part of a fragment lead on from its exit. -/
theorem language_mul_wordsFrom_le {f g : Fragment} (h : f.edges ⊆ g.edges) :
    f.language * g.wordsFrom f.exit ≤ g.wordsFrom f.entry := by
  intro w hw
  obtain ⟨u, ⟨_, rfl, hu⟩, v, ⟨y, hy, hv⟩, rfl⟩ := Language.mem_mul.mp hw
  exact ⟨y, hy, (hu.mono fun _ _ _ he => h he).append hv⟩

/-- Labels below `n` and labels from there on make one labelling of all states. -/
theorem exists_glued (n : Nat) (K L : Nat → WordSet Symbol) :
    ∃ M : Nat → WordSet Symbol, (∀ p < n, M p = K p) ∧ ∀ p, n ≤ p → M p = L p :=
  ⟨fun p => if p < n then K p else L p, fun _ h => if_pos h, fun _ h => if_neg (Nat.not_lt.mpr h)⟩

/-! ## Layout -/

/-- The states of the fragment are numbered from `n` up to its end. -/
structure Within (f : Fragment) (n : Nat) : Prop where
  entry : n ≤ f.entry ∧ f.entry < f.next
  exit : n ≤ f.exit ∧ f.exit < f.next
  edge : ∀ p s q, f.Step p s q → (n ≤ p ∧ p < f.next) ∧ n ≤ q ∧ q < f.next

/-- One fragment starts where the one before it ends. -/
def Consecutive (n : Nat) : List Fragment → Prop
  | [] => True
  | f :: fs => f.Within n ∧ Consecutive f.next fs

theorem Within.mono {f : Fragment} {m n : Nat} (h : f.Within n) (hmn : m ≤ n) : f.Within m where
  entry := ⟨hmn.trans h.entry.1, h.entry.2⟩
  exit := ⟨hmn.trans h.exit.1, h.exit.2⟩
  edge p s q hs :=
    have ⟨⟨hp, hp'⟩, hq, hq'⟩ := h.edge p s q hs
    ⟨⟨hmn.trans hp, hp'⟩, hmn.trans hq, hq'⟩

theorem Within.le_next {f : Fragment} {n : Nat} (h : f.Within n) : n ≤ f.next :=
  h.entry.1.trans h.entry.2.le

theorem nextAfter_cons (n : Nat) (f : Fragment) (fs : List Fragment) :
    nextAfter n (f :: fs) = nextAfter f.next fs := by
  cases fs with
  | nil => rfl
  | cons g gs => simp [nextAfter, List.getLast?_cons]

theorem Consecutive.le_nextAfter {n : Nat} {fs : List Fragment} (h : Consecutive n fs) :
    n ≤ nextAfter n fs := by
  induction fs generalizing n with
  | nil => simp [nextAfter]
  | cons f fs ih =>
    rw [nextAfter_cons]
    exact h.1.le_next.trans (ih h.2)

theorem Consecutive.within {n : Nat} {fs : List Fragment} (h : Consecutive n fs) :
    ∀ f ∈ fs, f.Within n ∧ f.next ≤ nextAfter n fs := by
  induction fs generalizing n with
  | nil => simp
  | cons f fs ih =>
    intro g hg
    rw [nextAfter_cons]
    rcases List.mem_cons.mp hg with rfl | hg
    · exact ⟨h.1, h.2.le_nextAfter⟩
    · exact ⟨(ih h.2 g hg).1.mono h.1.le_next, (ih h.2 g hg).2⟩

/-! ## Leaves -/

theorem within_leaf (n : Nat) (symbols : List Symbol) : (leaf n symbols).Within n where
  entry := by simp [leaf]
  exit := by simp [leaf]
  edge p s q h := by
    simp only [Step, leaf, List.mem_map, Prod.mk.injEq] at h
    obtain ⟨_, _, rfl, rfl, rfl⟩ := h
    simp [leaf]

theorem step_leaf {n p q : Nat} {s : Symbol} {symbols : List Symbol} :
    (leaf n symbols).Step p s q ↔ s ∈ symbols ∧ p = n ∧ q = n + 1 := by
  simp only [Step, leaf, List.mem_map, Prod.mk.injEq]
  constructor
  · rintro ⟨s, hs, rfl, rfl, rfl⟩
    exact ⟨hs, rfl, rfl⟩
  · rintro ⟨hs, rfl, rfl⟩
    exact ⟨s, hs, rfl, rfl, rfl⟩

theorem language_leaf (n : Nat) (symbols : List Symbol) :
    (leaf n symbols).language = (symbols.map Symbol.words).sum := by
  apply le_antisymm
  · obtain ⟨K, hlow, hhigh⟩ :=
      exists_glued (n + 1) (fun _ => (symbols.map Symbol.words).sum) (fun _ => 1)
    have hexit : 1 ≤ K (leaf n symbols).exit := (hhigh (n + 1) (le_refl _)).ge
    refine (language_le hexit fun p s q h => ?_).trans (hlow n (Nat.lt_succ_self n)).le
    obtain ⟨hs, rfl, rfl⟩ := step_leaf.mp h
    rw [hhigh _ (le_refl _), hlow _ (Nat.lt_succ_self _), mul_one]
    exact fun w hw => mem_list_sum.mpr ⟨_, List.mem_map.mpr ⟨s, hs, rfl⟩, hw⟩
  · intro w hw
    obtain ⟨_, hL, hw⟩ := mem_list_sum.mp hw
    obtain ⟨s, hs, rfl⟩ := List.mem_map.mp hL
    obtain rfl : w = s.spelled := hw
    exact ⟨n + 1, rfl, .edge (step_leaf.mpr ⟨hs, rfl, rfl⟩)⟩

/-! ## Fragments in a row -/

/-- Two fragments in a row. -/
def join (f g : Fragment) : Fragment :=
  ⟨f.entry, g.exit, g.next, f.edges ++ g.edges ++ [(f.exit, .epsilon, g.entry)]⟩

theorem chain_cons (f g : Fragment) (gs : List Fragment) :
    f.chain (g :: gs) = (f.join g).chain gs := rfl

theorem step_join {f g : Fragment} {p q : Nat} {s : Symbol} :
    (f.join g).Step p s q ↔
      f.Step p s q ∨ g.Step p s q ∨ p = f.exit ∧ s = .epsilon ∧ q = g.entry := by
  simp [Step, join]

theorem within_join {f g : Fragment} {n : Nat} (hf : f.Within n) (hg : g.Within f.next) :
    (f.join g).Within n where
  entry := ⟨hf.entry.1, hf.entry.2.trans_le hg.le_next⟩
  exit := ⟨hf.le_next.trans hg.exit.1, hg.exit.2⟩
  edge p s q h := by
    have hfn := hf.le_next
    have hgn := hg.le_next
    have hfx := hf.exit
    have hge := hg.entry
    simp only [join]
    rcases step_join.mp h with h | h | ⟨rfl, _, rfl⟩
    · have := hf.edge p s q h
      omega
    · have := hg.edge p s q h
      omega
    · omega

theorem language_join {f g : Fragment} {n : Nat} (hf : f.Within n) (hg : g.Within f.next) :
    (f.join g).language = f.language * g.language := by
  apply le_antisymm
  · obtain ⟨K, hlow, hhigh⟩ :=
      exists_glued f.next (fun p => f.wordsFrom p * g.language) g.wordsFrom
    have hexit : 1 ≤ K (f.join g).exit := g.one_le_wordsFrom_exit.trans (hhigh _ hg.exit.1).ge
    refine (language_le hexit fun p s q h => ?_).trans (hlow _ hf.entry.2).le
    rcases step_join.mp h with h | h | ⟨rfl, rfl, rfl⟩
    · obtain ⟨⟨_, hp⟩, _, hq⟩ := hf.edge p s q h
      rw [hlow p hp, hlow q hq, ← mul_assoc]
      exact mul_le_mul_left (words_mul_wordsFrom_le h) _
    · obtain ⟨⟨hp, _⟩, hq, _⟩ := hg.edge p s q h
      rw [hhigh p hp, hhigh q hq]
      exact words_mul_wordsFrom_le h
    · rw [hlow _ hf.exit.2, hhigh _ hg.entry.1, Symbol.words_epsilon, one_mul]
      calc g.wordsFrom g.entry = 1 * g.language := (one_mul _).symm
        _ ≤ f.wordsFrom f.exit * g.language := mul_le_mul_left f.one_le_wordsFrom_exit _
  · have hgx : g.language ≤ (f.join g).wordsFrom g.entry := by
      calc g.language = g.language * 1 := (mul_one _).symm
        _ ≤ g.language * (f.join g).wordsFrom g.exit :=
          mul_le_mul_right (f.join g).one_le_wordsFrom_exit _
        _ ≤ (f.join g).wordsFrom g.entry :=
          language_mul_wordsFrom_le fun e he => List.mem_append_left _ (List.mem_append_right _ he)
    calc f.language * g.language ≤ f.language * (f.join g).wordsFrom g.entry :=
          mul_le_mul_right hgx _
      _ ≤ f.language * (f.join g).wordsFrom f.exit :=
          mul_le_mul_right
            (wordsFrom_le_of_epsilon (step_join.mpr (.inr (.inr ⟨rfl, rfl, rfl⟩)))) _
      _ ≤ (f.join g).language :=
          language_mul_wordsFrom_le fun e he => List.mem_append_left _ (List.mem_append_left _ he)

theorem within_chain {f : Fragment} {n : Nat} {gs : List Fragment} (hf : f.Within n)
    (hgs : Consecutive f.next gs) :
    (f.chain gs).Within n ∧ (f.chain gs).next = nextAfter f.next gs := by
  induction gs generalizing f with
  | nil => exact ⟨hf, rfl⟩
  | cons g gs ih =>
    rw [chain_cons, nextAfter_cons]
    exact ih (within_join hf hgs.1) hgs.2

theorem language_chain {f : Fragment} {n : Nat} {gs : List Fragment} (hf : f.Within n)
    (hgs : Consecutive f.next gs) :
    (f.chain gs).language = f.language * (gs.map language).prod := by
  induction gs generalizing f with
  | nil => simp [chain]
  | cons g gs ih =>
    rw [chain_cons, ih (within_join hf hgs.1) hgs.2, language_join hf hgs.1, mul_assoc,
      List.map_cons, List.prod_cons]

/-! ## A choice of fragments -/

theorem step_choice {n p q : Nat} {s : Symbol} {fs : List Fragment} :
    (choice n fs).Step p s q ↔
      ∃ f ∈ fs, f.Step p s q ∨ (p = n ∧ s = .epsilon ∧ q = f.entry) ∨
        p = f.exit ∧ s = .epsilon ∧ q = n + 1 := by
  simp [Step, choice]

theorem within_choice {n : Nat} {fs : List Fragment} (h : Consecutive n fs) :
    (choice (nextAfter n fs) fs).Within n where
  entry := ⟨h.le_nextAfter, by simp [choice]⟩
  exit := ⟨h.le_nextAfter.trans (Nat.le_succ _), by simp [choice]⟩
  edge p s q hs := by
    have hn := h.le_nextAfter
    simp only [choice]
    obtain ⟨f, hf, hs⟩ := step_choice.mp hs
    obtain ⟨hw, hlt⟩ := h.within f hf
    have hentry := hw.entry
    have hexit := hw.exit
    rcases hs with hs | ⟨rfl, _, rfl⟩ | ⟨rfl, _, rfl⟩
    · have := hw.edge p s q hs
      omega
    · omega
    · omega

/-- The words of consecutive fragments and labels from there on make one labelling of all states. -/
theorem exists_glued_consecutive {n : Nat} {fs : List Fragment} (h : Consecutive n fs)
    (L : Nat → WordSet Symbol) :
    ∃ M : Nat → WordSet Symbol,
      (∀ f ∈ fs, M f.entry = f.language ∧ 1 ≤ M f.exit ∧
        ∀ p s q, f.Step p s q → s.words * M q ≤ M p) ∧
      ∀ p, nextAfter n fs ≤ p → M p = L p := by
  induction fs generalizing n with
  | nil => exact ⟨L, by simp, fun p _ => rfl⟩
  | cons f fs ih =>
    obtain ⟨K, hfs, hK⟩ := ih h.2
    obtain ⟨M, hlow, hhigh⟩ := exists_glued f.next f.wordsFrom K
    refine ⟨M, fun g hg => ?_, fun p hp => ?_⟩
    · rcases List.mem_cons.mp hg with rfl | hg
      · refine ⟨hlow _ h.1.entry.2, (hlow _ h.1.exit.2).symm ▸ g.one_le_wordsFrom_exit, ?_⟩
        intro p s q hs
        obtain ⟨⟨_, hp⟩, _, hq⟩ := h.1.edge p s q hs
        rw [hlow p hp, hlow q hq]
        exact words_mul_wordsFrom_le hs
      · have hw := (h.2.within g hg).1
        obtain ⟨hentry, hexit, hedge⟩ := hfs g hg
        refine ⟨(hhigh _ hw.entry.1).trans hentry, (hhigh _ hw.exit.1).symm ▸ hexit, ?_⟩
        intro p s q hs
        obtain ⟨⟨hp, _⟩, hq, _⟩ := hw.edge p s q hs
        rw [hhigh p hp, hhigh q hq]
        exact hedge p s q hs
    · rw [nextAfter_cons] at hp
      rw [hhigh p (h.2.le_nextAfter.trans hp), hK p hp]

theorem language_choice {n : Nat} {fs : List Fragment} (h : Consecutive n fs) :
    (choice (nextAfter n fs) fs).language = (fs.map language).sum := by
  apply le_antisymm
  · obtain ⟨L, hentry, hexit⟩ := exists_glued (nextAfter n fs + 1)
      (fun _ => (fs.map language).sum) (fun _ => 1)
    obtain ⟨M, hfs, hM⟩ := exists_glued_consecutive h L
    have hn : M (nextAfter n fs) = (fs.map language).sum :=
      (hM _ (le_refl _)).trans (hentry _ (Nat.lt_succ_self _))
    have hx : M (nextAfter n fs + 1) = 1 :=
      (hM _ (Nat.le_succ _)).trans (hexit _ (le_refl _))
    refine (language_le hx.ge fun p s q hs => ?_).trans hn.le
    obtain ⟨f, hf, hs⟩ := step_choice.mp hs
    obtain ⟨hfe, hfx, hedge⟩ := hfs f hf
    rcases hs with hs | ⟨rfl, rfl, rfl⟩ | ⟨rfl, rfl, rfl⟩
    · exact hedge p s q hs
    · rw [hn, hfe, Symbol.words_epsilon, one_mul]
      exact fun w hw => mem_list_sum.mpr ⟨_, List.mem_map.mpr ⟨f, hf, rfl⟩, hw⟩
    · rw [hx, Symbol.words_epsilon, one_mul]
      exact hfx
  · intro w hw
    obtain ⟨_, hL, hw⟩ := mem_list_sum.mp hw
    obtain ⟨f, hf, rfl⟩ := List.mem_map.mp hL
    obtain ⟨_, rfl, hw⟩ := hw
    have hin : (choice (nextAfter n fs) fs).Step (nextAfter n fs) .epsilon f.entry :=
      step_choice.mpr ⟨f, hf, .inr (.inl ⟨rfl, rfl, rfl⟩)⟩
    have hout : (choice (nextAfter n fs) fs).Step f.exit .epsilon (nextAfter n fs + 1) :=
      step_choice.mpr ⟨f, hf, .inr (.inr ⟨rfl, rfl, rfl⟩)⟩
    have hthrough : Walk (choice (nextAfter n fs) fs).Step f.entry w f.exit :=
      hw.mono fun p s q hs => step_choice.mpr ⟨f, hf, .inl hs⟩
    have hwalk := Walk.cons hin (hthrough.append (.edge hout))
    rw [Symbol.spelled_epsilon, List.nil_append, List.append_nil] at hwalk
    exact ⟨_, rfl, hwalk⟩

/-! ## A fragment in a loop -/

theorem step_loop {f : Fragment} {p q : Nat} {s : Symbol} :
    f.loop.Step p s q ↔ f.Step p s q ∨ s = .epsilon ∧
      (p = f.next ∧ (q = f.entry ∨ q = f.next + 1) ∨ p = f.exit ∧
        (q = f.next + 1 ∨ q = f.entry)) := by
  simp only [Step, loop, List.mem_append, List.mem_cons, Prod.mk.injEq, List.not_mem_nil, or_false]
  constructor
  · rintro (h | ⟨rfl, rfl, rfl⟩ | ⟨rfl, rfl, rfl⟩ | ⟨rfl, rfl, rfl⟩ | ⟨rfl, rfl, rfl⟩) <;>
      simp [*]
  · rintro (h | ⟨rfl, ⟨rfl, rfl | rfl⟩ | ⟨rfl, rfl | rfl⟩⟩) <;> simp [*]

theorem within_loop {f : Fragment} {n : Nat} (h : f.Within n) : f.loop.Within n where
  entry := ⟨h.le_next, by simp [loop]⟩
  exit := ⟨h.le_next.trans (Nat.le_succ _), by simp [loop]⟩
  edge p s q hs := by
    have hn := h.le_next
    have hentry := h.entry
    have hexit := h.exit
    simp only [loop]
    rcases step_loop.mp hs with hs | ⟨_, ⟨rfl, rfl | rfl⟩ | ⟨rfl, rfl | rfl⟩⟩
    · have := h.edge p s q hs
      omega
    all_goals omega

theorem language_loop {f : Fragment} {n : Nat} (h : f.Within n) :
    f.loop.language = f.language∗ := by
  apply le_antisymm
  · obtain ⟨L, hentry, hexit⟩ := exists_glued (f.next + 1) (fun _ => f.language∗) (fun _ => 1)
    obtain ⟨M, hlow, hhigh⟩ := exists_glued f.next (fun p => f.wordsFrom p * f.language∗) L
    have hn : M f.next = f.language∗ :=
      (hhigh _ (le_refl _)).trans (hentry _ (Nat.lt_succ_self _))
    have hx : M (f.next + 1) = 1 := (hhigh _ (Nat.le_succ _)).trans (hexit _ (le_refl _))
    have hfe : M f.entry ≤ f.language∗ := by
      rw [hlow _ h.entry.2]
      exact mul_kstar_le_kstar
    have hfx : f.language∗ ≤ M f.exit := by
      rw [hlow _ h.exit.2]
      calc f.language∗ = 1 * f.language∗ := (one_mul _).symm
        _ ≤ f.wordsFrom f.exit * f.language∗ := mul_le_mul_left f.one_le_wordsFrom_exit _
    refine (language_le hx.ge fun p s q hs => ?_).trans hn.le
    rcases step_loop.mp hs with hs | ⟨rfl, hends⟩
    · obtain ⟨⟨_, hp⟩, _, hq⟩ := h.edge p s q hs
      rw [hlow p hp, hlow q hq, ← mul_assoc]
      exact mul_le_mul_left (words_mul_wordsFrom_le hs) _
    · rw [Symbol.words_epsilon, one_mul]
      rcases hends with ⟨rfl, rfl | rfl⟩ | ⟨rfl, rfl | rfl⟩
      · exact hfe.trans hn.ge
      · exact hx.le.trans (one_le_kstar.trans hn.ge)
      · exact hx.le.trans (one_le_kstar.trans hfx)
      · exact hfe.trans hfx
  · have hskip : 1 ≤ f.loop.wordsFrom f.next :=
      f.loop.one_le_wordsFrom_exit.trans
        (wordsFrom_le_of_epsilon (step_loop.mpr (.inr ⟨rfl, .inl ⟨rfl, .inr rfl⟩⟩)))
    have henter : f.loop.wordsFrom f.entry ≤ f.loop.wordsFrom f.next :=
      wordsFrom_le_of_epsilon (step_loop.mpr (.inr ⟨rfl, .inl ⟨rfl, .inl rfl⟩⟩))
    have hleave : 1 ≤ f.loop.wordsFrom f.exit :=
      f.loop.one_le_wordsFrom_exit.trans
        (wordsFrom_le_of_epsilon (step_loop.mpr (.inr ⟨rfl, .inr ⟨rfl, .inl rfl⟩⟩)))
    have hagain : f.loop.wordsFrom f.entry ≤ f.loop.wordsFrom f.exit :=
      wordsFrom_le_of_epsilon (step_loop.mpr (.inr ⟨rfl, .inr ⟨rfl, .inr rfl⟩⟩))
    have hthrough : f.language * (1 + f.loop.wordsFrom f.entry) ≤ f.loop.wordsFrom f.entry := by
      calc f.language * (1 + f.loop.wordsFrom f.entry)
          ≤ f.language * f.loop.wordsFrom f.exit := mul_le_mul_right (add_le hleave hagain) _
        _ ≤ f.loop.wordsFrom f.entry :=
          language_mul_wordsFrom_le fun e he => List.mem_append_left _ he
    calc f.language∗ ≤ 1 + f.loop.wordsFrom f.entry :=
          kstar_le_of_mul_le_right (le_add_of_nonneg_right zero_le)
            (hthrough.trans (le_add_of_nonneg_left zero_le))
      _ ≤ f.loop.wordsFrom f.next := add_le hskip henter

end Fragment

/-! ## Fragments of trees -/

mutual

theorem within_fragment (n : Nat) : (r : Regex) → (fragment n r).Within n
  | empty => Fragment.within_leaf n _
  | epsilon => Fragment.within_leaf n _
  | literal _ => Fragment.within_leaf n _
  | concat rs => by
    have hrs := consecutive_fragments n rs
    rw [fragment]
    cases hfs : fragments n rs with
    | nil => exact Fragment.within_leaf n _
    | cons f fs =>
      rw [hfs] at hrs
      exact (Fragment.within_chain hrs.1 hrs.2).1
  | union rs => by
    rw [fragment]
    exact Fragment.within_choice (consecutive_fragments n rs)
  | star r => by
    rw [fragment]
    exact Fragment.within_loop (within_fragment n r)

theorem consecutive_fragments (n : Nat) :
    (rs : List Regex) → Fragment.Consecutive n (fragments n rs)
  | [] => trivial
  | r :: rs => by
    rw [fragments]
    exact ⟨within_fragment n r, consecutive_fragments _ rs⟩

end

mutual

/-- The words through the fragment of a tree are those it denotes. -/
theorem language_fragment (n : Nat) : (r : Regex) → (fragment n r).language = r.language
  | empty => by
    rw [fragment, Fragment.language_leaf]
    simp
  | epsilon => by
    rw [fragment, Fragment.language_leaf]
    simp
  | literal name => by
    rw [fragment, Fragment.language_leaf]
    simp
  | concat rs => by
    have hrs := consecutive_fragments n rs
    rw [fragment, language_concat, ← language_fragments n rs]
    cases hfs : fragments n rs with
    | nil => simp [Fragment.language_leaf]
    | cons f fs =>
      rw [hfs] at hrs
      exact Fragment.language_chain hrs.1 hrs.2
  | union rs => by
    rw [fragment, language_union, ← language_fragments n rs]
    exact Fragment.language_choice (consecutive_fragments n rs)
  | star r => by
    rw [fragment, language_star, ← language_fragment n r]
    exact Fragment.language_loop (within_fragment n r)

theorem language_fragments (n : Nat) :
    (rs : List Regex) → (fragments n rs).map Fragment.language = rs.map language
  | [] => rfl
  | r :: rs => by
    rw [fragments, List.map_cons, List.map_cons, language_fragment n r, language_fragments _ rs]

end

/-! ## The automaton of a tree -/

section

variable {f : Fragment} {alphabet : Alphabet}

theorem step_toAutomaton (h : f.Within 0) {p q : Nat} {s : Symbol} :
    (f.toAutomaton alphabet).Step p s q ↔ f.Step p s q := by
  unfold Automaton.Step Automaton.next Fragment.toAutomaton
  rw [List.getElem?_map]
  by_cases hp : p < f.next
  · simp [List.getElem?_range hp, State.next, Fragment.state, Table.mem_next_ofEdges, Fragment.Step]
  · have hnot : ¬ f.Step p s q := fun hs => hp (h.edge p s q hs).1.2
    simp [hp, hnot]

theorem isTerminal_toAutomaton (h : f.Within 0) {q : Nat} :
    (f.toAutomaton alphabet).isTerminal q = true ↔ q = f.exit := by
  have hexit := h.exit.2
  unfold Automaton.isTerminal Fragment.toAutomaton
  rw [List.getElem?_map]
  by_cases hq : q < f.next
  · simp [List.getElem?_range hq, Fragment.state]
  · have hne : q ≠ f.exit := by omega
    simp [hq, hne]

theorem wordsFrom_toAutomaton (h : f.Within 0) (q : Nat) :
    (f.toAutomaton alphabet).wordsFrom q = f.wordsFrom q := by
  unfold Automaton.wordsFrom Fragment.wordsFrom
  congr 1
  · funext p s q
    exact propext (step_toAutomaton h)
  · funext q
    exact propext (isTerminal_toAutomaton h)

theorem size_toAutomaton : (f.toAutomaton alphabet).size = f.next := by
  simp [Fragment.toAutomaton, Automaton.size]

theorem indexed_toAutomaton (f : Fragment) (alphabet : Alphabet) :
    (f.toAutomaton alphabet).Indexed := by
  intro i q hq
  rw [Fragment.toAutomaton, List.getElem?_map, Option.map_eq_some_iff] at hq
  obtain ⟨j, hj, rfl⟩ := hq
  obtain ⟨hi, rfl⟩ := List.getElem?_eq_some_iff.mp hj
  exact List.getElem_range hi

theorem wellFormed_toAutomaton (h : f.Within 0) : (f.toAutomaton alphabet).WellFormed := by
  rw [Automaton.WellFormed, size_toAutomaton]
  exact ⟨h.entry.2, fun p s q hs => (h.edge p s q ((step_toAutomaton h).mp hs)).2.2⟩

end

/-- The automaton of a tree accepts the words that the tree denotes. -/
theorem accepts_toAutomaton_iff (r : Regex) (alphabet : Alphabet) {w : Word} (hw : w.Plain) :
    (r.toAutomaton alphabet).accepts w = true ↔ w ∈ r.language := by
  have h := within_fragment 0 r
  rw [toAutomaton, Automaton.accepts_iff (wellFormed_toAutomaton h) hw, wordsFrom_toAutomaton h,
    ← language_fragment 0 r]
  rfl

end Acceptors.Regex
