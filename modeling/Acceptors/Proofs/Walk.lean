import Acceptors.Symbol
import Acceptors.Proofs.Exploration
import Mathlib.Order.FixedPoints
import Mathlib.Order.CompletePartialOrder
import Mathlib.Computability.Language

/-!
Walks in labelled graphs and the words they spell, epsilon being left out. Main statements: the
words that lead to a terminal node are the least labelling of the graph (`labelling_wordsTo`,
`Labelling.wordsTo_le`), a simulation carries words over (`wordsTo_le_of_simulation`), and a
covering keeps them (`Covering.wordsTo_eq`).
-/

/-- Sets of words, with union as sum, concatenation as product and the closure as star. -/
abbrev WordSet (α : Type) : Type := Language α

namespace Acceptors

open Computability

theorem mem_list_sum {α : Type} {sets : List (WordSet α)} {w : List α} :
    w ∈ sets.sum ↔ ∃ L ∈ sets, w ∈ L := by
  induction sets with
  | nil => simp
  | cons L sets ih =>
    rw [List.sum_cons, Language.mem_add, ih]
    simp

theorem list_sum_le_iff {α : Type} {sets : List (WordSet α)} {L : WordSet α} :
    sets.sum ≤ L ↔ ∀ K ∈ sets, K ≤ L := by
  constructor
  · exact fun h K hK w hw => h (mem_list_sum.mpr ⟨K, hK, hw⟩)
  · intro h w hw
    obtain ⟨K, hK, hw⟩ := mem_list_sum.mp hw
    exact h K hK hw

/-! ## Words of symbols -/

namespace Symbol

/-- What an edge with this label adds to the word of a walk. -/
def spelled : Symbol → Word
  | epsilon => []
  | s => [s]

/-- The word of a label alone. -/
def words (s : Symbol) : WordSet Symbol := {s.spelled}

@[simp] theorem spelled_epsilon : spelled epsilon = [] := rfl

theorem spelled_of_ne {s : Symbol} (h : s ≠ epsilon) : s.spelled = [s] := by
  cases s with
  | epsilon => exact absurd rfl h
  | literal _ => rfl
  | ref _ => rfl

@[simp] theorem mem_words {s : Symbol} {w : Word} : w ∈ s.words ↔ w = s.spelled := Iff.rfl

@[simp] theorem words_epsilon : words epsilon = 1 := rfl

theorem mem_words_mul {s : Symbol} {K : WordSet Symbol} {w : Word} :
    w ∈ s.words * K ↔ ∃ v ∈ K, w = s.spelled ++ v := by
  constructor
  · intro h
    obtain ⟨u, rfl, v, hv, rfl⟩ := Language.mem_mul.mp h
    exact ⟨v, hv, rfl⟩
  · rintro ⟨v, hv, rfl⟩
    exact Language.append_mem_mul rfl hv

theorem words_mul_le {s : Symbol} {K L : WordSet Symbol} :
    s.words * K ≤ L ↔ ∀ w ∈ K, s.spelled ++ w ∈ L := by
  constructor
  · exact fun h w hw => h (mem_words_mul.mpr ⟨w, hw, rfl⟩)
  · intro h w hw
    obtain ⟨v, hv, rfl⟩ := mem_words_mul.mp hw
    exact h v hv

end Symbol

/-- Epsilon does not occur. -/
def Word.Plain (w : Word) : Prop := Symbol.epsilon ∉ w

instance (w : Word) : Decidable w.Plain := inferInstanceAs (Decidable (Symbol.epsilon ∉ w))

theorem Word.plain_spelled (s : Symbol) : Word.Plain s.spelled := by
  cases s <;> simp [Plain, Symbol.spelled]

/-- Every symbol is one of the alphabet. -/
def Word.Over (alphabet : Alphabet) (w : Word) : Prop := ∀ s ∈ w, s ∈ alphabet

instance (alphabet : Alphabet) (w : Word) : Decidable (w.Over alphabet) :=
  inferInstanceAs (Decidable (∀ s ∈ w, s ∈ alphabet))

namespace Word

variable {alphabet : Alphabet} {u v w : Word} {s : Symbol}

theorem over_nil : Over alphabet [] := fun _ h => absurd h List.not_mem_nil

theorem over_cons_iff : Over alphabet (s :: w) ↔ s ∈ alphabet ∧ Over alphabet w := by simp [Over]

theorem over_append_iff : Over alphabet (u ++ v) ↔ Over alphabet u ∧ Over alphabet v :=
  List.forall_mem_append

end Word

/-! ## Walks -/

/-- A walk along labelled edges, and the word that it spells. -/
inductive Walk {α : Type} (E : α → Symbol → α → Prop) : α → Word → α → Prop
  | nil (x : α) : Walk E x [] x
  | cons {x y z : α} {s : Symbol} {w : Word} :
      E x s y → Walk E y w z → Walk E x (s.spelled ++ w) z

section Walks

variable {α β : Type} {E : α → Symbol → α → Prop} {T : α → Prop}

theorem Walk.edge {x y : α} {s : Symbol} (h : E x s y) : Walk E x s.spelled y := by
  have hw := Walk.cons h (Walk.nil y)
  rwa [List.append_nil] at hw

theorem Walk.append {x y z : α} {u v : Word} (hu : Walk E x u y) (hv : Walk E y v z) :
    Walk E x (u ++ v) z := by
  induction hu with
  | nil _ => exact hv
  | cons he _ ih =>
    rw [List.append_assoc]
    exact .cons he (ih hv)

theorem Walk.mono {E' : α → Symbol → α → Prop} (h : ∀ x s y, E x s y → E' x s y) {x y : α}
    {w : Word} (hw : Walk E x w y) : Walk E' x w y := by
  induction hw with
  | nil x => exact .nil x
  | cons he _ ih => exact .cons (h _ _ _ he) ih

theorem Walk.plain {x y : α} {w : Word} (h : Walk E x w y) : w.Plain := by
  induction h with
  | nil _ => exact List.not_mem_nil
  | @cons _ _ _ s _ _ _ ih =>
    intro hmem
    rcases List.mem_append.mp hmem with hmem | hmem
    · exact Word.plain_spelled s hmem
    · exact ih hmem

/-- What every edge keeps holds at the end of a walk. -/
theorem Walk.keeps {I : α → Prop} {x y : α} {w : Word} (h : Walk E x w y)
    (hI : ∀ x s y, E x s y → I x → I y) (hx : I x) : I y := by
  induction h with
  | nil _ => exact hx
  | cons he _ ih => exact ih (hI _ _ _ he hx)

/-- A walk with a first symbol takes epsilon edges until an edge reads that symbol. -/
theorem Walk.split_cons {x z : α} {s : Symbol} {v : Word} (h : Walk E x (s :: v) z) :
    ∃ y y', Walk E x [] y ∧ E y s y' ∧ Walk E y' v z := by
  generalize hw : s :: v = w at h
  induction h with
  | nil _ => cases hw
  | @cons x y z r u he hu ih =>
    by_cases hr : r = .epsilon
    · subst hr
      obtain ⟨a, b, ha, hab, hb⟩ := ih hw
      exact ⟨a, b, .cons he ha, hab, hb⟩
    · rw [Symbol.spelled_of_ne hr] at hw
      cases hw
      exact ⟨x, y, .nil x, he, hu⟩

/-- A walk that spells nothing takes epsilon edges only. -/
theorem Walk.nil_iff {x z : α} :
    Walk E x [] z ↔ Relation.ReflTransGen (fun x y => E x .epsilon y) x z := by
  constructor
  · intro h
    generalize hw : ([] : Word) = w at h
    induction h with
    | nil _ => exact .refl
    | @cons x y z s u he _ ih =>
      by_cases hs : s = .epsilon
      · subst hs
        exact .head he (ih hw)
      · rw [Symbol.spelled_of_ne hs] at hw
        cases hw
  · intro h
    induction h with
    | refl => exact .nil x
    | tail _ he ih => exact ih.append (Walk.edge he)

theorem Walk.nil_iff_eq (hE : ∀ x y, ¬ E x .epsilon y) {x z : α} : Walk E x [] z ↔ x = z := by
  rw [Walk.nil_iff]
  constructor
  · intro h
    rcases h.cases_head with rfl | ⟨y, hy, _⟩
    · rfl
    · exact absurd hy (hE x y)
  · rintro rfl
    exact .refl

/-- Without epsilon edges the first symbol of a word is read at once. -/
theorem Walk.cons_iff (hE : ∀ x y, ¬ E x .epsilon y) {x z : α} {s : Symbol} {w : Word} :
    Walk E x (s :: w) z ↔ ∃ y, E x s y ∧ Walk E y w z := by
  constructor
  · intro h
    obtain ⟨x', y, hx', hs, hw⟩ := h.split_cons
    obtain rfl := (Walk.nil_iff_eq hE).mp hx'
    exact ⟨y, hs, hw⟩
  · rintro ⟨y, hs, hw⟩
    have hne : s ≠ .epsilon := fun h => hE x y (h ▸ hs)
    have hwalk := Walk.cons hs hw
    rwa [Symbol.spelled_of_ne hne] at hwalk

/-- Without epsilon edges a word is read part by part. -/
theorem Walk.append_iff (hE : ∀ x y, ¬ E x .epsilon y) {x z : α} {u v : Word} :
    Walk E x (u ++ v) z ↔ ∃ y, Walk E x u y ∧ Walk E y v z := by
  induction u generalizing x with
  | nil => simp [Walk.nil_iff_eq hE]
  | cons s u ih =>
    rw [List.cons_append, Walk.cons_iff hE]
    simp only [ih, Walk.cons_iff hE]
    constructor
    · rintro ⟨y, hs, y', hu, hv⟩
      exact ⟨y', ⟨y, hs, hu⟩, hv⟩
    · rintro ⟨y', ⟨y, hs, hu⟩, hv⟩
      exact ⟨y, hs, y', hu, hv⟩

/-- Steps along edges of any label are walks of any word. -/
theorem leads_iff_walk {next : α → List α} (hnext : ∀ x y, y ∈ next x ↔ ∃ s, E x s y) {x y : α} :
    Leads next x y ↔ ∃ w, Walk E x w y := by
  constructor
  · intro h
    induction h with
    | refl => exact ⟨[], .nil x⟩
    | tail _ he ih =>
      obtain ⟨w, hw⟩ := ih
      obtain ⟨s, hs⟩ := (hnext _ _).mp he
      exact ⟨_, hw.append (.edge hs)⟩
  · rintro ⟨w, hw⟩
    induction hw with
    | nil x => exact .refl
    | cons he _ ih => exact .head ((hnext _ _).mpr ⟨_, he⟩) ih

/-! ## Words that lead to a terminal node -/

def wordsTo (E : α → Symbol → α → Prop) (T : α → Prop) (x : α) : WordSet Symbol :=
  {w | ∃ y, T y ∧ Walk E x w y}

/-- Sets of words for the nodes that contain the empty word at terminal nodes and grow backwards
along edges. -/
structure Labelling (E : α → Symbol → α → Prop) (T : α → Prop) (K : α → WordSet Symbol) :
    Prop where
  terminal : ∀ x, T x → 1 ≤ K x
  edge : ∀ x s y, E x s y → s.words * K y ≤ K x

theorem labelling_wordsTo : Labelling E T (wordsTo E T) where
  terminal x hx := by
    rintro w rfl
    exact ⟨x, hx, .nil x⟩
  edge x s y he := by
    rw [Symbol.words_mul_le]
    rintro w ⟨z, hz, hw⟩
    exact ⟨z, hz, .cons he hw⟩

/-- The words that lead to terminal nodes are the least labelling. -/
theorem Labelling.wordsTo_le {K : α → WordSet Symbol} (h : Labelling E T K) (x : α) :
    wordsTo E T x ≤ K x := by
  rintro w ⟨y, hy, hw⟩
  induction hw with
  | nil x => exact h.terminal x hy rfl
  | cons he _ ih => exact Symbol.words_mul_le.mp (h.edge _ _ _ he) _ (ih hy)

theorem nil_mem_wordsTo (hE : ∀ x y, ¬ E x .epsilon y) {x : α} : [] ∈ wordsTo E T x ↔ T x := by
  constructor
  · rintro ⟨y, hy, hw⟩
    rwa [(Walk.nil_iff_eq hE).mp hw]
  · exact fun h => labelling_wordsTo.terminal x h rfl

theorem append_mem_wordsTo (hE : ∀ x y, ¬ E x .epsilon y) {x : α} {u v : Word} :
    u ++ v ∈ wordsTo E T x ↔ ∃ y, Walk E x u y ∧ v ∈ wordsTo E T y := by
  constructor
  · rintro ⟨z, hz, hw⟩
    obtain ⟨y, hu, hv⟩ := (Walk.append_iff hE).mp hw
    exact ⟨y, hu, z, hz, hv⟩
  · rintro ⟨y, hu, z, hz, hv⟩
    exact ⟨z, hz, hu.append hv⟩

theorem cons_mem_wordsTo (hE : ∀ x y, ¬ E x .epsilon y) {x : α} {s : Symbol} {w : Word} :
    s :: w ∈ wordsTo E T x ↔ ∃ y, E x s y ∧ w ∈ wordsTo E T y := by
  constructor
  · rintro ⟨z, hz, hw⟩
    obtain ⟨y, hs, hw⟩ := (Walk.cons_iff hE).mp hw
    exact ⟨y, hs, z, hz, hw⟩
  · rintro ⟨y, hs, z, hz, hw⟩
    exact ⟨z, hz, (Walk.cons_iff hE).mpr ⟨y, hs, hw⟩⟩

/-- A simulation carries words over. Edges to nodes from which no word leads on need no
counterpart. -/
theorem wordsTo_le_of_simulation {E' : β → Symbol → β → Prop} {T' : β → Prop} {R : α → β → Prop}
    (hT : ∀ x y, R x y → T x → T' y)
    (hE : ∀ x y s x', R x y → E x s x' → (∃ w, w ∈ wordsTo E T x') → ∃ y', E' y s y' ∧ R x' y')
    {x : α} {y : β} (hxy : R x y) : wordsTo E T x ≤ wordsTo E' T' y := by
  rintro w ⟨z, hz, hw⟩
  induction hw generalizing y with
  | nil x => exact ⟨y, hT x y hxy hz, .nil y⟩
  | cons he hw ih =>
    obtain ⟨y', he', hy'⟩ := hE _ _ _ _ hxy he ⟨_, _, hz, hw⟩
    obtain ⟨z', hz', hw'⟩ := ih hy' hz
    exact ⟨z', hz', .cons he' hw'⟩

/-! ## Coverings -/

/-- A map of nodes under which the edges from the image of a node are the images of its edges. The
nodes that count are those with `P`, which edges keep. -/
structure Covering (E : α → Symbol → α → Prop) (T : α → Prop) (E' : β → Symbol → β → Prop)
    (T' : β → Prop) (P : α → Prop) (f : α → β) : Prop where
  closed : ∀ x s y, P x → E x s y → P y
  terminal : ∀ x, P x → (T' (f x) ↔ T x)
  edge : ∀ x s j, P x → (E' (f x) s j ↔ ∃ y, E x s y ∧ f y = j)

theorem Covering.walk {E' : β → Symbol → β → Prop} {T' : β → Prop} {P : α → Prop} {f : α → β}
    (h : Covering E T E' T' P f) {x y : α} {w : Word} (hw : Walk E x w y) (hx : P x) :
    Walk E' (f x) w (f y) := by
  induction hw with
  | nil x => exact .nil _
  | cons hs _ ih => exact .cons ((h.edge _ _ _ hx).mpr ⟨_, hs, rfl⟩) (ih (h.closed _ _ _ hx hs))

/-- A walk from the image of a node is the image of a walk. -/
theorem Covering.exists_walk {E' : β → Symbol → β → Prop} {T' : β → Prop} {P : α → Prop} {f : α → β}
    (h : Covering E T E' T' P f) {x : α} {j : β} {w : Word} (hx : P x) (hw : Walk E' (f x) w j) :
    ∃ y, P y ∧ f y = j ∧ Walk E x w y := by
  generalize hi : f x = i at hw
  induction hw generalizing x with
  | nil i => exact ⟨x, hx, hi, .nil x⟩
  | cons hs _ ih =>
    obtain ⟨y, hy, hj⟩ := (h.edge _ _ _ hx).mp (hi ▸ hs)
    obtain ⟨z, hz, hk, hw⟩ := ih (h.closed _ _ _ hx hy) hj
    exact ⟨z, hz, hk, .cons hy hw⟩

/-- A node and its image have the same words. -/
theorem Covering.wordsTo_eq {E' : β → Symbol → β → Prop} {T' : β → Prop} {P : α → Prop} {f : α → β}
    (h : Covering E T E' T' P f) {x : α} (hx : P x) : wordsTo E' T' (f x) = wordsTo E T x := by
  apply le_antisymm
  · refine wordsTo_le_of_simulation (R := fun j x => P x ∧ f x = j) ?_ ?_ ⟨hx, rfl⟩
    · rintro _ x ⟨hx, rfl⟩ ht
      exact (h.terminal x hx).mp ht
    · rintro _ x s j ⟨hx, rfl⟩ hs _
      obtain ⟨y, hy, rfl⟩ := (h.edge x s j hx).mp hs
      exact ⟨y, hy, h.closed x s y hx hy, rfl⟩
  · refine wordsTo_le_of_simulation (R := fun x j => P x ∧ f x = j) ?_ ?_ ⟨hx, rfl⟩
    · rintro x _ ⟨hx, rfl⟩ ht
      exact (h.terminal x hx).mpr ht
    · rintro x _ s y ⟨hx, rfl⟩ hs _
      exact ⟨f y, (h.edge x s (f y) hx).mpr ⟨y, hs, rfl⟩, h.closed x s y hx hs, rfl⟩

end Walks

end Acceptors
