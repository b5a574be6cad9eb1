import Acceptors.Proofs.Language.Registry

/-!
The registry as a map from handles to languages. A book remembers which ids were issued and whose
owner was dropped, and what each living one stands for; it says nothing of slots and generations.
Each call keeps the registry in line with a book (`Represents.perform`). Main statement:
`run_refines_book`.
-/

namespace Acceptors

/-- What a client asks of the registry. The function given with an id sees the language, may change
it, and answers something. -/
inductive Call (α : Type) where
  | register (l : Language)
  | withLanguage (id : LanguageId) (f : Language → α × Language)
  | isAlive (id : LanguageId)
  | live
  /-- The owner of the id goes. -/
  | dropOwner (id : LanguageId)

inductive Answer (α : Type) where
  | issued (id : LanguageId)
  | result (a : Option α)
  | flag (b : Bool)
  | count (n : Nat)
  | done

def Call.isRegister {α : Type} : Call α → Bool
  | register _ => true
  | _ => false

namespace Registry

variable {α : Type}

def perform (r : Registry) : Call α → Registry × Answer α
  | .register l =>
    let (r, id) := r.register l
    (r, .issued id)
  | .withLanguage id f =>
    (r.modify id fun l => (f l).2, .result ((r.find? id).map fun l => (f l).1))
  | .isAlive id => (r, .flag (r.isAlive id))
  | .live => (r, .count r.live)
  | .dropOwner id => (r.release id, .done)

/-- The registry after some calls, and what each of them answered. -/
def performAll (r : Registry) : List (Call α) → Registry × List (Answer α)
  | [] => (r, [])
  | call :: calls =>
    let (r, answer) := r.perform call
    let (r, answers) := r.performAll calls
    (r, answer :: answers)

/-- Every slot holds a language or waits in the free list, where it is listed once. -/
def SlotsAccounted (r : Registry) : Prop :=
  (∀ slot ∈ r.free, slot < r.slots.length) ∧
    ∀ (slot : Nat) s, r.slots[slot]? = some s →
      r.free.count slot = if s.language.isSome then 0 else 1

end Registry

structure Book where
  /-- Every id that some registration returned. -/
  issued : List LanguageId
  /-- Every id whose owner was dropped. -/
  dropped : List LanguageId
  language : LanguageId → Option Language

namespace Book

variable {α : Type}

def blank : Book := ⟨[], [], fun _ => none⟩

/-- Issued, and its owner not dropped. -/
def Alive (b : Book) (id : LanguageId) : Prop := id ∈ b.issued ∧ id ∉ b.dropped

instance (b : Book) (id : LanguageId) : Decidable (b.Alive id) :=
  inferInstanceAs (Decidable (id ∈ b.issued ∧ id ∉ b.dropped))

def enter (b : Book) (id : LanguageId) (l : Language) : Book :=
  ⟨id :: b.issued, b.dropped, Function.update b.language id (some l)⟩

def change (b : Book) (id : LanguageId) (f : Language → Language) : Book :=
  { b with language := Function.update b.language id ((b.language id).map f) }

/-- An owner is dropped once; an id without an owner changes nothing. -/
def drop (b : Book) (id : LanguageId) : Book :=
  if b.Alive id then ⟨b.issued, id :: b.dropped, Function.update b.language id none⟩ else b

/-- A call, an answer that the book allows, and the book afterwards. A registration may return any
id that was not issued before; everything else is determined by the book. -/
inductive Step : Book → Call α → Answer α → Book → Prop
  | register (b : Book) (l : Language) (id : LanguageId) :
      id ∉ b.issued → Step b (.register l) (.issued id) (b.enter id l)
  | withLanguage (b : Book) (id : LanguageId) (f : Language → α × Language) :
      Step b (.withLanguage id f) (.result ((b.language id).map fun l => (f l).1))
        (b.change id fun l => (f l).2)
  | isAlive (b : Book) (id : LanguageId) : Step b (.isAlive id) (.flag (decide (b.Alive id))) b
  | live (b : Book) : Step b .live (.count (b.issued.length - b.dropped.length)) b
  | dropOwner (b : Book) (id : LanguageId) : Step b (.dropOwner id) .done (b.drop id)

inductive Run : Book → List (Call α) → List (Answer α) → Book → Prop
  | nil (b : Book) : Run b [] [] b
  | cons {b b' b'' : Book} {call : Call α} {calls : List (Call α)} {answer : Answer α}
      {answers : List (Answer α)} :
      Step b call answer b' → Run b' calls answers b'' →
        Run b (call :: calls) (answer :: answers) b''

/-- The book tells what the registry does. -/
structure Represents (b : Book) (r : Registry) : Prop where
  sound : r.Sound b.issued.length
  mem_issued : ∀ id, id ∈ b.issued ↔ r.Issued id
  issued_of_dropped : ∀ id ∈ b.dropped, id ∈ b.issued
  find : ∀ id, r.find? id = b.language id
  alive : ∀ id, (b.language id).isSome = true ↔ b.Alive id
  live : r.live + b.dropped.length = b.issued.length

variable {b : Book} {r : Registry}

theorem represents_blank : blank.Represents Registry.empty where
  sound := Registry.sound_empty
  mem_issued id := by simp [blank, Registry.empty, Registry.Issued]
  issued_of_dropped id h := h
  find id := rfl
  alive id := by simp [blank, Alive]
  live := rfl

namespace Represents

theorem isAlive (h : b.Represents r) (id : LanguageId) : r.isAlive id = decide (b.Alive id) := by
  rw [Bool.eq_iff_iff, decide_eq_true_iff, ← h.alive, ← h.find, Registry.isAlive]

theorem not_mem_issued (h : b.Represents r) (l : Language) : (r.register l).2 ∉ b.issued :=
  fun hmem => h.sound.not_issued_register l ((h.mem_issued _).mp hmem)

theorem enter (h : b.Represents r) (l : Language) :
    (b.enter (r.register l).2 l).Represents (r.register l).1 where
  sound := h.sound.register l
  mem_issued key := by
    rw [h.sound.issued_register l, Book.enter, List.mem_cons, h.mem_issued]
  issued_of_dropped key hkey := List.mem_cons_of_mem _ (h.issued_of_dropped key hkey)
  find key := by
    rw [h.sound.find?_register l, h.find]
    exact (Function.update_apply ..).symm
  alive key := by
    have hfresh := h.not_mem_issued l
    have halive := h.alive key
    simp only [Book.enter, Alive, Function.update_apply, List.mem_cons] at halive ⊢
    by_cases hkey : key = (r.register l).2
    · subst hkey
      have hdropped := mt (h.issued_of_dropped _) hfresh
      simp [hdropped]
    · simp [hkey, halive]
  live := by
    have hlive := h.live
    simp only [Book.enter, h.sound.live_register l, List.length_cons]
    omega

theorem change (h : b.Represents r) (id : LanguageId) (f : Language → Language) :
    (b.change id f).Represents (r.modify id f) where
  sound := h.sound.modify id f
  mem_issued key := (h.mem_issued key).trans (Registry.issued_modify h.sound).symm
  issued_of_dropped := h.issued_of_dropped
  find key := by
    rw [Registry.find?_modify h.sound, h.find, h.find]
    exact (Function.update_apply ..).symm
  alive key := by
    refine Iff.trans ?_ (h.alive key)
    simp only [Book.change, Function.update_apply]
    split <;> simp_all
  live := (Registry.live_modify id f).symm ▸ h.live

theorem drop (h : b.Represents r) (hn : b.issued.length < 2 ^ 32) (id : LanguageId) :
    (b.drop id).Represents (r.release id) := by
  unfold Book.drop
  split <;> rename_i halive
  · obtain ⟨l, hl⟩ : ∃ l, r.find? id = some l := by
      rwa [← Registry.isAlive_iff, h.isAlive, decide_eq_true_iff]
    constructor
    · exact h.sound.release hn id
    · intro key
      rw [Registry.issued_release h.sound hn]
      exact h.mem_issued key
    · intro key hkey
      rcases List.mem_cons.mp hkey with rfl | hkey
      · exact halive.1
      · exact h.issued_of_dropped key hkey
    · intro key
      rw [Registry.find?_release h.sound, h.find]
      exact (Function.update_apply ..).symm
    · intro key
      have hbefore := h.alive key
      simp only [Alive, Function.update_apply, List.mem_cons] at hbefore ⊢
      by_cases hkey : key = id <;> simp [hkey, hbefore]
    · have hlive := h.live
      have hrelease := Registry.live_release hl
      simp only [List.length_cons]
      omega
  · have hnone : r.find? id = none := by
      rw [← Registry.isAlive_eq_false_iff, h.isAlive, decide_eq_false halive]
    rwa [Registry.release_of_none hnone]

/-- Every call keeps the registry in line with a book, and gives an answer that the book allows. -/
theorem perform (h : b.Represents r) (hn : b.issued.length < 2 ^ 32) (call : Call α) :
    ∃ b', Step b call (r.perform call).2 b' ∧ b'.Represents (r.perform call).1 ∧
      b'.issued.length = b.issued.length + if call.isRegister then 1 else 0 := by
  cases call with
  | register l => exact ⟨_, .register b l _ (h.not_mem_issued l), h.enter l, rfl⟩
  | withLanguage id f =>
    refine ⟨_, ?_, h.change id fun l => (f l).2, rfl⟩
    simp only [Registry.perform, h.find]
    exact .withLanguage b id f
  | isAlive id =>
    refine ⟨b, ?_, h, rfl⟩
    simp only [Registry.perform, h.isAlive]
    exact .isAlive b id
  | live =>
    have hlive : r.live = b.issued.length - b.dropped.length := Nat.eq_sub_of_add_eq h.live
    refine ⟨b, ?_, h, rfl⟩
    simp only [Registry.perform, hlive]
    exact .live b
  | dropOwner id =>
    refine ⟨_, .dropOwner b id, h.drop hn id, ?_⟩
    unfold Book.drop
    split <;> rfl

theorem performAll (h : b.Represents r) (calls : List (Call α))
    (hn : b.issued.length + calls.countP Call.isRegister < 2 ^ 32) :
    ∃ b', Run b calls (r.performAll calls).2 b' ∧ b'.Represents (r.performAll calls).1 := by
  induction calls generalizing b r with
  | nil => exact ⟨b, .nil b, h⟩
  | cons call calls ih =>
    rw [List.countP_cons] at hn
    obtain ⟨b₁, hstep, h₁, hlength⟩ := h.perform (by omega) call
    obtain ⟨b₂, hrun, h₂⟩ := ih h₁ (by omega)
    exact ⟨b₂, .cons hstep hrun, h₂⟩

theorem slotsAccounted (h : b.Represents r) : r.SlotsAccounted := by
  refine ⟨fun slot hslot => ?_, h.sound.count_free⟩
  obtain ⟨generation, hget⟩ := h.sound.empty_of_free slot hslot
  exact (List.getElem?_eq_some_iff.mp hget).1

end Represents

/-- With fewer than `2 ^ 32` registrations the answers of the registry are those of a map from fresh
ids to languages, and every slot is either in use or free, never both and never free twice. -/
theorem run_refines_book (calls : List (Call α)) (h : calls.countP Call.isRegister < 2 ^ 32) :
    (∃ b, Run blank calls (Registry.empty.performAll calls).2 b) ∧
      (Registry.empty.performAll calls).1.SlotsAccounted := by
  obtain ⟨b, hrun, hb⟩ := represents_blank.performAll calls (by simpa [blank] using h)
  exact ⟨⟨b, hrun⟩, hb.slotsAccounted⟩

/-- Two languages, the first of which is released, so that a third one takes its slot. -/
def recycling : List (Call Nat) :=
  let count (id : LanguageId) : Call Nat := .withLanguage id fun l => (l.alphabet.size, l)
  let learn (id : LanguageId) : Call Nat := .withLanguage id fun l => (0, l.learn (.pumpLength 3))
  [.register (.ofAlphabet ∅), .register (.ofAlphabet ∅), .dropOwner ⟨0, 0⟩,
    .register (.ofAlphabet (SortedSet.singleton (.literal "a"))), .isAlive ⟨0, 0⟩, learn ⟨0, 0⟩,
    count ⟨0, 0⟩, count ⟨0, 1⟩, .dropOwner ⟨0, 0⟩, .live]

theorem run_refines_book_recycling :
    recycling.countP Call.isRegister < 2 ^ 32 ∧
      (Registry.empty.performAll recycling).1.free = [] ∧
      (∃ b, Run blank recycling (Registry.empty.performAll recycling).2 b) ∧
      (Registry.empty.performAll recycling).1.SlotsAccounted :=
  have h : recycling.countP Call.isRegister < 2 ^ 32 := by decide
  ⟨h, by decide, run_refines_book recycling h⟩

end Book

end Acceptors
