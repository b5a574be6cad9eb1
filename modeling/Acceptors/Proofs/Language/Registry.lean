import Acceptors.Language.Registry
import Mathlib.Tactic

/-!
What the operations of the registry do to ids. Every operation writes one slot at most (`Writes`). A
registry is `Sound` for `n` registrations if its free list has exactly the empty slots and no slot
was used more than `n` times; then a registered id was never issued before
(`Sound.not_issued_register`), and each operation changes what one id finds (`Sound.find?_register`,
`find?_modify`, `find?_release`).
-/

namespace Acceptors

theorem LanguageId.eq_iff {id key : LanguageId} :
    key = id ↔ key.slot = id.slot ∧ key.generation = id.generation := by
  cases key
  cases id
  simp

namespace Registry

variable {r r' : Registry} {id key : LanguageId} {l : Language} {f : Language → Language} {n : Nat}

/-! ## Ids and slots -/

theorem find?_eq_some_iff :
    r.find? id = some l ↔ r.slots[id.slot]? = some ⟨id.generation, some l⟩ := by
  unfold find?
  cases hs : r.slots[id.slot]? with
  | none => simp
  | some s =>
    obtain ⟨generation, language⟩ := s
    by_cases hg : generation = id.generation <;> simp [hg]

theorem isAlive_iff : r.isAlive id = true ↔ ∃ l, r.find? id = some l := by
  rw [isAlive, Option.isSome_iff_exists]

theorem isAlive_eq_false_iff : r.isAlive id = false ↔ r.find? id = none := by
  rw [isAlive, Option.isSome_eq_false_iff, Option.isNone_iff_eq_none]

/-- Only one id of a slot finds its language. -/
theorem find?_eq_none_of_slot (h : r.find? id = some l) (hslot : key.slot = id.slot)
    (hgeneration : key.generation ≠ id.generation) : r.find? key = none := by
  rw [find?, hslot, find?_eq_some_iff.mp h]
  exact if_neg (Ne.symm hgeneration)

/-- An id was issued for a slot if its generation has passed, or is the present one and its language
is still there. -/
def Slot.Issued (s : Slot) (generation : UInt32) : Prop :=
  generation < s.generation ∨ generation = s.generation ∧ s.language.isSome = true

/-- Some registration returned the id. -/
def Issued (r : Registry) (id : LanguageId) : Prop :=
  ∃ s, r.slots[id.slot]? = some s ∧ s.Issued id.generation

theorem issued_of_isAlive (h : r.isAlive id = true) : r.Issued id := by
  obtain ⟨l, hl⟩ := isAlive_iff.mp h
  exact ⟨_, find?_eq_some_iff.mp hl, .inr ⟨rfl, rfl⟩⟩

/-- How often a slot was used: once for each generation before, and once more if it has a
language. -/
def Slot.uses (s : Slot) : Nat := s.generation.toNat + if s.language.isSome then 1 else 0

structure Sound (r : Registry) (n : Nat) : Prop where
  empty_of_free : ∀ slot ∈ r.free, ∃ generation, r.slots[slot]? = some ⟨generation, none⟩
  count_free : ∀ (slot : Nat) s, r.slots[slot]? = some s →
    r.free.count slot = if s.language.isSome then 0 else 1
  uses_le : ∀ (slot : Nat) s, r.slots[slot]? = some s → s.uses ≤ n

theorem sound_empty : empty.Sound 0 where
  empty_of_free := by simp [empty]
  count_free := by simp [empty]
  uses_le := by simp [empty]

/-! ## Writing a slot -/

/-- The registries differ in one slot, and in whether it is free. -/
structure Writes (r : Registry) (slot : Nat) (s : Slot) (r' : Registry) : Prop where
  slots : ∀ i, r'.slots[i]? = if i = slot then some s else r.slots[i]?
  free : ∀ i, r'.free.count i =
    if i = slot then if s.language.isSome then 0 else 1 else r.free.count i

namespace Writes

variable {slot : Nat} {s : Slot}

theorem sound (h : r.Writes slot s r') (hr : r.Sound n) {m : Nat} (hnm : n ≤ m) (hs : s.uses ≤ m) :
    r'.Sound m where
  empty_of_free i hi := by
    have hcount : 0 < r'.free.count i := List.count_pos_iff.mpr hi
    rw [h.free] at hcount
    rw [h.slots]
    split <;> rename_i heq
    · obtain ⟨generation, language⟩ := s
      cases language <;> simp_all
    · rw [if_neg heq] at hcount
      exact hr.empty_of_free i (List.count_pos_iff.mp hcount)
  count_free i t ht := by
    rw [h.slots] at ht
    rw [h.free]
    split at ht
    · cases ht
      simp_all
    · simp_all [hr.count_free i t ht]
  uses_le i t ht := by
    rw [h.slots] at ht
    split at ht
    · cases ht
      exact hs
    · exact (hr.uses_le i t ht).trans hnm

theorem find? (h : r.Writes slot s r') (key : LanguageId) :
    r'.find? key =
      if key.slot = slot then if s.generation = key.generation then s.language else none
      else r.find? key := by
  unfold Registry.find?
  rw [h.slots]
  by_cases heq : key.slot = slot <;> simp [heq]

theorem issued_iff (h : r.Writes slot s r') :
    r'.Issued key ↔ if key.slot = slot then s.Issued key.generation else r.Issued key := by
  unfold Registry.Issued
  rw [h.slots]
  split <;> simp

end Writes

/-! ## Registration -/

/-- A registration writes a slot that is empty or new, under the generation of its id. -/
theorem Sound.writes_register (h : r.Sound n) (l : Language) :
    r.Writes (r.register l).2.slot ⟨(r.register l).2.generation, some l⟩ (r.register l).1 ∧
      ((r.register l).2.generation = 0 ∧ r.slots[(r.register l).2.slot]? = none ∨
        r.slots[(r.register l).2.slot]? = some ⟨(r.register l).2.generation, none⟩) := by
  unfold register
  split
  · rename_i hfree
    refine ⟨⟨fun i => ?_, fun i => ?_⟩, .inl ⟨rfl, by simp⟩⟩
    · show (r.slots ++ [_])[i]? = if i = r.slots.length then _ else _
      rw [List.getElem?_append]
      rcases Nat.lt_trichotomy i r.slots.length with hlt | rfl | hgt
      · rw [if_pos hlt, if_neg (by omega)]
      · simp
      · rw [if_neg (by omega), if_neg (by omega), List.getElem?_eq_none (by simp; omega),
          List.getElem?_eq_none (by omega)]
    · simp [hfree]
  · rename_i slot free hfree
    obtain ⟨generation, hget⟩ := h.empty_of_free slot (by simp [hfree])
    obtain ⟨hlt, _⟩ := List.getElem?_eq_some_iff.mp hget
    have hcount := h.count_free slot _ hget
    rw [hfree, List.count_cons_self] at hcount
    refine ⟨⟨fun i => ?_, fun i => ?_⟩, .inr ?_⟩
    · simp only [generationAt, hget, List.getElem?_set, hlt, ↓reduceIte, eq_comm (a := slot)]
    · by_cases heq : i = slot
      · simp_all
      · simp [heq, hfree, List.count_cons_of_ne (Ne.symm heq)]
    · simp [generationAt, hget]

theorem Sound.find?_register (h : r.Sound n) (l : Language) (key : LanguageId) :
    (r.register l).1.find? key = if key = (r.register l).2 then some l else r.find? key := by
  obtain ⟨hwrites, hslot⟩ := h.writes_register l
  rw [hwrites.find?]
  by_cases hkey : key.slot = (r.register l).2.slot
  · have hnone : r.find? key = none := by
      unfold find?
      rw [hkey]
      rcases hslot with ⟨_, hnone⟩ | hempty
      · rw [hnone]
      · simp [hempty]
    simp [LanguageId.eq_iff, hkey, hnone, eq_comm]
  · simp [LanguageId.eq_iff, hkey]

/-- No registration returns an id that was returned before. -/
theorem Sound.not_issued_register (h : r.Sound n) (l : Language) : ¬ r.Issued (r.register l).2 := by
  rintro ⟨s, hs, hissued⟩
  obtain ⟨_, ⟨_, hnone⟩ | hempty⟩ := h.writes_register l
  · simp [hnone] at hs
  · cases hempty.symm.trans hs
    simp [Slot.Issued] at hissued

theorem Sound.issued_register (h : r.Sound n) (l : Language) :
    (r.register l).1.Issued key ↔ key = (r.register l).2 ∨ r.Issued key := by
  obtain ⟨hwrites, hslot⟩ := h.writes_register l
  rw [hwrites.issued_iff]
  by_cases hkey : key.slot = (r.register l).2.slot
  · rcases hslot with ⟨hzero, hnone⟩ | hempty
    · simp [LanguageId.eq_iff, hkey, Issued, Slot.Issued, hnone, hzero]
    · simp [LanguageId.eq_iff, hkey, Issued, Slot.Issued, hempty, or_comm]
  · simp [LanguageId.eq_iff, hkey]

theorem Sound.register (h : r.Sound n) (l : Language) : (r.register l).1.Sound (n + 1) := by
  obtain ⟨hwrites, hslot⟩ := h.writes_register l
  refine hwrites.sound h (by omega) ?_
  rcases hslot with ⟨hzero, _⟩ | hempty
  · simp [Slot.uses, hzero]
  · have := h.uses_le _ _ hempty
    simp_all [Slot.uses]

/-! ## Changes -/

theorem modify_of_none (h : r.find? id = none) : r.modify id f = r := by
  unfold modify
  rw [h]

theorem modify_of_some (h : r.find? id = some l) :
    r.modify id f = { r with slots := r.slots.set id.slot ⟨id.generation, some (f l)⟩ } := by
  unfold modify
  rw [h]

theorem writes_modify (h : r.find? id = some l) (hr : r.Sound n) :
    r.Writes id.slot ⟨id.generation, some (f l)⟩ (r.modify id f) := by
  have hs := find?_eq_some_iff.mp h
  obtain ⟨hlt, _⟩ := List.getElem?_eq_some_iff.mp hs
  have hcount := hr.count_free _ _ hs
  rw [modify_of_some h]
  constructor
  · intro i
    simp only [List.getElem?_set, hlt, ↓reduceIte, eq_comm (a := id.slot)]
  · intro i
    split <;> simp_all

theorem find?_modify (hr : r.Sound n) (id key : LanguageId) (f : Language → Language) :
    (r.modify id f).find? key = if key = id then (r.find? id).map f else r.find? key := by
  cases h : r.find? id with
  | none =>
    rw [modify_of_none h]
    split <;> simp_all
  | some l =>
    rw [(writes_modify h hr).find?]
    by_cases hslot : key.slot = id.slot
    · by_cases hgeneration : key.generation = id.generation
      · simp [LanguageId.eq_iff, hslot, hgeneration]
      · have hnone := find?_eq_none_of_slot h hslot hgeneration
        simp [LanguageId.eq_iff, hslot, hgeneration, hnone, Ne.symm hgeneration]
    · simp [LanguageId.eq_iff, hslot]

theorem isAlive_modify (hr : r.Sound n) (id key : LanguageId) (f : Language → Language) :
    (r.modify id f).isAlive key = r.isAlive key := by
  rw [isAlive, find?_modify hr]
  split <;> simp_all [isAlive]

theorem issued_modify (hr : r.Sound n) : (r.modify id f).Issued key ↔ r.Issued key := by
  cases h : r.find? id with
  | none => rw [modify_of_none h]
  | some l =>
    rw [(writes_modify h hr).issued_iff]
    by_cases hslot : key.slot = id.slot
    · simp [hslot, Issued, find?_eq_some_iff.mp h, Slot.Issued]
    · simp [hslot]

theorem Sound.modify (hr : r.Sound n) (id : LanguageId) (f : Language → Language) :
    (r.modify id f).Sound n := by
  cases h : r.find? id with
  | none => rwa [modify_of_none h]
  | some l =>
    have huses := hr.uses_le _ _ (find?_eq_some_iff.mp h)
    exact (writes_modify h hr).sound hr le_rfl (by simpa [Slot.uses] using huses)

/-- A registry that learns a fact keeps the ids it issued. -/
theorem issued_learn (id : LanguageId) (fact : Fact) (h : r.Sound n ∧ r.Issued key) :
    (r.learn id fact).Sound n ∧ (r.learn id fact).Issued key :=
  ⟨h.1.modify id _, (issued_modify h.1).mpr h.2⟩

/-! ## Release -/

theorem release_of_none (h : r.find? id = none) : r.release id = r := by
  unfold release
  rw [h]

theorem release_of_some (h : r.find? id = some l) :
    r.release id = ⟨r.slots.set id.slot ⟨id.generation + 1, none⟩, id.slot :: r.free⟩ := by
  unfold release
  rw [h]

theorem writes_release (h : r.find? id = some l) (hr : r.Sound n) :
    r.Writes id.slot ⟨id.generation + 1, none⟩ (r.release id) := by
  have hs := find?_eq_some_iff.mp h
  obtain ⟨hlt, _⟩ := List.getElem?_eq_some_iff.mp hs
  have hcount := hr.count_free _ _ hs
  rw [release_of_some h]
  constructor
  · intro i
    simp only [List.getElem?_set, hlt, ↓reduceIte, eq_comm (a := id.slot)]
  · intro i
    by_cases heq : i = id.slot
    · simp_all
    · simp [heq, List.count_cons_of_ne (Ne.symm heq)]

/-- After a release its id finds nothing, and neither does another id of the slot. -/
theorem find?_release (hr : r.Sound n) (id key : LanguageId) :
    (r.release id).find? key = if key = id then none else r.find? key := by
  cases h : r.find? id with
  | none =>
    rw [release_of_none h]
    split <;> simp_all
  | some l =>
    rw [(writes_release h hr).find?]
    by_cases hslot : key.slot = id.slot
    · by_cases hgeneration : key.generation = id.generation
      · simp [LanguageId.eq_iff, hslot, hgeneration]
      · have hnone := find?_eq_none_of_slot h hslot hgeneration
        simp [LanguageId.eq_iff, hslot, hgeneration, hnone]
    · simp [LanguageId.eq_iff, hslot]

/-- The next generation of a slot that is not used up comes after the present one. -/
theorem toNat_succ_generation (h : r.find? id = some l) (hr : r.Sound n) (hn : n < 2 ^ 32) :
    (id.generation + 1).toNat = id.generation.toNat + 1 := by
  have huses := hr.uses_le _ _ (find?_eq_some_iff.mp h)
  simp only [Slot.uses, Option.isSome_some, ↓reduceIte] at huses
  rw [UInt32.toNat_add, UInt32.toNat_one, Nat.mod_eq_of_lt (by omega)]

theorem issued_release (hr : r.Sound n) (hn : n < 2 ^ 32) :
    (r.release id).Issued key ↔ r.Issued key := by
  cases h : r.find? id with
  | none => rw [release_of_none h]
  | some l =>
    have hnext := toNat_succ_generation h hr hn
    rw [(writes_release h hr).issued_iff]
    by_cases hslot : key.slot = id.slot
    · simp only [hslot, Issued, find?_eq_some_iff.mp h, Slot.Issued, UInt32.lt_iff_toNat_lt, hnext]
      simp [← UInt32.toNat_inj]
      omega
    · simp [hslot]

theorem Sound.release (hr : r.Sound n) (hn : n < 2 ^ 32) (id : LanguageId) :
    (r.release id).Sound n := by
  cases h : r.find? id with
  | none => rwa [release_of_none h]
  | some l =>
    refine (writes_release h hr).sound hr le_rfl ?_
    have huses := hr.uses_le _ _ (find?_eq_some_iff.mp h)
    simp only [Slot.uses, toNat_succ_generation h hr hn]
    simpa [Slot.uses] using huses

/-! ## The number of languages -/

theorem live_eq_countP (r : Registry) :
    r.live = r.slots.countP fun s => s.language.isSome := by
  rw [live, List.countP_eq_length_filter]

theorem Sound.live_register (h : r.Sound n) (l : Language) :
    (r.register l).1.live = r.live + 1 := by
  rw [live_eq_countP, live_eq_countP]
  unfold Registry.register
  split
  · simp
  · rename_i slot free hfree
    obtain ⟨generation, hget⟩ := h.empty_of_free slot (by simp [hfree])
    obtain ⟨hlt, hslot⟩ := List.getElem?_eq_some_iff.mp hget
    simp [List.countP_set hlt, hslot]

/-- Writing the slot of an id that is found takes one language away and puts back what is
written. -/
theorem countP_set_add_one (h : r.find? id = some l) (s : Slot) :
    ((r.slots.set id.slot s).countP fun s => s.language.isSome) + 1 =
      r.live + if s.language.isSome then 1 else 0 := by
  obtain ⟨hlt, hslot⟩ := List.getElem?_eq_some_iff.mp (find?_eq_some_iff.mp h)
  have hpos : 0 < r.slots.countP fun s => s.language.isSome :=
    List.countP_pos_iff.mpr ⟨_, List.getElem_mem hlt, by simp [hslot]⟩
  rw [live_eq_countP, List.countP_set hlt, hslot, if_pos Option.isSome_some]
  omega

theorem live_modify (id : LanguageId) (f : Language → Language) :
    (r.modify id f).live = r.live := by
  cases h : r.find? id with
  | none => rw [modify_of_none h]
  | some l =>
    have hcount := countP_set_add_one h ⟨id.generation, some (f l)⟩
    rw [modify_of_some h, live_eq_countP]
    simpa using hcount

theorem live_release (h : r.find? id = some l) : (r.release id).live + 1 = r.live := by
  have hcount := countP_set_add_one h ⟨id.generation + 1, none⟩
  rw [release_of_some h, live_eq_countP]
  simpa using hcount

end Registry

end Acceptors
