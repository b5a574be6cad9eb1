import Acceptors.Proofs.Language.Registry
import Acceptors.Proofs.Session.Run

/-!
Who owns a language. The values held own the living languages, each of them once (`Accounts`), and a
step moves no language from one value to another (`owns_step_iff`): a language has the owner that
registered it until that value goes, and goes with it. Main statement: `ownership_run`.
-/

namespace Acceptors

/-! ## Registries after questions -/

namespace Automaton

variable {R : Registry → Prop} {r : Registry} {id : LanguageId} {A : FiniteAutomaton}

/-- Questions change a registry by teaching it facts alone. -/
theorem record_preserves (hlearn : ∀ r id fact, R r → R (r.learn id fact)) {α : Type}
    {fact : α → Fact}
    {answer : Registry × Checked α} (h : R answer.1) : R (record id fact answer).1 := by
  obtain ⟨r, a | a⟩ := answer
  · exact h
  · exact hlearn _ _ _ h

theorem recallMinimal_preserves (hlearn : ∀ r id fact, R r → R (r.learn id fact)) (h : R r) :
    R (recallMinimal r id A).1 := by
  unfold recallMinimal
  split
  · exact h
  · exact record_preserves hlearn h

theorem recallPumpLength_preserves (hlearn : ∀ r id fact, R r → R (r.learn id fact)) (h : R r) :
    R (recallPumpLength r id A).1 := by
  unfold recallPumpLength
  split
  · exact h
  · exact record_preserves hlearn (recallMinimal_preserves hlearn h)

theorem recallMonoid_preserves (hlearn : ∀ r id fact, R r → R (r.learn id fact)) (h : R r) :
    R (recallMonoid r id A).1 := by
  unfold recallMonoid
  split
  · exact h
  · exact record_preserves hlearn (recallMinimal_preserves hlearn h)

end Automaton

/-! ## Values that own -/

namespace Value

variable {r : Registry} {v w : Value} {id : LanguageId} {m : Maker} {n : Nat}

theorem owned?_of_link? (h : v.link? = none) : v.owned? = none := by
  rw [owned?, h]

theorem owned?_of_isUnlinked (h : v.isUnlinked = true) : v.owned? = none := by
  cases v with
  | automaton x | expression x | pushdown x | memory x =>
    have hlink : x.link = none := Option.isNone_iff_eq_none.mp h
    simp [owned?, link?, hlink]
  | _ => cases h

/-- A value made of another has no language, or shares that of the other. -/
theorem link?_of_derivation {f : Value → Except Failure Value} (h : m.derivation = some f)
    (hw : f v = .ok w) : w.link? = none ∨ w.link? = v.link?.map Link.share := by
  cases m <;> cases h <;> cases v
  -- The operation applies to the value or not; where it does, the link is that of `derive` or
  -- `fresh`.
  all_goals
    simp only [Value.clone, Value.complement, Value.toAutomaton, Value.toExpression,
      Value.equations, Value.solve, Value.transformationMonoid, Value.assembleFinite,
      Value.assembleMemory, Value.share, deriveAutomaton, bind_eq_ok_iff, pure, Except.pure,
      reduceCtorEq, Except.ok.injEq] at hw
  all_goals grind [Value.link?, Linked.fresh, Linked.derive]

/-- A question leaves what it does not apply to as it is, and attaches a representation. -/
theorem asked_value {α : Type} {f : Value → Applied α} {error : Except Failure α}
    (hnone : v.acceptor? = none → f v = keeping r v error)
    (hsome : ∀ A id, v.acceptor? = some A → (v.attach r).2.1.id? = some id →
      (f v).2.1 = (v.attach r).2.1) : (f v).2.1 = v ∨ (f v).2.1 = (v.attach r).2.1 := by
  cases hA : v.acceptor? with
  | none => exact .inl (by rw [hnone hA]; rfl)
  | some A =>
    obtain ⟨id, _, hid⟩ := exists_attach_eq_ok (r := r) hA
    exact .inr (hsome A id hA hid)

/-- An operation leaves its operand as it is, or attaches it. -/
theorem apply_value : (v.apply m r).2.1 = v ∨ (v.apply m r).2.1 = (v.attach r).2.1 := by
  cases hm : m.derivation with
  | some f => exact .inl (by rw [apply_of_derivation hm]; rfl)
  | none =>
    cases m with
    | languageId => exact .inr rfl
    | minimalDfa =>
      exact asked_value (f := Value.minimalDfa r) minimalDfa_of_none fun A id hA hid => by
        rw [minimalDfa_of_acceptor hA hid]
    | syntacticMonoid =>
      exact asked_value (f := Value.syntacticMonoid r) syntacticMonoid_of_none fun A id hA hid => by
        rw [syntacticMonoid_of_acceptor hA hid]
    | register | registerLink =>
      cases v <;> exact .inl rfl
    | _ => cases hm

theorem pumpLength_value :
    (v.pumpLength r).2.1 = v ∨ (v.pumpLength r).2.1 = (v.attach r).2.1 :=
  asked_value (f := Value.pumpLength r) pumpLength_of_none fun A id hA hid => by
    rw [pumpLength_of_acceptor hA hid]

theorem owned?_learn (fact : Fact) : (v.learn r fact).2.1.owned? = v.owned? := by
  cases v <;> rfl

theorem owned?_of_derivation {f : Value → Except Failure Value} (h : m.derivation = some f)
    (hw : f v = .ok w) : w.owned? = none := by
  rcases link?_of_derivation h hw with hlink | hlink
  · exact owned?_of_link? hlink
  · rw [owned?, hlink]
    cases v.link? <;> rfl

/-- Attaching a value makes it the owner of no language that was there before. -/
theorem owned?_attach_iff (hr : r.Sound n) (hid : r.Issued id) :
    (v.attach r).2.1.owned? = some id ↔ v.owned? = some id := by
  cases hv : v.isUnlinked with
  | true =>
    obtain ⟨alphabet, _, hlink⟩ := attach_of_isUnlinked (r := r) hv
    rw [owned?_of_isUnlinked hv, owned?, hlink]
    have hfresh := hr.not_issued_register (.ofAlphabet alphabet)
    simp only [Option.some.injEq, reduceCtorEq, iff_false]
    rintro rfl
    exact hfresh hid
  | false => rw [(attach_of_not_isUnlinked hv).2]

/-- What an operation makes owns no language that was there before. -/
theorem owned?_made (hr : r.Sound n) (hid : r.Issued id) (hw : (v.apply m r).2.2 = .ok w) :
    w.owned? ≠ some id := by
  have howner : ∀ {l : Language}, some (r.register l).2 ≠ some id := by
    intro l heq
    exact hr.not_issued_register l (Option.some.inj heq ▸ hid)
  cases hm : m.derivation with
  | some f =>
    rw [apply_of_derivation hm] at hw
    simp [owned?_of_derivation hm hw]
  | none =>
    cases m with
    | languageId =>
      obtain ⟨key, rfl, _⟩ := attach_eq_ok hw
      simp [owned?, link?]
    | minimalDfa =>
      have hw : (v.minimalDfa r).2.2 = .ok w := hw
      cases hA : v.acceptor? with
      | none => rw [minimalDfa_of_none hA] at hw; cases hw
      | some A =>
        obtain ⟨key, _, hkey⟩ := exists_attach_eq_ok (r := r) hA
        rw [minimalDfa_of_acceptor hA hkey] at hw
        obtain ⟨x, hx, rfl⟩ := map_eq_ok_iff.mp hw
        obtain ⟨D, _, rfl⟩ := map_eq_ok_iff.mp (Failure.ofChecked_eq_ok.mp hx)
        simp [owned?, link?]
    | syntacticMonoid =>
      cases v with
      | automaton x | expression x =>
        obtain ⟨M, _, rfl⟩ := map_eq_ok_iff.mp hw
        simp [owned?, link?]
      | _ => cases hw
    | register | registerLink =>
      cases v with
      | language l => cases hw; exact howner
      | _ => cases hw
    | _ => cases hm

end Value

/-! ## The owners and the living languages -/

/-- The values own the living languages, each of them once. -/
structure Accounts (n : Nat) (r : Registry) (vs : List Value) : Prop where
  sound : r.Sound n
  nodup : (vs.filterMap Value.owned?).Nodup
  mem_owned : ∀ id, id ∈ vs.filterMap Value.owned? ↔ r.isAlive id = true
  live : r.live = (vs.filterMap Value.owned?).length

namespace Accounts

open Registry

variable {n : Nat} {r : Registry} {v : Value} {vs ws : List Value} {id : LanguageId}

theorem nil : Accounts 0 Registry.empty [] where
  sound := sound_empty
  nodup := .nil
  mem_owned id := by simp [isAlive, Registry.find?, Registry.empty]
  live := rfl

theorem perm (hp : vs.Perm ws) (h : Accounts n r vs) : Accounts n r ws where
  sound := h.sound
  nodup := (hp.filterMap _).nodup_iff.mp h.nodup
  mem_owned id := (hp.filterMap _).mem_iff.symm.trans (h.mem_owned id)
  live := h.live.trans (hp.filterMap _).length_eq

/-- A value that owns nothing does not count. -/
theorem cons_iff (hv : v.owned? = none) : Accounts n r (v :: vs) ↔ Accounts n r vs := by
  have hskip : (v :: vs).filterMap Value.owned? = vs.filterMap Value.owned? :=
    List.filterMap_cons_none hv
  constructor
  · exact fun h => ⟨h.sound, hskip ▸ h.nodup, hskip ▸ h.mem_owned, hskip ▸ h.live⟩
  · exact fun h => ⟨h.sound, hskip ▸ h.nodup, hskip ▸ h.mem_owned, hskip ▸ h.live⟩

/-- The value that owns a new language joins the others. -/
theorem register (h : Accounts n r vs) (l : Language) (hv : v.owned? = some (r.register l).2) :
    Accounts (n + 1) (r.register l).1 (v :: vs) := by
  have hcons : (v :: vs).filterMap Value.owned? = (r.register l).2 :: vs.filterMap Value.owned? :=
    List.filterMap_cons_some hv
  have hfresh : (r.register l).2 ∉ vs.filterMap Value.owned? := fun hmem =>
    h.sound.not_issued_register l (issued_of_isAlive ((h.mem_owned _).mp hmem))
  refine ⟨h.sound.register l, ?_, fun id => ?_, ?_⟩
  · rw [hcons]
    exact List.nodup_cons.mpr ⟨hfresh, h.nodup⟩
  · rw [hcons, List.mem_cons, h.mem_owned, isAlive, isAlive, h.sound.find?_register l]
    split <;> simp_all
  · rw [hcons, h.sound.live_register l, h.live, List.length_cons]

theorem modify (h : Accounts n r vs) (id : LanguageId) (f : Language → Language) :
    Accounts n (r.modify id f) vs where
  sound := h.sound.modify id f
  nodup := h.nodup
  mem_owned key := by rw [h.mem_owned, isAlive_modify h.sound]
  live := (live_modify id f).trans h.live

theorem learn (id : LanguageId) (fact : Fact) (h : Accounts n r vs) :
    Accounts n (r.learn id fact) vs :=
  h.modify id _

/-- A language goes with its owner. -/
theorem drop (hn : n < 2 ^ 32) (h : Accounts n r (v :: vs)) :
    Accounts n (Session.releaseOwned r v) vs := by
  unfold Session.releaseOwned
  split
  · rename_i id hv
    have hcons : (v :: vs).filterMap Value.owned? = id :: vs.filterMap Value.owned? :=
      List.filterMap_cons_some hv
    have hnodup := h.nodup
    have hmem := h.mem_owned
    have hlive := h.live
    rw [hcons] at hnodup hmem hlive
    obtain ⟨hnot, hnodup⟩ := List.nodup_cons.mp hnodup
    obtain ⟨l, hl⟩ := isAlive_iff.mp ((hmem id).mp List.mem_cons_self)
    refine ⟨h.sound.release hn id, hnodup, fun key => ?_, ?_⟩
    · have hkey := hmem key
      rw [isAlive, find?_release h.sound]
      split <;> simp_all [isAlive]
    · have hrelease := live_release hl
      rw [List.length_cons] at hlive
      omega
  · rename_i hv
    exact (cons_iff hv).mp h

end Accounts

theorem invariant_accounts : Session.Invariant (fun _ => True) (fun _ => True) Accounts where
  perm := Accounts.perm
  drop := Accounts.drop
  build _ hv h := (Accounts.cons_iff (Value.owned?_of_link? (Source.link?_build hv))).mpr h
  intersect _ _ _ h := (Accounts.cons_iff rfl).mpr h
  derive hm _ hw h := (Accounts.cons_iff (Value.owned?_of_derivation hm hw)).mpr h
  attach hv h := by
    obtain ⟨alphabet, hregistry, hlink⟩ := Value.attach_of_isUnlinked (r := _) hv
    rw [hregistry]
    refine ((Accounts.cons_iff (Value.owned?_of_isUnlinked hv)).mp h).register _ ?_
    rw [Value.owned?, hlink]
  enroll l _ hv h := h.register l (by rcases hv with rfl | rfl <;> rfl)
  inform v hv h := (Accounts.cons_iff (by rcases hv with ⟨_, rfl⟩ | ⟨_, rfl⟩ <;> rfl)).mpr h
  minimal {n r v A id vs} _ _ _ h := by
    have hminimal : Accounts n (Automaton.recallMinimal r id A).1 vs :=
      Automaton.recallMinimal_preserves (R := fun r => Accounts n r vs) (fun _ => Accounts.learn) h
    exact ⟨hminimal, fun _ _ => (Accounts.cons_iff rfl).mpr hminimal⟩
  pump _ _ _ h := Automaton.recallPumpLength_preserves (R := fun r => Accounts _ r _)
    (fun _ => Accounts.learn) h
  monoid _ _ _ h := Automaton.recallMonoid_preserves (R := fun r => Accounts _ r _)
    (fun _ => Accounts.learn) h
  learn id _ h := h.learn id _
  teach _ h := (Accounts.cons_iff rfl).mpr ((Accounts.cons_iff rfl).mp h)

/-- A statement on the registry alone need only be kept by what changes registries. -/
theorem Session.Invariant.ofRegistry {P : Source → Prop} {Q : Fact → Prop}
    {R : Nat → Registry → Prop} (hregister : ∀ n r l, R n r → R (n + 1) (r.register l).1)
    (hlearn : ∀ n r id fact, R n r → R n (r.learn id fact))
    (hrelease : ∀ n r id, n < 2 ^ 32 → R n r → R n (r.release id)) :
    Session.Invariant P Q fun n r _ => R n r where
  perm _ h := h
  drop hn h := by
    unfold Session.releaseOwned
    split
    · exact hrelease _ _ _ hn h
    · exact h
  build _ _ h := h
  intersect _ _ _ h := h
  derive _ _ _ h := h
  attach hv h := by
    obtain ⟨alphabet, hregistry, _⟩ := Value.attach_of_isUnlinked (r := _) hv
    rw [hregistry]
    exact hregister _ _ _ h
  enroll l _ _ h := hregister _ _ l h
  inform _ _ h := h
  minimal _ _ _ h :=
    ⟨Automaton.recallMinimal_preserves (hlearn _) h,
      fun _ _ => Automaton.recallMinimal_preserves (hlearn _) h⟩
  pump _ _ _ h := Automaton.recallPumpLength_preserves (hlearn _) h
  monoid _ _ _ h := Automaton.recallMonoid_preserves (hlearn _) h
  learn id _ h := hlearn _ _ id _ h
  teach _ h := h

/-- An id stays issued. -/
theorem invariant_issued (id : LanguageId) :
    Session.Invariant (fun _ => True) (fun _ => True) fun n r _ => r.Sound n ∧ r.Issued id :=
  .ofRegistry (fun _ _ l h => ⟨h.1.register l, (h.1.issued_register l).mpr (.inr h.2)⟩)
    (fun _ _ key fact h => Registry.issued_learn key fact h)
    (fun _ _ key hn h => ⟨h.1.release hn key, (Registry.issued_release h.1 hn).mpr h.2⟩)

/-! ## Steps and owners -/

namespace Session

variable {s : Session} {name key : String} {id : LanguageId} {v w : Value} {op : Operand} {n : Nat}

/-- The languages owned by values with a name, one for each such value. -/
def owners (s : Session) : List LanguageId := (s.values.map (·.2)).filterMap Value.owned?

/-- The value under the name owns the language. -/
def Owns (s : Session) (name : String) (id : LanguageId) : Prop :=
  ∃ v, s.find? name = some v ∧ v.owned? = some id

theorem find?_drop (s : Session) (name key : String) :
    (s.drop name).find? key = if key = name then none else s.find? key := by
  have hfilter : ∀ entries : List (String × Value),
      (entries.filter fun entry => entry.1 != name).lookup key =
        if key = name then none else entries.lookup key := by
    intro entries
    induction entries with
    | nil => simp
    | cons entry entries ih =>
      obtain ⟨other, v⟩ := entry
      rw [List.filter_cons, List.lookup_cons]
      grind
  cases hfind : s.find? name with
  | none =>
    rw [drop_of_none hfind]
    split <;> simp_all
  | some v =>
    simp only [drop, hfind]
    exact hfilter s.values

theorem find?_store (s : Session) (v : Value) (target : Option String) (key : String) :
    (s.store v target).find? key = if target = some key then some v else s.find? key := by
  cases target with
  | none => rfl
  | some name =>
    rw [store, find?, List.lookup_cons, ← find?, find?_drop]
    grind

theorem find?_putBack (s : Session) (r : Registry) (w : Value) (name key : String) :
    (s.putBack r w (.named name)).find? key =
      if key = name then (s.find? key).map fun _ => w else s.find? key := by
  rw [putBack, find?, find?]
  induction s.values with
  | nil => simp
  | cons entry entries ih =>
    obtain ⟨other, v⟩ := entry
    rw [List.map_cons, List.lookup_cons]
    grind

theorem owns_store (hv : v.owned? ≠ some id) {target : Option String} :
    (s.store v target).Owns key id ↔ s.Owns key id ∧ target ≠ some key := by
  unfold Owns
  rw [find?_store]
  split <;> simp_all

theorem owns_putBack (hv : s.resolve op = .ok v) (hw : w.owned? = some id ↔ v.owned? = some id)
    (r : Registry) : (s.putBack r w op).Owns key id ↔ s.Owns key id := by
  cases op with
  | source source => rfl
  | named name =>
    have hfind := resolve_named.mp hv
    unfold Owns
    rw [find?_putBack]
    split <;> simp_all

theorem owns_drop : (s.drop name).Owns key id ↔ s.Owns key id ∧ name ≠ key := by
  unfold Owns
  rw [find?_drop]
  split <;> simp_all [eq_comm]

end Session

theorem Operand.admits (op : Operand) : op.Admits fun _ => True := by
  cases op <;> trivial

theorem Step.admits (step : Step) : step.Admits (fun _ => True) fun _ => True := by
  cases step <;> simp [Step.Admits, Operand.admits]

/-- The name that a step gives to what it makes, or drops. -/
def Step.target? : Step → Option String
  | .build _ name => name
  | .make _ _ name => name
  | .intersect _ _ name => name
  | .pumpLength _ => none
  | .learn _ _ => none
  | .drop name => some name

namespace Session

variable {s : Session} {name key : String} {id : LanguageId} {v w : Value} {op : Operand} {n : Nat}

/-- The step succeeds and puts an end to the value that has the name, if there is one. -/
def Replaces (s : Session) (step : Step) (name : String) : Prop :=
  step.target? = some name ∧ ∃ reply, (s.step step).2 = .ok reply

theorem owns_conclude {t : Session} {target : Option String} (hw : w.owned? ≠ some id)
    (ht : t.Owns key id ↔ s.Owns key id) :
    (conclude target (t, .ok w)).1.Owns key id ↔ s.Owns key id ∧ target ≠ some key := by
  rw [← ht]
  exact owns_store hw

/-- A step leaves every language with its owner, unless it puts an end to that. -/
theorem owns_step_iff (hr : s.registry.Sound n) (hid : s.registry.Issued id) (step : Step) :
    (s.step step).1.Owns key id ↔ s.Owns key id ∧ ¬ s.Replaces step key := by
  cases step with
  | build source target =>
    unfold Replaces
    simp only [Session.step]
    cases hv : source.build with
    | error e => simp [conclude]
    | ok v =>
      have hown := Value.owned?_of_link? (Source.link?_build hv)
      rw [owns_conclude (by simp [hown]) Iff.rfl]
      simp [conclude, Step.target?]
  | make m op target =>
    unfold Replaces
    simp only [Session.step, applyTo]
    cases hv : s.resolve op with
    | error e => simp [conclude]
    | ok v =>
      have hvalue : (v.apply m s.registry).2.1.owned? = some id ↔ v.owned? = some id := by
        rcases Value.apply_value (v := v) (m := m) (r := s.registry) with h | h
        · rw [h]
        · rw [h, Value.owned?_attach_iff hr hid]
      have hput : (s.putBack (v.apply m s.registry).1 (v.apply m s.registry).2.1 op).Owns key id ↔
          s.Owns key id := owns_putBack hv hvalue _
      cases hw : (v.apply m s.registry).2.2 with
      | error e => simpa [conclude, hw] using hput
      | ok w =>
        dsimp only
        rw [hw, owns_conclude (Value.owned?_made hr hid hw) hput]
        simp [conclude, Step.target?]
  | intersect a b target =>
    unfold Replaces
    simp only [Session.step]
    cases hw : s.intersect a b with
    | error e => simp [conclude]
    | ok w =>
      obtain ⟨x, y, A, _, _, _, rfl⟩ := intersect_eq_ok hw
      rw [owns_conclude (by simp [Value.owned?, Value.link?, Linked.fresh]) Iff.rfl]
      simp [conclude, Step.target?]
  | pumpLength op =>
    simp only [Replaces, Session.step, applyTo, Step.target?, reduceCtorEq, false_and,
      not_false_eq_true, and_true]
    cases hv : s.resolve op with
    | error e => rfl
    | ok v =>
      refine owns_putBack hv ?_ _
      rcases Value.pumpLength_value (v := v) (r := s.registry) with h | h
      · rw [h]
      · rw [h, Value.owned?_attach_iff hr hid]
  | learn op fact =>
    simp only [Replaces, Session.step, applyTo, Step.target?, reduceCtorEq, false_and,
      not_false_eq_true, and_true]
    cases hv : s.resolve op with
    | error e => rfl
    | ok v => exact owns_putBack hv (by rw [Value.owned?_learn]) _
  | drop name =>
    simp [Session.step, owns_drop, Replaces, Step.target?]

/-! ## Names and owners -/

theorem find?_of_mem (hnames : (s.values.map (·.1)).Nodup) (h : (name, v) ∈ s.values) :
    s.find? name = some v := by
  obtain ⟨before, after, hvalues⟩ := List.mem_iff_append.mp h
  refine List.lookup_eq_some_iff.mpr ⟨before, after, hvalues, fun entry hentry => ?_⟩
  rw [hvalues, List.map_append, List.nodup_append] at hnames
  have hne := hnames.2.2 entry.1 (List.mem_map.mpr ⟨entry, hentry, rfl⟩) name (by simp)
  exact bne_iff_ne.mpr (Ne.symm hne)

theorem mem_owners_iff (hnames : (s.values.map (·.1)).Nodup) :
    id ∈ s.owners ↔ ∃ name, s.Owns name id := by
  simp only [owners, List.mem_filterMap, List.mem_map, Prod.exists, exists_eq_right]
  constructor
  · rintro ⟨v, ⟨name, hmem⟩, hv⟩
    exact ⟨name, v, find?_of_mem hnames hmem, hv⟩
  · rintro ⟨name, v, hfind, hv⟩
    obtain ⟨before, after, hvalues, _⟩ := List.lookup_eq_some_iff.mp hfind
    exact ⟨v, ⟨name, by simp [hvalues]⟩, hv⟩

/-- Where no language has two owners, no two names stand for owners of one. -/
theorem Owns.name_eq (hnames : (s.values.map (·.1)).Nodup) (howners : s.owners.Nodup)
    (h : s.Owns name id) (hkey : s.Owns key id) : name = key := by
  by_contra hne
  obtain ⟨v, hfind, hv⟩ := h
  obtain ⟨w, hfindw, hw⟩ := hkey
  obtain ⟨before, after, hvalues, hbefore, hafter⟩ := exists_split hnames hfind
  obtain ⟨before', after', hvalues', _⟩ := List.lookup_eq_some_iff.mp hfindw
  have hmem : (key, w) ∈ before ++ after := by
    have hall : (key, w) ∈ before ++ (name, v) :: after := by
      rw [← hvalues, hvalues']
      simp
    simp only [List.mem_append, List.mem_cons, Prod.mk.injEq] at hall ⊢
    rcases hall with hall | ⟨heq, _⟩ | hall
    · exact .inl hall
    · exact absurd heq.symm hne
    · exact .inr hall
  have hperm :
      ((before ++ (name, v) :: after).map (·.2)).Perm (v :: (before ++ after).map (·.2)) := by
    simp
  rw [owners, hvalues] at howners
  have hnodup := (hperm.filterMap Value.owned?).nodup_iff.mp howners
  rw [List.filterMap_cons_some hv, List.nodup_cons] at hnodup
  exact hnodup.1 (List.mem_filterMap.mpr ⟨w, List.mem_map.mpr ⟨(key, w), hmem, rfl⟩, hw⟩)

/-! ## Runs -/

theorem holds_accounts (steps : List Step) (h : start.registrations steps < 2 ^ 32) :
    Holds Accounts (start.registrations steps) (start.run steps) [] := by
  have hrun := invariant_accounts.run (n := 0) (s := start) steps ⟨.nil, .nil⟩
    (fun step _ => step.admits) (by omega)
  rwa [Nat.zero_add] at hrun

theorem Holds.mem_owners (hs : Holds Accounts n s []) :
    id ∈ s.owners ↔ s.registry.isAlive id = true :=
  hs.held.mem_owned id

/-- A step releases a language if and only if it puts an end to the value that owns it. -/
theorem Holds.isAlive_step (hs : Holds Accounts n s []) {step : Step}
    (hn : (n + if s.registers step then 1 else 0) < 2 ^ 32) (hid : s.registry.isAlive id = true) :
    (s.step step).1.registry.isAlive id = false ↔
    ∃ name, s.Owns name id ∧ s.Replaces step name := by
  have hnext := invariant_accounts.step hs step.admits hn
  have howns (name : String) : (s.step step).1.Owns name id ↔
      s.Owns name id ∧ ¬ s.Replaces step name :=
    owns_step_iff hs.held.sound (Registry.issued_of_isAlive hid) step
  rw [← Bool.not_eq_true, ← hnext.mem_owners, mem_owners_iff hnext.names]
  constructor
  · intro hnone
    obtain ⟨name, hname⟩ := (mem_owners_iff hs.names).mp (hs.mem_owners.mpr hid)
    refine ⟨name, hname, ?_⟩
    by_contra hkept
    exact hnone ⟨name, (howns name).mpr ⟨hname, hkept⟩⟩
  · rintro ⟨name, hname, hreplaces⟩ ⟨key, hkey⟩
    obtain ⟨hkey, hkept⟩ := (howns key).mp hkey
    exact hkept (hname.name_eq hs.names hs.held.nodup hkey ▸ hreplaces)

/-- The language is registered by the step between the two lists and not before, for the value under
the name, which owns it from then on and is never replaced. -/
structure OwnsSince (before : List Step) (step : Step) (after : List Step) (name : String)
    (id : LanguageId) : Prop where
  fresh : ∀ p, p <+: before → (start.run p).registry.isAlive id = false
  owns : ∀ p, p <+: after → (start.run (before ++ step :: p)).Owns name id
  kept : ∀ p later, p ++ [later] <+: after →
    ¬ (start.run (before ++ step :: p)).Replaces later name

theorem issued_run {before after : List Step} (h : start.registrations (before ++ after) < 2 ^ 32)
    (hid : (start.run before).registry.Issued id) :
    (start.run (before ++ after)).registry.Issued id := by
  rw [registrations_append] at h
  have hbefore := holds_accounts before (by omega)
  rw [run_append]
  exact ((invariant_issued id).run after ⟨hbefore.names, hbefore.held.sound, hid⟩
    (fun step _ => step.admits) h).held.2

theorem exists_ownsSince {steps : List Step} (h : start.registrations steps < 2 ^ 32)
    (howns : (start.run steps).Owns name id) :
    ∃ before step after, steps = before ++ step :: after ∧ OwnsSince before step after name id := by
  induction steps using List.reverseRecOn with
  | nil =>
    obtain ⟨v, hfind, _⟩ := howns
    cases hfind
  | append_singleton steps last ih =>
    have hcount := registrations_append start steps [last]
    have hsteps := holds_accounts steps (by omega)
    have hrun : start.run (steps ++ [last]) = ((start.run steps).step last).1 := run_append ..
    by_cases hid : (start.run steps).registry.Issued id
    · -- The value owned the language before the last step, which therefore leaves it in place.
      rw [hrun, owns_step_iff hsteps.held.sound hid] at howns
      obtain ⟨before, step, after, rfl, hsince⟩ := ih (by omega) howns.1
      refine ⟨before, step, after ++ [last], by
        simp, hsince.fresh, fun p hp => ?_, fun p later hp => ?_⟩
      · rcases List.prefix_concat_iff.mp hp with rfl | hp
        · have hlast :
              before ++ step :: (after ++ [last]) = (before ++ step :: after) ++ [last] := by simp
          rw [hlast, hrun, owns_step_iff hsteps.held.sound hid]
          exact howns
        · exact hsince.owns p hp
      · rcases List.prefix_concat_iff.mp hp with heq | hp
        · obtain ⟨rfl, rfl⟩ := List.append_singleton_inj.mp heq
          exact howns.2
        · exact hsince.kept p later hp
    · -- The last step registers the language.
      refine ⟨steps, last, [], rfl, fun p hp => ?_, fun p hp => ?_, fun p later hp => ?_⟩
      · obtain ⟨rest, rfl⟩ := hp
        rw [← Bool.not_eq_true]
        exact fun halive => hid (issued_run (by omega) (Registry.issued_of_isAlive halive))
      · rw [List.prefix_nil.mp hp]
        exact howns
      · simp at hp

/-- With fewer than `2 ^ 32` registrations a language lives as long as one value owns it, which is
the value that registered it; and a step releases a language if and only if it puts an end to the
owner. -/
theorem ownership_run (steps : List Step) (h : start.registrations steps < 2 ^ 32) :
    (∀ id, (start.run steps).owners.count id =
      if (start.run steps).registry.isAlive id then 1 else 0) ∧
    (start.run steps).registry.live = (start.run steps).owners.length ∧
    (∀ name id, (start.run steps).Owns name id →
      ∃ before step after, steps = before ++ step :: after ∧ OwnsSince before step after name id) ∧
    ∀ before step after id, steps = before ++ step :: after →
      (start.run before).registry.isAlive id = true →
        ((start.run (before ++ [step])).registry.isAlive id = false ↔
          ∃ name, (start.run before).Owns name id ∧ (start.run before).Replaces step name) := by
  have hs := holds_accounts steps h
  refine ⟨fun id => ?_, hs.held.live, fun name id => exists_ownsSince h, ?_⟩
  · split <;> rename_i halive
    · exact List.count_eq_one_of_mem hs.held.nodup (hs.mem_owners.mpr halive)
    · exact List.count_eq_zero.mpr fun hmem => halive (hs.mem_owners.mp hmem)
  · rintro before step after id rfl hid
    have hcount := registrations_append start before (step :: after)
    rw [registrations] at hcount
    rw [run_append]
    exact (holds_accounts before (by omega)).isAlive_step (by omega) hid

/-- An expression owns its language and shares it with a copy and with the minimal automaton of the
copy; another language is registered under a link, and a third by a value that goes with its step.
Then the expression goes. -/
def sharing : List Step :=
  [.build (.tree (.literal true "a")) (some "x"), .make .languageId (.named "x") none,
    .make .clone (.named "x") (some "y"), .make .minimalDfa (.named "y") (some "z"),
    .build (.language ∅) (some "l"), .make .registerLink (.named "l") (some "o"),
    .make .share (.named "o") (some "p"), .make .languageId (.source (.tree .epsilon)) none,
      .drop "x"]

theorem ownership_run_sharing :
    start.registrations sharing < 2 ^ 32 ∧ (start.run sharing).registry.live = 1 ∧
      (start.run sharing).registry.isAlive ⟨0, 0⟩ = false ∧
      ∃ before step after, sharing = before ++ step :: after ∧
        OwnsSince before step after "o" ⟨1, 0⟩ := by
  have h : start.registrations sharing < 2 ^ 32 := by decide +kernel
  obtain ⟨_, hlive, hsince, _⟩ := ownership_run sharing h
  have howners : (start.run sharing).owners = [⟨1, 0⟩] := by decide +kernel
  refine ⟨h, ?_, by decide +kernel, hsince "o" ⟨1, 0⟩ ⟨.link (.owner ⟨1, 0⟩), ?_, rfl⟩⟩
  · rw [hlive, howners]
    rfl
  · decide +kernel

end Session

end Acceptors
