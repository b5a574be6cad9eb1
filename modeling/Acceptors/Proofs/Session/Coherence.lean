import Acceptors.Proofs.Language.Facts
import Acceptors.Proofs.Session.Ownership

/-!
Facts recalled in a session. An id stands for one language as long as the session runs, whoever
holds the id and whether or not the language was released: the values that have the id stand for
that language (`Value.Fits`), and what is stored under it is true (`Registry.Faithful`). Main
statement: `coherence_run`.
-/

namespace Acceptors

open Automaton

/-! ## Ids after questions -/

namespace Automaton

variable {r : Registry} {n : Nat} {id key : LanguageId} {A : FiniteAutomaton}

theorem issued_recallMinimal (hr : r.Sound n) (hkey : r.Issued key) :
    (recallMinimal r id A).1.Issued key :=
  (recallMinimal_preserves (R := fun r => r.Sound n ∧ r.Issued key)
    (fun _ => Registry.issued_learn) ⟨hr, hkey⟩).2

theorem issued_recallPumpLength (hr : r.Sound n) (hkey : r.Issued key) :
    (recallPumpLength r id A).1.Issued key :=
  (recallPumpLength_preserves (R := fun r => r.Sound n ∧ r.Issued key)
    (fun _ => Registry.issued_learn) ⟨hr, hkey⟩).2

theorem issued_recallMonoid (hr : r.Sound n) (hkey : r.Issued key) :
    (recallMonoid r id A).1.Issued key :=
  (recallMonoid_preserves (R := fun r => r.Sound n ∧ r.Issued key)
    (fun _ => Registry.issued_learn) ⟨hr, hkey⟩).2

end Automaton

/-! ## Values of one language -/

namespace Value

/-- The value without its language. -/
def unlinked : Value → Value
  | automaton x => automaton (.fresh x.body)
  | expression x => expression (.fresh x.body)
  | v => v

/-- The same value, an automaton up to the names of its states and its link. -/
def Alike : Value → Value → Prop
  | automaton x, automaton y => x.body.shape = y.body.shape ∧ x.body.alphabet = y.body.alphabet
  | v, w => v = w

/-- A representation stands for the language of its id, which was issued; a language has no
facts. -/
structure Fits (μ : LanguageId → Meaning) (r : Registry) (v : Value) : Prop where
  lettered : ∀ A, v.acceptor? = some A → A.Lettered
  linked : ∀ A id, v.acceptor? = some A → v.id? = some id → r.Issued id ∧ A.Denotes (μ id)
  language : ∀ l, v = .language l → l = .ofAlphabet l.alphabet

variable {μ μ' : LanguageId → Meaning} {r r' : Registry} {v w : Value} {A B : FiniteAutomaton}

theorem acceptor?_unlinked : v.unlinked.acceptor? = v.acceptor? := by
  cases v <;> rfl

theorem link?_unlinked (h : v.acceptor? = some A) : v.unlinked.link? = none := by
  cases v <;> first | rfl | cases h

/-- A representation without a language is asked for its minimal automaton, and nothing is stored
that could answer. -/
theorem minimalDfa_unlinked (h : v.acceptor? = some A) (hA : A.Intact) :
    ∃ x : Linked FiniteAutomaton, (v.unlinked.minimalDfa .empty).2.2 = .ok (.automaton x) ∧
      x.body = A.determinize.minimize := by
  have hunlinked : v.unlinked.isUnlinked = true := by
    cases v <;> first | rfl | cases h
  obtain ⟨alphabet, hregistry, hlink⟩ := attach_of_isUnlinked (r := .empty) hunlinked
  have hid : (v.unlinked.attach .empty).2.1.id? =
      some (Registry.empty.register (.ofAlphabet alphabet)).2 := by
    rw [id?, hlink]
    rfl
  rw [minimalDfa_of_acceptor (acceptor?_unlinked.trans h) hid, hregistry,
    recallMinimal_of_unknown hA (Registry.unknown_register .empty alphabet)]
  exact ⟨_, rfl, rfl⟩

namespace Fits

/-- Ids that were issued keep their languages. -/
theorem mono (h : v.Fits μ r) (hissued : ∀ id, r.Issued id → r'.Issued id)
    (hμ : ∀ id, r.Issued id → μ' id = μ id) : v.Fits μ' r' where
  lettered := h.lettered
  linked A id hA hid := by
    obtain ⟨hr, hdenotes⟩ := h.linked A id hA hid
    rw [hμ id hr]
    exact ⟨hissued id hr, hdenotes⟩
  language := h.language

theorem of_acceptor?_none (hv : v.acceptor? = none) (hlanguage : v.isLanguage = false) :
    v.Fits μ r where
  lettered := by simp [hv]
  linked := by simp [hv]
  language := by
    rintro l rfl
    cases hlanguage

/-- A representation without a language stands for any. -/
theorem of_link?_none (hlink : v.link? = none) (hA : v.acceptor? = some A)
    (hlettered : A.Lettered) :
    v.Fits μ r where
  lettered B hB := by
    cases hA.symm.trans hB
    exact hlettered
  linked := by simp [id?, hlink]
  language := by
    rintro l rfl
    cases hA

/-- An operation that keeps the language may keep the link. -/
theorem of_denotes (h : v.Fits μ r) (hid : w.id? = v.id?) (hA : v.acceptor? = some A)
    (hB : w.acceptor? = some B) (hkeeps : ∀ m, A.Denotes m → B.Denotes m) : w.Fits μ r where
  lettered C hC := by
    cases hB.symm.trans hC
    exact (hkeeps _ (h.lettered A hA).denotes).lettered
  linked C id hC hw := by
    cases hB.symm.trans hC
    obtain ⟨hr, hdenotes⟩ := h.linked A id hA (hid.symm.trans hw)
    exact ⟨hr, hkeeps _ hdenotes⟩
  language := by
    rintro l rfl
    cases hB

end Fits

/-! ## Values made of others -/

@[simp] theorem id?_derive {α β : Type} (x : Linked α) (body : β) :
    (x.derive body).link.map Link.id = x.link.map Link.id := by
  obtain ⟨body, link⟩ := x
  cases link <;> rfl

/-- What operations make of a value that they look at alone. -/
inductive Yields : Value → Value → Prop
  | recast {v w : Value} {A B : FiniteAutomaton} : v.acceptor? = some A → w.acceptor? = some B →
      w.id? = v.id? → A.Recasts B → Yields v w
  | complement {x : Linked FiniteAutomaton} : x.body.isDeterministic = true →
      Yields (automaton x) (automaton (.fresh x.body.complement))
  | equations (x : Linked FiniteAutomaton) : Yields (automaton x) (system (.ofAutomaton x.body))
  | solution (S : EquationSystem) : Yields (system S) (expression (.fresh (.ofRegex S.solve)))
  | assembled {d : Description} {faults : List Fault} {A : FiniteAutomaton} : d.toFinite = .ok A →
      Yields (description d faults) (automaton (.fresh A))
  | language (l : Language) : Yields (language l) (language l)
  | other {v w : Value} : w.acceptor? = none → w.isLanguage = false → (∀ S, w ≠ system S) →
    Yields v w

/-- Operations on automata may keep the link if they keep the language. -/
theorem Yields.derive (hv : ∀ A, v.acceptor? = some A → A.Lettered)
    {f : FiniteAutomaton → Checked FiniteAutomaton}
    (hf : ∀ A B, A.Intact → f A = .ok B → A.Recasts B) (hw : v.deriveAutomaton f = .ok w) :
    v.Yields w := by
  cases v with
  | automaton x =>
    obtain ⟨B, hB, hw⟩ := bind_eq_ok_iff.mp hw
    cases hw
    exact .recast rfl rfl (id?_derive x B)
      (hf _ _ (hv _ rfl).toIntact (Failure.ofChecked_eq_ok.mp hB))
  | _ => cases hw

theorem yields_of_derivation (hv : ∀ A, v.acceptor? = some A → A.Lettered) {m : Maker}
    {f : Value → Except Failure Value} (hm : m.derivation = some f) (hw : f v = .ok w) :
    v.Yields w := by
  cases m with
  | clone =>
    cases hm
    cases v with
    | automaton x | expression x => cases hw; exact .recast rfl rfl (id?_derive x _) (.same _)
    | language l => cases hw; exact .language l
    | pushdown x | memory x | link l => cases hw; exact .other rfl rfl (by simp)
    | _ => cases hw
  | withoutEpsilon =>
    cases hm
    refine .derive hv (fun A B hA hB => ?_) hw
    cases (Checked.withoutEpsilon_eq_ok hA).symm.trans hB
    exact .withoutEpsilon A
  | determinize =>
    cases hm
    refine .derive hv (fun A B hA hB => ?_) hw
    cases (Checked.determinize_eq_ok hA).symm.trans hB
    exact .determinize A
  | complete =>
    cases hm
    refine .derive hv (fun A B hA hB => ?_) hw
    cases (Checked.complete_eq_ok hA).symm.trans hB
    exact .complete A
  | canonical =>
    cases hm
    refine .derive hv (fun A B hA hB => ?_) hw
    cases (Checked.canonical_eq_ok hA.wellFormed).symm.trans hB
    exact .canonical A
  | mergeBisimilar =>
    cases hm
    refine .derive hv (fun A B hA hB => ?_) hw
    cases (Checked.mergeBisimilar_eq_ok hA).symm.trans hB
    exact .mergeBisimilar A
  | minimize =>
    cases hm
    refine .derive hv (fun A B hA hB => ?_) hw
    obtain ⟨hdet, rfl⟩ := (Checked.minimize_eq_ok_iff hA).mp hB
    exact .minimize hdet
  | complement =>
    cases hm
    cases v with
    | automaton x =>
      obtain ⟨B, hB, hw⟩ := bind_eq_ok_iff.mp hw
      obtain ⟨hdet, rfl⟩ :=
        (Checked.complement_eq_ok_iff (hv _ rfl).toIntact).mp (Failure.ofChecked_eq_ok.mp hB)
      cases hw
      exact .complement hdet
    | _ => cases hw
  | toAutomaton =>
    cases hm
    cases v with
    | expression x =>
      obtain ⟨B, hB, hw⟩ := bind_eq_ok_iff.mp hw
      cases (Checked.toAutomaton_eq_ok x.body).symm.trans (Failure.ofChecked_eq_ok.mp hB)
      cases hw
      exact .recast rfl rfl (id?_derive x _) (.same _)
    | _ => cases hw
  | toExpression =>
    cases hm
    cases v with
    | automaton x =>
      obtain ⟨e, he, hw⟩ := bind_eq_ok_iff.mp hw
      rw [Failure.ofChecked_eq_ok, Checked.toExpression_eq (hv _ rfl).toIntact] at he
      split at he
      · cases he
      · cases he
        cases hw
        exact .recast rfl rfl (id?_derive x _) (.expression _)
    | _ => cases hw
  | equations =>
    cases hm
    cases v with
    | automaton x =>
      obtain ⟨S, hS, hw⟩ := bind_eq_ok_iff.mp hw
      rw [Failure.ofChecked_eq_ok, Checked.equations_eq (hv _ rfl).toIntact] at hS
      split at hS
      · cases hS
      · cases hS
        cases hw
        exact .equations x
    | _ => cases hw
  | solve =>
    cases hm
    cases v with
    | system S => cases hw; exact .solution S
    | _ => cases hw
  | transformationMonoid =>
    cases hm
    cases v with
    | automaton x =>
      obtain ⟨M, _, hw⟩ := bind_eq_ok_iff.mp hw
      cases hw
      exact .other rfl rfl (by simp)
    | _ => cases hw
  | assembleFinite =>
    cases hm
    cases v with
    | description d faults =>
      obtain ⟨A, hA, hw⟩ := bind_eq_ok_iff.mp hw
      cases hw
      exact .assembled (Source.ofFault_eq_ok.mp hA)
    | _ => cases hw
  | assembleMemory =>
    cases hm
    cases v with
    | description d faults =>
      obtain ⟨M, _, hw⟩ := bind_eq_ok_iff.mp hw
      cases hw
      exact .other rfl rfl (by simp)
    | _ => cases hw
  | share =>
    cases hm
    cases v with
    | link l => cases hw; exact .other rfl rfl (by simp)
    | _ => cases hw
  | _ => cases hm

/-- What is made of a value stands for the same language, or has no link. -/
theorem Fits.of_derivation (h : v.Fits μ r) {m : Maker} {f : Value → Except Failure Value}
    (hm : m.derivation = some f) (hw : f v = .ok w) : w.Fits μ r := by
  cases yields_of_derivation h.lettered hm hw with
  | recast hA hB hid hrecasts => exact h.of_denotes hid hA hB fun _ hA => hA.recasts hrecasts
  | complement => exact .of_link?_none rfl rfl (h.lettered _ rfl).complement
  | equations => exact .of_acceptor?_none rfl rfl
  | solution => exact .of_link?_none rfl rfl (Expression.covered_ofRegex _).lettered_toAutomaton
  | assembled hA => exact .of_link?_none rfl rfl (Description.lettered_of_toFinite hA)
  | language => exact h
  | other hA hlanguage => exact .of_acceptor?_none hA hlanguage

end Value

/-! ## Sources -/

/-- An automaton that is built has an alphabet of literals. -/
def Source.overLiterals (source : Source) : Bool :=
  match source.build with
  | .ok (.automaton x) => x.body.alphabet.toList.all Symbol.isLiteral
  | _ => true

theorem Source.fits_build {source : Source} {v : Value} {μ : LanguageId → Meaning} {r : Registry}
    (hliteral : source.overLiterals = true) (hv : source.build = .ok v) : v.Fits μ r := by
  rw [overLiterals, hv] at hliteral
  cases builds_of_build hv with
  | automaton hA =>
    refine .of_link?_none rfl rfl ⟨Assembled.intact ⟨_, hA⟩, fun s hs => ?_⟩
    exact Symbol.isLiteral_iff.mp (List.all_eq_true.mp hliteral s hs)
  | describedAutomaton hA => exact .of_link?_none rfl rfl (Description.lettered_of_toFinite hA)
  | expression he | automatonOfText he =>
    exact .of_link?_none rfl rfl (Expression.covered_of_parse he).lettered_toAutomaton
  | minimalOfText he =>
    have hminimal := (Expression.covered_of_parse he).lettered_toAutomaton.denotes.minimal
    exact .of_link?_none rfl rfl hminimal.lettered
  | tree t r => exact .of_link?_none rfl rfl (Expression.covered_ofRegex r).lettered_toAutomaton
  | system => exact .of_acceptor?_none rfl rfl
  | language alphabet => exact ⟨nofun, nofun, fun l hl => by cases hl; rfl⟩
  | other _ hA hlanguage => exact .of_acceptor?_none hA hlanguage

/-! ## Coherent sessions -/

/-- Ids stand for languages such that the facts stored are true and the values fit, those of the
past as well. -/
def Coherent (past : List Value) (n : Nat) (r : Registry) (vs : List Value) : Prop :=
  ∃ μ : LanguageId → Meaning, r.Faithful n μ ∧ ∀ v ∈ past ++ vs, v.Fits μ r

namespace Coherent

variable {past vs : List Value} {n k : Nat} {r r' : Registry} {v w : Value}
    {μ μ' : LanguageId → Meaning}

/-- A registry that keeps the ids takes the place of another. -/
theorem keep (hfits : ∀ v ∈ past ++ vs, v.Fits μ r) (hr : r'.Faithful k μ)
    (hkeep : ∀ id, r.Issued id → r'.Issued id) : Coherent past k r' vs :=
  ⟨μ, hr, fun v hv => (hfits v hv).mono hkeep fun _ _ => rfl⟩

/-- A value joins the others, ids that were not issued before getting languages. -/
theorem extend (hfits : ∀ v ∈ past ++ vs, v.Fits μ r) (hr : r'.Faithful k μ')
    (hkeep : ∀ id, r.Issued id → r'.Issued id ∧ μ' id = μ id) (hw : w.Fits μ' r') :
    Coherent past k r' (w :: vs) := by
  refine ⟨μ', hr, fun v hv => ?_⟩
  rcases List.mem_cons.mp (List.perm_middle.mem_iff.mp hv) with rfl | hv
  · exact hw
  · exact (hfits v hv).mono (fun id hid => (hkeep id hid).1) fun id hid => (hkeep id hid).2

theorem cons (h : Coherent past n r vs) (hw : ∀ μ, (∀ v ∈ vs, v.Fits μ r) → w.Fits μ r) :
    Coherent past n r (w :: vs) := by
  obtain ⟨μ, hr, hfits⟩ := h
  exact extend hfits hr (fun id hid => ⟨hid, rfl⟩)
    (hw μ fun v hv => hfits v (List.mem_append_right past hv))

/-- An unlinked value gets an id, which stands for the language of the value. -/
theorem attach (hv : v.isUnlinked = true) (h : Coherent past n r (v :: vs)) :
    Coherent past (n + 1) (v.attach r).1 ((v.attach r).2.1 :: vs) := by
  obtain ⟨μ, hr, hfits⟩ := h
  obtain ⟨alphabet, hregistry, hlink⟩ := Value.attach_of_isUnlinked (r := r) hv
  have hvfits : v.Fits μ r := hfits v (by simp)
  rw [hregistry]
  -- A value that is no representation has no language to stand for, so its id may stand for any.
  refine extend (fun u hu => hfits u (((List.sublist_cons_self v vs).append_left past).subset hu))
    (hr.register alphabet ((v.acceptor?.map meaning).getD (μ ⟨0, 0⟩)))
    (fun id => hr.issued_register _ _) ?_
  constructor
  · simpa using hvfits.lettered
  · intro A id hA hid
    rw [Value.acceptor?_attach] at hA
    simp only [Value.id?, hlink, Option.map_some, Option.some.injEq] at hid
    subst hid
    refine ⟨(hr.sound.issued_register _).mpr (.inl rfl), ?_⟩
    simpa [Link.id, hA] using (hvfits.lettered A hA).denotes
  · intro l hl
    simp [hl, Value.link?] at hlink

end Coherent

/-- Sessions stay coherent as long as alphabets have literals only and facts are stored by questions
alone. -/
theorem invariant_coherent (past : List Value) :
    Session.Invariant (fun source => source.overLiterals = true) (fun _ => False)
      (Coherent past) where
  perm hp h := by
    obtain ⟨μ, hr, hfits⟩ := h
    exact ⟨μ, hr, fun v hv => hfits v ((hp.append_left past).mem_iff.mpr hv)⟩
  drop {n r v vs} hn h := by
    obtain ⟨μ, hr, hfits⟩ := h
    have hrest (u : Value) (hu : u ∈ past ++ vs) : u.Fits μ r :=
      hfits u (((List.sublist_cons_self v vs).append_left past).subset hu)
    unfold Session.releaseOwned
    split
    · rename_i id _
      exact .keep hrest (hr.release hn id) fun _ => (Registry.issued_release hr.sound hn).mpr
    · exact ⟨μ, hr, hrest⟩
  build hliteral hv h := h.cons fun _ _ => Source.fits_build hliteral hv
  intersect hx hy hA h := h.cons fun _ hfits => by
    have hx := (hfits _ hx).lettered _ rfl
    have hy := (hfits _ hy).lettered _ rfl
    cases (Checked.intersection_eq_ok hx.toIntact hy.toIntact).symm.trans hA
    exact .of_link?_none rfl rfl (hx.intersection hy)
  derive hm hv hw h := h.cons fun _ hfits => (hfits _ hv).of_derivation hm hw
  attach hv h := h.attach hv
  enroll {n r v vs} l hl hv h := by
    obtain ⟨μ, hr, hfits⟩ := h
    have hnone : v.acceptor? = none ∧ v.isLanguage = false := by
      rcases hv with rfl | rfl <;> exact ⟨rfl, rfl⟩
    -- No representation has the new id, and nothing is stored under it that could be false.
    rw [(hfits _ (List.mem_append_right past hl)).language l rfl]
    exact .extend hfits (hr.register _ (μ ⟨0, 0⟩)) (fun id => hr.issued_register _ _)
      (.of_acceptor?_none hnone.1 hnone.2)
  inform v hv h := h.cons fun _ _ => by
    rcases hv with ⟨_, rfl⟩ | ⟨_, rfl⟩ <;> exact .of_acceptor?_none rfl rfl
  minimal {n r v A id vs} hA hid hv h := by
    obtain ⟨μ, hr, hfits⟩ := h
    obtain ⟨hissued, hdenotes⟩ := (hfits v (List.mem_append_right past hv)).linked A id hA hid
    obtain ⟨hr', D, hrecall, hD⟩ := hr.recallMinimal hdenotes
    refine ⟨.keep hfits hr' fun key => issued_recallMinimal hr.sound, fun E hE => ?_⟩
    -- The automaton recalled may have been computed from another value; it stands for the language
    -- of the id.
    cases hrecall.symm.trans hE
    refine .extend hfits hr' (fun key hkey => ⟨issued_recallMinimal hr.sound hkey, rfl⟩) ?_
    constructor
    · intro B hB
      cases hB
      exact hD.denotes.lettered
    · intro B key hB hkey
      cases hB
      cases hkey
      exact ⟨issued_recallMinimal hr.sound hissued, hD.denotes⟩
    · intro l hl
      cases hl
  pump {n r v A id vs} hA hid hv h := by
    obtain ⟨μ, hr, hfits⟩ := h
    obtain ⟨_, hdenotes⟩ := (hfits v (List.mem_append_right past hv)).linked A id hA hid
    exact .keep hfits (hr.recallPumpLength hdenotes).1 fun _ => issued_recallPumpLength hr.sound
  monoid {n r v A id vs} hA hid hv h := by
    obtain ⟨μ, hr, hfits⟩ := h
    obtain ⟨_, hdenotes⟩ := (hfits v (List.mem_append_right past hv)).linked A id hA hid
    exact .keep hfits (hr.recallMonoid hdenotes).1 fun _ => issued_recallMonoid hr.sound
  learn _ hfact _ := hfact.elim
  teach hfact _ := hfact.elim

/-! ## Questions -/

namespace Coherent

variable {past vs : List Value} {n : Nat} {r : Registry} {v : Value} {A : FiniteAutomaton}

theorem lettered (h : Coherent past n r (v :: vs)) (hA : v.acceptor? = some A) : A.Lettered := by
  obtain ⟨μ, _, hfits⟩ := h
  exact (hfits v (by simp)).lettered A hA

/-- An unlinked value alone, with an empty registry. -/
theorem unlinked (h : Coherent past n r (v :: vs)) (hA : v.acceptor? = some A) :
    Coherent [] 0 .empty [v.unlinked] := by
  refine ⟨fun _ => A.meaning, .empty _, fun u hu => ?_⟩
  rw [List.mem_singleton.mp hu]
  exact .of_link?_none (Value.link?_unlinked hA) (Value.acceptor?_unlinked.trans hA) (h.lettered hA)

/-- The id of a value that is asked stands for its language. -/
theorem exists_id (h : Coherent past n r (v :: vs)) (hA : v.acceptor? = some A) :
    ∃ id k, ∃ μ : LanguageId → Meaning, (v.attach r).2.1.id? = some id ∧
      (v.attach r).1.Faithful k μ ∧ A.Denotes (μ id) := by
  obtain ⟨id, _, hid⟩ := Value.exists_attach_eq_ok (r := r) hA
  obtain ⟨μ, hr, hfits⟩ := (invariant_coherent past).attach_value h
  have hvfits : (v.attach r).2.1.Fits μ (v.attach r).1 := hfits _ (by simp)
  exact ⟨id, _, μ, hid, hr, (hvfits.linked A id (Value.acceptor?_attach.trans hA) hid).2⟩

theorem minimalDfa (h : Coherent past n r (v :: vs)) (hA : v.acceptor? = some A) :
    ∃ x : Linked FiniteAutomaton, (v.minimalDfa r).2.2 = .ok (.automaton x) ∧
      x.body.shape = A.determinize.minimize.shape ∧
      x.body.alphabet = A.determinize.minimize.alphabet := by
  obtain ⟨id, k, μ, hid, hr, hdenotes⟩ := h.exists_id hA
  obtain ⟨_, D, hrecall, hD⟩ := hr.recallMinimal hdenotes
  rw [Value.minimalDfa_of_acceptor hA hid, hrecall]
  exact ⟨_, rfl, hD.shape A hdenotes, hD.alphabet_eq hdenotes⟩

theorem pumpLength (h : Coherent past n r (v :: vs)) (hA : v.acceptor? = some A) :
    (v.pumpLength r).2.2 = .ok A.determinize.minimize.size := by
  obtain ⟨id, k, μ, hid, hr, hdenotes⟩ := h.exists_id hA
  rw [Value.pumpLength_of_acceptor hA hid, (hr.recallPumpLength hdenotes).2]
  rfl

theorem syntacticMonoid (h : Coherent past n r (v :: vs)) (hA : v.acceptor? = some A) :
    (v.syntacticMonoid r).2.2 = .ok (.monoid (.ofAutomaton A.determinize.minimize)) := by
  obtain ⟨id, k, μ, hid, hr, hdenotes⟩ := h.exists_id hA
  rw [Value.syntacticMonoid_of_acceptor hA hid, (hr.recallMonoid hdenotes).2]
  rfl

end Coherent

/-! ## Runs -/

/-- The step teaches no language a fact, and an automaton that it builds has an alphabet of
literals. -/
def Step.Undisturbed (step : Step) : Prop :=
  step.Admits (fun source => source.overLiterals = true) fun _ => False

instance : DecidablePred Step.Undisturbed := fun step =>
  inferInstanceAs
    (Decidable (step.Admits (fun source => source.overLiterals = true) fun _ => False))

namespace Session

variable {P : Source → Prop} {Q : Fact → Prop} {I : Nat → Registry → List Value → Prop} {n : Nat}
  {s : Session} {v : Value} {op : Operand}

/-- A statement that is kept holds of an operand and some other values. -/
theorem Invariant.exists_held (hI : Invariant P Q I) (hs : Holds I n s []) (hop : op.Admits P)
    (hv : s.resolve op = .ok v) : ∃ vs, I n s.registry (v :: vs) := by
  cases op with
  | named name =>
    obtain ⟨before, after, hvalues⟩ :=
      List.mem_iff_append.mp (mem_values_of_find? (resolve_named.mp hv))
    have hheld := hs.held
    rw [hvalues] at hheld
    exact ⟨before ++ after, hI.perm List.perm_middle hheld⟩
  | source source => exact ⟨_, hI.build hop hv hs.held⟩

theorem reply_make (hv : s.resolve op = .ok v) {m : Maker} {name : Option String} :
    (s.step (.make m op name)).2 = (v.apply m s.registry).2.2.map .made := by
  simp only [step, applyTo, hv]
  cases (v.apply m s.registry).2.2 <;> rfl

theorem reply_pumpLength (hv : s.resolve op = .ok v) :
    (s.step (.pumpLength op)).2 = (v.pumpLength s.registry).2.2.map .count := by
  simp only [step, applyTo, hv]

theorem holds_coherent {steps : List Step} (hsteps : ∀ step ∈ steps, step.Undisturbed)
    (h : start.registrations steps < 2 ^ 32) :
    Holds (Coherent []) (start.registrations steps) (start.run steps) [] := by
  have hstart : Holds (Coherent []) 0 start [] :=
    ⟨.nil, fun _ => (0, ∅), .empty _, by simp [start]⟩
  have hrun := (invariant_coherent []).run steps hstart hsteps (by omega)
  rwa [Nat.zero_add] at hrun

section Append

variable {before after : List Step} (hsteps : ∀ step ∈ before ++ after, step.Undisturbed)
  (h : start.registrations (before ++ after) < 2 ^ 32)

include hsteps h

theorem holds_before : Holds (Coherent []) (start.registrations before) (start.run before) [] := by
  rw [registrations_append] at h
  exact holds_coherent (fun step hstep => hsteps step (List.mem_append_left after hstep)) (by omega)

/-- The values of a run and those of an earlier part of it are coherent together. -/
theorem holds_append :
    Holds (Coherent ((start.run before).values.map (·.2))) (start.registrations (before ++ after))
      (start.run (before ++ after)) [] := by
  have hbefore := holds_before hsteps h
  obtain ⟨μ, hr, hfits⟩ := hbefore.held
  rw [registrations_append] at h ⊢
  rw [run_append]
  refine (invariant_coherent _).run after ⟨hbefore.names, μ, hr, fun v hv => hfits v ?_⟩
    (fun step hstep => hsteps step (List.mem_append_right before hstep)) h
  rcases List.mem_append.mp hv with hv | hv <;> exact hv

/-- An operand of a step is coherent with other values. -/
theorem exists_coherent (hop : op.Admits fun source => source.overLiterals = true)
    (hv : (start.run before).resolve op = .ok v) :
    ∃ n vs, Coherent [] n (start.run before).registry (v :: vs) :=
  ⟨_, (invariant_coherent []).exists_held (holds_before hsteps h) hop hv⟩

end Append

/-- In a run in which no language is taught a fact, with alphabets of literals and fewer than
`2 ^ 32` registrations, representations with one id accept the same words over the same alphabet, at
whatever time each of them has the id; and a question about the language of a representation gets
the answer that is computed of the representation alone: the minimal automaton up to the names of
its states, its monoid, and the number of its states. -/
theorem coherence_run (steps : List Step) (hsteps : ∀ step ∈ steps, step.Undisturbed)
    (h : start.registrations steps < 2 ^ 32) :
    (∀ before after x y v w A B id, steps = before ++ after →
      (start.run before).find? x = some v → v.acceptor? = some A → v.id? = some id →
      (start.run steps).find? y = some w → w.acceptor? = some B → w.id? = some id →
        A.alphabet = B.alphabet ∧ ∀ word : Word, word.Plain → A.accepts word = B.accepts word) ∧
    (∀ before after op name v A, steps = before ++ .make .minimalDfa op name :: after →
      (start.run before).resolve op = .ok v → v.acceptor? = some A →
        ∃ x x₀, ((start.run before).step (.make .minimalDfa op name)).2 =
          .ok (.made (.automaton x)) ∧
          (v.unlinked.apply .minimalDfa .empty).2.2 = .ok (.automaton x₀) ∧
          (Value.automaton x).Alike (.automaton x₀) ∧ x₀.body = A.determinize.minimize) ∧
    (∀ before after op name v A, steps = before ++ .make .syntacticMonoid op name :: after →
      (start.run before).resolve op = .ok v → v.acceptor? = some A →
        ∃ M, ((start.run before).step (.make .syntacticMonoid op name)).2 =
          .ok (.made (.monoid M)) ∧
          (v.unlinked.apply .syntacticMonoid .empty).2.2 = .ok (.monoid M) ∧
          M = .ofAutomaton A.determinize.minimize) ∧
    ∀ before after op v A, steps = before ++ .pumpLength op :: after →
      (start.run before).resolve op = .ok v → v.acceptor? = some A →
        ∃ k, ((start.run before).step (.pumpLength op)).2 = .ok (.count k) ∧
          (v.unlinked.pumpLength .empty).2.2 = .ok k ∧ k = A.determinize.minimize.size := by
  refine ⟨?_, ?_, ?_, ?_⟩
  · rintro before after x y v w A B id rfl hx hA hv hy hB hw
    obtain ⟨μ, _, hfits⟩ := (holds_append hsteps h).held
    have hvfits := hfits v (List.mem_append_left _ (mem_values_of_find? hx))
    have hwfits := hfits w (List.mem_append_right _ (mem_values_of_find? hy))
    exact (hvfits.linked A id hA hv).2.accepts_eq (hwfits.linked B id hB hw).2
  · rintro before after op name v A rfl hop hA
    have hstep : (Step.make .minimalDfa op name).Undisturbed := hsteps _ (by simp)
    obtain ⟨n, vs, hheld⟩ := exists_coherent hsteps h hstep hop
    obtain ⟨x, hx, hshape, halphabet⟩ := hheld.minimalDfa hA
    obtain ⟨x₀, hx₀, hbody⟩ := Value.minimalDfa_unlinked hA (hheld.lettered hA).toIntact
    rw [← hbody] at hshape halphabet
    refine ⟨x, x₀, ?_, hx₀, ⟨hshape, halphabet⟩, hbody⟩
    rw [reply_make hop]
    exact congrArg (Except.map Reply.made) hx
  · rintro before after op name v A rfl hop hA
    have hstep : (Step.make .syntacticMonoid op name).Undisturbed := hsteps _ (by simp)
    obtain ⟨n, vs, hheld⟩ := exists_coherent hsteps h hstep hop
    refine ⟨_, ?_, (hheld.unlinked hA).syntacticMonoid (Value.acceptor?_unlinked.trans hA), rfl⟩
    rw [reply_make hop]
    exact congrArg (Except.map Reply.made) (hheld.syntacticMonoid hA)
  · rintro before after op v A rfl hop hA
    have hstep : (Step.pumpLength op).Undisturbed := hsteps _ (by simp)
    obtain ⟨n, vs, hheld⟩ := exists_coherent hsteps h hstep hop
    refine ⟨_, ?_, (hheld.unlinked hA).pumpLength (Value.acceptor?_unlinked.trans hA), rfl⟩
    rw [reply_pumpLength hop, hheld.pumpLength hA]
    rfl

/-- An expression shares its language with a copy and goes; its slot is used again, for an automaton
whose minimal form is asked for. The copy has an id that finds nothing, and is asked as well. -/
def recycling : List Step :=
  [.build (.tree (.literal true "a")) (some "x"), .make .languageId (.named "x") none,
    .make .clone (.named "x") (some "y"), .drop "x",
    .build (.automaton true ⟨0, [⟨0, "", true, ∅⟩], .ofList [.literal "a"]⟩) (some "z"),
    .make .minimalDfa (.named "z") none, .make .minimalDfa (.named "y") (some "m"),
    .make .syntacticMonoid (.named "m") none, .pumpLength (.named "m")]

theorem coherence_run_recycling :
    (∀ step ∈ recycling, step.Undisturbed) ∧ start.registrations recycling < 2 ^ 32 ∧
      (start.run recycling).registry.isAlive ⟨0, 0⟩ = false ∧
      (start.run recycling).registry.isAlive ⟨0, 1⟩ = true ∧
      (∃ v w A B, (start.run (recycling.take 2)).find? "x" = some v ∧ v.acceptor? = some A ∧
        v.id? = some ⟨0, 0⟩ ∧ (start.run recycling).find? "m" = some w ∧ w.acceptor? = some B ∧
        w.id? = some ⟨0, 0⟩ ∧ A.alphabet = B.alphabet ∧
          ∀ word : Word, word.Plain → A.accepts word = B.accepts word) ∧
      (∃ v x x₀, (start.run (recycling.take 6)).find? "y" = some v ∧
        ((start.run (recycling.take 6)).step (.make .minimalDfa (.named "y") (some "m"))).2 =
          .ok (.made (.automaton x)) ∧
        (v.unlinked.apply .minimalDfa .empty).2.2 = .ok (.automaton x₀) ∧
        x.body.shape = x₀.body.shape) ∧
      (∃ v M, (start.run (recycling.take 7)).find? "m" = some v ∧
        ((start.run (recycling.take 7)).step (.make .syntacticMonoid (.named "m") none)).2 =
          .ok (.made (.monoid M)) ∧
        (v.unlinked.apply .syntacticMonoid .empty).2.2 = .ok (.monoid M)) ∧
      ∃ v k, (start.run (recycling.take 8)).find? "m" = some v ∧
        ((start.run (recycling.take 8)).step (.pumpLength (.named "m"))).2 = .ok (.count k) ∧
          (v.unlinked.pumpLength .empty).2.2 = .ok k := by
  have hsteps : ∀ step ∈ recycling, step.Undisturbed := by decide +kernel
  have h : start.registrations recycling < 2 ^ 32 := by decide +kernel
  obtain ⟨hwords, hminimal, hmonoid, hpump⟩ := coherence_run recycling hsteps h
  let e : Expression := .ofRegex (.literal "a")
  let D : FiniteAutomaton := e.toAutomaton.determinize.minimize
  have hx : (start.run (recycling.take 2)).find? "x" =
      some (.expression ⟨e, some (.owner ⟨0, 0⟩)⟩) := by
    decide +kernel
  have hy : (start.run (recycling.take 6)).find? "y" =
      some (.expression ⟨e, some (.shared ⟨0, 0⟩)⟩) := by
    decide +kernel
  have hm : (start.run (recycling.take 7)).find? "m" =
      some (.automaton ⟨D, some (.shared ⟨0, 0⟩)⟩) := by
    decide +kernel
  have hkept :
      (start.run (recycling.take 8)).find? "m" = some (.automaton ⟨D, some (.shared ⟨0, 0⟩)⟩) := by
    decide +kernel
  have hend : (start.run recycling).find? "m" = some (.automaton ⟨D, some (.shared ⟨0, 0⟩)⟩) := by
    decide +kernel
  refine ⟨hsteps, h, by decide +kernel, by decide +kernel, ?_, ?_, ?_, ?_⟩
  · exact ⟨_, _, _, _, hx, rfl, rfl, hend, rfl, rfl, hwords (recycling.take 2) (recycling.drop 2)
      "x" "m" _ _ _ _ _ rfl hx rfl rfl hend rfl rfl⟩
  · obtain ⟨x, x₀, hreply, hfresh, halike, _⟩ :=
      hminimal (recycling.take 6) (recycling.drop 7) (.named "y")
      (some "m") _ _ rfl (resolve_named.mpr hy) rfl
    exact ⟨_, x, x₀, hy, hreply, hfresh, halike.1⟩
  · obtain ⟨M, hreply, hfresh, _⟩ :=
      hmonoid (recycling.take 7) (recycling.drop 8) (.named "m") none _ _
      rfl (resolve_named.mpr hm) rfl
    exact ⟨_, M, hm, hreply, hfresh⟩
  · obtain ⟨k, hreply, hfresh, _⟩ :=
      hpump (recycling.take 8) (recycling.drop 9) (.named "m") _ _ rfl
      (resolve_named.mpr hkept) rfl
    exact ⟨_, k, hkept, hreply, hfresh⟩

end Session

end Acceptors
