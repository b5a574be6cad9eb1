import Acceptors.Proofs.Regex.Grammar
import Mathlib.Tactic.SplitIfs

/-!
The reader against the grammar. What derives is read, phrase by phrase (`reads_alternation`). What
is read derives: the text read so far is that of the open groups, of the frame and of the mode
(`Covers`), which each step keeps (`Covers.step`) and hence each run (`Covers.run`). Main statement:
`parse_eq_ok_iff`.
-/

namespace Acceptors.Regex

open Grammar

namespace Reader

/-! ## Reading phrases -/

/-- From any position on, the text leads from one reader to the other. -/
def Reads (r : Reader) (u : List Char) (r' : Reader) : Prop :=
  ∀ position, r.run position u = .ok r'

variable {r r' r'' : Reader} {f : Frame} {gs : List Group} {u v b : List Char} {c : Char}

theorem run_append_eq (r : Reader) (position : Nat) (u v : List Char) :
    r.run position (u ++ v) = (r.run position u).bind fun r' => r'.run (position + u.length) v := by
  induction u generalizing r position with
  | nil => rfl
  | cons c u ih =>
    rw [List.cons_append, run, run]
    cases r.step position c with
    | error e => rfl
    | ok q =>
      rw [List.length_cons, Nat.add_comm u.length, ← Nat.add_assoc]
      exact ih q (position + 1)

theorem run_append {position : Nat} (h : r.run position u = .ok r') :
    r.run position (u ++ v) = r'.run (position + u.length) v := by
  rw [run_append_eq, h]
  rfl

theorem run_append_of_error {position : Nat} {e : ReadError} (h : r.run position u = .error e) :
    r.run position (u ++ v) = .error e := by
  rw [run_append_eq, h]
  rfl

theorem Reads.append (h : r.Reads u r') (h' : r'.Reads v r'') : r.Reads (u ++ v) r'' :=
  fun position => (run_append (h position)).trans (h' _)

theorem reads_nil : r.Reads [] r := fun _ => rfl

theorem reads_singleton (h : ∀ position, r.step position c = .ok r') : r.Reads [c] r' := by
  intro position
  rw [run, h]
  rfl

theorem step_blank (position : Nat) (h : isBlank c = true) :
    (Reader.mk .plain f gs).step position c = .ok ⟨.plain, f, gs⟩ := by
  simp [step, stepPlain, h]

theorem reads_blank (h : Blank b) : (Reader.mk .plain f gs).Reads b ⟨.plain, f, gs⟩ := by
  induction b with
  | nil => exact reads_nil
  | cons c b ih =>
    have hc : (Reader.mk .plain f gs).Reads [c] ⟨.plain, f, gs⟩ :=
      reads_singleton fun position => step_blank position (h c List.mem_cons_self)
    exact hc.append (ih fun c' hc' => h c' (List.mem_cons_of_mem c hc'))

theorem step_char (position : Nat) (h : isSpecial c = false) :
    (Reader.mk .plain f gs).step position c =
      .ok ⟨.plain, f.push (literal (String.singleton c)), gs⟩ := by
  simp only [isSpecial, List.mem_cons, List.not_mem_nil, or_false, Bool.or_eq_false_iff,
    decide_eq_false_iff_not, not_or] at h
  simp [step, stepPlain, h, push]

theorem step_epsilon (position : Nat) (h : c = 'ε' ∨ c = 'ϵ') :
    (Reader.mk .plain f gs).step position c = .ok ⟨.plain, f.push epsilon, gs⟩ := by
  rcases h with rfl | rfl <;> rfl

theorem step_open (position : Nat) (h : gs.length < nestLimit) :
    (Reader.mk .plain f gs).step position '(' = .ok ⟨.plain, .start, ⟨position, f⟩ :: gs⟩ := by
  change openGroup ⟨.plain, f, gs⟩ position = _
  rw [openGroup, if_neg (Nat.not_le.mpr h)]

theorem step_close (position opened : Nat) {f' : Frame} (h : f'.factors ≠ []) :
    (Reader.mk .plain f' (⟨opened, f⟩ :: gs)).step position ')' =
      .ok ⟨.plain, f.push f'.close, gs⟩ := by
  change closeGroup ⟨.plain, f', ⟨opened, f⟩ :: gs⟩ position = _
  rw [closeGroup, if_neg (by simpa using h)]

theorem step_separate (position : Nat) (h : f.factors ≠ []) :
    (Reader.mk .plain f gs).step position '|' = .ok ⟨.plain, f.separate, gs⟩ := by
  change separate ⟨.plain, f, gs⟩ position = _
  rw [separate, if_neg (by simpa using h)]

theorem reads_name {cs : List Char} (h : Name u cs) (opened : Nat) (chars : List Char) :
    (Reader.mk (.name opened chars) f gs).Reads u ⟨.name opened (cs.reverse ++ chars), f, gs⟩ := by
  induction h generalizing chars with
  | nil => exact reads_nil
  | @char c u cs hclose hback _ ih =>
    have hc : (Reader.mk (.name opened chars) f gs).Reads [c] ⟨.name opened (c :: chars), f, gs⟩ :=
      reads_singleton fun position => by simp [step, hclose, hback]
    have hrest := hc.append (ih (c :: chars))
    simpa using hrest
  | @escape c u cs _ ih =>
    have hback : (Reader.mk (.name opened chars) f gs).Reads ['\\']
        ⟨.nameEscape opened chars, f, gs⟩ := reads_singleton fun position => rfl
    have hc : (Reader.mk (.nameEscape opened chars) f gs).Reads [c]
        ⟨.name opened (c :: chars), f, gs⟩ := reads_singleton fun position => rfl
    have hrest := (hback.append hc).append (ih (c :: chars))
    simpa using hrest

mutual

theorem reads_alternation : {d : Nat} → {u : List Char} → {ts : List Regex} → Alternation d u ts →
    ∀ (as : List Regex) (gs : List Group), gs.length + d ≤ nestLimit →
      ∃ f : Frame, f.factors ≠ [] ∧ f.separate.alternatives = ts.reverse ++ as ∧
        (Reader.mk .plain ⟨as, []⟩ gs).Reads u ⟨.plain, f, gs⟩
  | _, _, _, @Alternation.single _ _ rs h, as, gs, hgs => by
    refine ⟨⟨as, rs.reverse⟩, by simpa using h.ne_nil, by simp [Frame.separate], ?_⟩
    simpa using reads_concatenation h ⟨as, []⟩ gs hgs
  | _, _, _, @Alternation.cons _ _ _ _ rs _ h hb h', as, gs, hgs => by
    obtain ⟨f, hne, hf, hreads⟩ := reads_alternation h' (product rs :: as) gs hgs
    refine ⟨f, hne, by simp [hf], ?_⟩
    have hfactors := reads_concatenation h ⟨as, []⟩ gs hgs
    have hbar : (Reader.mk .plain ⟨as, rs.reverse ++ []⟩ gs).Reads ['|']
        ⟨.plain, ⟨product rs :: as, []⟩, gs⟩ :=
      reads_singleton fun position => by
        rw [step_separate position (by simpa using h.ne_nil)]
        simp [Frame.separate]
    simpa using ((hfactors.append (reads_blank hb)).append hbar).append hreads

theorem reads_concatenation : {d : Nat} → {u : List Char} → {rs : List Regex} →
    Concatenation d u rs → ∀ (f : Frame) (gs : List Group), gs.length + d ≤ nestLimit →
      (Reader.mk .plain f gs).Reads u ⟨.plain, ⟨f.alternatives, rs.reverse ++ f.factors⟩, gs⟩
  | _, _, _, .single h, f, gs, hgs => reads_starred h f gs hgs
  | _, _, _, .cons h h', f, gs, hgs => by
    have hrest := (reads_starred h f gs hgs).append (reads_concatenation h' _ gs hgs)
    simpa [Frame.push] using hrest

theorem reads_starred : {d : Nat} → {u : List Char} → {r : Regex} → Starred d u r →
    ∀ (f : Frame) (gs : List Group), gs.length + d ≤ nestLimit →
      (Reader.mk .plain f gs).Reads u ⟨.plain, f.push r, gs⟩
  | _, _, _, .atom hb h, f, gs, hgs => (reads_blank hb).append (reads_atom h f gs hgs)
  | _, _, _, .star (r := r) h hb, f, gs, hgs => by
    have hstar : (Reader.mk .plain (f.push r) gs).Reads ['*'] ⟨.plain, f.push (iterate r), gs⟩ :=
      reads_singleton fun _ => rfl
    exact ((reads_starred h f gs hgs).append (reads_blank hb)).append hstar

theorem reads_atom : {d : Nat} → {u : List Char} → {r : Regex} → Atom d u r →
    ∀ (f : Frame) (gs : List Group), gs.length + d ≤ nestLimit →
      (Reader.mk .plain f gs).Reads u ⟨.plain, f.push r, gs⟩
  | _, _, _, @Atom.group _ _ _ ts h hb, f, gs, hgs => by
    intro position
    have hlt : gs.length < nestLimit := by omega
    obtain ⟨f', hne, hf', hreads⟩ := reads_alternation h [] (⟨position, f⟩ :: gs) (by
      rw [List.length_cons]
      omega)
    have hclose : (Reader.mk .plain f' (⟨position, f⟩ :: gs)).Reads [')']
        ⟨.plain, f.push (sum ts), gs⟩ :=
      reads_singleton fun q => by
        rw [step_close q position hne, Frame.close, hf']
        simp
    have hinner := ((hreads.append (reads_blank hb)).append hclose) (position + 1)
    rw [List.cons_append, List.cons_append, run, step_open position hlt]
    exact hinner
  | _, _, _, .char h, f, gs, _ => reads_singleton fun position => step_char position h
  | _, _, _, .escape (c := c), f, gs, _ => by
    have hback : (Reader.mk .plain f gs).Reads ['\\'] ⟨.escape, f, gs⟩ :=
      reads_singleton fun _ => rfl
    have hc : (Reader.mk .escape f gs).Reads [c]
        ⟨.plain, f.push (literal (String.singleton c)), gs⟩ := reads_singleton fun _ => rfl
    exact hback.append hc
  | _, _, _, @Atom.name _ _ cs h hne, f, gs, _ => by
    intro position
    have hclose : (Reader.mk (.name position (cs.reverse ++ [])) f gs).Reads ['>']
        ⟨.plain, f.push (literal (String.ofList cs)), gs⟩ :=
      reads_singleton fun q => by simp [step, hne, push]
    exact ((reads_name h position []).append hclose) (position + 1)
  | _, _, _, .epsilon h, f, gs, _ => reads_singleton fun position => step_epsilon position h
  | _, _, _, .empty, f, gs, _ => reads_singleton fun _ => rfl

end

theorem finish_of_alternation {ts : List Regex} (hne : f.factors ≠ [])
    (hf : f.separate.alternatives = ts.reverse) :
    (Reader.mk .plain f []).finish = .ok (sum ts) := by
  simp [finish, hne, Frame.close, hf]

/-! ## What has been read -/

/-- Text of finished alternatives, each with its bar, and their trees, latest first. -/
inductive Finished (d : Nat) : List Char → List Regex → Prop
  | nil : Finished d [] []
  | snoc {v u b : List Char} {ts rs : List Regex} :
      Finished d v ts → Concatenation d u rs → Blank b →
        Finished d (v ++ u ++ b ++ ['|']) (product rs :: ts)

/-- Text of what has been read of a group. -/
inductive FrameText (d : Nat) : List Char → Frame → Prop
  | start {v b : List Char} {ts : List Regex} :
      Finished d v ts → Blank b → FrameText d (v ++ b) ⟨ts, []⟩
  | factors {v u b : List Char} {ts rs : List Regex} :
      Finished d v ts → Concatenation d u rs → Blank b → FrameText d (v ++ u ++ b) ⟨ts, rs.reverse⟩

/-- Text up to the latest parenthesis that is open. -/
inductive GroupsText : List Char → List Group → Prop
  | nil : GroupsText [] []
  | cons {v u : List Char} {f : Frame} {gs : List Group} :
      GroupsText v gs → FrameText (nestLimit - gs.length) u f → gs.length < nestLimit →
        GroupsText (v ++ u ++ ['(']) (⟨(v ++ u).length, f⟩ :: gs)

/-- Text of an atom that is not complete, which begins at a position. -/
inductive ModeText (position : Nat) : List Char → Mode → Prop
  | plain : ModeText position [] .plain
  | escape : ModeText position ['\\'] .escape
  | name {u chars : List Char} :
      Name u chars.reverse → ModeText position ('<' :: u) (.name position chars)
  | nameEscape {u chars : List Char} :
      Name u chars.reverse → ModeText position ('<' :: u ++ ['\\']) (.nameEscape position chars)

/-- A reader's groups, frame and mode account for a text. -/
def Covers (u : List Char) (r : Reader) : Prop :=
  ∃ v w m, u = v ++ w ++ m ∧ GroupsText v r.groups ∧
    FrameText (nestLimit - r.groups.length) w r.frame ∧ ModeText (v ++ w).length m r.mode

variable {d : Nat} {ts rs : List Regex}

theorem Finished.alternation (h : Finished d v ts) (hu : Alternation d u rs) :
    Alternation d (v ++ u) (ts.reverse ++ rs) := by
  induction h generalizing u rs with
  | nil => exact hu
  | snoc _ hc hb ih =>
    have hrest := ih (.cons hc hb hu)
    simpa using hrest

namespace FrameText

theorem empty : FrameText d [] .start := .start .nil blank_nil

theorem blank (h : FrameText d u f) (hc : isBlank c = true) : FrameText d (u ++ [c]) f := by
  cases h with
  | start hv hb =>
    rw [List.append_assoc]
    exact .start hv (hb.append (blank_singleton hc))
  | factors hv hu hb =>
    rw [List.append_assoc]
    exact .factors hv hu (hb.append (blank_singleton hc))

theorem push {a : Regex} (h : FrameText d u f) (ha : Atom d v a) :
    FrameText d (u ++ v) (f.push a) := by
  cases h with
  | start hv hb =>
    have hone := FrameText.factors hv (.single (.atom hb ha)) blank_nil
    simpa [Frame.push] using hone
  | factors hv hu hb =>
    have hmore := FrameText.factors hv (hu.append (.single (.atom hb ha))) blank_nil
    simpa [Frame.push] using hmore

theorem separate (h : FrameText d u f) (hne : f.factors ≠ []) :
    FrameText d (u ++ ['|']) f.separate := by
  cases h with
  | start => exact absurd rfl hne
  | factors hv hu hb =>
    have hstart := FrameText.start (.snoc hv hu hb) blank_nil
    simpa [Frame.separate] using hstart

theorem star {last : Regex} {fs : List Regex} (h : FrameText d u f) (hf : f.factors = last :: fs) :
    FrameText d (u ++ ['*']) { f with factors := iterate last :: fs } := by
  cases h with
  | start => cases hf
  | factors hv hu hb =>
    have hstar := FrameText.factors hv (hu.star hb (List.reverse_eq_cons_iff.mp hf)) blank_nil
    simpa using hstar

theorem close (h : FrameText d u f) (hne : f.factors ≠ []) :
    ∃ v b ts, Alternation d v ts ∧ Blank b ∧ u = v ++ b ∧ f.close = sum ts := by
  cases h with
  | start => exact absurd rfl hne
  | factors hv hu hb =>
    exact ⟨_, _, _, hv.alternation (.single hu), hb, rfl, by simp [Frame.close, Frame.separate]⟩

end FrameText

/-! ## One step -/

/-- An atom that is complete belongs to the frame. -/
theorem covers_push {a : Regex} {mode : Mode} {w : List Char} (hv : GroupsText v gs)
    (hw : FrameText (nestLimit - gs.length) w f) (ha : Atom (nestLimit - gs.length) u a) :
    Covers (v ++ w ++ u) ((Reader.mk mode f gs).push a) :=
  ⟨v, w ++ u, [], by simp, hv, hw.push ha, .plain⟩

theorem covers_openGroup {w : List Char} (hv : GroupsText v gs)
    (hw : FrameText (nestLimit - gs.length) w f)
    (h : (Reader.mk .plain f gs).openGroup (v ++ w).length = .ok r') :
    Covers (v ++ w ++ ['(']) r' := by
  unfold openGroup at h
  split at h
  · cases h
  · rename_i hlt
    cases h
    exact ⟨v ++ w ++ ['('], [], [], by simp, .cons hv hw (Nat.lt_of_not_le hlt), .empty, .plain⟩

theorem covers_closeGroup {w : List Char} {position : Nat} (hv : GroupsText v gs)
    (hw : FrameText (nestLimit - gs.length) w f)
    (h : (Reader.mk .plain f gs).closeGroup position = .ok r') : Covers (v ++ w ++ [')']) r' := by
  unfold closeGroup at h
  split at h
  · cases h
  · rename_i hne
    cases hv with
    | nil => cases h
    | @cons v' w' f' gs hv' hw' hlt =>
      cases h
      obtain ⟨u, b, ts, hu, hb, rfl, hclose⟩ := hw.close (by simpa using hne)
      have hgroup := Atom.group hu hb
      rw [List.length_cons, Nat.sub_add_eq, Nat.sub_add_cancel (Nat.sub_pos_of_lt hlt)] at hgroup
      have hpush : Covers _ ((Reader.mk .plain f' gs).push (sum ts)) := covers_push hv' hw' hgroup
      rw [← hclose] at hpush
      simpa [Reader.push] using hpush

theorem covers_separate {w : List Char} {position : Nat} (hv : GroupsText v gs)
    (hw : FrameText (nestLimit - gs.length) w f)
    (h : (Reader.mk .plain f gs).separate position = .ok r') : Covers (v ++ w ++ ['|']) r' := by
  unfold Reader.separate at h
  split at h
  · cases h
  · rename_i hne
    cases h
    exact ⟨v, w ++ ['|'], [], by simp, hv, hw.separate (by simpa using hne), .plain⟩

theorem covers_starLast {w : List Char} {position : Nat} (hv : GroupsText v gs)
    (hw : FrameText (nestLimit - gs.length) w f)
    (h : (Reader.mk .plain f gs).starLast position = .ok r') : Covers (v ++ w ++ ['*']) r' := by
  unfold starLast at h
  split at h
  · cases h
  · rename_i last factors hfactors
    cases h
    exact ⟨v, w ++ ['*'], [], by simp, hv, hw.star hfactors, .plain⟩

/-- What a character between atoms comes to, by its kind. -/
inductive PlainStep (r : Reader) (position : Nat) : Char → Except ReadError Reader → Prop
  | blank {c : Char} : isBlank c = true → PlainStep r position c (.ok r)
  | openGroup {o : Except ReadError Reader} : r.openGroup position = o → PlainStep r position '(' o
  | closeGroup {o : Except ReadError Reader} : r.closeGroup position = o →
    PlainStep r position ')' o
  | separate {o : Except ReadError Reader} : r.separate position = o → PlainStep r position '|' o
  | starLast {o : Except ReadError Reader} : r.starLast position = o → PlainStep r position '*' o
  | escape : PlainStep r position '\\' (.ok { r with mode := .escape })
  | name : PlainStep r position '<' (.ok { r with mode := .name position [] })
  | atom {c : Char} {a : Regex} : (∀ d, Atom d [c] a) → PlainStep r position c (.ok (r.push a))
  | unexpected {c : Char} : PlainStep r position c (.error (.unexpectedChar position c))

theorem plainStep_stepPlain (r : Reader) (position : Nat) (c : Char) :
    PlainStep r position c (r.stepPlain position c) := by
  unfold stepPlain
  by_cases hblank : isBlank c = true
  · rw [if_pos hblank]
    exact .blank hblank
  rw [if_neg hblank]
  by_cases hopen : c = '('
  · rw [if_pos hopen, hopen]
    exact .openGroup rfl
  rw [if_neg hopen]
  by_cases hclose : c = ')'
  · rw [if_pos hclose, hclose]
    exact .closeGroup rfl
  rw [if_neg hclose]
  by_cases hbar : c = '|'
  · rw [if_pos hbar, hbar]
    exact .separate rfl
  rw [if_neg hbar]
  by_cases hstar : c = '*'
  · rw [if_pos hstar, hstar]
    exact .starLast rfl
  rw [if_neg hstar]
  by_cases hback : c = '\\'
  · rw [if_pos hback, hback]
    exact .escape
  rw [if_neg hback]
  by_cases hangle : c = '<'
  · rw [if_pos hangle, hangle]
    exact .name
  rw [if_neg hangle]
  by_cases hempty : c = '∅'
  · rw [if_pos hempty, hempty]
    exact .atom fun _ => .empty
  rw [if_neg hempty]
  by_cases hepsilon : c = 'ε' ∨ c = 'ϵ'
  · rw [if_pos hepsilon]
    exact .atom fun _ => .epsilon hepsilon
  rw [if_neg hepsilon]
  by_cases hright : c = '>'
  · rw [if_pos hright]
    exact .unexpected
  · rw [if_neg hright]
    have hspecial : isSpecial c = false := by
      simp [isSpecial, hblank, hopen, hclose, hbar, hstar, hback, hangle, hempty, hright,
        not_or.mp hepsilon]
    exact .atom fun _ => .char hspecial

theorem covers_stepPlain {w : List Char} (hv : GroupsText v gs)
    (hw : FrameText (nestLimit - gs.length) w f)
    (h : (Reader.mk .plain f gs).stepPlain (v ++ w).length c = .ok r') :
    Covers (v ++ w ++ [c]) r' := by
  have hstep := plainStep_stepPlain ⟨.plain, f, gs⟩ (v ++ w).length c
  rw [h] at hstep
  cases hstep with
  | blank hblank => exact ⟨v, w ++ [c], [], by simp, hv, hw.blank hblank, .plain⟩
  | openGroup h => exact covers_openGroup hv hw h
  | closeGroup h => exact covers_closeGroup hv hw h
  | separate h => exact covers_separate hv hw h
  | starLast h => exact covers_starLast hv hw h
  | escape => exact ⟨v, w, ['\\'], rfl, hv, hw, .escape⟩
  | name => exact ⟨v, w, ['<'], rfl, hv, hw, .name .nil⟩
  | atom ha => exact covers_push hv hw (ha _)

/-- Each step accounts for its character. -/
theorem Covers.step (h : Covers u r) (hs : r.step u.length c = .ok r') : Covers (u ++ [c]) r' := by
  obtain ⟨v, w, m, rfl, hv, hw, hm⟩ := h
  obtain ⟨mode, f, gs⟩ := r
  cases hm with
  | plain =>
    rw [List.append_nil] at hs ⊢
    exact covers_stepPlain hv hw hs
  | escape =>
    cases hs
    rw [List.append_assoc]
    exact covers_push hv hw .escape
  | @name n chars hn =>
    simp only [Reader.step] at hs
    split_ifs at hs with hback hclose hnil
    · cases hs
      exact ⟨v, w, '<' :: n ++ [c], by simp, hv, hw, hback ▸ .nameEscape hn⟩
    · cases hs
      rw [List.append_assoc, hclose]
      exact covers_push hv hw (.name hn (by simpa using hnil))
    · cases hs
      have hmore : Name (n ++ [c]) (c :: chars).reverse := by
        rw [List.reverse_cons]
        exact hn.append (.char hclose hback .nil)
      exact ⟨v, w, '<' :: (n ++ [c]), by simp, hv, hw, .name hmore⟩
  | @nameEscape n chars hn =>
    cases hs
    have hmore : Name (n ++ ['\\', c]) (c :: chars).reverse := by
      rw [List.reverse_cons]
      exact hn.append (.escape .nil)
    exact ⟨v, w, '<' :: (n ++ ['\\', c]), by simp, hv, hw, .name hmore⟩

/-- A run accounts for its text. -/
theorem Covers.run (h : Covers u r) (hs : r.run u.length v = .ok r') : Covers (u ++ v) r' := by
  induction v generalizing u r with
  | nil =>
    cases hs
    rwa [List.append_nil]
  | cons c v ih =>
    rw [Reader.run] at hs
    cases hstep : r.step u.length c with
    | error e =>
      rw [hstep] at hs
      cases hs
    | ok q =>
      rw [hstep] at hs
      have hq := h.step hstep
      rw [List.append_cons]
      exact ih hq (by simpa using hs)

theorem covers_start : Covers [] start := ⟨[], [], [], rfl, .nil, .empty, .plain⟩

theorem Covers.derives {t : Regex} (h : Covers u r) (hf : r.finish = .ok t) :
    Derives nestLimit u t := by
  obtain ⟨v, w, m, rfl, hv, hw, hm⟩ := h
  obtain ⟨mode, f, gs⟩ := r
  cases hm with
  | escape | name | nameEscape => cases hf
  | plain =>
    simp only [finish] at hf
    split at hf
    · cases hf
    · rename_i hne
      cases hv with
      | cons => cases hf
      | nil =>
        cases hf
        obtain ⟨u, b, ts, hu, hb, rfl, hclose⟩ := hw.close (by simpa using hne)
        exact ⟨u, b, ts, hu, hb, by simp, hclose⟩

end Reader

/-! ## Reading and deriving -/

theorem read_of_derives {cs : List Char} {t : Regex} (h : Derives nestLimit cs t) :
    read cs = .ok t := by
  obtain ⟨u, b, ts, hu, hb, rfl, rfl⟩ := h
  obtain ⟨f, hne, hf, hreads⟩ := Reader.reads_alternation hu [] [] (by simp)
  rw [List.append_nil] at hf
  have hrun : Reader.start.run 0 (u ++ b) = .ok ⟨.plain, f, []⟩ :=
    (hreads.append (Reader.reads_blank hb)) 0
  rw [read, hrun]
  exact Reader.finish_of_alternation hne hf

theorem derives_of_read {cs : List Char} {t : Regex} (h : read cs = .ok t) :
    Derives nestLimit cs t := by
  unfold read at h
  split at h
  · rename_i r hrun
    exact (Reader.covers_start.run hrun).derives h
  · cases h

/-- A text is read as a tree if and only if it derives and the tree is the one that it stands
for. -/
theorem parse_eq_ok_iff (text : String) (t : Regex) :
    parse text = .ok t ↔ Derives nestLimit text.toList t :=
  ⟨derives_of_read, read_of_derives⟩

end Acceptors.Regex
