import Acceptors.Proofs.Regex.Reader

/-!
What the error of a text says about it. A step that fails has met text that no continuation mends
(`Refused`), and its error stays; a reader that has not failed can be brought to an end
(`exists_finish`), so an error found at the end means that text is missing. Main statement:
`parse_eq_error`.
-/

namespace Acceptors.Regex

namespace ReadError

/-- The text lacks its end. -/
def isIncomplete : ReadError → Bool
  | unexpectedEnd | unclosedGroup _ | unclosedName _ => true
  | unexpectedChar _ _ | missingOperand _ | nestedTooDeep _ => false

/-- The position of the error lies in the text, at the character which the error is about. -/
def Located (cs : List Char) : ReadError → Prop
  | unexpectedChar position found => cs[position]? = some found
  | unclosedGroup position | nestedTooDeep position => cs[position]? = some '('
  | unclosedName position => cs[position]? = some '<'
  | missingOperand position => position < cs.length
  | unexpectedEnd => True

theorem Located.append {cs : List Char} {e : ReadError} (h : e.Located cs) (ds : List Char) :
    e.Located (cs ++ ds) := by
  have hchar {p : Nat} {c : Char} (hp : cs[p]? = some c) : (cs ++ ds)[p]? = some c := by
    rw [List.getElem?_append_left (List.getElem?_eq_some_iff.mp hp).1, hp]
  cases e with
  | unexpectedEnd => trivial
  | missingOperand =>
    rw [Located, List.length_append]
    exact Nat.lt_add_right _ h
  | unexpectedChar | unclosedGroup | unclosedName | nestedTooDeep => exact hchar h

end ReadError

namespace Reader

variable {r : Reader} {f : Frame} {gs : List Group} {u v : List Char} {c : Char} {position : Nat}
  {e : ReadError}

/-! ## Errors of a step -/

/-- The errors that a reader can meet on a character at a position. -/
inductive Refused (r : Reader) (position : Nat) (c : Char) : ReadError → Prop
  | char : Refused r position c (.unexpectedChar position c)
  | operand : Refused r position c (.missingOperand position)
  | depth : c = '(' → Refused r position c (.nestedTooDeep position)
  | name {opened : Nat} {chars : List Char} :
      r.mode = .name opened chars → Refused r position c (.missingOperand opened)

theorem refused_openGroup (h : r.openGroup position = .error e) : Refused r position '(' e := by
  unfold openGroup at h
  split at h
  · cases h
    exact .depth rfl
  · cases h

theorem refused_closeGroup (h : r.closeGroup position = .error e) : Refused r position ')' e := by
  unfold closeGroup at h
  split at h
  · cases h
    exact .operand
  · split at h
    · cases h
      exact .char
    · cases h

theorem refused_separate (h : r.separate position = .error e) : Refused r position '|' e := by
  unfold separate at h
  split at h
  · cases h
    exact .operand
  · cases h

theorem refused_starLast (h : r.starLast position = .error e) : Refused r position '*' e := by
  unfold starLast at h
  split at h
  · cases h
    exact .char
  · cases h

theorem refused_stepPlain (h : r.stepPlain position c = .error e) : Refused r position c e := by
  have hstep := plainStep_stepPlain r position c
  rw [h] at hstep
  cases hstep with
  | openGroup h => exact refused_openGroup h
  | closeGroup h => exact refused_closeGroup h
  | separate h => exact refused_separate h
  | starLast h => exact refused_starLast h
  | unexpected => exact .char

theorem refused_of_step (h : r.step position c = .error e) : Refused r position c e := by
  unfold step at h
  split at h
  · exact refused_stepPlain h
  · cases h
  · rename_i opened chars hmode
    split_ifs at h
    cases h
    exact .name hmode
  · cases h

theorem Refused.isIncomplete (h : Refused r position c e) : e.isIncomplete = false := by
  cases h <;> rfl

/-- An error of a step is about its character or about the name that the character ends. -/
theorem Refused.located (h : Refused r u.length c e) (hu : Covers u r) : e.Located (u ++ [c]) := by
  cases h with
  | char => exact List.getElem?_concat_length
  | operand => simp [ReadError.Located]
  | depth hc => exact hc ▸ List.getElem?_concat_length
  | name hmode =>
    obtain ⟨v, w, m, rfl, -, -, hm⟩ := hu
    rw [hmode] at hm
    cases hm
    simp [ReadError.Located]

/-! ## Errors of a run -/

theorem run_error (hu : Covers u r) (h : r.run u.length v = .error e) :
    e.isIncomplete = false ∧ e.Located (u ++ v) := by
  induction v generalizing u r with
  | nil => cases h
  | cons c v ih =>
    rw [run] at h
    rw [List.append_cons]
    cases hstep : r.step u.length c with
    | error e' =>
      rw [hstep] at h
      cases h
      have hrefused := refused_of_step hstep
      exact ⟨hrefused.isIncomplete, (hrefused.located hu).append v⟩
    | ok q =>
      rw [hstep] at h
      exact ih (hu.step hstep) (by simpa using h)

/-! ## Errors at the end -/

theorem GroupsText.located {g : Group} (h : GroupsText u (g :: gs)) : u[g.opened]? = some '(' := by
  cases h
  exact List.getElem?_concat_length

theorem ModeText.located {opened : Nat} {chars m : List Char} {mode : Mode}
    (h : ModeText u.length m mode)
    (hmode : mode = .name opened chars ∨ mode = .nameEscape opened chars) :
    (u ++ m)[opened]? = some '<' := by
  rcases hmode with rfl | rfl <;> cases h <;> simp

theorem finish_error (hu : Covers u r) (h : r.finish = .error e) :
    e.isIncomplete = true ∧ e.Located u := by
  obtain ⟨v, w, m, rfl, hv, hw, hm⟩ := hu
  unfold finish at h
  split at h
  · cases h
    exact ⟨rfl, trivial⟩
  · rename_i hmode
    cases h
    exact ⟨rfl, hm.located (.inl hmode)⟩
  · rename_i hmode
    cases h
    exact ⟨rfl, hm.located (.inr hmode)⟩
  · split at h
    · cases h
      exact ⟨rfl, trivial⟩
    · split at h
      · cases h
      · rename_i g gs hgroups
        cases h
        rw [hgroups] at hv
        refine ⟨rfl, ?_⟩
        have hlocated : ReadError.Located v (.unclosedGroup g.opened) := hv.located
        simpa using hlocated.append (w ++ m)

/-! ## Completion -/

/-- What has been read of an atom can be completed, and so can the alternative which it belongs
to. -/
theorem exists_factor (r : Reader) :
    ∃ v f, f.factors ≠ [] ∧ r.Reads v ⟨.plain, f, r.groups⟩ := by
  obtain ⟨mode, f, gs⟩ := r
  have hname (opened : Nat) (chars : List Char) :
      ∃ v f', f'.factors ≠ [] ∧ (Reader.mk (.name opened chars) f gs).Reads v ⟨.plain, f', gs⟩ := by
    have hchar :
        (Reader.mk (.name opened chars) f gs).Reads ['a'] ⟨.name opened ('a' :: chars), f, gs⟩ :=
      reads_singleton fun _ => rfl
    have hclose : (Reader.mk (.name opened ('a' :: chars)) f gs).Reads ['>']
        ((Reader.mk .plain f gs).push (literal (String.ofList ('a' :: chars).reverse))) :=
      reads_singleton fun _ => rfl
    exact ⟨_, _, List.cons_ne_nil _ _, hchar.append hclose⟩
  have hpush (mode : Mode) (hmode : ∀ position, (Reader.mk mode f gs).step position 'a' =
      .ok ((Reader.mk mode f gs).push (literal (String.singleton 'a')))) :
      ∃ v f', f'.factors ≠ [] ∧ (Reader.mk mode f gs).Reads v ⟨.plain, f', gs⟩ :=
    ⟨_, _, List.cons_ne_nil _ _, reads_singleton hmode⟩
  cases mode with
  | plain => exact hpush .plain fun _ => rfl
  | escape => exact hpush .escape fun _ => rfl
  | name opened chars => exact hname opened chars
  | nameEscape opened chars =>
    obtain ⟨v, f', hne, hreads⟩ := hname opened ('a' :: chars)
    have hchar : (Reader.mk (.nameEscape opened chars) f gs).Reads ['a']
        ⟨.name opened ('a' :: chars), f, gs⟩ := reads_singleton fun _ => rfl
    exact ⟨_, f', hne, hchar.append hreads⟩

/-- All open groups can be closed. -/
theorem exists_closed (gs : List Group) (h : f.factors ≠ []) :
    ∃ v f', f'.factors ≠ [] ∧ (Reader.mk .plain f gs).Reads v ⟨.plain, f', []⟩ := by
  induction gs generalizing f with
  | nil => exact ⟨[], f, h, reads_nil⟩
  | cons g gs ih =>
    obtain ⟨v, f', hne, hreads⟩ := ih (f := g.frame.push f.close) (List.cons_ne_nil _ _)
    have hclose : (Reader.mk .plain f (g :: gs)).Reads [')'] ⟨.plain, g.frame.push f.close, gs⟩ :=
      reads_singleton fun position => step_close position g.opened h
    exact ⟨_, f', hne, hclose.append hreads⟩

/-- Every reader can read on to the end of an expression. -/
theorem exists_finish (r : Reader) : ∃ v r' t, r.Reads v r' ∧ r'.finish = .ok t := by
  obtain ⟨u, f, hne, hreads⟩ := r.exists_factor
  obtain ⟨v, f', hne', hreads'⟩ := exists_closed r.groups hne
  exact ⟨u ++ v, _, f'.close, hreads.append hreads', by simp [finish, hne']⟩

end Reader

/-- A text with an error either is incomplete, and some continuation of it is an expression, or has
that error however it continues. The error names a position of the text, and the character there. -/
theorem parse_eq_error {text : String} {e : ReadError} (h : parse text = .error e) :
    (e.isIncomplete = true → ∃ v t, parse (text ++ v) = .ok t) ∧
      (e.isIncomplete = false → ∀ v, parse (text ++ v) = .error e) ∧ e.Located text.toList := by
  unfold parse read at h
  split at h
  · rename_i r hrun
    obtain ⟨hincomplete, hlocated⟩ := Reader.finish_error (Reader.covers_start.run hrun) h
    refine ⟨fun _ => ?_, fun hfalse => ?_, hlocated⟩
    · obtain ⟨v, r', t, hreads, hfinish⟩ := r.exists_finish
      refine ⟨String.ofList v, t, ?_⟩
      have hmore := (Reader.run_append hrun).trans (hreads _)
      rw [parse, read, String.toList_append, String.toList_ofList, hmore]
      exact hfinish
    · rw [hincomplete] at hfalse
      cases hfalse
  · rename_i e' hrun
    cases h
    obtain ⟨hmalformed, hlocated⟩ := Reader.run_error Reader.covers_start hrun
    refine ⟨fun htrue => ?_, fun _ v => ?_, hlocated⟩
    · rw [hmalformed] at htrue
      cases htrue
    · rw [parse, read, String.toList_append, Reader.run_append_of_error hrun]

/-- A name without its end in a group without its end, and a parenthesis too many. -/
theorem parse_eq_error_name_group :
    (parse "(a|<b\\" = .error (.unclosedName 3) ∧ ∃ v t, parse ("(a|<b\\" ++ v) = .ok t) ∧
      parse "(a))" = .error (.unexpectedChar 3 ')') ∧
        ∀ v, parse ("(a))" ++ v) = .error (.unexpectedChar 3 ')') := by
  have hname : parse "(a|<b\\" = .error (.unclosedName 3) := rfl
  have hgroup : parse "(a))" = .error (.unexpectedChar 3 ')') := rfl
  obtain ⟨hextends, _⟩ := parse_eq_error hname
  obtain ⟨_, hstays, _⟩ := parse_eq_error hgroup
  exact ⟨⟨hname, hextends rfl⟩, hgroup, hstays rfl⟩

end Acceptors.Regex
