import Acceptors.Proofs.Regex.Grammar

/-!
How deep the parentheses of a text nest. Only those count that group, not those after a backslash or
in a name. Main statement: `derives_iff_nesting_le`, an expression derives at the depth to which its
text nests and at no less.
-/

namespace Acceptors.Regex.Grammar

/-- Where a character stands: between atoms, after a backslash, in a name, or after a backslash
there. -/
inductive Place where
  | plain
  | escape
  | name
  | nameEscape
  deriving DecidableEq

def Place.after : Place → Char → Place
  | plain, c => if c = '\\' then escape else if c = '<' then name else plain
  | escape, _ => plain
  | name, c => if c = '\\' then nameEscape else if c = '>' then plain else name
  | nameEscape, _ => name

/-- The parentheses of a text that group. -/
def groupings (p : Place) : List Char → List Char
  | [] => []
  | c :: rest =>
    if p = .plain ∧ (c = '(' ∨ c = ')') then c :: groupings p rest else groupings (p.after c) rest

/-- How many parentheses are open at most at once, after some that are open before. -/
def depth (opened : Nat) : List Char → Nat
  | [] => opened
  | c :: rest => if c = '(' then depth (opened + 1) rest else max opened (depth (opened - 1) rest)

/-- How deep the parentheses of a text nest. -/
def nesting (text : List Char) : Nat := depth 0 (groupings .plain text)

variable {d m n : Nat} {u v b : List Char} {c : Char}

theorem le_depth (k : Nat) (ps : List Char) : k ≤ depth k ps := by
  induction ps generalizing k with
  | nil => exact Nat.le_refl k
  | cons c ps ih =>
    have h := ih (k + 1)
    unfold depth
    split <;> omega

/-! ## Texts without groups -/

/-- No parenthesis of the text groups. -/
def Flat (u : List Char) : Prop := ∀ v, groupings .plain (u ++ v) = groupings .plain v

theorem groupings_name {cs : List Char} (h : Name u cs) (v : List Char) :
    groupings .name (u ++ v) = groupings .name v := by
  induction h with
  | nil => rfl
  | char hclose hback _ ih => simp [groupings, Place.after, hclose, hback, ih]
  | escape _ ih => simp [groupings, Place.after, ih]

namespace Flat

theorem groupings_eq (h : Flat u) : groupings .plain u = [] := by
  rw [← List.append_nil u, h]
  rfl

theorem append (hu : Flat u) (hv : Flat v) : Flat (u ++ v) := by
  intro w
  rw [List.append_assoc, hu, hv]

theorem singleton (hopen : c ≠ '(') (hclose : c ≠ ')') (hback : c ≠ '\\') (hangle : c ≠ '<') :
    Flat [c] := by
  intro v
  simp [groupings, hopen, hclose, Place.after, hback, hangle]

theorem char (h : isSpecial c = false) : Flat [c] := by
  have hspecial : ∀ x, isSpecial x = true → c ≠ x := by
    rintro x hx rfl
    rw [h] at hx
    cases hx
  exact singleton (hspecial _ rfl) (hspecial _ rfl) (hspecial _ rfl) (hspecial _ rfl)

theorem blank (h : Blank b) : Flat b := by
  induction b with
  | nil => exact fun _ => rfl
  | cons c b ih =>
    have hc : isBlank c = true := h c List.mem_cons_self
    have hne : ∀ x, isBlank x = false → c ≠ x := by
      rintro x hx rfl
      rw [hc] at hx
      cases hx
    have hone : Flat [c] := singleton (hne '(' rfl) (hne ')' rfl) (hne '\\' rfl) (hne '<' rfl)
    exact hone.append (ih fun x hx => h x (List.mem_cons_of_mem c hx))

theorem name {cs : List Char} (h : Name u cs) : Flat ('<' :: u ++ ['>']) := by
  intro v
  have hname := groupings_name h ('>' :: v)
  have hclose : groupings .name ('>' :: v) = groupings .plain v := rfl
  rw [List.append_assoc, List.singleton_append, ← hclose, ← hname]
  rfl

theorem escape (c : Char) : Flat ['\\', c] := by
  intro v
  simp [groupings, Place.after]

theorem bar : Flat ['|'] := singleton (by decide) (by decide) (by decide) (by decide)

theorem star : Flat ['*'] := singleton (by decide) (by decide) (by decide) (by decide)

theorem epsilon (h : c = 'ε' ∨ c = 'ϵ') : Flat [c] := by
  rcases h with rfl | rfl <;> exact singleton (by decide) (by decide) (by decide) (by decide)

theorem empty : Flat ['∅'] := singleton (by decide) (by decide) (by decide) (by decide)

end Flat

/-! ## Phrases -/

/-- The groups of a text are complete and nest `m` deep. -/
structure Nested (u : List Char) (m : Nat) : Prop where
  groupings : ∀ v, groupings .plain (u ++ v) = groupings .plain u ++ groupings .plain v
  depth : ∀ k ps, depth k (Grammar.groupings .plain u ++ ps) = max (k + m) (depth k ps)

theorem Flat.nested (h : Flat u) : Nested u 0 := by
  constructor
  · intro v
    rw [h, h.groupings_eq, List.nil_append]
  · intro k ps
    have hle := le_depth k ps
    rw [h.groupings_eq, List.nil_append]
    omega

namespace Nested

theorem nesting_eq (h : Nested u m) : nesting u = m := by
  have hdepth := h.depth 0 []
  simpa [nesting, Grammar.depth] using hdepth

theorem append (hu : Nested u m) (hv : Nested v n) : Nested (u ++ v) (max m n) where
  groupings w := by
    rw [List.append_assoc, hu.groupings, hv.groupings, hu.groupings, List.append_assoc]
  depth k ps := by
    rw [hu.groupings, List.append_assoc, hu.depth, hv.depth]
    omega

theorem groupings_group_append (h : Nested u m) (v : List Char) :
    Grammar.groupings .plain ('(' :: u ++ [')'] ++ v) =
      '(' :: Grammar.groupings .plain u ++ ')' :: Grammar.groupings .plain v := by
  have hclose : Grammar.groupings .plain (')' :: v) = ')' :: Grammar.groupings .plain v := rfl
  have hopen : Grammar.groupings .plain ('(' :: (u ++ ')' :: v)) =
      '(' :: Grammar.groupings .plain (u ++ ')' :: v) := rfl
  rw [List.append_assoc, List.singleton_append, List.cons_append, hopen, h.groupings, hclose,
    List.cons_append]

theorem groupings_group (h : Nested u m) :
    Grammar.groupings .plain ('(' :: u ++ [')']) = '(' :: Grammar.groupings .plain u ++ [')'] := by
  have hnil := h.groupings_group_append []
  rwa [List.append_nil] at hnil

theorem group (h : Nested u m) : Nested ('(' :: u ++ [')']) (m + 1) := by
  constructor
  · intro v
    rw [h.groupings_group_append, h.groupings_group, List.append_assoc, List.singleton_append]
  · intro k ps
    have hopen : Grammar.depth k ('(' :: (Grammar.groupings .plain u ++ ')' :: ps)) =
        Grammar.depth (k + 1) (Grammar.groupings .plain u ++ ')' :: ps) := rfl
    have hclose : Grammar.depth (k + 1) (')' :: ps) = max (k + 1) (Grammar.depth k ps) := rfl
    rw [h.groupings_group, List.append_assoc, List.singleton_append, List.cons_append, hopen,
      h.depth, hclose]
    omega

end Nested

mutual

theorem Alternation.exists_nested : {d : Nat} → {u : List Char} → {ts : List Regex} →
    Alternation d u ts → ∃ m ≤ d, Nested u m ∧ Alternation m u ts
  | _, _, _, .single h => by
    obtain ⟨m, hm, hu, h⟩ := h.exists_nested
    exact ⟨m, hm, hu, .single h⟩
  | _, _, _, .cons h hb h' => by
    obtain ⟨m, hm, hu, h⟩ := h.exists_nested
    obtain ⟨n, hn, hv, h'⟩ := Alternation.exists_nested h'
    refine ⟨max m n, Nat.max_le.mpr ⟨hm, hn⟩, ?_,
      .cons (h.mono (Nat.le_max_left m n)) hb (h'.mono (Nat.le_max_right m n))⟩
    simpa using ((hu.append (Flat.blank hb).nested).append Flat.bar.nested).append hv

theorem Concatenation.exists_nested : {d : Nat} → {u : List Char} → {rs : List Regex} →
    Concatenation d u rs → ∃ m ≤ d, Nested u m ∧ Concatenation m u rs
  | _, _, _, .single h => by
    obtain ⟨m, hm, hu, h⟩ := h.exists_nested
    exact ⟨m, hm, hu, .single h⟩
  | _, _, _, .cons h h' => by
    obtain ⟨m, hm, hu, h⟩ := h.exists_nested
    obtain ⟨n, hn, hv, h'⟩ := Concatenation.exists_nested h'
    exact ⟨max m n, Nat.max_le.mpr ⟨hm, hn⟩, hu.append hv,
      .cons (h.mono (Nat.le_max_left m n)) (h'.mono (Nat.le_max_right m n))⟩

theorem Starred.exists_nested : {d : Nat} → {u : List Char} → {r : Regex} →
    Starred d u r → ∃ m ≤ d, Nested u m ∧ Starred m u r
  | _, _, _, .atom hb h => by
    obtain ⟨m, hm, hu, h⟩ := h.exists_nested
    refine ⟨m, hm, ?_, .atom hb h⟩
    simpa using (Flat.blank hb).nested.append hu
  | _, _, _, .star h hb => by
    obtain ⟨m, hm, hu, h⟩ := Starred.exists_nested h
    refine ⟨m, hm, ?_, .star h hb⟩
    simpa using (hu.append (Flat.blank hb).nested).append Flat.star.nested

theorem Atom.exists_nested : {d : Nat} → {u : List Char} → {r : Regex} →
    Atom d u r → ∃ m ≤ d, Nested u m ∧ Atom m u r
  | _, _, _, .group h hb => by
    obtain ⟨m, hm, hu, h⟩ := h.exists_nested
    refine ⟨m + 1, Nat.succ_le_succ hm, ?_, .group h hb⟩
    simpa using (hu.append (Flat.blank hb).nested).group
  | _, _, _, .char h => ⟨0, Nat.zero_le _, (Flat.char h).nested, .char h⟩
  | _, _, _, .escape => ⟨0, Nat.zero_le _, (Flat.escape _).nested, .escape⟩
  | _, _, _, .name h hne => ⟨0, Nat.zero_le _, (Flat.name h).nested, .name h hne⟩
  | _, _, _, .epsilon h => ⟨0, Nat.zero_le _, (Flat.epsilon h).nested, .epsilon h⟩
  | _, _, _, .empty => ⟨0, Nat.zero_le _, Flat.empty.nested, .empty⟩

end

/-- The depth that a text needs is the one to which it nests. -/
theorem derives_iff_nesting_le {text : List Char} {t : Regex} :
    Derives d text t ↔ nesting text ≤ d ∧ ∃ e, Derives e text t := by
  constructor
  · rintro ⟨u, b, ts, hu, hb, rfl, rfl⟩
    refine ⟨?_, d, u, b, ts, hu, hb, rfl, rfl⟩
    obtain ⟨m, hm, hnested, _⟩ := hu.exists_nested
    rwa [(hnested.append (Flat.blank hb).nested).nesting_eq, Nat.max_eq_left (Nat.zero_le m)]
  · rintro ⟨hd, _, u, b, ts, hu, hb, rfl, rfl⟩
    obtain ⟨m, _, hnested, hu⟩ := hu.exists_nested
    rw [(hnested.append (Flat.blank hb).nested).nesting_eq, Nat.max_eq_left (Nat.zero_le m)] at hd
    exact ⟨u, b, ts, hu.mono hd, hb, rfl, rfl⟩

/-- Groups side by side do not add up; escaped parentheses do not count. -/
example : nesting "(a(b))(c)\\(<(>".toList = 2 := by decide

end Acceptors.Regex.Grammar
