import Acceptors.Regex.Reader

/-!
The grammar of expressions, each phrase with the tree that it stands for.

    alternation    ::=  concatenation  |  concatenation '|' alternation
    concatenation  ::=  starred  |  starred concatenation
    starred        ::=  atom  |  starred '*'
    atom           ::=  '(' alternation ')'  |  character  |  '\' any  |  '<' name '>'
                     |  'ε'  |  'ϵ'  |  '∅'

Blanks may stand before any of these characters but after a backslash and in a name, and at the end.
Main statements: `Alternation.mono`, more depth does no harm, and how phrases grow at their ends.
-/

namespace Acceptors.Regex.Grammar

def Blank (u : List Char) : Prop := ∀ c ∈ u, isBlank c = true

/-- Text of a name and the characters that it stands for. -/
inductive Name : List Char → List Char → Prop
  | nil : Name [] []
  | char {c : Char} {u cs : List Char} : c ≠ '>' → c ≠ '\\' → Name u cs → Name (c :: u) (c :: cs)
  | escape {c : Char} {u cs : List Char} : Name u cs → Name ('\\' :: c :: u) (c :: cs)

mutual

/-- Text of concatenations with bars between them, parentheses nesting `d` deep at most, and the
trees of the concatenations. -/
inductive Alternation : Nat → List Char → List Regex → Prop
  | single {d : Nat} {u : List Char} {rs : List Regex} :
      Concatenation d u rs → Alternation d u [product rs]
  | cons {d : Nat} {u b v : List Char} {rs ts : List Regex} :
      Concatenation d u rs → Blank b → Alternation d v ts →
        Alternation d (u ++ b ++ '|' :: v) (product rs :: ts)

/-- Text of factors in a row, and their trees. -/
inductive Concatenation : Nat → List Char → List Regex → Prop
  | single {d : Nat} {u : List Char} {r : Regex} : Starred d u r → Concatenation d u [r]
  | cons {d : Nat} {u v : List Char} {r : Regex} {rs : List Regex} :
      Starred d u r → Concatenation d v rs → Concatenation d (u ++ v) (r :: rs)

/-- Text of an atom with any number of stars after it. -/
inductive Starred : Nat → List Char → Regex → Prop
  | atom {d : Nat} {b u : List Char} {r : Regex} : Blank b → Atom d u r → Starred d (b ++ u) r
  | star {d : Nat} {u b : List Char} {r : Regex} :
      Starred d u r → Blank b → Starred d (u ++ b ++ ['*']) (iterate r)

inductive Atom : Nat → List Char → Regex → Prop
  | group {d : Nat} {u b : List Char} {ts : List Regex} :
      Alternation d u ts → Blank b → Atom (d + 1) ('(' :: u ++ b ++ [')']) (sum ts)
  | char {d : Nat} {c : Char} : isSpecial c = false → Atom d [c] (literal (String.singleton c))
  | escape {d : Nat} {c : Char} : Atom d ['\\', c] (literal (String.singleton c))
  | name {d : Nat} {u cs : List Char} :
      Name u cs → cs ≠ [] → Atom d ('<' :: u ++ ['>']) (literal (String.ofList cs))
  | epsilon {d : Nat} {c : Char} : c = 'ε' ∨ c = 'ϵ' → Atom d [c] epsilon
  | empty {d : Nat} : Atom d ['∅'] empty

end

/-- The text is an expression in which parentheses nest `d` deep at most, and stands for the
tree. -/
def Derives (d : Nat) (text : List Char) (r : Regex) : Prop :=
  ∃ u b ts, Alternation d u ts ∧ Blank b ∧ text = u ++ b ∧ r = sum ts

variable {d : Nat} {u v b : List Char} {ts : List Regex}

theorem Blank.append {b' : List Char} (h : Blank b) (h' : Blank b') : Blank (b ++ b') :=
  fun c hc => (List.mem_append.mp hc).elim (h c) (h' c)

theorem blank_nil : Blank [] := by simp [Blank]

theorem blank_singleton {c : Char} (h : isBlank c = true) : Blank [c] := by simpa [Blank] using h

/-! ## Depth -/

mutual

theorem Alternation.mono : {d e : Nat} → {u : List Char} → {ts : List Regex} →
    Alternation d u ts → d ≤ e → Alternation e u ts
  | _, _, _, _, .single h, hde => .single (h.mono hde)
  | _, _, _, _, .cons h hb h', hde => .cons (h.mono hde) hb (h'.mono hde)

theorem Concatenation.mono : {d e : Nat} → {u : List Char} → {rs : List Regex} →
    Concatenation d u rs → d ≤ e → Concatenation e u rs
  | _, _, _, _, .single h, hde => .single (h.mono hde)
  | _, _, _, _, .cons h h', hde => .cons (h.mono hde) (h'.mono hde)

theorem Starred.mono : {d e : Nat} → {u : List Char} → {r : Regex} →
    Starred d u r → d ≤ e → Starred e u r
  | _, _, _, _, .atom hb h, hde => .atom hb (h.mono hde)
  | _, _, _, _, .star h hb, hde => .star (h.mono hde) hb

theorem Atom.mono : {d e : Nat} → {u : List Char} → {r : Regex} →
    Atom d u r → d ≤ e → Atom e u r
  | _, _ + 1, _, _, .group h hb, hde => .group (h.mono (Nat.le_of_succ_le_succ hde)) hb
  | _, _, _, _, .char h, _ => .char h
  | _, _, _, _, .escape, _ => .escape
  | _, _, _, _, .name h hne, _ => .name h hne
  | _, _, _, _, .epsilon h, _ => .epsilon h
  | _, _, _, _, .empty, _ => .empty

end

/-! ## Growth at the end -/

theorem Concatenation.append : {u : List Char} → {rs : List Regex} → Concatenation d u rs →
    Concatenation d v ts → Concatenation d (u ++ v) (rs ++ ts)
  | _, _, .single h, h' => .cons h h'
  | _, _, .cons (u := u) (v := w) h hrest, h' => by
    rw [List.append_assoc]
    exact .cons h (hrest.append h')

theorem Alternation.append : {u : List Char} → {rs : List Regex} → Alternation d u rs →
    Alternation d v ts → Alternation d (u ++ '|' :: v) (rs ++ ts)
  | _, _, .single h, h' => by simpa using Alternation.cons h blank_nil h'
  | _, _, .cons h hb hrest, h' => by simpa using Alternation.cons h hb (hrest.append h')

theorem Concatenation.ne_nil : {u : List Char} → {rs : List Regex} → Concatenation d u rs → rs ≠ []
  | _, _, .single _ => List.cons_ne_nil _ _
  | _, _, .cons _ _ => List.cons_ne_nil _ _

/-- A star at the end belongs to the last factor. -/
theorem Concatenation.star (hb : Blank b) : {u : List Char} → {rs fs : List Regex} → {r : Regex} →
    Concatenation d u rs → rs = fs ++ [r] →
      Concatenation d (u ++ b ++ ['*']) (fs ++ [iterate r])
  | _, _, fs, r, .single h, heq => by
    obtain ⟨rfl, rfl⟩ : fs = [] ∧ r = _ := by simpa [List.singleton_eq_append_iff] using heq
    exact .single (.star h hb)
  | _, _, [], _, .cons _ h', heq => absurd (List.cons.inj heq).2 h'.ne_nil
  | _, _, f :: fs, r, .cons (u := u) (v := v) h h', heq => by
    obtain ⟨rfl, hrest⟩ := List.cons.inj heq
    have hstar := Concatenation.cons h (Concatenation.star hb h' hrest)
    simpa using hstar

theorem Name.append : {u cs : List Char} → {v ds : List Char} → Name u cs → Name v ds →
    Name (u ++ v) (cs ++ ds)
  | _, _, _, _, .nil, h' => h'
  | _, _, _, _, .char h1 h2 h, h' => .char h1 h2 (h.append h')
  | _, _, _, _, .escape h, h' => .escape (h.append h')

end Acceptors.Regex.Grammar
