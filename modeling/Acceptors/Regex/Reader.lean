import Acceptors.Regex.Build
import Acceptors.Regex.Printer

/-!
Reading expressions character by character. An expression is a union of concatenations of starred
atoms; an atom is a group in parentheses, a character that stands for itself, any character after a
backslash, a name in angle brackets, epsilon, or the empty language. Blanks between these are
skipped. The reader keeps the groups that are open and what has been read of each; `step` finds text
that nothing can complete, `finish` text that is incomplete.
-/

namespace Acceptors.Regex

/-- Why a text is no expression. Positions count characters from 0. -/
inductive ReadError where
  | unexpectedChar (position : Nat) (found : Char)
  | unexpectedEnd
  | unclosedGroup (position : Nat)
  | missingOperand (position : Nat)
  | unclosedName (position : Nat)
  | nestedTooDeep (position : Nat)
  deriving DecidableEq, Repr

def ReadError.message : ReadError → String
  | unexpectedChar position found => s!"unexpected '{found}' at position {position}"
  | unexpectedEnd => "unexpected end of input"
  | unclosedGroup position => s!"parenthesis opened at position {position} is never closed"
  | missingOperand position => s!"missing operand at position {position}"
  | unclosedName position => s!"literal opened at position {position} is never closed"
  | nestedTooDeep position => s!"parentheses nested too deeply at position {position}"

/-- How deep parentheses may nest. -/
def nestLimit : Nat := 200

/-- What has been read of a group: its finished alternatives and the factors of the next, latest
first. -/
structure Frame where
  alternatives : List Regex
  factors : List Regex
  deriving DecidableEq

namespace Frame

def start : Frame := ⟨[], []⟩

def push (f : Frame) (r : Regex) : Frame := { f with factors := r :: f.factors }

/-- Ends an alternative. -/
def separate (f : Frame) : Frame := ⟨product f.factors.reverse :: f.alternatives, []⟩

/-- The union of all alternatives. -/
def close (f : Frame) : Regex := sum f.separate.alternatives.reverse

end Frame

/-- Where the next character stands: between atoms, after a backslash, in the name opened at a
position, or after a backslash in that name. The characters of a name are kept latest first. -/
inductive Mode where
  | plain
  | escape
  | name (opened : Nat) (chars : List Char)
  | nameEscape (opened : Nat) (chars : List Char)
  deriving DecidableEq

/-- An open group with the frame around it. -/
structure Group where
  opened : Nat
  frame : Frame
  deriving DecidableEq

structure Reader where
  mode : Mode
  frame : Frame
  groups : List Group
  deriving DecidableEq

namespace Reader

def start : Reader := ⟨.plain, .start, []⟩

def push (r : Reader) (atom : Regex) : Reader :=
  { r with mode := .plain, frame := r.frame.push atom }

/-- Reads an opening parenthesis. -/
def openGroup (r : Reader) (position : Nat) : Except ReadError Reader :=
  if nestLimit ≤ r.groups.length then .error (.nestedTooDeep position)
  else .ok ⟨.plain, .start, ⟨position, r.frame⟩ :: r.groups⟩

/-- Reads a closing parenthesis. -/
def closeGroup (r : Reader) (position : Nat) : Except ReadError Reader :=
  if r.frame.factors.isEmpty then .error (.missingOperand position)
  else match r.groups with
    | [] => .error (.unexpectedChar position ')')
    | g :: groups => .ok ⟨.plain, g.frame.push r.frame.close, groups⟩

def separate (r : Reader) (position : Nat) : Except ReadError Reader :=
  if r.frame.factors.isEmpty then .error (.missingOperand position)
  else .ok { r with frame := r.frame.separate }

/-- Puts a star on the latest factor. -/
def starLast (r : Reader) (position : Nat) : Except ReadError Reader :=
  match r.frame.factors with
  | [] => .error (.unexpectedChar position '*')
  | last :: factors => .ok { r with frame := { r.frame with factors := iterate last :: factors } }

/-- Reads a character between atoms. -/
def stepPlain (r : Reader) (position : Nat) (c : Char) : Except ReadError Reader :=
  if isBlank c then .ok r
  else if c = '(' then r.openGroup position
  else if c = ')' then r.closeGroup position
  else if c = '|' then r.separate position
  else if c = '*' then r.starLast position
  else if c = '\\' then .ok { r with mode := .escape }
  else if c = '<' then .ok { r with mode := .name position [] }
  else if c = '∅' then .ok (r.push empty)
  else if c = 'ε' ∨ c = 'ϵ' then .ok (r.push epsilon)
  else if c = '>' then .error (.unexpectedChar position c)
  else .ok (r.push (literal (String.singleton c)))

def step (r : Reader) (position : Nat) (c : Char) : Except ReadError Reader :=
  match r.mode with
  | .plain => r.stepPlain position c
  | .escape => .ok (r.push (literal (String.singleton c)))
  | .name opened chars =>
    if c = '\\' then .ok { r with mode := .nameEscape opened chars }
    else if c = '>' then
      if chars.isEmpty then .error (.missingOperand opened)
      else .ok (r.push (literal (String.ofList chars.reverse)))
    else .ok { r with mode := .name opened (c :: chars) }
  | .nameEscape opened chars => .ok { r with mode := .name opened (c :: chars) }

/-- Reads on from a position. -/
def run (r : Reader) (position : Nat) : List Char → Except ReadError Reader
  | [] => .ok r
  | c :: rest =>
    match r.step position c with
    | .ok r => r.run (position + 1) rest
    | .error e => .error e

def finish (r : Reader) : Except ReadError Regex :=
  match r.mode with
  | .escape => .error .unexpectedEnd
  | .name opened _ => .error (.unclosedName opened)
  | .nameEscape opened _ => .error (.unclosedName opened)
  | .plain =>
    if r.frame.factors.isEmpty then .error .unexpectedEnd
    else match r.groups with
      | [] => .ok r.frame.close
      | g :: _ => .error (.unclosedGroup g.opened)

end Reader

def read (cs : List Char) : Except ReadError Regex :=
  match Reader.start.run 0 cs with
  | .ok r => r.finish
  | .error e => .error e

def parse (text : String) : Except ReadError Regex := read text.toList

end Acceptors.Regex
