/-!
Decimal numerals. Main statement: `read_digits`, a numeral written by `digits` reads back.
-/

namespace Acceptors.Decimal

def digit (d : Nat) : Char := Char.ofNat ('0'.toNat + d)

def digits (n : Nat) : List Char :=
  if n < 10 then [digit n] else digits (n / 10) ++ [digit (n % 10)]

def text (n : Nat) : String := String.ofList (digits n)

def value? (c : Char) : Option Nat :=
  if '0' ≤ c ∧ c ≤ '9' then some (c.toNat - '0'.toNat) else none

/-- Reads on from the value `n` of the digits before. -/
def readFrom (n : Nat) : List Char → Option Nat
  | [] => some n
  | c :: rest =>
    match value? c with
    | some d => readFrom (10 * n + d) rest
    | none => none

/-- At least one digit and nothing else; leading zeros are allowed. -/
def read : List Char → Option Nat
  | [] => none
  | c :: rest => readFrom 0 (c :: rest)

theorem value?_digit {d : Nat} (h : d < 10) : value? (digit d) = some d := by
  match d with
  | 0 | 1 | 2 | 3 | 4 | 5 | 6 | 7 | 8 | 9 => rfl

theorem readFrom_append {n : Nat} {xs ys : List Char} :
    readFrom n (xs ++ ys) = (readFrom n xs).bind fun m => readFrom m ys := by
  induction xs generalizing n with
  | nil => rfl
  | cons c rest ih =>
    simp only [List.cons_append, readFrom]
    cases value? c with
    | none => rfl
    | some d => exact ih

theorem readFrom_digits (n : Nat) : readFrom 0 (digits n) = some n := by
  induction n using Nat.strongRecOn with
  | ind n ih =>
    unfold digits
    split
    · rename_i h
      simp [readFrom, value?_digit h]
    · rw [readFrom_append, ih (n / 10) (by omega)]
      have h : n % 10 < 10 := by omega
      simp only [Option.bind_some, readFrom, value?_digit h]
      congr 1
      omega

theorem digits_ne_nil (n : Nat) : digits n ≠ [] := by
  unfold digits
  split <;> simp

theorem read_digits (n : Nat) : read (digits n) = some n := by
  have h := readFrom_digits n
  cases hd : digits n with
  | nil => exact absurd hd (digits_ne_nil n)
  | cons c rest => rwa [hd] at h

end Acceptors.Decimal
