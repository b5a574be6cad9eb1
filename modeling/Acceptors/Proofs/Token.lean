import Acceptors.Symbol

/-!
Tokens read as symbols and symbols written as tokens. A numeral is read as the number of its digits,
zeros in front or not (`Decimal.read_eq_some_iff`), so which symbol a token stands for is known from
its spelling (`ofToken_of_mem`, `ofToken_of_refers`, `ofToken_of_not_reserved`). Main statement:
`Symbol.ofToken_text`.
-/

namespace Acceptors

namespace Decimal

/-- Digits, one at least, that stand for the number. -/
structure IsNumeral (digits : List Char) (n : Nat) : Prop where
  ne_nil : digits ≠ []
  all_digits : ∀ c ∈ digits, c.isDigit = true
  value_eq : Nat.ofDigitChars 10 digits 0 = n

theorem value?_eq (c : Char) :
    value? c = if c.isDigit = true then some (c.toNat - '0'.toNat) else none := by
  simp [value?, Char.isDigit, Char.le_def]

theorem readFrom_eq_some_iff {m n : Nat} {digits : List Char} :
    readFrom m digits = some n ↔ (∀ c ∈ digits, c.isDigit = true) ∧
    Nat.ofDigitChars 10 digits m = n := by
  induction digits generalizing m with
  | nil => simp [readFrom, Nat.ofDigitChars]
  | cons c rest ih =>
    rw [readFrom, value?_eq]
    by_cases hc : c.isDigit = true
    · simp [hc, ih, Nat.ofDigitChars_cons]
    · simp [hc]

theorem read_eq_some_iff {n : Nat} {digits : List Char} :
    read digits = some n ↔ IsNumeral digits n := by
  cases digits with
  | nil => exact ⟨fun h => absurd h (by simp [read]), fun h => absurd rfl h.ne_nil⟩
  | cons c rest =>
    rw [read, readFrom_eq_some_iff]
    exact ⟨fun h => ⟨List.cons_ne_nil c rest, h.1, h.2⟩, fun h => ⟨h.all_digits, h.value_eq⟩⟩

theorem isNumeral_digits (n : Nat) : IsNumeral (digits n) n := read_eq_some_iff.mp (read_digits n)

end Decimal

namespace Symbol

variable {token name : String} {cell : Nat}

/-! ## References by their spelling -/

/-- An ampersand, one plus sign at most, and a numeral for the cell. -/
def Refers (token : String) (cell : Nat) : Prop :=
  ∃ sign digits, token.toList = '&' :: (sign ++ digits) ∧ (sign = [] ∨ sign = ['+']) ∧
    Decimal.IsNumeral digits cell

/-- The digits behind a plus sign, if there is one. -/
def unsigned : List Char → List Char
  | '+' :: rest => rest
  | numeral => numeral

theorem cell?_eq (numeral : List Char) :
    cell? numeral = (Decimal.read (unsigned numeral)).filter (· < cellLimit) := by
  unfold cell? unsigned
  rfl

/-- No numeral begins with a sign. -/
theorem isNumeral_unsigned_iff {numeral : List Char} : Decimal.IsNumeral (unsigned numeral) cell ↔
    ∃ sign digits, numeral = sign ++ digits ∧ (sign = [] ∨ sign = ['+']) ∧
    Decimal.IsNumeral digits cell := by
  constructor
  · intro h
    unfold unsigned at h
    split at h
    · exact ⟨['+'], _, rfl, .inr rfl, h⟩
    · exact ⟨[], numeral, rfl, .inl rfl, h⟩
  · rintro ⟨sign, digits, rfl, rfl | rfl, hdigits⟩
    · have hplus : unsigned digits = digits := by
        unfold unsigned
        split
        · exact absurd (hdigits.all_digits '+' List.mem_cons_self) (by decide)
        · rfl
      rwa [List.nil_append, hplus]
    · exact hdigits

theorem refers_iff : Refers token cell ↔
    ∃ numeral, token.toList = '&' :: numeral ∧ Decimal.read (unsigned numeral) = some cell := by
  simp only [Decimal.read_eq_some_iff, isNumeral_unsigned_iff]
  constructor
  · rintro ⟨sign, digits, htoken, hsign, hdigits⟩
    exact ⟨sign ++ digits, htoken, sign, digits, rfl, hsign, hdigits⟩
  · rintro ⟨_, htoken, sign, digits, rfl, hsign, hdigits⟩
    exact ⟨sign, digits, htoken, hsign, hdigits⟩

/-- A token refers to one cell at most. -/
theorem Refers.unique {cell' : Nat} (h : Refers token cell) (h' : Refers token cell') :
    cell = cell' := by
  obtain ⟨numeral, htoken, hread⟩ := refers_iff.mp h
  obtain ⟨numeral', htoken', hread'⟩ := refers_iff.mp h'
  obtain rfl : numeral = numeral' := (List.cons.inj (htoken.symm.trans htoken')).2
  exact Option.some.inj (hread.symm.trans hread')

theorem Refers.not_mem_epsilonTokens (h : Refers token cell) : token ∉ epsilonTokens := by
  obtain ⟨_, _, htoken, _⟩ := h
  have hhead : ∀ spelling ∈ epsilonTokens, spelling.toList.head? ≠ some '&' := by decide
  exact fun hmem => hhead token hmem (by rw [htoken, List.head?_cons])

theorem refers_text (cell : Nat) : Refers (ref cell).text cell :=
  ⟨[], Decimal.digits cell, by simp [text, Decimal.text], .inl rfl, Decimal.isNumeral_digits cell⟩

/-! ## What a token stands for -/

/-- A name that is a spelling of epsilon or of a reference, so that no token is read as the literal
of this name. -/
def Reserved (name : String) : Prop := name ∈ epsilonTokens ∨ ∃ cell < cellLimit, Refers name cell

theorem ofToken_of_mem (h : token ∈ epsilonTokens) : ofToken token = epsilon := if_pos h

theorem ofToken_of_refers (h : Refers token cell) (hcell : cell < cellLimit) :
    ofToken token = ref cell := by
  obtain ⟨numeral, htoken, hread⟩ := refers_iff.mp h
  have hvalue : cell? numeral = some cell := by
    rw [cell?_eq, hread, Option.filter_some, if_pos (decide_eq_true hcell)]
  unfold ofToken
  rw [if_neg h.not_mem_epsilonTokens, htoken]
  simp only [hvalue]

theorem ofToken_of_not_reserved (h : ¬ Reserved token) : ofToken token = literal token := by
  unfold ofToken
  rw [if_neg fun hmem => h (.inl hmem)]
  split
  · rename_i numeral htoken
    split
    · rename_i cell hcell
      rw [cell?_eq, Option.filter_eq_some_iff] at hcell
      exact absurd
        (.inr ⟨cell, of_decide_eq_true hcell.2, refers_iff.mpr ⟨numeral, htoken, hcell.1⟩⟩) h
    · rfl
  · rfl

/-- A reference is to a cell whose number is a machine word. -/
def Addressable : Symbol → Prop
  | ref cell => cell < cellLimit
  | _ => True

/-- The three cases of a token. -/
theorem ofToken_cases (token : String) : (token ∈ epsilonTokens ∧ ofToken token = epsilon) ∨
    (∃ cell < cellLimit, Refers token cell ∧ ofToken token = ref cell) ∨
      ¬ Reserved token ∧ ofToken token = literal token := by
  by_cases h : Reserved token
  · rcases h with hmem | ⟨cell, hcell, hrefers⟩
    · exact .inl ⟨hmem, ofToken_of_mem hmem⟩
    · exact .inr (.inl ⟨cell, hcell, hrefers, ofToken_of_refers hrefers hcell⟩)
  · exact .inr (.inr ⟨h, ofToken_of_not_reserved h⟩)

theorem ofToken_eq_literal_iff : ofToken token = literal name ↔ token = name ∧ ¬ Reserved name := by
  constructor
  · intro h
    rcases ofToken_cases token with ⟨_, heq⟩ | ⟨_, _, _, heq⟩ | ⟨hfree, heq⟩ <;> rw [heq] at h
    · cases h
    · cases h
    · obtain rfl := literal.inj h
      exact ⟨rfl, hfree⟩
  · rintro ⟨rfl, hfree⟩
    exact ofToken_of_not_reserved hfree

theorem addressable_ofToken (token : String) : (ofToken token).Addressable := by
  rcases ofToken_cases token with ⟨_, heq⟩ | ⟨cell, hcell, _, heq⟩ | ⟨_, heq⟩ <;> rw [heq]
  · exact trivial
  · exact hcell
  · exact trivial

/-- A symbol is read back from its text unless it is a literal that is spelled like another
symbol. -/
theorem ofToken_text_eq_iff (s : Symbol) :
    ofToken s.text = s ↔ s.Addressable ∧ ∀ name, s = literal name → ¬ Reserved name := by
  cases s with
  | epsilon =>
    exact ⟨fun _ => ⟨trivial, fun _ h => by cases h⟩, fun _ => ofToken_of_mem (by decide)⟩
  | literal name =>
    refine ofToken_eq_literal_iff.trans
      ⟨fun h => ⟨trivial, fun _ heq => ?_⟩, fun h => ⟨rfl, h.2 name rfl⟩⟩
    exact literal.inj heq ▸ h.2
  | ref cell =>
    refine ⟨fun h => ⟨?_, fun _ heq => by cases heq⟩,
      fun h => ofToken_of_refers (refers_text cell) h.1⟩
    exact h ▸ addressable_ofToken (ref cell).text

/-- The symbol of a token is read back from its text, which may be another token: of the spellings
of epsilon one is written, and of those of a reference the one without a sign or a zero in front. A
number that is no machine word is no cell, and its token is a literal. The symbols that are read
back are the references to cells and all others, but for the literals with a name that is a spelling
of epsilon or of a reference. -/
theorem ofToken_text :
    (∀ token, ofToken (ofToken token).text = ofToken token) ∧
    (∀ token ∈ epsilonTokens, ofToken token = epsilon) ∧
    (∀ token cell, Refers token cell →
      ofToken token = if cell < cellLimit then ref cell else literal token) ∧
    ∀ s : Symbol, ofToken s.text = s ↔
      s.Addressable ∧ ∀ name, s = literal name → ¬ Reserved name := by
  refine ⟨fun token => ?_, fun _ => ofToken_of_mem, fun token cell h => ?_, ofToken_text_eq_iff⟩
  · exact (ofToken_text_eq_iff _).mpr
      ⟨addressable_ofToken token, fun _ h => (ofToken_eq_literal_iff.mp h).2⟩
  · split
    · rename_i hcell
      exact ofToken_of_refers h hcell
    · rename_i hcell
      refine ofToken_of_not_reserved fun hreserved => ?_
      rcases hreserved with hmem | ⟨other, hother, h'⟩
      · exact h.not_mem_epsilonTokens hmem
      · exact hcell (h.unique h' ▸ hother)

/-- Zeros and a sign, the first number that is no machine word and the last that is, and names that
are spellings. -/
theorem ofToken_text_assorted :
    Refers "&+007" 7 ∧ ofToken "&+007" = ref 7 ∧ ofToken (ofToken "&+007").text = ref 7 ∧
      Refers "&18446744073709551616" 18446744073709551616 ∧
      ofToken "&18446744073709551616" = literal "&18446744073709551616" ∧
      ofToken (ref 18446744073709551615).text = ref 18446744073709551615 ∧
      ofToken (ofToken "ϵ").text = epsilon ∧
      ofToken (literal "eps").text ≠ literal "eps" ∧
      ofToken (literal "&+007").text ≠ literal "&+007" := by
  obtain ⟨hround, hepsilon, hcell, hsymbol⟩ := ofToken_text
  have hseven : Refers "&+007" 7 :=
    ⟨['+'], ['0', '0', '7'], by decide, .inr rfl, Decimal.read_eq_some_iff.mp (by decide)⟩
  have hlarge : Refers "&18446744073709551616" 18446744073709551616 :=
    ⟨[], "18446744073709551616".toList, by decide, .inl rfl,
      Decimal.read_eq_some_iff.mp (by decide)⟩
  have hread : ofToken "&+007" = ref 7 := hcell _ _ hseven
  refine ⟨hseven, hread, (hround _).trans hread, hlarge, hcell _ _ hlarge, ?_, ?_, ?_, ?_⟩
  · exact (hsymbol _).mpr
      ⟨show (18446744073709551615 : Nat) < cellLimit by decide, fun _ h => by cases h⟩
  · exact (hround "ϵ").trans (hepsilon "ϵ" (by decide))
  · exact fun h => ((hsymbol _).mp h).2 "eps" rfl (.inl (by decide))
  · exact fun h => ((hsymbol _).mp h).2 "&+007" rfl (.inr ⟨7, by decide, hseven⟩)

end Symbol

end Acceptors
