/-! # Text

A text is a list of code points. Programs build texts from numbers, so a text may hold any code
point, surrogates included; this is why `String` is too narrow. -/

namespace RationalLisp

/-- A Unicode code point, surrogates included. -/
abbrev CodePoint := Fin 0x110000

namespace CodePoint

/-- The code point of a character. -/
def ofChar (c : Char) : CodePoint :=
  ⟨c.toNat, by
    have h := c.valid
    simp only [UInt32.isValidChar, Nat.isValidChar] at h
    change c.val.toNat < 0x110000
    omega⟩

instance : Coe Char CodePoint := ⟨ofChar⟩

/-- The code point with a number, which is taken modulo the number of code points. -/
def ofNat (n : Nat) : CodePoint := ⟨n % 0x110000, Nat.mod_lt n (by decide)⟩

@[simp] theorem val_ofChar (c : Char) : (ofChar c).val = c.toNat := rfl

theorem ofChar_inj {a b : Char} : ofChar a = ofChar b ↔ a = b := by
  simp [ofChar, Char.toNat_inj]

/-- Surrogates stand for nothing on their own, and UTF-8 leaves them out. -/
def isSurrogate (c : CodePoint) : Bool := 0xD800 ≤ c.val && c.val < 0xE000

/-- The character of a code point, with U+FFFD in place of a surrogate. -/
def toChar (c : CodePoint) : Char :=
  if h : c.val.isValidChar then Char.ofNatAux c.val h else '\ufffd'

end CodePoint

/-- A text is the list of its code points. -/
abbrev Text := List CodePoint

namespace Text

/-- The code points of a string. -/
def ofString (s : String) : Text := s.toList.map CodePoint.ofChar

instance : Coe String Text := ⟨ofString⟩

/-- The string with the characters of a text. -/
def asString (t : Text) : String := String.ofList (t.map CodePoint.toChar)

/-- The pieces of a text between the occurrences of a code point. -/
def splitOn (sep : CodePoint) (t : Text) : List Text :=
  t.foldr (fun c pieces =>
    if c = sep then [] :: pieces
    else match pieces with
      | [] => [[c]]
      | piece :: rest => (c :: piece) :: rest) [[]]

end Text

end RationalLisp
