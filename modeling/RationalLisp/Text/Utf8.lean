import RationalLisp.Text

/-! # UTF-8

Decoding is strict: it accepts the shortest form of each code point only, and no surrogates. Text
with surrogates has no UTF-8 form. In the names of files, which may be any bytes, some surrogates
stand for the bytes that are not UTF-8. -/

namespace RationalLisp

/-- The contents of a file. -/
abbrev Bytes := List UInt8

namespace Utf8

/-- The six bits of a continuation byte. -/
def continuation? (b : UInt8) : Option Nat :=
  if 0x80 ≤ b.toNat ∧ b.toNat < 0xC0 then some (b.toNat - 0x80) else none

/-- The code point with the given number, if it is a scalar value of at least `least`. -/
def scalar? (least n : Nat) : Option CodePoint :=
  if h : n < 0x110000 then
    if least ≤ n ∧ ¬ (0xD800 ≤ n ∧ n < 0xE000) then some ⟨n, h⟩ else none
  else none

/-- The code point of a two-byte sequence. -/
def two? (a b : UInt8) : Option CodePoint := do
  guard (0xC0 ≤ a.toNat ∧ a.toNat < 0xE0)
  scalar? 0x80 ((a.toNat - 0xC0) * 64 + (← continuation? b))

/-- The code point of a three-byte sequence. -/
def three? (a b c : UInt8) : Option CodePoint := do
  guard (0xE0 ≤ a.toNat ∧ a.toNat < 0xF0)
  scalar? 0x800 (((a.toNat - 0xE0) * 64 + (← continuation? b)) * 64 + (← continuation? c))

/-- The code point of a four-byte sequence. -/
def four? (a b c d : UInt8) : Option CodePoint := do
  guard (0xF0 ≤ a.toNat ∧ a.toNat < 0xF8)
  scalar? 0x10000
    ((((a.toNat - 0xF0) * 64 + (← continuation? b)) * 64 + (← continuation? c)) * 64 +
      (← continuation? d))

/-- The text of UTF-8 bytes after the code points already seen, which are given latest first. -/
def decodeOnto (seen : Text) : Bytes → Option Text
  | [] => some seen.reverse
  | a :: rest =>
    if h : a.toNat < 0x80 then decodeOnto (⟨a.toNat, by omega⟩ :: seen) rest
    else match rest with
      | [] => none
      | b :: rest =>
        match two? a b with
        | some p => decodeOnto (p :: seen) rest
        | none =>
          match rest with
          | [] => none
          | c :: rest =>
            match three? a b c with
            | some p => decodeOnto (p :: seen) rest
            | none =>
              match rest with
              | [] => none
              | d :: rest =>
                match four? a b c d with
                | some p => decodeOnto (p :: seen) rest
                | none => none

/-- The text of UTF-8 bytes. -/
def decode? (bytes : Bytes) : Option Text := decodeOnto [] bytes

/-- The UTF-8 bytes of a code point. -/
def encodeCodePoint (p : CodePoint) : Bytes :=
  let n := p.val
  let tail (shift : Nat) : UInt8 := UInt8.ofNat (0x80 + n / shift % 64)
  if n < 0x80 then [UInt8.ofNat n]
  else if n < 0x800 then [UInt8.ofNat (0xC0 + n / 64), tail 1]
  else if n < 0x10000 then [UInt8.ofNat (0xE0 + n / 4096), tail 64, tail 1]
  else [UInt8.ofNat (0xF0 + n / 262144), tail 4096, tail 64, tail 1]

/-- The UTF-8 bytes of a text. -/
def encode (t : Text) : Bytes := t.flatMap encodeCodePoint

/-- Whether a surrogate stands for a byte of a file name. -/
def isByte (c : CodePoint) : Bool := 0xDC80 ≤ c.val && c.val ≤ 0xDCFF

/-- The bytes of a file name. -/
def encodeName (name : Text) : Bytes :=
  name.flatMap fun c => if isByte c then [UInt8.ofNat (c.val - 0xDC00)] else encodeCodePoint c

end Utf8

namespace Text

/-- Whether a text can be written as UTF-8. -/
def Encodable (t : Text) : Prop := ∀ c ∈ t, c.isSurrogate = false

instance (t : Text) : Decidable t.Encodable :=
  List.decidableBAll (fun c : CodePoint => c.isSurrogate = false) t

/-- Text with line feeds for all line ends: a carriage return, alone or before a line feed, is one
line end. -/
def unixLines (t : Text) : Text :=
  let step : Text × Bool → CodePoint → Text × Bool := fun (seen, afterReturn) c =>
    if c = '\r' then (('\n' : CodePoint) :: seen, true)
    else if c = '\n' ∧ afterReturn then (seen, false)
    else (c :: seen, false)
  (t.foldl step ([], false)).1.reverse

end Text

end RationalLisp
