import Mathlib.Tactic.Common

/-!
# Strings in JSON

The text that may stand between the quotes of a JSON string, and the bytes that it
denotes in UTF-8. A text is a list of items: unescaped bytes, escapes of one letter,
and code points written in hexadecimal, those above `0xffff` as surrogate pairs.
-/

namespace JsonString

inductive Escape
  | quotationMark
  | reverseSolidus
  | solidus
  | backspace
  | formFeed
  | lineFeed
  | carriageReturn
  | tab
deriving DecidableEq

def Escape.letter : Escape → Char
  | .quotationMark => '"'
  | .reverseSolidus => '\\'
  | .solidus => '/'
  | .backspace => 'b'
  | .formFeed => 'f'
  | .lineFeed => 'n'
  | .carriageReturn => 'r'
  | .tab => 't'

def Escape.byte : Escape → UInt8
  | .quotationMark => 0x22
  | .reverseSolidus => 0x5c
  | .solidus => 0x2f
  | .backspace => 0x08
  | .formFeed => 0x0c
  | .lineFeed => 0x0a
  | .carriageReturn => 0x0d
  | .tab => 0x09

def IsHexDigit (c : Char) : Prop :=
  ('0' ≤ c ∧ c ≤ '9') ∨ ('a' ≤ c ∧ c ≤ 'f') ∨ ('A' ≤ c ∧ c ≤ 'F')

instance : DecidablePred IsHexDigit := fun _ => inferInstanceAs (Decidable (_ ∨ _))

def hexValue (c : Char) : ℕ :=
  if c ≤ '9' then c.toNat - '0'.toNat
  else if c ≤ 'F' then c.toNat - 'A'.toNat + 10
  else c.toNat - 'a'.toNat + 10

/-- Four hexadecimal digits. -/
structure CodeUnit where
  digits : List Char
  length_eq : digits.length = 4
  isHexDigit : ∀ c ∈ digits, IsHexDigit c

def CodeUnit.value (u : CodeUnit) : ℕ := u.digits.foldl (fun n c => 16 * n + hexValue c) 0

/-- A byte that stands for itself: no control character, quote or backslash. -/
def IsUnescaped (c : UInt8) : Prop := 32 ≤ c ∧ c ≠ 0x22 ∧ c ≠ 0x5c

instance : DecidablePred IsUnescaped := fun _ => inferInstanceAs (Decidable (_ ∧ _))

inductive Item
  | unescaped (c : UInt8) (h : IsUnescaped c)
  | escape (e : Escape)
  | unicode (u : CodeUnit) (h : u.value < 0xd800 ∨ 0xdfff < u.value)
  | surrogates (high low : CodeUnit) (hhigh : 0xd800 ≤ high.value ∧ high.value ≤ 0xdbff)
      (hlow : 0xdc00 ≤ low.value ∧ low.value ≤ 0xdfff)

namespace Item

def text : Item → List Char
  | unescaped c _ => [Char.ofNat c.toNat]
  | escape e => ['\\', e.letter]
  | unicode u _ => '\\' :: 'u' :: u.digits
  | surrogates high low _ _ => '\\' :: 'u' :: high.digits ++ '\\' :: 'u' :: low.digits

/-- The UTF-8 bytes of the character. -/
def bytes : Item → List UInt8
  | unescaped c _ => [c]
  | escape e => [e.byte]
  | unicode u _ => String.utf8EncodeChar (Char.ofNat u.value)
  | surrogates high low _ _ => String.utf8EncodeChar
      (Char.ofNat (0x10000 + (high.value - 0xd800) * 0x400 + (low.value - 0xdc00)))

end Item

end JsonString
