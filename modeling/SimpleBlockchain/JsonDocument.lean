import SimpleBlockchain.JsonString

/-!
# JSON documents

The texts of JSON with their layout: white space may stand wherever JSON allows it, the
members of an object in any order, and strings as any items. Of the numbers there are
those without an exponent.
-/

namespace JsonDocument

open JsonString (Item)

def IsBlank (c : Char) : Prop := c = ' ' ∨ c = '\t' ∨ c = '\n' ∨ c = '\r'

structure Blank where
  chars : List Char
  isBlank : ∀ c ∈ chars, IsBlank c

def Blank.none : Blank := ⟨[], fun _ hc => absurd hc List.not_mem_nil⟩

def Blank.space : Blank := ⟨[' '], fun _ hc => Or.inl (List.mem_singleton.1 hc)⟩

def Blank.append (ws ws' : Blank) : Blank where
  chars := ws.chars ++ ws'.chars
  isBlank c hc := (List.mem_append.1 hc).elim (ws.isBlank c) (ws'.isBlank c)

/-- A number: digits after a sign, perhaps, and a fraction after them. Zeros may lead. -/
structure Numeral where
  negative : Bool
  digits : List Char
  fraction : Option (List Char)
  digits_ne : digits ≠ []
  isDigit : ∀ c ∈ digits, c.isDigit
  isDigit_fraction : ∀ ds, fraction = some ds → ∀ c ∈ ds, c.isDigit

namespace Numeral

def ofNat (n : ℕ) : Numeral where
  negative := false
  digits := Nat.toDigits 10 n
  fraction := none
  digits_ne := Nat.toDigits_ne_nil
  isDigit _ hc := Nat.isDigit_of_mem_toDigits (by decide) (by decide) hc
  isDigit_fraction _ hds := by cases hds

def body (n : Numeral) : List Char := n.digits ++ n.fraction.elim [] ('.' :: ·)

def text (n : Numeral) : List Char := if n.negative then '-' :: n.body else n.body

theorem body_head (n : Numeral) : ∃ c s, n.body = c :: s ∧ c.isDigit := by
  cases hd : n.digits with
  | nil => exact absurd hd n.digits_ne
  | cons c ds =>
      refine ⟨c, _, by rw [body, hd, List.cons_append], n.isDigit c ?_⟩
      rw [hd]
      exact List.mem_cons_self

end Numeral

mutual

inductive Doc
  | null
  | bool (b : Bool)
  | number (n : Numeral)
  | string (items : List Item)
  | array (inner : Blank) (elems : Elems)
  | object (inner : Blank) (members : Members)

inductive Elems
  | nil
  | cons (before : Blank) (v : Doc) (after : Blank) (rest : Elems)

inductive Members
  | nil
  | cons (before : Blank) (key : List Item) (afterKey beforeValue : Blank) (v : Doc)
      (after : Blank) (rest : Members)

end

def quoted (items : List Item) : List Char := '"' :: items.flatMap Item.text ++ ['"']

mutual

def Doc.text : Doc → List Char
  | .null => "null".toList
  | .bool b => if b then "true".toList else "false".toList
  | .number n => n.text
  | .string items => quoted items
  | .array inner elems => '[' :: inner.chars ++ elems.text
  | .object inner members => '{' :: inner.chars ++ members.text

def Elems.text : Elems → List Char
  | .nil => [']']
  | .cons before v after .nil => before.chars ++ v.text ++ after.chars ++ [']']
  | .cons before v after rest => before.chars ++ v.text ++ after.chars ++ ',' :: rest.text

def Members.text : Members → List Char
  | .nil => ['}']
  | .cons before key afterKey beforeValue v after .nil =>
      before.chars ++ quoted key ++ afterKey.chars ++ ':' :: beforeValue.chars ++ v.text ++
        after.chars ++ ['}']
  | .cons before key afterKey beforeValue v after rest =>
      before.chars ++ quoted key ++ afterKey.chars ++ ':' :: beforeValue.chars ++ v.text ++
        after.chars ++ ',' :: rest.text

end

def Elems.tail : Elems → List Char
  | .nil => [']']
  | rest => ',' :: rest.text

def Members.tail : Members → List Char
  | .nil => ['}']
  | rest => ',' :: rest.text

theorem Elems.text_cons (before : Blank) (v : Doc) (after : Blank) (rest : Elems) :
    (Elems.cons before v after rest).text =
      before.chars ++ (v.text ++ (after.chars ++ rest.tail)) := by
  cases rest <;> simp [Elems.text, Elems.tail]

theorem Members.text_cons (before : Blank) (key : List Item) (afterKey beforeValue : Blank)
    (v : Doc) (after : Blank) (rest : Members) :
    (Members.cons before key afterKey beforeValue v after rest).text =
      before.chars ++ (quoted key ++ (afterKey.chars ++
        ':' :: (beforeValue.chars ++ (v.text ++ (after.chars ++ rest.tail))))) := by
  cases rest <;> simp [Members.text, Members.tail]

theorem Elems.tail_head (elems : Elems) : ∃ c s, elems.tail = c :: s ∧ (c = ',' ∨ c = ']') := by
  cases elems with
  | nil => exact ⟨']', [], rfl, Or.inr rfl⟩
  | cons => exact ⟨',', _, rfl, Or.inl rfl⟩

theorem Members.tail_head (members : Members) :
    ∃ c s, members.tail = c :: s ∧ (c = ',' ∨ c = '}') := by
  cases members with
  | nil => exact ⟨'}', [], rfl, Or.inr rfl⟩
  | cons => exact ⟨',', _, rfl, Or.inl rfl⟩

mutual

/-- How deep arrays and objects are nested. A scalar has depth 1, as has `[]`. -/
def Doc.depth : Doc → ℕ
  | .array _ elems => elems.depth + 1
  | .object _ members => members.depth + 1
  | _ => 1

def Elems.depth : Elems → ℕ
  | .nil => 0
  | .cons _ v _ rest => max v.depth rest.depth

def Members.depth : Members → ℕ
  | .nil => 0
  | .cons _ _ _ _ v _ rest => max v.depth rest.depth

end

section Forall

variable (number : Numeral → Prop) (item : Item → Prop)

mutual

/-- All numbers and all items of the strings and keys are of a kind. -/
def Doc.Forall : Doc → Prop
  | .null | .bool _ => True
  | .number n => number n
  | .string items => ∀ i ∈ items, item i
  | .array _ elems => elems.Forall
  | .object _ members => members.Forall

def Elems.Forall : Elems → Prop
  | .nil => True
  | .cons _ v _ rest => v.Forall ∧ rest.Forall

def Members.Forall : Members → Prop
  | .nil => True
  | .cons _ key _ _ v _ rest => (∀ i ∈ key, item i) ∧ v.Forall ∧ rest.Forall

end

end Forall

end JsonDocument
