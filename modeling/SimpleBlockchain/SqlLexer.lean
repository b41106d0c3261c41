import Mathlib.Tactic.Common

/-!
# INSERT statements as text

The part of SQL's lexical grammar that a statement made of names, numbers, text literals
and punctuation needs, read one character at a time, and the grammar of an `INSERT` of one
row. Anything else is no statement here: a number that runs into a name, a name that runs
into a quote (a blob literal), comments and operators.
-/

namespace Sql

inductive Token
  | word (s : List Char)
  | number (s : List Char)
  | text (s : List Char)
  | punct (c : Char)
deriving DecidableEq

/-- What has been read of an unfinished token. In `quote`, a text literal has ended unless
another quote follows. -/
inductive LexState
  | start
  | word (s : List Char)
  | number (s : List Char)
  | text (s : List Char)
  | quote (s : List Char)
deriving DecidableEq

def isPunct (c : Char) : Bool := c ∈ ['(', ')', ',', ';']

def isWordStart (c : Char) : Bool := c.isAlpha || c = '_'

def isWordChar (c : Char) : Bool := c.isAlphanum || c = '_'

/-- The first character of a token, with the tokens that end before or with it. -/
def begin (done : List Token) (c : Char) : Option (List Token × LexState) :=
  if c = ' ' then some (done, .start)
  else if isPunct c then some (done ++ [.punct c], .start)
  else if c = '\'' then some (done, .text [])
  else if c.isDigit then some (done, .number [c])
  else if isWordStart c then some (done, .word [c])
  else none

def LexState.advance : LexState → Char → Option (List Token × LexState)
  | .start, c => begin [] c
  | .word s, c =>
      if isWordChar c then some ([], .word (s ++ [c]))
      else if c = '\'' then none
      else begin [.word s] c
  | .number s, c =>
      if c.isDigit then some ([], .number (s ++ [c]))
      else if isWordStart c then none
      else begin [.number s] c
  | .text s, c => if c = '\'' then some ([], .quote s) else some ([], .text (s ++ [c]))
  | .quote s, c => if c = '\'' then some ([], .text (s ++ [c])) else begin [.text s] c

/-- The tokens that end within a text, and what is unfinished after it. -/
def scan (st : LexState) : List Char → Option (List Token × LexState)
  | [] => some ([], st)
  | c :: s => do
      let (done, st) ← st.advance c
      let (done', st) ← scan st s
      some (done ++ done', st)

def LexState.finish : LexState → Option (List Token)
  | .start => some []
  | .word s => some [.word s]
  | .number s => some [.number s]
  | .text _ => none
  | .quote s => some [.text s]

def tokens (sql : List Char) : Option (List Token) := do
  let (done, st) ← scan .start sql
  let last ← st.finish
  some (done ++ last)

inductive Value
  | number (digits : List Char)
  | text (s : List Char)
deriving DecidableEq

structure Insert where
  table : List Char
  columns : List (List Char)
  values : List Value
deriving DecidableEq

def parseColumns : List Token → Option (List (List Char) × List Token)
  | .word s :: .punct ')' :: rest => some ([s], rest)
  | .word s :: .punct ',' :: rest => do
      let (columns, rest) ← parseColumns rest
      some (s :: columns, rest)
  | _ => none

def Token.value : Token → Option Value
  | .number s => some (.number s)
  | .text s => some (.text s)
  | _ => none

def parseValues : List Token → Option (List Value × List Token)
  | t :: .punct ')' :: rest => do
      let v ← t.value
      some ([v], rest)
  | t :: .punct ',' :: rest => do
      let v ← t.value
      let (values, rest) ← parseValues rest
      some (v :: values, rest)
  | _ => none

/-- One `INSERT` statement and nothing after it. -/
def parseInsert : List Token → Option Insert
  | .word insert :: .word into :: .word table :: .punct '(' :: rest => do
      let (columns, rest) ← parseColumns rest
      match rest with
      | .word values :: .punct '(' :: rest => do
          let (row, rest) ← parseValues rest
          if insert = "INSERT".toList ∧ into = "INTO".toList ∧ values = "VALUES".toList ∧
              columns.length = row.length ∧ rest = [.punct ';'] then some ⟨table, columns, row⟩
          else none
      | _ => none
  | _ => none

def parse (sql : List Char) : Option Insert := tokens sql >>= parseInsert

/-! ## Reading a text in parts -/

theorem scan_append (st : LexState) (s t : List Char) :
    scan st (s ++ t) = (do
      let (done, st) ← scan st s
      let (done', st) ← scan st t
      some (done ++ done', st)) := by
  induction s generalizing st with
  | nil => cases h : scan st t <;> simp [scan, h]
  | cons c s ih =>
      rw [List.cons_append, scan, scan]
      cases st.advance c with
      | none => rfl
      | some r =>
          obtain ⟨done, st⟩ := r
          simp only [Option.bind_eq_bind, Option.bind_some, ih]
          cases scan st s with
          | none => rfl
          | some r =>
              obtain ⟨done', st⟩ := r
              simp only [Option.bind_some]
              cases scan st t <;> simp

theorem scan_append_of {st st' st'' : LexState} {s t : List Char} {done done' : List Token}
    (hs : scan st s = some (done, st')) (ht : scan st' t = some (done', st'')) :
    scan st (s ++ t) = some (done ++ done', st'') := by
  rw [scan_append, hs]
  simp [ht]

/-- A text literal takes whatever is not a quote. -/
theorem scan_text {t : List Char} (ht : ∀ c ∈ t, c ≠ '\'') (s : List Char) :
    scan (.text s) t = some ([], .text (s ++ t)) := by
  induction t generalizing s with
  | nil => simp [scan]
  | cons c t ih =>
      rw [List.forall_mem_cons] at ht
      simp [scan, LexState.advance, if_neg ht.1, ih ht.2]

theorem scan_digits {t : List Char} (ht : ∀ c ∈ t, c.isDigit) (s : List Char) :
    scan (.number s) t = some ([], .number (s ++ t)) := by
  induction t generalizing s with
  | nil => simp [scan]
  | cons c t ih =>
      rw [List.forall_mem_cons] at ht
      simp [scan, LexState.advance, ht.1, ih ht.2]

theorem scan_number {t : List Char} (ht : ∀ c ∈ t, c.isDigit) (hne : t ≠ []) :
    scan .start t = some ([], .number t) := by
  cases t with
  | nil => exact absurd rfl hne
  | cons c t =>
      rw [List.forall_mem_cons] at ht
      have hne : ∀ d : Char, d.isDigit = false → c ≠ d := by
        rintro d hd rfl
        rw [ht.1] at hd
        cases hd
      have hpunct : isPunct c = false := by
        simp [isPunct, hne '(' rfl, hne ')' rfl, hne ',' rfl, hne ';' rfl]
      have hbegin : begin [] c = some ([], .number [c]) := by
        rw [begin, if_neg (hne ' ' rfl), hpunct, if_neg Bool.false_ne_true, if_neg (hne '\'' rfl),
          if_pos ht.1]
      rw [scan, LexState.advance, hbegin]
      simp [scan_digits ht.2]

end Sql
