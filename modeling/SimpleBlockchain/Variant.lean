import SimpleBlockchain.Basic

/-!
# Variants and the JSON writer

The dynamically typed values that stand between the classes of the node and
their JSON text, and `json::to_string` with large integers and doubles quoted.
Base-64 blobs do not occur in a block and are left out.
-/

namespace SimpleBlockchain

/-- A double is kept as the text that it was read from. -/
inductive Variant
  | null
  | int64 (i : Int64)
  | uint64 (n : UInt64)
  | double (text : Str)
  | bool (b : Bool)
  | string (s : Str)
  | array (a : List Variant)
  | object (o : List (Str × Variant))

def boolText (b : Bool) : Str := if b then "true".toList else "false".toList

def toUInt64 (P : Platform) (i : Str) : Except Exn UInt64 :=
  match P.lexicalCastUInt64 i with
  | some n => .ok n
  | none => .error ⟨.parseError, "Couldn't parse uint64_t"⟩

def toInt64 (P : Platform) (i : Str) : Except Exn Int64 :=
  match P.lexicalCastInt64 i with
  | some n => .ok n
  | none => .error ⟨.parseError, "Couldn't parse int64_t"⟩

def toDouble (P : Platform) (i : Str) : Except Exn Variant :=
  if P.lexicalCastDouble i then .ok (.double i) else .error ⟨.parseError, "Couldn't parse double"⟩

namespace Variant

def asUInt64 (P : Platform) : Variant → Except Exn UInt64
  | string s => toUInt64 P s
  | double text => .ok (P.doubleToUInt64 text)
  | int64 i => .ok i.toUInt64
  | uint64 n => .ok n
  | bool b => .ok (if b then 1 else 0)
  | null => .ok 0
  | array _ | object _ => .error ⟨.badCast, "Invalid cast from ${type} to uint64"⟩

def asString (P : Platform) : Variant → Except Exn Str
  | string s => .ok s
  | double text => .ok (P.doubleToString text)
  | int64 i => .ok (P.lexicalCastStringInt i)
  | uint64 n => .ok (P.lexicalCastString n)
  | bool b => .ok (boolText b)
  | null => .ok []
  | array _ | object _ => .error ⟨.badCast, "Invalid cast from ${type} to string"⟩

def getArray : Variant → Except Exn (List Variant)
  | array a => .ok a
  | _ => .error ⟨.badCast, "Invalid cast from ${type} to Array"⟩

def getObject : Variant → Except Exn (List (Str × Variant))
  | object o => .ok o
  | _ => .error ⟨.badCast, "Invalid cast from type '${type}' to Object"⟩

end Variant

/-- `variant_object::find`: of two entries with one key the first counts. -/
def findKey (o : List (Str × Variant)) (key : String) : Option Variant :=
  (o.find? (·.1 = key.toList)).map (·.2)

/-! ## The writer -/

def escapeChar (c : Char) : Str :=
  if c.toNat = 8 then "\\b".toList
  else if c.toNat = 12 then "\\f".toList
  else if c = '\n' then "\\n".toList
  else if c = '\r' then "\\r".toList
  else if c = '\t' then "\\t".toList
  else if c = '\\' then "\\\\".toList
  else if c = '"' then "\\\"".toList
  else if c.toNat < 32 then
    "\\u00".toList ++ [Nat.digitChar (c.toNat / 16), Nat.digitChar (c.toNat % 16)]
  else [c]

def escapeString (str : Str) : Str := '"' :: str.flatMap escapeChar ++ ['"']

mutual

/-- `to_stream` under `stringify_large_ints_and_doubles`. -/
def toStream (P : Platform) : Variant → Str
  | .null => "null".toList
  | .int64 i =>
      if 0xffffffff < i.toInt then '"' :: P.lexicalCastStringInt i ++ ['"'] else (toString i).toList
  | .uint64 n =>
      if 0xffffffff < n then '"' :: P.lexicalCastString n ++ ['"'] else decimal n.toNat
  | .double text => '"' :: P.doubleToString text ++ ['"']
  | .bool b => boolText b
  | .string s => escapeString s
  | .array a => '[' :: toStreamElems P a
  | .object o => '{' :: toStreamEntries P o

def toStreamElems (P : Platform) : List Variant → Str
  | [] => [']']
  | [v] => toStream P v ++ [']']
  | v :: a => toStream P v ++ ',' :: toStreamElems P a

def toStreamEntries (P : Platform) : List (Str × Variant) → Str
  | [] => ['}']
  | [(key, v)] => escapeString key ++ ':' :: toStream P v ++ ['}']
  | (key, v) :: o => escapeString key ++ ':' :: toStream P v ++ ',' :: toStreamEntries P o

end

end SimpleBlockchain
