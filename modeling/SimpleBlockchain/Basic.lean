import Mathlib.Tactic.Common

/-!
# Byte strings, exceptions and the code outside the repository

OpenSSL, the secp256k1 library and Boost are not modelled: the functions the
node calls in them are the fields of a `Platform`. `Platform.BoostExact` states
the documented behaviour of Boost's conversions that the node relies on.
-/

namespace SimpleBlockchain

/-- A `std::vector<char>`, or a stretch of raw memory. -/
abbrev Bytes := List UInt8

/-- A `std::string`. Each char stands for one byte. -/
abbrev Str := List Char

abbrev Sha256 := Vector UInt8 32
abbrev PrivateKeySecret := Vector UInt8 32
abbrev PublicKeyData := Vector UInt8 33
abbrev CompactSignature := Vector UInt8 65

/-- The exception classes of fc that the modelled code throws. -/
inductive ExnName
  | exception
  | parseError
  | eof
  | badCast
  | assert
  | trxInvalidArg
deriving DecidableEq, Repr

structure Exn where
  name : ExnName
  what : String
deriving DecidableEq, Repr

/-- `FC_ASSERT`. -/
def fcAssert (test : Prop) [Decidable test] (what : String) : Except Exn Unit :=
  if test then .ok () else .error ⟨.assert, what⟩

theorem bind_eq_ok {α β : Type} {x : Except Exn α} {f : α → Except Exn β} {b : β} :
    (x >>= f) = .ok b ↔ ∃ a, x = .ok a ∧ f a = .ok b := by
  cases x with
  | error e => simp [bind, Except.bind]
  | ok a => simp [bind, Except.bind]

theorem bind_congr_of_ok {α β : Type} {x : Except Exn α} {f g : α → Except Exn β}
    (h : ∀ a, x = .ok a → f a = g a) : (x >>= f) = (x >>= g) := by
  cases x with
  | error e => rfl
  | ok a => exact h a rfl

theorem forall_mem_of_all {α : Type} {p : α → Prop} [DecidablePred p] {l : List α}
    (h : l.all (fun a => decide (p a)) = true) : ∀ a ∈ l, p a :=
  fun a ha => of_decide_eq_true (List.all_eq_true.1 h a ha)

theorem fcAssert_eq_ok {test : Prop} [Decidable test] {what : String} {u : Unit} :
    fcAssert test what = .ok u ↔ test := by
  by_cases h : test <;> simp [fcAssert, h]

@[simp] theorem fcAssert_of {test : Prop} [Decidable test] (h : test) (what : String) :
    fcAssert test what = .ok () := if_pos h

@[simp] theorem ok_bind {α β : Type} (a : α) (f : α → Except Exn β) :
    ((Except.ok a : Except Exn α) >>= f) = f a := rfl

@[simp] theorem error_bind {α β : Type} (e : Exn) (f : α → Except Exn β) :
    ((Except.error e : Except Exn α) >>= f) = .error e := rfl

/-- The functions of OpenSSL, secp256k1 and Boost that the node calls. A key or
a number that a function cannot produce is `none`. -/
structure Platform where
  sha256 : Bytes → Sha256
  ripemd160 : Bytes → Vector UInt8 20
  /-- `secp256k1_ecdsa_recover_compact`, from the digest, the signature and the recovery id. -/
  recoverCompactK1 : Sha256 → CompactSignature → ℕ → Option PublicKeyData
  /-- `ecc::private_key::sign_compact` on a non-empty key, canonical signatures only. -/
  signCompactK1 : PrivateKeySecret → Sha256 → Option CompactSignature
  /-- Whether the s-value of an R1 signature exceeds half the group order. -/
  highSR1 : CompactSignature → Bool
  /-- `ECDSA_SIG_recover_key_GFp`, from the digest, the signature and the recovery id. -/
  recoverKeyR1 : Sha256 → CompactSignature → ℕ → Option PublicKeyData
  signCompactR1 : PrivateKeySecret → Sha256 → Option CompactSignature
  /-- `to_iso_extended_string` of `from_time_t`. -/
  toIsoExtendedString : UInt32 → Str
  /-- `parse_delimited_time` with the delimiter 'T', in seconds since the epoch. -/
  parseDelimitedTime : Str → Option UInt32
  /-- `boost::posix_time::from_iso_string`, in seconds since the epoch. -/
  fromIsoString : Str → Option UInt32
  lexicalCastString : UInt64 → Str
  lexicalCastStringInt : Int64 → Str
  lexicalCastUInt64 : Str → Option UInt64
  lexicalCastInt64 : Str → Option Int64
  /-- Whether `boost::lexical_cast<double>` accepts the text. -/
  lexicalCastDouble : Str → Bool
  /-- The cast to `uint64_t` of the double that a text denotes. -/
  doubleToUInt64 : Str → UInt64
  /-- `to_string(double)` of the double that a text denotes. -/
  doubleToString : Str → Str

/-- `std::to_string`, and what a `std::ostream` prints for an unsigned integer. -/
def decimal (n : ℕ) : Str := Nat.toDigits 10 n

/-- ISO formatting and parsing are inverse on 32-bit seconds, and the casts
between integers and strings are exact. -/
structure Platform.BoostExact (P : Platform) : Prop where
  iso_inverse (t : UInt32) : P.parseDelimitedTime (P.toIsoExtendedString t) = some t
  /-- The text is `YYYY-MM-DDTHH:MM:SS`: four digits of the year stand before the first dash. -/
  iso_year (t : UInt32) : (P.toIsoExtendedString t)[4]? = some '-'
  iso_alphabet (t : UInt32) (c : Char) (hc : c ∈ P.toIsoExtendedString t) :
    c.isDigit ∨ c = '-' ∨ c = ':' ∨ c = 'T'
  cast_string (n : UInt64) : P.lexicalCastString n = decimal n.toNat
  cast_inverse (n : UInt64) : P.lexicalCastUInt64 (decimal n.toNat) = some n

end SimpleBlockchain
