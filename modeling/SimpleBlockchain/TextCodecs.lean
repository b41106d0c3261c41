import Mathlib.Data.List.TakeWhile
import SimpleBlockchain.Basic
import SimpleBlockchain.Radix

/-!
# Hexadecimal and base 58

Byte vectors and hashes are stored as lower-case hexadecimal, keys and
signatures as base 58. Both decoders are more liberal than the encoders: upper
case and an odd number of digits are read, and so is white space around base 58.
-/

namespace SimpleBlockchain

/-! ## Hexadecimal -/

/-- The caller passes the size of the buffer, which is cut to 32 bits. -/
def toHex (d : Bytes) (s : UInt32) : Str :=
  (d.take s.toNat).flatMap fun c => [Nat.digitChar (c.toNat / 16), Nat.digitChar (c.toNat % 16)]

/-- Two digits for each byte of a string of any length. -/
def hexText (d : Bytes) : Str :=
  d.flatMap fun c => [Nat.digitChar (c.toNat / 16), Nat.digitChar (c.toNat % 16)]

theorem toHex_eq (d : Bytes) (s : UInt32) : toHex d s = hexText (d.take s.toNat) := rfl

def fromHexChar (c : Char) : Except Exn UInt8 :=
  if '0' ≤ c ∧ c ≤ '9' then .ok (UInt8.ofNat (c.toNat - '0'.toNat))
  else if 'a' ≤ c ∧ c ≤ 'f' then .ok (UInt8.ofNat (c.toNat - 'a'.toNat + 10))
  else if 'A' ≤ c ∧ c ≤ 'F' then .ok (UInt8.ofNat (c.toNat - 'A'.toNat + 10))
  else .error ⟨.exception, "Invalid hex character '${c}'"⟩

/-- The bytes that are written to a buffer of length `outDataLen`. -/
def fromHex : Str → ℕ → Except Exn Bytes
  | [], _ => .ok []
  | _, 0 => .ok []
  | [c], _ + 1 => do
      let h ← fromHexChar c
      .ok [h <<< 4]
  | c :: c' :: hexStr, outDataLen + 1 => do
      let h ← fromHexChar c
      let l ← fromHexChar c'
      let out ← fromHex hexStr outDataLen
      .ok ((h <<< 4 ||| l) :: out)

theorem fromHexChar_digitChar : ∀ n < 16, fromHexChar (Nat.digitChar n) = .ok (UInt8.ofNat n) := by
  decide

theorem digitChar_isAlphanum : ∀ n < 16, (Nat.digitChar n).isAlphanum := by
  decide

theorem forall_byte {p : UInt8 → Prop} (h : ∀ n < 256, p (UInt8.ofNat n)) (c : UInt8) : p c := by
  have hc := h c.toNat c.toNat_lt
  rwa [UInt8.ofNat_toNat] at hc

theorem nibbles_join (c : UInt8) :
    UInt8.ofNat (c.toNat / 16) <<< 4 ||| UInt8.ofNat (c.toNat % 16) = c := by
  revert c
  exact forall_byte (by decide +kernel)

/-- A decoder reads back the bytes that were written as far as it has room. -/
theorem fromHex_hexText (d : Bytes) (n : ℕ) : fromHex (hexText d) n = .ok (d.take n) := by
  induction d generalizing n with
  | nil => cases n <;> rfl
  | cons c d ih =>
      cases n with
      | zero => rfl
      | succ n =>
          have hlt := c.toNat_lt
          have hcons : hexText (c :: d) =
              Nat.digitChar (c.toNat / 16) :: Nat.digitChar (c.toNat % 16) :: hexText d := rfl
          rw [hcons, fromHex, fromHexChar_digitChar _ (by omega), ok_bind,
            fromHexChar_digitChar _ (by omega), ok_bind, ih, ok_bind, nibbles_join,
            List.take_succ_cons]

theorem fromHex_toHex (d : Bytes) (s : UInt32) {n : ℕ} (h : (d.take s.toNat).length ≤ n) :
    fromHex (toHex d s) n = .ok (d.take s.toNat) := by
  rw [toHex_eq, fromHex_hexText, List.take_of_length_le h]

theorem length_hexText (d : Bytes) : (hexText d).length = 2 * d.length := by
  simp [hexText, List.length_flatMap, Nat.mul_comm]

theorem length_toHex (d : Bytes) (s : UInt32) :
    (toHex d s).length = 2 * (d.take s.toNat).length := by
  rw [toHex_eq, length_hexText]

theorem hexText_isAlphanum (d : Bytes) : ∀ c ∈ hexText d, c.isAlphanum := by
  intro c hc
  obtain ⟨b, _, hb⟩ := List.mem_flatMap.1 hc
  have hlt := b.toNat_lt
  simp only [List.mem_cons, List.not_mem_nil, or_false] at hb
  rcases hb with rfl | rfl
  · exact digitChar_isAlphanum _ (by omega)
  · exact digitChar_isAlphanum _ (by omega)

theorem toHex_isAlphanum (d : Bytes) (s : UInt32) : ∀ c ∈ toHex d s, c.isAlphanum :=
  hexText_isAlphanum (d.take s.toNat)

/-! ## Base 58 -/

def pszBase58 : Str :=
  ['1', '2', '3', '4', '5', '6', '7', '8', '9', 'A', 'B', 'C', 'D', 'E', 'F', 'G', 'H', 'J', 'K',
   'L', 'M', 'N', 'P', 'Q', 'R', 'S', 'T', 'U', 'V', 'W', 'X', 'Y', 'Z', 'a', 'b', 'c', 'd', 'e',
   'f', 'g', 'h', 'i', 'j', 'k', 'm', 'n', 'o', 'p', 'q', 'r', 's', 't', 'u', 'v', 'w', 'x', 'y',
   'z']

/-- `isspace` in the C locale. -/
def isspace (c : Char) : Bool := c = ' ' ∨ (9 ≤ c.toNat ∧ c.toNat ≤ 13)

def cStr (s : Str) : Str := s.takeWhile (· ≠ Char.ofNat 0)

def toBase58 (d : Bytes) : Str :=
  (Radix.rebase 256 58 (d.map UInt8.toNat)).map (pszBase58.getD · '1')

def decodeBase58 (psz : Str) : Option Bytes :=
  let psz := psz.dropWhile isspace
  let digits := psz.takeWhile (· ∈ pszBase58)
  let rest := psz.dropWhile (· ∈ pszBase58)
  if rest.dropWhile isspace ≠ [] then none
  else some ((Radix.rebase 58 256 (digits.map (pszBase58.idxOf ·))).map UInt8.ofNat)

def fromBase58 (base58Str : Str) : Except Exn Bytes :=
  match decodeBase58 (cStr base58Str) with
  | none => .error ⟨.parseError, "Unable to decode base58 string ${base58_str}"⟩
  | some out => .ok out

theorem idxOf_getD_pszBase58 : ∀ n < 58, pszBase58.idxOf (pszBase58.getD n '1') = n := by
  decide

theorem pszBase58_plain : ∀ c ∈ pszBase58, c.isAlphanum ∧ isspace c = false :=
  forall_mem_of_all (by decide)

theorem mem_toBase58 {d : Bytes} {c : Char} (hc : c ∈ toBase58 d) : c ∈ pszBase58 := by
  obtain ⟨n, hn, rfl⟩ := List.mem_map.1 hc
  have hmem : ∀ n < 58, pszBase58.getD n '1' ∈ pszBase58 := by decide
  exact hmem n (Radix.rebase_lt (by decide) _ n hn)

theorem toBase58_isAlphanum (d : Bytes) : ∀ c ∈ toBase58 d, c.isAlphanum :=
  fun c hc => (pszBase58_plain c (mem_toBase58 hc)).1

theorem length_toBase58_le (d : Bytes) : (toBase58 d).length ≤ 3 * d.length := by
  have hbytes : ∀ n ∈ d.map UInt8.toNat, n < 256 := by
    intro n hn
    obtain ⟨b, _, rfl⟩ := List.mem_map.1 hn
    exact b.toNat_lt
  have hlen := @Radix.length_rebase_le 256 58 2 (by decide) (by decide) (by decide) _ hbytes
  rwa [List.length_map, ← List.length_map (pszBase58.getD · '1')] at hlen

theorem map_idxOf_toBase58 (d : Bytes) :
    (toBase58 d).map (pszBase58.idxOf ·) = Radix.rebase 256 58 (d.map UInt8.toNat) := by
  rw [toBase58, List.map_map, List.map_congr_left (g := id), List.map_id]
  intro n hn
  exact idxOf_getD_pszBase58 n (Radix.rebase_lt (by decide) _ n hn)

theorem takeWhile_of_forall {α : Type} {p : α → Bool} {l : List α} (h : ∀ a ∈ l, p a) :
    l.takeWhile p = l ∧ l.dropWhile p = [] :=
  ⟨List.takeWhile_eq_self_iff.2 h, List.dropWhile_eq_nil_iff.2 h⟩

theorem cStr_of_isAlphanum {s : Str} (h : ∀ c ∈ s, c.isAlphanum) : cStr s = s := by
  refine (takeWhile_of_forall fun c hc => ?_).1
  have := h c hc
  rw [decide_eq_true_iff]
  rintro rfl
  exact absurd this (by decide)

/-- Decoding gives back every byte, leading zeros included. -/
theorem fromBase58_toBase58 (d : Bytes) : fromBase58 (toBase58 d) = .ok d := by
  have hspace : (toBase58 d).dropWhile isspace = toBase58 d := by
    cases h : toBase58 d with
    | nil => rfl
    | cons c s =>
        have hc : c ∈ toBase58 d := by simp [h]
        simp [(pszBase58_plain c (mem_toBase58 hc)).2]
  have hall := takeWhile_of_forall (p := fun c => decide (c ∈ pszBase58)) (l := toBase58 d)
    fun c hc => by simpa using mem_toBase58 hc
  have hbytes : (d.map UInt8.toNat).map UInt8.ofNat = d := by
    rw [List.map_map, List.map_congr_left (g := id), List.map_id]
    intro b _
    exact UInt8.ofNat_toNat
  rw [fromBase58, cStr_of_isAlphanum (toBase58_isAlphanum d), decodeBase58]
  simp only [hspace, hall.1, hall.2, map_idxOf_toBase58, List.dropWhile_nil, ne_eq,
    not_true_eq_false, if_false]
  rw [Radix.rebase_rebase (by decide) (by decide), hbytes]
  intro n hn
  obtain ⟨b, _, rfl⟩ := List.mem_map.1 hn
  exact b.toNat_lt

theorem toBase58_ne_nil {d : Bytes} (h : d ≠ []) : toBase58 d ≠ [] := by
  rw [toBase58, Ne, List.map_eq_nil_iff]
  refine Radix.rebase_ne_nil (by decide) (by decide) ?_ (by simpa using h)
  intro n hn
  obtain ⟨b, _, rfl⟩ := List.mem_map.1 hn
  exact b.toNat_lt

end SimpleBlockchain
