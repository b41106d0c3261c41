import SimpleBlockchain.TextCodecs
import SimpleBlockchain.Variant

/-!
# Byte vectors, hashes and times as variants

Each conversion is undone by the one in the other direction, except that a
vector of `2 ^ 32` bytes or more is written only up to its size modulo `2 ^ 32`.
-/

namespace SimpleBlockchain

/-- The first `n` bytes of a buffer, which has at least as many. -/
def toVector (n : ℕ) (d : Bytes) : Vector UInt8 n := Vector.ofFn fun i => d.getD i 0

theorem toVector_append {n : ℕ} (v : Vector UInt8 n) (d : Bytes) :
    toVector n (v.toList ++ d) = v := by
  ext i hi
  simp [toVector, List.getD_eq_getElem?_getD, List.getElem?_append_left]

theorem toVector_toList {n : ℕ} (v : Vector UInt8 n) : toVector n v.toList = v := by
  simpa using toVector_append v []

namespace Variant

/-- `to_variant(vector<char>)`. The size is passed to `to_hex` as a `uint32_t`. -/
def ofBytes (d : Bytes) : Variant :=
  if d.length ≠ 0 then .string (toHex d (UInt32.ofNat d.length)) else .string []

def toBytes (P : Platform) (v : Variant) : Except Exn Bytes := do
  let str ← v.asString P
  let size := str.length / 2
  if size ≠ 0 then
    let vo ← fromHex str size
    fcAssert (vo.length = size) "r == vo.size(): "
    .ok vo
  else .ok []

def ofSha256 (h : Sha256) : Variant := ofBytes h.toList

/-- A short value overwrites only the first bytes of `bi`. -/
def toSha256 (P : Platform) (bi : Sha256) (v : Variant) : Except Exn Sha256 := do
  let ve ← v.toBytes P
  if ve.length ≠ 0 then .ok (toVector 32 (ve.take 32 ++ bi.toList.drop ve.length))
  else .ok (Vector.replicate 32 0)

/-- `time_point_sec::to_iso_string`. -/
def ofTime (P : Platform) (t : UInt32) : Variant := .string (P.toIsoExtendedString t)

/-- `time_point_sec::from_iso_string`. -/
def toTime (P : Platform) (v : Variant) : Except Exn UInt32 := do
  let s ← v.asString P
  let pt := if 5 ≤ s.length ∧ s[4]? = some '-' then P.parseDelimitedTime s else P.fromIsoString s
  match pt with
  | some t => .ok t
  | none =>
      .error ⟨.exception, "${what}: unable to convert ISO-formatted string to fc::time_point_sec"⟩

end Variant

/-- What is left of a byte vector after it went through `to_variant`. -/
def cutSize (d : Bytes) : Bytes := d.take (d.length % 2 ^ 32)

theorem cutSize_eq_self {d : Bytes} : cutSize d = d ↔ d.length < 2 ^ 32 := by
  rw [cutSize, List.take_eq_self_iff]
  constructor
  · intro h
    exact lt_of_le_of_lt h (Nat.mod_lt _ (by decide))
  · intro h
    rw [Nat.mod_eq_of_lt h]

/-- The codec is exact up to the size that a `uint32_t` holds. -/
theorem toBytes_ofBytes (P : Platform) (d : Bytes) :
    (Variant.ofBytes d).toBytes P = .ok (cutSize d) := by
  have hlen : (UInt32.ofNat d.length).toNat = d.length % 2 ^ 32 := by simp
  by_cases hd : d.length = 0
  · rw [List.length_eq_zero_iff] at hd
    subst hd
    rfl
  · have hcut : d.take (UInt32.ofNat d.length).toNat = cutSize d := by rw [hlen, cutSize]
    have hhex : fromHex (toHex d (UInt32.ofNat d.length)) (cutSize d).length = .ok (cutSize d) := by
      rw [← hcut]
      exact fromHex_toHex d _ le_rfl
    rw [Variant.ofBytes, if_pos hd, Variant.toBytes, Variant.asString, ok_bind]
    simp only [length_toHex, hcut, Nat.mul_div_cancel_left _ (show 0 < 2 by decide)]
    by_cases h0 : (cutSize d).length = 0
    · rw [if_neg (not_not.2 h0), List.length_eq_zero_iff.1 h0]
    · rw [if_pos h0, hhex, ok_bind, fcAssert_of rfl, ok_bind]

theorem toSha256_ofSha256 (P : Platform) (bi h : Sha256) :
    (Variant.ofSha256 h).toSha256 P bi = .ok h := by
  have hlen : h.toList.length = 32 := by simp
  rw [Variant.ofSha256, Variant.toSha256, toBytes_ofBytes,
    cutSize_eq_self.2 (by rw [hlen]; decide), ok_bind, hlen, if_pos (by decide),
    List.take_of_length_le (by omega), toVector_append]

theorem toTime_ofTime {P : Platform} (hP : P.BoostExact) (t : UInt32) :
    (Variant.ofTime P t).toTime P = .ok t := by
  have hyear := hP.iso_year t
  have hlen : 5 ≤ (P.toIsoExtendedString t).length := by
    rcases List.getElem?_eq_some_iff.1 hyear with ⟨h, _⟩
    exact h
  simp only [Variant.ofTime, Variant.toTime, Variant.asString, ok_bind]
  rw [if_pos ⟨hlen, hyear⟩, hP.iso_inverse]

end SimpleBlockchain
