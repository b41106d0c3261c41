import SimpleBlockchain.CryptoKeys
import SimpleBlockchain.PrefixCode

/-!
# The binary form that is hashed

`fc::raw::pack` writes no field names and no separators. Numbers and hashes have
a fixed size, vectors are counted, and a `static_variant` starts with its tag,
so every encoding below is a prefix code.
-/

namespace SimpleBlockchain

open PrefixCode

/-- The `k` low bytes of a number, least significant first. -/
def packLE : ℕ → ℕ → Bytes
  | 0, _ => []
  | k + 1, n => UInt8.ofNat n :: packLE k (n / 256)

def packUInt64 (n : UInt64) : Bytes := packLE 8 n.toNat

def packUInt32 (n : UInt32) : Bytes := packLE 4 n.toNat

/-- `unsigned_int`, seven bits to a byte. -/
def packUnsignedInt (n : ℕ) : Bytes := (varint 5 n).map UInt8.ofNat

def maxSizeOfByteArrays : ℕ := 20 * 1024 * 1024
def maxNumArrayElements : ℕ := 1024 * 1024

def packBytes (value : Bytes) : Except Exn Bytes := do
  fcAssert (value.length ≤ maxSizeOfByteArrays) "value.size() <= MAX_SIZE_OF_BYTE_ARRAYS: "
  .ok (packUnsignedInt value.length ++ value)

/-- The elements of a vector, one after the other. -/
def packEach {α : Type} (pack : α → Except Exn Bytes) : List α → Except Exn Bytes
  | [] => .ok []
  | a :: as => do
      let x ← pack a
      let y ← packEach pack as
      .ok (x ++ y)

def packVector {α : Type} (pack : α → Except Exn Bytes) (value : List α) : Except Exn Bytes := do
  fcAssert (value.length ≤ maxNumArrayElements) "value.size() <= MAX_NUM_ARRAY_ELEMENTS: "
  let elems ← packEach pack value
  .ok (packUnsignedInt value.length ++ elems)

def Suite.tag : Suite → ℕ
  | .k1 => 0
  | .r1 => 1

def packSuited {n : ℕ} (s : Suited n) : Bytes := packUnsignedInt s.which.tag ++ s.data.toList

/-! ## No encoding begins another -/

theorem length_packLE (k n : ℕ) : (packLE k n).length = k := by
  induction k generalizing n with
  | zero => rfl
  | succ k ih => rw [packLE, List.length_cons, ih]

theorem packLE_inj {k a b : ℕ} (ha : a < 256 ^ k) (hb : b < 256 ^ k)
    (h : packLE k a = packLE k b) : a = b := by
  induction k generalizing a b with
  | zero =>
      rw [pow_zero, Nat.lt_one_iff] at ha hb
      rw [ha, hb]
  | succ k ih =>
      rw [packLE, packLE, List.cons.injEq] at h
      have hlow : a % 256 = b % 256 := by
        have := congrArg UInt8.toNat h.1
        simpa using this
      have hhigh : a / 256 = b / 256 := by
        rw [pow_succ] at ha hb
        exact ih (Nat.div_lt_of_lt_mul (by omega)) (Nat.div_lt_of_lt_mul (by omega)) h.2
      omega

theorem isPrefixCode_packUInt64 : IsPrefixCode (fun n x => x = packUInt64 n) :=
  isPrefixCode_of_length 8 (fun _ => length_packLE _ _) fun a b h =>
    UInt64.toNat_inj.1 (packLE_inj a.toNat_lt b.toNat_lt h)

theorem isPrefixCode_packUInt32 : IsPrefixCode (fun n x => x = packUInt32 n) :=
  isPrefixCode_of_length 4 (fun _ => length_packLE _ _) fun a b h =>
    UInt32.toNat_inj.1 (packLE_inj a.toNat_lt b.toNat_lt h)

theorem isPrefixCode_vector (n : ℕ) :
    IsPrefixCode (fun (v : Vector UInt8 n) x => x = v.toList) :=
  isPrefixCode_of_length n (fun v => by simp) fun a b h => Vector.toList_inj.1 h

theorem isPrefixCode_packUnsignedInt :
    IsPrefixCode (fun n x => n < 2 ^ 35 ∧ x = packUnsignedInt n) := by
  have hcode := (isPrefixCode_varint 5).map UInt8.ofNat UInt8.toNat fun n x hx d hd => by
    rw [hx.2] at hd
    exact UInt8.toNat_ofNat_of_lt' (varint_lt 5 n d hd)
  exact hcode.mono fun n x ⟨hn, hx⟩ => ⟨_, ⟨hn, rfl⟩, hx⟩

theorem isPrefixCode_packBytes : IsPrefixCode (fun d x => packBytes d = .ok x) := by
  have hcode := isPrefixCode_counted isPrefixCode_singleton isPrefixCode_packUnsignedInt
  apply hcode.mono
  intro d x hx
  obtain ⟨_, hlen, hx⟩ := bind_eq_ok.1 hx
  rw [fcAssert_eq_ok] at hlen
  rw [Except.ok.injEq] at hx
  exact ⟨_, d, ⟨lt_of_le_of_lt hlen (by decide), rfl⟩, each_singleton d, hx.symm⟩

theorem each_packEach {α : Type} {pack : α → Except Exn Bytes} {as : List α} {x : Bytes}
    (h : packEach pack as = .ok x) : Each (fun a x => pack a = .ok x) as x := by
  induction as generalizing x with
  | nil =>
      cases h
      exact .nil
  | cons a as ih =>
      obtain ⟨y, hy, h⟩ := bind_eq_ok.1 h
      obtain ⟨z, hz, h⟩ := bind_eq_ok.1 h
      cases h
      exact .cons hy (ih hz)

theorem isPrefixCode_packVector {α : Type} {pack : α → Except Exn Bytes}
    (hpack : IsPrefixCode (fun a x => pack a = .ok x)) :
    IsPrefixCode (fun as x => packVector pack as = .ok x) := by
  have hcode := isPrefixCode_counted hpack isPrefixCode_packUnsignedInt
  apply hcode.mono
  intro as x hx
  obtain ⟨_, hlen, hx⟩ := bind_eq_ok.1 hx
  obtain ⟨elems, helems, hx⟩ := bind_eq_ok.1 hx
  rw [fcAssert_eq_ok] at hlen
  rw [Except.ok.injEq] at hx
  exact ⟨_, elems, ⟨lt_of_le_of_lt hlen (by decide), rfl⟩, each_packEach helems, hx.symm⟩

theorem isPrefixCode_packSuited (n : ℕ) :
    IsPrefixCode (fun (s : Suited n) x => x = packSuited s) := by
  have hcode := isPrefixCode_packUnsignedInt.seq (isPrefixCode_vector n)
  have hinj : Function.Injective (fun s : Suited n => (s.which.tag, s.data)) := by
    rintro ⟨w, d⟩ ⟨w', d'⟩ h
    simp only [Prod.mk.injEq] at h
    obtain ⟨hw, rfl⟩ := h
    cases w <;> cases w' <;> first | rfl | cases hw
  apply (hcode.comap hinj).mono
  intro s x hx
  have htag : s.which.tag < 2 ^ 35 := by cases s.which <;> decide
  exact ⟨_, _, ⟨htag, rfl⟩, rfl, hx⟩

end SimpleBlockchain
