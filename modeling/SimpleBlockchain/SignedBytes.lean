import SimpleBlockchain.Signers

/-!
# What a signature covers

A signature is over the digest of bytes that carry neither the names of the fields
nor the kind of the record. Two transactions are told apart by all that is hashed of
them, and a transaction from a block by where the upper half of a block number stands.
-/

namespace SimpleBlockchain

open PrefixCode

/-! ## Two transactions -/

/-- Time, attachment, data and key stand next to each other without a separator. -/
theorem isPrefixCode_hashed : IsPrefixCode (fun (p : ((UInt32 × Bytes) × Bytes) × PublicKey) x =>
    ∃ t : Transaction, t.hashed = .ok x ∧ p = (((t.timePoint, t.attach), t.data), t.pubKey)) := by
  have hcode := ((isPrefixCode_packUInt32.seq isPrefixCode_packBytes).seq
    isPrefixCode_packBytes).seq (isPrefixCode_packSuited 33)
  apply hcode.mono
  rintro p x ⟨t, hx, rfl⟩
  obtain ⟨attach, hattach, hx⟩ := bind_eq_ok.1 hx
  obtain ⟨data, hdata, hx⟩ := bind_eq_ok.1 hx
  cases hx
  exact ⟨_, _, ⟨_, _, ⟨_, _, rfl, hattach, rfl⟩, hdata, rfl⟩, rfl, rfl⟩

variable {P : Platform}

/-- Transactions whose digests are of the same bytes agree in every field but the signature. -/
theorem hashed_unambiguous {t t' : Transaction} {d d' : Sha256} (hd : t.digest P = .ok d)
    (hd' : t'.digest P = .ok d') (h : t.hashed = t'.hashed) :
    t.timePoint = t'.timePoint ∧ t.attach = t'.attach ∧ t.data = t'.data ∧
      t.pubKey = t'.pubKey := by
  obtain ⟨x, hx, _⟩ := Transaction.digest_eq_ok.1 hd
  obtain ⟨y, hy, _⟩ := Transaction.digest_eq_ok.1 hd'
  have hxy : x = y := by
    rw [hx, hy, Except.ok.injEq] at h
    exact h
  have heq := isPrefixCode_hashed.injective ⟨t, hx, rfl⟩ ⟨t', hxy ▸ hy, rfl⟩
  simp only [Prod.mk.injEq] at heq
  exact ⟨heq.1.1.1, heq.1.1.2, heq.1.2, heq.2⟩

/-- The signature is not among what is hashed. -/
theorem sample_hashed_unambiguous :
    Sample.trx.timePoint = { Sample.trx with signature := blankSignature }.timePoint ∧
      Sample.trx.attach = { Sample.trx with signature := blankSignature }.attach ∧
      Sample.trx.data = { Sample.trx with signature := blankSignature }.data ∧
      Sample.trx.pubKey = { Sample.trx with signature := blankSignature }.pubKey :=
  hashed_unambiguous Sample.digest_trx Sample.digest_trx rfl

/-! ## A block and a transaction -/

theorem packLE_add (k j : ℕ) {n : ℕ} (h : n < 256 ^ k) :
    packLE (k + j) n = packLE k n ++ List.replicate j 0 := by
  induction k generalizing n with
  | zero =>
      obtain rfl : n = 0 := by simpa using h
      rw [Nat.zero_add, packLE, List.nil_append]
      induction j with
      | zero => rfl
      | succ j ih => rw [packLE, List.replicate_succ, Nat.zero_div, ih]; rfl
  | succ k ih =>
      rw [pow_succ] at h
      rw [Nat.succ_add, packLE, packLE, ih (Nat.div_lt_of_lt_mul (by omega)), List.cons_append]

theorem packUnsignedInt_zero {n : ℕ} {s t : Bytes} (h : packUnsignedInt n ++ s = 0 :: t) :
    n = 0 ∧ s = t := by
  rw [packUnsignedInt, varint] at h
  split at h
  next hlt =>
    rw [List.map_singleton, List.singleton_append, List.cons.injEq] at h
    have hn := congrArg UInt8.toNat h.1
    rw [UInt8.toNat_ofNat_of_lt' (by rw [UInt8.size]; omega)] at hn
    exact ⟨hn, h.2⟩
  · rw [List.map_cons, List.cons_append, List.cons.injEq] at h
    have hn := congrArg UInt8.toNat h.1
    rw [UInt8.toNat_ofNat_of_lt' (by rw [UInt8.size]; omega), UInt8.toNat_zero] at hn
    omega

theorem packBytes_zero {value x s t : Bytes} (hx : packBytes value = .ok x)
    (h : x ++ s = 0 :: t) : value = [] ∧ s = t := by
  obtain ⟨_, _, hx⟩ := bind_eq_ok.1 hx
  cases hx
  rw [List.append_assoc] at h
  obtain ⟨hlen, hst⟩ := packUnsignedInt_zero h
  obtain rfl := List.length_eq_zero_iff.1 hlen
  exact ⟨rfl, hst⟩

/-- The upper half of the number makes both vectors of a transaction empty. -/
theorem header_ne_hashed {b : Block} {t : Transaction} (hnum : b.blkNum.toNat < 2 ^ 32)
    (hdata : t.data ≠ []) : t.hashed ≠ .ok b.header := by
  intro hx
  obtain ⟨attach, hattach, hx⟩ := bind_eq_ok.1 hx
  obtain ⟨data, hpack, hx⟩ := bind_eq_ok.1 hx
  have hsplit : packUInt64 b.blkNum = packLE 4 b.blkNum.toNat ++ [0, 0, 0, 0] :=
    packLE_add 4 4 hnum
  rw [Except.ok.injEq, Block.header, hsplit] at hx
  simp only [List.append_assoc] at hx
  obtain ⟨_, hrest⟩ := List.append_inj hx (by rw [packUInt32, length_packLE, length_packLE])
  obtain ⟨_, hrest⟩ := packBytes_zero hattach hrest
  obtain ⟨hnil, _⟩ := packBytes_zero hpack hrest
  exact hdata hnil

/-- No signature of a block with a number of 32 bits is one of a transaction, nor the other
way round, unless their bytes collide. -/
theorem signatures_not_exchangeable {b : Block} {t : Transaction} {d : Sha256}
    (hnum : b.blkNum.toNat < 2 ^ 32) (hdata : t.data ≠ []) (hd : t.digest P = .ok d) :
    t.hashed ≠ .ok b.header ∧
      ((∀ x, t.hashed = .ok x → P.sha256 b.header = P.sha256 x → b.header = x) →
        b.digest P ≠ d) := by
  refine ⟨header_ne_hashed hnum hdata, fun hcoll heq => ?_⟩
  obtain ⟨x, hx, hxd⟩ := Transaction.digest_eq_ok.1 hd
  have hsame := hcoll x hx (heq.trans hxd.symm)
  exact header_ne_hashed hnum hdata (hsame ▸ hx)

theorem sample_signatures_not_exchangeable :
    Sample.trx.hashed ≠ .ok Sample.block.header ∧
      ((∀ x, Sample.trx.hashed = .ok x →
          Sample.platform.sha256 Sample.block.header = Sample.platform.sha256 x →
          Sample.block.header = x) →
        Sample.block.digest Sample.platform ≠ Sample.trxDigest) :=
  signatures_not_exchangeable (by decide) (by decide) Sample.digest_trx

end SimpleBlockchain
