import SimpleBlockchain.ChainInvariant

/-!
# What the table keeps of a block

Six codecs and the JSON writer and reader between them are inverse, except that
the writer of a byte vector takes its size for a `uint32_t`.
-/

namespace SimpleBlockchain

/-- A block comes back from its stored text in every field, and with them come its
digest and the verdict on its signature. -/
def Persists (P : Platform) (b : Block) : Prop :=
  ∀ f, ∃ b', Block.ofJson P f (b.toJson P) = .ok b' ∧ b' = b ∧
    b'.digest P = b.digest P ∧ b'.valid P = b.valid P

/-- Cutting a byte vector shows neither in the digest nor in the verdict. -/
theorem Block.valid_cut (P : Platform) (b : Block) :
    b.cut.digest P = b.digest P ∧ b.cut.valid P = b.valid P :=
  ⟨rfl, rfl⟩

theorem persists_iff {P : Platform} (hP : P.BoostExact) (b : Block) :
    Persists P b ↔ ∀ t ∈ b.trxs, t.data.length < 2 ^ 32 ∧ t.attach.length < 2 ^ 32 := by
  have hsmall : b.cut = b ↔ ∀ t ∈ b.trxs, t.data.length < 2 ^ 32 ∧ t.attach.length < 2 ^ 32 :=
    Block.cut_eq_self
  rw [← hsmall]
  constructor
  · intro h
    obtain ⟨b', hb', rfl, _⟩ := h ⟨0, 0⟩
    rw [Block.ofJson_toJson hP, Except.ok.injEq] at hb'
    exact hb'
  · intro h f
    exact ⟨b.cut, Block.ofJson_toJson hP f b, h, Block.valid_cut P b⟩

theorem sample_persists_iff : Persists Sample.platform Sample.block ↔
    ∀ t ∈ Sample.block.trxs, t.data.length < 2 ^ 32 ∧ t.attach.length < 2 ^ 32 :=
  persists_iff Sample.boostExact Sample.block

namespace Sample

/-- A transaction with `2 ^ 32` bytes of data. -/
def oversized : Transaction := { trx with data := List.replicate (2 ^ 32) 0 }

theorem cut_oversized : oversized.cut = { trx with data := [] } := by
  have hdata : cutSize (List.replicate (2 ^ 32) 0) = [] := by
    rw [cutSize, List.length_replicate, Nat.mod_self, List.take_zero]
  have hattach : cutSize trx.attach = trx.attach := cutSize_eq_self.2 (by decide)
  rw [Transaction.cut, oversized, hdata, hattach]

end Sample

/-- Nothing is left of the data of an oversized transaction. -/
theorem sample_oversized_lost (f : Fresh) :
    Block.ofJson Sample.platform f
        ({ Sample.block with trxs := [Sample.oversized] }.toJson Sample.platform) =
      .ok { Sample.block with trxs := [{ Sample.trx with data := [] }] } := by
  rw [Block.ofJson_toJson Sample.boostExact, Block.cut, List.map_singleton, Sample.cut_oversized]

theorem sample_not_persists :
    ¬ Persists Sample.platform { Sample.block with trxs := [Sample.oversized] } := by
  intro h
  obtain ⟨b', hb', rfl, _⟩ := h ⟨0, 0⟩
  rw [sample_oversized_lost, Except.ok.injEq] at hb'
  have hdata : [] = List.replicate (2 ^ 32) (0 : UInt8) := by
    have htrxs := congrArg Block.trxs hb'
    exact congrArg Transaction.data (List.cons.inj htrxs).1
  have hlen := congrArg List.length hdata
  rw [List.length_replicate, List.length_nil] at hlen
  exact absurd hlen (by decide)

end SimpleBlockchain
