import SimpleBlockchain.CheckChain

/-!
# When the chain check reaches a verdict

A blank signature makes a block invalid. A signature from which no key can be recovered
makes the recovery throw, and nothing between there and the caller of the check catches.
-/

namespace SimpleBlockchain

def resultMinusOne (P : Platform) (b : Block) : Variant :=
  .object [("result".toList, .int64 (-1)), ("block".toList, b.toVariant P)]

/-- A signature that is blank, or from which the platform recovers some key. -/
def Recoverable (P : Platform) (b : Block) : Prop :=
  b.sig = blankSignature ∨ ∃ key, PublicKey.recover P b.sig (b.digest P) = .ok key

/-- What the comparison of two rows needs: the signature of the second is looked at
only when that of the first is valid. -/
def Comparable (P : Platform) (checkBlk idx : Block) : Prop :=
  Recoverable P checkBlk ∧ (checkBlk.valid P = .ok true → Recoverable P idx)

/-- Every row that the loop compares with the row before it can be compared: the rows up
to there passed, and its number is not 0. -/
def AllComparable (P : Platform) (checkBlk : Block) (blocks : List Block) : Prop :=
  ∀ (i : ℕ) prev idx, (checkBlk :: blocks)[i]? = some prev → blocks[i]? = some idx →
    ((checkBlk :: blocks).take (i + 1)).IsChain (Passes P) → idx.blkNum ≠ 0 →
      Comparable P prev idx

variable {P : Platform}

theorem valid_ok_iff (hkey : ∃ pub, PublicKey.ofStr P producerKeyStr = .ok pub) {b : Block} :
    (∃ valid, b.valid P = .ok valid) ↔ Recoverable P b := by
  obtain ⟨pub, hpub⟩ := hkey
  unfold Block.valid Recoverable
  by_cases hblank : blankSignature = b.sig
  · simp [hblank]
  rw [if_neg hblank, hpub, or_iff_right (Ne.symm hblank)]
  cases PublicKey.recover P b.sig (b.digest P) with
  | error e => simp
  | ok key => simp

theorem checkBlock_ok_iff (hkey : ∃ pub, PublicKey.ofStr P producerKeyStr = .ok pub)
    {idx prior : Block} : (∃ passed, idx.checkBlock P prior = .ok passed) ↔
      Comparable P prior idx := by
  rw [Comparable, ← valid_ok_iff hkey, ← valid_ok_iff hkey]
  unfold Block.checkBlock
  cases prior.valid P with
  | error e => simp
  | ok priorValid =>
      cases priorValid with
      | false => simp
      | true => cases idx.valid P <;> simp

theorem allComparable_cons {checkBlk idx : Block} {blocks : List Block} :
    AllComparable P checkBlk (idx :: blocks) ↔
      (idx.blkNum ≠ 0 → Comparable P checkBlk idx) ∧
        (Passes P checkBlk idx → AllComparable P idx blocks) := by
  constructor
  · intro h
    refine ⟨h 0 checkBlk idx rfl rfl (List.isChain_singleton _), fun hpass => ?_⟩
    intro i prev next hprev hnext hchain
    apply h (i + 1) prev next hprev hnext
    rw [List.take_succ_cons, List.take_succ_cons, List.isChain_cons_cons]
    rw [List.take_succ_cons] at hchain
    exact ⟨hpass, hchain⟩
  · rintro ⟨hfirst, hrest⟩ i prev next hprev hnext hchain
    cases i with
    | zero =>
        cases hprev
        cases hnext
        exact hfirst
    | succ i =>
        rw [List.take_succ_cons, List.take_succ_cons, List.isChain_cons_cons] at hchain
        apply hrest hchain.1 i prev next hprev hnext
        rw [List.take_succ_cons]
        exact hchain.2

theorem checkLoop_ok_iff (hkey : ∃ pub, PublicKey.ofStr P producerKeyStr = .ok pub)
    {checkBlk : Block} {blocks : List Block} :
    (∃ r, checkLoop P checkBlk blocks = .ok r) ↔ AllComparable P checkBlk blocks := by
  induction blocks generalizing checkBlk with
  | nil => simp [checkLoop, AllComparable]
  | cons idx blocks ih =>
      rw [allComparable_cons, checkLoop, Passes]
      by_cases hz : idx.blkNum = 0
      · rw [if_pos hz, ih]
        simp [hz]
      · rw [if_neg hz, ← checkBlock_ok_iff hkey, ← ih]
        cases idx.checkBlock P checkBlk with
        | error e => simp [hz]
        | ok passed => cases passed <;> simp [hz]

/-- On rows that can be read, both checks reach a verdict exactly when every row that they
compare can be compared. -/
theorem checks_reach_verdict_iff (hkey : ∃ pub, PublicKey.ofStr P producerKeyStr = .ok pub)
    {env : Env} {db : Table} {blocks : List Block}
    (h : getAllBlocks P db (env.sqlOk 0) (fun i => env.fresh (i + 1)) = .ok blocks) :
    ((checkChain P env db = .ok resultZero ∨
        ∃ b, checkChain P env db = .ok (resultMinusOne P b)) ↔
      AllComparable P (Block.new (env.fresh 0)) blocks) ∧
    ((∃ passed, toolCheckChain P env db = .ok passed) ↔
      AllComparable P (Block.new (env.fresh 0)) blocks) := by
  rw [← checkLoop_ok_iff hkey, checkChain, toolCheckChain, h, ok_bind, ok_bind]
  cases checkLoop P (Block.new (env.fresh 0)) blocks with
  | error e => simp
  | ok r =>
      cases r with
      | none => simp [resultZero]
      | some b => simp [resultMinusOne]

theorem sample_checks_reach_verdict :
    ((checkChain Sample.platform Sample.env Sample.chainTable = .ok resultZero ∨
        ∃ b, checkChain Sample.platform Sample.env Sample.chainTable =
          .ok (resultMinusOne Sample.platform b)) ↔
      AllComparable Sample.platform (Block.new (Sample.env.fresh 0))
        [Sample.block, Sample.nextBlock]) ∧
    ((∃ passed, toolCheckChain Sample.platform Sample.env Sample.chainTable = .ok passed) ↔
      AllComparable Sample.platform (Block.new (Sample.env.fresh 0))
        [Sample.block, Sample.nextBlock]) :=
  checks_reach_verdict_iff ⟨_, Sample.producerKey⟩ (Sample.getAllBlocks _)

/-! ## A signature without a recovery id -/

namespace Sample

def oddSig : Signature := ⟨.k1, toVector 65 [1]⟩

def oddBlock : Block := { block with sig := oddSig }

def oddTable : Table where
  rows := [rowOf platform oddBlock, rowOf platform { block with blkNum := 1 }]
  primaryKey := by
    have hids : [rowOf platform oddBlock, rowOf platform { block with blkNum := 1 }].map Row.id =
        [0, 1] := rfl
    rw [hids]
    decide

theorem getAllBlocks_oddTable (fresh : ℕ → Fresh) :
    SimpleBlockchain.getAllBlocks platform oddTable true fresh =
      .ok [oddBlock, { block with blkNum := 1 }] := by
  have hids : (oddTable.rows.map Row.id).Pairwise (· < ·) := by
    have hrange : oddTable.rows.map Row.id = [0, 1] := rfl
    rw [hrange]
    decide
  have hjson : oddTable.rows.map Row.json =
      [oddBlock, { block with blkNum := 1 }].map (Block.toJson platform) := rfl
  have hcut : [oddBlock, { block with blkNum := 1 }].map Block.cut =
      [oddBlock, { block with blkNum := 1 }] := by
    have hcut : ∀ c : Block, c.trxs = block.trxs → c.cut = c := by
      intro c hc
      rw [Block.cut_eq_self, hc, block, List.forall_mem_singleton]
      exact small_trx
    exact congrArg₂ (fun b c => [b, c]) (hcut oddBlock rfl) (hcut { block with blkNum := 1 } rfl)
  rw [getAllBlocks_of_json boostExact fresh hids hjson, hcut]

end Sample

/-- Both rows are blocks, and both checks throw on them. -/
theorem sample_no_verdict :
    getAllBlocks Sample.platform Sample.oddTable (Sample.env.sqlOk 0)
        (fun i => Sample.env.fresh (i + 1)) =
      .ok [Sample.oddBlock, { Sample.block with blkNum := 1 }] ∧
    checkChain Sample.platform Sample.env Sample.oddTable =
      .error ⟨.exception, "unable to reconstruct public key from signature"⟩ ∧
    toolCheckChain Sample.platform Sample.env Sample.oddTable =
      .error ⟨.exception, "unable to reconstruct public key from signature"⟩ := by
  have hall := Sample.getAllBlocks_oddTable fun i => Sample.env.fresh (i + 1)
  have hok : Sample.env.sqlOk 0 = true := rfl
  have hloop : checkLoop Sample.platform (Block.new (Sample.env.fresh 0))
      [Sample.oddBlock, { Sample.block with blkNum := 1 }] =
        .error ⟨.exception, "unable to reconstruct public key from signature"⟩ := by
    decide +kernel
  rw [hok, checkChain, toolCheckChain, hok, hall, ok_bind, ok_bind, hloop]
  exact ⟨rfl, rfl, rfl⟩

end SimpleBlockchain
