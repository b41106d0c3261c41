import SimpleBlockchain.Transaction

/-!
# Blocks

The signed digest covers four fields and the transactions only through
`merkleRoot`, which `pushTrxs` sets and nothing compares again.
-/

namespace SimpleBlockchain

structure Block where
  blkNum : UInt64
  priorHash : Sha256
  timePoint : UInt32
  merkleRoot : Sha256
  sig : Signature
  trxs : List Transaction
deriving DecidableEq

/-- What a default-constructed block holds: the time of its construction and
a number that the constructor does not set. -/
structure Fresh where
  now : UInt32
  blkNum : UInt64

def zeroSha256 : Sha256 := Vector.replicate 32 0

/-- The key that `Block::valid` and the constructor of `Buffer` parse. -/
@[irreducible] def producerKeyStr : Str :=
  "EOS6hNSYPHaJm1TBmrLHLytxjwEcX6gbVNRZe4o7DxcVL7ojH9PCZ".toList

namespace Block

/-- `Block::Block()`. -/
def new (f : Fresh) : Block := ⟨f.blkNum, zeroSha256, f.now, zeroSha256, blankSignature, []⟩

def header (b : Block) : Bytes :=
  packUInt64 b.blkNum ++ b.priorHash.toList ++ packUInt32 b.timePoint ++ b.merkleRoot.toList

def digest (P : Platform) (b : Block) : Sha256 := P.sha256 b.header

def valid (P : Platform) (b : Block) : Except Exn Bool :=
  if blankSignature = b.sig then .ok false
  else do
    let recoverKey ← PublicKey.recover P b.sig (b.digest P)
    let pubKey ← PublicKey.ofStr P producerKeyStr
    .ok (recoverKey = pubKey)

def pushTrxs (P : Platform) (b : Block) (trxs : List Transaction) : Except Exn Block := do
  let packed ← packVector Transaction.pack trxs
  .ok { b with trxs := trxs, merkleRoot := P.sha256 packed }

def checkBlock (P : Platform) (b priorBlk : Block) : Except Exn Bool := do
  let priorValid ← priorBlk.valid P
  if priorValid then
    let thisValid ← b.valid P
    .ok (thisValid && priorBlk.digest P = b.priorHash)
  else .ok false

def toVariant (P : Platform) (b : Block) : Variant :=
  .object
    [("time_point".toList, .ofTime P b.timePoint),
     ("prior_hash".toList, .ofSha256 b.priorHash),
     ("blk_num".toList, .uint64 b.blkNum),
     ("trxs".toList, .array (b.trxs.map (Transaction.toVariant P))),
     ("merkle_root".toList, .ofSha256 b.merkleRoot),
     ("sig".toList, .string (b.sig.toStr P))]

def fromVariant (P : Platform) (b : Block) (v : Variant) : Except Exn Block := do
  let o ← v.getObject
  let timePoint ← visitMember o "time_point" b.timePoint (·.toTime P)
  let priorHash ← visitMember o "prior_hash" b.priorHash (·.toSha256 P b.priorHash)
  let blkNum ← visitMember o "blk_num" b.blkNum (·.asUInt64 P)
  let trxs ← visitMember o "trxs" b.trxs (Transaction.vectorFromVariant P)
  let merkleRoot ← visitMember o "merkle_root" b.merkleRoot (·.toSha256 P b.merkleRoot)
  let sig ← visitMember o "sig" b.sig (Signature.fromVariant P)
  .ok ⟨blkNum, priorHash, timePoint, merkleRoot, sig, trxs⟩

def toJson (P : Platform) (b : Block) : Str := toStream P (b.toVariant P)

/-- The body of `get_block_callback`: a C string is parsed into a fresh block. -/
def ofJson (P : Platform) (f : Fresh) (json : Str) : Except Exn Block := do
  let v ← fromString P (cStr json)
  fromVariant P (new f) v

/-! ## Equality of headers -/

theorem header_inj {b b' : Block} (h : b.header = b'.header) :
    b.blkNum = b'.blkNum ∧ b.priorHash = b'.priorHash ∧ b.timePoint = b'.timePoint ∧
      b.merkleRoot = b'.merkleRoot := by
  have hcode := ((isPrefixCode_packUInt64.seq (isPrefixCode_vector 32)).seq
    isPrefixCode_packUInt32).seq (isPrefixCode_vector 32)
  have hseq : ∀ b : Block, PrefixCode.Seq (PrefixCode.Seq (PrefixCode.Seq
      (fun n x => x = packUInt64 n) (fun (v : Sha256) x => x = v.toList))
      (fun n x => x = packUInt32 n)) (fun (v : Sha256) x => x = v.toList)
      (((b.blkNum, b.priorHash), b.timePoint), b.merkleRoot) b.header :=
    fun b => ⟨_, _, ⟨_, _, ⟨_, _, rfl, rfl, rfl⟩, rfl, rfl⟩, rfl, rfl⟩
  have heq := hcode.injective (hseq b) (h ▸ hseq b')
  simp only [Prod.mk.injEq] at heq
  exact ⟨heq.1.1.1, heq.1.1.2, heq.1.2, heq.2⟩

/-! ## A block as JSON -/

section Json

variable {P : Platform}

/-- What is read back of a block that was written as JSON. -/
def cut (b : Block) : Block := { b with trxs := b.trxs.map Transaction.cut }

theorem cut_eq_self {b : Block} : b.cut = b ↔ ∀ t ∈ b.trxs, t.Small := by
  have hmap : b.cut = b ↔ b.trxs.map Transaction.cut = b.trxs := by
    obtain ⟨_, _, _, _, _, trxs⟩ := b
    simp [cut]
  rw [hmap]
  induction b.trxs with
  | nil => simp
  | cons t ts ih =>
      rw [List.map_cons, List.cons.injEq, List.forall_mem_cons, Transaction.cut_eq_self]
      exact and_congr_right fun _ => ih

theorem storable_toVariant (hP : P.BoostExact) (b : Block) : Storable 3 (b.toVariant P) := by
  refine .object 2 _ ?_ ?_
  · simp only [List.forall_mem_cons]
    exact ⟨plain_name (by decide), plain_name (by decide), plain_name (by decide),
      plain_name (by decide), plain_name (by decide), plain_name (by decide), by simp⟩
  · simp only [List.forall_mem_cons]
    refine ⟨storable_ofTime hP 2 _, storable_ofBytes 2 _, .uint64 2 _, .array 1 _ ?_,
      storable_ofBytes 2 _, ?_, by simp⟩
    · intro v hv
      obtain ⟨t, _, rfl⟩ := List.mem_map.1 hv
      exact Transaction.storable_toVariant hP t
    · exact .string 2 _ fun c hc => .of_isAlphanum_or (Signature.toStr_plain P hc)

theorem asUInt64_reread (hP : P.BoostExact) (n : UInt64) :
    (reread (.uint64 n)).asUInt64 P = .ok n := by
  rw [reread]
  split
  · rw [Variant.asUInt64, toUInt64, hP.cast_inverse]
  · rfl

theorem fromVariant_reread (hP : P.BoostExact) (b₀ b : Block) :
    fromVariant P b₀ (reread (b.toVariant P)) = .ok b.cut := by
  have hfields : fromVariant P b₀ (reread (b.toVariant P)) = (do
      let timePoint ← (Variant.ofTime P b.timePoint).toTime P
      let priorHash ← (Variant.ofSha256 b.priorHash).toSha256 P b₀.priorHash
      let blkNum ← (reread (.uint64 b.blkNum)).asUInt64 P
      let trxs ← Transaction.vectorFromVariant P
        (reread (.array (b.trxs.map (Transaction.toVariant P))))
      let merkleRoot ← (Variant.ofSha256 b.merkleRoot).toSha256 P b₀.merkleRoot
      let sig ← Signature.fromVariant P (.string (b.sig.toStr P))
      .ok ⟨blkNum, priorHash, timePoint, merkleRoot, sig, trxs⟩) := by
    simp only [toVariant, reread, rereadEntries, Variant.ofTime, Variant.ofSha256, reread_ofBytes]
    rfl
  rw [hfields, toTime_ofTime hP, toSha256_ofSha256, asUInt64_reread hP,
    Transaction.vectorFromVariant_toVariant hP, toSha256_ofSha256, Signature.fromVariant_toStr]
  rfl

/-- A block comes back from its JSON text up to the cutting of oversized byte
vectors, whatever the block it is read into. -/
theorem ofJson_toJson (hP : P.BoostExact) (f : Fresh) (b : Block) :
    ofJson P f (b.toJson P) = .ok b.cut := by
  have hstore := storable_toVariant hP b
  have hcstr : cStr (b.toJson P) = b.toJson P := by
    refine (takeWhile_of_forall fun c hc => decide_eq_true ?_).1
    rintro rfl
    exact absurd (printable_toStream hP hstore _ hc) (by decide)
  rw [ofJson, hcstr, toJson, fromString_toStream hP hstore (by decide), ok_bind,
    fromVariant_reread hP]

end Json

end Block

end SimpleBlockchain
