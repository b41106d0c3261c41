import SimpleBlockchain.Block

/-!
# The pool and the tip

`buildBlock` empties the pool, but only as its last step: when it throws, the
buffer is as before.
-/

namespace SimpleBlockchain

/-- The key that the constructor of `Buffer` parses. -/
@[irreducible] def privateKeyStr : Str :=
  "5HwLWM8J46qbpZDMYsSGDxWN9EkusGwGP1EH5eFJKYvasuW83yX".toList

/-- What the node relies on: the key recovered from a signature that the producer
made is the producer's key, for every digest. -/
def Platform.ProducerSigns (P : Platform) : Prop :=
  ∀ key, PrivateKey.ofStr P privateKeyStr = .ok key → ∀ d, ∃ sig pub,
    key.sign P d = .ok sig ∧ PublicKey.recover P sig d = .ok pub ∧
      PublicKey.ofStr P producerKeyStr = .ok pub

structure Buffer where
  trxPool : List Transaction
  producerKey : PublicKey
  privateKey : PrivateKey
  lastBlock : Block
deriving DecidableEq

namespace Buffer

def new (P : Platform) (f : Fresh) : Except Exn Buffer := do
  let producerKey ← PublicKey.ofStr P producerKeyStr
  let privateKey ← PrivateKey.ofStr P privateKeyStr
  .ok ⟨[], producerKey, privateKey, Block.new f⟩

def cacheLastBlk (buf : Buffer) (blk : Block) : Buffer := { buf with lastBlock := blk }

def getCatchTrxsCount (buf : Buffer) : UInt64 := UInt64.ofNat buf.trxPool.length

def cacheTrx (buf : Buffer) (trx : Transaction) : Buffer :=
  { buf with trxPool := buf.trxPool ++ [trx] }

/-- The number and the predecessor that a new block starts with. -/
def follow (P : Platform) (lastBlock : Block) (valid : Bool) (blk : Block) : Block :=
  if valid then
    { blk with priorHash := lastBlock.digest P, blkNum := lastBlock.blkNum + 1 }
  else { blk with priorHash := zeroSha256, blkNum := 0 }

def buildBlock (P : Platform) (f : Fresh) (buf : Buffer) : Except Exn (Buffer × Block) := do
  let valid ← buf.lastBlock.valid P
  let blk ← (follow P buf.lastBlock valid (Block.new f)).pushTrxs P buf.trxPool
  let sig ← buf.privateKey.sign P (blk.digest P)
  .ok ({ buf with trxPool := [] }, { blk with sig := sig })

end Buffer

/-! ## Valid blocks -/

theorem ne_blank_of_recover {P : Platform} {sig : Signature} {d : Sha256} {pub : PublicKey}
    (h : PublicKey.recover P sig d = .ok pub) : blankSignature ≠ sig := by
  rintro rfl
  have hblank : blankSignature.data[0].toNat < 27 := by decide
  rw [PublicKey.recover, if_pos (Or.inl hblank)] at h
  cases h

theorem valid_of_recover {P : Platform} {b : Block} {pub : PublicKey}
    (hrec : PublicKey.recover P b.sig (b.digest P) = .ok pub)
    (hpub : PublicKey.ofStr P producerKeyStr = .ok pub) : b.valid P = .ok true := by
  rw [Block.valid, if_neg (ne_blank_of_recover hrec), hrec, ok_bind, hpub, ok_bind]
  simp

theorem recover_of_valid {P : Platform} {b : Block} (h : b.valid P = .ok true) :
    ∃ pub, PublicKey.recover P b.sig (b.digest P) = .ok pub ∧
      PublicKey.ofStr P producerKeyStr = .ok pub := by
  unfold Block.valid at h
  split at h
  · cases h
  obtain ⟨recoverKey, hrec, h⟩ := bind_eq_ok.1 h
  obtain ⟨pub, hpub, h⟩ := bind_eq_ok.1 h
  rw [Except.ok.injEq, decide_eq_true_iff] at h
  subst h
  exact ⟨recoverKey, hrec, hpub⟩

theorem valid_of_signed {P : Platform} (hsign : P.ProducerSigns) {b : Block}
    (h : ∃ key, PrivateKey.ofStr P privateKeyStr = .ok key ∧ key.sign P (b.digest P) = .ok b.sig) :
    b.valid P = .ok true := by
  obtain ⟨key, hkey, hb⟩ := h
  obtain ⟨sig, pub, hsig, hrec, hpub⟩ := hsign key hkey (b.digest P)
  rw [hb, Except.ok.injEq] at hsig
  subst hsig
  exact valid_of_recover hrec hpub

/-! ## What a built block is -/

theorem Buffer.new_eq_ok {P : Platform} {f : Fresh} {buf : Buffer} (h : Buffer.new P f = .ok buf) :
    buf.trxPool = [] ∧ PrivateKey.ofStr P privateKeyStr = .ok buf.privateKey ∧
      buf.lastBlock = Block.new f := by
  obtain ⟨producerKey, _, h⟩ := bind_eq_ok.1 h
  obtain ⟨privateKey, hkey, h⟩ := bind_eq_ok.1 h
  cases h
  exact ⟨rfl, hkey, rfl⟩

structure Built (P : Platform) (f : Fresh) (buf : Buffer) (valid : Bool) (b : Block) : Prop where
  valid_eq : buf.lastBlock.valid P = .ok valid
  blkNum_eq : b.blkNum = if valid then buf.lastBlock.blkNum + 1 else 0
  priorHash_eq : b.priorHash = if valid then buf.lastBlock.digest P else zeroSha256
  timePoint_eq : b.timePoint = f.now
  trxs_eq : b.trxs = buf.trxPool
  merkleRoot_eq : ∃ packed, packVector Transaction.pack b.trxs = .ok packed ∧
    b.merkleRoot = P.sha256 packed
  sig_eq : buf.privateKey.sign P (b.digest P) = .ok b.sig

theorem buildBlock_cases {P : Platform} {f : Fresh} {buf buf' : Buffer} {b : Block}
    (h : buf.buildBlock P f = .ok (buf', b)) :
    buf' = { buf with trxPool := [] } ∧ ∃ valid, Built P f buf valid b := by
  obtain ⟨valid, hvalid, h⟩ := bind_eq_ok.1 h
  obtain ⟨blk, hblk, h⟩ := bind_eq_ok.1 h
  obtain ⟨sig, hsig, h⟩ := bind_eq_ok.1 h
  obtain ⟨packed, hpacked, hblk⟩ := bind_eq_ok.1 hblk
  cases hblk
  cases h
  refine ⟨rfl, valid, hvalid, ?_, ?_, ?_, rfl, ⟨packed, hpacked, rfl⟩, hsig⟩
  all_goals cases valid <;> rfl

theorem Built.buildBlock {P : Platform} {f : Fresh} {buf : Buffer} {valid : Bool} {b : Block}
    (h : Built P f buf valid b) : buf.buildBlock P f = .ok ({ buf with trxPool := [] }, b) := by
  obtain ⟨packed, hpacked, hroot⟩ := h.merkleRoot_eq
  have hblk : (Buffer.follow P buf.lastBlock valid (Block.new f)).pushTrxs P buf.trxPool =
      .ok { b with sig := blankSignature } := by
    rw [Block.pushTrxs, ← h.trxs_eq, hpacked, ok_bind, h.blkNum_eq, h.priorHash_eq,
      h.timePoint_eq, hroot]
    cases valid <;> rfl
  have hdigest : { b with sig := blankSignature }.digest P = b.digest P := rfl
  rw [Buffer.buildBlock, h.valid_eq, ok_bind, hblk, ok_bind, hdigest, h.sig_eq, ok_bind]

end SimpleBlockchain
