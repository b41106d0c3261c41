import SimpleBlockchain.Lifetimes

/-!
# The chain invariant

What the table and the tip of every reachable system look like, in terms of the
blocks that the node itself reads back from the rows.
-/

namespace SimpleBlockchain

variable {P : Platform}

/-- The blocks `bs` are what the rows of a system decode to, whatever the fresh
block they are read into, and they form a signed chain with the cached tip at its end. -/
structure ChainInvariant (P : Platform) (s : System) (bs : List Block) : Prop where
  ids : s.db.rows.map Row.id = (List.range bs.length).map Nat.cast
  decoded : ∀ (i : ℕ) row, s.db.rows[i]? = some row →
    ∃ b, bs[i]? = some b ∧ ∀ f, Block.ofJson P f row.json = .ok b
  hash : ∀ (i : ℕ) row b, s.db.rows[i]? = some row → bs[i]? = some b →
    row.hash = toHex (b.digest P).toList 32
  blkNum : ∀ (i : ℕ) b, bs[i]? = some b → b.blkNum.toNat = i
  valid : ∀ b ∈ bs, b.valid P = .ok true
  prior_zero : ∀ b, bs[0]? = some b → b.priorHash = zeroSha256
  prior_succ : ∀ (i : ℕ) b c, bs[i]? = some b → bs[i + 1]? = some c → c.priorHash = b.digest P
  tip : ∀ node, s = .up node → ∀ b, bs.getLast? = some b → node.buf.lastBlock = b
  noTip : ∀ node, s = .up node → bs = [] → ∃ f, node.buf.lastBlock = Block.new f

theorem Represents.chainInvariant (hP : P.BoostExact) (hsign : P.ProducerSigns) {s : System}
    {bs : List Block} (h : Represents P bs s) : ChainInvariant P s bs := by
  have hhonest := h.honest
  have hrow : ∀ (i : ℕ) row, s.db.rows[i]? = some row → ∃ b, bs[i]? = some b ∧ rowOf P b = row := by
    intro i row hi
    rw [h.rows, List.getElem?_map, Option.map_eq_some_iff] at hi
    exact hi
  refine ⟨hhonest.ids h.rows, ?_, ?_, fun i b => hhonest.blkNum_eq, ?_,
    hhonest.linked.prior_zero, hhonest.linked.prior_succ, ?_, ?_⟩
  · intro i row hi
    obtain ⟨b, hb, rfl⟩ := hrow i row hi
    exact ⟨b, hb, hhonest.ofJson hP (List.mem_of_getElem? hb)⟩
  · intro i row b hi hb
    obtain ⟨c, hc, rfl⟩ := hrow i row hi
    rw [hb, Option.some.injEq] at hc
    rw [hc, rowOf]
  · exact fun b hb => valid_of_signed hsign (hhonest.signed b hb)
  · rintro node rfl
    cases h with
    | up _ _ hf => exact hf.tip
  · rintro node rfl
    cases h with
    | up _ _ hf => exact hf.noTip

/-- Every run of lifetimes from an empty table keeps the invariant. -/
theorem reachable_chainInvariant (hP : P.BoostExact) (hsign : P.ProducerSigns) {s : System}
    (h : Reachable P s) : ∃ bs, ChainInvariant P s bs := by
  obtain ⟨bs, hbs⟩ := h.represents hP
  exact ⟨bs, hbs.chainInvariant hP hsign⟩

/-! ## A sample platform

On the inputs of the runs below, the functions of this platform have the values of the real
ones. Elsewhere they are only lawful. -/

namespace Sample

/-- The `k` bytes of a number, most significant first. -/
def bytes (k n : ℕ) : Bytes := (packLE k n).reverse

theorem length_bytes (k n : ℕ) : (bytes k n).length = k := by
  rw [bytes, List.length_reverse, length_packLE]

def vector (k n : ℕ) : Vector UInt8 k := ⟨⟨bytes k n⟩, length_bytes k n⟩

def lookup {α β : Type} [DecidableEq α] (default : β) (a : α) : List (α × β) → β
  | [] => default
  | (a', b) :: table => if a = a' then b else lookup default a table

theorem lookup_mem {α β : Type} [DecidableEq α] (default : β) (a : α) (table : List (α × β)) :
    lookup default a table = default ∨ (a, lookup default a table) ∈ table := by
  induction table with
  | nil => exact Or.inl rfl
  | cons entry table ih =>
      rw [lookup]
      split
      · next h => exact Or.inr (h ▸ List.mem_cons_self)
      · exact ih.imp id (List.mem_cons_of_mem entry)

theorem lookup_mem_cons {α β : Type} [DecidableEq α] (default : β) (a : α)
    (table : List (α × β)) : lookup default a table ∈ default :: table.map Prod.snd := by
  rcases lookup_mem default a table with hdefault | hmem
  · rw [hdefault]
    exact List.mem_cons_self
  · exact List.mem_cons_of_mem _ (List.mem_map_of_mem hmem)

/-- The checks of `public_key` on a signature of the K1 kind. -/
def WellFormed (sig : CompactSignature) : Prop :=
  27 ≤ (sig.get ⟨0, Nat.zero_lt_succ 64⟩).toNat ∧ (sig.get ⟨0, Nat.zero_lt_succ 64⟩).toNat < 35 ∧
    PublicKey.isCanonical sig = true

instance (sig : CompactSignature) : Decidable (WellFormed sig) :=
  inferInstanceAs (Decidable (_ ∧ _ ∧ _))

theorem recover_k1 {P : Platform} {d : Sha256} {sig : CompactSignature} {pub : PublicKeyData}
    (hsig : WellFormed sig) (hrec : ∀ n, P.recoverCompactK1 d sig n = some pub)
    (hpub : pub ≠ Vector.replicate 33 0) : PublicKey.recover P ⟨.k1, sig⟩ d = .ok ⟨.k1, pub⟩ := by
  obtain ⟨hlow, hhigh, hcanonical⟩ := hsig
  have hrange : ¬ (sig[0].toNat < 27 ∨ 35 ≤ sig[0].toNat) :=
    not_or.2 ⟨Nat.not_lt.2 hlow, Nat.not_le.2 hhigh⟩
  simp only [PublicKey.recover, if_neg hrange, fcAssert_of hcanonical, ok_bind, hrec,
    fcAssert_of hpub]

/-- 2019-01-01T00:00:00. -/
def now : UInt32 := 1546300800

def producerKeyData : PublicKeyData :=
  vector 33 0x02ee250d1ea1bb13d35eb6807d18680deafa26e1215f18a5e03f32f75059157a96

def secret : PrivateKeySecret :=
  vector 32 0x100245cc1c49ccc1bae7325d350e51c10df340bdab082097cdccbccc98970a16

def sha (n : ℕ) : Sha256 := vector 32 n

def trxSig : CompactSignature := vector 65
  0x201d5fd4c3908d2cf2b4a5d0857c9f04cdfa04edba2c54996704389719f5c80f66244b3aace881f5e21a09ffc6f52d1942e06a45042090c9b5adc6f878ea39a3b3

def trxDigest : Sha256 := sha 0x8ec65bc8da02bbd749b6d638dc635b5a35972131520be9dfb28eafd582a5fc80

def merkleRoot : Sha256 := sha 0xbdc97c3cdf315f96f7cd65b4339ab4af50d1345c96b3e0d6af56e2b5eb1d18ab

def blockDigest : Sha256 := sha 0x3f76628cded0188e9dd4494cc9b0810975acfe8361af1939e9dc2faed2414dba

def shiftedDigest : Sha256 :=
  sha 0x0a6a1e5ce15b3850dff1fd7f6a974cba29b75c8e9ef7bf8645b4d3f3599d217b

def nextDigest : Sha256 := sha 0xc67888287d2f26149161b4d67aba50fbcd9d9d35dcbbbe3560074278724fba0e

def nextShiftedDigest : Sha256 :=
  sha 0x1466d1f61a9d935673b75925d11b5cf61f9e506c92dfa0a8f4dcfc84748839bb

def keylessDigest : Sha256 := sha 0x8deda271f6a4d432201b3dd3e0e2a6ad9ac1f51d47a4f4cd60825f65e6843c90

def blockSig : CompactSignature := vector 65
  0x1f20f1eb88c7d1ce8d679e2b2c98f6cedbc0b6d61bce8c804e8ddec6ff5df8196f43d69b99dd23549b4713db3672d713fa157dd65dc1c4b9b8453c276574a0aaee

def nextSig : CompactSignature := vector 65
  0x1f13c30501d6c6e8e8314dd65ceb552e41228ab1eb8a14905b90600432edcdefa25c3ee075b674dfc8e45fd1f58992ada9982a9ac3049a820b898fd18ad5df7f6d

def keylessSig : CompactSignature := vector 65
  0x206436d123940568ef8dec0c6ea32594d2cc8ac34a3e5ac941c4c0b9c24d965cb9780cb86586d01cd0a82fb9cc338023ef768178eedcc3ab2b3e76839d639810bf

/-- A canonical signature, for the digests that do not occur. -/
def otherSig : CompactSignature := vector 65 (0x1f01 * 256 ^ 63 + 256 ^ 31)

/-- The data "hi", signed with the producer's key. -/
def trx : Transaction :=
  ⟨now, [104, 105], [], ⟨.k1, trxSig⟩, ⟨.k1, producerKeyData⟩⟩

/-- Block 0, which holds the transaction. -/
def block : Block := ⟨0, zeroSha256, now, merkleRoot, ⟨.k1, blockSig⟩, [trx]⟩

/-- Block 1, which is empty. -/
def nextBlock : Block :=
  ⟨1, blockDigest, now, sha 0x6e340b9cffb37a989ca544e6bb780a2c78901d3fb33738768511a30617afa01d,
    ⟨.k1, nextSig⟩, []⟩

def packedTrxs : Bytes :=
  [1] ++ packUInt32 now ++ [2, 104, 105] ++ [0] ++ [0] ++ trxSig.toList ++ [0] ++
    producerKeyData.toList

def sha256Table : List (Bytes × Sha256) :=
  [(0x80 :: secret.toList, sha 0xdc9954006f74dfb5d1e4be37c015bde912bae10b97c87d30a3d35bd23e7ceeec),
   (bytes 32 0xdc9954006f74dfb5d1e4be37c015bde912bae10b97c87d30a3d35bd23e7ceeec,
    sha 0xd32b3b7efd0a062042008067a1132ce488e86ab1885aad5efe4c21f46a61c082),
   (packUInt32 now ++ [0] ++ [2, 104, 105] ++ [0] ++ producerKeyData.toList, trxDigest),
   (packedTrxs, merkleRoot),
   (block.header, blockDigest),
   ({ block with timePoint := now + 1 }.header, shiftedDigest),
   ([0], sha 0x6e340b9cffb37a989ca544e6bb780a2c78901d3fb33738768511a30617afa01d),
   (nextBlock.header, nextDigest),
   ({ nextBlock with timePoint := now + 1 }.header, nextShiftedDigest),
   (packUInt32 now ++ [0] ++ [2, 104, 105] ++ packSuited blankPublicKey, keylessDigest)]

def signatures : List (Sha256 × CompactSignature) :=
  [(trxDigest, trxSig), (blockDigest, blockSig), (nextDigest, nextSig),
   (keylessDigest, keylessSig)]

def sign (d : Sha256) : CompactSignature := lookup otherSig d signatures

/-- The keys that signatures recover to over digests that they were not made for. -/
def strangers : List ((Sha256 × CompactSignature) × PublicKeyData) :=
  [((nextShiftedDigest, nextSig), vector 33
      0x0280f7b73d5d55e5490b42b4d03414d4ce0fdc3e0e8eb055835e492d26b8d45c54),
   ((trxDigest, keylessSig), vector 33
      0x03ff7da1722795f6ee161737c20a5ae1a7c00848fa1ac8eb075df876160c01536b)]

def isoText : Str := "2019-01-01T00:00:00".toList

def castUInt64 (s : Str) : Option UInt64 :=
  if s ≠ [] ∧ s.all Char.isDigit ∧ Nat.ofDigitChars 10 s 0 < 2 ^ 64 then
    some (UInt64.ofNat (Nat.ofDigitChars 10 s 0))
  else none

def platform : Platform where
  sha256 d := lookup (Vector.replicate 32 1) d sha256Table
  ripemd160 d := lookup (Vector.replicate 20 0) d [(producerKeyData.toList,
    vector 20 0x6cf43fb634cbdd8deee9a31f20cdd98397b4f626)]
  recoverCompactK1 d sig _ :=
    if sig = sign d then some producerKeyData
    else lookup none (d, sig) (strangers.map fun s => (s.1, some s.2))
  signCompactK1 _ d := some (sign d)
  highSR1 _ := false
  recoverKeyR1 _ _ _ := none
  signCompactR1 _ _ := none
  toIsoExtendedString t := if t = now then isoText else "1970-".toList ++ decimal t.toNat
  parseDelimitedTime s :=
    if s = isoText then some now else some (UInt32.ofNat (Nat.ofDigitChars 10 (s.drop 5) 0))
  fromIsoString _ := none
  lexicalCastString n := decimal n.toNat
  lexicalCastStringInt i := (toString i).toList
  lexicalCastUInt64 := castUInt64
  lexicalCastInt64 s := if s = "-21".toList then some (-21) else none
  lexicalCastDouble s := s = "21.5".toList
  doubleToUInt64 _ := 0
  doubleToString s := s

theorem boostExact : platform.BoostExact where
  iso_inverse t := by
    by_cases ht : t = now
    · subst ht
      rfl
    · have hne : "1970-".toList ++ decimal t.toNat ≠ isoText := by
        intro h
        have hsecond : some '9' = some '0' := congrArg (fun s : Str => s[1]?) h
        exact absurd hsecond (by decide)
      have hdrop : ("1970-".toList ++ decimal t.toNat).drop 5 = decimal t.toNat := rfl
      simp only [platform, if_neg ht, if_neg hne, hdrop]
      rw [decimal, Nat.ofDigitChars_ten_toDigits, UInt32.ofNat_toNat]
  iso_year t := by
    by_cases ht : t = now
    · subst ht
      rfl
    · simp only [platform, if_neg ht]
      rfl
  iso_alphabet t c hc := by
    by_cases ht : t = now
    · subst ht
      revert c
      exact forall_mem_of_all (by decide)
    · simp only [platform, if_neg ht] at hc
      rcases List.mem_append.1 hc with hc | hc
      · have hall : ∀ c ∈ "1970-".toList, c.isDigit ∨ c = '-' ∨ c = ':' ∨ c = 'T' :=
          forall_mem_of_all (by decide)
        exact hall c hc
      · exact Or.inl (decimal_isDigit c hc)
  cast_string _ := rfl
  cast_inverse n := by
    have hall : (decimal n.toNat).all Char.isDigit := List.all_eq_true.2 decimal_isDigit
    have hval : Nat.ofDigitChars 10 (decimal n.toNat) 0 = n.toNat := Nat.ofDigitChars_ten_toDigits
    change castUInt64 _ = _
    rw [castUInt64, hval, if_pos ⟨Nat.toDigits_ne_nil, hall, n.toNat_lt⟩, UInt64.ofNat_toNat]

theorem producerKey : PublicKey.ofStr platform producerKeyStr = .ok ⟨.k1, producerKeyData⟩ := by
  decide +kernel

theorem privateKey : PrivateKey.ofStr platform privateKeyStr =
    .ok ⟨.k1, secret⟩ := by
  decide +kernel

theorem producerKeyData_ne : producerKeyData ≠ Vector.replicate 33 0 := by
  intro h
  exact absurd (congrArg (fun key : PublicKeyData => key[0]) h) (by decide)

theorem recover_sign (d : Sha256) :
    PublicKey.recover platform ⟨.k1, sign d⟩ d = .ok ⟨.k1, producerKeyData⟩ := by
  have hsig : ∀ sig ∈ otherSig :: signatures.map Prod.snd, WellFormed sig :=
    forall_mem_of_all (by decide)
  exact recover_k1 (hsig _ (lookup_mem_cons otherSig d signatures)) (fun _ => if_pos rfl)
    producerKeyData_ne

theorem secret_ne : secret ≠ Vector.replicate 32 0 := by
  intro h
  exact absurd (congrArg (fun key : PrivateKeySecret => key[0]) h) (by decide)

theorem sign_secret (d : Sha256) :
    PrivateKey.sign platform ⟨.k1, secret⟩ d = .ok ⟨.k1, sign d⟩ := by
  rw [PrivateKey.sign]
  simp only [fcAssert_of secret_ne, ok_bind, platform]

theorem producerSigns : platform.ProducerSigns := by
  intro key hkey d
  rw [privateKey, Except.ok.injEq] at hkey
  subst hkey
  exact ⟨⟨.k1, sign d⟩, _, sign_secret d, recover_sign d, producerKey⟩

/-! ## A lifetime -/

def env : Env := ⟨fun _ => true, fun _ => ⟨now, 0⟩⟩

theorem env_succeeds : env.Succeeds := fun _ => rfl

/-- A callback that accepts every reply. -/
def next : NextFunction Variant := fun _ => none

def params : PushTransactionParams := ⟨trx.pubKey, trx.signature, now, trx.data, trx.attach⟩

def buf : Buffer := ⟨[], ⟨.k1, producerKeyData⟩, ⟨.k1, secret⟩, Block.new ⟨now, 0⟩⟩

def bufAfter : Buffer := { buf with lastBlock := block }

def table : Table := (appendBlock platform .empty true block).1

theorem new_buffer : Buffer.new platform (env.fresh 0) = .ok buf := by
  unfold Buffer.new
  rw [producerKey, privateKey]
  rfl

theorem startup : pluginStartup platform env .empty = .started buf := by
  have hrows : Table.empty.rows = [].map (rowOf platform) := rfl
  rw [honestChain_nil.pluginStartup boostExact hrows env_succeeds, new_buffer]
  rfl

theorem pack_trxs : packVector Transaction.pack [trx] = .ok packedTrxs := by
  decide +kernel

theorem sha256_packedTrxs : merkleRoot = platform.sha256 packedTrxs := rfl

theorem pack_none : packVector Transaction.pack [] = .ok [0] := rfl

theorem sha256_none : nextBlock.merkleRoot = platform.sha256 [0] := rfl

theorem small_trx : trx.Small := ⟨by decide, by decide⟩

theorem digest_trx : trx.digest platform = .ok trxDigest := rfl

theorem sign_trxDigest : sign trxDigest = trxSig := rfl

theorem validate_trx : trx.validate platform = .ok true := by
  have hrec : PublicKey.recover platform trx.signature trxDigest = .ok trx.pubKey :=
    recover_sign trxDigest
  have hdata : trx.data.length ≠ 0 := by decide
  rw [Transaction.validate, if_neg hdata, if_neg (ne_blank_of_recover hrec), digest_trx, ok_bind,
    hrec, ok_bind, decide_eq_true rfl]

theorem valid_of_sign {b : Block} {d : Sha256} (hd : b.digest platform = d)
    (hsig : b.sig = ⟨.k1, sign d⟩) : b.valid platform = .ok true := by
  refine valid_of_recover ?_ producerKey
  rw [hd, hsig]
  exact recover_sign d

theorem sign_blockDigest : sign blockDigest = blockSig := rfl

theorem sign_nextDigest : sign nextDigest = nextSig := rfl

theorem digest_block : block.digest platform = blockDigest := rfl

theorem digest_nextBlock : nextBlock.digest platform = nextDigest := rfl

theorem sign_secret_of {d : Sha256} {sig : CompactSignature} (h : sign d = sig) :
    PrivateKey.sign platform ⟨.k1, secret⟩ d = .ok ⟨.k1, sig⟩ := by
  rw [sign_secret, h]

theorem built : Built platform ⟨now, 0⟩ (buf.cacheTrx trx) false block where
  valid_eq := valid_of_blank rfl
  blkNum_eq := rfl
  priorHash_eq := rfl
  timePoint_eq := rfl
  trxs_eq := rfl
  merkleRoot_eq := ⟨packedTrxs, pack_trxs, sha256_packedTrxs⟩
  sig_eq := by
    rw [digest_block]
    exact sign_secret_of sign_blockDigest

theorem build : (buf.cacheTrx trx).buildBlock platform ⟨now, 0⟩ = .ok (buf, block) :=
  built.buildBlock

theorem push : pushTransaction platform next ⟨buf, .empty⟩ params =
    ⟨⟨buf.cacheTrx trx, .empty⟩, ⟨[.ok (trx.toVariant platform)], none⟩, []⟩ := by
  have hvalid : params.trx.validate platform = .ok true := validate_trx
  rw [pushTransaction, hvalid]
  rfl

theorem rows_table : table.rows = [rowOf platform block] := by
  have hfree : (sqliteInteger block.blkNum) ∉ Table.empty.rows.map Row.id := List.not_mem_nil
  exact (Table.insert_ok (Table.insert_of_free hfree)).2.2

theorem publish : publishBlk platform env next ⟨buf.cacheTrx trx, .empty⟩ =
    ⟨⟨bufAfter, table⟩, ⟨[.ok operationComplete], none⟩, [true]⟩ := by
  have hrc : (appendBlock platform .empty (env.sqlOk 0) block).2 = true :=
    Table.insert_of_free List.not_mem_nil
  rw [@publishBlk_of_build platform env next ⟨buf.cacheTrx trx, .empty⟩ _ _ build, hrc]
  rfl

theorem reachable_pushed : Reachable platform (.up ⟨buf.cacheTrx trx, .empty⟩) := by
  have hstart : Step platform (.down .empty) (.up ⟨buf, .empty⟩) := .start env_succeeds startup
  have hpush := @Step.call platform ⟨buf, .empty⟩ env (.push params next) env_succeeds
  rw [Node.call, push] at hpush
  specialize hpush fun _ hrc => absurd hrc List.not_mem_nil
  exact (Relation.ReflTransGen.single hstart).tail hpush

theorem reachable : Reachable platform (.up ⟨bufAfter, table⟩) := by
  have hpublish := @Step.call platform ⟨buf.cacheTrx trx, .empty⟩ env (.publish next) env_succeeds
  rw [Node.call, publish] at hpublish
  specialize hpublish (List.forall_mem_singleton.2 rfl)
  exact reachable_pushed.tail hpublish

theorem valid_block : block.valid platform = .ok true :=
  valid_of_sign digest_block (by rw [sign_blockDigest]; rfl)

theorem valid_nextBlock : nextBlock.valid platform = .ok true :=
  valid_of_sign digest_nextBlock (by rw [sign_nextDigest]; rfl)

theorem getElem?_pair {α : Type} {a b x : α} {i : ℕ} (h : [a, b][i]? = some x) :
    i = 0 ∧ x = a ∨ i = 1 ∧ x = b := by
  match i with
  | 0 => exact Or.inl ⟨rfl, (Option.some.inj h).symm⟩
  | 1 => exact Or.inr ⟨rfl, (Option.some.inj h).symm⟩
  | i + 2 => cases h

open HashChain in
theorem twoBlocks : HonestChain platform [block, nextBlock] where
  linked := by
    refine ⟨fun i b hb => ?_, fun b hb => ?_, fun i b c hb hc => ?_⟩
    · rcases getElem?_pair hb with ⟨rfl, rfl⟩ | ⟨rfl, rfl⟩ <;> rfl
    · cases hb
      rfl
    · rcases getElem?_pair hc with ⟨hi, _⟩ | ⟨hi, rfl⟩
      · omega
      · obtain rfl : i = 0 := by omega
        cases hb
        rw [digest_block]
        rfl
  small b hb := by
    rcases List.mem_pair.1 hb with rfl | rfl
    · rw [block, List.forall_mem_singleton]
      exact small_trx
    · exact fun _ ht => absurd ht List.not_mem_nil
  merkleRoot b hb := by
    rcases List.mem_pair.1 hb with rfl | rfl
    · exact ⟨packedTrxs, pack_trxs, sha256_packedTrxs⟩
    · exact ⟨[0], pack_none, sha256_none⟩
  signed b hb := by
    refine ⟨_, privateKey, ?_⟩
    rcases List.mem_pair.1 hb with rfl | rfl
    · rw [digest_block]
      exact sign_secret_of sign_blockDigest
    · rw [digest_nextBlock]
      exact sign_secret_of sign_nextDigest
  valid i b hi hb := by
    rcases getElem?_pair hb with ⟨_, rfl⟩ | ⟨rfl, _⟩
    · exact valid_block
    · exact absurd hi (by decide)
  length_le := by decide

def chainTable : Table where
  rows := [rowOf platform block, rowOf platform nextBlock]
  primaryKey := by
    have hids : [rowOf platform block, rowOf platform nextBlock].map Row.id =
        [0, 1] := rfl
    rw [hids]
    decide

def bufNext : Buffer := { buf with lastBlock := nextBlock }

theorem built_next : Built platform ⟨now, 0⟩ bufAfter true nextBlock where
  valid_eq := valid_block
  blkNum_eq := rfl
  priorHash_eq := digest_block.symm
  timePoint_eq := rfl
  trxs_eq := rfl
  merkleRoot_eq := ⟨[0], pack_none, sha256_none⟩
  sig_eq := by
    rw [digest_nextBlock]
    exact sign_secret_of sign_nextDigest

theorem build_next : bufAfter.buildBlock platform ⟨now, 0⟩ = .ok (bufAfter, nextBlock) :=
  built_next.buildBlock

theorem insert_next : appendBlock platform table true nextBlock = (chainTable, true) := by
  have hfree : sqliteInteger nextBlock.blkNum ∉ table.rows.map Row.id := by
    rw [rows_table]
    decide
  have hrc : (appendBlock platform table true nextBlock).2 = true := Table.insert_of_free hfree
  have hrows : (appendBlock platform table true nextBlock).1.rows =
      table.rows ++ [rowOf platform nextBlock] := (Table.insert_ok hrc).2.2
  rw [rows_table] at hrows
  exact Prod.ext (Table.ext hrows) hrc

theorem publish_next : publishBlk platform env next ⟨bufAfter, table⟩ =
    ⟨⟨bufNext, chainTable⟩, ⟨[.ok operationComplete], none⟩, [true]⟩ := by
  have hinsert : appendBlock platform table (env.sqlOk 0) nextBlock = (chainTable, true) :=
    insert_next
  rw [@publishBlk_of_build platform env next ⟨bufAfter, table⟩ _ _ build_next, hinsert]
  rfl

theorem reachable_next : Reachable platform (.up ⟨bufNext, chainTable⟩) := by
  have hpublish := @Step.call platform ⟨bufAfter, table⟩ env (.publish next) env_succeeds
  rw [Node.call, publish_next] at hpublish
  specialize hpublish (List.forall_mem_singleton.2 rfl)
  exact reachable.tail hpublish

end Sample

theorem sample_chainInvariant :
    ∃ bs, ChainInvariant Sample.platform (.up ⟨Sample.bufNext, Sample.chainTable⟩) bs :=
  reachable_chainInvariant Sample.boostExact Sample.producerSigns Sample.reachable_next

end SimpleBlockchain
