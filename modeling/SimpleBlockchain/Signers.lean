import SimpleBlockchain.AdmittedTrxs

/-!
# The two signers

A transaction is signed by a call of the node and by the command line tool. The key is
hashed with the transaction, and only the node fills it in before it hashes.
-/

namespace SimpleBlockchain

structure KeyDerivation where
  /-- `secp256k1_ec_pubkey_create`. -/
  createK1 : PrivateKeySecret → Option PublicKeyData
  /-- `EC_KEY_regenerate_key`, and the public part of its result. -/
  regenerateR1 : PrivateKeySecret → Option PublicKeyData

def PrivateKey.getPublicKey (D : KeyDerivation) (key : PrivateKey) : Except Exn PublicKey :=
  match key.which with
  | .k1 => do
      fcAssert (key.data ≠ Vector.replicate 32 0) "my->_key != empty_priv: "
      match D.createK1 key.data with
      | none => .error ⟨.assert, "secp256k1_ec_pubkey_create: "⟩
      | some pub => .ok ⟨.k1, pub⟩
  | .r1 =>
      match D.regenerateR1 key.data with
      | none => .error ⟨.exception, "unable to regenerate key"⟩
      | some pub => .ok ⟨.r1, pub⟩

/-- What a signer leaves of a decoded transaction. -/
def Transaction.sealed (t : Transaction) (pubKey : PublicKey) (signature : Signature) :
    Transaction :=
  { t with pubKey := pubKey, signature := signature }

/-- The `try` block of `read_only::sign_trx`. -/
def signedTrx (P : Platform) (D : KeyDerivation) (trx : Variant) (key : Str) :
    Except Exn Transaction := do
  let tx ← Transaction.fromVariant P trx
  let priKey ← PrivateKey.ofStr P key
  let pubKey ← priKey.getPublicKey D
  let digest ← { tx with pubKey := pubKey }.digest P
  let signature ← priKey.sign P digest
  .ok (tx.sealed pubKey signature)

def signTrx (P : Platform) (D : KeyDerivation) (trx : Variant) (key : Str) : Variant :=
  match signedTrx P D trx key with
  | .ok tx => tx.toVariant P
  | .error _ => .null

/-- The transaction that `tool_plugin::sign_transaction` prints. -/
def toolSignTransaction (P : Platform) (D : KeyDerivation) (json key : Str) :
    Except Exn Transaction := do
  let v ← fromString P json
  let tx ← Transaction.fromVariant P v
  let digest ← tx.digest P
  let priKey ← PrivateKey.ofStr P key
  let signature ← priKey.sign P digest
  let pubKey ← priKey.getPublicKey D
  .ok (tx.sealed pubKey signature)

/-- The key recovered from a signature over its digest is the signer's. -/
def RecoversSigner (P : Platform) (D : KeyDerivation) : Prop :=
  ∀ (key : PrivateKey) d sig pub, key.sign P d = .ok sig → key.getPublicKey D = .ok pub →
    PublicKey.recover P sig d = .ok pub

/-- No key is recovered from a signature over two digests. -/
def RecoversOnce (P : Platform) (sig : Signature) : Prop :=
  ∀ d d' key, PublicKey.recover P sig d = .ok key → PublicKey.recover P sig d' = .ok key → d = d'

variable {P : Platform} {D : KeyDerivation}

/-! ## What is hashed -/

/-- The bytes that `Transaction::digest` feeds to its encoder. -/
def Transaction.hashed (t : Transaction) : Except Exn Bytes := do
  let attach ← packBytes t.attach
  let data ← packBytes t.data
  .ok (packUInt32 t.timePoint ++ attach ++ data ++ packSuited t.pubKey)

theorem Transaction.digest_eq_ok {t : Transaction} {d : Sha256} :
    t.digest P = .ok d ↔ ∃ x, t.hashed = .ok x ∧ P.sha256 x = d := by
  unfold digest hashed
  cases packBytes t.attach with
  | error e => simp
  | ok attach => cases packBytes t.data <;> simp

/-- The key comes last, and nothing else in the bytes depends on it. -/
theorem Transaction.hashed_pubKey {t : Transaction} {pub : PublicKey} {x : Bytes}
    (hx : t.hashed = .ok x) (hx' : { t with pubKey := pub }.hashed = .ok x) : t.pubKey = pub := by
  obtain ⟨attach, hattach, hx⟩ := bind_eq_ok.1 hx
  obtain ⟨data, hdata, hx⟩ := bind_eq_ok.1 hx
  rw [hashed, hattach, ok_bind, hdata, ok_bind, ← hx, Except.ok.injEq] at hx'
  exact (isPrefixCode_packSuited 33).injective rfl (List.append_cancel_left hx').symm

/-! ## The verdict on a signed transaction -/

theorem validate_sealed (hrec : RecoversSigner P D) {tx : Transaction} {priKey : PrivateKey}
    {pub : PublicKey} {sig : Signature} {d : Sha256} (hdata : tx.data ≠ [])
    (hpub : priKey.getPublicKey D = .ok pub) (hsig : priKey.sign P d = .ok sig)
    (hd : { tx with pubKey := pub }.digest P = .ok d) :
    (tx.sealed pub sig).validate P = .ok true := by
  have hkey := hrec priKey d sig pub hsig hpub
  exact Transaction.validate_eq_true.2
    ⟨hdata, (ne_blank_of_recover hkey).symm, d, hd, hkey⟩

theorem signedTrx_valid (hrec : RecoversSigner P D) {trx : Variant} {key : Str}
    {tx signed : Transaction} (htx : Transaction.fromVariant P trx = .ok tx) (hdata : tx.data ≠ [])
    (hsigned : signedTrx P D trx key = .ok signed) : signed.validate P = .ok true := by
  rw [signedTrx, htx, ok_bind] at hsigned
  obtain ⟨priKey, _, hsigned⟩ := bind_eq_ok.1 hsigned
  obtain ⟨pub, hpub, hsigned⟩ := bind_eq_ok.1 hsigned
  obtain ⟨d, hd, hsigned⟩ := bind_eq_ok.1 hsigned
  obtain ⟨sig, hsig, hsigned⟩ := bind_eq_ok.1 hsigned
  cases hsigned
  exact validate_sealed hrec hdata hpub hsig hd

theorem not_validate_sealed (hrec : RecoversSigner P D) {tx : Transaction} {priKey : PrivateKey}
    {pub : PublicKey} {sig : Signature} {d : Sha256} (hpub : priKey.getPublicKey D = .ok pub)
    (hsig : priKey.sign P d = .ok sig) (honce : RecoversOnce P sig)
    (hd : { tx with pubKey := pub }.digest P ≠ .ok d) :
    (tx.sealed pub sig).validate P ≠ .ok true := by
  intro hvalid
  obtain ⟨_, _, d', hd', hrec'⟩ := Transaction.validate_eq_true.1 hvalid
  have hsame : d = d' := honce d d' pub (hrec priKey d sig pub hsig hpub) hrec'
  exact hd (hsame ▸ hd')

/-- The transaction that the tool signs is valid exactly when it came with the signer's
key, and the one that the node signs always is. -/
theorem tool_signature_valid_iff (hrec : RecoversSigner P D) {json key : Str} {trx : Variant}
    {tx signed : Transaction} {priKey : PrivateKey} {pub : PublicKey}
    (htrx : fromString P json = .ok trx) (htx : Transaction.fromVariant P trx = .ok tx)
    (hdata : tx.data ≠ []) (hkey : PrivateKey.ofStr P key = .ok priKey)
    (hpub : priKey.getPublicKey D = .ok pub)
    (hsigned : toolSignTransaction P D json key = .ok signed)
    (honce : RecoversOnce P signed.signature)
    (hcoll : ∀ x y, tx.hashed = .ok x → { tx with pubKey := pub }.hashed = .ok y →
      P.sha256 x = P.sha256 y → x = y) :
    (signed.validate P = .ok true ↔ tx.pubKey = pub) ∧
      ∀ signed', signedTrx P D trx key = .ok signed' → signed'.validate P = .ok true := by
  refine ⟨?_, fun signed' hsigned' => signedTrx_valid hrec htx hdata hsigned'⟩
  rw [toolSignTransaction, htrx, ok_bind, htx, ok_bind] at hsigned
  obtain ⟨d, hd, hsigned⟩ := bind_eq_ok.1 hsigned
  rw [hkey, ok_bind] at hsigned
  obtain ⟨sig, hsig, hsigned⟩ := bind_eq_ok.1 hsigned
  rw [hpub, ok_bind] at hsigned
  cases hsigned
  constructor
  · intro hvalid
    by_contra hne
    refine not_validate_sealed hrec hpub hsig honce (fun hd' => hne ?_) hvalid
    obtain ⟨x, hx, hxd⟩ := Transaction.digest_eq_ok.1 hd
    obtain ⟨y, hy, hyd⟩ := Transaction.digest_eq_ok.1 hd'
    have hxy := hcoll x y hx hy (hxd.trans hyd.symm)
    exact Transaction.hashed_pubKey hx (hxy ▸ hy)
  · rintro rfl
    exact validate_sealed hrec hdata hpub hsig hd

/-! ## A transaction without a public key -/

namespace Sample

def derivation : KeyDerivation := ⟨fun _ => some producerKeyData, fun _ => none⟩

theorem recoversSigner : RecoversSigner platform derivation := by
  intro key d sig pub hsig hpub
  obtain ⟨which, data⟩ := key
  cases which with
  | k1 =>
      obtain ⟨_, _, hsig⟩ := bind_eq_ok.1 hsig
      obtain ⟨_, _, hpub⟩ := bind_eq_ok.1 hpub
      cases hsig
      cases hpub
      exact recover_sign d
  | r1 => cases hpub

def keyless : Transaction := { trx with pubKey := blankPublicKey, signature := blankSignature }

def keylessJson : Str := toStream platform (keyless.toVariant platform)

theorem fromString_keylessJson :
    fromString platform keylessJson = .ok (keyless.toVariant platform) := by
  rw [keylessJson, fromString_toStream boostExact
    (Transaction.storable_toVariant boostExact keyless) (by decide),
    Transaction.reread_toVariant]

theorem fromVariant_keyless :
    Transaction.fromVariant platform (keyless.toVariant platform) = .ok keyless := by
  have hsmall : keyless.Small := ⟨by decide, by decide⟩
  rw [Transaction.fromVariant_toVariant boostExact, Transaction.cut_eq_self.2 hsmall]

theorem getPublicKey : PrivateKey.getPublicKey derivation ⟨.k1, secret⟩ =
    .ok ⟨.k1, producerKeyData⟩ := by
  simp only [PrivateKey.getPublicKey, fcAssert_of secret_ne, ok_bind, derivation]

theorem digest_keyless : keyless.digest platform = .ok keylessDigest := rfl

theorem digest_keyless_pubKey :
    { keyless with pubKey := ⟨.k1, producerKeyData⟩ }.digest platform = .ok trxDigest :=
  digest_trx

theorem toolSign_keyless :
    toolSignTransaction platform derivation keylessJson privateKeyStr =
      .ok (keyless.sealed ⟨.k1, producerKeyData⟩ ⟨.k1, keylessSig⟩) := by
  have hsig : sign keylessDigest = keylessSig := rfl
  rw [toolSignTransaction, fromString_keylessJson, ok_bind, fromVariant_keyless, ok_bind,
    digest_keyless, ok_bind, privateKey, ok_bind, sign_secret, ok_bind, getPublicKey,
    ok_bind, hsig]

/-- The key that the tool's signature recovers to over the digest that is checked. -/
def strangerKeyData : PublicKeyData := vector 33
  0x03ff7da1722795f6ee161737c20a5ae1a7c00848fa1ac8eb075df876160c01536b

theorem sign_eq_keylessSig {d : Sha256} (h : sign d = keylessSig) :
    d = keylessDigest := by
  have hne : otherSig ≠ keylessSig ∧ trxSig ≠ keylessSig ∧ blockSig ≠ keylessSig ∧
      nextSig ≠ keylessSig := by decide
  rcases lookup_mem otherSig d signatures with hdef | hmem
  · exact absurd (hdef.symm.trans h) hne.1
  · rw [show lookup otherSig d signatures = keylessSig from h] at hmem
    simpa [signatures, hne.2.1.symm, hne.2.2.1.symm, hne.2.2.2.symm] using hmem

theorem recover_keylessSig {d : Sha256} {key : PublicKey}
    (h : PublicKey.recover platform ⟨.k1, keylessSig⟩ d = .ok key) :
    d = keylessDigest ∧ key = ⟨.k1, producerKeyData⟩ ∨
      d = trxDigest ∧ key = ⟨.k1, strangerKeyData⟩ := by
  have hrange : ¬ (keylessSig[0].toNat < 27 ∨ 35 ≤ keylessSig[0].toNat) := by decide
  have hcanonical : PublicKey.isCanonical keylessSig = true := by decide
  simp only [PublicKey.recover, if_neg hrange, fcAssert_of hcanonical, ok_bind] at h
  by_cases hd : keylessSig = sign d
  · have hkey : ∀ n, platform.recoverCompactK1 d keylessSig n = some producerKeyData :=
      fun _ => if_pos hd
    rw [hkey] at h
    obtain ⟨_, _, h⟩ := bind_eq_ok.1 h
    exact Or.inl ⟨sign_eq_keylessSig hd.symm, (Except.ok.inj h).symm⟩
  · have hkey : ∀ n, platform.recoverCompactK1 d keylessSig n =
        lookup none (d, keylessSig) (strangers.map fun s => (s.1, some s.2)) :=
      fun _ => if_neg hd
    have hsig : nextSig ≠ keylessSig := by decide
    rw [hkey] at h
    rcases lookup_mem none (d, keylessSig) (strangers.map fun s => (s.1, some s.2)) with
      hnone | hmem
    · rw [hnone] at h
      cases h
    · generalize lookup none (d, keylessSig) (strangers.map fun s => (s.1, some s.2)) = found
        at h hmem
      simp only [strangers, List.map_cons, List.map_nil, List.mem_cons, Prod.mk.injEq,
        hsig.symm, and_false, false_and, false_or, List.not_mem_nil, or_false, and_true] at hmem
      obtain ⟨rfl, rfl⟩ := hmem
      obtain ⟨_, _, h⟩ := bind_eq_ok.1 h
      exact Or.inr ⟨rfl, (Except.ok.inj h).symm⟩

theorem recoversOnce_keylessSig : RecoversOnce platform ⟨.k1, keylessSig⟩ := by
  have hne : producerKeyData ≠ strangerKeyData := by decide
  intro d d' key h h'
  rcases recover_keylessSig h with ⟨rfl, rfl⟩ | ⟨rfl, rfl⟩ <;>
    rcases recover_keylessSig h' with ⟨rfl, hkey⟩ | ⟨rfl, hkey⟩
  · rfl
  · exact absurd (congrArg Suited.data hkey) hne
  · exact absurd (congrArg Suited.data hkey).symm hne
  · rfl

end Sample

theorem sample_tool_signature_valid :
    ((Sample.keyless.sealed ⟨.k1, Sample.producerKeyData⟩ ⟨.k1, Sample.keylessSig⟩).validate
        Sample.platform = .ok true ↔
      Sample.keyless.pubKey = ⟨.k1, Sample.producerKeyData⟩) ∧
    ∀ signed', signedTrx Sample.platform Sample.derivation
      (Sample.keyless.toVariant Sample.platform) privateKeyStr = .ok signed' →
      signed'.validate Sample.platform = .ok true := by
  refine tool_signature_valid_iff Sample.recoversSigner Sample.fromString_keylessJson
    Sample.fromVariant_keyless (by decide) Sample.privateKey Sample.getPublicKey
    Sample.toolSign_keyless Sample.recoversOnce_keylessSig ?_
  intro x y hx hy hxy
  have hne : Sample.keylessDigest ≠ Sample.trxDigest := by decide
  obtain ⟨x', hx', hd⟩ := Transaction.digest_eq_ok.1 Sample.digest_keyless
  obtain ⟨y', hy', hd'⟩ := Transaction.digest_eq_ok.1 Sample.digest_keyless_pubKey
  rw [hx, Except.ok.injEq] at hx'
  rw [hy, Except.ok.injEq] at hy'
  subst hx' hy'
  exact absurd (hd.symm.trans (hxy.trans hd')) hne

/-- The data "hi" of an author who leaves the key to the signer. -/
theorem sample_tool_signature_invalid :
    ∃ signed, toolSignTransaction Sample.platform Sample.derivation Sample.keylessJson
        privateKeyStr = .ok signed ∧
      Sample.keyless.data ≠ [] ∧ RecoversOnce Sample.platform signed.signature ∧
      signed.validate Sample.platform = .ok false ∧
      ∃ signed', signedTrx Sample.platform Sample.derivation
          (Sample.keyless.toVariant Sample.platform) privateKeyStr = .ok signed' ∧
        signed'.validate Sample.platform = .ok true := by
  refine ⟨_, Sample.toolSign_keyless, by decide, Sample.recoversOnce_keylessSig,
    by decide +kernel, Sample.trx, ?_, by decide +kernel⟩
  rw [signedTrx, Sample.fromVariant_keyless, ok_bind, Sample.privateKey, ok_bind,
    Sample.getPublicKey, ok_bind, Sample.digest_keyless_pubKey, ok_bind,
    Sample.sign_secret_of Sample.sign_trxDigest]
  rfl

end SimpleBlockchain
