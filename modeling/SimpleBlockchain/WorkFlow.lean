import SimpleBlockchain.ChainApi

/-!
# What is signed is accepted

A client prints the answer of `sign_trx` and sends it back as the body of
`push_transaction`. The two calls have different structures for it: the members stand in
another order, and one of the second is missing in the first.
-/

namespace SimpleBlockchain

variable {P : Platform} {D : KeyDerivation}

/-- The members of a small transaction are found wherever they stand, and `type` keeps
its value. -/
theorem PushTransactionParams.fromVariant_toVariant (hP : P.BoostExact) {t : Transaction}
    (ht : t.Small) : ∃ p, PushTransactionParams.fromVariant P (t.toVariant P) = .ok p ∧
      p.trx = t := by
  have hfields : PushTransactionParams.fromVariant P (t.toVariant P) = (do
      let data ← (Variant.ofBytes t.data).toBytes P
      let attach ← (Variant.ofBytes t.attach).toBytes P
      let pubKey ← PublicKey.fromVariant P (.string (t.pubKey.toStr P))
      let signature ← Signature.fromVariant P (.string (t.signature.toStr P))
      let timePoint ← (Variant.ofTime P t.timePoint).toTime P
      .ok ⟨pubKey, signature, timePoint, data, attach⟩) := rfl
  refine ⟨⟨t.pubKey, t.signature, t.timePoint, t.data, t.attach⟩, ?_, rfl⟩
  rw [hfields, toBytes_ofBytes, toBytes_ofBytes, cutSize_eq_self.2 ht.1, cutSize_eq_self.2 ht.2,
    PublicKey.fromVariant_toStr, Signature.fromVariant_toStr, toTime_ofTime hP]
  rfl

theorem bodyVariant_toVariant (hP : P.BoostExact) (t : Transaction) :
    bodyVariant P (toStream P (t.toVariant P)) = .ok (t.toVariant P) := by
  have hbody := bodyVariant_toStream hP (Transaction.storable_toVariant hP t) (by decide)
  rw [← Transaction.toVariant, Transaction.reread_toVariant] at hbody
  exact hbody

theorem params_toStream (hP : P.BoostExact) {t : Transaction} (ht : t.Small) :
    ∃ p : PushTransactionParams, (bodyVariant P (toStream P (t.toVariant P)) >>= fun v =>
        RwCall.pushTransaction.paramsFromVariant P v) = .ok p ∧ p.trx = t := by
  obtain ⟨p, hp, htrx⟩ := PushTransactionParams.fromVariant_toVariant hP ht
  refine ⟨p, ?_, htrx⟩
  rw [bodyVariant_toVariant hP, ok_bind]
  exact hp

theorem signedTrx_of_steps {trx : Variant} {key : Str} {tx : Transaction} {priKey : PrivateKey}
    {pub : PublicKey} {d : Sha256} {sig : Signature}
    (htx : Transaction.fromVariant P trx = .ok tx) (hkey : PrivateKey.ofStr P key = .ok priKey)
    (hpub : priKey.getPublicKey D = .ok pub) (hd : { tx with pubKey := pub }.digest P = .ok d)
    (hsig : priKey.sign P d = .ok sig) : signedTrx P D trx key = .ok (tx.sealed pub sig) := by
  rw [signedTrx, htx, ok_bind, hkey, ok_bind, hpub, ok_bind, hd, ok_bind, hsig, ok_bind]

theorem Transaction.digest_of_le {t : Transaction} (hdata : t.data.length ≤ maxSizeOfByteArrays)
    (hattach : t.attach.length ≤ maxSizeOfByteArrays) : ∃ d, t.digest P = .ok d := by
  have hbytes : ∀ value : Bytes, value.length ≤ maxSizeOfByteArrays →
      packBytes value = .ok (packUnsignedInt value.length ++ value) := by
    intro value hvalue
    rw [packBytes, fcAssert_of hvalue, ok_bind]
  rw [digest, hbytes _ hattach, ok_bind, hbytes _ hdata, ok_bind]
  exact ⟨_, rfl⟩

/-- The answer of `sign_trx`, sent as the body of `push_transaction`, is answered with
success, and the pool grows by the transaction that was signed. -/
theorem signed_trx_accepted (hP : P.BoostExact) (hrec : RecoversSigner P D) {trx : Variant}
    {key : Str} {tx : Transaction} {priKey : PrivateKey} {pub : PublicKey}
    (htx : Transaction.fromVariant P trx = .ok tx) (hdata : tx.data ≠ [])
    (hdataLen : tx.data.length ≤ maxSizeOfByteArrays)
    (hattachLen : tx.attach.length ≤ maxSizeOfByteArrays)
    (hkey : PrivateKey.ofStr P key = .ok priKey) (hpub : priKey.getPublicKey D = .ok pub)
    (hsign : ∀ d, { tx with pubKey := pub }.digest P = .ok d → ∃ sig, priKey.sign P d = .ok sig)
    (next : NextFunction Variant) (node : Node) :
    ∃ (p : PushTransactionParams) (t : Transaction),
      (bodyVariant P (toStream P (signTrx P D trx key)) >>= fun v =>
        RwCall.pushTransaction.paramsFromVariant P v) = .ok p ∧
      (pushTransaction P next node p).answered.replies.head? = some (.ok (t.toVariant P)) ∧
      (next (.ok (t.toVariant P)) = none →
        (pushTransaction P next node p).answered = ⟨[.ok (t.toVariant P)], none⟩) ∧
      (pushTransaction P next node p).node.buf.trxPool = node.buf.trxPool ++ [t] ∧
      t.timePoint = tx.timePoint ∧ t.data = tx.data ∧ t.attach = tx.attach ∧ t.pubKey = pub := by
  obtain ⟨d, hd⟩ := Transaction.digest_of_le (P := P) (t := { tx with pubKey := pub })
    hdataLen hattachLen
  obtain ⟨sig, hsig⟩ := hsign d hd
  have hsigned := signedTrx_of_steps htx hkey hpub hd hsig
  have hvalid := validate_sealed hrec hdata hpub hsig hd
  obtain ⟨p, hbody, hp⟩ := params_toStream hP (Transaction.small_of_validate hvalid)
  have hanswer : pushTransaction P next node p =
      ⟨{ node with buf := node.buf.cacheTrx (tx.sealed pub sig) },
        catchAndCall next (.ok ((tx.sealed pub sig).toVariant P)), []⟩ := by
    rw [← hp] at hvalid ⊢
    rw [pushTransaction, hvalid]
  refine ⟨p, tx.sealed pub sig, ?_, ?_, ?_, ?_, rfl, rfl, rfl, rfl⟩
  · rw [signTrx, hsigned]
    exact hbody
  · rw [hanswer, catchAndCall]
    cases next (.ok ((tx.sealed pub sig).toVariant P)) <;> rfl
  · intro hnext
    rw [hanswer, catchAndCall, hnext]
  · rw [hanswer]
    rfl

/-- The author's transaction without a key, signed by the node and sent back. -/
theorem sample_signed_trx_accepted : ∃ (p : PushTransactionParams) (t : Transaction),
    (bodyVariant Sample.platform (toStream Sample.platform (signTrx Sample.platform
        Sample.derivation (Sample.keyless.toVariant Sample.platform) privateKeyStr)) >>=
      fun v => RwCall.pushTransaction.paramsFromVariant Sample.platform v) = .ok p ∧
    (pushTransaction Sample.platform Sample.next
        ⟨Sample.buf, .empty⟩ p).answered.replies.head? =
      some (.ok (t.toVariant Sample.platform)) ∧
    (Sample.next (.ok (t.toVariant Sample.platform)) = none →
      (pushTransaction Sample.platform Sample.next ⟨Sample.buf, .empty⟩ p).answered =
        ⟨[.ok (t.toVariant Sample.platform)], none⟩) ∧
    (pushTransaction Sample.platform Sample.next ⟨Sample.buf, .empty⟩ p).node.buf.trxPool =
      [] ++ [t] ∧
    t.timePoint = Sample.now ∧ t.data = [104, 105] ∧ t.attach = [] ∧
    t.pubKey = ⟨.k1, Sample.producerKeyData⟩ :=
  signed_trx_accepted Sample.boostExact Sample.recoversSigner Sample.fromVariant_keyless
    (by decide) (by decide) (by decide) Sample.privateKey Sample.getPublicKey
    (fun d _ => ⟨⟨.k1, Sample.sign d⟩, Sample.sign_secret d⟩) Sample.next _

end SimpleBlockchain
