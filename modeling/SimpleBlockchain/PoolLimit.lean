import SimpleBlockchain.AdmittedTrxs
import SimpleBlockchain.PublishFailure

/-!
# How large a pool can be published

The pool is hashed through the serializer of vectors, which counts its elements and
refuses more than `maxNumArrayElements`. A push does not look at the size of the pool.
-/

namespace SimpleBlockchain

/-- If the database accepts what it is sent, the caller reads a success first, one block
with the whole pool is appended, and the pool is empty. -/
def Publishes (P : Platform) (env : Env) (next : NextFunction Variant) (node : Node) : Prop :=
  (∀ rc ∈ (publishBlk P env next node).rcs, rc = true) →
    (publishBlk P env next node).answered.replies.head? = some (.ok operationComplete) ∧
    (∃ row b, (publishBlk P env next node).node.db.rows = node.db.rows ++ [row] ∧
      (∀ f, Block.ofJson P f row.json = .ok b) ∧ b.trxs = node.buf.trxPool) ∧
    (publishBlk P env next node).node.buf.trxPool = []

/-- The nodes that any calls lead to, whatever the database does. -/
inductive Later (P : Platform) (start : Node) : Node → Prop
  | refl : Later P start start
  | call {node env} (c : Call) : Later P start node → Later P start (node.call P env c).node

variable {P : Platform} {bs : List Block} {node : Node}

/-! ## What can be packed -/

theorem packEach_ok {α : Type} {pack : α → Except Exn Bytes} {as : List α}
    (h : ∀ a ∈ as, ∃ x, pack a = .ok x) : ∃ x, packEach pack as = .ok x := by
  induction as with
  | nil => exact ⟨[], rfl⟩
  | cons a as ih =>
      rw [List.forall_mem_cons] at h
      obtain ⟨x, hx⟩ := h.1
      obtain ⟨y, hy⟩ := ih h.2
      exact ⟨x ++ y, by rw [packEach, hx, ok_bind, hy, ok_bind]⟩

/-- A transaction that has a digest has a packed form: both need the same two vectors. -/
theorem Transaction.pack_of_digest {t : Transaction} {d : Sha256} (h : t.digest P = .ok d) :
    ∃ x, t.pack = .ok x := by
  obtain ⟨attach, hattach, h⟩ := bind_eq_ok.1 h
  obtain ⟨data, hdata, _⟩ := bind_eq_ok.1 h
  exact ⟨_, by rw [pack, hdata, ok_bind, hattach, ok_bind]⟩

theorem pushTrxs_eq_ok_iff {trxs : List Transaction} (h : ∀ t ∈ trxs, Admitted P t) (b : Block) :
    (∃ b', b.pushTrxs P trxs = .ok b') ↔ trxs.length ≤ maxNumArrayElements := by
  constructor
  · rintro ⟨b', hb'⟩
    obtain ⟨packed, hpacked, _⟩ := bind_eq_ok.1 hb'
    obtain ⟨_, hlen, _⟩ := bind_eq_ok.1 hpacked
    exact fcAssert_eq_ok.1 hlen
  · intro hlen
    obtain ⟨elems, helems⟩ := packEach_ok fun t ht =>
      Transaction.pack_of_digest (h t ht).recovered.choose_spec.1
    have hpacked : packVector Transaction.pack trxs =
        .ok (packUnsignedInt trxs.length ++ elems) := by
      rw [packVector, fcAssert_of hlen, ok_bind, helems, ok_bind]
    exact ⟨_, congrArg (· >>= _) hpacked⟩

/-! ## One publish -/

theorem Follows.valid_lastBlock (hsign : P.ProducerSigns) (h : HonestChain P bs)
    (hf : Follows P bs node.buf) : ∃ valid, node.buf.lastBlock.valid P = .ok valid := by
  cases hl : bs.getLast? with
  | none =>
      obtain ⟨f, hblank⟩ := hf.noTip (List.getLast?_eq_none_iff.1 hl)
      exact ⟨false, by rw [hblank, valid_of_blank rfl]⟩
  | some l =>
      have hvalid := valid_of_signed hsign (h.signed l (List.mem_of_getLast? hl))
      exact ⟨true, by rw [hf.tip l hl, hvalid]⟩

theorem Follows.buildBlock_ok (hsign : P.ProducerSigns) (h : HonestChain P bs)
    (hf : Follows P bs node.buf) (hlen : node.buf.trxPool.length ≤ maxNumArrayElements)
    (f : Fresh) : ∃ r, node.buf.buildBlock P f = .ok r := by
  obtain ⟨valid, hvalid⟩ := hf.valid_lastBlock hsign h
  have hpool : ∀ t ∈ node.buf.trxPool, Admitted P t := fun t ht => admitted_iff.2 (hf.pool t ht)
  obtain ⟨blk, hblk⟩ := (pushTrxs_eq_ok_iff hpool
    (Buffer.follow P node.buf.lastBlock valid (Block.new f))).2 hlen
  obtain ⟨sig, _, hsig, _⟩ := hsign _ hf.privateKey (blk.digest P)
  refine ⟨({ node.buf with trxPool := [] }, { blk with sig := sig }), ?_⟩
  rw [Buffer.buildBlock, hvalid, ok_bind, hblk, ok_bind, hsig, ok_bind]

/-- The pool is refused before it is cleared, whatever else happens. -/
theorem buildBlock_oversized {buf : Buffer} (hlen : maxNumArrayElements < buf.trxPool.length)
    (f : Fresh) : ∃ e, buf.buildBlock P f = .error e := by
  cases hbuild : buf.buildBlock P f with
  | error e => exact ⟨e, rfl⟩
  | ok r =>
      obtain ⟨buf', b⟩ := r
      obtain ⟨_, valid, hb⟩ := buildBlock_cases hbuild
      obtain ⟨packed, hpacked, _⟩ := hb.merkleRoot_eq
      obtain ⟨_, hle, _⟩ := bind_eq_ok.1 hpacked
      rw [fcAssert_eq_ok, hb.trxs_eq] at hle
      omega

theorem publishBlk_oversized (hlen : maxNumArrayElements < node.buf.trxPool.length) (env : Env)
    (next : NextFunction Variant) :
    ∃ e, publishBlk P env next node = ⟨node, catchAndCall next (.error e), []⟩ := by
  obtain ⟨e, he⟩ := buildBlock_oversized (P := P) hlen (env.fresh 0)
  exact ⟨e, publishBlk_of_error he⟩

/-- A pool that is too large stays too large: pushes add to it and publishes fail. -/
theorem Later.oversized {node' : Node} (h : Later P node node')
    (hlen : maxNumArrayElements < node.buf.trxPool.length) :
    maxNumArrayElements < node'.buf.trxPool.length := by
  induction h with
  | refl => exact hlen
  | @call node' env c _ ih =>
      cases c with
      | push p next =>
          rw [Node.call]
          rcases pushTransaction_cases P next node' p with ⟨_, heq⟩ | ⟨_, e, heq⟩
          · rw [heq]
            simp only [Buffer.cacheTrx, List.length_append]
            omega
          · rwa [heq]
      | publish next =>
          obtain ⟨e, heq⟩ := publishBlk_oversized (P := P) ih env next
          rw [Node.call, heq]
          exact ih
      | getInfo => exact ih
      | getBlock blkNum => exact ih
      | getBlocks blkNums => exact ih
      | checkChain => exact ih

theorem Represents.publishes (hP : P.BoostExact) (hsign : P.ProducerSigns)
    (h : Represents P bs (.up node)) (hlen : node.buf.trxPool.length ≤ maxNumArrayElements)
    (env : Env) (next : NextFunction Variant) : Publishes P env next node := by
  intro hok
  obtain ⟨hhonest, hf⟩ : HonestChain P bs ∧ Follows P bs node.buf := by
    cases h with
    | up h₁ _ h₃ => exact ⟨h₁, h₃⟩
  obtain ⟨r, hr⟩ := hf.buildBlock_ok hsign hhonest hlen (env.fresh 0)
  rcases publishBlk_cases P env next node with ⟨e, he, _⟩ | ⟨b, valid, hb, heq⟩
  · rw [he] at hr
    cases hr
  · rw [heq] at hok ⊢
    have hrows := (Table.insert_ok (hok _ (List.mem_singleton_self _))).2.2
    have hcut : b.cut = b := by
      rw [Block.cut_eq_self, hb.trxs_eq]
      exact fun t ht => Transaction.small_of_validate (hf.pool t ht)
    refine ⟨head_replies_ok next operationComplete, ⟨_, b, hrows, fun f => ?_, hb.trxs_eq⟩, rfl⟩
    rw [Block.ofJson_toJson hP, hcut]

/-- A node that has always been answered by its database publishes its pool exactly when
the serializer takes it. A pool that it does not take is never published again. -/
theorem pool_publishable_iff (hP : P.BoostExact) (hsign : P.ProducerSigns)
    (h : Reachable P (.up node)) (env : Env) (next : NextFunction Variant) :
    (Publishes P env next node ↔ node.buf.trxPool.length ≤ maxNumArrayElements) ∧
    (maxNumArrayElements < node.buf.trxPool.length → ∀ node', Later P node node' → ∀ env next,
      ∃ e, publishBlk P env next node' = ⟨node', catchAndCall next (.error e), []⟩) := by
  obtain ⟨bs, hbs⟩ := h.represents hP
  refine ⟨⟨fun hpub => ?_, fun hlen => hbs.publishes hP hsign hlen env next⟩,
    fun hlen node' hnode' env next => publishBlk_oversized (hnode'.oversized hlen) env next⟩
  by_contra hlen
  obtain ⟨e, heq⟩ := publishBlk_oversized (P := P) (Nat.lt_of_not_le hlen) env next
  rw [Publishes, heq] at hpub
  have hreply := (hpub (fun rc hrc => absurd hrc List.not_mem_nil)).1
  cases hreply

theorem sample_pool_publishable :
    (Publishes Sample.platform Sample.env Sample.next Sample.pushed ↔
      Sample.pushed.buf.trxPool.length ≤ maxNumArrayElements) ∧
    (maxNumArrayElements < Sample.pushed.buf.trxPool.length →
      ∀ node', Later Sample.platform Sample.pushed node' → ∀ env next,
        ∃ e, publishBlk Sample.platform env next node' =
          ⟨node', catchAndCall next (.error e), []⟩) :=
  pool_publishable_iff Sample.boostExact Sample.producerSigns Sample.reachable_pushed Sample.env
    Sample.next

/-! ## Too many pushes -/

namespace Sample

def flooded (n : ℕ) : Node := ⟨{ buf with trxPool := List.replicate n trx }, .empty⟩

theorem reachable_flooded (n : ℕ) : Reachable platform (.up (flooded n)) := by
  induction n with
  | zero => exact Relation.ReflTransGen.single (.start env_succeeds startup)
  | succ n ih =>
      have hpush : pushTransaction platform next (flooded n) params =
          ⟨flooded (n + 1), ⟨[.ok (trx.toVariant platform)], none⟩, []⟩ := by
        have hvalid : params.trx.validate platform = .ok true := validate_trx
        rw [pushTransaction, hvalid, flooded, flooded, List.replicate_succ']
        rfl
      have hstep : Step platform (.up (flooded n))
          (.up (pushTransaction platform next (flooded n) params).node) := by
        refine .call (.push params next) env_succeeds ?_
        rw [Node.call, hpush]
        exact fun rc hrc => absurd hrc List.not_mem_nil
      rw [hpush] at hstep
      exact ih.tail hstep

end Sample

/-- One push more than the serializer counts, each of them acknowledged, and the node
can never publish again. -/
theorem sample_pool_stuck :
    Reachable Sample.platform (.up (Sample.flooded 1048577)) ∧ Sample.env.Succeeds ∧
      ¬ Publishes Sample.platform Sample.env Sample.next (Sample.flooded 1048577) ∧
      ∀ node', Later Sample.platform (Sample.flooded 1048577) node' → ∀ env next,
        ∃ e, publishBlk Sample.platform env next node' =
          ⟨node', catchAndCall next (.error e), []⟩ := by
  have hlen : maxNumArrayElements < (Sample.flooded 1048577).buf.trxPool.length := by
    rw [Sample.flooded, List.length_replicate]
    decide
  refine ⟨Sample.reachable_flooded _, Sample.env_succeeds, fun hpub => ?_,
    fun node' hnode' env next => publishBlk_oversized (hnode'.oversized hlen) env next⟩
  obtain ⟨e, heq⟩ := publishBlk_oversized (P := Sample.platform) hlen Sample.env Sample.next
  rw [Publishes, heq] at hpub
  cases (hpub (fun rc hrc => absurd hrc List.not_mem_nil)).1

end SimpleBlockchain
