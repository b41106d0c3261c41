import SimpleBlockchain.ChainInvariant

/-!
# A publish whose INSERT fails

The pool is empty and the tip is replaced before the statement runs, and its
failure is only logged: the caller is told that the operation is complete.
-/

namespace SimpleBlockchain

section Failure

variable {P : Platform} {env : Env} {next : NextFunction Variant} {node : Node}

/-- What a failed call should be: an exception for the caller, and nothing changed. -/
def Atomic (node : Node) (o : Outcome) : Prop :=
  (∃ e, o.answered.replies = [.error e]) ∧ o.node = node

theorem head_replies_ok {α : Type} (next : NextFunction α) (a : α) :
    (catchAndCall next (.ok a)).replies.head? = some (.ok a) := by
  rw [catchAndCall]
  cases next (.ok a) <;> rfl

/-- A new block is never the tip that it was built on. -/
theorem Built.ne_lastBlock {f : Fresh} {buf : Buffer} {valid : Bool} {b : Block}
    (hb : Built P f buf valid b) (hsign : P.ProducerSigns)
    (hkey : PrivateKey.ofStr P privateKeyStr = .ok buf.privateKey) : b ≠ buf.lastBlock := by
  intro heq
  cases valid with
  | true =>
      have hnum : buf.lastBlock.blkNum = buf.lastBlock.blkNum + 1 := by
        conv_lhs => rw [← heq]
        exact hb.blkNum_eq
      have hnat := congrArg UInt64.toNat hnum
      rw [UInt64.toNat_add, UInt64.toNat_one] at hnat
      have hlt := buf.lastBlock.blkNum.toNat_lt
      omega
  | false =>
      have hvalid : b.valid P = .ok true := valid_of_signed hsign ⟨_, hkey, hb.sig_eq⟩
      rw [heq, hb.valid_eq] at hvalid
      cases hvalid

theorem publishBlk_failed (h : (publishBlk P env next node).rcs = [false]) :
    ∃ b valid, Built P (env.fresh 0) node.buf valid b ∧
      (publishBlk P env next node).answered = catchAndCall next (.ok operationComplete) ∧
      (publishBlk P env next node).node =
        ⟨{ node.buf with trxPool := [], lastBlock := b }, node.db⟩ := by
  rcases publishBlk_cases P env next node with ⟨e, _, heq⟩ | ⟨b, valid, hb, heq⟩
  · rw [heq] at h
    cases h
  · rw [heq, List.cons.injEq] at h
    have hdb := Table.insert_failed h.1
    rw [heq]
    exact ⟨b, valid, hb, rfl, by rw [appendBlock, hdb]⟩

/-- A publish whose INSERT fails is never atomic: its first reply is a success, the
pool is lost with the block that held it, and the table does not have that block. -/
theorem publish_insert_failure (h : (publishBlk P env next node).rcs = [false]) :
    ¬ Atomic node (publishBlk P env next node) ∧
      (publishBlk P env next node).answered.replies.head? = some (.ok operationComplete) ∧
      (publishBlk P env next node).node.buf.trxPool = [] ∧
      (publishBlk P env next node).node.buf.lastBlock.trxs = node.buf.trxPool ∧
      (publishBlk P env next node).node.db = node.db ∧
      (P.ProducerSigns → PrivateKey.ofStr P privateKeyStr = .ok node.buf.privateKey →
        (publishBlk P env next node).node ≠ node) := by
  obtain ⟨b, valid, hb, hanswered, hnode⟩ := publishBlk_failed h
  have hhead := head_replies_ok next operationComplete
  rw [← hanswered] at hhead
  refine ⟨?_, hhead, by rw [hnode], by rw [hnode]; exact hb.trxs_eq, by rw [hnode], ?_⟩
  · rintro ⟨⟨e, hreplies⟩, _⟩
    rw [hreplies] at hhead
    cases hhead
  · intro hsign hkey heq
    rw [hnode] at heq
    exact hb.ne_lastBlock hsign hkey (congrArg (fun n => n.buf.lastBlock) heq)

end Failure

/-! ## On the sample platform -/

namespace Sample

def failingEnv : Env := ⟨fun _ => false, fun _ => ⟨now, 0⟩⟩

def pushed : Node := ⟨buf.cacheTrx trx, .empty⟩

theorem publish_failing : publishBlk platform failingEnv next pushed =
    ⟨⟨bufAfter, .empty⟩, ⟨[.ok operationComplete], none⟩, [false]⟩ := by
  have hrc : appendBlock platform .empty (failingEnv.sqlOk 0) block = (.empty, false) := by
    rw [appendBlock, Table.insert, dif_neg fun h => absurd h.1 (by decide)]
  rw [@publishBlk_of_build platform failingEnv next pushed _ _ build, pushed, hrc]
  rfl

end Sample

theorem sample_publish_insert_failure :
    ¬ Atomic Sample.pushed
        (publishBlk Sample.platform Sample.failingEnv Sample.next Sample.pushed) :=
  (publish_insert_failure (by rw [Sample.publish_failing])).1

/-- The node acknowledged a transaction and a publish, and has neither. -/
theorem sample_trx_lost :
    Reachable Sample.platform (.up Sample.pushed) ∧
      (publishBlk Sample.platform Sample.failingEnv Sample.next Sample.pushed).rcs = [false] ∧
      (publishBlk Sample.platform Sample.failingEnv Sample.next Sample.pushed).answered.replies =
        [.ok operationComplete] ∧
      (publishBlk Sample.platform Sample.failingEnv Sample.next Sample.pushed).node =
        ⟨Sample.bufAfter, .empty⟩ ∧
      Sample.bufAfter.trxPool = [] ∧
      ¬ Atomic Sample.pushed
        (publishBlk Sample.platform Sample.failingEnv Sample.next Sample.pushed) := by
  rw [Sample.publish_failing]
  refine ⟨Sample.reachable_pushed, rfl, rfl, rfl, rfl, ?_⟩
  rintro ⟨⟨e, hreplies⟩, _⟩
  cases hreplies

end SimpleBlockchain
