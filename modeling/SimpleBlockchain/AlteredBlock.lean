import SimpleBlockchain.Persistence
import SimpleBlockchain.Tampering
import SimpleBlockchain.Verdict

/-!
# Which block the chain check names

The check names the row before the one at which it stopped. A block whose signature
does not verify stops it in its own row, unless its number is 0 there.
-/

namespace SimpleBlockchain

open HashChain

/-- The reply of `read_only::check_chain` to what its loop found. -/
def checkReply (P : Platform) : Option Block → Variant
  | some checkBlk => resultMinusOne P checkBlk
  | none => resultZero

variable {P : Platform} {bs : List Block} {k : ℕ} {b c : Block} {env : Env} {db : Table}

theorem checkLoop_append {checkBlk last : Block} {blocks rest : List Block}
    (h : (checkBlk :: blocks).IsChain (Passes P))
    (hlast : (checkBlk :: blocks).getLast? = some last) :
    checkLoop P checkBlk (blocks ++ rest) = checkLoop P last rest := by
  induction blocks generalizing checkBlk with
  | nil =>
      cases hlast
      rfl
  | cons idx blocks ih =>
      rw [List.isChain_cons_cons] at h
      rw [List.getLast?_cons_cons] at hlast
      rw [List.cons_append, checkLoop, ih h.2 hlast]
      split
      · rfl
      next hz => rw [h.1.resolve_left hz, ok_bind, if_pos rfl]

theorem not_valid_of_recover {key pub : PublicKey}
    (hrec : PublicKey.recover P c.sig (c.digest P) = .ok key)
    (hpub : PublicKey.ofStr P producerKeyStr = .ok pub) (hne : key ≠ pub) :
    c.valid P = .ok false := by
  rw [Block.valid, if_neg (ne_blank_of_recover hrec), hrec, ok_bind, hpub, ok_bind,
    decide_eq_false hne]

theorem checkBlock_of_not_valid {prior : Block} {priorValid : Bool}
    (hprior : prior.valid P = .ok priorValid) (hc : c.valid P = .ok false) :
    c.checkBlock P prior = .ok false := by
  rw [Block.checkBlock, hprior, ok_bind]
  cases priorValid with
  | false => rfl
  | true =>
      rw [if_pos rfl, hc, ok_bind, Bool.false_and]

theorem HonestChain.passes_take (h : HonestChain P bs) (hk : k < bs.length) (f : Fresh) :
    (Block.new f :: bs.take k).IsChain (Passes P) := by
  rw [isChain_cons_iff_getElem?]
  refine ⟨fun d hd => ?_, fun i d e hd he => ?_⟩
  · rw [List.getElem?_take] at hd
    split at hd
    · exact passes_new.2 (h.blkNum_zero hd)
    · cases hd
  · rw [List.getElem?_take] at hd he
    split at he
    next hlt =>
      rw [if_pos (Nat.lt_of_succ_lt hlt)] at hd
      exact h.passes hd he (h.valid (i + 1) e (by omega) he)
    · cases he

theorem HonestChain.valid_before (h : HonestChain P bs) (hk : k < bs.length) {f : Fresh}
    {prev : Block} (hprev : (Block.new f :: bs)[k]? = some prev) :
    (k = 0 ∧ prev = Block.new f ∧ prev.valid P = .ok false) ∨ prev.valid P = .ok true := by
  cases k with
  | zero =>
      cases hprev
      exact Or.inl ⟨rfl, rfl, valid_of_blank rfl⟩
  | succ j => exact Or.inr (h.valid j prev hk hprev)

/-- What the loop does on a chain with one block that is not valid. -/
theorem HonestChain.checkLoop_altered (h : HonestChain P bs) (hk : k < bs.length)
    (hc : c.valid P = .ok false) (f : Fresh) :
    checkLoop P (Block.new f) (bs.set k c) =
      .ok (if c.blkNum ≠ 0 then (Block.new f :: bs)[k]?
        else if k + 1 < bs.length then some c else none) := by
  obtain ⟨prev, hprev⟩ : ∃ prev, (Block.new f :: bs)[k]? = some prev :=
    ⟨_, List.getElem?_eq_getElem (by rw [List.length_cons]; omega)⟩
  have hlast : (Block.new f :: bs.take k).getLast? = some prev := by
    rw [List.getLast?_eq_getElem?, List.length_cons, List.length_take, Nat.min_eq_left hk.le,
      Nat.add_sub_cancel, ← List.take_succ_cons, List.getElem?_take, if_pos (Nat.lt_succ_self k),
      hprev]
  rw [List.set_eq_take_append_cons_drop, if_pos hk,
    checkLoop_append (h.passes_take hk f) hlast, checkLoop]
  by_cases hz : c.blkNum = 0
  · rw [if_pos hz, if_neg (not_not.2 hz)]
    by_cases hnext : k + 1 < bs.length
    · have hsucc := List.getElem?_eq_getElem hnext
      have hne : bs[k + 1].blkNum ≠ 0 := by
        intro hzero
        have hnum := h.blkNum_eq hsucc
        rw [hzero] at hnum
        cases hnum
      rw [if_pos hnext, List.drop_eq_getElem_cons hnext, checkLoop, if_neg hne, Block.checkBlock,
        hc, ok_bind, if_neg Bool.false_ne_true, ok_bind, if_neg Bool.false_ne_true]
    · rw [if_neg hnext, List.drop_eq_nil_of_le (by omega), checkLoop]
  · have hfails : c.checkBlock P prev = .ok false := by
      rcases h.valid_before hk hprev with ⟨_, _, hv⟩ | hv
      · exact checkBlock_of_not_valid hv hc
      · exact checkBlock_of_not_valid hv hc
    rw [if_neg hz, if_pos hz, hfails, ok_bind, if_neg Bool.false_ne_true, hprev]

theorem checkChain_of_checkLoop {blocks : List Block} {r : Option Block}
    (hall : getAllBlocks P db (env.sqlOk 0) (fun i => env.fresh (i + 1)) = .ok blocks)
    (hloop : checkLoop P (Block.new (env.fresh 0)) blocks = .ok r) :
    checkChain P env db = .ok (checkReply P r) := by
  rw [checkChain, hall, ok_bind, hloop, ok_bind]
  cases r <;> rfl

theorem resultMinusOne_inj (hP : P.BoostExact) (h : resultMinusOne P b = resultMinusOne P c) :
    b.cut = c.cut := by
  simp only [resultMinusOne, Variant.object.injEq, List.cons.injEq, Prod.mk.injEq, true_and,
    and_true] at h
  have hread := Block.fromVariant_reread hP b b
  rw [h, Block.fromVariant_reread hP b c, Except.ok.injEq] at hread
  exact hread.symm

def Names (P : Platform) (env : Env) (db : Table) (c : Block) : Prop :=
  ∀ v, checkChain P env db = .ok v → v ≠ resultZero → v = resultMinusOne P c

theorem HonestChain.names_altered_iff (hP : P.BoostExact) (h : HonestChain P bs)
    (hrows : db.rows = bs.map (rowOf P)) (hb : bs[k]? = some b) (htrxs : c.trxs = b.trxs)
    (hsig : blankSignature ≠ c.sig) (hvalid : c.valid P = .ok false)
    (hok : env.sqlOk 0 = true) :
    Names P env (db.setJson k (c.toJson P)) c ↔ c.blkNum = 0 := by
  have hk := lt_of_getElem? hb
  have hcut : c.cut = c := by
    rw [Block.cut_eq_self, htrxs]
    exact h.small b (List.mem_of_getElem? hb)
  have hrep : Represents P bs (.down db) := .down h hrows
  have hall := hrep.getAllBlocks_setJson hP (k := k) (c := c) fun i => env.fresh (i + 1)
  rw [← hok, hcut] at hall
  have hreply : checkChain P env (db.setJson k (c.toJson P)) = _ :=
    checkChain_of_checkLoop hall (h.checkLoop_altered hk hvalid (env.fresh 0))
  rw [Names, hreply]
  by_cases hz : c.blkNum = 0
  · rw [if_neg (not_not.2 hz), iff_true_right hz]
    rintro v ⟨⟩ hzero
    split
    · rfl
    next hlast =>
      rw [if_neg hlast] at hzero
      exact absurd rfl hzero
  · rw [if_pos hz, iff_false_right hz]
    obtain ⟨prev, hprev⟩ : ∃ prev, (Block.new (env.fresh 0) :: bs)[k]? = some prev :=
      ⟨_, List.getElem?_eq_getElem (by rw [List.length_cons]; omega)⟩
    rw [hprev]
    intro hnames
    have hsame := resultMinusOne_inj hP (hnames _ rfl (by simp [resultMinusOne, resultZero]))
    rcases h.valid_before hk hprev with ⟨_, rfl, _⟩ | hv
    · exact hsig (congrArg Block.sig hsame)
    · rw [← (Block.valid_cut P prev).2, hsame, (Block.valid_cut P c).2, hvalid] at hv
      cases hv

/-- On a chain of which one header was changed, and the signature recovers to some other
key than the producer's, the check names that block exactly when its number is 0, or when
no row is read. -/
theorem altered_block_named_iff (hP : P.BoostExact) (h : HonestChain P bs)
    (hrows : db.rows = bs.map (rowOf P)) (hb : bs[k]? = some b) (htrxs : c.trxs = b.trxs)
    {key pub : PublicKey} (hrec : PublicKey.recover P c.sig (c.digest P) = .ok key)
    (hpub : PublicKey.ofStr P producerKeyStr = .ok pub) (hne : key ≠ pub) :
    Names P env (db.setJson k (c.toJson P)) c ↔ (env.sqlOk 0 = true → c.blkNum = 0) := by
  have hsig := ne_blank_of_recover hrec
  have hvalid := not_valid_of_recover hrec hpub hne
  by_cases hok : env.sqlOk 0 = true
  · rw [h.names_altered_iff hP hrows hb htrxs hsig hvalid hok, imp_iff_right hok]
  · refine iff_of_true (fun v hv hzero => absurd ?_ hzero) fun h => absurd h hok
    have hnone := (checks_of_sqlError P (db.setJson k (c.toJson P)) (Bool.not_eq_true _ ▸ hok)).1
    rw [hnone, Except.ok.injEq] at hv
    exact hv.symm

/-! ## The second of two blocks -/

namespace Sample

def nextShifted : Block := { nextBlock with timePoint := now + 1 }

/-- Whose key the signature of block 1 recovers to when its time is changed. -/
def stranger : PublicKey := ⟨.k1, vector 33
  0x0280f7b73d5d55e5490b42b4d03414d4ce0fdc3e0e8eb055835e492d26b8d45c54⟩

theorem recover_nextShifted : PublicKey.recover platform nextShifted.sig
    (nextShifted.digest platform) = .ok stranger := rfl

theorem stranger_ne : stranger ≠ ⟨.k1, producerKeyData⟩ := by
  decide

end Sample

theorem sample_altered_block_named :
    Names Sample.platform Sample.env
        (Sample.chainTable.setJson 1 (Sample.nextShifted.toJson Sample.platform))
        Sample.nextShifted ↔
      (Sample.env.sqlOk 0 = true → Sample.nextShifted.blkNum = 0) :=
  altered_block_named_iff Sample.boostExact Sample.twoBlocks rfl rfl rfl
    Sample.recover_nextShifted Sample.producerKey Sample.stranger_ne

/-- The time of block 1 was changed, and the check names block 0. -/
theorem sample_wrong_block_named :
    HonestChain Sample.platform [Sample.block, Sample.nextBlock] ∧
      Sample.chainTable.rows = [Sample.block, Sample.nextBlock].map (rowOf Sample.platform) ∧
      Sample.nextShifted = { Sample.nextBlock with timePoint := Sample.now + 1 } ∧
      PublicKey.recover Sample.platform Sample.nextShifted.sig
        (Sample.nextShifted.digest Sample.platform) = .ok Sample.stranger ∧
      Sample.stranger ≠ ⟨.k1, Sample.producerKeyData⟩ ∧
      checkChain Sample.platform Sample.env
          (Sample.chainTable.setJson 1 (Sample.nextShifted.toJson Sample.platform)) =
        .ok (resultMinusOne Sample.platform Sample.block) ∧
      resultMinusOne Sample.platform Sample.block ≠
        resultMinusOne Sample.platform Sample.nextShifted := by
  have hvalid := not_valid_of_recover Sample.recover_nextShifted Sample.producerKey
    Sample.stranger_ne
  have hcut : Sample.nextShifted.cut = Sample.nextShifted :=
    Block.cut_eq_self.2 fun _ ht => absurd ht List.not_mem_nil
  have hrep : Represents Sample.platform [Sample.block, Sample.nextBlock]
      (.down Sample.chainTable) := .down Sample.twoBlocks rfl
  have hall := hrep.getAllBlocks_setJson Sample.boostExact (k := 1)
    (c := Sample.nextShifted) fun i => Sample.env.fresh (i + 1)
  have hok : Sample.env.sqlOk 0 = true := rfl
  rw [← hok, hcut] at hall
  refine ⟨Sample.twoBlocks, rfl, rfl, Sample.recover_nextShifted, Sample.stranger_ne, ?_,
    fun h => ?_⟩
  · exact checkChain_of_checkLoop hall
      (Sample.twoBlocks.checkLoop_altered (by decide) hvalid (Sample.env.fresh 0))
  · have hsame := congrArg Block.timePoint (resultMinusOne_inj Sample.boostExact h)
    exact absurd hsame (by decide)

end SimpleBlockchain
