import SimpleBlockchain.ChainInvariant

/-!
# The chain check

The check walks over the decoded rows with the previous row in hand. A row whose
own number is 0 passes unseen, and no row is compared with the transactions that
its Merkle root stands for.
-/

namespace SimpleBlockchain

open HashChain

variable {P : Platform}

/-! ## The loop -/

def Passes (P : Platform) (checkBlk idx : Block) : Prop :=
  idx.blkNum = 0 ∨ idx.checkBlock P checkBlk = .ok true

theorem checkBlock_eq_true {b prior : Block} : b.checkBlock P prior = .ok true ↔
    prior.valid P = .ok true ∧ b.valid P = .ok true ∧ prior.digest P = b.priorHash := by
  unfold Block.checkBlock
  cases prior.valid P with
  | error e => simp
  | ok priorValid =>
      cases priorValid with
      | false => simp
      | true =>
          cases b.valid P with
          | error e => simp
          | ok thisValid => cases thisValid <;> simp

theorem checkLoop_eq_none {checkBlk : Block} {blocks : List Block} :
    checkLoop P checkBlk blocks = .ok none ↔ List.IsChain (Passes P) (checkBlk :: blocks) := by
  induction blocks generalizing checkBlk with
  | nil => simp [checkLoop]
  | cons idx blocks ih =>
      rw [List.isChain_cons_cons, checkLoop, Passes]
      by_cases hz : idx.blkNum = 0
      · rw [if_pos hz, ih]
        exact (and_iff_right (Or.inl hz)).symm
      · rw [if_neg hz]
        cases idx.checkBlock P checkBlk with
        | error e => simp [hz]
        | ok passed => cases passed <;> simp [hz, ih]

/-- A default-constructed block is nobody's predecessor. -/
theorem passes_new {f : Fresh} {idx : Block} : Passes P (Block.new f) idx ↔ idx.blkNum = 0 := by
  refine or_iff_left fun h => ?_
  have hvalid := (checkBlock_eq_true.1 h).1
  rw [valid_of_blank rfl] at hvalid
  cases hvalid

theorem checkLoop_new {f : Fresh} {blocks : List Block} :
    checkLoop P (Block.new f) blocks = .ok none ↔
      (∀ b, blocks[0]? = some b → b.blkNum = 0) ∧
      ∀ (i : ℕ) b c, blocks[i]? = some b → blocks[i + 1]? = some c → Passes P b c := by
  rw [checkLoop_eq_none, isChain_cons_iff_getElem?]
  simp only [passes_new]

/-! ## The two checks -/

variable {env : Env} {db : Table} {blocks : List Block}

theorem checkChain_eq_resultZero
    (h : getAllBlocks P db (env.sqlOk 0) (fun i => env.fresh (i + 1)) = .ok blocks) :
    checkChain P env db = .ok resultZero ↔
      checkLoop P (Block.new (env.fresh 0)) blocks = .ok none := by
  rw [checkChain, h, ok_bind]
  cases checkLoop P (Block.new (env.fresh 0)) blocks with
  | error e => simp
  | ok r => cases r <;> simp [resultZero]

theorem toolCheckChain_eq_true
    (h : getAllBlocks P db (env.sqlOk 0) (fun i => env.fresh (i + 1)) = .ok blocks) :
    toolCheckChain P env db = .ok true ↔
      checkLoop P (Block.new (env.fresh 0)) blocks = .ok none := by
  rw [toolCheckChain, h, ok_bind]
  cases checkLoop P (Block.new (env.fresh 0)) blocks with
  | error e => simp
  | ok r => cases r <;> simp

theorem checks_of_sqlError (P : Platform) (db : Table) (h : env.sqlOk 0 = false) :
    checkChain P env db = .ok resultZero ∧ toolCheckChain P env db = .ok true := by
  have hall : getAllBlocks P db (env.sqlOk 0) (fun i => env.fresh (i + 1)) = .ok [] := by
    rw [getAllBlocks, if_neg (by simp [h])]
  exact ⟨(checkChain_eq_resultZero hall).2 rfl, (toolCheckChain_eq_true hall).2 rfl⟩

/-! ## Honest chains pass -/

variable {bs : List Block} {s : System}

theorem HonestChain.ids_pairwise (h : HonestChain P bs) (hrows : db.rows = bs.map (rowOf P)) :
    (db.rows.map Row.id).Pairwise (· < ·) := by
  rw [h.ids hrows, List.pairwise_map]
  exact List.pairwise_lt_range.imp fun hlt => Int.ofNat_lt.2 hlt

theorem HonestChain.map_cut (h : HonestChain P bs) : bs.map Block.cut = bs := by
  rw [List.map_congr_left (f := Block.cut) (g := id)
    fun b hb => Block.cut_eq_self.2 (h.small b hb), List.map_id]

theorem Represents.getAllBlocks (hP : P.BoostExact) (h : Represents P bs s) (fresh : ℕ → Fresh) :
    getAllBlocks P s.db true fresh = .ok bs := by
  have hjson : s.db.rows.map Row.json = bs.map (Block.toJson P) := by
    rw [h.rows, List.map_map]
    rfl
  rw [getAllBlocks_of_json hP fresh (h.honest.ids_pairwise h.rows) hjson, h.honest.map_cut]

theorem HonestChain.passes (h : HonestChain P bs) {i : ℕ} {b c : Block} (hb : bs[i]? = some b)
    (hc : bs[i + 1]? = some c) (hv : c.valid P = .ok true) : Passes P b c := by
  refine Or.inr (checkBlock_eq_true.2 ⟨h.valid i b (lt_of_getElem? hc) hb, hv, ?_⟩)
  exact (h.linked.prior_succ i b c hb hc).symm

theorem HonestChain.blkNum_zero (h : HonestChain P bs) {b : Block} (hb : bs[0]? = some b) :
    b.blkNum = 0 :=
  UInt64.toNat_inj.1 (h.blkNum_eq hb)

/-- Neither check raises an alarm on a table that the node itself wrote. -/
theorem reachable_checks_pass (hP : P.BoostExact) (hsign : P.ProducerSigns)
    (h : Reachable P s) (env : Env) :
    checkChain P env s.db = .ok resultZero ∧ toolCheckChain P env s.db = .ok true := by
  obtain ⟨bs, hbs⟩ := h.represents hP
  have hhonest := hbs.honest
  cases hok : env.sqlOk 0 with
  | false => exact checks_of_sqlError P s.db hok
  | true =>
      have hall := hbs.getAllBlocks hP fun i => env.fresh (i + 1)
      rw [← hok] at hall
      rw [checkChain_eq_resultZero hall, toolCheckChain_eq_true hall, and_self_iff, checkLoop_new]
      refine ⟨fun b => hhonest.blkNum_zero, fun i b c hb hc => hhonest.passes hb hc ?_⟩
      exact valid_of_signed hsign (hhonest.signed c (List.mem_of_getElem? hc))

theorem sample_checks_pass :
    checkChain Sample.platform Sample.env Sample.chainTable = .ok resultZero ∧
      toolCheckChain Sample.platform Sample.env Sample.chainTable = .ok true :=
  reachable_checks_pass Sample.boostExact Sample.producerSigns Sample.reachable_next Sample.env

/-! ## Deleted and reordered blocks -/

theorem walks_of_checkLoop {blocks : List Block} {f : Fresh}
    (hloop : checkLoop P (Block.new f) blocks = .ok none) :
    Walks (fun b : Block => b.blkNum.toNat) Block.priorHash (Block.digest P) blocks := by
  obtain ⟨hzero, hsucc⟩ := checkLoop_new.1 hloop
  refine ⟨fun c hc => by rw [hzero c hc]; rfl, fun i b c hb hc => ?_⟩
  rcases hsucc i b c hb hc with hz | hcheck
  · exact Or.inl (by rw [hz]; rfl)
  · exact Or.inr (checkBlock_eq_true.1 hcheck).2.2.symm

/-- What passes the loop, of blocks drawn from a stored chain without repetition,
is a beginning of that chain. -/
theorem checkLoop_selection_prefix (hP : P.BoostExact) (h : Reachable P s) {fresh : ℕ → Fresh}
    (hbs : getAllBlocks P s.db true fresh = .ok bs)
    (hcoll : ∀ b ∈ bs, ∀ c ∈ bs, P.sha256 b.header = P.sha256 c.header → b.header = c.header)
    {blocks : List Block} (hsub : ∀ b ∈ blocks, b ∈ bs) (hnodup : blocks.Nodup) {f : Fresh}
    (hloop : checkLoop P (Block.new f) blocks = .ok none) :
    ∃ k ≤ bs.length, blocks = bs.take k := by
  obtain ⟨bs', hbs'⟩ := h.represents hP
  rw [hbs'.getAllBlocks hP, Except.ok.injEq] at hbs
  subst hbs
  have hwalks := walks_of_checkLoop hloop
  have hnumber : ∀ b ∈ bs', ∀ c ∈ bs', b.digest P = c.digest P →
      b.blkNum.toNat = c.blkNum.toNat := by
    intro b hb c hc hd
    rw [(Block.header_inj (hcoll b hb c hc hd)).1]
  have hbegins := hbs'.honest.linked.prefix_of_walks hnumber hsub hnodup hwalks
  exact ⟨blocks.length, hbegins.length_le, List.prefix_iff_eq_take.1 hbegins⟩

namespace Sample

theorem getAllBlocks (fresh : ℕ → Fresh) :
    SimpleBlockchain.getAllBlocks platform chainTable true fresh = .ok [block, nextBlock] :=
  (Represents.down twoBlocks rfl).getAllBlocks boostExact fresh

theorem digest_ne : block.digest platform ≠ nextBlock.digest platform := by
  rw [digest_block, digest_nextBlock]
  decide

theorem sha256_header {b c : Block} (hb : b ∈ [block, nextBlock]) (hc : c ∈ [block, nextBlock])
    (h : platform.sha256 b.header = platform.sha256 c.header) : b = c := by
  rcases List.mem_pair.1 hb with rfl | rfl <;> rcases List.mem_pair.1 hc with rfl | rfl
  · rfl
  · exact absurd h digest_ne
  · exact absurd h.symm digest_ne
  · rfl

end Sample

/-- The second of the two blocks was deleted. -/
theorem sample_selection_prefix : ∃ k ≤ [Sample.block, Sample.nextBlock].length,
    [Sample.block] = [Sample.block, Sample.nextBlock].take k :=
  checkLoop_selection_prefix Sample.boostExact Sample.reachable_next
    (f := ⟨Sample.now, 7⟩) (Sample.getAllBlocks Sample.env.fresh)
    (fun _ hb _ hc h => congrArg Block.header (Sample.sha256_header hb hc h))
    (List.forall_mem_singleton.2 List.mem_cons_self) (List.nodup_singleton _) rfl

end SimpleBlockchain
