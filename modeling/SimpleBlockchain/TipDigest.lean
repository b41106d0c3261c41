import SimpleBlockchain.CheckChain

/-!
# The tip determines the history

The digest of the last block names its predecessor and, through the Merkle root,
its transactions, and neither encoding that is hashed is ambiguous.
-/

namespace SimpleBlockchain

open HashChain

/-- Blocks that agree in all but their signatures. -/
structure SameContents (b c : Block) : Prop where
  blkNum : b.blkNum = c.blkNum
  priorHash : b.priorHash = c.priorHash
  timePoint : b.timePoint = c.timePoint
  merkleRoot : b.merkleRoot = c.merkleRoot
  trxs : b.trxs = c.trxs

variable {P : Platform} {bs cs : List Block}

theorem HonestChain.sameContents (hbs : HonestChain P bs) (hcs : HonestChain P cs) {b c : Block}
    (hb : b ∈ bs) (hc : c ∈ cs)
    (hheader : P.sha256 b.header = P.sha256 c.header → b.header = c.header)
    (htrxs : ∀ x y, packVector Transaction.pack b.trxs = .ok x →
      packVector Transaction.pack c.trxs = .ok y → P.sha256 x = P.sha256 y → x = y)
    (hdigest : b.digest P = c.digest P) : SameContents b c := by
  obtain ⟨hnum, hprior, htime, hroot⟩ := Block.header_inj (hheader hdigest)
  obtain ⟨x, hx, hxroot⟩ := hbs.merkleRoot b hb
  obtain ⟨y, hy, hyroot⟩ := hcs.merkleRoot c hc
  have hpacked : x = y := htrxs x y hx hy (by rw [← hxroot, ← hyroot, hroot])
  have hcode := isPrefixCode_packVector Transaction.isPrefixCode_pack
  exact ⟨hnum, hprior, htime, hroot, hcode.injective hx (hpacked ▸ hy)⟩

/-- If two runs from an empty table end in blocks with the same digest, they have
stored the same number of blocks with the same contents. -/
theorem tip_digest_determines_chain (hP : P.BoostExact) {s s' : System} (h : Reachable P s)
    (h' : Reachable P s') {fresh fresh' : ℕ → Fresh}
    (hbs : getAllBlocks P s.db true fresh = .ok bs)
    (hcs : getAllBlocks P s'.db true fresh' = .ok cs)
    (hheader : ∀ b ∈ bs, ∀ c ∈ cs, P.sha256 b.header = P.sha256 c.header → b.header = c.header)
    (htrxs : ∀ b ∈ bs, ∀ c ∈ cs, ∀ x y, packVector Transaction.pack b.trxs = .ok x →
      packVector Transaction.pack c.trxs = .ok y → P.sha256 x = P.sha256 y → x = y)
    {b c : Block} (hb : bs.getLast? = some b) (hc : cs.getLast? = some c)
    (hdigest : b.digest P = c.digest P) :
    bs.length = cs.length ∧
      ∀ (i : ℕ) b' c', bs[i]? = some b' → cs[i]? = some c' → SameContents b' c' := by
  obtain ⟨bs', hrep⟩ := h.represents hP
  obtain ⟨cs', hrep'⟩ := h'.represents hP
  rw [hrep.getAllBlocks hP, Except.ok.injEq] at hbs
  rw [hrep'.getAllBlocks hP, Except.ok.injEq] at hcs
  subst hbs hcs
  refine hrep.honest.linked.agree_of_tip hrep'.honest.linked (fun b hb c hc hd => ?_)
    (fun b c hsame => hsame.priorHash) (fun b c hsame => by rw [hsame.blkNum]) hb hc hdigest
  exact hrep.honest.sameContents hrep'.honest hb hc (hheader b hb c hc) (htrxs b hb c hc) hd

theorem sample_tip_digest :
    [Sample.block, Sample.nextBlock].length = [Sample.block, Sample.nextBlock].length ∧
      ∀ (i : ℕ) b' c', [Sample.block, Sample.nextBlock][i]? = some b' →
        [Sample.block, Sample.nextBlock][i]? = some c' → SameContents b' c' := by
  refine tip_digest_determines_chain Sample.boostExact Sample.reachable_next
    (Sample.reachable_next.tail .stop) (Sample.getAllBlocks Sample.env.fresh)
    (Sample.getAllBlocks fun _ => ⟨0, 7⟩) ?_ ?_ (b := Sample.nextBlock) (c := Sample.nextBlock)
    rfl rfl rfl
  · exact fun b hb c hc h => congrArg Block.header (Sample.sha256_header hb hc h)
  · intro b hb c hc x y hx hy hxy
    obtain ⟨x', hx', hroot⟩ := Sample.twoBlocks.merkleRoot b hb
    obtain ⟨y', hy', hroot'⟩ := Sample.twoBlocks.merkleRoot c hc
    rw [hx, Except.ok.injEq] at hx'
    rw [hy, Except.ok.injEq] at hy'
    subst hx' hy'
    rcases List.mem_pair.1 hb with rfl | rfl <;> rcases List.mem_pair.1 hc with rfl | rfl
    · exact Except.ok.inj (hx.symm.trans hy)
    · exact absurd (hroot.trans (hxy.trans hroot'.symm)) (by decide)
    · exact absurd (hroot.trans (hxy.trans hroot'.symm)) (by decide)
    · exact Except.ok.inj (hx.symm.trans hy)

end SimpleBlockchain
