import SimpleBlockchain.CheckChain
import SimpleBlockchain.PublishFailure

/-!
# The first publish after a restart

A startup takes the row numbered one less than the count of the rows for the tip,
whatever rows there are, and the first publish builds on that block only if its
signature verifies. This module says for which tables that continues the chain.
-/

namespace SimpleBlockchain

open HashChain

/-! ## What a restart should do -/

/-- The appended row is numbered one more than the greatest, and its block, which is
not a second block 0, names the digest of the block that stands there. -/
def Continues (P : Platform) (f : Fresh) (db db' : Table) : Prop :=
  ∃ row b lastRow last, db'.rows = db.rows ++ [row] ∧ Block.ofJson P f row.json = .ok b ∧
    lastRow ∈ db.rows ∧ (∀ r ∈ db.rows, r.id ≤ lastRow.id) ∧
    Block.ofJson P f lastRow.json = .ok last ∧
    row.id = lastRow.id + 1 ∧ b.blkNum ≠ 0 ∧ b.priorHash = last.digest P

/-- A publish that succeeds continues the chain, and any other reports an error and
changes nothing. -/
def ContinuesOrFails (P : Platform) (f : Fresh) (node : Node) (o : Outcome) : Prop :=
  (∃ v, .ok v ∈ o.answered.replies) ∧ Continues P f node.db o.node.db ∨ Atomic node o

def Call.published (c : Call) (o : Outcome) : Prop :=
  match c with
  | .publish _ => ∃ v, .ok v ∈ o.answered.replies
  | _ => False

/-- The nodes that are reached before the first publish that replies with success. -/
inductive Waits (P : Platform) (start : Node) : Node → Prop
  | refl : Waits P start start
  | call {node env} (c : Call) : Waits P start node → ¬ c.published (node.call P env c) →
      Waits P start (node.call P env c).node

/-! ## When it does -/

/-- There is a row for startup to read, unless it finds none to count or throws. -/
def FindsRow (P : Platform) (env : Env) (db : Table) : Prop :=
  (∃ e, Buffer.new P (env.fresh 0) = .error e) ∨ getBlockCount db (env.sqlOk 0) = 0 ∨
    (env.sqlOk 1 = true ∧
      sqliteInteger (getBlockCount db (env.sqlOk 0) - 1) ∈ db.rows.map Row.id)

/-- The block that a node builds on has a valid signature, the number of the last row
as sqlite counts, and the digest of the block in the last row. -/
def TipIsLast (P : Platform) (f : Fresh) (db : Table) (tip : Block) : Prop :=
  tip.valid P = .ok true ∧ tip.blkNum + 1 ≠ 0 ∧
    ∃ lastRow last, lastRow ∈ db.rows ∧ (∀ r ∈ db.rows, r.id ≤ lastRow.id) ∧
      Block.ofJson P f lastRow.json = .ok last ∧
      sqliteInteger (tip.blkNum + 1) = lastRow.id + 1 ∧ tip.digest P = last.digest P

section Restart

variable {P : Platform} {env : Env} {db : Table}

theorem pluginStartup_defined_iff :
    pluginStartup P env db ≠ .undefinedBehaviour ↔ FindsRow P env db := by
  rw [pluginStartup, FindsRow]
  cases hnew : Buffer.new P (env.fresh 0) with
  | error e => simp
  | ok buf =>
      by_cases hcount : 0 < getBlockCount db (env.sqlOk 0)
      · have hne : getBlockCount db (env.sqlOk 0) ≠ 0 := UInt64.pos_iff_ne_zero.1 hcount
        simp only [hcount, hne, if_true, reduceCtorEq, exists_false, false_or]
        by_cases hid : sqliteInteger (getBlockCount db (env.sqlOk 0) - 1) ∈ db.rows.map Row.id
        · cases hok : env.sqlOk 1 with
          | false => simp [getBlock]
          | true =>
              obtain ⟨row, hrow, hrowid⟩ := List.mem_map.1 hid
              rw [getBlock_of_mem P hrow hrowid]
              cases Block.ofJson P (env.fresh 1) row.json <;> simp [Except.map, hid]
        · simp [getBlock_of_not_mem P hid, hid]
      · have hzero : getBlockCount db (env.sqlOk 0) = 0 := by
          by_contra hne
          exact hcount (UInt64.pos_iff_ne_zero.2 hne)
        simp [hzero]

theorem publishBlk_not_published {node : Node} {next : NextFunction Variant}
    (h : ¬ (Call.publish next).published (publishBlk P env next node)) :
    (publishBlk P env next node).node = node := by
  rcases publishBlk_cases P env next node with ⟨e, _, heq⟩ | ⟨b, valid, hb, heq⟩
  · rw [heq]
  · refine absurd ⟨operationComplete, ?_⟩ h
    rw [heq]
    exact List.mem_of_mem_head? (head_replies_ok next operationComplete)

theorem Waits.unchanged {start node : Node} (h : Waits P start node) :
    node.db = start.db ∧ node.buf.lastBlock = start.buf.lastBlock := by
  induction h with
  | refl => exact ⟨rfl, rfl⟩
  | @call node env c _ hc ih =>
      cases c with
      | push p next =>
          rcases pushTransaction_cases P next node p with ⟨_, heq⟩ | ⟨_, e, heq⟩
          · rw [Node.call, heq]
            exact ih
          · rwa [Node.call, heq]
      | publish next => rwa [Node.call, publishBlk_not_published hc]
      | getInfo => exact ih
      | getBlock blkNum => exact ih
      | getBlocks blkNums => exact ih
      | checkChain => exact ih

theorem id_not_mem_of_greatest {lastRow : Row} (h : ∀ r ∈ db.rows, r.id ≤ lastRow.id) :
    lastRow.id + 1 ∉ db.rows.map Row.id := by
  intro hmem
  obtain ⟨r, hr, hid⟩ := List.mem_map.1 hmem
  have := h r hr
  omega

theorem Built.continues_iff (hP : P.BoostExact) {f f' : Fresh} {buf : Buffer} {valid : Bool}
    {b : Block} (hb : Built P f' buf valid b) (ok : Bool) :
    Continues P f db (appendBlock P db ok b).1 ↔
      ok = true ∧ TipIsLast P f db buf.lastBlock := by
  constructor
  · rintro ⟨row, b', lastRow, last, hrows, hjson, hlast, hmax, hlastJson, hid, hnum, hprior⟩
    have hrc : (appendBlock P db ok b).2 = true := by
      by_contra hrc
      rw [Bool.not_eq_true] at hrc
      rw [appendBlock, Table.insert_failed hrc] at hrows
      have hlen := congrArg List.length hrows
      simp at hlen
    obtain ⟨hok, _, hrows'⟩ := Table.insert_ok hrc
    rw [← appendBlock, hrows, List.append_cancel_left_eq, List.cons.injEq] at hrows'
    obtain ⟨rfl, _⟩ := hrows'
    rw [Block.ofJson_toJson hP, Except.ok.injEq] at hjson
    subst hjson
    cases valid with
    | false => exact absurd hb.blkNum_eq hnum
    | true =>
        have hnum' : b.blkNum = buf.lastBlock.blkNum + 1 := hb.blkNum_eq
        have hprior' : b.priorHash = buf.lastBlock.digest P := hb.priorHash_eq
        refine ⟨hok, hb.valid_eq, hnum' ▸ hnum, lastRow, last, hlast, hmax, hlastJson, ?_, ?_⟩
        · rw [← hnum']
          exact hid
        · rw [← hprior']
          exact hprior
  · rintro ⟨rfl, hvalid, hnum, lastRow, last, hlast, hmax, hlastJson, hid, hdigest⟩
    have hv := hb.valid_eq
    rw [hvalid, Except.ok.injEq] at hv
    subst hv
    have hnum' : b.blkNum = buf.lastBlock.blkNum + 1 := hb.blkNum_eq
    have hprior' : b.priorHash = buf.lastBlock.digest P := hb.priorHash_eq
    rw [← hnum'] at hnum hid
    have hfree : sqliteInteger b.blkNum ∉ db.rows.map Row.id := by
      rw [hid]
      exact id_not_mem_of_greatest hmax
    have hrc : (appendBlock P db true b).2 = true := Table.insert_of_free hfree
    have hrows := (Table.insert_ok hrc).2.2
    exact ⟨_, b.cut, lastRow, last, hrows, Block.ofJson_toJson hP f b, hlast, hmax, hlastJson, hid,
      hnum, hprior'.trans hdigest⟩

theorem publishBlk_continuesOrFails_iff (hP : P.BoostExact) (f : Fresh) (node : Node)
    (next : NextFunction Variant) :
    ContinuesOrFails P f node (publishBlk P env next node) ↔
      (∃ e, node.buf.buildBlock P (env.fresh 0) = .error e) ∨
        (env.sqlOk 0 = true ∧ TipIsLast P f node.db node.buf.lastBlock) := by
  cases hbuild : node.buf.buildBlock P (env.fresh 0) with
  | error e =>
      have hatomic : Atomic node (publishBlk P env next node) := by
        rw [publishBlk_of_error hbuild]
        exact ⟨⟨e, rfl⟩, rfl⟩
      exact ⟨fun _ => Or.inl ⟨e, rfl⟩, fun _ => Or.inr hatomic⟩
  | ok r =>
      obtain ⟨buf, b⟩ := r
      obtain ⟨_, valid, hb⟩ := buildBlock_cases hbuild
      have hdb : (publishBlk P env next node).node.db =
          (appendBlock P node.db (env.sqlOk 0) b).1 := by
        rw [publishBlk_of_build hbuild]
      have hhead : (publishBlk P env next node).answered.replies.head? =
          some (.ok operationComplete) := by
        rw [publishBlk_of_build hbuild]
        exact head_replies_ok next operationComplete
      rw [ContinuesOrFails, hdb, hb.continues_iff hP]
      constructor
      · rintro (⟨_, htip⟩ | ⟨⟨e, hreplies⟩, _⟩)
        · exact Or.inr htip
        · rw [hreplies] at hhead
          cases hhead
      · rintro (⟨e, he⟩ | htip)
        · cases he
        · exact Or.inl ⟨⟨_, List.mem_of_mem_head? hhead⟩, htip⟩

/-- Startup never uses a missing row exactly when it finds the one that it looks for,
and after it the first successful publish continues the chain, with no effect of the
others, exactly when the tip that was read is the last block of the table. -/
theorem restart_continues_iff (hP : P.BoostExact) (env₀ : Env) (db : Table) :
    (pluginStartup P env₀ db ≠ .undefinedBehaviour ↔ FindsRow P env₀ db) ∧
    ∀ buf, pluginStartup P env₀ db = .started buf → ∀ node, Waits P ⟨buf, db⟩ node →
      ∀ env next, ContinuesOrFails P (env₀.fresh 1) node (publishBlk P env next node) ↔
        (∃ e, node.buf.buildBlock P (env.fresh 0) = .error e) ∨
          (env.sqlOk 0 = true ∧ TipIsLast P (env₀.fresh 1) db buf.lastBlock) := by
  refine ⟨pluginStartup_defined_iff, fun buf _ node hnode env next => ?_⟩
  obtain ⟨hdb, htip⟩ := hnode.unchanged
  rw [publishBlk_continuesOrFails_iff hP, hdb, htip]

end Restart

/-- A table whose last number was skipped has as many rows as the number that is missing. -/
theorem pluginStartup_gap {P : Platform} {env : Env} {db : Table} {n : ℕ}
    (hids : db.rows.map Row.id = (List.range n).map Nat.cast ++ [(n + 1 : ℤ)]) (hn : n < 2 ^ 63)
    (hkeys : ∀ e, Buffer.new P (env.fresh 0) ≠ .error e) (hok : env.sqlOk 0 = true) :
    pluginStartup P env db = .undefinedBehaviour := by
  have hlength : db.rows.length = n + 1 := by
    rw [← List.length_map, hids, List.length_append, List.length_map, List.length_range,
      List.length_singleton]
  have hcount : (getBlockCount db true).toNat = n + 1 := by
    rw [getBlockCount, if_pos rfl, hlength]
    exact UInt64.toNat_ofNat_of_lt' (by rw [UInt64.size]; omega)
  have hone : 1 ≤ getBlockCount db true := by
    rw [UInt64.le_iff_toNat_le, hcount]
    exact Nat.le_add_left 1 n
  have hpred : (getBlockCount db true - 1).toNat = n := by
    rw [UInt64.toNat_sub_of_le _ _ hone, hcount]
    rfl
  by_contra hdefined
  rcases pluginStartup_defined_iff.1 hdefined with ⟨e, he⟩ | hzero | ⟨_, hmem⟩
  · exact hkeys e he
  · rw [hok] at hzero
    rw [hzero] at hcount
    cases hcount
  · rw [hok, hids, sqliteInteger_eq (by omega), hpred] at hmem
    rcases List.mem_append.1 hmem with hmem | hmem
    · simp at hmem
    · have := List.mem_singleton.1 hmem
      omega

/-! ## Chains that the node wrote -/

theorem HonestChain.tipIsLast {P : Platform} {bs : List Block} (hP : P.BoostExact)
    (h : HonestChain P bs) {db : Table} (hrows : db.rows = bs.map (rowOf P)) {b : Block}
    (hb : bs.getLast? = some b) (hvalid : b.valid P = .ok true) (hlen : bs.length ≤ 2 ^ 63)
    (f : Fresh) : TipIsLast P f db b := by
  have hget := hb
  rw [List.getLast?_eq_getElem?] at hget
  have hlt := lt_of_getElem? hget
  have hnum := h.blkNum_eq hget
  have hsucc : (b.blkNum + 1).toNat = bs.length := by
    rw [UInt64.toNat_add, hnum, UInt64.toNat_one]
    omega
  have hne : b.blkNum + 1 ≠ 0 := by
    intro hzero
    rw [hzero, UInt64.toNat_zero] at hsucc
    omega
  refine ⟨hvalid, hne, rowOf P b, b, ?_, ?_, h.ofJson hP (List.mem_of_getLast? hb) f, ?_, rfl⟩
  · rw [hrows]
    exact List.mem_map_of_mem (List.mem_of_getLast? hb)
  · intro r hr
    rw [hrows] at hr
    obtain ⟨c, hc, rfl⟩ := List.mem_map.1 hr
    obtain ⟨i, hi⟩ := List.mem_iff_getElem?.1 hc
    have hci := h.blkNum_eq hi
    have := lt_of_getElem? hi
    simp only [rowOf]
    omega
  · rw [sqliteInteger_eq (by omega), hsucc]
    simp only [rowOf, hnum]
    omega

/-- In a run in which every statement succeeds, a node with a block in its table only
ever continues its chain. -/
theorem Reachable.continuesOrFails {P : Platform} (hP : P.BoostExact) (hsign : P.ProducerSigns)
    {node : Node} (h : Reachable P (.up node)) (hne : node.db.rows ≠ [])
    (hlen : node.db.rows.length ≤ 2 ^ 63) (f : Fresh) {env : Env} (hok : env.sqlOk 0 = true)
    (next : NextFunction Variant) :
    ContinuesOrFails P f node (publishBlk P env next node) := by
  obtain ⟨bs, hbs⟩ := h.represents hP
  have hrows : node.db.rows = bs.map (rowOf P) := hbs.rows
  have hnil : bs ≠ [] := by
    rintro rfl
    exact hne hrows
  rw [hrows, List.length_map] at hlen
  have hlast := List.getLast?_eq_some_getLast hnil
  have hvalid := valid_of_signed hsign (hbs.honest.signed _ (List.getLast_mem hnil))
  apply (publishBlk_continuesOrFails_iff hP f node next).2
  refine Or.inr ⟨hok, ?_⟩
  cases hbs with
  | up hhonest _ hf =>
      rw [hf.tip _ hlast]
      exact hhonest.tipIsLast hP hrows hlast hvalid hlen f

theorem HonestChain.built_blkNum {P : Platform} (hsign : P.ProducerSigns) {bs : List Block}
    (h : HonestChain P bs) {buf : Buffer} (hf : Follows P bs buf) {f : Fresh} {valid : Bool}
    {b : Block} (hb : Built P f buf valid b) : b.blkNum.toNat = bs.length := by
  have hv := hb.valid_eq
  have hnum := hb.blkNum_eq
  cases hl : bs.getLast? with
  | none =>
      have hnil := List.getLast?_eq_none_iff.1 hl
      obtain ⟨f₀, hblank⟩ := hf.noTip hnil
      rw [hblank, valid_of_blank rfl, Except.ok.injEq] at hv
      subst hv
      rw [hnum, hnil]
      rfl
  | some l =>
      have hvalid := valid_of_signed hsign (h.signed l (List.mem_of_getLast? hl))
      rw [hf.tip l hl, hvalid, Except.ok.injEq] at hv
      subst hv
      rw [List.getLast?_eq_getElem?] at hl
      have hlt := lt_of_getElem? hl
      have hlen := h.length_le
      have hlnum := h.blkNum_eq hl
      rw [hf.tip l (by rw [List.getLast?_eq_getElem?, hl])] at hnum
      rw [hnum, if_pos rfl, UInt64.toNat_add, hlnum, UInt64.toNat_one]
      omega

/-- After an INSERT that failed and one that did not, the table of a running node has
a gap, and no node starts on it any more. -/
theorem Reachable.startup_after_failure {P : Platform} (hP : P.BoostExact)
    (hsign : P.ProducerSigns) {node : Node} (h : Reachable P (.up node))
    (hlen : node.db.rows.length < 2 ^ 63) {env₁ env₂ : Env} {next₁ next₂ : NextFunction Variant}
    (hfailed : (publishBlk P env₁ next₁ node).rcs = [false])
    (hstored : (publishBlk P env₂ next₂ (publishBlk P env₁ next₁ node).node).rcs = [true])
    {env : Env} (hkeys : ∀ e, Buffer.new P (env.fresh 0) ≠ .error e) (hok : env.sqlOk 0 = true) :
    pluginStartup P env
      (publishBlk P env₂ next₂ (publishBlk P env₁ next₁ node).node).node.db =
        .undefinedBehaviour := by
  obtain ⟨bs, hbs⟩ := h.represents hP
  have hhonest := hbs.honest
  have hrows : node.db.rows = bs.map (rowOf P) := hbs.rows
  have hf : Follows P bs node.buf := by
    cases hbs with
    | up _ _ hf => exact hf
  rw [hrows, List.length_map] at hlen
  obtain ⟨b₁, valid₁, hb₁, _, hnode₁⟩ := publishBlk_failed hfailed
  have hnum₁ := hhonest.built_blkNum hsign hf hb₁
  have hvalid₁ : b₁.valid P = .ok true := valid_of_signed hsign ⟨_, hf.privateKey, hb₁.sig_eq⟩
  rw [hnode₁] at hstored ⊢
  rcases publishBlk_cases P env₂ next₂ _ with ⟨e, _, heq⟩ | ⟨b₂, valid₂, hb₂, heq⟩
  · rw [heq] at hstored
    cases hstored
  rw [heq, List.cons.injEq] at hstored
  obtain ⟨_, _, hrows₂⟩ := Table.insert_ok hstored.1
  have hv := hb₂.valid_eq
  rw [hvalid₁, Except.ok.injEq] at hv
  subst hv
  have hnum₂ : b₂.blkNum.toNat = bs.length + 1 := by
    have hsucc : b₂.blkNum = b₁.blkNum + 1 := hb₂.blkNum_eq
    rw [hsucc, UInt64.toNat_add, hnum₁, UInt64.toNat_one]
    omega
  have hids : (appendBlock P node.db (env₂.sqlOk 0) b₂).1.rows.map Row.id =
      (List.range bs.length).map Nat.cast ++ [(bs.length + 1 : ℤ)] := by
    rw [appendBlock, hrows₂, List.map_append, hhonest.ids hrows, List.map_singleton,
      sqliteInteger_eq (by omega), hnum₂]
    rfl
  rw [heq]
  exact pluginStartup_gap hids hlen hkeys hok

/-! ## On the sample platform -/

namespace Sample

theorem honestChain : HonestChain platform [block] := by
  obtain ⟨bs, hbs⟩ := reachable.represents boostExact
  have hids : (table.rows.map Row.id).Pairwise (· < ·) := by
    rw [rows_table]
    exact List.pairwise_singleton _ _
  have hjson : table.rows.map Row.json = [block].map (Block.toJson platform) := by
    rw [rows_table]
    rfl
  have hcut : block.cut = block := Block.cut_eq_self.2 (twoBlocks.small block List.mem_cons_self)
  have hall := hbs.getAllBlocks boostExact fun _ => ⟨0, 0⟩
  rw [System.db, getAllBlocks_of_json boostExact _ hids hjson, List.map_singleton, hcut,
    Except.ok.injEq] at hall
  exact hall ▸ hbs.honest

theorem restart : pluginStartup platform env table = .started bufAfter := by
  have hrows : table.rows = [block].map (rowOf platform) := rows_table
  rw [honestChain.pluginStartup boostExact hrows env_succeeds, new_buffer]
  rfl

def gapTable : Table where
  rows := [rowOf platform block, { rowOf platform block with id := 2 }]
  primaryKey := by
    have hids : [rowOf platform block, { rowOf platform block with id := 2 }].map Row.id =
        [0, 2] := rfl
    rw [hids]
    decide

theorem restart_gap : pluginStartup platform env gapTable = .undefinedBehaviour := by
  have hids : gapTable.rows.map Row.id = (List.range 1).map Nat.cast ++ [((1 : ℕ) + 1 : ℤ)] := rfl
  refine pluginStartup_gap hids (by decide) (fun e he => ?_) rfl
  rw [new_buffer] at he
  cases he

end Sample

theorem sample_restart_continues :
    (pluginStartup Sample.platform Sample.env Sample.table ≠ .undefinedBehaviour ↔
      FindsRow Sample.platform Sample.env Sample.table) ∧
    (ContinuesOrFails Sample.platform (Sample.env.fresh 1) ⟨Sample.bufAfter, Sample.table⟩
        (publishBlk Sample.platform Sample.env Sample.next ⟨Sample.bufAfter, Sample.table⟩) ↔
      (∃ e, Sample.bufAfter.buildBlock Sample.platform (Sample.env.fresh 0) = .error e) ∨
        (Sample.env.sqlOk 0 = true ∧
          TipIsLast Sample.platform (Sample.env.fresh 1) Sample.table Sample.block)) := by
  obtain ⟨hstart, hpublish⟩ :=
    restart_continues_iff Sample.boostExact Sample.env Sample.table
  exact ⟨hstart, hpublish _ Sample.restart _ .refl _ _⟩

/-- A table that is not empty, on which startup dereferences an empty optional. -/
theorem sample_restart_gap :
    Sample.gapTable.rows.map Row.id = [0, 2] ∧ Sample.env.Succeeds ∧
      ¬ FindsRow Sample.platform Sample.env Sample.gapTable ∧
      pluginStartup Sample.platform Sample.env Sample.gapTable = .undefinedBehaviour := by
  refine ⟨rfl, Sample.env_succeeds, fun h => ?_, Sample.restart_gap⟩
  exact pluginStartup_defined_iff.2 h Sample.restart_gap

end SimpleBlockchain
