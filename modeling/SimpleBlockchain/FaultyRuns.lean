import SimpleBlockchain.AdmittedTrxs
import SimpleBlockchain.Conservation
import SimpleBlockchain.Restart

/-!
# Runs in which statements fail

The node logs a failed `INSERT` and goes on with the block as its tip. So the chain that it
builds in memory stays whole, and the table holds some of it.
-/

namespace SimpleBlockchain

open HashChain

/-! ## The table -/

inductive AnyStep (P : Platform) : System → System → Prop
  | start {db env buf} : pluginStartup P env db = .started buf →
      AnyStep P (.down db) (.up ⟨buf, db⟩)
  | call {node env} (c : Call) : AnyStep P (.up node) (.up (node.call P env c).node)
  | stop {node} : AnyStep P (.up node) (.down node.db)

variable {P : Platform} {bs : List Block}

theorem Step.any {s s' : System} (h : Step P s s') : AnyStep P s s' := by
  cases h with
  | start _ hstart => exact .start hstart
  | call c _ _ => exact .call c
  | stop => exact .stop

theorem Reachable.any {s : System} (h : Reachable P s) :
    Relation.ReflTransGen (AnyStep P) (.down .empty) s := by
  induction h with
  | refl => exact .refl
  | tail _ hstep ih => exact ih.tail hstep.any

theorem insert_extends (t : Table) (ok : Bool) (row : Row) :
    t.rows <+: (t.insert ok row).1.rows := by
  cases h : (t.insert ok row).2 with
  | false =>
      rw [Table.insert_failed h]
  | true =>
      rw [(Table.insert_ok h).2.2]
      exact List.prefix_append t.rows [row]

theorem Node.call_extends (env : Env) (node : Node) (c : Call) :
    node.db.rows <+: (node.call P env c).node.db.rows := by
  cases c with
  | push p next =>
      rcases pushTransaction_cases P next node p with ⟨_, heq⟩ | ⟨_, e, heq⟩
      · rw [Node.call, heq]
      · rw [Node.call, heq]
  | publish next =>
      rcases publishBlk_cases P env next node with ⟨e, _, heq⟩ | ⟨b, valid, _, heq⟩
      · rw [Node.call, heq]
      · rw [Node.call, heq]
        exact insert_extends node.db (env.sqlOk 0) _
  | _ => exact List.prefix_rfl

theorem AnyStep.extends {s s' : System} (h : AnyStep P s s') : s.db.rows <+: s'.db.rows := by
  cases h with
  | start => exact List.prefix_rfl
  | @call node env c => exact Node.call_extends env node c
  | stop => exact List.prefix_rfl

theorem extends_of_steps {s s' : System} (h : Relation.ReflTransGen (AnyStep P) s s') :
    s.db.rows <+: s'.db.rows := by
  induction h with
  | refl => exact List.prefix_rfl
  | tail _ hstep ih => exact ih.trans hstep.extends

/-! ## The blocks of the rows -/

/-- What the node makes sure of before it writes a block, apart from its place. -/
structure WellMade (P : Platform) (b : Block) : Prop where
  valid : b.valid P = .ok true
  merkleRoot : ∃ packed, packVector Transaction.pack b.trxs = .ok packed ∧
    b.merkleRoot = P.sha256 packed
  admitted : ∀ t ∈ b.trxs, Admitted P t

/-- A block that is the last of a chain of its own, back to a first one. -/
inductive Sound (P : Platform) : Block → Prop
  | first {b} : WellMade P b → b.blkNum = 0 → b.priorHash = zeroSha256 → Sound P b
  | next {last b} : Sound P last → WellMade P b → b.blkNum = last.blkNum + 1 →
      b.priorHash = last.digest P → Sound P b

theorem Sound.wellMade {b : Block} (h : Sound P b) : WellMade P b := by
  cases h with
  | first hmade _ _ => exact hmade
  | next _ hmade _ _ => exact hmade

theorem Sound.cut {b : Block} (h : Sound P b) : b.cut = b :=
  Block.cut_eq_self.2 fun t ht =>
    Transaction.small_of_validate (h.wellMade.admitted t ht).validate

/-- Each row is the row of a sound block. The next block of a running node would hold admitted
transactions and follow a sound block, or be a first one. -/
structure SoundSystem (P : Platform) (s : System) : Prop where
  rows : ∀ row ∈ s.db.rows, ∃ b, Sound P b ∧
    row = ⟨sqliteInteger b.blkNum, toHex (b.digest P).toList 32, b.toJson P⟩
  privateKey : ∀ node, s = .up node → PrivateKey.ofStr P privateKeyStr = .ok node.buf.privateKey
  trxPool : ∀ t ∈ s.trxPool, Admitted P t
  tip : ∀ node, s = .up node → node.buf.lastBlock.valid P = .ok true → Sound P node.buf.lastBlock

theorem SoundSystem.getBlock_sound (hP : P.BoostExact) {s : System} (h : SoundSystem P s)
    {fresh : ℕ → Fresh} {num : UInt64} (hmem : sqliteInteger num ∈ s.db.rows.map Row.id) :
    ∃ b, Sound P b ∧ sqliteInteger b.blkNum = sqliteInteger num ∧
      getBlock P s.db true fresh num = .ok (some b) := by
  obtain ⟨row, hrow, hid⟩ := List.mem_map.1 hmem
  obtain ⟨b, hb, rfl⟩ := h.rows row hrow
  refine ⟨b, hb, hid, ?_⟩
  rw [getBlock_of_mem P hrow hid, Block.ofJson_toJson hP, hb.cut]
  rfl

theorem SoundSystem.sound_of_getBlock (hP : P.BoostExact) {s : System} (h : SoundSystem P s)
    {ok : Bool} {fresh : ℕ → Fresh} {num : UInt64} {b : Block}
    (hget : getBlock P s.db ok fresh num = .ok (some b)) :
    Sound P b ∧ sqliteInteger b.blkNum = sqliteInteger num := by
  cases ok with
  | false => cases hget
  | true =>
      by_cases hmem : sqliteInteger num ∈ s.db.rows.map Row.id
      · obtain ⟨c, hc, hid, hgetc⟩ := h.getBlock_sound hP hmem
        rw [hgetc] at hget
        cases hget
        exact ⟨hc, hid⟩
      · rw [getBlock_of_not_mem P hmem] at hget
        cases hget

theorem SoundSystem.built (hsign : P.ProducerSigns) {node : Node} (h : SoundSystem P (.up node))
    {f : Fresh} {valid : Bool} {b : Block} (hb : Built P f node.buf valid b) : Sound P b := by
  have hmade : WellMade P b := by
    refine ⟨valid_of_signed hsign ⟨_, h.privateKey node rfl, hb.sig_eq⟩, hb.merkleRoot_eq, ?_⟩
    rw [hb.trxs_eq]
    exact h.trxPool
  have hvalid := hb.valid_eq
  have hnum := hb.blkNum_eq
  have hprior := hb.priorHash_eq
  cases valid with
  | false => exact .first hmade hnum hprior
  | true => exact .next (h.tip node rfl hvalid) hmade hnum hprior

theorem SoundSystem.call (hsign : P.ProducerSigns) {node : Node} (h : SoundSystem P (.up node))
    (env : Env) (c : Call) : SoundSystem P (.up (node.call P env c).node) := by
  have hkey := h.privateKey node rfl
  cases c with
  | push p next =>
      rcases pushTransaction_cases P next node p with ⟨hvalid, heq⟩ | ⟨_, e, heq⟩
      · rw [Node.call, heq]
        refine ⟨h.rows, ?_, fun t ht => ?_, ?_⟩
        · rintro _ ⟨⟩
          exact hkey
        · rcases List.mem_append.1 ht with ht | ht
          · exact h.trxPool t ht
          · rw [List.mem_singleton.1 ht]
            exact admitted_iff.2 hvalid
        · rintro _ ⟨⟩
          exact h.tip node rfl
      · rwa [Node.call, heq]
  | publish next =>
      rcases publishBlk_cases P env next node with ⟨e, _, heq⟩ | ⟨b, valid, hb, heq⟩
      · rwa [Node.call, heq]
      · rw [Node.call, heq]
        refine ⟨fun row hrow => ?_, ?_, fun t ht => absurd ht List.not_mem_nil, ?_⟩
        · have hold : ∀ row ∈ node.db.rows, _ := h.rows
          rw [System.db, appendBlock] at hrow
          cases hrc : (node.db.insert (env.sqlOk 0)
              ⟨sqliteInteger b.blkNum, toHex (b.digest P).toList 32, b.toJson P⟩).2 with
          | false =>
              rw [Table.insert_failed hrc] at hrow
              exact hold row hrow
          | true =>
              rw [(Table.insert_ok hrc).2.2] at hrow
              rcases List.mem_append.1 hrow with hrow | hrow
              · exact hold row hrow
              · exact ⟨b, h.built hsign hb, List.mem_singleton.1 hrow⟩
        · rintro _ ⟨⟩
          exact hkey
        · rintro _ ⟨⟩ _
          exact h.built hsign hb
  | getInfo => exact h
  | getBlock blkNum => exact h
  | getBlocks blkNums => exact h
  | checkChain => exact h

theorem SoundSystem.step (hP : P.BoostExact) (hsign : P.ProducerSigns) {s s' : System}
    (h : SoundSystem P s) (hstep : AnyStep P s s') : SoundSystem P s' := by
  cases hstep with
  | @start db env buf hstart =>
      obtain ⟨hpool, hkey, htip⟩ := pluginStartup_started hstart
      refine ⟨h.rows, ?_, fun t ht => ?_, ?_⟩
      · rintro _ ⟨⟩
        exact hkey
      · rw [System.trxPool, hpool] at ht
        exact absurd ht List.not_mem_nil
      · rintro _ ⟨⟩ hvalid
        have hvalid : buf.lastBlock.valid P = .ok true := hvalid
        rcases htip with ⟨_, hblank⟩ | hget
        · rw [hblank, valid_of_blank rfl] at hvalid
          cases hvalid
        · exact (h.sound_of_getBlock hP hget).1
  | call c => exact h.call hsign _ c
  | stop =>
      refine ⟨h.rows, ?_, fun t ht => absurd ht List.not_mem_nil, ?_⟩
      · rintro _ ⟨⟩
      · rintro _ ⟨⟩

theorem soundSystem_of_steps (hP : P.BoostExact) (hsign : P.ProducerSigns) {s : System}
    (h : Relation.ReflTransGen (AnyStep P) (.down .empty) s) : SoundSystem P s := by
  induction h with
  | refl =>
      refine ⟨fun row hrow => absurd hrow List.not_mem_nil, ?_,
        fun t ht => absurd ht List.not_mem_nil, ?_⟩
      · rintro _ ⟨⟩
      · rintro _ ⟨⟩
  | tail _ hstep ih => exact ih.step hP hsign hstep

/-! ## What lookups find -/

/-- Once a lookup finds a row, it reads the same text for good, on any table and through any
failures and restarts. What it makes of the text can depend on the time, but not on a table
that was empty at first. -/
theorem found_stays {s s' : System} (h : Relation.ReflTransGen (AnyStep P) s s')
    {fresh : ℕ → Fresh} {num : UInt64} (hfound : getBlock P s.db true fresh num ≠ .ok none) :
    (∃ json, ∀ fresh,
      getBlock P s.db true fresh num = (Block.ofJson P (fresh 0) json).map some ∧
      getBlock P s'.db true fresh num = (Block.ofJson P (fresh 0) json).map some) ∧
    (P.BoostExact → P.ProducerSigns → Relation.ReflTransGen (AnyStep P) (.down .empty) s →
      ∃ b, ∀ fresh, getBlock P s.db true fresh num = .ok (some b) ∧
        getBlock P s'.db true fresh num = .ok (some b)) := by
  have hmem : sqliteInteger num ∈ s.db.rows.map Row.id := by
    by_contra hmem
    exact hfound (getBlock_of_not_mem P hmem true fresh)
  obtain ⟨row, hrow, hid⟩ := List.mem_map.1 hmem
  have hrow' : row ∈ s'.db.rows := (extends_of_steps h).subset hrow
  refine ⟨⟨row.json, fun fresh => ?_⟩, fun hP hsign hempty => ?_⟩
  · exact ⟨getBlock_of_mem P hrow hid fresh, getBlock_of_mem P hrow' hid fresh⟩
  · obtain ⟨b, hb, rfl⟩ := (soundSystem_of_steps hP hsign hempty).rows row hrow
    refine ⟨b, fun fresh => ?_⟩
    rw [getBlock_of_mem P hrow hid, getBlock_of_mem P hrow' hid, Block.ofJson_toJson hP, hb.cut]
    exact ⟨rfl, rfl⟩

theorem Sample.getBlock_zero (fresh : ℕ → Fresh) :
    getBlock Sample.platform Sample.table true fresh 0 = .ok (some Sample.block) := by
  have hmem : rowOf Sample.platform Sample.block ∈ Sample.table.rows := by
    rw [Sample.rows_table]
    exact List.mem_singleton_self _
  have hjson := Sample.honestChain.ofJson Sample.boostExact (List.mem_singleton_self _) (fresh 0)
  rw [@getBlock_of_mem Sample.platform _ _ hmem 0 rfl]
  exact congrArg (Except.map some) hjson

theorem Sample.getBlock_one (fresh : ℕ → Fresh) :
    getBlock Sample.platform Sample.chainTable true fresh 1 = .ok (some Sample.nextBlock) := by
  have hmem : rowOf Sample.platform Sample.nextBlock ∈ Sample.chainTable.rows :=
    List.mem_pair.2 (Or.inr rfl)
  have hjson := Sample.twoBlocks.ofJson Sample.boostExact (List.mem_pair.2 (Or.inr rfl)) (fresh 0)
  rw [@getBlock_of_mem Sample.platform _ _ hmem 1 rfl]
  exact congrArg (Except.map some) hjson

theorem sample_found_stays : ∃ b, ∀ fresh,
    getBlock Sample.platform Sample.table true fresh 0 = .ok (some b) ∧
    getBlock Sample.platform (Node.call Sample.platform Sample.failingEnv
        ⟨Sample.bufAfter, Sample.table⟩ (.publish Sample.next)).node.db true fresh 0 =
      .ok (some b) := by
  have hstep : AnyStep Sample.platform (.up ⟨Sample.bufAfter, Sample.table⟩)
      (.up (Node.call Sample.platform Sample.failingEnv ⟨Sample.bufAfter, Sample.table⟩
        (.publish Sample.next)).node) := .call _
  have hfound : getBlock Sample.platform Sample.table true Sample.env.fresh 0 ≠ .ok none := by
    rw [Sample.getBlock_zero]
    simp
  exact (found_stays (.single hstep) hfound).2 Sample.boostExact Sample.producerSigns
    Sample.reachable.any

/-- On a table that was empty at first, through any failures and restarts: a block that is
found ends a chain of blocks back to a first one, each of which is signed by the producer,
covers its transactions and holds admitted ones only. It was stored under the key that was
asked for, and has that number unless the number is one that sqlite rounds. -/
theorem any_run_finds_sound (hP : P.BoostExact) (hsign : P.ProducerSigns) {s : System}
    (h : Relation.ReflTransGen (AnyStep P) (.down .empty) s) {ok : Bool} {fresh : ℕ → Fresh}
    {num : UInt64} {b : Block} (hget : getBlock P s.db ok fresh num = .ok (some b)) :
    Sound P b ∧ sqliteInteger b.blkNum = sqliteInteger num ∧
      (num.toNat < 2 ^ 63 → b.blkNum = num) := by
  obtain ⟨hsound, hid⟩ := (soundSystem_of_steps hP hsign h).sound_of_getBlock hP hget
  exact ⟨hsound, hid, fun hlt => sqliteInteger_inj hlt hid⟩

theorem sample_finds_sound : Sound Sample.platform Sample.nextBlock ∧
    sqliteInteger Sample.nextBlock.blkNum = sqliteInteger 1 ∧
      ((1 : UInt64).toNat < 2 ^ 63 → Sample.nextBlock.blkNum = 1) :=
  any_run_finds_sound Sample.boostExact Sample.producerSigns Sample.reachable_next.any
    (Sample.getBlock_one Sample.env.fresh)

/-! ## The chain in memory -/

def Call.built (P : Platform) (env : Env) (node : Node) : Call → List (Block × Bool)
  | .publish _ =>
      match node.buf.buildBlock P (env.fresh 0) with
      | .ok (_, b) => [(b, (appendBlock P node.db (env.sqlOk 0) b).2)]
      | .error _ => []
  | _ => []

/-- Calls on a node, whatever their SQL statements do, with the blocks that were built and
the transactions that were accepted. -/
inductive FaultyRun (P : Platform) (start : Node) :
    Node → List (Block × Bool) → List Transaction → Prop
  | refl : FaultyRun P start start [] []
  | call {node log accepted env} (c : Call) : FaultyRun P start node log accepted →
      FaultyRun P start (node.call P env c).node (log ++ c.built P env node)
        (accepted ++ c.accepted (node.call P env c))

def stored (log : List (Block × Bool)) : List Block := (log.filter Prod.snd).map Prod.fst

theorem stored_sublist (log : List (Block × Bool)) :
    List.Sublist (stored log) (log.map Prod.fst) :=
  List.filter_sublist.map Prod.fst

theorem HonestChain.nodup_ids (h : HonestChain P bs) :
    ((bs.map (rowOf P)).map Row.id).Nodup := by
  rw [List.map_map, List.Nodup, List.pairwise_map, List.pairwise_iff_getElem]
  intro i j hi hj hij hid
  have hni := h.blkNum_eq (List.getElem?_eq_getElem hi)
  have hnj := h.blkNum_eq (List.getElem?_eq_getElem hj)
  simp only [Function.comp, rowOf] at hid
  omega

def HonestChain.table (h : HonestChain P bs) : Table where
  rows := bs.map (rowOf P)
  primaryKey := h.nodup_ids

variable {node : Node}

theorem HonestChain.concat_built (hsign : P.ProducerSigns) (h : HonestChain P bs)
    {buf : Buffer} (hf : Follows P bs buf) (hlen : bs.length < 2 ^ 63) {f : Fresh} {valid : Bool}
    {b : Block} (hb : Built P f buf valid b) : HonestChain P (bs ++ [b]) := by
  have hrows : h.table.rows = bs.map (rowOf P) := rfl
  apply h.concat hf hb hrows
  have hnum := h.built_blkNum hsign hf hb
  rw [sqliteInteger_eq (by omega), hnum, h.mem_ids hrows]
  exact Nat.lt_irrefl _

theorem Follows.concat_built {buf : Buffer} {b : Block} (hf : Follows P bs buf) :
    Follows P (bs ++ [b]) { buf with trxPool := [], lastBlock := b } where
  privateKey := hf.privateKey
  pool t ht := absurd ht List.not_mem_nil
  tip c hc := by
    rw [List.getLast?_concat, Option.some.injEq] at hc
    exact hc
  noTip hnil := by simp at hnil

/-- What holds along a run with failures: the chain of all built blocks is whole, the node
follows it, the table holds the stored ones, and no accepted transaction is missing. -/
structure FaultyInv (P : Platform) (bs : List Block) (start node : Node)
    (log : List (Block × Bool)) (accepted : List Transaction) : Prop where
  honest : HonestChain P (bs ++ log.map Prod.fst)
  follows : Follows P (bs ++ log.map Prod.fst) node.buf
  rows : node.db.rows = (bs ++ stored log).map (rowOf P)
  conserved : (bs ++ log.map Prod.fst).flatMap Block.trxs ++ node.buf.trxPool =
    bs.flatMap Block.trxs ++ start.buf.trxPool ++ accepted

variable {start : Node} {log : List (Block × Bool)} {accepted : List Transaction}

theorem stored_concat (log : List (Block × Bool)) (b : Block) (ok : Bool) :
    stored (log ++ [(b, ok)]) = stored log ++ if ok then [b] else [] := by
  rw [stored, stored, List.filter_append, List.map_append]
  cases ok <;> rfl

theorem Call.built_publish {env : Env} (next : NextFunction Variant) {buf : Buffer} {b : Block}
    (h : node.buf.buildBlock P (env.fresh 0) = .ok (buf, b)) :
    (Call.publish next).built P env node = [(b, (appendBlock P node.db (env.sqlOk 0) b).2)] := by
  rw [Call.built, h]

theorem Node.call_publish {env : Env} (next : NextFunction Variant) {buf : Buffer} {b : Block}
    (h : node.buf.buildBlock P (env.fresh 0) = .ok (buf, b)) :
    (node.call P env (.publish next)).node =
      ⟨buf.cacheLastBlk b, (appendBlock P node.db (env.sqlOk 0) b).1⟩ := by
  rw [Node.call, publishBlk_of_build h]

theorem stored_subset (bs : List Block) (log : List (Block × Bool)) :
    (bs ++ stored log).Sublist (bs ++ log.map Prod.fst) :=
  (stored_sublist log).append_left bs

/-- The `INSERT` of the next block fails only when its statement does. -/
theorem FaultyInv.insert (hsign : P.ProducerSigns) (h : FaultyInv P bs start node log accepted)
    (hlen : bs.length + log.length < 2 ^ 63) {f : Fresh} {valid : Bool} {b : Block}
    (hb : Built P f node.buf valid b) (ok : Bool) : (appendBlock P node.db ok b).2 = ok ∧
      (appendBlock P node.db ok b).1.rows =
        (bs ++ stored (log ++ [(b, ok)])).map (rowOf P) := by
  have hbound : (bs ++ log.map Prod.fst).length < 2 ^ 63 := by
    rwa [List.length_append, List.length_map]
  have hnum := h.honest.built_blkNum hsign h.follows hb
  have hid : sqliteInteger b.blkNum = (b.blkNum.toNat : ℤ) := sqliteInteger_eq (by omega)
  have hfree : sqliteInteger b.blkNum ∉ node.db.rows.map Row.id := by
    rw [h.rows, List.map_map, List.mem_map, hid, hnum]
    rintro ⟨c, hc, hcid⟩
    obtain ⟨i, hi⟩ := List.mem_iff_getElem?.1 ((stored_subset bs log).subset hc)
    have hlt := lt_of_getElem? hi
    have hci := h.honest.blkNum_eq hi
    simp only [Function.comp, rowOf] at hcid
    omega
  cases ok with
  | false =>
      have hrc : (appendBlock P node.db false b).2 = false := by
        rw [appendBlock, Table.insert, dif_neg (by simp)]
      refine ⟨hrc, ?_⟩
      rw [appendBlock, Table.insert_failed hrc, h.rows, stored_concat, if_neg (by decide),
        List.append_nil]
  | true =>
      have hrc : (appendBlock P node.db true b).2 = true := Table.insert_of_free hfree
      refine ⟨hrc, ?_⟩
      rw [appendBlock, (Table.insert_ok hrc).2.2, h.rows, stored_concat, if_pos rfl,
        ← List.append_assoc, @List.map_append _ _ _ (bs ++ stored log), List.map_singleton,
        rowOf, hid]

theorem FaultyInv.call (hsign : P.ProducerSigns) (h : FaultyInv P bs start node log accepted)
    (env : Env) (c : Call)
    (hlen : bs.length + (log ++ c.built P env node).length ≤ 2 ^ 63) :
    FaultyInv P bs start (node.call P env c).node (log ++ c.built P env node)
      (accepted ++ c.accepted (node.call P env c)) := by
  have hread : FaultyInv P bs start node (log ++ []) (accepted ++ []) := by
    rwa [List.append_nil, List.append_nil]
  cases c with
  | push p next =>
      have hnone : (Call.push p next).built P env node = [] := rfl
      rw [hnone, List.append_nil]
      rcases pushTransaction_cases P next node p with ⟨hvalid, heq⟩ | ⟨_, e, heq⟩
      · rw [Node.call, heq, Call.accepted, acknowledged_ok]
        refine ⟨h.honest, ⟨h.follows.privateKey, fun t ht => ?_, h.follows.tip,
          h.follows.noTip⟩, h.rows, ?_⟩
        · rcases List.mem_append.1 ht with ht | ht
          · exact h.follows.pool t ht
          · rwa [List.mem_singleton.1 ht]
        · rw [Buffer.cacheTrx, ← List.append_assoc, ← List.append_assoc, h.conserved]
      · rw [Node.call, heq, Call.accepted, acknowledged_error, List.append_nil]
        exact h
  | publish next =>
      have hnone : (Call.publish next).accepted (node.call P env (.publish next)) = [] := rfl
      rw [hnone, List.append_nil]
      cases hbuild : node.buf.buildBlock P (env.fresh 0) with
      | error e =>
          rw [Call.built, hbuild, List.append_nil, Node.call, publishBlk_of_error hbuild]
          exact h
      | ok r =>
          obtain ⟨buf, b⟩ := r
          rw [Call.built_publish next hbuild] at hlen ⊢
          rw [Node.call_publish next hbuild]
          obtain ⟨rfl, valid, hb⟩ := buildBlock_cases hbuild
          rw [List.length_append, List.length_singleton] at hlen
          have hbound : (bs ++ log.map Prod.fst).length < 2 ^ 63 := by
            rw [List.length_append, List.length_map]
            omega
          obtain ⟨hrc, hrows⟩ := h.insert hsign (by omega) hb (env.sqlOk 0)
          have hmap : bs ++ (log ++ [(b, (appendBlock P node.db (env.sqlOk 0) b).2)]).map Prod.fst =
              bs ++ log.map Prod.fst ++ [b] := by
            rw [List.map_append, List.map_singleton, List.append_assoc]
          refine ⟨?_, ?_, ?_, ?_⟩
          · rw [hmap]
            exact h.honest.concat_built hsign h.follows hbound hb
          · rw [hmap]
            exact h.follows.concat_built
          · rw [hrc]
            exact hrows
          · rw [hmap, List.flatMap_append, List.flatMap_singleton, hb.trxs_eq, ← h.conserved]
            exact List.append_nil _
  | getInfo => exact hread
  | getBlock blkNum => exact hread
  | getBlocks blkNums => exact hread
  | checkChain => exact hread

/-- However its statements fail, a node that was well when it was first let down keeps a
whole chain in memory. -/
theorem Represents.faultyInv (hsign : P.ProducerSigns) (h : Represents P bs (.up start))
    (hrun : FaultyRun P start node log accepted) (hlen : bs.length + log.length ≤ 2 ^ 63) :
    FaultyInv P bs start node log accepted := by
  induction hrun with
  | refl =>
      cases h with
      | up hhonest hrows hf =>
          rw [← List.append_nil bs] at hhonest hf hrows
          exact ⟨hhonest, hf, hrows, by rw [List.append_nil, List.map_nil, List.append_nil]⟩
  | @call node log accepted env c hrun ih =>
      have hle : log.length ≤ (log ++ c.built P env node).length := by
        rw [List.length_append]
        exact Nat.le_add_right _ _
      exact (ih (by omega)).call hsign env c hlen

/-! ## What the check notices -/

section Check

variable {built : List Block} {kept : List Block}

theorem HonestChain.getAllBlocks_sublist (hP : P.BoostExact) (h : HonestChain P built)
    (hsub : kept.Sublist built) {db : Table} (hrows : db.rows = kept.map (rowOf P))
    (fresh : ℕ → Fresh) : SimpleBlockchain.getAllBlocks P db true fresh = .ok kept := by
  have hids : (db.rows.map Row.id).Pairwise (· < ·) := by
    rw [hrows]
    exact (@HonestChain.ids_pairwise P h.table built h rfl).sublist
      ((hsub.map (rowOf P)).map Row.id)
  have hjson : db.rows.map Row.json = kept.map (Block.toJson P) := by
    rw [hrows, List.map_map]
    rfl
  rw [getAllBlocks_of_json hP fresh hids hjson, List.map_congr_left (g := id), List.map_id]
  exact fun b hb => Block.cut_eq_self.2 (h.small b (hsub.subset hb))

theorem HonestChain.nodup (h : HonestChain P built) : built.Nodup := by
  have hmap := (@HonestChain.ids_pairwise P h.table built h rfl).nodup
  exact (List.Nodup.of_map _ hmap).of_map _

theorem HonestChain.checkLoop_kept (hsign : P.ProducerSigns) (h : HonestChain P built)
    (hsub : kept.Sublist built)
    (hcoll : ∀ b ∈ built, ∀ c ∈ built, P.sha256 b.header = P.sha256 c.header →
      b.header = c.header) (f : Fresh) :
    checkLoop P (Block.new f) kept = .ok none ↔ kept <+: built := by
  constructor
  · intro hloop
    refine h.linked.prefix_of_walks (fun b hb c hc hd => ?_) hsub.subset (h.nodup.sublist hsub)
      (walks_of_checkLoop hloop)
    rw [(Block.header_inj (hcoll b hb c hc hd)).1]
  · intro hbegins
    have hget : ∀ (i : ℕ) b, kept[i]? = some b → built[i]? = some b := by
      intro i b hb
      rw [List.prefix_iff_getElem?.1 hbegins i (lt_of_getElem? hb), ← hb]
      exact (List.getElem?_eq_getElem _).symm
    rw [checkLoop_new]
    refine ⟨fun b hb => h.blkNum_zero (hget 0 b hb), fun i b c hb hc => ?_⟩
    exact h.passes (hget i b hb) (hget (i + 1) c hc)
      (valid_of_signed hsign (h.signed c (List.mem_of_getElem? (hget (i + 1) c hc))))

theorem stored_begins_iff {log : List (Block × Bool)} (h : (log.map Prod.fst).Nodup) :
    stored log <+: log.map Prod.fst ↔ log.Pairwise fun x y => y.2 = true → x.2 = true := by
  induction log with
  | nil => simp [stored]
  | cons x log ih =>
      obtain ⟨b, ok⟩ := x
      rw [List.map_cons, List.nodup_cons] at h
      rw [List.pairwise_cons, ← ih h.2]
      cases ok with
      | true =>
          have hcons : stored ((b, true) :: log) = b :: stored log := rfl
          rw [hcons, List.map_cons, List.cons_prefix_cons]
          simp
      | false =>
          have hskip : stored ((b, false) :: log) = stored log := rfl
          rw [hskip, List.map_cons]
          constructor
          · intro hbegins
            have hnil : stored log = [] := by
              cases hs : stored log with
              | nil => rfl
              | cons c cs =>
                  rw [hs, List.cons_prefix_cons] at hbegins
                  have hc : c ∈ stored log := by rw [hs]; exact List.mem_cons_self
                  exact absurd (hbegins.1 ▸ (stored_sublist log).subset hc) h.1
            refine ⟨fun y hy hok => ?_, hnil ▸ List.nil_prefix⟩
            have hmem : y.1 ∈ stored log := List.mem_map_of_mem (List.mem_filter.2 ⟨hy, hok⟩)
            rw [hnil] at hmem
            exact absurd hmem List.not_mem_nil
          · rintro ⟨hfail, _⟩
            have hnil : stored log = [] := by
              rw [stored, List.map_eq_nil_iff, List.filter_eq_nil_iff]
              exact fun y hy hok => absurd (hfail y hy hok) Bool.false_ne_true
            rw [hnil]
            exact List.nil_prefix

end Check

/-! ## After a run without failures -/

theorem Reachable.faultyInv (hP : P.BoostExact) (hsign : P.ProducerSigns)
    (h : Reachable P (.up start)) (hrun : FaultyRun P start node log accepted)
    (hlen : start.db.rows.length + log.length ≤ 2 ^ 63) {fresh : ℕ → Fresh}
    (hbs : getAllBlocks P start.db true fresh = .ok bs) :
    FaultyInv P bs start node log accepted := by
  obtain ⟨bs', hrep⟩ := h.represents hP
  have hrows : start.db.rows = bs'.map (rowOf P) := hrep.rows
  have hall := hrep.getAllBlocks hP fresh
  rw [System.db, hbs, Except.ok.injEq] at hall
  subst hall
  rw [hrows, List.length_map] at hlen
  exact hrep.faultyInv hsign hrun hlen

namespace Sample

theorem faultyRun : FaultyRun platform pushed ⟨bufAfter, .empty⟩ [(block, false)] [] := by
  have hbuild : pushed.buf.buildBlock platform (failingEnv.fresh 0) = .ok (buf, block) := build
  have hrun := @FaultyRun.call platform pushed _ _ _ failingEnv (.publish next) .refl
  rw [Call.built_publish next hbuild, Node.call_publish next hbuild] at hrun
  exact hrun

theorem getAllBlocks_empty (fresh : ℕ → Fresh) :
    SimpleBlockchain.getAllBlocks platform pushed.db true fresh = .ok [] := rfl

end Sample

/-- When statements begin to fail, the node goes on with one whole chain, of which the table
holds exactly the blocks whose `INSERT` succeeded. Each accepted transaction is in a block
of the chain or in the pool: so the lost ones are those in the blocks that were not stored. -/
theorem faulty_run_chain (hP : P.BoostExact) (hsign : P.ProducerSigns)
    (h : Reachable P (.up start)) (hrun : FaultyRun P start node log accepted)
    (hlen : start.db.rows.length + log.length ≤ 2 ^ 63) {fresh : ℕ → Fresh}
    (hbs : getAllBlocks P start.db true fresh = .ok bs) :
    HonestChain P (bs ++ log.map Prod.fst) ∧
    (∀ fresh, getAllBlocks P node.db true fresh = .ok (bs ++ stored log)) ∧
    (bs ++ log.map Prod.fst).flatMap Block.trxs ++ node.buf.trxPool =
      bs.flatMap Block.trxs ++ start.buf.trxPool ++ accepted := by
  have hinv := h.faultyInv hP hsign hrun hlen hbs
  refine ⟨hinv.honest, fun fresh => ?_, hinv.conserved⟩
  exact hinv.honest.getAllBlocks_sublist hP (stored_subset bs log) hinv.rows fresh

theorem sample_faulty_run_chain :
    HonestChain Sample.platform [Sample.block] ∧
    (∀ fresh, getAllBlocks Sample.platform .empty true fresh = .ok []) ∧
    [Sample.block].flatMap Block.trxs ++ Sample.bufAfter.trxPool =
      [].flatMap Block.trxs ++ Sample.pushed.buf.trxPool ++ [] :=
  faulty_run_chain Sample.boostExact Sample.producerSigns Sample.reachable_pushed Sample.faultyRun
    (by decide) (Sample.getAllBlocks_empty Sample.env.fresh)

/-- The check raises the alarm exactly when an `INSERT` succeeded after one that failed. What
was lost at the end of the chain it does not notice. -/
theorem faulty_run_check_iff (hP : P.BoostExact) (hsign : P.ProducerSigns)
    (h : Reachable P (.up start)) (hrun : FaultyRun P start node log accepted)
    (hlen : start.db.rows.length + log.length ≤ 2 ^ 63) {fresh : ℕ → Fresh}
    (hbs : getAllBlocks P start.db true fresh = .ok bs)
    (hcoll : ∀ b ∈ bs ++ log.map Prod.fst, ∀ c ∈ bs ++ log.map Prod.fst,
      P.sha256 b.header = P.sha256 c.header → b.header = c.header)
    {env : Env} (henv : env.sqlOk 0 = true) :
    checkChain P env node.db = .ok resultZero ↔
      log.Pairwise fun x y => y.2 = true → x.2 = true := by
  have hinv := h.faultyInv hP hsign hrun hlen hbs
  have hall := hinv.honest.getAllBlocks_sublist hP (stored_subset bs log) hinv.rows
    fun i => env.fresh (i + 1)
  have hnodup : (log.map Prod.fst).Nodup :=
    hinv.honest.nodup.sublist (List.sublist_append_right bs _)
  rw [← henv] at hall
  rw [checkChain_eq_resultZero hall,
    hinv.honest.checkLoop_kept hsign (stored_subset bs log) hcoll, List.prefix_append_right_inj,
    stored_begins_iff hnodup]

/-- One block was lost, and the check passes. -/
theorem sample_faulty_run_check : checkChain Sample.platform Sample.env .empty = .ok resultZero ↔
    [(Sample.block, false)].Pairwise fun x y => y.2 = true → x.2 = true :=
  faulty_run_check_iff Sample.boostExact Sample.producerSigns Sample.reachable_pushed
    Sample.faultyRun (by decide) (Sample.getAllBlocks_empty Sample.env.fresh)
    (by
      intro b hb c hc _
      rw [List.mem_singleton.1 hb, List.mem_singleton.1 hc])
    (Sample.env_succeeds 0)

end SimpleBlockchain
