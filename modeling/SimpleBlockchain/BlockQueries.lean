import SimpleBlockchain.QueryBuffers

/-!
# Queries over whole runs

Processes with their result buffers take the same steps as the systems whose
queries return rows directly. So a query on a table that a run left finds the
blocks of its chain, whatever was asked before.
-/

namespace SimpleBlockchain

open HashChain

variable {P : Platform}

inductive BufferedSystem
  | down (db : Table)
  | up (p : Process)

def BufferedSystem.system : BufferedSystem → System
  | .down db => .down db
  | .up p => .up p.node

/-- One step of a system whose SQL statements all succeed. -/
inductive BufferedStep (P : Platform) : BufferedSystem → BufferedSystem → Prop
  | start {db env buf buf' bufs} : env.Succeeds → Buffer.new P (env.fresh 0) = .ok buf →
      startup P env db buf ResultBuffers.initial = (.ok (.started buf'), bufs) →
      BufferedStep P (.down db) (.up ⟨⟨buf', db⟩, bufs⟩)
  | call {p : Process} {env} (c : Call) : env.Succeeds →
      (∀ rc ∈ (p.call P env c).1.rcs, rc = true) →
      BufferedStep P (.up p) (.up ⟨(p.call P env c).1.node, (p.call P env c).2⟩)
  | stop {p : Process} : BufferedStep P (.up p) (.down p.node.db)

def BufferedReachable (P : Platform) : BufferedSystem → Prop :=
  Relation.ReflTransGen (BufferedStep P) (.down .empty)

/-! ## The buffers do not show -/

section Calls

variable (P) (env : Env) (node : Node)

theorem returns_getInfo (hlen : node.db.rows.length < 2 ^ 64) :
    Returns (ReadOnly.getInfo env node) (.ok (getInfo env node)) :=
  (SqlitePluginImpl.returns_getBlockCount hlen _).bind fun _ _ => returns_pure _

theorem returns_getBlockCall (blkNum : UInt64) :
    Returns (ReadOnly.getBlock P env node blkNum) (getBlockCall P env node blkNum) := by
  apply (SqlitePluginImpl.returns_getBlock node.db _ _ blkNum).bind
  intro blk _
  cases blk <;> exact returns_pure _

theorem returns_getBlocks (blkNums : List UInt64) :
    Returns (ReadOnly.getBlocks P env node blkNums) (getBlocks P env node blkNums) := by
  unfold ReadOnly.getBlocks getBlocks
  split
  · exact (SqlitePluginImpl.returns_getAllBlocks node.db _ _).bind fun _ _ => returns_pure _
  · apply Returns.bind
    · exact .mapM fun n => SqlitePluginImpl.returns_getBlock node.db _ _ n.1
    · exact fun _ _ => returns_pure _

theorem returns_checkChain (db : Table) :
    Returns (ReadOnly.checkChain P env db) (checkChain P env db) := by
  apply (SqlitePluginImpl.returns_getAllBlocks db _ _).bind
  intro blocks _
  apply (returns_liftM _).bind
  intro failed _
  cases failed <;> exact returns_pure _

theorem Process.call_fst (p : Process) (hlen : p.node.db.rows.length < 2 ^ 64) (c : Call) :
    (p.call P env c).1 = p.node.call P env c := by
  cases c with
  | push params next => rfl
  | publish next => rfl
  | getInfo => rw [Process.call, Process.read, returns_getInfo env p.node hlen, Node.call]
  | getBlock blkNum =>
      rw [Process.call, Process.read, returns_getBlockCall P env p.node blkNum, Node.call]
  | getBlocks blkNums =>
      have hret := (returns_getBlocks P env p.node blkNums).bind fun blocks _ =>
        returns_pure (Variant.array blocks)
      have hmap : ((getBlocks P env p.node blkNums).map Variant.array) =
          (getBlocks P env p.node blkNums >>= fun blocks => .ok (.array blocks)) := by
        cases getBlocks P env p.node blkNums <;> rfl
      rw [Process.call, Process.read, hret, Node.call, hmap]
  | checkChain => rw [Process.call, Process.read, returns_checkChain P env p.node.db, Node.call]

end Calls

theorem startup_fst {env : Env} {db : Table} {buf : Buffer} (hlen : db.rows.length < 2 ^ 64)
    (hnew : Buffer.new P (env.fresh 0) = .ok buf) (bufs : ResultBuffers) (buf' : Buffer) :
    (startup P env db buf bufs).1 = .ok (.started buf') ↔
      pluginStartup P env db = .started buf' := by
  have hret : Returns (startup P env db buf)
      ((Except.ok (getBlockCount db (env.sqlOk 0)) : Except Exn UInt64) >>= fun blkCount =>
        if 0 < blkCount then do
          let blk ← getBlock P db (env.sqlOk 1) (fun i => env.fresh (i + 1)) (blkCount - 1)
          blk.elim (.ok .undefinedBehaviour) fun lastBlock =>
            .ok (.started (buf.cacheLastBlk lastBlock))
        else .ok (.started buf)) := by
    apply (SqlitePluginImpl.returns_getBlockCount hlen _).bind
    intro blkCount _
    split
    · apply (SqlitePluginImpl.returns_getBlock db _ _ _).bind
      intro blk _
      cases blk <;> exact returns_pure _
    · exact returns_pure _
  rw [hret, ok_bind, pluginStartup, hnew]
  simp only
  split
  · cases getBlock P db (env.sqlOk 1) (fun i => env.fresh (i + 1))
      (getBlockCount db (env.sqlOk 0) - 1) with
    | error e => simp
    | ok blk => cases blk <;> simp
  · simp

theorem new_of_started {env : Env} {db : Table} {buf : Buffer}
    (h : pluginStartup P env db = .started buf) :
    ∃ buf₀, Buffer.new P (env.fresh 0) = .ok buf₀ := by
  unfold pluginStartup at h
  cases hnew : Buffer.new P (env.fresh 0) with
  | error e =>
      rw [hnew] at h
      cases h
  | ok buf₀ => exact ⟨buf₀, rfl⟩

/-! ## Runs with buffers and runs without -/

theorem Reachable.length_lt (hP : P.BoostExact) {s : System} (h : Reachable P s) :
    s.db.rows.length < 2 ^ 64 := by
  obtain ⟨bs, hbs⟩ := h.represents hP
  have hlen := hbs.honest.length_le
  rw [hbs.rows, List.length_map]
  omega

theorem BufferedStep.step {s s' : BufferedSystem} (h : BufferedStep P s s')
    (hlen : s.system.db.rows.length < 2 ^ 64) : Step P s.system s'.system := by
  cases h with
  | start henv hnew hstart =>
      exact .start henv ((startup_fst hlen hnew .initial _).1 (congrArg Prod.fst hstart))
  | call c henv hok =>
      rw [BufferedSystem.system, BufferedSystem.system, Process.call_fst P _ _ hlen]
      rw [Process.call_fst P _ _ hlen] at hok
      exact .call c henv hok
  | stop => exact .stop

/-- The buffers do not let a process reach a state that it could not reach without. -/
theorem BufferedReachable.reachable (hP : P.BoostExact) {s : BufferedSystem}
    (h : BufferedReachable P s) : Reachable P s.system := by
  induction h with
  | refl => exact Relation.ReflTransGen.refl
  | tail _ hstep ih => exact ih.tail (hstep.step (ih.length_lt hP))

theorem Reachable.buffered (hP : P.BoostExact) {s : System} (h : Reachable P s) :
    ∃ s', BufferedReachable P s' ∧ s'.system = s := by
  induction h with
  | refl => exact ⟨_, Relation.ReflTransGen.refl, rfl⟩
  | tail hrun hstep ih =>
      obtain ⟨s', hs', heq⟩ := ih
      have hlen := Reachable.length_lt hP hrun
      cases hstep with
      | @start db env buf henv hstart =>
          cases s' with
          | up p => cases heq
          | down db =>
              cases heq
              obtain ⟨buf₀, hnew⟩ : ∃ buf₀, Buffer.new P (env.fresh 0) = .ok buf₀ :=
                new_of_started hstart
              have hfst := (startup_fst hlen hnew .initial _).2 hstart
              exact ⟨_, hs'.tail (.start henv hnew (Prod.ext hfst rfl)), rfl⟩
      | call c henv hok =>
          cases s' with
          | down db => cases heq
          | up p =>
              cases heq
              rw [← Process.call_fst P _ p hlen] at hok
              refine ⟨_, hs'.tail (.call c henv hok), ?_⟩
              rw [BufferedSystem.system, Process.call_fst P _ p hlen]
      | stop =>
          cases s' with
          | down db => cases heq
          | up p =>
              cases heq
              exact ⟨_, hs'.tail .stop, rfl⟩

/-! ## What a table answers -/

section Table

variable {bs : List Block} {db : Table}

theorem le_sqliteInteger {n : UInt64} (h : 2 ^ 63 ≤ n.toNat) : 2 ^ 63 ≤ sqliteInteger n := by
  rw [sqliteInteger, if_neg (by omega)]
  simp only
  split <;> omega

/-- A number is looked up by the literal that it is written as, which stands for no
number of the chain unless the number itself does. -/
theorem HonestChain.getBlock (hP : P.BoostExact) (h : HonestChain P bs)
    (hrows : db.rows = bs.map (rowOf P)) (hlen : bs.length < 2 ^ 63) (fresh : ℕ → Fresh)
    (num : UInt64) : getBlock P db true fresh num = .ok bs[num.toNat]? := by
  cases hb : bs[num.toNat]? with
  | none =>
      rw [List.getElem?_eq_none_iff] at hb
      apply getBlock_of_not_mem
      by_cases hnum : num.toNat ≤ 2 ^ 63
      · rw [sqliteInteger_eq hnum, h.mem_ids hrows]
        omega
      · intro hmem
        have hbig := le_sqliteInteger (n := num) (by omega)
        rw [h.ids hrows, List.mem_map] at hmem
        obtain ⟨i, hi, heq⟩ := hmem
        rw [List.mem_range] at hi
        omega
  | some b =>
      have hlt := lt_of_getElem? hb
      have hmem : rowOf P b ∈ db.rows := by
        rw [hrows]
        exact List.mem_map_of_mem (List.mem_of_getElem? hb)
      have hid : (rowOf P b).id = sqliteInteger num := by
        rw [sqliteInteger_eq (by omega), rowOf, h.blkNum_eq hb]
      rw [getBlock_of_mem P hmem hid, rowOf, h.ofJson hP (List.mem_of_getElem? hb)]
      rfl

theorem HonestChain.getBlockCount (hrows : db.rows = bs.map (rowOf P)) :
    getBlockCount db true = UInt64.ofNat bs.length := by
  rw [SimpleBlockchain.getBlockCount, if_pos rfl, hrows, List.length_map]

variable {env : Env} {node : Node}

theorem HonestChain.getBlocks (hP : P.BoostExact) (h : HonestChain P bs)
    (hrows : node.db.rows = bs.map (rowOf P)) (hlen : bs.length < 2 ^ 63) (henv : env.Succeeds)
    {blkNums : List UInt64} (hne : blkNums ≠ []) : getBlocks P env node blkNums =
      .ok (blkNums.filterMap fun k => bs[k.toNat]?.map (Block.toVariant P)) := by
  have hloop : ∀ (ks : List UInt64) (k : ℕ), ((ks.zipIdx k).mapM fun n =>
      SimpleBlockchain.getBlock P node.db (env.sqlOk n.2) (fun i => env.fresh (n.2 + i)) n.1) =
      .ok (ks.map fun k => bs[k.toNat]?) := by
    intro ks
    induction ks with
    | nil => exact fun _ => rfl
    | cons num ks ih =>
        intro k
        rw [List.zipIdx_cons, List.mapM_cons, henv, h.getBlock hP hrows hlen, ok_bind, ih]
        rfl
  rw [SimpleBlockchain.getBlocks, if_neg (by rwa [List.length_eq_zero_iff]), hloop, ok_bind,
    List.filterMap_map]
  rfl

theorem filterMap_range {α : Type} (l : List α) :
    (List.range l.length).filterMap (l[·]?) = l := by
  induction l with
  | nil => rfl
  | cons a l ih =>
      rw [List.length_cons, List.range_succ_eq_map, List.filterMap_cons, List.filterMap_map]
      exact congrArg (a :: ·) ih

theorem filterMap_numbers (bs : List Block) (hlen : bs.length < 2 ^ 63) :
    (((List.range bs.length).map UInt64.ofNat).filterMap fun k =>
      bs[k.toNat]?.map (Block.toVariant P)) = bs.map (Block.toVariant P) := by
  have hget : ∀ i ∈ List.range bs.length, bs[(UInt64.ofNat i).toNat]?.map (Block.toVariant P) =
      (bs.map (Block.toVariant P))[i]? := by
    intro i hi
    rw [List.mem_range] at hi
    rw [UInt64.toNat_ofNat_of_lt' (by rw [UInt64.size]; omega), List.getElem?_map]
  have hrange := filterMap_range (bs.map (Block.toVariant P))
  rw [List.length_map] at hrange
  rw [List.filterMap_map]
  exact (List.filterMap_congr hget).trans hrange

end Table

/-- The rows of a table, numbered from 0, hold these blocks, whatever the block that
they are read into. -/
structure StoredBlocks (P : Platform) (db : Table) (bs : List Block) : Prop where
  length_eq : bs.length = db.rows.length
  decoded : ∀ (i : ℕ) row, db.rows[i]? = some row →
    row.id = i ∧ ∃ b, bs[i]? = some b ∧ ∀ f, Block.ofJson P f row.json = .ok b
  blkNum : ∀ (i : ℕ) b, bs[i]? = some b → b.blkNum.toNat = i

def Process.replies (P : Platform) (env : Env) (p : Process) (c : Call) :
    List (Except Exn Variant) :=
  (p.call P env c).1.answered.replies

def Call.isQuery : Call → Bool
  | .push _ _ | .publish _ => false
  | .getInfo | .getBlock _ | .getBlocks _ | .checkChain => true

structure Answers (P : Platform) (env : Env) (p : Process) (bs : List Block) : Prop where
  info : p.replies P env .getInfo = [.ok (.object
    [("block_num".toList, .uint64 (UInt64.ofNat bs.length)),
     ("pending_trx".toList, .uint64 (UInt64.ofNat p.node.buf.trxPool.length))])]
  found : ∀ (k : UInt64) b, bs[k.toNat]? = some b →
    p.replies P env (.getBlock k) = [.ok (b.toVariant P)]
  notFound : ∀ k : UInt64, bs.length ≤ k.toNat → p.replies P env (.getBlock k) =
    [.ok (.object [("error".toList, .string "block not found".toList)])]
  listed : ∀ ks : List UInt64, ks ≠ [] → p.replies P env (.getBlocks ks) =
    [.ok (.array (ks.filterMap fun k => bs[k.toNat]?.map (Block.toVariant P)))]
  all : p.replies P env (.getBlocks []) = [.ok (.array (bs.map (Block.toVariant P)))]
  all_eq : p.replies P env (.getBlocks []) =
    p.replies P env (.getBlocks ((List.range bs.length).map UInt64.ofNat))

section Answers

variable {bs : List Block} {p : Process} {env : Env}

theorem HonestChain.stored (hP : P.BoostExact) (h : HonestChain P bs) {db : Table}
    (hrows : db.rows = bs.map (rowOf P)) : StoredBlocks P db bs := by
  refine ⟨by rw [hrows, List.length_map], fun i row hi => ?_, fun i b => h.blkNum_eq⟩
  rw [hrows, List.getElem?_map, Option.map_eq_some_iff] at hi
  obtain ⟨b, hb, rfl⟩ := hi
  refine ⟨?_, b, hb, h.ofJson hP (List.mem_of_getElem? hb)⟩
  rw [rowOf, h.blkNum_eq hb]

theorem HonestChain.answers (hP : P.BoostExact) (h : HonestChain P bs)
    (hrows : p.node.db.rows = bs.map (rowOf P)) (hlen : bs.length < 2 ^ 63)
    (henv : env.Succeeds) : Answers P env p bs := by
  have hcall : ∀ c, p.replies P env c = (p.node.call P env c).answered.replies := by
    intro c
    rw [Process.replies, Process.call_fst P env p]
    rw [hrows, List.length_map]
    omega
  have hblock : ∀ k : UInt64, p.replies P env (.getBlock k) =
      [getBlockCall P env p.node k] := fun k => hcall _
  have hblocks : ∀ ks, p.replies P env (.getBlocks ks) =
      [(SimpleBlockchain.getBlocks P env p.node ks).map .array] := fun ks => hcall _
  have hsome : ∀ ks : List UInt64, ks ≠ [] → p.replies P env (.getBlocks ks) =
      [.ok (.array (ks.filterMap fun k => bs[k.toNat]?.map (Block.toVariant P)))] := by
    intro ks hks
    rw [hblocks, h.getBlocks hP hrows hlen henv hks]
    rfl
  have hall : p.replies P env (.getBlocks []) =
      [.ok (.array (bs.map (Block.toVariant P)))] := by
    have hget := (Represents.down h hrows).getAllBlocks hP env.fresh
    rw [System.db] at hget
    rw [hblocks, SimpleBlockchain.getBlocks, if_pos List.length_nil, henv, hget]
    rfl
  refine ⟨?_, fun k b hb => ?_, fun k hk => ?_, hsome, hall, ?_⟩
  · rw [hcall, Node.call, getInfo, henv, HonestChain.getBlockCount hrows]
    rfl
  · rw [hblock, getBlockCall, henv, h.getBlock hP hrows hlen, hb]
    rfl
  · rw [hblock, getBlockCall, henv, h.getBlock hP hrows hlen, List.getElem?_eq_none_iff.2 hk]
    rfl
  · by_cases hne : bs = []
    · rw [hne]
      rfl
    · rw [hall, hsome _ (by simpa using hne), filterMap_numbers bs hlen]

/-- The default-constructed block that the check starts with is replaced by the first
block before anything is compared with it. -/
theorem HonestChain.checkChain_eq (hP : P.BoostExact) (h : HonestChain P bs) {db : Table}
    (hrows : db.rows = bs.map (rowOf P)) {env env' : Env} (henv : env.Succeeds)
    (henv' : env'.Succeeds) : checkChain P env db = checkChain P env' db := by
  have hget := fun fresh => (Represents.down h hrows).getAllBlocks hP fresh
  simp only [System.db] at hget
  have hloop : checkLoop P (Block.new (env.fresh 0)) bs =
      checkLoop P (Block.new (env'.fresh 0)) bs := by
    cases bs with
    | nil => rfl
    | cons b bs =>
        have hzero := h.blkNum_zero (b := b) rfl
        rw [checkLoop, if_pos hzero, checkLoop, if_pos hzero]
  rw [checkChain, checkChain, henv, henv', hget, hget, ok_bind, ok_bind, hloop]

theorem HonestChain.replies_eq (hP : P.BoostExact) (h : HonestChain P bs)
    (hrows : p.node.db.rows = bs.map (rowOf P)) (hlen : bs.length < 2 ^ 63) {p' : Process}
    (hdb : p'.node.db = p.node.db) {c : Call} (hc : c.isQuery)
    (hpool : c = .getInfo → p'.node.buf.trxPool.length = p.node.buf.trxPool.length) {env' : Env}
    (henv : env.Succeeds) (henv' : env'.Succeeds) : p'.replies P env' c = p.replies P env c := by
  have hrows' : p'.node.db.rows = bs.map (rowOf P) := by rw [hdb, hrows]
  have ha := h.answers hP hrows hlen henv
  have ha' := h.answers hP hrows' hlen henv'
  cases c with
  | push params next => cases hc
  | publish next => cases hc
  | getInfo => rw [ha.info, ha'.info, hpool rfl]
  | getBlock k =>
      cases hb : bs[k.toNat]? with
      | none =>
          rw [List.getElem?_eq_none_iff] at hb
          rw [ha.notFound k hb, ha'.notFound k hb]
      | some b => rw [ha.found k b hb, ha'.found k b hb]
  | getBlocks ks =>
      by_cases hks : ks = []
      · rw [hks, ha.all, ha'.all]
      · rw [ha.listed ks hks, ha'.listed ks hks]
  | checkChain =>
      have heq := h.checkChain_eq hP hrows henv' henv
      have hlt : p.node.db.rows.length < 2 ^ 64 := by
        rw [hrows, List.length_map]
        omega
      rw [Process.replies, Process.replies, Process.call_fst P _ p hlt,
        Process.call_fst P _ p' (by rwa [hdb]), Node.call, Node.call, hdb, heq]

theorem Process.call_node (env : Env) (p : Process) {c : Call} (hc : c.isQuery) :
    (p.call P env c).1.node = p.node := by
  cases c with
  | push params next => cases hc
  | publish next => cases hc
  | getInfo => rfl
  | getBlock k => rfl
  | getBlocks ks => rfl
  | checkChain => rfl

end Answers

/-- In every run, whatever was called before: the queries are answered from the blocks that
the table holds, the answers are those of any other process on the same table, and a query
changes nothing. -/
theorem block_queries_exact (hP : P.BoostExact) {p : Process} (h : BufferedReachable P (.up p))
    (hlen : p.node.db.rows.length < 2 ^ 63) :
    ∃ bs, StoredBlocks P p.node.db bs ∧ (∀ env : Env, env.Succeeds → Answers P env p bs) ∧
      (∀ p' : Process, p'.node.db = p.node.db → ∀ c : Call, c.isQuery →
        (c = .getInfo → p'.node.buf.trxPool.length = p.node.buf.trxPool.length) →
        ∀ env env' : Env, env.Succeeds → env'.Succeeds →
          p'.replies P env' c = p.replies P env c) ∧
      ∀ (env : Env) (c : Call), c.isQuery → (p.call P env c).1.node = p.node := by
  obtain ⟨bs, hbs⟩ := (h.reachable hP).represents hP
  have hhonest := hbs.honest
  have hrows : p.node.db.rows = bs.map (rowOf P) := hbs.rows
  have hlen' : bs.length < 2 ^ 63 := by rwa [hrows, List.length_map] at hlen
  refine ⟨bs, hhonest.stored hP hrows, fun env => hhonest.answers hP hrows hlen', ?_, ?_⟩
  · intro p' hdb c hc hpool env env' henv henv'
    exact hhonest.replies_eq hP hrows hlen' hdb hc hpool henv henv'
  · intro env c hc
    exact p.call_node env hc

theorem sample_queries_exact : ∃ p : Process, p.node = ⟨Sample.bufAfter, Sample.table⟩ ∧
    ∃ bs, StoredBlocks Sample.platform p.node.db bs ∧
      (∀ env : Env, env.Succeeds → Answers Sample.platform env p bs) ∧
      (∀ p' : Process, p'.node.db = p.node.db → ∀ c : Call, c.isQuery →
        (c = .getInfo → p'.node.buf.trxPool.length = p.node.buf.trxPool.length) →
        ∀ env env' : Env, env.Succeeds → env'.Succeeds →
          p'.replies Sample.platform env' c = p.replies Sample.platform env c) ∧
      ∀ (env : Env) (c : Call), c.isQuery → (p.call Sample.platform env c).1.node = p.node := by
  obtain ⟨s, hs, heq⟩ := Sample.reachable.buffered Sample.boostExact
  cases s with
  | down db => cases heq
  | up p =>
      have hnode : p.node = ⟨Sample.bufAfter, Sample.table⟩ := System.up.inj heq
      have hlen : p.node.db.rows.length < 2 ^ 63 := by
        rw [hnode, Sample.rows_table]
        decide
      exact ⟨p, hnode, block_queries_exact Sample.boostExact hs hlen⟩

end SimpleBlockchain
