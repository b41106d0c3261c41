import SimpleBlockchain.CheckChain

/-!
# The result buffers

`sqlite_plugin_impl` collects the rows of every query in two static members. The
queries of the other modules return their rows directly; here they go through
the buffers, and a process keeps whatever the query before has left in them.
-/

namespace SimpleBlockchain

/-- `tmp_blks` and `blk_nums`. -/
structure ResultBuffers where
  tmpBlks : List Block
  blkNums : UInt64

def ResultBuffers.initial : ResultBuffers := ⟨[], 0⟩

/-- Code that reads and writes the buffers. An exception does not undo a write. -/
abbrev Query := ExceptT Exn (StateM ResultBuffers)

/-- A row as a callback is given it: the names of its columns and their values. -/
abbrev Columns := List (String × Option Str)

/-- `std::istream >> uint64_t` on the digits at the start of a text: the largest
number when they denote a larger one, and 0 when there are none. -/
def extractUInt64 (s : Str) : UInt64 :=
  UInt64.ofNat (min (Nat.ofDigitChars 10 (s.takeWhile Char.isDigit) 0) (2 ^ 64 - 1))

/-- `sqlite3_exec`. An exception of the callback leaves it at that row, and a statement
that fails has no rows. -/
def sqlite3Exec (ok : Bool) (callback : ℕ → Columns → Query Unit) (rows : List Columns) :
    Query Bool := do
  if ok then
    rows.zipIdx.forM fun row => callback row.2 row.1
  return ok

namespace SqlitePluginImpl

/-- What the body of the loop in `get_block_callback` does with a column. -/
def getBlockColumn (P : Platform) (f : Fresh) : String × Option Str → Query Unit
  | (azColName, argv) =>
      if azColName = "JSON" then
        match argv with
        | none => throw ⟨.assert, "can not get JSON value!"⟩
        | some json => do
            let blk ← (Block.ofJson P f json : Except Exn Block)
            modify fun bufs => { bufs with tmpBlks := bufs.tmpBlks ++ [blk] }
      else pure ()

def getBlockCallback (P : Platform) (fresh : ℕ → Fresh) (i : ℕ) (row : Columns) : Query Unit :=
  row.forM (getBlockColumn P (fresh i))

/-- What the body of the loop in `get_num_callback` does with a column. -/
def getNumColumn : String × Option Str → Query Unit
  | (azColName, argv) =>
      if azColName = "num" then
        match argv with
        | none => throw ⟨.assert, "can not get num value!"⟩
        | some num => modify fun bufs => { bufs with blkNums := extractUInt64 num }
      else pure ()

def getNumCallback (_ : ℕ) (row : Columns) : Query Unit :=
  row.forM getNumColumn

def jsonColumn (rows : List Row) : List Columns := rows.map fun r => [("JSON", some r.json)]

def getBlock (P : Platform) (t : Table) (ok : Bool) (fresh : ℕ → Fresh) (num : UInt64) :
    Query (Option Block) := do
  modify fun bufs => { bufs with tmpBlks := [] }
  let rc ← sqlite3Exec ok (getBlockCallback P fresh)
    (jsonColumn (t.rows.filter (·.id = sqliteInteger num)))
  if rc then
    let bufs ← get
    return bufs.tmpBlks[0]?
  else return none

def getBlockCount (t : Table) (ok : Bool) : Query UInt64 := do
  modify fun bufs => { bufs with blkNums := 0 }
  let _ ← sqlite3Exec ok getNumCallback [[("num", some (decimal t.rows.length))]]
  let bufs ← get
  return bufs.blkNums

def getAllBlocks (P : Platform) (t : Table) (ok : Bool) (fresh : ℕ → Fresh) :
    Query (List Block) := do
  modify fun bufs => { bufs with tmpBlks := [] }
  let rc ← sqlite3Exec ok (getBlockCallback P fresh) (jsonColumn t.sorted)
  if rc then
    let bufs ← get
    return bufs.tmpBlks
  else return []

end SqlitePluginImpl

/-! ## What the queries return -/

/-- A query that returns the same whatever the buffers hold. -/
def Returns {α : Type} (q : Query α) (x : Except Exn α) : Prop :=
  ∀ bufs : ResultBuffers, (q bufs).1 = x

section Returns

variable {α β : Type}

theorem returns_pure (a : α) : Returns (pure a) (.ok a) := fun _ => rfl

theorem returns_liftM (x : Except Exn α) : Returns (liftM x) x := by
  intro bufs
  cases x <;> rfl

theorem query_bind (q : Query α) (f : α → Query β) (bufs : ResultBuffers) :
    (q >>= f) bufs = match q bufs with
      | (.ok a, bufs') => f a bufs'
      | (.error e, bufs') => (.error e, bufs') := by
  change ((q bufs).1 |> ExceptT.bindCont f) (q bufs).2 = _
  rcases q bufs with ⟨e | a, bufs'⟩ <;> rfl

theorem Returns.bind {q : Query α} {x : Except Exn α} {f : α → Query β} {g : α → Except Exn β}
    (hq : Returns q x) (hf : ∀ a, x = .ok a → Returns (f a) (g a)) :
    Returns (q >>= f) (x >>= g) := by
  intro bufs
  have h := hq bufs
  rw [query_bind]
  revert h
  rcases q bufs with ⟨e | a, bufs'⟩
  · rintro rfl
    rfl
  · rintro rfl
    exact hf a rfl bufs'

theorem Returns.mapM {f : α → Query β} {g : α → Except Exn β} {l : List α}
    (h : ∀ a, Returns (f a) (g a)) : Returns (l.mapM f) (l.mapM g) := by
  induction l with
  | nil => exact returns_pure []
  | cons a l ih =>
      rw [List.mapM_cons, List.mapM_cons]
      apply (h a).bind
      intro b _
      apply ih.bind
      intro bs _
      exact returns_pure (b :: bs)

end Returns

namespace SqlitePluginImpl
variable {P : Platform}

theorem getBlockCallback_json (fresh : ℕ → Fresh) (i : ℕ) (json : Str) (bufs : ResultBuffers) :
    getBlockCallback P fresh i [("JSON", some json)] bufs =
      match Block.ofJson P (fresh i) json with
      | .ok b => (.ok (), { bufs with tmpBlks := bufs.tmpBlks ++ [b] })
      | .error e => (.error e, bufs) := by
  have hcolumn : getBlockColumn P (fresh i) ("JSON", some json) bufs =
      match Block.ofJson P (fresh i) json with
      | .ok b => (.ok (), { bufs with tmpBlks := bufs.tmpBlks ++ [b] })
      | .error e => (.error e, bufs) := by
    rw [getBlockColumn, if_pos rfl, query_bind]
    cases Block.ofJson P (fresh i) json <;> rfl
  rw [getBlockCallback, List.forM_eq_forM, List.forM_cons, query_bind, hcolumn]
  cases Block.ofJson P (fresh i) json <;> rfl

theorem forM_getBlockCallback (fresh : ℕ → Fresh) (rows : List Row) (k : ℕ) (bufs : ResultBuffers) :
    ∃ bs, (((jsonColumn rows).zipIdx k).forM fun row => getBlockCallback P fresh row.2 row.1) bufs =
        (((rows.zipIdx k).mapM fun r => Block.ofJson P (fresh r.2) r.1.json).map fun _ => (),
          { bufs with tmpBlks := bufs.tmpBlks ++ bs }) ∧
      ∀ cs, ((rows.zipIdx k).mapM fun r => Block.ofJson P (fresh r.2) r.1.json) = .ok cs →
        bs = cs := by
  induction rows generalizing k bufs with
  | nil =>
      refine ⟨[], ?_, fun cs hcs => ?_⟩
      · rw [List.append_nil]
        rfl
      · cases hcs
        rfl
  | cons r rows ih =>
      have hhead := getBlockCallback_json (P := P) fresh k r.json bufs
      have hrows : (((jsonColumn (r :: rows)).zipIdx k).forM fun row =>
          getBlockCallback P fresh row.2 row.1) bufs =
          (getBlockCallback P fresh k [("JSON", some r.json)] >>= fun _ =>
            ((jsonColumn rows).zipIdx (k + 1)).forM fun row =>
              getBlockCallback P fresh row.2 row.1) bufs := rfl
      rw [hrows, query_bind, hhead, List.zipIdx_cons, List.mapM_cons]
      cases Block.ofJson P (fresh k) r.json with
      | error e =>
          refine ⟨[], ?_, fun cs hcs => by cases hcs⟩
          rw [List.append_nil]
          rfl
      | ok b =>
          obtain ⟨bs, heq, hbs⟩ := ih (k + 1) { bufs with tmpBlks := bufs.tmpBlks ++ [b] }
          refine ⟨b :: bs, ?_, fun cs hcs => ?_⟩
          · simp only [heq, ok_bind, List.append_assoc, List.singleton_append]
            cases (rows.zipIdx (k + 1)).mapM fun r => Block.ofJson P (fresh r.2) r.1.json <;> rfl
          · rw [ok_bind] at hcs
            obtain ⟨ds, hds, hcs⟩ := bind_eq_ok.1 hcs
            cases hcs
            rw [hbs ds hds]

theorem returns_select (ok : Bool) (fresh : ℕ → Fresh) (rows : List Row) {α : Type}
    (g : List Block → α) (d : α) :
    Returns (do
      modify fun bufs => { bufs with tmpBlks := [] }
      let rc ← sqlite3Exec ok (getBlockCallback P fresh) (jsonColumn rows)
      if rc then
        let bufs ← get
        return g bufs.tmpBlks
      else return d) (if ok then (tmpBlks P fresh rows).map g else .ok d) := by
  intro bufs
  cases ok with
  | false => rfl
  | true =>
      obtain ⟨bs, heq, hbs⟩ :=
        forM_getBlockCallback (P := P) fresh rows 0 { bufs with tmpBlks := [] }
      have hexec : sqlite3Exec true (getBlockCallback P fresh) (jsonColumn rows)
          { bufs with tmpBlks := [] } =
          ((tmpBlks P fresh rows).map fun _ => true, { bufs with tmpBlks := bs }) := by
        rw [sqlite3Exec, if_pos rfl, query_bind, heq, tmpBlks]
        cases rows.zipIdx.mapM fun r => Block.ofJson P (fresh r.2) r.1.json <;> rfl
      change ((sqlite3Exec true (getBlockCallback P fresh) (jsonColumn rows) >>= _)
        { bufs with tmpBlks := [] }).1 = _
      rw [query_bind, hexec, if_pos rfl]
      cases htmp : tmpBlks P fresh rows with
      | error e => rfl
      | ok cs =>
          rw [hbs cs htmp]
          rfl

theorem returns_getBlock (t : Table) (ok : Bool) (fresh : ℕ → Fresh) (num : UInt64) :
    Returns (getBlock P t ok fresh num) (SimpleBlockchain.getBlock P t ok fresh num) := by
  have h := returns_select (P := P) ok fresh (t.rows.filter (·.id = sqliteInteger num))
    (fun blks => blks[0]?) none
  have hpure : SimpleBlockchain.getBlock P t ok fresh num =
      if ok then (tmpBlks P fresh (t.rows.filter (·.id = sqliteInteger num))).map
        (fun blks => blks[0]?) else .ok none := by
    rw [SimpleBlockchain.getBlock]
    cases tmpBlks P fresh (t.rows.filter (·.id = sqliteInteger num)) with
    | error e => rfl
    | ok blks => simp [Except.map, List.head?_eq_getElem?]
  rw [hpure]
  exact h

theorem returns_getAllBlocks (t : Table) (ok : Bool) (fresh : ℕ → Fresh) :
    Returns (getAllBlocks P t ok fresh) (SimpleBlockchain.getAllBlocks P t ok fresh) := by
  have h := returns_select (P := P) ok fresh t.sorted id []
  rw [Except.map_id] at h
  exact h

theorem returns_getBlockCount {t : Table} (ht : t.rows.length < 2 ^ 64) (ok : Bool) :
    Returns (getBlockCount t ok) (.ok (SimpleBlockchain.getBlockCount t ok)) := by
  intro bufs
  cases ok with
  | false => rfl
  | true =>
      have hdigits : (decimal t.rows.length).takeWhile Char.isDigit = decimal t.rows.length :=
        (takeWhile_of_forall decimal_isDigit).1
      have hread : extractUInt64 (decimal t.rows.length) = UInt64.ofNat t.rows.length := by
        rw [extractUInt64, hdigits, decimal, Nat.ofDigitChars_ten_toDigits, min_eq_left (by omega)]
      rw [SimpleBlockchain.getBlockCount, if_pos rfl, ← hread]
      rfl

end SqlitePluginImpl

/-! ## The calls on the buffers -/

namespace ReadOnly

def getInfo (env : Env) (node : Node) : Query Variant := do
  let blkCount ← SqlitePluginImpl.getBlockCount node.db (env.sqlOk 0)
  let trxCount := node.buf.getCatchTrxsCount
  return .object [("block_num".toList, .uint64 blkCount), ("pending_trx".toList, .uint64 trxCount)]

def getBlock (P : Platform) (env : Env) (node : Node) (blkNum : UInt64) : Query Variant := do
  let blk ← SqlitePluginImpl.getBlock P node.db (env.sqlOk 0) env.fresh blkNum
  match blk with
  | some blk => return blk.toVariant P
  | none => return .object [("error".toList, .string "block not found".toList)]

def getBlocks (P : Platform) (env : Env) (node : Node) (blkNums : List UInt64) :
    Query (List Variant) := do
  if blkNums.length = 0 then
    let blocks ← SqlitePluginImpl.getAllBlocks P node.db (env.sqlOk 0) env.fresh
    return blocks.map (Block.toVariant P)
  else
    let blocks ← blkNums.zipIdx.mapM fun n =>
      SqlitePluginImpl.getBlock P node.db (env.sqlOk n.2) (fun i => env.fresh (n.2 + i)) n.1
    return blocks.filterMap fun blk => blk.map (Block.toVariant P)

def checkChain (P : Platform) (env : Env) (db : Table) : Query Variant := do
  let blocks ← SqlitePluginImpl.getAllBlocks P db (env.sqlOk 0) fun i => env.fresh (i + 1)
  let failed ← (checkLoop P (Block.new (env.fresh 0)) blocks : Except Exn (Option Block))
  match failed with
  | some checkBlk =>
      return .object [("result".toList, .int64 (-1)), ("block".toList, checkBlk.toVariant P)]
  | none => return resultZero

end ReadOnly

def startup (P : Platform) (env : Env) (db : Table) (buf : Buffer) : Query Startup := do
  let blkCount ← SqlitePluginImpl.getBlockCount db (env.sqlOk 0)
  if 0 < blkCount then
    let blk ← SqlitePluginImpl.getBlock P db (env.sqlOk 1) (fun i => env.fresh (i + 1))
      (blkCount - 1)
    match blk with
    | some lastBlock => return .started (buf.cacheLastBlk lastBlock)
    | none => return .undefinedBehaviour
  else return .started buf

/-- A running node and the buffers of its process. -/
structure Process where
  node : Node
  bufs : ResultBuffers

/-- A call that only reads, as the API gives its result. -/
def Process.read (p : Process) (q : Query Variant) (rcs : List Bool) : Outcome × ResultBuffers :=
  (⟨p.node, ⟨[(q p.bufs).1], none⟩, rcs⟩, (q p.bufs).2)

/-- `INSERT` has no rows, so the writing calls leave the buffers alone. -/
def Process.call (P : Platform) (env : Env) (p : Process) : Call → Outcome × ResultBuffers
  | .push params next => (pushTransaction P next p.node params, p.bufs)
  | .publish next => (publishBlk P env next p.node, p.bufs)
  | .getInfo => p.read (ReadOnly.getInfo env p.node) [env.sqlOk 0]
  | .getBlock blkNum => p.read (ReadOnly.getBlock P env p.node blkNum) [env.sqlOk 0]
  | .getBlocks blkNums =>
      p.read (do return .array (← ReadOnly.getBlocks P env p.node blkNums))
        ((List.range (max 1 blkNums.length)).map env.sqlOk)
  | .checkChain => p.read (ReadOnly.checkChain P env p.node.db) [env.sqlOk 0]

end SimpleBlockchain
