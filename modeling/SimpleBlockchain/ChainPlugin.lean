import SimpleBlockchain.Buffer
import SimpleBlockchain.SqlitePlugin

/-!
# The chain API

The calls of a running node. The two writing calls answer through a callback,
which is called again with the exception when it throws on a result.
-/

namespace SimpleBlockchain

/-- What a caller was given, in order, and the exception that escaped from its
own callback. -/
structure Answered (α : Type) where
  replies : List (Except Exn α)
  escaped : Option Exn

/-- A `next_function`: the exception it throws on a reply, if any. -/
abbrev NextFunction (α : Type) := Except Exn α → Option Exn

/-- The body of a call, up to its last statement `next(result)`, in a `try` block
that ends in `CATCH_AND_CALL(next)`. -/
def catchAndCall {α : Type} (next : NextFunction α) : Except Exn α → Answered α
  | .error e => ⟨[.error e], next (.error e)⟩
  | .ok a =>
      match next (.ok a) with
      | none => ⟨[.ok a], none⟩
      | some e => ⟨[.ok a, .error e], next (.error e)⟩

/-- A running node: the plugin's buffer and the table behind its database handle. -/
structure Node where
  buf : Buffer
  db : Table

/-! ## Startup -/

inductive Startup
  | started (buf : Buffer)
  | threw (e : Exn)
  /-- An optional without a value was dereferenced. -/
  | undefinedBehaviour

/-- `plugin_initialize` and `plugin_startup`. -/
def pluginStartup (P : Platform) (env : Env) (db : Table) : Startup :=
  match Buffer.new P (env.fresh 0) with
  | .error e => .threw e
  | .ok buf =>
      let blkCount := getBlockCount db (env.sqlOk 0)
      if 0 < blkCount then
        match getBlock P db (env.sqlOk 1) (fun i => env.fresh (i + 1)) (blkCount - 1) with
        | .error e => .threw e
        | .ok none => .undefinedBehaviour
        | .ok (some lastBlock) => .started (buf.cacheLastBlk lastBlock)
      else .started buf

/-! ## The writing calls -/

structure PushTransactionParams where
  pubKey : PublicKey
  signature : Signature
  timePoint : UInt32
  data : Bytes
  attach : Bytes

def PushTransactionParams.trx (p : PushTransactionParams) : Transaction :=
  ⟨p.timePoint, p.data, p.attach, p.signature, p.pubKey⟩

/-- The state after a writing call, what the caller was given, and whether each
SQL statement of the call returned `SQLITE_OK`. -/
structure Outcome where
  node : Node
  answered : Answered Variant
  rcs : List Bool

def pushTransaction (P : Platform) (next : NextFunction Variant) (node : Node)
    (p : PushTransactionParams) : Outcome :=
  match p.trx.validate P with
  | .error e => ⟨node, catchAndCall next (.error e), []⟩
  | .ok false =>
      ⟨node, catchAndCall next (.error ⟨.trxInvalidArg, "transaction is not acceptable"⟩), []⟩
  | .ok true =>
      ⟨{ node with buf := node.buf.cacheTrx p.trx },
        catchAndCall next (.ok (p.trx.toVariant P)), []⟩

def operationComplete : Variant :=
  .object [("message".toList, .string "operation complete".toList)]

def publishBlk (P : Platform) (env : Env) (next : NextFunction Variant) (node : Node) : Outcome :=
  match node.buf.buildBlock P (env.fresh 0) with
  | .error e => ⟨node, catchAndCall next (.error e), []⟩
  | .ok (buf, lastBlk) =>
      let (db, rc) := appendBlock P node.db (env.sqlOk 0) lastBlk
      ⟨⟨buf.cacheLastBlk lastBlk, db⟩, catchAndCall next (.ok operationComplete), [rc]⟩

/-! ## The reading calls -/

def getInfo (env : Env) (node : Node) : Variant :=
  .object
    [("block_num".toList, .uint64 (getBlockCount node.db (env.sqlOk 0))),
     ("pending_trx".toList, .uint64 node.buf.getCatchTrxsCount)]

def getBlockCall (P : Platform) (env : Env) (node : Node) (blkNum : UInt64) :
    Except Exn Variant := do
  let blk ← getBlock P node.db (env.sqlOk 0) env.fresh blkNum
  match blk with
  | some blk => .ok (blk.toVariant P)
  | none => .ok (.object [("error".toList, .string "block not found".toList)])

/-- `read_only::get_blocks`. The `i`-th number is looked up by the `i`-th statement. -/
def getBlocks (P : Platform) (env : Env) (node : Node) (blkNums : List UInt64) :
    Except Exn (List Variant) :=
  if blkNums.length = 0 then do
    let blocks ← getAllBlocks P node.db (env.sqlOk 0) env.fresh
    .ok (blocks.map (Block.toVariant P))
  else do
    let blocks ← blkNums.zipIdx.mapM fun n =>
      getBlock P node.db (env.sqlOk n.2) (fun i => env.fresh (n.2 + i)) n.1
    .ok (blocks.filterMap fun blk => blk.map (Block.toVariant P))

/-- The loop that `read_only::check_chain` and `tool_plugin::check_chain` share:
the block before the one that fails the check, if one does. -/
def checkLoop (P : Platform) (checkBlk : Block) : List Block → Except Exn (Option Block)
  | [] => .ok none
  | idx :: blocks =>
      if idx.blkNum = 0 then checkLoop P idx blocks
      else do
        let passed ← idx.checkBlock P checkBlk
        if passed then checkLoop P idx blocks else .ok (some checkBlk)

/-- The reply of `read_only::check_chain` when every block passed. -/
def resultZero : Variant := .object [("result".toList, .int64 0), ("block".toList, .int64 0)]

def checkChain (P : Platform) (env : Env) (db : Table) : Except Exn Variant := do
  let blocks ← getAllBlocks P db (env.sqlOk 0) fun i => env.fresh (i + 1)
  match ← checkLoop P (Block.new (env.fresh 0)) blocks with
  | some checkBlk =>
      .ok (.object [("result".toList, .int64 (-1)), ("block".toList, checkBlk.toVariant P)])
  | none => .ok resultZero

def toolCheckChain (P : Platform) (env : Env) (db : Table) : Except Exn Bool := do
  let blocks ← getAllBlocks P db (env.sqlOk 0) fun i => env.fresh (i + 1)
  match ← checkLoop P (Block.new (env.fresh 0)) blocks with
  | some _ => .ok false
  | none => .ok true

/-! ## What the calls do -/

theorem pluginStartup_started {P : Platform} {env : Env} {db : Table} {buf : Buffer}
    (h : pluginStartup P env db = .started buf) :
    buf.trxPool = [] ∧ PrivateKey.ofStr P privateKeyStr = .ok buf.privateKey ∧
      ((getBlockCount db (env.sqlOk 0) = 0 ∧ buf.lastBlock = Block.new (env.fresh 0)) ∨
        getBlock P db (env.sqlOk 1) (fun i => env.fresh (i + 1))
          (getBlockCount db (env.sqlOk 0) - 1) = .ok (some buf.lastBlock)) := by
  unfold pluginStartup at h
  cases hnew : Buffer.new P (env.fresh 0) with
  | error e =>
      rw [hnew] at h
      cases h
  | ok buf₀ =>
      obtain ⟨hpool, hkey, htip⟩ := Buffer.new_eq_ok hnew
      simp only [hnew] at h
      split at h
      next hcount =>
        split at h
        · cases h
        · cases h
        next lastBlock hget =>
          cases h
          exact ⟨hpool, hkey, Or.inr hget⟩
      next hcount =>
        cases h
        refine ⟨hpool, hkey, Or.inl ⟨?_, htip⟩⟩
        rw [← UInt64.toNat_inj, UInt64.toNat_zero, ← Nat.le_zero, ← Nat.not_lt]
        exact hcount

section Calls

variable (P : Platform) (env : Env) (next : NextFunction Variant) (node : Node)

theorem pushTransaction_cases (p : PushTransactionParams) :
    (p.trx.validate P = .ok true ∧ pushTransaction P next node p =
      ⟨{ node with buf := node.buf.cacheTrx p.trx },
        catchAndCall next (.ok (p.trx.toVariant P)), []⟩) ∨
    (p.trx.validate P ≠ .ok true ∧ ∃ e, pushTransaction P next node p =
      ⟨node, catchAndCall next (.error e), []⟩) := by
  unfold pushTransaction
  cases p.trx.validate P with
  | error e => exact Or.inr ⟨by simp, e, rfl⟩
  | ok valid =>
      cases valid with
      | false => exact Or.inr ⟨by simp, _, rfl⟩
      | true => exact Or.inl ⟨rfl, rfl⟩

variable {P env next node}

theorem publishBlk_of_error {e : Exn} (h : node.buf.buildBlock P (env.fresh 0) = .error e) :
    publishBlk P env next node = ⟨node, catchAndCall next (.error e), []⟩ := by
  rw [publishBlk, h]

theorem publishBlk_of_build {buf : Buffer} {b : Block}
    (h : node.buf.buildBlock P (env.fresh 0) = .ok (buf, b)) :
    publishBlk P env next node =
      ⟨⟨buf.cacheLastBlk b, (appendBlock P node.db (env.sqlOk 0) b).1⟩,
        catchAndCall next (.ok operationComplete),
        [(appendBlock P node.db (env.sqlOk 0) b).2]⟩ := by
  rw [publishBlk, h]

variable (P env next node) in
theorem publishBlk_cases :
    (∃ e, node.buf.buildBlock P (env.fresh 0) = .error e ∧ publishBlk P env next node =
      ⟨node, catchAndCall next (.error e), []⟩) ∨
    (∃ b valid, Built P (env.fresh 0) node.buf valid b ∧ publishBlk P env next node =
      ⟨⟨{ node.buf with trxPool := [], lastBlock := b },
        (appendBlock P node.db (env.sqlOk 0) b).1⟩,
        catchAndCall next (.ok operationComplete),
        [(appendBlock P node.db (env.sqlOk 0) b).2]⟩) := by
  cases h : node.buf.buildBlock P (env.fresh 0) with
  | error e => exact Or.inl ⟨e, rfl, publishBlk_of_error h⟩
  | ok r =>
      obtain ⟨buf, b⟩ := r
      obtain ⟨rfl, valid, hb⟩ := buildBlock_cases h
      exact Or.inr ⟨b, valid, hb, publishBlk_of_build h⟩

end Calls

end SimpleBlockchain
