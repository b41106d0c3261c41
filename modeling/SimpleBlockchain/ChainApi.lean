import SimpleBlockchain.Signers

/-!
# The calls of the chain API

A call finds its parameters in the JSON body of a request. A member that the body lacks
keeps the value it has in a default-initialised structure.
-/

namespace SimpleBlockchain

/-- What a call of the API meets beside the database: the indeterminate value of
`get_block_params::blk_num`, the memory behind the buffer of `hex2char`, and the key that
`private_key::generate` returns. -/
structure ApiEnv extends Env where
  blkNum : UInt64
  beyond : Bytes
  generated : PrivateKey

/-! ## Parameters -/

def bodyVariant (P : Platform) (body : Str) : Except Exn Variant :=
  fromString P (if body = [] then "{}".toList else body)

theorem bodyVariant_nil {P : Platform} (hP : P.BoostExact) :
    bodyVariant P [] = .ok (.object []) := by
  have htext : toStream P (.object []) = "{}".toList := by
    rw [toStream, toStreamEntries]
    rfl
  have hread := fromString_toStream hP (k := 1) (v := .object [])
    (.object 0 [] (by simp) (by simp)) (by decide)
  rw [htext, reread, rereadEntries] at hread
  rw [bodyVariant, if_pos rfl, hread]

theorem bodyVariant_toStream {P : Platform} (hP : P.BoostExact) {k : ℕ} {o : List (Str × Variant)}
    (h : Storable k (.object o)) (hk : k < 100) :
    bodyVariant P (toStream P (.object o)) = .ok (reread (.object o)) := by
  have hne : toStream P (.object o) ≠ [] := by
    rw [toStream]
    exact List.cons_ne_nil _ _
  rw [bodyVariant, if_neg hne, fromString_toStream hP h hk]

/-- `from_variant` of `empty`, which has no members. -/
def emptyFromVariant (v : Variant) : Except Exn Unit := do
  let _ ← v.getObject
  .ok ()

def getBlockParams (P : Platform) (env : ApiEnv) (v : Variant) : Except Exn UInt64 := do
  let o ← v.getObject
  visitMember o "blk_num" env.blkNum (·.asUInt64 P)

def getBlocksParams (P : Platform) (v : Variant) : Except Exn (List UInt64) := do
  let o ← v.getObject
  visitMember o "blk_nums" [] fun nums => do
    let vars ← nums.getArray
    vars.mapM (·.asUInt64 P)

def hex2charParams (P : Platform) (v : Variant) : Except Exn Str := do
  let o ← v.getObject
  visitMember o "hex" [] (·.asString P)

def char2hexParams (P : Platform) (v : Variant) : Except Exn Str := do
  let o ← v.getObject
  visitMember o "str" [] (·.asString P)

structure SignTrxParams where
  trx : Variant
  key : Str

def SignTrxParams.fromVariant (P : Platform) (v : Variant) : Except Exn SignTrxParams := do
  let o ← v.getObject
  let trx ← visitMember o "trx" .null .ok
  let key ← visitMember o "key" [] (·.asString P)
  .ok ⟨trx, key⟩

/-- The member `type` is converted to a `uint32_t` and not read after that. -/
def PushTransactionParams.fromVariant (P : Platform) (v : Variant) :
    Except Exn PushTransactionParams := do
  let o ← v.getObject
  let _ ← visitMember o "type" 0 fun type => UInt64.toUInt32 <$> type.asUInt64 P
  let data ← visitMember o "data" [] (·.toBytes P)
  let attach ← visitMember o "attach" [] (·.toBytes P)
  let pubKey ← visitMember o "pub_key" blankPublicKey (PublicKey.fromVariant P)
  let signature ← visitMember o "signature" blankSignature (Signature.fromVariant P)
  let timePoint ← visitMember o "time_point" 0 (·.toTime P)
  .ok ⟨pubKey, signature, timePoint, data, attach⟩

/-! ## The calls that do not use the chain -/

def PrivateKey.toWif (P : Platform) (key : PrivateKey) : Str :=
  let data := 0x80 :: key.data.toList
  let digest := P.sha256 (P.sha256 data).toList
  toBase58 (data ++ digest.toList.take 4)

def PrivateKey.toStr (P : Platform) (key : PrivateKey) : Str :=
  if key.which = .k1 then key.toWif P else "PVT_".toList ++ base58Str P none key

def getKeys (P : Platform) (D : KeyDerivation) (env : ApiEnv) : Except Exn (List Variant) := do
  let pub ← env.generated.getPublicKey D
  .ok [.string (pub.toStr P), .string (env.generated.toStr P)]

/-- The text up to the first zero byte of a buffer of 1024 zero bytes, or of the memory
behind it when the buffer is full. -/
def hex2char (env : ApiEnv) (hex : Str) : Except Exn Str := do
  let outData ← fromHex hex 1024
  let buffer := outData ++ List.replicate (1024 - outData.length) 0
  .ok (((buffer ++ env.beyond).takeWhile (· ≠ 0)).map fun c => Char.ofNat c.toNat)

def char2hex (str : Str) : Str :=
  toHex (str.map fun c => UInt8.ofNat c.toNat) (UInt32.ofNat str.length)

/-! ## The handlers' calls -/

/-- The calls that the macro `CALL` makes handlers of. -/
inductive RoCall
  | getInfo
  | getBlock
  | getBlocks
  | getKeys
  | hex2char
  | char2hex
  | signTrx
  | checkChain
deriving DecidableEq

def RoCall.callName : RoCall → String
  | .getInfo => "get_info"
  | .getBlock => "get_block"
  | .getBlocks => "get_blocks"
  | .getKeys => "get_keys"
  | .hex2char => "hex2char"
  | .char2hex => "char2hex"
  | .signTrx => "sign_trx"
  | .checkChain => "check_chain"

def RoCall.run (P : Platform) (D : KeyDerivation) (env : ApiEnv) (node : Node) (v : Variant) :
    RoCall → Except Exn Variant
  | .getInfo => do
      let _ ← emptyFromVariant v
      .ok (SimpleBlockchain.getInfo env.toEnv node)
  | .getBlock => do
      let blkNum ← getBlockParams P env v
      getBlockCall P env.toEnv node blkNum
  | .getBlocks => do
      let blkNums ← getBlocksParams P v
      let blocks ← SimpleBlockchain.getBlocks P env.toEnv node blkNums
      .ok (.array blocks)
  | .getKeys => do
      let _ ← emptyFromVariant v
      let keys ← SimpleBlockchain.getKeys P D env
      .ok (.array keys)
  | .hex2char => do
      let hex ← hex2charParams P v
      let chars ← SimpleBlockchain.hex2char env hex
      .ok (.string chars)
  | .char2hex => do
      let str ← char2hexParams P v
      .ok (.string (SimpleBlockchain.char2hex str))
  | .signTrx => do
      let p ← SignTrxParams.fromVariant P v
      .ok (SimpleBlockchain.signTrx P D p.trx p.key)
  | .checkChain => do
      let _ ← emptyFromVariant v
      SimpleBlockchain.checkChain P env.toEnv node.db

/-- The calls that the macro `CALL_ASYNC` makes handlers of. -/
inductive RwCall
  | pushTransaction
  | publishBlk
deriving DecidableEq

def RwCall.callName : RwCall → String
  | .pushTransaction => "push_transaction"
  | .publishBlk => "publish_blk"

def RwCall.Params : RwCall → Type
  | .pushTransaction => PushTransactionParams
  | .publishBlk => Unit

def RwCall.paramsFromVariant (P : Platform) (v : Variant) :
    (call : RwCall) → Except Exn call.Params
  | .pushTransaction => PushTransactionParams.fromVariant P v
  | .publishBlk => emptyFromVariant v

def RwCall.run (P : Platform) (env : ApiEnv) (next : NextFunction Variant) (node : Node) :
    (call : RwCall) → call.Params → Outcome
  | .pushTransaction, p => SimpleBlockchain.pushTransaction P next node p
  | .publishBlk, _ => SimpleBlockchain.publishBlk P env.toEnv next node

/-- The text that `async_result_visitor` makes of a result. -/
def RwCall.resultText (P : Platform) (result : Variant) : RwCall → Str
  | .pushTransaction => toStream P (.object [("res".toList, result)])
  | .publishBlk => toStream P result

end SimpleBlockchain
