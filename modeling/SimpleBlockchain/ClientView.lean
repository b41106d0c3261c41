import SimpleBlockchain.Conservation
import SimpleBlockchain.Exchanges
import SimpleBlockchain.BlockQueries
import SimpleBlockchain.Ledger

/-!
# What a client sees

A client knows what it asked and reads the text of the answer with the parser and the
conversions of the node. Of an answer that it cannot read it sees nothing.
-/

namespace SimpleBlockchain

open Ledger (Event)

/-- What happens between a node and its clients, in order. -/
inductive Exchange
  | started
  | stopped
  | request (req : Request) (written : List Response)

def Variant.member (v : Variant) (key : String) : Option Variant :=
  match v with
  | .object o => findKey o key
  | _ => none

namespace Client

variable (P : Platform) (f : Fresh)

def read (text : Str) : Option Variant := (fromString P text).toOption

def number (v : Variant) (key : String) : Option UInt64 := do
  let w ← v.member key
  (w.asUInt64 P).toOption

def trx (text : Str) : Option Transaction := do
  let v ← read P text
  let res ← v.member "res"
  (Transaction.fromVariant P res).toOption

def info (text : Str) : Option (UInt64 × UInt64) := do
  let v ← read P text
  let blockNum ← number P v "block_num"
  let pendingTrx ← number P v "pending_trx"
  some (blockNum, pendingTrx)

def block (text : Str) : Option (Option Block) := do
  let v ← read P text
  if (v.member "error").isSome then some none
  else (Block.fromVariant P (Block.new f) v).toOption.map some

def blocks (text : Str) : Option (List Block) := do
  let v ← read P text
  let vars ← v.getArray.toOption
  (vars.mapM (Block.fromVariant P (Block.new f))).toOption

def passed (text : Str) : Option Bool := do
  let v ← read P text
  let result ← number P v "result"
  some (result = 0)

def askedBlock (body : Str) : Option UInt64 := do
  let v ← (bodyVariant P body).toOption
  number P v "blk_num"

def askedBlocks (body : Str) : Option (List UInt64) :=
  (bodyVariant P body >>= getBlocksParams P).toOption

def roEvent (body text : Str) : RoCall → Option (Event Transaction Block)
  | .getInfo => (info P text).map fun r => .info r.1.toNat r.2.toNat
  | .getBlock => do
      let k ← askedBlock P body
      let b ← block P f text
      some (.block k.toNat b)
  | .getBlocks => do
      let ks ← askedBlocks P body
      let bs ← blocks P f text
      some (if ks = [] then .allBlocks bs else .blocks (ks.map UInt64.toNat) bs)
  | .checkChain => (passed P text).map .checked
  | .getKeys | .hex2char | .char2hex | .signTrx => none

def rwEvent (text : Str) : RwCall → Option (Event Transaction Block)
  | .pushTransaction => (trx P text).map .accepted
  | .publishBlk => some .published

def replyEvent (req : Request) (r : Response) : Option (Event Transaction Block) :=
  match urlHandlers.find? (·.1 = req.resource) with
  | some (_, .ro call) => if r.status = 200 then roEvent P f req.body r.body call else none
  | some (_, .rw call) => if r.status = 202 then rwEvent P r.body call else none
  | none => none

/-- What an exchange shows. The answer to `OPTIONS` shows nothing. -/
def observe : Exchange → Option (Event Transaction Block)
  | .started => some .start
  | .stopped => some .stop
  | .request req [r] =>
      if req.method = "OPTIONS".toList then none else replyEvent P f req r
  | .request _ _ => none

end Client

/-! ## The client reads what the node answers -/

section Read

variable {P : Platform}

theorem Client.read_toStream (hP : P.BoostExact) {k : ℕ} {v : Variant} (h : Storable k v)
    (hk : k < 100) : Client.read P (toStream P v) = some (reread v) := by
  rw [Client.read, fromString_toStream hP h hk]
  rfl

theorem Client.trx_resultText (hP : P.BoostExact) (t : Transaction) :
    Client.trx P (RwCall.pushTransaction.resultText P (t.toVariant P)) = some t.cut := by
  have hstore : Storable 2 (.object [("res".toList, t.toVariant P)]) := by
    refine .object 1 _ ?_ ?_
    · exact List.forall_mem_singleton.2 (plain_name (by decide))
    · exact List.forall_mem_singleton.2 (Transaction.storable_toVariant hP t)
  have hreread : reread (.object [("res".toList, t.toVariant P)]) =
      .object [("res".toList, t.toVariant P)] := by
    rw [reread, rereadEntries, rereadEntries, Transaction.reread_toVariant]
  have hmember : (Variant.object [("res".toList, t.toVariant P)]).member "res" =
      some (t.toVariant P) := rfl
  rw [Client.trx, RwCall.resultText, Client.read_toStream hP hstore (by decide), hreread,
    Option.bind_eq_bind, Option.bind_some, hmember, Option.bind_some,
    Transaction.fromVariant_toVariant hP]
  rfl

theorem Client.info_text (hP : P.BoostExact) (n m : UInt64) :
    Client.info P (toStream P (.object
      [("block_num".toList, .uint64 n), ("pending_trx".toList, .uint64 m)])) = some (n, m) := by
  have hstore : Storable 1 (.object
      [("block_num".toList, .uint64 n), ("pending_trx".toList, .uint64 m)]) := by
    refine .object 0 _ ?_ ?_
    · simp only [List.forall_mem_cons]
      exact ⟨plain_name (by decide), plain_name (by decide), by simp⟩
    · simp only [List.forall_mem_cons]
      exact ⟨.uint64 0 n, .uint64 0 m, by simp⟩
  rw [Client.info, Client.read_toStream hP hstore (by decide), reread, rereadEntries,
    rereadEntries, rereadEntries]
  have hn : Client.number P (.object [("block_num".toList, reread (.uint64 n)),
      ("pending_trx".toList, reread (.uint64 m))]) "block_num" = some n := by
    have hcast := Block.asUInt64_reread hP n
    exact congrArg Except.toOption hcast
  have hm : Client.number P (.object [("block_num".toList, reread (.uint64 n)),
      ("pending_trx".toList, reread (.uint64 m))]) "pending_trx" = some m := by
    have hcast := Block.asUInt64_reread hP m
    exact congrArg Except.toOption hcast
  simp only [Option.bind_eq_bind, Option.bind_some, hn, hm]

theorem Client.block_toJson (hP : P.BoostExact) (f : Fresh) (b : Block) :
    Client.block P f (b.toJson P) = some (some b.cut) := by
  have hmember : (reread (b.toVariant P)).member "error" = none := rfl
  rw [Client.block, Block.toJson, Client.read_toStream hP (Block.storable_toVariant hP b)
    (by decide), Option.bind_eq_bind, Option.bind_some, hmember, if_neg (by decide),
    Block.fromVariant_reread hP]
  rfl

theorem Client.block_notFound (hP : P.BoostExact) (f : Fresh) :
    Client.block P f (toStream P (.object
      [("error".toList, .string "block not found".toList)])) = some none := by
  have hstore : Storable 1 (.object [("error".toList, .string "block not found".toList)]) := by
    refine .object 0 _ ?_ ?_
    · exact List.forall_mem_singleton.2 (plain_name (by decide))
    · have htext : ∀ c ∈ "block not found".toList, 32 ≤ c.toNat := forall_mem_of_all (by decide)
      exact List.forall_mem_singleton.2 (.string 0 _ fun c hc => .inl (htext c hc))
  rw [Client.block, Client.read_toStream hP hstore (by decide)]
  rfl

theorem mapM_fromVariant (hP : P.BoostExact) (b₀ : Block) (bs : List Block) :
    (rereadElems (bs.map (Block.toVariant P))).mapM (Block.fromVariant P b₀) =
      .ok (bs.map Block.cut) := by
  induction bs with
  | nil => rfl
  | cons b bs ih =>
      rw [List.map_cons, rereadElems, List.mapM_cons, Block.fromVariant_reread hP, ok_bind, ih]
      rfl

theorem Client.blocks_text (hP : P.BoostExact) (f : Fresh) (bs : List Block) :
    Client.blocks P f (toStream P (.array (bs.map (Block.toVariant P)))) =
      some (bs.map Block.cut) := by
  have hstore : Storable 4 (.array (bs.map (Block.toVariant P))) := by
    refine .array 3 _ fun v hv => ?_
    obtain ⟨b, _, rfl⟩ := List.mem_map.1 hv
    exact Block.storable_toVariant hP b
  have harray : (Variant.array (rereadElems (bs.map (Block.toVariant P)))).getArray.toOption =
      some (rereadElems (bs.map (Block.toVariant P))) := rfl
  rw [Client.blocks, Client.read_toStream hP hstore (by decide), reread]
  simp only [Option.bind_eq_bind, Option.bind_some, harray, mapM_fromVariant hP]
  rfl

/-- A signed zero is printed as an unsigned one. -/
theorem Client.passed_resultZero (hP : P.BoostExact) :
    Client.passed P (toStream P resultZero) = some true := by
  have htext : toStream P resultZero =
      toStream P (.object [("result".toList, .uint64 0), ("block".toList, .uint64 0)]) := rfl
  have hstore : Storable 1 (.object
      [("result".toList, .uint64 0), ("block".toList, .uint64 0)]) := by
    refine .object 0 _ ?_ ?_
    · simp only [List.forall_mem_cons]
      exact ⟨plain_name (by decide), plain_name (by decide), by simp⟩
    · simp only [List.forall_mem_cons]
      exact ⟨.uint64 0 0, .uint64 0 0, by simp⟩
  rw [htext, Client.passed, Client.read_toStream hP hstore (by decide)]
  rfl

theorem Client.askedBlock_eq (env : ApiEnv) {body : Str} {k : UInt64}
    (h : Client.askedBlock P body = some k) :
    (bodyVariant P body >>= getBlockParams P env) = .ok k := by
  unfold Client.askedBlock at h
  cases hv : bodyVariant P body with
  | error e =>
      rw [hv] at h
      cases h
  | ok v =>
      rw [hv] at h
      cases v with
      | object o =>
          have hnum : Client.number P (.object o) "blk_num" = some k := h
          rw [Client.number, Variant.member] at hnum
          rw [ok_bind, getBlockParams, Variant.getObject, ok_bind, visitMember]
          cases hfind : findKey o "blk_num" with
          | none =>
              rw [hfind] at hnum
              cases hnum
          | some w =>
              rw [hfind, Option.bind_eq_bind, Option.bind_some] at hnum
              cases hcast : w.asUInt64 P with
              | error e =>
                  rw [hcast] at hnum
                  cases hnum
              | ok n =>
                  rw [hcast] at hnum
                  cases hnum
                  exact hcast
      | _ => cases h

theorem Client.askedBlocks_eq {body : Str} {ks : List UInt64}
    (h : Client.askedBlocks P body = some ks) :
    (bodyVariant P body >>= getBlocksParams P) = .ok ks := by
  unfold Client.askedBlocks at h
  cases hks : bodyVariant P body >>= getBlocksParams P with
  | error e =>
      rw [hks] at h
      cases h
  | ok ks' =>
      rw [hks] at h
      cases h
      rfl

end Read

end SimpleBlockchain
