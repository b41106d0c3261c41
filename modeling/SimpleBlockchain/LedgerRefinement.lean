import SimpleBlockchain.ClientView
import SimpleBlockchain.Restart

/-!
# The node is a ledger

Every run of a node whose SQL statements succeed is seen by its clients as a run of a
ledger, whatever they send and however often the node is restarted.
-/

namespace SimpleBlockchain

open HashChain Transition
open Ledger (Event Rules)

/-- A block may follow a chain when it has its length for a number, names the last block,
covers its transactions and is signed by the producer. -/
structure FollowsChain (P : Platform) (bs : List Block) (b : Block) : Prop where
  blkNum : b.blkNum.toNat = bs.length
  priorHash : b.priorHash = bs.getLast?.elim zeroSha256 (Block.digest P)
  merkleRoot : ∃ packed, packVector Transaction.pack b.trxs = .ok packed ∧
    b.merkleRoot = P.sha256 packed
  valid : b.valid P = .ok true

def ledgerRules (P : Platform) : Rules Transaction Block where
  admits := Admitted P
  trxs := Block.trxs
  follows := FollowsChain P
  maxPool := maxNumArrayElements

/-- One step of a system whose SQL statements succeed, with what passes between the node
and its clients. -/
inductive NodeStep (H : HttpPlugin) (P : Platform) (D : KeyDerivation) :
    System → Exchange → System → Prop
  | start {db env buf} : env.Succeeds → pluginStartup P env db = .started buf →
      NodeStep H P D (.down db) .started (.up ⟨buf, db⟩)
  | request {node} {env : ApiEnv} (req : Request) : env.Succeeds →
      NodeStep H P D (.up node) (.request req (processRequest H P D env node req).2.written)
        (.up (processRequest H P D env node req).1)
  | stop {node} : NodeStep H P D (.up node) .stopped (.down node.db)

def nodeLts (H : HttpPlugin) (P : Platform) (D : KeyDerivation) : Lts System Exchange where
  initial s := s = .down .empty
  step := NodeStep H P D

def System.size : System → ℕ
  | .down db => db.rows.length
  | .up node => node.db.rows.length + node.buf.trxPool.length

inductive Shows (P : Platform) : System → Ledger.State Transaction Block → Prop
  | down {db bs} : HonestChain P bs → db.rows = bs.map (rowOf P) → Shows P (.down db) (.down bs)
  | up {node bs} : HonestChain P bs → node.db.rows = bs.map (rowOf P) → Follows P bs node.buf →
      Shows P (.up node) (.up bs node.buf.trxPool)

variable {H : HttpPlugin} {P : Platform} {D : KeyDerivation} {env : ApiEnv} {node : Node}
  {bs : List Block} {req : Request} {f : Fresh}

/-! ## The size of a system -/

theorem buildBlock_trxPool {buf buf' : Buffer} {b : Block} {g : Fresh}
    (h : buf.buildBlock P g = .ok (buf', b)) : buf'.trxPool = [] := by
  rw [(buildBlock_cases h).1]

theorem insert_length_le (t : Table) (ok : Bool) (row : Row) :
    (t.insert ok row).1.rows.length ≤ t.rows.length + 1 := by
  cases h : (t.insert ok row).2 with
  | false => rw [Table.insert_failed h]; exact Nat.le_succ _
  | true => rw [(Table.insert_ok h).2.2, List.length_append, List.length_singleton]

theorem NodeStep.size_le {s s' : System} {d : Exchange} (h : NodeStep H P D s d s') :
    s'.size ≤ s.size + 1 := by
  cases h with
  | @start db env buf _ hstart =>
      have hpool := (pluginStartup_started hstart).1
      simp only [System.size, hpool, List.length_nil]
      omega
  | @request node env req _ =>
      by_cases hpush : ∃ t, AcceptedPush H P req t
      · obtain ⟨t, ht⟩ := hpush
        rw [(processRequest_accepted P D env node ht).1]
        simp only [System.size, Buffer.cacheTrx, List.length_append, List.length_singleton]
        omega
      by_cases hpublish : ∃ buf b, BuiltPublish H P env node req buf b
      · obtain ⟨buf, b, hb⟩ := hpublish
        have hpool : buf.trxPool = [] := buildBlock_trxPool hb.2.2.2
        have hlen := insert_length_le node.db (env.sqlOk 0)
          ⟨sqliteInteger b.blkNum, toHex (b.digest P).toList 32, b.toJson P⟩
        rw [← appendBlock] at hlen
        rw [(processRequest_built P D env node hb).1]
        simp only [System.size, Buffer.cacheLastBlk, hpool, List.length_nil]
        omega
      · rw [(processRequest_other P D env node (fun t ht => hpush ⟨t, ht⟩)
          fun buf b hb => hpublish ⟨buf, b, hb⟩).1]
        exact Nat.le_succ _
  | stop =>
      simp only [System.size]
      omega

/-! ## Reading calls -/

section Answers

variable (hP : P.BoostExact) (h : HonestChain P bs) (hrows : node.db.rows = bs.map (rowOf P))

theorem checkChain_resultZero (hP : P.BoostExact) (hsign : P.ProducerSigns)
    (h : HonestChain P bs) {db : Table} (hrows : db.rows = bs.map (rowOf P)) {env : Env}
    (henv : env.Succeeds) : checkChain P env db = .ok resultZero := by
  have hall := (Represents.down h hrows).getAllBlocks hP fun i => env.fresh (i + 1)
  rw [System.db, ← henv 0] at hall
  rw [checkChain_eq_resultZero hall, checkLoop_new]
  refine ⟨fun b => h.blkNum_zero, fun i b c hb hc => h.passes hb hc ?_⟩
  exact valid_of_signed hsign (h.signed c (List.mem_of_getElem? hc))

include hP hrows in
theorem Client.info_getInfo {env : Env} (henv : env.Succeeds) :
    Client.info P (toStream P (getInfo env node)) =
      some (UInt64.ofNat bs.length, UInt64.ofNat node.buf.trxPool.length) := by
  rw [getInfo, henv, HonestChain.getBlockCount hrows, Buffer.getCatchTrxsCount,
    Client.info_text hP]

include h in
theorem HonestChain.cut_of_getElem? {k : ℕ} {b : Block} (hb : bs[k]? = some b) : b.cut = b :=
  Block.cut_eq_self.2 (h.small b (List.mem_of_getElem? hb))

include hP h hrows in
theorem Client.block_getBlockCall (f : Fresh) (hlen : bs.length < 2 ^ 63) {env : Env}
    (henv : env.Succeeds) (k : UInt64) : ∃ result, getBlockCall P env node k = .ok result ∧
      Client.block P f (toStream P result) = some bs[k.toNat]? := by
  rw [getBlockCall, henv, h.getBlock hP hrows hlen, ok_bind]
  cases hget : bs[k.toNat]? with
  | none => exact ⟨_, rfl, Client.block_notFound hP f⟩
  | some c =>
      refine ⟨_, rfl, ?_⟩
      rw [← Block.toJson, Client.block_toJson hP, h.cut_of_getElem? hget]

include hP h hrows in
theorem Client.blocks_all (f : Fresh) {env : Env} (henv : env.Succeeds) :
    ∃ result, getBlocks P env node [] = .ok result ∧
      Client.blocks P f (toStream P (.array result)) = some bs := by
  have hget := (Represents.down h hrows).getAllBlocks hP env.fresh
  rw [System.db] at hget
  rw [getBlocks, if_pos List.length_nil, henv, hget, ok_bind]
  refine ⟨_, rfl, ?_⟩
  rw [Client.blocks_text hP, h.map_cut]

include hP h hrows in
theorem Client.blocks_listed (f : Fresh) (hlen : bs.length < 2 ^ 63) {env : Env}
    (henv : env.Succeeds) {ks : List UInt64} (hne : ks ≠ []) :
    ∃ result, getBlocks P env node ks = .ok result ∧
      Client.blocks P f (toStream P (.array result)) =
        some ((ks.map UInt64.toNat).filterMap (bs[·]?)) := by
  have hlisted : (ks.filterMap fun k => bs[k.toNat]?.map (Block.toVariant P)) =
      ((ks.map UInt64.toNat).filterMap (bs[·]?)).map (Block.toVariant P) := by
    rw [List.filterMap_map, List.map_filterMap]
    rfl
  have hcut : ((ks.map UInt64.toNat).filterMap (bs[·]?)).map Block.cut =
      (ks.map UInt64.toNat).filterMap (bs[·]?) := by
    rw [List.map_congr_left (g := id), List.map_id]
    intro c hc
    obtain ⟨k, _, hget⟩ := List.mem_filterMap.1 hc
    exact h.cut_of_getElem? hget
  rw [h.getBlocks hP hrows hlen henv hne, hlisted]
  refine ⟨_, rfl, ?_⟩
  rw [Client.blocks_text hP, hcut]

end Answers

theorem toNat_ofNat {n : ℕ} (h : n < 2 ^ 63) : (UInt64.ofNat n).toNat = n :=
  UInt64.toNat_ofNat_of_lt' (by rw [UInt64.size]; omega)

theorem roEvent_step (hP : P.BoostExact) (hsign : P.ProducerSigns) (h : HonestChain P bs)
    (hrows : node.db.rows = bs.map (rowOf P)) (hlen : bs.length < 2 ^ 63)
    (hpool : node.buf.trxPool.length < 2 ^ 63) (henv : env.Succeeds) {call : RoCall} {body : Str}
    {result : Variant} (hresult : call.result P D env node body = .ok result)
    {e : Event Transaction Block}
    (he : Client.roEvent P f body (toStream P result) call = some e) :
    Ledger.Step (ledgerRules P) (.up bs node.buf.trxPool) e (.up bs node.buf.trxPool) := by
  obtain ⟨v, hv, hrun⟩ := bind_eq_ok.1 hresult
  cases call with
  | getInfo =>
      obtain ⟨_, _, hrun⟩ := bind_eq_ok.1 hrun
      cases hrun
      rw [Client.roEvent, Client.info_getInfo hP hrows henv, Option.map_some] at he
      cases he
      rw [toNat_ofNat hlen, toNat_ofNat hpool]
      exact .info bs node.buf.trxPool
  | getBlock =>
      obtain ⟨k, hk, he⟩ := Option.bind_eq_some_iff.1 he
      obtain ⟨b, hb, he⟩ := Option.bind_eq_some_iff.1 he
      cases he
      obtain ⟨v', hv', hparams⟩ := bind_eq_ok.1 (Client.askedBlock_eq env hk)
      rw [hv, Except.ok.injEq] at hv'
      subst hv'
      obtain ⟨result', hcall, hread⟩ :=
        Client.block_getBlockCall hP h hrows f hlen henv k
      rw [RoCall.run, hparams, ok_bind, hcall, Except.ok.injEq] at hrun
      rw [← hrun, hread, Option.some.injEq] at hb
      rw [← hb]
      exact .block bs node.buf.trxPool k.toNat
  | getBlocks =>
      obtain ⟨ks, hks, he⟩ := Option.bind_eq_some_iff.1 he
      obtain ⟨cs, hcs, he⟩ := Option.bind_eq_some_iff.1 he
      cases he
      obtain ⟨v', hv', hparams⟩ := bind_eq_ok.1 (Client.askedBlocks_eq hks)
      rw [hv, Except.ok.injEq] at hv'
      subst hv'
      rw [RoCall.run, hparams, ok_bind] at hrun
      by_cases hne : ks = []
      · obtain ⟨result', hcall, hread⟩ := Client.blocks_all hP h hrows f henv
        rw [hne, hcall, ok_bind, Except.ok.injEq] at hrun
        rw [← hrun, hread, Option.some.injEq] at hcs
        rw [if_pos hne, ← hcs]
        exact .allBlocks bs node.buf.trxPool
      · obtain ⟨result', hcall, hread⟩ := Client.blocks_listed hP h hrows f hlen henv hne
        rw [hcall, ok_bind, Except.ok.injEq] at hrun
        rw [← hrun, hread, Option.some.injEq] at hcs
        rw [if_neg hne, ← hcs]
        exact .blocks bs node.buf.trxPool (ks.map UInt64.toNat) (by simpa using hne)
  | checkChain =>
      obtain ⟨_, _, hrun⟩ := bind_eq_ok.1 hrun
      rw [checkChain_resultZero hP hsign h hrows henv, Except.ok.injEq] at hrun
      rw [← hrun, Client.roEvent, Client.passed_resultZero hP, Option.map_some,
        Option.some.injEq] at he
      rw [← he]
      exact .checked bs node.buf.trxPool
  | _ => cases he

/-! ## Writing calls -/

/-- The next block of a chain of fewer than `2 ^ 63` blocks always finds its number free. -/
theorem HonestChain.free (hsign : P.ProducerSigns) (h : HonestChain P bs)
    (hf : Follows P bs node.buf) (hrows : node.db.rows = bs.map (rowOf P))
    (hlen : bs.length < 2 ^ 63) {g : Fresh} {valid : Bool} {b : Block}
    (hb : Built P g node.buf valid b) : sqliteInteger b.blkNum ∉ node.db.rows.map Row.id := by
  have hnum := h.built_blkNum hsign hf hb
  rw [sqliteInteger_eq (by omega), hnum, h.mem_ids hrows]
  exact Nat.lt_irrefl _

theorem publish_step (hsign : P.ProducerSigns) (h : HonestChain P bs)
    (hrows : node.db.rows = bs.map (rowOf P)) (hf : Follows P bs node.buf)
    (hlen : bs.length < 2 ^ 63) (henv : env.Succeeds) {buf : Buffer} {b : Block}
    (hbuild : node.buf.buildBlock P (env.fresh 0) = .ok (buf, b)) :
    Ledger.Step (ledgerRules P) (.up bs node.buf.trxPool) .published (.up (bs ++ [b]) []) ∧
      Shows P (.up ⟨buf.cacheLastBlk b, (appendBlock P node.db (env.sqlOk 0) b).1⟩)
        (.up (bs ++ [b]) []) := by
  obtain ⟨rfl, valid, hb⟩ := buildBlock_cases hbuild
  have hfree := h.free hsign hf hrows hlen hb
  obtain ⟨hnum, hid, hzero, hprior⟩ := h.built_next hf hb hrows hfree
  have hvalid : b.valid P = .ok true := valid_of_signed hsign ⟨_, hf.privateKey, hb.sig_eq⟩
  constructor
  · refine .published bs _ b ⟨hnum, ?_, hb.merkleRoot_eq, hvalid⟩ hb.trxs_eq ?_
    · cases hl : bs.getLast? with
      | none => exact hzero (List.getLast?_eq_none_iff.1 hl)
      | some l => exact (hprior l hl).1
    · obtain ⟨packed, hpacked, _⟩ := hb.merkleRoot_eq
      obtain ⟨_, hle, _⟩ := bind_eq_ok.1 hpacked
      rw [← hb.trxs_eq]
      exact fcAssert_eq_ok.1 hle
  · have hrc : (appendBlock P node.db (env.sqlOk 0) b).2 = true := by
      rw [henv]
      exact Table.insert_of_free hfree
    have hrows' := (Table.insert_ok hrc).2.2
    have hshows := @Shows.up P ⟨{ node.buf with trxPool := [], lastBlock := b },
      (appendBlock P node.db (env.sqlOk 0) b).1⟩ (bs ++ [b]) (h.concat hf hb hrows hfree) ?_ ?_
    · exact hshows
    · rw [appendBlock, hrows', hrows, List.map_append, List.map_singleton, rowOf, hnum, hid]
    · refine ⟨hf.privateKey, fun t ht => absurd ht List.not_mem_nil, fun c hc => ?_,
        fun hnil => ?_⟩
      · rw [List.getLast?_concat, Option.some.injEq] at hc
        exact hc
      · simp at hnil

/-! ## What is seen of a request -/

section Observe

variable {con : Con} {code : ℕ} {body : Str}

theorem observe_ro (hmethod : req.method ≠ "OPTIONS".toList) {call : RoCall}
    (hurl : req.resource = apiUrl call.callName) (h : con.Replied code body) :
    Client.observe P f (.request req con.written) =
      if code = 200 then Client.roEvent P f req.body body call else none := by
  obtain ⟨r, hwritten, rfl, rfl⟩ := h
  have hfind := find?_roCall call
  rw [← hurl] at hfind
  rw [hwritten, Client.observe, if_neg hmethod, Client.replyEvent, hfind]

theorem observe_rw (hmethod : req.method ≠ "OPTIONS".toList) {call : RwCall}
    (hurl : req.resource = apiUrl call.callName) (h : con.Replied code body) :
    Client.observe P f (.request req con.written) =
      if code = 202 then Client.rwEvent P body call else none := by
  obtain ⟨r, hwritten, rfl, rfl⟩ := h
  have hfind := find?_rwCall call
  rw [← hurl] at hfind
  rw [hwritten, Client.observe, if_neg hmethod, Client.replyEvent, hfind]

theorem observe_nothing (h : con.written = []) :
    Client.observe P f (.request req con.written) = none := by
  rw [h]
  rfl

theorem observe_status (h : ∃ r, con.written = [r] ∧ r.status ≠ 202 ∧
    (req.method = "OPTIONS".toList ∨ r.status ≠ 200)) :
    Client.observe P f (.request req con.written) = none := by
  obtain ⟨r, hwritten, hne, hok⟩ := h
  rw [hwritten, Client.observe]
  by_cases hmethod : req.method = "OPTIONS".toList
  · rw [if_pos hmethod]
  · rw [if_neg hmethod, Client.replyEvent]
    cases urlHandlers.find? (·.1 = req.resource) with
    | none => rfl
    | some entry =>
        obtain ⟨url, handler⟩ := entry
        cases handler with
        | ro call => exact if_neg (hok.resolve_left hmethod)
        | rw call => exact if_neg hne

end Observe

/-- A request is not seen and changes nothing, or it is seen as a step of the ledger. -/
theorem request_step (hP : P.BoostExact) (hsign : P.ProducerSigns) (h : HonestChain P bs)
    (hrows : node.db.rows = bs.map (rowOf P)) (hf : Follows P bs node.buf)
    (hlen : bs.length < 2 ^ 63) (hpool : node.buf.trxPool.length < 2 ^ 63) (henv : env.Succeeds)
    (f : Fresh) (H : HttpPlugin) (D : KeyDerivation) (req : Request) :
    (Client.observe P f (.request req (processRequest H P D env node req).2.written) = none ∧
      (processRequest H P D env node req).1 = node) ∨
    ∃ e a, Client.observe P f (.request req (processRequest H P D env node req).2.written) =
        some e ∧ Ledger.Step (ledgerRules P) (.up bs node.buf.trxPool) e a ∧
      Shows P (.up (processRequest H P D env node req).1) a := by
  by_cases hs : Served H req
  swap
  · obtain ⟨hnode, hreply⟩ :=
      processRequest_unserved P D env node hs
    exact Or.inl ⟨observe_status hreply, hnode⟩
  cases hfind : urlHandlers.find? (·.1 = req.resource) with
  | none =>
      obtain ⟨hnode, r, hwritten, hstatus⟩ :=
        processRequest_unknown P D env node hs hfind
      refine Or.inl ⟨observe_status ⟨r, hwritten, ?_, Or.inr ?_⟩, hnode⟩
      · rw [hstatus]
        decide
      · rw [hstatus]
        decide
  | some entry =>
  obtain ⟨url, handler⟩ := entry
  obtain ⟨hurl, hmem⟩ := find?_urlHandlers hfind
  cases handler with
  | ro call =>
      rw [ro_mem_urlHandlers hmem] at hurl
      obtain ⟨hnode, hreply⟩ :=
        processRequest_ro P D env node hs hurl
      rcases hreply with ⟨result, hresult, hreply⟩ | ⟨e, _, hreply⟩
      · have hobs := observe_ro (P := P) (f := f) hs.2.2 hurl hreply
        rw [if_pos rfl] at hobs
        cases he : Client.roEvent P f req.body (toStream P result) call with
        | none => exact Or.inl ⟨hobs.trans he, hnode⟩
        | some e =>
            refine Or.inr ⟨e, _, hobs.trans he,
              roEvent_step hP hsign h hrows hlen hpool henv hresult he, ?_⟩
            rw [hnode]
            exact .up h hrows hf
      · have hobs := observe_ro (P := P) (f := f) hs.2.2 hurl hreply
        rw [if_neg (by rcases errorStatus_cases e with he | he <;> rw [he] <;> decide)] at hobs
        exact Or.inl ⟨hobs, hnode⟩
  | rw call =>
      rw [rw_mem_urlHandlers hmem] at hurl
      cases hp : call.params P req.body with
      | error e =>
          obtain ⟨hnode, hnone⟩ :=
            processRequest_malformed P D env node hs hurl hp
          exact Or.inl ⟨observe_nothing hnone, hnode⟩
      | ok p =>
      cases call with
      | pushTransaction =>
          rcases processRequest_push P D env node hs hurl hp with
            ⟨hvalid, hnode, hreply⟩ | ⟨_, hnode, e, hreply⟩
          · have hobs := observe_rw (P := P) (f := f) hs.2.2 hurl hreply
            rw [if_pos rfl, Client.rwEvent, Client.trx_resultText hP,
              Transaction.cut_eq_self.2 (Transaction.small_of_validate hvalid)] at hobs
            refine Or.inr ⟨_, _, hobs, .accepted bs node.buf.trxPool _ (admitted_iff.2 hvalid), ?_⟩
            rw [hnode]
            refine @Shows.up P ⟨node.buf.cacheTrx _, node.db⟩ bs h hrows
              ⟨hf.privateKey, fun t ht => ?_, hf.tip, hf.noTip⟩
            rcases List.mem_append.1 ht with ht | ht
            · exact hf.pool t ht
            · rwa [List.mem_singleton.1 ht]
          · have hobs := observe_rw (P := P) (f := f) hs.2.2 hurl hreply
            rw [if_neg (errorStatus_ne e)] at hobs
            exact Or.inl ⟨hobs, hnode⟩
      | publishBlk =>
          rcases processRequest_publish P D env node hs hurl hp with
            ⟨buf, b, hb, hnode, hreply⟩ | ⟨e, _, hnode, hreply⟩
          · have hobs := observe_rw (P := P) (f := f) hs.2.2 hurl hreply
            rw [if_pos rfl, Client.rwEvent] at hobs
            obtain ⟨hstep, hshows⟩ := publish_step hsign h hrows hf hlen henv hb
            rw [← hnode] at hshows
            exact Or.inr ⟨_, _, hobs, hstep, hshows⟩
          · have hobs := observe_rw (P := P) (f := f) hs.2.2 hurl hreply
            rw [if_neg (errorStatus_ne e)] at hobs
            exact Or.inl ⟨hobs, hnode⟩

/-! ## Runs -/

/-- Within the bound on its size, each step of the node is seen as a step of the ledger. -/
theorem node_simulation (hP : P.BoostExact) (hsign : P.ProducerSigns) (f : Fresh)
    (H : HttpPlugin) (D : KeyDerivation) :
    Simulation ((nodeLts H P D).restrict (System.size · < 2 ^ 63))
      (Ledger.lts (ledgerRules P)) (Client.observe P f) (Shows P) where
  initial s hs := by
    have hs : s = .down .empty := hs
    subst hs
    exact ⟨.down [], rfl, .down honestChain_nil rfl⟩
  step := by
    rintro s a d s' hshows ⟨hsize, hstep⟩
    have hstep : NodeStep H P D s d s' := hstep
    cases hstep with
    | start henv hstart =>
        cases hshows with
        | down h hrows =>
            refine Or.inr ⟨.start, _, rfl, .start _, ?_⟩
            rw [← (pluginStartup_started hstart).1]
            exact .up h hrows (.startup hP h hrows henv hstart)
    | request req henv =>
        cases hshows with
        | @up node bs h hrows hf =>
            rw [System.size, hrows, List.length_map] at hsize
            rcases request_step hP hsign h hrows hf (by omega) (by omega) henv f H D req with
              ⟨hnone, hnode⟩ | hseen
            · rw [hnode]
              exact Or.inl ⟨hnone, .up h hrows hf⟩
            · exact Or.inr hseen
    | stop =>
        cases hshows with
        | up h hrows hf => exact Or.inr ⟨.stop, _, rfl, .stop _ _, .down h hrows⟩

theorem size_initial {s : System} (h : (nodeLts H P D).initial s) : s.size = 0 := by
  have h : s = .down .empty := h
  rw [h]
  rfl

theorem NodeRun.shows (hP : P.BoostExact) (hsign : P.ProducerSigns) (f : Fresh)
    {ds : List Exchange} {s : System} (h : (nodeLts H P D).Run ds s) (hlen : ds.length ≤ 2 ^ 63) :
    ∃ a, (Ledger.lts (ledgerRules P)).Run (ds.filterMap (Client.observe P f)) a ∧
      Shows P s a := by
  apply (node_simulation hP hsign f H D).run
  exact h.restrict (fun _ => size_initial) NodeStep.size_le hlen

end SimpleBlockchain
