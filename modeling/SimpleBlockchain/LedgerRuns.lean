import SimpleBlockchain.LedgerRefinement
import SimpleBlockchain.WorkFlow

/-!
# What clients see over whole runs

Everything that clients see is a trace of the ledger, and whatever the ledger can show
next, some request makes the node show.
-/

namespace SimpleBlockchain

open Transition
open Ledger (Event)

variable {H : HttpPlugin} {P : Platform} {D : KeyDerivation} {env : ApiEnv} {node : Node}
  {bs : List Block} {req : Request} {f : Fresh}

/-! ## Requests -/

theorem processRequest_asked {call : RoCall} {body : Str} {result : Variant}
    (h : Served H (req.ask call.callName body))
    (hresult : call.result P D env node body = .ok result) :
    (processRequest H P D env node (req.ask call.callName body)).1 = node ∧
      (processRequest H P D env node (req.ask call.callName body)).2.Replied 200
        (toStream P result) := by
  obtain ⟨hnode, hreply⟩ := processRequest_ro P D env node h rfl
  refine ⟨hnode, ?_⟩
  rcases hreply with ⟨result', hresult', hreply⟩ | ⟨e, he, _⟩
  · have hsame : call.result P D env node body = .ok result' := hresult'
    rw [hresult, Except.ok.injEq] at hsame
    rw [hsame]
    exact hreply
  · have hsame : call.result P D env node body = .error e := he
    rw [hresult] at hsame
    cases hsame

theorem observe_asked {call : RoCall} {body : Str} {result : Variant}
    (h : Served H (req.ask call.callName body)) (f : Fresh)
    (hresult : call.result P D env node body = .ok result) :
    Client.observe P f (.request (req.ask call.callName body)
      (processRequest H P D env node (req.ask call.callName body)).2.written) =
      Client.roEvent P f body (toStream P result) call :=
  observe_ro h.2.2 rfl (processRequest_asked h hresult).2

def blockBody (P : Platform) (k : UInt64) : Str :=
  toStream P (.object [("blk_num".toList, .uint64 k)])

def blocksBody (P : Platform) (ks : List UInt64) : Str :=
  toStream P (.object [("blk_nums".toList, .array (ks.map .uint64))])

theorem askedBlock_blockBody (hP : P.BoostExact) (k : UInt64) :
    Client.askedBlock P (blockBody P k) = some k := by
  have hstore : Storable 1 (.object [("blk_num".toList, .uint64 k)]) := by
    refine .object 0 _ ?_ ?_
    · exact List.forall_mem_singleton.2 (plain_name (by decide))
    · exact List.forall_mem_singleton.2 (.uint64 0 k)
  rw [Client.askedBlock, blockBody, bodyVariant_toStream hP hstore (by decide), reread,
    rereadEntries, rereadEntries]
  have hcast := Block.asUInt64_reread hP k
  exact congrArg Except.toOption hcast

theorem askedBlocks_blocksBody (hP : P.BoostExact) (ks : List UInt64) :
    Client.askedBlocks P (blocksBody P ks) = some ks := by
  have hstore : Storable 2 (.object [("blk_nums".toList, .array (ks.map .uint64))]) := by
    refine .object 1 _ ?_ ?_
    · exact List.forall_mem_singleton.2 (plain_name (by decide))
    · refine List.forall_mem_singleton.2 (.array 0 _ fun v hv => ?_)
      obtain ⟨k, _, rfl⟩ := List.mem_map.1 hv
      exact .uint64 0 k
  have hnums : ∀ ks : List UInt64,
      (rereadElems (ks.map .uint64)).mapM (·.asUInt64 P) = .ok ks := by
    intro ks
    induction ks with
    | nil => rfl
    | cons k ks ih =>
        rw [List.map_cons, rereadElems, List.mapM_cons, Block.asUInt64_reread hP, ok_bind, ih]
        rfl
  have hparams : getBlocksParams P (.object [("blk_nums".toList,
      .array (rereadElems (ks.map .uint64)))]) = .ok ks := hnums ks
  rw [Client.askedBlocks, blocksBody, bodyVariant_toStream hP hstore (by decide), reread,
    rereadEntries, rereadEntries, reread, ok_bind, hparams]
  rfl

theorem Admitted.accepted (hP : P.BoostExact) {t : Transaction} (ht : Admitted P t)
    (h : Served H (req.ask RwCall.pushTransaction.callName (toStream P (t.toVariant P)))) :
    AcceptedPush H P (req.ask RwCall.pushTransaction.callName (toStream P (t.toVariant P))) t := by
  obtain ⟨p, hp, htrx⟩ := params_toStream hP (Transaction.small_of_validate ht.validate)
  exact ⟨h, rfl, p, hp, htrx, ht.validate⟩

theorem observe_push (hP : P.BoostExact) {t : Transaction}
    (h : Served H (req.ask RwCall.pushTransaction.callName (toStream P (t.toVariant P))))
    (f : Fresh) (ht : Admitted P t) :
    Client.observe P f (.request (req.ask RwCall.pushTransaction.callName
        (toStream P (t.toVariant P)))
      (processRequest H P D env node (req.ask RwCall.pushTransaction.callName
        (toStream P (t.toVariant P)))).2.written) = some (.accepted t) := by
  obtain ⟨_, hreply⟩ := processRequest_accepted P D env node (ht.accepted hP h)
  rw [observe_rw h.2.2 rfl hreply, if_pos rfl, Client.rwEvent, Client.trx_resultText hP,
    Transaction.cut_eq_self.2 (Transaction.small_of_validate ht.validate), Option.map_some]

theorem emptyParams (hP : P.BoostExact) :
    (bodyVariant P [] >>= fun v => emptyFromVariant v) = .ok () := by
  rw [bodyVariant_nil hP]
  rfl

theorem observe_publish (hP : P.BoostExact) (hsign : P.ProducerSigns) (h : Served H req)
    (f : Fresh) (hhonest : HonestChain P bs) (hf : Follows P bs node.buf)
    (hlen : node.buf.trxPool.length ≤ maxNumArrayElements) :
    Client.observe P f (.request (req.ask RwCall.publishBlk.callName [])
      (processRequest H P D env node (req.ask RwCall.publishBlk.callName [])).2.written) =
        some .published := by
  have hs := h.ask_nil RwCall.publishBlk.callName
  obtain ⟨⟨buf, b⟩, hbuild⟩ := hf.buildBlock_ok hsign hhonest hlen (env.fresh 0)
  have hbuilt : BuiltPublish H P env node (req.ask RwCall.publishBlk.callName []) buf b :=
    ⟨hs, rfl, ⟨(), emptyParams hP⟩, hbuild⟩
  obtain ⟨_, hreply⟩ := processRequest_built P D env node hbuilt
  rw [observe_rw hs.2.2 rfl hreply, if_pos rfl, Client.rwEvent]

theorem map_toNat_map_ofNat {ks : List ℕ} (h : ∀ k ∈ ks, k < 2 ^ 64) :
    (ks.map UInt64.ofNat).map UInt64.toNat = ks := by
  rw [List.map_map, List.map_congr_left (g := id), List.map_id]
  intro k hk
  exact UInt64.toNat_ofNat_of_lt' (h k hk)

section Queries

variable (hP : P.BoostExact) (h : HonestChain P bs) (hrows : node.db.rows = bs.map (rowOf P))
  (hlen : bs.length < 2 ^ 63) (henv : env.Succeeds) (f : Fresh) (D : KeyDerivation)

include hP hrows hlen henv in
theorem observe_info (hpool : node.buf.trxPool.length < 2 ^ 63)
    (hserved : Served H (req.ask RoCall.getInfo.callName [])) :
    Client.observe P f (.request (req.ask RoCall.getInfo.callName [])
      (processRequest H P D env node (req.ask RoCall.getInfo.callName [])).2.written) =
        some (.info bs.length node.buf.trxPool.length) := by
  have hresult : RoCall.getInfo.result P D env node [] = .ok (getInfo env.toEnv node) := by
    rw [RoCall.result, bodyVariant_nil hP]
    rfl
  rw [observe_asked hserved f hresult, Client.roEvent, Client.info_getInfo hP hrows henv,
    Option.map_some, toNat_ofNat hlen, toNat_ofNat hpool]

include hP h hrows hlen henv in
theorem observe_block {k : ℕ} (hk : k < 2 ^ 64)
    (hserved : Served H (req.ask RoCall.getBlock.callName (blockBody P (UInt64.ofNat k)))) :
    Client.observe P f (.request (req.ask RoCall.getBlock.callName (blockBody P (UInt64.ofNat k)))
      (processRequest H P D env node
        (req.ask RoCall.getBlock.callName (blockBody P (UInt64.ofNat k)))).2.written) =
      some (.block k bs[k]?) := by
  have hk : (UInt64.ofNat k).toNat = k := UInt64.toNat_ofNat_of_lt' hk
  have hasked := askedBlock_blockBody hP (UInt64.ofNat k)
  obtain ⟨v, hv, hparams⟩ := bind_eq_ok.1 (Client.askedBlock_eq env hasked)
  obtain ⟨result, hcall, hread⟩ :=
    Client.block_getBlockCall hP h hrows f hlen henv (UInt64.ofNat k)
  have hresult : RoCall.getBlock.result P D env node (blockBody P (UInt64.ofNat k)) =
      .ok result := by
    rw [RoCall.result, hv, ok_bind, RoCall.run, hparams, ok_bind, hcall]
  rw [observe_asked hserved f hresult]
  simp only [Client.roEvent, hasked, hread, Option.bind_eq_bind, Option.bind_some, hk]

include hP h hrows hlen henv in
theorem observe_blocks {ks : List ℕ} (hne : ks ≠ []) (hks : ∀ k ∈ ks, k < 2 ^ 64)
    (hserved : Served H (req.ask RoCall.getBlocks.callName
      (blocksBody P (ks.map UInt64.ofNat)))) :
    Client.observe P f (.request
      (req.ask RoCall.getBlocks.callName (blocksBody P (ks.map UInt64.ofNat)))
      (processRequest H P D env node
        (req.ask RoCall.getBlocks.callName (blocksBody P (ks.map UInt64.ofNat)))).2.written) =
      some (.blocks ks (ks.filterMap (bs[·]?))) := by
  have hne : ks.map UInt64.ofNat ≠ [] := by simpa using hne
  have hasked := askedBlocks_blocksBody hP (ks.map UInt64.ofNat)
  obtain ⟨v, hv, hparams⟩ := bind_eq_ok.1 (Client.askedBlocks_eq hasked)
  obtain ⟨result, hcall, hread⟩ := Client.blocks_listed hP h hrows f hlen henv hne
  have hresult : RoCall.getBlocks.result P D env node (blocksBody P (ks.map UInt64.ofNat)) =
      .ok (.array result) := by
    rw [RoCall.result, hv, ok_bind, RoCall.run, hparams, ok_bind, hcall, ok_bind]
  rw [observe_asked hserved f hresult]
  simp only [Client.roEvent, hasked, hread, Option.bind_eq_bind, Option.bind_some, if_neg hne,
    map_toNat_map_ofNat hks]

include hP h hrows henv in
theorem observe_allBlocks (hserved : Served H (req.ask RoCall.getBlocks.callName [])) :
    Client.observe P f (.request (req.ask RoCall.getBlocks.callName [])
      (processRequest H P D env node (req.ask RoCall.getBlocks.callName [])).2.written) =
      some (.allBlocks bs) := by
  have hasked : Client.askedBlocks P [] = some [] := by
    rw [Client.askedBlocks, bodyVariant_nil hP]
    rfl
  obtain ⟨v, hv, hparams⟩ := bind_eq_ok.1 (Client.askedBlocks_eq hasked)
  obtain ⟨result, hcall, hread⟩ := Client.blocks_all hP h hrows f henv
  have hresult : RoCall.getBlocks.result P D env node [] = .ok (.array result) := by
    rw [RoCall.result, hv, ok_bind, RoCall.run, hparams, ok_bind, hcall, ok_bind]
  rw [observe_asked hserved f hresult]
  simp only [Client.roEvent, hasked, hread, Option.bind_eq_bind, Option.bind_some, if_true]

include hP h hrows henv in
theorem observe_checked (hsign : P.ProducerSigns)
    (hserved : Served H (req.ask RoCall.checkChain.callName [])) :
    Client.observe P f (.request (req.ask RoCall.checkChain.callName [])
      (processRequest H P D env node (req.ask RoCall.checkChain.callName [])).2.written) =
      some (.checked true) := by
  have hresult : RoCall.checkChain.result P D env node [] = .ok resultZero := by
    rw [RoCall.result, bodyVariant_nil hP, ok_bind,
      ← checkChain_resultZero hP hsign h hrows henv]
    rfl
  rw [observe_asked hserved f hresult, Client.roEvent, Client.passed_resultZero hP,
    Option.map_some]

end Queries

/-- What a client can ask for in a request that is not too large: numbers of 64 bits, and a
transaction whose JSON fits. -/
def Askable (H : HttpPlugin) (P : Platform) : Event Transaction Block → Prop
  | .accepted t => (toStream P (t.toVariant P)).length ≤ H.maxBodySize.toNat
  | .block k _ => k < 2 ^ 64 ∧ (blockBody P (UInt64.ofNat k)).length ≤ H.maxBodySize.toNat
  | .blocks ks _ => (∀ k ∈ ks, k < 2 ^ 64) ∧
      (blocksBody P (ks.map UInt64.ofNat)).length ≤ H.maxBodySize.toNat
  | .start | .stop | .published | .info _ _ | .allBlocks _ | .checked _ => True

/-- What the ledger can show next, some request makes a running node show. -/
theorem offers_running (hP : P.BoostExact) (hsign : P.ProducerSigns) (h : HonestChain P bs)
    (hrows : node.db.rows = bs.map (rowOf P)) (hf : Follows P bs node.buf)
    (hlen : bs.length < 2 ^ 63) (hpool : node.buf.trxPool.length < 2 ^ 63) (henv : env.Succeeds)
    (f : Fresh) (D : KeyDerivation) (hserved : Served H req) {e : Event Transaction Block}
    {a : Ledger.State Transaction Block}
    (hstep : Ledger.Step (ledgerRules P) (.up bs node.buf.trxPool) e a) (he : Askable H P e)
    (hstop : e ≠ .stop) : ∃ callName body, Client.observe P f (.request (req.ask callName body)
      (processRequest H P D env node (req.ask callName body)).2.written) = some e := by
  cases hstep with
  | stop => exact absurd rfl hstop
  | accepted _ _ t ht =>
      exact ⟨_, _, observe_push hP (hserved.ask _ he) f ht⟩
  | published _ _ b _ _ hmax =>
      exact ⟨_, _, observe_publish hP hsign hserved f h hf hmax⟩
  | info =>
      exact ⟨_, _, observe_info hP hrows hlen henv f D hpool (hserved.ask_nil _)⟩
  | block _ _ k =>
      exact ⟨_, _, observe_block hP h hrows hlen henv f D he.1 (hserved.ask _ he.2)⟩
  | blocks _ _ ks hks =>
      exact ⟨_, _, observe_blocks hP h hrows hlen henv f D hks he.1 (hserved.ask _ he.2)⟩
  | allBlocks =>
      exact ⟨_, _, observe_allBlocks hP h hrows henv f D (hserved.ask_nil _)⟩
  | checked =>
      exact ⟨_, _, observe_checked hP h hrows henv f D hsign (hserved.ask_nil _)⟩

/-! ## Runs -/

def Platform.KeysParse (P : Platform) : Prop :=
  (∃ pub, PublicKey.ofStr P producerKeyStr = .ok pub) ∧
    ∃ key, PrivateKey.ofStr P privateKeyStr = .ok key

theorem HonestChain.starts (hP : P.BoostExact) (hkeys : P.KeysParse) (h : HonestChain P bs)
    {db : Table} (hrows : db.rows = bs.map (rowOf P)) {env : Env} (henv : env.Succeeds) :
    ∃ buf, SimpleBlockchain.pluginStartup P env db = .started buf := by
  obtain ⟨⟨pub, hpub⟩, key, hkey⟩ := hkeys
  have hnew : Buffer.new P (env.fresh 0) = .ok ⟨[], pub, key, Block.new (env.fresh 0)⟩ := by
    rw [Buffer.new, hpub, ok_bind, hkey, ok_bind]
  rw [h.pluginStartup hP hrows henv, hnew]
  exact ⟨_, rfl⟩

namespace Sample

def pushRequest : Request :=
  socketRequest.ask RwCall.pushTransaction.callName (toStream platform (trx.toVariant platform))

def blocksRequest : Request :=
  socketRequest.ask RoCall.getBlocks.callName (blocksBody platform ([0, 1].map UInt64.ofNat))

theorem served_pushRequest : Served http pushRequest :=
  served.ask RwCall.pushTransaction.callName (by decide +kernel)

theorem served_blocksRequest : Served http blocksRequest :=
  served.ask RoCall.getBlocks.callName (by decide +kernel)

def exchange (node : Node) (req : Request) : Exchange :=
  .request req (processRequest http platform keyDerivation apiEnv node req).2.written

def pushedNode : Node := ⟨buf.cacheTrx trx, .empty⟩

def publishedNode : Node := ⟨bufAfter, table⟩

theorem nodeStep {node node' : Node} {req : Request}
    (h : (processRequest http platform keyDerivation apiEnv node req).1 = node') :
    NodeStep http platform keyDerivation (.up node) (exchange node req) (.up node') := by
  rw [← h]
  exact @NodeStep.request http platform keyDerivation node apiEnv req env_succeeds

theorem observe_blocksRequest :
    Client.observe platform ⟨0, 0⟩ (exchange publishedNode blocksRequest) =
      some (.blocks [0, 1] [block]) := by
  have hrows : publishedNode.db.rows = [block].map (rowOf platform) := rows_table
  have hfound : [0, 1].filterMap (([block] : List Block)[·]?) = [block] := rfl
  rw [exchange, blocksRequest, ← hfound]
  exact observe_blocks boostExact honestChain hrows (by decide) env_succeeds ⟨0, 0⟩
    keyDerivation (List.cons_ne_nil 0 [1]) (by decide) served_blocksRequest

theorem nodeRun_pushed : (nodeLts http platform keyDerivation).Run
    [.started, exchange ⟨buf, .empty⟩ pushRequest] (.up pushedNode) := by
  have hstart : (nodeLts http platform keyDerivation).Run [.started] (.up ⟨buf, .empty⟩) :=
    ⟨_, rfl, Lts.Path.single_iff.2 (.start env_succeeds startup)⟩
  refine hstart.tail (nodeStep (processRequest_accepted platform keyDerivation apiEnv _ ?_).1)
  exact (admitted_iff.2 validate_trx).accepted boostExact served_pushRequest

theorem nodeRun_published : (nodeLts http platform keyDerivation).Run
    [.started, exchange ⟨buf, .empty⟩ pushRequest, exchange pushedNode publishRequest]
    (.up publishedNode) :=
  nodeRun_pushed.tail
    (nodeStep (processRequest_built platform keyDerivation apiEnv _ built_publishRequest).1)

theorem nodeRun : (nodeLts http platform keyDerivation).Run
    [.started, exchange ⟨buf, .empty⟩ pushRequest, exchange pushedNode publishRequest,
      exchange publishedNode blocksRequest] (.up publishedNode) :=
  nodeRun_published.tail
    (nodeStep (processRequest_ro platform keyDerivation apiEnv _ served_blocksRequest rfl).1)

end Sample

/-- Whatever clients send, and however often the node is restarted, what they see is a
trace of the ledger. -/
theorem node_traces (hP : P.BoostExact) (hsign : P.ProducerSigns) (H : HttpPlugin)
    (D : KeyDerivation) (f : Fresh) :
    ∀ ds ∈ (nodeLts H P D).traces, ds.length ≤ 2 ^ 63 →
      ds.filterMap (Client.observe P f) ∈ (Ledger.lts (ledgerRules P)).traces := by
  rintro ds ⟨s, hrun⟩ hlen
  obtain ⟨a, ha, _⟩ := NodeRun.shows hP hsign f hrun hlen
  exact ⟨a, ha⟩

theorem sample_node_traces :
    [.started, Sample.exchange ⟨Sample.buf, .empty⟩ Sample.pushRequest,
        Sample.exchange Sample.pushedNode Sample.publishRequest,
        Sample.exchange Sample.publishedNode Sample.blocksRequest].filterMap
        (Client.observe Sample.platform ⟨0, 0⟩) ∈
      (Ledger.lts (ledgerRules Sample.platform)).traces :=
  node_traces Sample.boostExact Sample.producerSigns Sample.http Sample.keyDerivation ⟨0, 0⟩ _
    ⟨_, Sample.nodeRun⟩ (by decide)

/-- Each answer says what the acknowledged transactions, the publications and the stops
before it determine: a published pool is in the next block, and one that a stop met is in
none. -/
theorem node_answers_determined (hP : P.BoostExact) (hsign : P.ProducerSigns) (f : Fresh)
    {ds : List Exchange} {d : Exchange} {s : System} (h : (nodeLts H P D).Run (ds ++ [d]) s)
    (hlen : (ds ++ [d]).length ≤ 2 ^ 63) {e : Event Transaction Block}
    (he : Client.observe P f d = some e) :
    e.Tells (ledgerRules P) (Ledger.history (ds.filterMap (Client.observe P f))) := by
  obtain ⟨a, ha, _⟩ := NodeRun.shows hP hsign f h hlen
  rw [List.filterMap_append, List.filterMap_cons_some he, List.filterMap_nil] at ha
  exact Ledger.tells_of_run ha

theorem sample_answers_determined :
    (Event.blocks [0, 1] [Sample.block]).Tells (ledgerRules Sample.platform)
      (Ledger.history ([.started, Sample.exchange ⟨Sample.buf, .empty⟩ Sample.pushRequest,
        Sample.exchange Sample.pushedNode Sample.publishRequest].filterMap
          (Client.observe Sample.platform ⟨0, 0⟩))) :=
  node_answers_determined Sample.boostExact Sample.producerSigns ⟨0, 0⟩ Sample.nodeRun
    (by decide) Sample.observe_blocksRequest

/-- All blocks that any clients are ever shown, over all restarts, are blocks of one chain
of signed blocks with admitted transactions, each with its number and the digest of the
one before it: every answer shows what the first blocks of that chain are. -/
theorem node_shows_one_chain (hP : P.BoostExact) (hsign : P.ProducerSigns) (f : Fresh)
    {ds : List Exchange} {s : System} (h : (nodeLts H P D).Run ds s) (hlen : ds.length ≤ 2 ^ 63) :
    ∃ bs, Ledger.WellFormed (ledgerRules P) bs ∧
      ∀ d ∈ ds, ∀ e, Client.observe P f d = some e → ∃ cs, cs <+: bs ∧ e.Shows cs := by
  obtain ⟨a, ha, _⟩ := NodeRun.shows hP hsign f h hlen
  refine ⟨a.blocks, (Ledger.inv_of_run ha).wellFormed, fun d hd e he => ?_⟩
  exact Ledger.shows_of_run ha (List.mem_filterMap.2 ⟨d, hd, he⟩)

theorem sample_shows_one_chain : ∃ bs, Ledger.WellFormed (ledgerRules Sample.platform) bs ∧
    ∃ cs, cs <+: bs ∧ [Sample.block] = [0, 1].filterMap (cs[·]?) := by
  obtain ⟨bs, hbs, hshows⟩ := node_shows_one_chain Sample.boostExact Sample.producerSigns ⟨0, 0⟩
    Sample.nodeRun (by decide)
  exact ⟨bs, hbs, hshows _ (List.mem_of_getLast? rfl) _ Sample.observe_blocksRequest⟩

/-- The node does not know a transaction again. Whatever it accepted or showed in a block, it
accepts in every later state, as often as a request with it is sent and from whomever. -/
theorem pushed_again (hP : P.BoostExact) (hsign : P.ProducerSigns) (f : Fresh)
    {ds : List Exchange} (h : (nodeLts H P D).Run ds (.up node)) (hlen : ds.length ≤ 2 ^ 63)
    {d : Exchange} (hd : d ∈ ds) {e : Event Transaction Block} (he : Client.observe P f d = some e)
    {p : PushTransactionParams} (ht : e.Carries (ledgerRules P) p.trx) (hserved : Served H req)
    (hurl : req.resource = apiUrl RwCall.pushTransaction.callName)
    (hp : RwCall.pushTransaction.params P req.body = .ok p) (envs : List ApiEnv) :
    acknowledgedRequests H P D node (envs.map (·, req)) = envs.map (·, req) ∧
      serve H P D node (envs.map (·, req)) = { node with buf := { node.buf with
        trxPool := node.buf.trxPool ++ List.replicate envs.length p.trx } } := by
  obtain ⟨a, ha, _⟩ := NodeRun.shows hP hsign f h hlen
  have hadmitted : Admitted P p.trx :=
    Ledger.admits_of_carried ha (List.mem_filterMap.2 ⟨d, hd, he⟩) ht
  have haccepted : AcceptedPush H P req p.trx := ⟨hserved, hurl, p, hp, rfl, hadmitted.validate⟩
  exact ⟨acknowledged_accepted haccepted envs node, serve_accepted haccepted envs node⟩

/-- The published transaction is sent twice more. -/
theorem sample_pushed_again :
    (serve Sample.http Sample.platform Sample.keyDerivation Sample.publishedNode
      ([Sample.apiEnv, Sample.apiEnv].map (·, Sample.pushRequest))).buf.trxPool =
        [Sample.trx, Sample.trx] := by
  obtain ⟨p, hp, htrx⟩ := params_toStream Sample.boostExact Sample.small_trx
  have hcarries : (Event.blocks [0, 1] [Sample.block]).Carries (ledgerRules Sample.platform)
      p.trx := by
    rw [htrx]
    exact ⟨Sample.block, List.mem_cons_self, List.mem_cons_self⟩
  have hagain := (pushed_again Sample.boostExact Sample.producerSigns ⟨0, 0⟩ Sample.nodeRun
    (by decide) (List.mem_of_getLast? rfl) Sample.observe_blocksRequest hcarries
    Sample.served_pushRequest rfl hp [Sample.apiEnv, Sample.apiEnv]).2
  rw [hagain, htrx]
  rfl

variable (env) in
/-- After any run the node can be made to show whatever the ledger can show next and a request
can ask for: it starts on every table that a run left, takes every acceptable transaction,
publishes every pool that can be counted, and answers every query. -/
theorem node_offers (hP : P.BoostExact) (hsign : P.ProducerSigns) (hkeys : P.KeysParse)
    (f : Fresh) (hserved : Served H req) (henv : env.Succeeds) {ds : List Exchange} {s : System}
    (h : (nodeLts H P D).Run ds s) (hlen : ds.length < 2 ^ 63) :
    ∃ a, (Ledger.lts (ledgerRules P)).Run (ds.filterMap (Client.observe P f)) a ∧
      ∀ e a', Ledger.Step (ledgerRules P) a e a' → Askable H P e →
        ∃ d s', NodeStep H P D s d s' ∧ Client.observe P f d = some e := by
  obtain ⟨a, ha, hshows⟩ := NodeRun.shows hP hsign f h hlen.le
  have hsize := h.size_le (fun _ => size_initial) NodeStep.size_le
  refine ⟨a, ha, fun e a' hstep hask => ?_⟩
  cases hshows with
  | down hhonest hrows =>
      cases hstep with
      | start =>
          obtain ⟨buf, hstart⟩ := hhonest.starts hP hkeys hrows henv
          exact ⟨.started, _, .start henv hstart, rfl⟩
  | up hhonest hrows hf =>
      rw [System.size, hrows, List.length_map] at hsize
      by_cases hstop : e = .stop
      · exact ⟨.stopped, _, .stop, hstop ▸ rfl⟩
      · obtain ⟨callName, body, hobs⟩ := offers_running hP hsign hhonest hrows hf (by omega)
          (by omega) henv f D hserved hstep hask hstop
        exact ⟨_, _, .request _ henv, hobs⟩

theorem sample_offers : ∃ a, (Ledger.lts (ledgerRules Sample.platform)).Run
      ([.started, Sample.exchange ⟨Sample.buf, .empty⟩ Sample.pushRequest,
        Sample.exchange Sample.pushedNode Sample.publishRequest,
        Sample.exchange Sample.publishedNode Sample.blocksRequest].filterMap
          (Client.observe Sample.platform ⟨0, 0⟩)) a ∧
    ∀ e a', Ledger.Step (ledgerRules Sample.platform) a e a' →
      Askable Sample.http Sample.platform e →
        ∃ d s', NodeStep Sample.http Sample.platform Sample.keyDerivation
            (.up Sample.publishedNode) d s' ∧
          Client.observe Sample.platform ⟨0, 0⟩ d = some e :=
  node_offers Sample.apiEnv Sample.boostExact Sample.producerSigns
    ⟨⟨_, Sample.producerKey⟩, _, Sample.privateKey⟩ ⟨0, 0⟩ Sample.served Sample.env_succeeds
    Sample.nodeRun (by decide)

end SimpleBlockchain
