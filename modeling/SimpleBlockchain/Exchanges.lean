import SimpleBlockchain.PoolLimit
import SimpleBlockchain.Responses

/-!
# What a request does to the node

A request reaches a handler when its body is not too large, its host is allowed and its
method is not `OPTIONS`. Every other request leaves the node alone and is answered with a
status that no handler sends, except that `OPTIONS` is answered with 200.
-/

namespace SimpleBlockchain

namespace Con

/-- One response was sent, with this status and this body. -/
def Wrote (con : Con) (code : ℕ) (body : Str) : Prop :=
  con.httpState = .bodyWritten ∧ ∃ r, con.written = [r] ∧ r.status = code ∧ r.body = body

theorem Pending.respond_wrote {con : Con} (h : con.Pending) (code : ℕ) (hcode : code ≠ 0)
    (body : Str) : ∃ con', con.respond code body = (con', none) ∧ con'.Wrote code body := by
  obtain ⟨hstate, hwritten⟩ := h
  let r : Response := ⟨code, con.response.headers, body⟩
  refine ⟨_, if_pos hstate, rfl, r, ?_, rfl, rfl⟩
  simp [writeHttpResponse, setStatus, setBody, hwritten, hcode, r]

theorem Idle.finish_written {con : Con} (h : con.Idle) (hstatus : con.response.status ≠ 0) :
    con.finish.written = [con.response] := by
  rw [Con.finish, if_pos h.1, writeHttpResponse, h.2, if_neg hstatus, List.nil_append]

theorem Wrote.finish {con : Con} {code : ℕ} {body : Str} (h : con.Wrote code body) :
    con.finish.Wrote code body := by
  have hstate : con.httpState ≠ .init := by
    rw [h.1]
    decide
  rwa [Con.finish, if_neg hstate]

end Con

def errorStatus (e : Exn) : ℕ := if e.name = .eof then 422 else 500

def HttpPlugin.errorBody (H : HttpPlugin) (P : Platform) (e : Exn) : Str :=
  if e.name = .eof then H.errorResults P 422 "Unprocessable Entity" e
  else H.errorResults P 500 "Internal Service Error" e

theorem errorStatus_cases (e : Exn) : errorStatus e = 422 ∨ errorStatus e = 500 := by
  unfold errorStatus
  split
  · exact Or.inl rfl
  · exact Or.inr rfl

variable {H : HttpPlugin} {P : Platform} {D : KeyDerivation} {env : ApiEnv} {node : Node}
  {con : Con} {req : Request}

/-! ## The handlers -/

theorem HttpPlugin.handleException_wrote (h : con.Pending) (e : Exn) :
    (H.handleException P con e).Wrote (errorStatus e) (H.errorBody P e) := by
  unfold handleException errorStatus errorBody
  split
  · obtain ⟨con', hcon, hwrote⟩ := h.respond_wrote 422 (by decide)
      (H.errorResults P 422 "Unprocessable Entity" e)
    rw [hcon]
    exact hwrote
  · obtain ⟨con', hcon, hwrote⟩ := h.respond_wrote 500 (by decide)
      (H.errorResults P 500 "Internal Service Error" e)
    rw [hcon]
    exact hwrote

def RoCall.result (P : Platform) (D : KeyDerivation) (env : ApiEnv) (node : Node) (body : Str)
    (call : RoCall) : Except Exn Variant :=
  bodyVariant P body >>= fun v => call.run P D env node v

def RwCall.params (P : Platform) (body : Str) (call : RwCall) : Except Exn call.Params :=
  bodyVariant P body >>= fun v => call.paramsFromVariant P v

theorem RoCall.handle_wrote (h : con.Pending) (call : RoCall) (body : Str) :
    (call.handle H P D env node body con).node = node ∧
    (call.handle H P D env node body con).escaped = none ∧
    ((∃ result, call.result P D env node body = .ok result ∧
      (call.handle H P D env node body con).con.Wrote 200 (toStream P result)) ∨
    ∃ e, call.result P D env node body = .error e ∧
      (call.handle H P D env node body con).con.Wrote (errorStatus e) (H.errorBody P e)) := by
  unfold RoCall.handle RoCall.result
  cases bodyVariant P body >>= fun v => call.run P D env node v with
  | error e => exact ⟨rfl, rfl, Or.inr ⟨e, rfl, HttpPlugin.handleException_wrote h e⟩⟩
  | ok result =>
      obtain ⟨con', hcon, hwrote⟩ := h.respond_wrote 200 (by decide) (toStream P result)
      simp only [hcon]
      exact ⟨trivial, trivial, Or.inl ⟨result, rfl, hwrote⟩⟩

theorem RwCall.next_ok (h : con.Pending) (call : RwCall) (result : Variant) :
    (call.next H P con (.ok result)).1.Wrote 202 (call.resultText P result) := by
  obtain ⟨con', hcon, hwrote⟩ := h.respond_wrote 202 (by decide)
    (call.resultText P result)
  rw [RwCall.next, hcon]
  exact hwrote

theorem RwCall.next_error (h : con.Pending) (call : RwCall) (e : Exn) :
    (call.next H P con (.error e)).1.Wrote (errorStatus e) (H.errorBody P e) :=
  HttpPlugin.handleException_wrote h e

/-- The connection sees the first reply of a call, and there is no second. -/
theorem RwCall.handle_eq (h : con.Pending) {call : RwCall} {body : Str} {p : call.Params}
    (hp : call.params P body = .ok p) {node' : Node} {reply : Except Exn Variant}
    (rcs : List Bool) (hrun : call.run P env (fun reply => (call.next H P con reply).2) node p =
      ⟨node', catchAndCall (fun reply => (call.next H P con reply).2) reply, rcs⟩) :
    call.handle H P env node body con = ⟨node', (call.next H P con reply).1, none⟩ := by
  have hnone := (RwCall.next_pending (H := H) (P := P) h call reply).2
  rw [catchAndCall_of_none hnone] at hrun
  rw [RwCall.params] at hp
  simp only [RwCall.handle, hp, hrun, List.foldl_cons, List.foldl_nil]

theorem RwCall.handle_push (h : con.Pending) {body : Str} {p : PushTransactionParams}
    (hp : RwCall.pushTransaction.params P body = .ok p) :
    (p.trx.validate P = .ok true ∧ ∃ con',
      RwCall.pushTransaction.handle H P env node body con =
        ⟨{ node with buf := node.buf.cacheTrx p.trx }, con', none⟩ ∧
      con'.Wrote 202 (RwCall.pushTransaction.resultText P (p.trx.toVariant P))) ∨
    (p.trx.validate P ≠ .ok true ∧ ∃ e con',
      RwCall.pushTransaction.handle H P env node body con = ⟨node, con', none⟩ ∧
      con'.Wrote (errorStatus e) (H.errorBody P e)) := by
  rcases pushTransaction_cases P
    (fun reply => (RwCall.pushTransaction.next H P con reply).2) node p with
    ⟨hvalid, heq⟩ | ⟨hvalid, e, heq⟩
  · exact Or.inl ⟨hvalid, _, RwCall.handle_eq h hp _ heq, RwCall.next_ok h _ _⟩
  · exact Or.inr ⟨hvalid, e, _, RwCall.handle_eq h hp _ heq, RwCall.next_error h _ e⟩

theorem RwCall.handle_publish (h : con.Pending) {body : Str} {p : RwCall.publishBlk.Params}
    (hp : RwCall.publishBlk.params P body = .ok p) :
    (∃ buf b con', node.buf.buildBlock P (env.fresh 0) = .ok (buf, b) ∧
      RwCall.publishBlk.handle H P env node body con =
        ⟨⟨buf.cacheLastBlk b, (appendBlock P node.db (env.sqlOk 0) b).1⟩, con', none⟩ ∧
      con'.Wrote 202 (RwCall.publishBlk.resultText P operationComplete)) ∨
    (∃ e con', node.buf.buildBlock P (env.fresh 0) = .error e ∧
      RwCall.publishBlk.handle H P env node body con = ⟨node, con', none⟩ ∧
      con'.Wrote (errorStatus e) (H.errorBody P e)) := by
  cases hbuild : node.buf.buildBlock P (env.fresh 0) with
  | error e =>
      refine Or.inr ⟨e, _, rfl, RwCall.handle_eq h hp [] ?_, RwCall.next_error h _ e⟩
      rw [RwCall.run, publishBlk_of_error hbuild]
  | ok r =>
      obtain ⟨buf, b⟩ := r
      refine Or.inl ⟨buf, b, _, rfl, RwCall.handle_eq h hp
        [(appendBlock P node.db (env.sqlOk 0) b).2] ?_, RwCall.next_ok h _ _⟩
      rw [RwCall.run, publishBlk_of_build hbuild]

/-! ## Requests -/

/-- The request reaches a handler, if there is one for its resource. -/
def Served (H : HttpPlugin) (req : Request) : Prop :=
  req.body.length ≤ H.maxBodySize.toNat ∧
    (∃ con, H.allowHost req .fresh = .ok (con, true)) ∧ req.method ≠ "OPTIONS".toList

def Request.ask (req : Request) (callName : String) (body : Str) : Request :=
  { req with resource := apiUrl callName, body := body }

theorem Served.ask (h : Served H req) (callName : String) {body : Str}
    (hsize : body.length ≤ H.maxBodySize.toNat) : Served H (req.ask callName body) :=
  ⟨hsize, h.2⟩

theorem Served.ask_nil (h : Served H req) (callName : String) : Served H (req.ask callName []) :=
  h.ask callName (Nat.zero_le _)

theorem find?_roCall (call : RoCall) :
    urlHandlers.find? (·.1 = apiUrl call.callName) = some (apiUrl call.callName, .ro call) := by
  cases call <;> rfl

theorem ro_mem_urlHandlers {url : Str} {call : RoCall} (h : (url, .ro call) ∈ urlHandlers) :
    url = apiUrl call.callName := by
  rcases List.mem_append.1 h with hro | hrw
  · obtain ⟨_, _, heq⟩ := List.mem_map.1 hro
    cases heq
    rfl
  · obtain ⟨_, _, heq⟩ := List.mem_map.1 hrw
    cases heq

theorem HttpPlugin.allowHost_refused {con con' : Con}
    (h : H.allowHost req con = .ok (con', false)) : con' = con.setStatus 400 := by
  unfold allowHost at h
  split at h
  · cases h
  · obtain ⟨hostPort, _, h⟩ := bind_eq_ok.1 h
    split at h <;> cases h
    rfl

variable (P D env node)

/-- A request that is not served leaves the node alone, and its answer cannot be mistaken
for a handler's success. -/
theorem processRequest_unserved (h : ¬ Served H req) :
    (processRequest H P D env node req).1 = node ∧
    ∃ r, (processRequest H P D env node req).2.written = [r] ∧ r.status ≠ 202 ∧
      (req.method = "OPTIONS".toList ∨ r.status ≠ 200) := by
  by_cases hlarge : H.maxBodySize.toNat < req.body.length
  · rw [processRequest_large P D env node hlarge]
    exact ⟨rfl, _, rfl, by decide, Or.inr (by decide)⟩
  have hsize := Nat.not_lt.1 hlarge
  rw [processRequest_small P D env node hsize, handleHttpRequest]
  cases hallow : H.allowHost req .fresh with
  | error e =>
      have hidle : (H.handleExceptionCon P .fresh e).Idle := ⟨rfl, rfl⟩
      have hstatus : (H.handleExceptionCon P .fresh e).response.status = 500 := rfl
      refine ⟨rfl, _, hidle.finish_written ?_, ?_, Or.inr ?_⟩ <;> rw [hstatus] <;> decide
  | ok r =>
      obtain ⟨con, allowed⟩ := r
      cases allowed with
      | false =>
          rw [HttpPlugin.allowHost_refused hallow]
          have hidle : (Con.fresh.setStatus 400).Idle := ⟨rfl, rfl⟩
          exact ⟨rfl, _, hidle.finish_written (by decide), by decide, Or.inr (by decide)⟩
      | true =>
          have hmethod : req.method = "OPTIONS".toList := by
            by_contra hne
            exact h ⟨hsize, ⟨con, hallow⟩, hne⟩
          have hidle : ((H.accessControl con).setStatus 200).Idle :=
            HttpPlugin.idle_accessControl (HttpPlugin.allowHost_con Con.idle_fresh hallow)
          have hstatus : ((H.accessControl con).setStatus 200).response.status = 200 := rfl
          simp only [handleAllowed, if_pos hmethod]
          refine ⟨trivial, _, hidle.finish_written ?_, ?_, Or.inl hmethod⟩ <;>
            rw [hstatus] <;> decide

def Handled.finish (H : HttpPlugin) (P : Platform) (handled : Handled) : Node × Con :=
  match handled.escaped with
  | none => (handled.node, handled.con.finish)
  | some e => (handled.node, (H.handleExceptionCon P handled.con e).finish)

theorem processRequest_handler (h : Served H req) {url : Str} {handler : UrlHandler}
    (hfind : urlHandlers.find? (·.1 = req.resource) = some (url, handler)) :
    ∃ con : Con, con.Pending ∧ processRequest H P D env node req =
      (handler.handle H P D env node req.body con).finish H P := by
  obtain ⟨hsize, ⟨con, hallow⟩, hmethod⟩ := h
  have hidle : (H.accessControl con).Idle :=
    HttpPlugin.idle_accessControl (HttpPlugin.allowHost_con Con.idle_fresh hallow)
  refine ⟨((H.accessControl con).appendHeader "Content-type".toList
    "application/json".toList).deferHttpResponse, ⟨rfl, hidle.2⟩, ?_⟩
  rw [processRequest_small P D env node hsize, handleHttpRequest, hallow]
  simp only [handleAllowed, if_neg hmethod, hfind, Handled.finish]
  cases (handler.handle H P D env node req.body ((H.accessControl con).appendHeader
    "Content-type".toList "application/json".toList).deferHttpResponse).escaped <;> rfl

theorem processRequest_unknown (h : Served H req)
    (hfind : urlHandlers.find? (·.1 = req.resource) = none) :
    (processRequest H P D env node req).1 = node ∧
    ∃ r, (processRequest H P D env node req).2.written = [r] ∧ r.status = 404 := by
  obtain ⟨hsize, ⟨con, hallow⟩, hmethod⟩ := h
  have hidle : (H.accessControl con).Idle :=
    HttpPlugin.idle_accessControl (HttpPlugin.allowHost_con Con.idle_fresh hallow)
  rw [processRequest_small P D env node hsize, handleHttpRequest, hallow]
  simp only [handleAllowed, if_neg hmethod, hfind]
  refine ⟨trivial, _, Con.Idle.finish_written ⟨hidle.1, hidle.2⟩ ?_, rfl⟩
  exact (by decide : (404 : ℕ) ≠ 0)

/-- A request got one response, with this status and this body. -/
def Con.Replied (con : Con) (code : ℕ) (body : Str) : Prop :=
  ∃ r, con.written = [r] ∧ r.status = code ∧ r.body = body

theorem Con.Replied.status_mem {con : Con} {code : ℕ} {body : Str} (h : con.Replied code body) :
    ∃ res ∈ con.written, res.status = code := by
  obtain ⟨res, hwritten, hstatus, _⟩ := h
  exact ⟨res, hwritten ▸ List.mem_singleton_self res, hstatus⟩

theorem Con.Replied.unique {con : Con} {code code' : ℕ} {body body' : Str}
    (h : con.Replied code body) (h' : con.Replied code' body') : code = code' ∧ body = body' := by
  obtain ⟨r, hr, rfl, rfl⟩ := h
  obtain ⟨r', hr', rfl, rfl⟩ := h'
  rw [hr, List.singleton_inj] at hr'
  rw [hr']
  exact ⟨rfl, rfl⟩

theorem Con.Wrote.replied {con : Con} {code : ℕ} {body : Str} (h : con.Wrote code body) :
    con.finish.Replied code body := h.finish.2

theorem processRequest_ro (h : Served H req) {call : RoCall}
    (hurl : req.resource = apiUrl call.callName) :
    (processRequest H P D env node req).1 = node ∧
    ((∃ result, call.result P D env node req.body = .ok result ∧
      (processRequest H P D env node req).2.Replied 200 (toStream P result)) ∨
    ∃ e, call.result P D env node req.body = .error e ∧
      (processRequest H P D env node req).2.Replied (errorStatus e) (H.errorBody P e)) := by
  have hfind := find?_roCall call
  rw [← hurl] at hfind
  obtain ⟨con, hpending, heq⟩ :=
    processRequest_handler P D env node h hfind
  obtain ⟨hnode, hescaped, hwrote⟩ :=
    @RoCall.handle_wrote H P D env node con hpending call req.body
  rw [UrlHandler.handle, Handled.finish, hescaped] at heq
  rw [heq]
  refine ⟨hnode, ?_⟩
  rcases hwrote with ⟨result, hresult, hwrote⟩ | ⟨e, he, hwrote⟩
  · exact Or.inl ⟨result, hresult, hwrote.replied⟩
  · exact Or.inr ⟨e, he, hwrote.replied⟩

theorem processRequest_rw (h : Served H req) {call : RwCall}
    (hurl : req.resource = apiUrl call.callName) : ∃ con : Con, con.Pending ∧
      processRequest H P D env node req =
        (call.handle H P env node req.body con).finish H P := by
  have hfind := find?_rwCall call
  rw [← hurl] at hfind
  exact processRequest_handler P D env node h hfind

theorem processRequest_push (h : Served H req)
    (hurl : req.resource = apiUrl RwCall.pushTransaction.callName) {p : PushTransactionParams}
    (hp : RwCall.pushTransaction.params P req.body = .ok p) :
    (p.trx.validate P = .ok true ∧
      (processRequest H P D env node req).1 = { node with buf := node.buf.cacheTrx p.trx } ∧
      (processRequest H P D env node req).2.Replied 202
        (RwCall.pushTransaction.resultText P (p.trx.toVariant P))) ∨
    (p.trx.validate P ≠ .ok true ∧ (processRequest H P D env node req).1 = node ∧
      ∃ e, (processRequest H P D env node req).2.Replied (errorStatus e) (H.errorBody P e)) := by
  obtain ⟨con, hpending, heq⟩ :=
    processRequest_rw P D env node h hurl
  rcases @RwCall.handle_push H P env node con hpending _ _ hp with
    ⟨hvalid, con', hcon', hwrote⟩ | ⟨hvalid, e, con', hcon', hwrote⟩
  · rw [heq, hcon']
    exact Or.inl ⟨hvalid, rfl, hwrote.replied⟩
  · rw [heq, hcon']
    exact Or.inr ⟨hvalid, rfl, e, hwrote.replied⟩

theorem processRequest_publish (h : Served H req)
    (hurl : req.resource = apiUrl RwCall.publishBlk.callName) {p : RwCall.publishBlk.Params}
    (hp : RwCall.publishBlk.params P req.body = .ok p) :
    (∃ buf b, node.buf.buildBlock P (env.fresh 0) = .ok (buf, b) ∧
      (processRequest H P D env node req).1 =
        ⟨buf.cacheLastBlk b, (appendBlock P node.db (env.sqlOk 0) b).1⟩ ∧
      (processRequest H P D env node req).2.Replied 202
        (RwCall.publishBlk.resultText P operationComplete)) ∨
    (∃ e, node.buf.buildBlock P (env.fresh 0) = .error e ∧
      (processRequest H P D env node req).1 = node ∧
      (processRequest H P D env node req).2.Replied (errorStatus e) (H.errorBody P e)) := by
  obtain ⟨con, hpending, heq⟩ :=
    processRequest_rw P D env node h hurl
  rcases @RwCall.handle_publish H P env node con hpending _ _ hp with
    ⟨buf, b, con', hb, hcon', hwrote⟩ | ⟨e, con', he, hcon', hwrote⟩
  · rw [heq, hcon']
    exact Or.inl ⟨buf, b, hb, rfl, hwrote.replied⟩
  · rw [heq, hcon']
    exact Or.inr ⟨e, he, rfl, hwrote.replied⟩

/-- A call whose parameters cannot be read is not made, and nobody is told. -/
theorem processRequest_malformed (h : Served H req) {call : RwCall}
    (hurl : req.resource = apiUrl call.callName) {e : Exn}
    (he : call.params P req.body = .error e) :
    (processRequest H P D env node req).1 = node ∧
      (processRequest H P D env node req).2.written = [] := by
  obtain ⟨con, hpending, heq⟩ :=
    processRequest_rw P D env node h hurl
  have hhandle : call.handle H P env node req.body con = ⟨node, con, some e⟩ := by
    rw [RwCall.params] at he
    rw [RwCall.handle, he]
  rw [heq, hhandle]
  refine ⟨rfl, Con.Pending.finish ⟨hpending.1, hpending.2⟩⟩

/-! ## Which requests change the node -/

def AcceptedPush (H : HttpPlugin) (P : Platform) (req : Request) (t : Transaction) : Prop :=
  Served H req ∧ req.resource = apiUrl RwCall.pushTransaction.callName ∧
    ∃ p, RwCall.pushTransaction.params P req.body = .ok p ∧ p.trx = t ∧ t.validate P = .ok true

def BuiltPublish (H : HttpPlugin) (P : Platform) (env : ApiEnv) (node : Node) (req : Request)
    (buf : Buffer) (b : Block) : Prop :=
  Served H req ∧ req.resource = apiUrl RwCall.publishBlk.callName ∧
    (∃ p, RwCall.publishBlk.params P req.body = .ok p) ∧
    node.buf.buildBlock P (env.fresh 0) = .ok (buf, b)

theorem not_accepted_of_status {r : Node × Con} {code : ℕ} {body : Str}
    (h : r.2.Replied code body) (hcode : code ≠ 202) :
    ∀ res ∈ r.2.written, res.status ≠ 202 := by
  obtain ⟨res, hwritten, hstatus, _⟩ := h
  rw [hwritten, List.forall_mem_singleton, hstatus]
  exact hcode

theorem errorStatus_ne (e : Exn) : errorStatus e ≠ 202 := by
  rcases errorStatus_cases e with h | h <;> rw [h] <;> decide

theorem processRequest_other (hpush : ∀ t, ¬ AcceptedPush H P req t)
    (hpublish : ∀ buf b, ¬ BuiltPublish H P env node req buf b) :
    (processRequest H P D env node req).1 = node ∧
      ∀ res ∈ (processRequest H P D env node req).2.written, res.status ≠ 202 := by
  by_cases hs : Served H req
  swap
  · obtain ⟨hnode, r, hwritten, hstatus, _⟩ :=
      processRequest_unserved P D env node hs
    refine ⟨hnode, ?_⟩
    rwa [hwritten, List.forall_mem_singleton]
  cases hfind : urlHandlers.find? (·.1 = req.resource) with
  | none =>
      obtain ⟨hnode, r, hwritten, hstatus⟩ :=
        processRequest_unknown P D env node hs hfind
      refine ⟨hnode, ?_⟩
      rw [hwritten, List.forall_mem_singleton, hstatus]
      decide
  | some entry =>
      obtain ⟨url, handler⟩ := entry
      obtain ⟨hurl, hmem⟩ := find?_urlHandlers hfind
      cases handler with
      | ro call =>
          rw [ro_mem_urlHandlers hmem] at hurl
          obtain ⟨hnode, hreply⟩ :=
            processRequest_ro P D env node hs hurl
          refine ⟨hnode, ?_⟩
          rcases hreply with ⟨result, _, hreply⟩ | ⟨e, _, hreply⟩
          · exact not_accepted_of_status hreply (by decide)
          · exact not_accepted_of_status hreply (errorStatus_ne e)
      | rw call =>
          rw [rw_mem_urlHandlers hmem] at hurl
          cases hp : call.params P req.body with
          | error e =>
              obtain ⟨hnode, hnone⟩ :=
                processRequest_malformed P D env node hs hurl hp
              refine ⟨hnode, ?_⟩
              rw [hnone]
              exact fun res hres => absurd hres List.not_mem_nil
          | ok p =>
              cases call with
              | pushTransaction =>
                  rcases processRequest_push P D env node hs hurl hp with
                    ⟨hvalid, _⟩ | ⟨_, hnode, e, hreply⟩
                  · exact absurd ⟨hs, hurl, p, hp, rfl, hvalid⟩ (hpush _)
                  · exact ⟨hnode, not_accepted_of_status hreply (errorStatus_ne e)⟩
              | publishBlk =>
                  rcases processRequest_publish P D env node hs hurl hp
                    with ⟨buf, b, hb, _⟩ | ⟨e, _, hnode, hreply⟩
                  · exact absurd ⟨hs, hurl, ⟨p, hp⟩, hb⟩ (hpublish buf b)
                  · exact ⟨hnode, not_accepted_of_status hreply (errorStatus_ne e)⟩

theorem processRequest_accepted {t : Transaction} (h : AcceptedPush H P req t) :
    (processRequest H P D env node req).1 = { node with buf := node.buf.cacheTrx t } ∧
      (processRequest H P D env node req).2.Replied 202
        (RwCall.pushTransaction.resultText P (t.toVariant P)) := by
  obtain ⟨hs, hurl, p, hp, rfl, hvalid⟩ := h
  rcases processRequest_push P D env node hs hurl hp with
    ⟨_, heffect⟩ | ⟨hinvalid, _⟩
  · exact heffect
  · exact absurd hvalid hinvalid

theorem processRequest_built {buf : Buffer} {b : Block}
    (h : BuiltPublish H P env node req buf b) :
    (processRequest H P D env node req).1 =
        ⟨buf.cacheLastBlk b, (appendBlock P node.db (env.sqlOk 0) b).1⟩ ∧
      (processRequest H P D env node req).2.Replied 202
        (RwCall.publishBlk.resultText P operationComplete) := by
  obtain ⟨hs, hurl, ⟨p, hp⟩, hb⟩ := h
  rcases processRequest_publish P D env node hs hurl hp with
    ⟨buf', b', hb', heffect⟩ | ⟨e, he, _⟩
  · rw [hb, Except.ok.injEq, Prod.mk.injEq] at hb'
    obtain ⟨rfl, rfl⟩ := hb'
    exact heffect
  · rw [hb] at he
    cases he

theorem changed_of_accepted {code : ℕ} {body : Str} {t : Transaction}
    (h : (processRequest H P D env node req).1 = { node with buf := node.buf.cacheTrx t } ∧
      (processRequest H P D env node req).2.Replied code body) :
    (processRequest H P D env node req).1 ≠ node := by
  rw [h.1]
  intro heq
  have hpool := congrArg (fun n : Node => n.buf.trxPool.length) heq
  simp [Buffer.cacheTrx] at hpool

theorem changed_of_built (hsign : P.ProducerSigns)
    (hkey : PrivateKey.ofStr P privateKeyStr = .ok node.buf.privateKey) {buf : Buffer} {b : Block}
    (h : BuiltPublish H P env node req buf b) :
    (processRequest H P D env node req).1 ≠ node := by
  obtain ⟨_, valid, hb⟩ := buildBlock_cases h.2.2.2
  rw [(processRequest_built P D env node h).1]
  exact fun heq => hb.ne_lastBlock hsign hkey (congrArg (fun n : Node => n.buf.lastBlock) heq)

/-- A request changes the node exactly when it is answered with 202: then it was a valid
transaction, which is echoed and joins the pool, or an order to publish, and the node has
built a block of its pool. -/
theorem request_effect (H : HttpPlugin) (P : Platform) (D : KeyDerivation) (env : ApiEnv)
    (node : Node) (req : Request) :
    (∀ t, AcceptedPush H P req t →
      (processRequest H P D env node req).1 = { node with buf := node.buf.cacheTrx t } ∧
      (processRequest H P D env node req).2.Replied 202
        (RwCall.pushTransaction.resultText P (t.toVariant P))) ∧
    (∀ buf b, BuiltPublish H P env node req buf b →
      (processRequest H P D env node req).1 =
        ⟨buf.cacheLastBlk b, (appendBlock P node.db (env.sqlOk 0) b).1⟩ ∧
      (processRequest H P D env node req).2.Replied 202
        (RwCall.publishBlk.resultText P operationComplete)) ∧
    ((∀ t, ¬ AcceptedPush H P req t) → (∀ buf b, ¬ BuiltPublish H P env node req buf b) →
      (processRequest H P D env node req).1 = node ∧
      ∀ res ∈ (processRequest H P D env node req).2.written, res.status ≠ 202) ∧
    (P.ProducerSigns → PrivateKey.ofStr P privateKeyStr = .ok node.buf.privateKey →
      ((processRequest H P D env node req).1 ≠ node ↔
        ∃ res ∈ (processRequest H P D env node req).2.written, res.status = 202)) := by
  refine ⟨fun _ h => processRequest_accepted P D env node h,
    fun _ _ h => processRequest_built P D env node h,
    fun hpush hpublish => processRequest_other P D env node hpush hpublish, fun hsign hkey => ?_⟩
  by_cases hpush : ∃ t, AcceptedPush H P req t
  · obtain ⟨t, ht⟩ := hpush
    have heffect := processRequest_accepted P D env node ht
    exact iff_of_true (changed_of_accepted P D env node heffect) heffect.2.status_mem
  by_cases hpublish : ∃ buf b, BuiltPublish H P env node req buf b
  · obtain ⟨buf, b, hb⟩ := hpublish
    exact iff_of_true (changed_of_built P D env node hsign hkey hb)
      (processRequest_built P D env node hb).2.status_mem
  obtain ⟨hnode, hstatus⟩ := processRequest_other P D env node
    (fun t ht => hpush ⟨t, ht⟩) fun buf b hb => hpublish ⟨buf, b, hb⟩
  exact iff_of_false (fun hne => hne hnode) fun ⟨res, hres, h202⟩ => hstatus res hres h202

namespace Sample

def keyDerivation : KeyDerivation := ⟨fun _ => none, fun _ => none⟩

def apiEnv : ApiEnv := ⟨Sample.env, 0, [], ⟨.k1, Vector.replicate 32 1⟩⟩

/-- A request on a unix socket, which has no host to check. -/
def socketRequest : Request := { arrayRequest with unixSocket := true }

theorem served : Served http socketRequest := ⟨by decide, ⟨.fresh, rfl⟩, by decide⟩

def publishRequest : Request := socketRequest.ask RwCall.publishBlk.callName []

theorem built_publishRequest :
    BuiltPublish http platform apiEnv ⟨buf.cacheTrx trx, .empty⟩ publishRequest buf block :=
  ⟨served.ask_nil RwCall.publishBlk.callName, rfl, ⟨(), by rfl⟩, build⟩

end Sample

theorem sample_request_effect :
    (processRequest Sample.http Sample.platform Sample.keyDerivation Sample.apiEnv
      ⟨Sample.buf.cacheTrx Sample.trx, .empty⟩ Sample.publishRequest).1 ≠
        ⟨Sample.buf.cacheTrx Sample.trx, .empty⟩ := by
  obtain ⟨_, hbuilt, _, hchanged⟩ := request_effect Sample.http Sample.platform
    Sample.keyDerivation Sample.apiEnv ⟨Sample.buf.cacheTrx Sample.trx, .empty⟩
    Sample.publishRequest
  exact (hchanged Sample.producerSigns Sample.privateKey).2
    (hbuilt _ _ Sample.built_publishRequest).2.status_mem

variable {P D env node}

/-! ## Requests in a row -/

/-- The node after requests, each with what it meets. -/
def serve (H : HttpPlugin) (P : Platform) (D : KeyDerivation) (node : Node)
    (requests : List (ApiEnv × Request)) : Node :=
  requests.foldl (fun node r => (processRequest H P D r.1 node r.2).1) node

def acknowledgedRequests (H : HttpPlugin) (P : Platform) (D : KeyDerivation) :
    Node → List (ApiEnv × Request) → List (ApiEnv × Request)
  | _, [] => []
  | node, r :: requests =>
      let done := processRequest H P D r.1 node r.2
      if done.2.written.any (·.status = 202) then
        r :: acknowledgedRequests H P D done.1 requests
      else acknowledgedRequests H P D done.1 requests

theorem node_eq_of_not_acknowledged
    (h : (processRequest H P D env node req).2.written.any (·.status = 202) = false) :
    (processRequest H P D env node req).1 = node := by
  have hstatus : ∀ code body, (processRequest H P D env node req).2.Replied code body →
      code ≠ 202 := by
    rintro _ body ⟨r, hwritten, rfl, _⟩
    simpa [hwritten] using h
  refine (processRequest_other P D env node (fun t ht => ?_) fun buf b hb => ?_).1
  · exact hstatus _ _ (processRequest_accepted P D env node ht).2 rfl
  · exact hstatus _ _ (processRequest_built P D env node hb).2 rfl

/-- What was not answered with 202 might as well not have been sent, whatever the database
did in between. -/
theorem serve_acknowledged (H : HttpPlugin) (P : Platform) (D : KeyDerivation) (node : Node)
    (requests : List (ApiEnv × Request)) :
    serve H P D node (acknowledgedRequests H P D node requests) = serve H P D node requests := by
  induction requests generalizing node with
  | nil => rfl
  | cons r requests ih =>
      rw [acknowledgedRequests]
      split
      · exact ih _
      next hnot =>
        rw [Bool.not_eq_true] at hnot
        have hcons : serve H P D node (r :: requests) =
            serve H P D (processRequest H P D r.1 node r.2).1 requests := rfl
        rw [hcons, node_eq_of_not_acknowledged hnot]
        exact ih node

theorem serve_accepted {t : Transaction} (h : AcceptedPush H P req t) (envs : List ApiEnv)
    (node : Node) : serve H P D node (envs.map (·, req)) =
      { node with buf := { node.buf with
        trxPool := node.buf.trxPool ++ List.replicate envs.length t } } := by
  induction envs generalizing node with
  | nil =>
      rw [List.length_nil, List.replicate_zero, List.append_nil]
      rfl
  | cons env envs ih =>
      have hcons : serve H P D node ((env :: envs).map (·, req)) =
          serve H P D (processRequest H P D env node req).1 (envs.map (·, req)) := rfl
      rw [hcons, (processRequest_accepted P D env node h).1, ih]
      simp only [Buffer.cacheTrx, List.length_cons, List.replicate_succ, List.append_assoc,
        List.singleton_append]

theorem acknowledged_accepted {t : Transaction} (h : AcceptedPush H P req t)
    (envs : List ApiEnv) (node : Node) :
    acknowledgedRequests H P D node (envs.map (·, req)) = envs.map (·, req) := by
  induction envs generalizing node with
  | nil => rfl
  | cons env envs ih =>
      obtain ⟨_, r, hwritten, hstatus, _⟩ := processRequest_accepted P D env node h
      have hany : (processRequest H P D env node req).2.written.any (·.status = 202) = true := by
        rw [hwritten, List.any_cons, hstatus]
        rfl
      rw [List.map_cons, acknowledgedRequests, if_pos hany, ih]

end SimpleBlockchain
