import SimpleBlockchain.HttpPlugin

/-!
# How often a request is answered

A handler made by `CALL` catches whatever its call throws. A handler made by `CALL_ASYNC`
leaves that to the call, which has not begun while the body is read.
-/

namespace SimpleBlockchain

namespace Con

def Idle (con : Con) : Prop := con.httpState = .init ∧ con.written = []

def Pending (con : Con) : Prop := con.httpState = .deferred ∧ con.written = []

def AnsweredOnce (con : Con) : Prop := con.httpState = .bodyWritten ∧ con.written.length = 1

theorem idle_fresh : fresh.Idle := ⟨rfl, rfl⟩

theorem Idle.deferHttpResponse {con : Con} (h : con.Idle) : con.deferHttpResponse.Pending :=
  ⟨rfl, h.2⟩

theorem Pending.respond {con : Con} (h : con.Pending) (code : ℕ) (body : Str) :
    ∃ con', con.respond code body = (con', none) ∧ con'.AnsweredOnce := by
  obtain ⟨hstate, hwritten⟩ := h
  refine ⟨_, if_pos hstate, rfl, ?_⟩
  simp [writeHttpResponse, setStatus, setBody, hwritten]

theorem Idle.finish {con : Con} (h : con.Idle) : con.finish.written.length = 1 := by
  rw [Con.finish, if_pos h.1, writeHttpResponse, h.2]
  rfl

theorem AnsweredOnce.finish {con : Con} (h : con.AnsweredOnce) :
    con.finish.written.length = 1 := by
  rw [Con.finish, if_neg (by rw [h.1]; decide), h.2]

theorem Pending.finish {con : Con} (h : con.Pending) : con.finish.written = [] := by
  rw [Con.finish, if_neg (by rw [h.1]; decide), h.2]

end Con

open SimpleBlockchain.Con

variable {H : HttpPlugin} {P : Platform} {D : KeyDerivation} (env : ApiEnv) (node : Node)
  {con : Con}

/-! ## What each part does to the connection -/

theorem HttpPlugin.allowHost_con {req : Request} {allowed : Bool} {con' : Con}
    (h : con.Idle) (hreq : H.allowHost req con = .ok (con', allowed)) : con'.Idle := by
  unfold allowHost at hreq
  split at hreq
  · cases hreq
    exact h
  · obtain ⟨hostPort, _, hreq⟩ := bind_eq_ok.1 hreq
    split at hreq <;> cases hreq
    · exact h
    · exact h

theorem HttpPlugin.idle_accessControl (h : con.Idle) : (H.accessControl con).Idle := by
  have hoption : ∀ (con : Con) key val, con.Idle → (appendOption con key val).Idle := by
    intro con key val h
    unfold appendOption
    split
    · exact h
    · exact h
  unfold accessControl
  have hcon := hoption _ "Access-Control-Max-Age" H.accessControlMaxAge
    (hoption _ "Access-Control-Allow-Headers" H.accessControlAllowHeaders
      (hoption con "Access-Control-Allow-Origin" H.accessControlAllowOrigin h))
  simp only
  split
  · exact hcon
  · exact hcon

theorem HttpPlugin.handleException_pending (h : con.Pending) (e : Exn) :
    (H.handleException P con e).AnsweredOnce := by
  unfold handleException
  split
  · obtain ⟨con', hcon, hanswered⟩ := h.respond 422
      (H.errorResults P 422 "Unprocessable Entity" e)
    rw [hcon]
    exact hanswered
  · obtain ⟨con', hcon, hanswered⟩ := h.respond 500
      (H.errorResults P 500 "Internal Service Error" e)
    rw [hcon]
    exact hanswered

theorem RoCall.handle_pending (h : con.Pending) (call : RoCall) (body : Str) :
    (call.handle H P D env node body con).con.AnsweredOnce ∧
      (call.handle H P D env node body con).escaped = none := by
  unfold RoCall.handle
  cases bodyVariant P body >>= fun v => call.run P D env node v with
  | error e => exact ⟨HttpPlugin.handleException_pending h e, rfl⟩
  | ok result =>
      obtain ⟨con', hcon, hanswered⟩ := h.respond 200 (toStream P result)
      simp only [hcon]
      exact ⟨hanswered, trivial⟩

theorem RwCall.next_pending (h : con.Pending) (call : RwCall) (reply : Except Exn Variant) :
    (call.next H P con reply).1.AnsweredOnce ∧ (call.next H P con reply).2 = none := by
  unfold RwCall.next
  cases reply with
  | error e => exact ⟨HttpPlugin.handleException_pending h e, rfl⟩
  | ok result =>
      obtain ⟨con', hcon, hanswered⟩ := h.respond 202 (call.resultText P result)
      simp only [hcon]
      exact ⟨hanswered, trivial⟩

theorem catchAndCall_of_none {α : Type} {next : NextFunction α} {reply : Except Exn α}
    (h : next reply = none) : catchAndCall next reply = ⟨[reply], none⟩ := by
  cases reply <;> simp [catchAndCall, h]

theorem RwCall.run_answered (next : NextFunction Variant) (call : RwCall) (p : call.Params) :
    ∃ reply, (call.run P env next node p).answered = catchAndCall next reply := by
  cases call with
  | pushTransaction =>
      rcases pushTransaction_cases P next node p with ⟨_, heq⟩ | ⟨_, e, heq⟩
      · exact ⟨.ok ((PushTransactionParams.trx p).toVariant P), congrArg Outcome.answered heq⟩
      · exact ⟨.error e, congrArg Outcome.answered heq⟩
  | publishBlk =>
      rcases publishBlk_cases P env.toEnv next node with ⟨e, _, heq⟩ | ⟨_, _, _, heq⟩
      · exact ⟨.error e, congrArg Outcome.answered heq⟩
      · exact ⟨.ok operationComplete, congrArg Outcome.answered heq⟩

/-- The body cannot be read as the parameters of the call. -/
def Malformed (P : Platform) (call : RwCall) (body : Str) : Prop :=
  ∃ e, (bodyVariant P body >>= fun v => call.paramsFromVariant P v) = .error e

/-- Once its call has begun, an asynchronous handler sends one response. Before that it
sends none. -/
theorem RwCall.handle_pending (h : con.Pending) (call : RwCall) (body : Str) :
    (Malformed P call body ∧ (call.handle H P env node body con).con = con ∧
      (call.handle H P env node body con).escaped ≠ none) ∨
    (¬ Malformed P call body ∧ (call.handle H P env node body con).con.AnsweredOnce ∧
      (call.handle H P env node body con).escaped = none) := by
  unfold RwCall.handle Malformed
  cases bodyVariant P body >>= fun v => call.paramsFromVariant P v with
  | error e => exact Or.inl ⟨⟨e, rfl⟩, rfl, by simp⟩
  | ok p =>
      obtain ⟨reply, hreply⟩ := RwCall.run_answered (P := P) env node
        (fun reply => (call.next H P con reply).2) call p
      obtain ⟨hanswered, hnone⟩ := RwCall.next_pending (H := H) (P := P) h call reply
      rw [catchAndCall_of_none hnone] at hreply
      refine Or.inr ⟨by simp, ?_, ?_⟩
      · simp only [hreply]
        exact hanswered
      · simp only [hreply]

/-! ## Requests -/

/-- The requests to which a writing call is found, but not its parameters. -/
def Dropped (H : HttpPlugin) (P : Platform) (req : Request) : Prop :=
  req.body.length ≤ H.maxBodySize.toNat ∧
    (∃ con, H.allowHost req .fresh = .ok (con, true)) ∧ req.method ≠ "OPTIONS".toList ∧
      ∃ call : RwCall, req.resource = apiUrl call.callName ∧ Malformed P call req.body

theorem find?_urlHandlers {resource url : Str} {handler : UrlHandler}
    (h : urlHandlers.find? (·.1 = resource) = some (url, handler)) :
    resource = url ∧ (url, handler) ∈ urlHandlers := by
  have hurl := List.find?_some h
  rw [decide_eq_true_iff] at hurl
  exact ⟨hurl.symm, List.mem_of_find?_eq_some h⟩

theorem find?_rwCall (call : RwCall) :
    urlHandlers.find? (·.1 = apiUrl call.callName) = some (apiUrl call.callName, .rw call) := by
  cases call <;> rfl

theorem rw_mem_urlHandlers {url : Str} {call : RwCall} (h : (url, .rw call) ∈ urlHandlers) :
    url = apiUrl call.callName := by
  rcases List.mem_append.1 h with hro | hrw
  · obtain ⟨_, _, heq⟩ := List.mem_map.1 hro
    cases heq
  · obtain ⟨_, _, heq⟩ := List.mem_map.1 hrw
    cases heq
    rfl

/-- An allowed request is answered once, now or when its handler returns, unless it is one
that is dropped. -/
theorem handleAllowed_cases (h : con.Idle) (req : Request) :
    (req.method ≠ "OPTIONS".toList ∧
      (∃ call : RwCall, req.resource = apiUrl call.callName ∧ Malformed P call req.body) ∧
      (handleAllowed H P D env node req con).con.Pending ∧
      (handleAllowed H P D env node req con).escaped ≠ none) ∨
    (¬ (req.method ≠ "OPTIONS".toList ∧
        ∃ call : RwCall, req.resource = apiUrl call.callName ∧ Malformed P call req.body) ∧
      ((handleAllowed H P D env node req con).con.Idle ∨
        (handleAllowed H P D env node req con).con.AnsweredOnce) ∧
      (handleAllowed H P D env node req con).escaped = none) := by
  have hidle := HttpPlugin.idle_accessControl (H := H) h
  unfold handleAllowed
  by_cases hmethod : req.method = "OPTIONS".toList
  · simp only [if_pos hmethod]
    exact Or.inr ⟨fun hdrop => hdrop.1 hmethod, Or.inl hidle, trivial⟩
  simp only [if_neg hmethod]
  have hpending : ((H.accessControl con).appendHeader "Content-type".toList
      "application/json".toList).deferHttpResponse.Pending := ⟨rfl, hidle.2⟩
  cases hfind : urlHandlers.find? (·.1 = req.resource) with
  | none =>
      refine Or.inr ⟨fun ⟨_, call, hurl, _⟩ => ?_, Or.inl hidle, rfl⟩
      rw [hurl, find?_rwCall] at hfind
      cases hfind
  | some entry =>
      obtain ⟨url, handler⟩ := entry
      obtain ⟨hurl, hmem⟩ := find?_urlHandlers hfind
      cases handler with
      | ro call =>
          obtain ⟨hanswered, hnone⟩ := RoCall.handle_pending (H := H) (P := P) (D := D) env node
            hpending call req.body
          refine Or.inr ⟨fun ⟨_, call, hurl, _⟩ => ?_, Or.inr hanswered, hnone⟩
          rw [hurl, find?_rwCall] at hfind
          cases hfind
      | rw call =>
          have hcall : req.resource = apiUrl call.callName := by
            rw [hurl, rw_mem_urlHandlers hmem]
          rcases RwCall.handle_pending (H := H) (P := P) env node hpending call req.body with
            ⟨hbad, hcon, hescaped⟩ | ⟨hgood, hanswered, hnone⟩
          · refine Or.inl ⟨hmethod, ⟨call, hcall, hbad⟩, ?_, hescaped⟩
            simpa only [UrlHandler.handle, hcon] using hpending
          · refine Or.inr ⟨fun ⟨_, call', hurl', hbad⟩ => hgood ?_, Or.inr hanswered, hnone⟩
            rw [hurl', find?_rwCall] at hfind
            cases hfind
            exact hbad

theorem handleHttpRequest_cases (H : HttpPlugin) (P : Platform) (D : KeyDerivation) (env : ApiEnv)
    (node : Node) {req : Request} (hsize : req.body.length ≤ H.maxBodySize.toNat) :
    (Dropped H P req ∧ (handleHttpRequest H P D env node req .fresh).2.Pending) ∨
    (¬ Dropped H P req ∧ ((handleHttpRequest H P D env node req .fresh).2.Idle ∨
      (handleHttpRequest H P D env node req .fresh).2.AnsweredOnce)) := by
  unfold handleHttpRequest Dropped
  cases hallow : H.allowHost req .fresh with
  | error e => exact Or.inr ⟨by simp, Or.inl ⟨rfl, rfl⟩⟩
  | ok r =>
      obtain ⟨con, allowed⟩ := r
      have hidle := HttpPlugin.allowHost_con idle_fresh hallow
      cases allowed with
      | false => exact Or.inr ⟨by simp, Or.inl hidle⟩
      | true =>
          rcases handleAllowed_cases (H := H) (P := P) (D := D) env node hidle req with
            ⟨hmethod, hbad, hpending, hescaped⟩ | ⟨hgood, hcon, hnone⟩
          · obtain ⟨e, he⟩ := Option.ne_none_iff_exists'.1 hescaped
            refine Or.inl ⟨⟨hsize, ⟨con, rfl⟩, hmethod, hbad⟩, ?_⟩
            simp only [he]
            exact hpending
          · refine Or.inr ⟨fun hdrop => hgood hdrop.2.2, ?_⟩
            simp only [hnone]
            exact hcon

theorem processRequest_large {H : HttpPlugin} (P : Platform) (D : KeyDerivation) (env : ApiEnv)
    (node : Node) {req : Request} (hlarge : H.maxBodySize.toNat < req.body.length) :
    processRequest H P D env node req =
      (node, (Con.fresh.setStatus 413).writeHttpResponse) :=
  if_pos hlarge

theorem processRequest_small {H : HttpPlugin} (P : Platform) (D : KeyDerivation) (env : ApiEnv)
    (node : Node) {req : Request} (hsize : req.body.length ≤ H.maxBodySize.toNat) :
    processRequest H P D env node req =
      ((handleHttpRequest H P D env node req .fresh).1,
        (handleHttpRequest H P D env node req .fresh).2.finish) :=
  if_neg (Nat.not_lt.2 hsize)

/-- A request gets exactly one response, unless it is one that is dropped, and those get
none. -/
theorem one_response_iff (H : HttpPlugin) (P : Platform) (D : KeyDerivation) (env : ApiEnv)
    (node : Node) (req : Request) :
    ((processRequest H P D env node req).2.written.length = 1 ↔ ¬ Dropped H P req) ∧
      (Dropped H P req → (processRequest H P D env node req).2.written = []) := by
  by_cases hlarge : H.maxBodySize.toNat < req.body.length
  · rw [processRequest_large P D env node hlarge]
    have hkeep : ¬ Dropped H P req := fun hdrop => absurd hdrop.1 (Nat.not_le.2 hlarge)
    exact ⟨iff_of_true rfl hkeep, fun hdrop => absurd hdrop hkeep⟩
  have hsize := Nat.not_lt.1 hlarge
  rw [processRequest_small P D env node hsize]
  rcases handleHttpRequest_cases H P D env node hsize with
    ⟨hdrop, hpending⟩ | ⟨hkeep, hcon⟩
  · have hnone := hpending.finish
    refine ⟨⟨fun hone => ?_, fun hkeep => absurd hdrop hkeep⟩, fun _ => hnone⟩
    simp only at hone
    rw [hnone] at hone
    cases hone
  · refine ⟨⟨fun _ => hkeep, fun _ => ?_⟩, fun hdrop => absurd hdrop hkeep⟩
    rcases hcon with hidle | hanswered
    · exact hidle.finish
    · exact hanswered.finish

namespace Sample

/-- The defaults of the options, for a node on port 8888. -/
def http : HttpPlugin where
  maxBodySize := 1024 * 1024
  accessControlAllowOrigin := []
  accessControlAllowHeaders := []
  accessControlMaxAge := []
  accessControlAllowCredentials := false
  validateHost := true
  validHosts := ["127.0.0.1:8888".toList]
  errorInfo e := .object [("what".toList, .string e.what.toList)]

/-- A body that is JSON, but not an object. -/
def arrayRequest : Request where
  unixSocket := false
  secure := false
  localSocketHostPort := .ok "127.0.0.1:8888".toList
  host := "127.0.0.1:8888".toList
  method := "POST".toList
  resource := "/v1/chain/push_transaction".toList
  body := "[]".toList

end Sample

theorem sample_request_unanswered :
    (processRequest Sample.http Sample.platform ⟨fun _ => none, fun _ => none⟩
      ⟨Sample.env, 0, [], ⟨.k1, Vector.replicate 32 1⟩⟩ ⟨Sample.buf, .empty⟩
      Sample.arrayRequest).2.written.length = 0 := by
  decide +kernel

end SimpleBlockchain
