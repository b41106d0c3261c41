import SimpleBlockchain.ChainApi

/-!
# Requests and responses

A known URL defers the response of its connection: from then on it is written by
`send_http_response` or not at all. Any other response is written by the connection when
the request handler returns.
-/

namespace SimpleBlockchain

/-! ## The connection -/

inductive HttpState
  | init
  | deferred
  | bodyWritten
deriving DecidableEq

/-- A response. Before a status is set it is 0, `uninitialized`. -/
structure Response where
  status : ℕ
  headers : List (Str × Str)
  body : Str

/-- What request handlers see of a connection, and the responses written on it. -/
structure Con where
  httpState : HttpState
  response : Response
  written : List Response

namespace Con

def fresh : Con := ⟨.init, ⟨0, [], []⟩, []⟩

def setStatus (con : Con) (code : ℕ) : Con :=
  { con with response := { con.response with status := code } }

def setBody (con : Con) (body : Str) : Con :=
  { con with response := { con.response with body := body } }

def appendHeader (con : Con) (key val : Str) : Con :=
  { con with response := { con.response with headers := con.response.headers ++ [(key, val)] } }

def deferHttpResponse (con : Con) : Con := { con with httpState := .deferred }

def writeHttpResponse (con : Con) : Con :=
  { con with written := con.written ++
      [if con.response.status = 0 then { con.response with status := 500 } else con.response] }

def sendHttpResponse (con : Con) : Con × Option Exn :=
  if con.httpState = .deferred then
    ({ con with httpState := .bodyWritten }.writeHttpResponse, none)
  else (con, some ⟨.exception, "rethrow ${what}: "⟩)

/-- The end of `handle_read_handshake`, after the request handler has returned. -/
def finish (con : Con) : Con :=
  if con.httpState = .init then con.writeHttpResponse else con

def respond (con : Con) (code : ℕ) (body : Str) : Con × Option Exn :=
  ((con.setBody body).setStatus code).sendHttpResponse

end Con

/-! ## The plugin -/

/-- The options of the plugin, and what `error_info` reports of an exception. -/
structure HttpPlugin where
  maxBodySize : UInt64
  accessControlAllowOrigin : Str
  accessControlAllowHeaders : Str
  accessControlMaxAge : Str
  accessControlAllowCredentials : Bool
  validateHost : Bool
  validHosts : List Str
  errorInfo : Exn → Variant

/-- A request as it arrives on a connection, with the body that its `Content-Length` announces.
A unix socket has no host and port of its own; on the others, `localSocketHostPort` fails when
the socket is gone. -/
structure Request where
  unixSocket : Bool
  secure : Bool
  localSocketHostPort : Except Exn Str
  host : Str
  method : Str
  resource : Str
  body : Str

/-- `regex_search` for `[^:]:[0-9]+$`. -/
def hasPort (host : Str) : Bool :=
  host.reverse.takeWhile Char.isDigit ≠ [] &&
    match host.reverse.dropWhile Char.isDigit with
    | ':' :: c :: _ => c ≠ ':'
    | _ => false

namespace HttpPlugin

variable (H : HttpPlugin)

def hostPortIsValid (headerHostPort endpointLocalHostPort : Str) : Bool :=
  !H.validateHost || headerHostPort = endpointLocalHostPort || headerHostPort ∈ H.validHosts

def hostIsValid (host endpointLocalHostPort : Str) (secure : Bool) : Bool :=
  if !H.validateHost then true
  else if hasPort host then H.hostPortIsValid host endpointLocalHostPort
  else H.hostPortIsValid (host ++ ':' :: decimal (if secure then 443 else 80)) endpointLocalHostPort

/-- `allow_host`, which sets the status when it refuses. -/
def allowHost (req : Request) (con : Con) : Except Exn (Con × Bool) :=
  if req.unixSocket then .ok (con, true)
  else do
    let localSocketHostPort ← req.localSocketHostPort
    if req.host = [] || !H.hostIsValid req.host localSocketHostPort req.secure then
      .ok (con.setStatus 400, false)
    else .ok (con, true)

def errorResults (P : Platform) (code : UInt64) (message : String) (e : Exn) : Str :=
  toStream P (.object
    [("code".toList, .uint64 code),
     ("message".toList, .string message.toList),
     ("error".toList, H.errorInfo e)])

/-- `http_plugin::handle_exception`. What the callback throws stays here. -/
def handleException (P : Platform) (con : Con) (e : Exn) : Con :=
  if e.name = .eof then
    (con.respond 422 (H.errorResults P 422 "Unprocessable Entity" e)).1
  else (con.respond 500 (H.errorResults P 500 "Internal Service Error" e)).1

/-- `http_plugin_impl::handle_exception`, which has no callback. -/
def handleExceptionCon (P : Platform) (con : Con) (e : Exn) : Con :=
  (con.setStatus 500).setBody (H.errorResults P 500 "Internal Service Error" e)

def appendOption (con : Con) (key : String) (val : Str) : Con :=
  if val = [] then con else con.appendHeader key.toList val

def accessControl (con : Con) : Con :=
  let con := appendOption con "Access-Control-Allow-Origin" H.accessControlAllowOrigin
  let con := appendOption con "Access-Control-Allow-Headers" H.accessControlAllowHeaders
  let con := appendOption con "Access-Control-Max-Age" H.accessControlMaxAge
  if H.accessControlAllowCredentials then
    con.appendHeader "Access-Control-Allow-Credentials".toList "true".toList
  else con

end HttpPlugin

/-! ## The handlers of the chain API -/

inductive UrlHandler
  | ro (call : RoCall)
  | rw (call : RwCall)

def apiUrl (callName : String) : Str := "/v1/chain/".toList ++ callName.toList

def roCalls : List RoCall :=
  [.getInfo, .getBlock, .getBlocks, .getKeys, .hex2char, .char2hex, .signTrx, .checkChain]

def rwCalls : List RwCall := [.pushTransaction, .publishBlk]

/-- What `chain_api_plugin::plugin_startup` adds to `url_handlers`. -/
def urlHandlers : List (Str × UrlHandler) :=
  roCalls.map (fun call => (apiUrl call.callName, .ro call)) ++
    rwCalls.map fun call => (apiUrl call.callName, .rw call)

structure Handled where
  node : Node
  con : Con
  escaped : Option Exn

section Handlers

variable (H : HttpPlugin) (P : Platform) (D : KeyDerivation) (env : ApiEnv) (node : Node)

/-- A handler that the macro `CALL` makes. -/
def RoCall.handle (call : RoCall) (body : Str) (con : Con) : Handled :=
  match bodyVariant P body >>= fun v => call.run P D env node v with
  | .error e => ⟨node, H.handleException P con e, none⟩
  | .ok result =>
      match con.respond 200 (toStream P result) with
      | (con, none) => ⟨node, con, none⟩
      | (con, some e) => ⟨node, H.handleException P con e, none⟩

/-- The callback that a handler made by `CALL_ASYNC` passes on. -/
def RwCall.next (call : RwCall) (con : Con) : Except Exn Variant → Con × Option Exn
  | .error e => (H.handleException P con e, none)
  | .ok result => con.respond 202 (call.resultText P result)

/-- A handler that the macro `CALL_ASYNC` makes. The callback acts on the connection at
each reply; the call sees of that whether it throws, which on an error it never does. -/
def RwCall.handle (call : RwCall) (body : Str) (con : Con) : Handled :=
  match bodyVariant P body >>= fun v => call.paramsFromVariant P v with
  | .error e => ⟨node, con, some e⟩
  | .ok p =>
      let outcome := call.run P env (fun reply => (call.next H P con reply).2) node p
      ⟨outcome.node,
        outcome.answered.replies.foldl (fun con reply => (call.next H P con reply).1) con,
        outcome.answered.escaped⟩

def UrlHandler.handle (body : Str) (con : Con) : UrlHandler → Handled
  | .ro call => call.handle H P D env node body con
  | .rw call => call.handle H P env node body con

/-- The body of the `try` block of `handle_http_request` once the host is allowed. -/
def handleAllowed (req : Request) (con : Con) : Handled :=
  let con := H.accessControl con
  if req.method = "OPTIONS".toList then ⟨node, con.setStatus 200, none⟩
  else
    let con := con.appendHeader "Content-type".toList "application/json".toList
    match urlHandlers.find? (·.1 = req.resource) with
    | some (_, handler) => handler.handle H P D env node req.body con.deferHttpResponse
    | none =>
        ⟨node, (con.setBody (H.errorResults P 404 "Not Found"
          ⟨.exception, "Unknown Endpoint"⟩)).setStatus 404, none⟩

def handleHttpRequest (req : Request) (con : Con) : Node × Con :=
  match H.allowHost req con with
  | .error e => (node, H.handleExceptionCon P con e)
  | .ok (con, false) => (node, con)
  | .ok (con, true) =>
      let handled := handleAllowed H P D env node req con
      match handled.escaped with
      | none => (handled.node, handled.con)
      | some e => (handled.node, H.handleExceptionCon P handled.con e)

/-- What `handle_read_handshake` does with a request. A body that is announced too large is
not read, and no handler sees the request. -/
def processRequest (req : Request) : Node × Con :=
  if H.maxBodySize.toNat < req.body.length then
    (node, (Con.fresh.setStatus 413).writeHttpResponse)
  else
    let (node, con) := handleHttpRequest H P D env node req .fresh
    (node, con.finish)

end Handlers

end SimpleBlockchain
