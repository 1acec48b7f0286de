import Tazamun.Dashboard.Http
import Tazamun.Lib.Json
import Tazamun.Query.Page

set_option autoImplicit false

/-! # What the dashboard lets through

The dashboard answers on a port of the loopback interface, which every program of the machine and
every page in its browsers can reach (`dashboard.rs`). What guards the daemon behind it is checked
on each request: the `Host` must be a loopback name, so that a page that rebinds its own name to
the address is refused; and whatever changes the session, or asks for more than the two open
reads, must carry the token.

`handleConn` is a connection from the bytes to the answer, with the request that it hands to the
daemon. Whatever the bytes and however they come in, nothing reaches the daemon without a loopback
`Host`, and without the token nothing but the two reads (**`handleConn_guarded`**).

The JSON of the bodies is `serde_json`'s, a parameter; so are the page and the drawing of the QR
code.
-/

namespace Tazamun.Dashboard

open Lib Config

/-! ## Requests of the daemon -/

structure AuditQuery where
  path : Option String
  peer : Option String
  sinceMs : Option U64
  kinds : List String
  offset : Nat
  limit : Option Nat
  newestFirst : Option Bool

/-- The requests that the dashboard makes. -/
inductive IpcRequest where
  | dashboardState
  | invite (role : Option String) (ttlMs : Option U64)
  | lock (path : String)
  | unlock (path : String)
  | restore (path : String) (n : Nat)
  | configSet (key value : String)
  | conflictApply (id target : String)
  | conflictDiscard (id : String)
  | files (query : FilesQuery)
  | audit (query : AuditQuery)
  | conflictsPrunable (olderThanMs : U64)

structure IpcResponse where
  ok : Bool
  data : Option Json
  error : Option (String × String)

/-- What `serde_json` makes of a body. -/
structure Serde where
  value : Bytes → Except String Json
  filesQuery : Bytes → Except String FilesQuery
  auditQuery : Bytes → Except String AuditQuery
  /-- The number `older_than_ms` of an object. -/
  olderThan : Bytes → Except String U64
  /-- `as_u64`. -/
  asU64 : Json → Option U64

structure Server where
  token : String
  port : Fin (2 ^ 16)
  /-- `INDEX_HTML` and the logo, for a nonce. -/
  index : String → String
  renderQrSvg : String → Option String

/-! ## Checks -/

/-- The names that `host_ok` knows. -/
def loopbackNames (port : Fin (2 ^ 16)) : List String :=
  ["127.0.0.1", "localhost", "[::1]", "127.0.0.1:" ++ port.val.repr,
    "localhost:" ++ port.val.repr, "[::1]:" ++ port.val.repr]

def hostOk (headers : Headers) (port : Fin (2 ^ 16)) : Bool :=
  match headers.get "host" with
  | none => false
  | some host => (loopbackNames port).any fun name => name.toList == trim host

/-- The value of the first `token=` of a query. -/
def queryToken (query : List Char) : Option (List Char) :=
  (query.splitOn '&').findSome? fun kv => kv.dropPrefix? "token=".toList

def provided (req : Request) : List Char :=
  ((req.headers.get "x-tazamun-token").or (queryToken req.query)).getD []

/-- `token_ok`. -/
def tokenOk (server : Server) (req : Request) : Bool := provided req == server.token.toList

/-! ## Answers -/

def httpResponse (status contentType csp : String) (body : Bytes) : Bytes :=
  utf8 ("HTTP/1.1 " ++ status ++ "\r\n" ++ "Content-Type: " ++ contentType ++ "\r\n"
    ++ "Content-Length: " ++ body.length.repr ++ "\r\n"
    ++ "Content-Security-Policy: " ++ csp ++ "\r\n" ++ "X-Content-Type-Options: nosniff\r\n"
    ++ "X-Frame-Options: DENY\r\n" ++ "Referrer-Policy: no-referrer\r\n"
    ++ "Cache-Control: no-store\r\n" ++ "Connection: close\r\n\r\n") ++ body

def jsonResponse (status : String) (value : Json) : Bytes :=
  httpResponse status "application/json"
    "default-src 'none'; frame-ancestors 'none'; base-uri 'none'"
    (utf8 (String.ofList value.render))

def text (s : String) : Json := .str s.toList

/-- The members of an object stand in the order of their keys. -/
def errorJson (code message : String) : Json :=
  .obj [("code".toList, text code), ("message".toList, text message)]

def refusal (status code message : String) : Bytes :=
  jsonResponse status
    (.obj [("api".toList, .nat 1), ("error".toList, errorJson code message),
      ("ok".toList, .bool false)])

/-- `with_api`. -/
def withApi (resp : IpcResponse) : Json :=
  .obj (("api".toList, .nat 1) :: (resp.data.toList.map fun data => ("data".toList, data)) ++
    (resp.error.toList.map fun e => ("error".toList, errorJson e.1 e.2)) ++
    [("ok".toList, .bool resp.ok)])

def apiAnswer (resp : IpcResponse) : Bytes :=
  jsonResponse (if resp.ok then "200 OK" else "409 Conflict") (withApi resp)

def indexResponse (server : Server) (nonce : String) : Bytes :=
  httpResponse "200 OK" "text/html; charset=utf-8"
    ("default-src 'none'; script-src 'nonce-" ++ nonce ++ "'; style-src 'nonce-" ++ nonce ++ "'; "
      ++ "img-src 'self' data:; connect-src 'self'; base-uri 'none'; "
      ++ "form-action 'none'; frame-ancestors 'none'") (utf8 (server.index nonce))

/-! ## The bodies -/

/-- `get(..).and_then(as_str)`. -/
def stringField (v : Json) (key : String) : Except String String :=
  match v with
  | .obj members =>
      match members.lookup key.toList with
      | some (.str s) => .ok (String.ofList s)
      | _ => .error ("missing string field `" ++ key ++ "`")
  | _ => .error ("missing string field `" ++ key ++ "`")

variable (serde : Serde)

def parsePathOp (op : String → IpcRequest) (body : Bytes) : Except String IpcRequest := do
  let v ← serde.value body
  return op (← stringField v "path")

def parseRestore (body : Bytes) : Except String IpcRequest := do
  let v ← serde.value body
  let path ← stringField v "path"
  let n := match v with
    | .obj members => (members.lookup "n".toList).bind serde.asU64
    | _ => none
  match n with
  | some n => return .restore path n.val
  | none => throw "missing integer field `n`"

def parseConflictApply (body : Bytes) : Except String IpcRequest := do
  let v ← serde.value body
  let id ← stringField v "id"
  return .conflictApply id (← stringField v "target")

def parseConflictDiscard (body : Bytes) : Except String IpcRequest := do
  let v ← serde.value body
  return .conflictDiscard (← stringField v "id")

def parseConfig (body : Bytes) : Except String IpcRequest := do
  let v ← serde.value body
  let key ← stringField v "key"
  return .configSet key (← stringField v "value")

/-- `parse_query_args`: a body of white space is the default query. -/
def parseQueryArgs {Q : Type} (read : Bytes → Except String Q) (default : Q) (body : Bytes) :
    Except String Q :=
  if body.all fun b => b == 32 || b == 9 || b == 10 || b == 12 || b == 13 then .ok default
  else
    match read body with
    | .ok q => .ok q
    | .error e => .error ("invalid query body: " ++ e)

def parseFilesQuery (body : Bytes) : Except String IpcRequest :=
  (parseQueryArgs serde.filesQuery ⟨none, none, false, false, 0, none⟩ body).map .files

def parseAuditQuery (body : Bytes) : Except String IpcRequest :=
  (parseQueryArgs serde.auditQuery ⟨none, none, none, [], 0, none, none⟩ body).map .audit

def parsePrunable (body : Bytes) : Except String IpcRequest :=
  match serde.olderThan body with
  | .ok ms => .ok (.conflictsPrunable ms)
  | .error e => .error ("older_than_ms is required: " ++ e)

/-! ## Routing -/

/-- What is handed to the daemon, and what is sent back. -/
structure Outcome where
  forwarded : Option IpcRequest
  answer : Option Bytes

variable (server : Server) (nonce : String) (daemon : IpcRequest → IpcResponse)

/-- `api_json`. -/
def apiJson (request : IpcRequest) : Outcome := ⟨some request, some (apiAnswer (daemon request))⟩

/-- `api_invite_qr`. -/
def apiInviteQr : Outcome :=
  let resp := daemon (.invite none none)
  let ticket :=
    match resp.data with
    | some data => ((stringField data "ticket").toOption).getD ""
    | none => ""
  let svg := if ticket = "" then none else server.renderQrSvg ticket
  ⟨some (.invite none none), some (match svg with
    | some svg => httpResponse "200 OK" "image/svg+xml"
        "default-src 'none'; style-src 'unsafe-inline'" (utf8 svg)
    | none => refusal "409 Conflict" "no_ticket" "no invite available")⟩

/-- `guarded`. -/
def guarded (req : Request) (parsed : Except String IpcRequest) : Outcome :=
  if tokenOk server req then
    match parsed with
    | .ok request => apiJson daemon request
    | .error e => ⟨none, some (refusal "400 Bad Request" "bad_request" e)⟩
  else ⟨none, some (refusal "401 Unauthorized" "unauthorized" "missing or invalid dashboard token")⟩

/-- The endpoints behind the token, with the parser of their bodies. -/
def guardedEndpoint : String → Option (Bytes → Except String IpcRequest)
  | "/api/lock" => some (parsePathOp serde .lock)
  | "/api/unlock" => some (parsePathOp serde .unlock)
  | "/api/restore" => some (parseRestore serde)
  | "/api/config" => some (parseConfig serde)
  | "/api/conflict/apply" => some (parseConflictApply serde)
  | "/api/conflict/discard" => some (parseConflictDiscard serde)
  | "/api/files" => some (parseFilesQuery serde)
  | "/api/audit" => some (parseAuditQuery serde)
  | "/api/conflicts/prunable" => some (parsePrunable serde)
  | _ => none

def notFound : Outcome := ⟨none, some (refusal "404 Not Found" "not_found" "no such endpoint")⟩

def route (req : Request) : Outcome :=
  if hostOk req.headers server.port then
    match String.ofList req.method, String.ofList req.path with
    | "GET", "/" => ⟨none, some (indexResponse server nonce)⟩
    | "GET", "/api/state" => apiJson daemon .dashboardState
    | "GET", "/api/invite" => apiJson daemon (.invite none none)
    | "GET", "/api/invite/qr" => apiInviteQr server daemon
    | "POST", path =>
        match guardedEndpoint serde path with
        | some parse => guarded server daemon req (parse req.body)
        | none => notFound
    | _, _ => notFound
  else ⟨none, some (refusal "403 Forbidden" "bad_host" "loopback Host required")⟩

/-- `handle_conn`: one request, and nothing for bytes that are none. -/
def handleConn (reads : List Bytes) : Outcome :=
  match readRequest reads with
  | none => ⟨none, none⟩
  | some req => route serde server nonce daemon req

/-! ## What reaches the daemon -/

/-- The requests that need no token. -/
def OpenRead (request : IpcRequest) : Prop :=
  request = .dashboardState ∨ request = .invite none none

/-- The request was made for a name of this machine. -/
def FromLoopback (req : Request) : Prop :=
  ∃ host, req.headers.get "host" = some host ∧
    ∃ name ∈ loopbackNames server.port, name.toList = trim host

theorem hostOk_iff {req : Request} :
    hostOk req.headers server.port = true ↔ FromLoopback server req := by
  unfold hostOk FromLoopback
  cases req.headers.get "host" with
  | none => simp
  | some host => simp

def CarriesToken (req : Request) : Prop := provided req = server.token.toList

theorem tokenOk_iff {req : Request} : tokenOk server req = true ↔ CarriesToken server req :=
  beq_iff_eq

variable {serde server nonce daemon} {daemon' : IpcRequest → IpcResponse}

theorem apiJson_congr {request : IpcRequest} (h : daemon request = daemon' request) :
    apiJson daemon request = apiJson daemon' request := by
  unfold apiJson
  rw [h]

theorem apiInviteQr_congr (h : daemon (.invite none none) = daemon' (.invite none none)) :
    apiInviteQr server daemon = apiInviteQr server daemon' := by
  unfold apiInviteQr
  rw [h]

/-- Without the token, a guarded endpoint hands over nothing. -/
theorem guarded_of_not_token {req : Request} (h : ¬ CarriesToken server req)
    (parsed : Except String IpcRequest) : guarded server daemon req parsed =
      ⟨none, some (refusal "401 Unauthorized" "unauthorized"
        "missing or invalid dashboard token")⟩ := by
  unfold guarded
  rw [if_neg (mt (tokenOk_iff server).mp h)]

/-- **One request**: what is handed over came from a loopback name, and is an open read or carries
the token. -/
theorem route_forwarded {req : Request} {request : IpcRequest}
    (h : (route serde server nonce daemon req).forwarded = some request) :
    FromLoopback server req ∧ (OpenRead request ∨ CarriesToken server req) := by
  unfold route at h
  by_cases hhost : hostOk req.headers server.port = true
  · refine ⟨(hostOk_iff server).mp hhost, ?_⟩
    rw [if_pos hhost] at h
    split at h
    · cases h
    · obtain rfl := Option.some.inj h
      exact .inl (.inl rfl)
    · obtain rfl := Option.some.inj h
      exact .inl (.inr rfl)
    · obtain rfl := Option.some.inj h
      exact .inl (.inr rfl)
    · split at h
      · by_cases htoken : CarriesToken server req
        · exact .inr htoken
        · rw [guarded_of_not_token htoken] at h
          cases h
      · cases h
    · cases h
  · rw [if_neg hhost] at h
    cases h

/-- Without the token the outcome is settled by what the daemon answers to the open reads. -/
theorem route_congr (hopen : ∀ request, OpenRead request → daemon request = daemon' request)
    {req : Request} (htoken : ¬ CarriesToken server req) :
    route serde server nonce daemon req = route serde server nonce daemon' req := by
  have hstate := apiJson_congr (hopen _ (.inl rfl))
  have hinvite := apiJson_congr (hopen _ (.inr rfl))
  have hqr : apiInviteQr server daemon = apiInviteQr server daemon' :=
    apiInviteQr_congr (hopen _ (.inr rfl))
  unfold route
  by_cases hhost : hostOk req.headers server.port = true
  · rw [if_pos hhost, if_pos hhost]
    split
    · rfl
    · exact hstate
    · exact hinvite
    · exact hqr
    · split
      · rw [guarded_of_not_token htoken, guarded_of_not_token htoken]
      · rfl
    · rfl
  · rw [if_neg hhost, if_neg hhost]

variable (serde server nonce) in
/-- **What a connection reaches**, whatever its bytes and however they come in: a request is handed
to the daemon only if it was made for a loopback name, and is an open read or carries the token.
And a connection without the token learns nothing of the daemon but its answers to the open
reads. -/
theorem handleConn_guarded {reads : List Bytes} (hreads : ∀ chunk ∈ reads, chunk ≠ [])
    (hopen : ∀ request, OpenRead request → daemon request = daemon' request) :
    (∀ request, (handleConn serde server nonce daemon reads).forwarded = some request →
      ∃ req, Request.parse reads.flatten = some req ∧ FromLoopback server req ∧
        (OpenRead request ∨ CarriesToken server req)) ∧
    ((∀ req, Request.parse reads.flatten = some req → ¬ CarriesToken server req) →
      handleConn serde server nonce daemon reads = handleConn serde server nonce daemon' reads) := by
  unfold handleConn
  cases hreq : readRequest reads with
  | none => exact ⟨fun _ h => (by cases h), fun _ => rfl⟩
  | some req =>
      obtain ⟨hparse, -⟩ := (readRequest_eq_parse hreads).1 req hreq
      refine ⟨fun request h => ⟨req, hparse, route_forwarded h⟩, fun htoken => ?_⟩
      exact route_congr hopen (htoken req hparse)

/-! ## A page that asks for a lock -/

def plainSerde : Serde where
  value _ := .ok (.obj [("path".toList, text "a.txt")])
  filesQuery _ := .error ""
  auditQuery _ := .error ""
  olderThan _ := .error ""
  asU64 _ := none

def plainServer : Server where
  token := "abc"
  port := ⟨8787, by decide⟩
  index _ := ""
  renderQrSvg _ := none

/-- A lock with the token. -/
def lockWithToken : List Bytes :=
  [utf8 "POST /api/lock HTTP/1.1\r\nHost: localhost:8787\r\n",
    utf8 "X-Tazamun-Token: abc\r\n\r\n"]

def isLock : IpcRequest → Bool
  | .lock path => path == "a.txt"
  | _ => false

theorem handleConn_guarded_lockWithToken :
    ∃ req, Request.parse lockWithToken.flatten = some req ∧ FromLoopback plainServer req ∧
      CarriesToken plainServer req := by
  have hreads : ∀ chunk ∈ lockWithToken, chunk ≠ [] := by decide +kernel
  have hlock : ((handleConn plainSerde plainServer "" (fun _ => ⟨true, none, none⟩)
      lockWithToken).forwarded.any isLock) = true := by decide +kernel
  obtain ⟨request, hforwarded, hlock⟩ := (Option.any_eq_true _ _).mp hlock
  obtain ⟨req, hparse, hhost, hopen | htoken⟩ := (handleConn_guarded plainSerde plainServer ""
    hreads fun _ _ => rfl).1 _ hforwarded
  · rcases hopen with rfl | rfl <;> cases hlock
  · exact ⟨req, hparse, hhost, htoken⟩

end Tazamun.Dashboard
