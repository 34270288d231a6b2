import Cerco.Connection

set_option autoImplicit false

/-!
# From a complete request to its answer

`conn_request_dispatch` sends a request to a worker, answers it on the spot or
turns it into the live-reload stream.
-/
namespace Cerco.Dispatch
open Cerco.Alloc Cerco.CString Cerco.Request Cerco.Response Cerco.Router Cerco.Connection
open Cerco.WorkerPool

variable {σ : Type}

def wpoolSubmit (x : Ctx σ) (k : ℕ) : Ctx σ × Bool :=
  let ref : ReqRef := ⟨x.id, k, x.c.arena.epoch⟩
  let ok := (wpoolTrySubmit x.srv.pool.pool ref).2
  ({ x with srv := { x.srv with
      pool := submitStep x.srv.pool ref
      stats := if ok then { x.srv.stats with queuedJobs := x.srv.stats.queuedJobs + 1 }
        else x.srv.stats } }, ok)

def rejectJob (env : Env σ) (x : Ctx σ) : Ctx σ :=
  let x := x.stat fun s => { s with rejectedJobs := s.rejectedJobs + 1 }
  connSendSimple env x 503 (some (ascii "Retry-After: 1")) (ascii "server busy\n") false

def setStatus (code : ℕ) (a : Arena) (r : Req) : Arena × Req := (a, { r with status := code })

def setHandler (h : Handler) (a : Arena) (r : Req) : Arena × Req := (a, { r with handler := some h })

def respReset (a : Arena) (r : Req) : Arena × Req := (a, { r with resp := wbufReset r.resp })

def respPutn (s : Bytes) (a : Arena) (r : Req) : Arena × Req :=
  let p := wbufPutn a r.resp s
  (p.1, { r with resp := p.2 })

def hdrSet (name value : Bytes) (a : Arena) (r : Req) : Arena × Req := setHeader a r name value

def notFoundPage : Bytes := ascii "<!doctype html><title>404</title><h1>404 Not Found</h1>"

def find404 (routes : List RtRoute) : Option RtRoute :=
  routes.find? fun rr => strcaseeq rr.method (ascii "GET") &&
    strcaseeq rr.origPath (ascii "/__cerco/404")

def send404Text (env : Env σ) (x : Ctx σ) (k : ℕ) : Ctx σ :=
  let x := x.withReq k (setStatus 404)
  let x := x.withReq k respReset
  let x := x.withReq k (respPutn notFoundPage)
  connStartResponse env x k

def routerSend404 (env : Env σ) (x : Ctx σ) (k : ℕ) : Ctx σ :=
  match find404 env.routes with
  | some rr =>
    let x := x.withReq k (setStatus 404)
    let x := x.withReq k (setHandler (.route rr.fn))
    match wpoolSubmit x k with
    | (x, true) => x
    | (x, false) => send404Text env x k
  | none => send404Text env x k

def routerSend405 (env : Env σ) (x : Ctx σ) (k : ℕ) (mask : ℕ) : Ctx σ :=
  let x := x.withReq k (setStatus 405)
  connSendSimple env x 405 (some (allowHdr mask allowItems)) (ascii "method not allowed\n") false

def sfPrefix : Bytes := ascii "/__cerco/sf/"

def sfIsSfPath (path : Bytes) : Bool :=
  strncaseeq path sfPrefix 12 && decide ((cstr path).drop 12 ≠ [])

/-- The digits in front, as a `uint32_t`, and what follows them. -/
def sfIdLoop : Bytes → ℕ → ℕ × Bytes
  | [], id => (id, [])
  | c :: p, id =>
    if 48 ≤ c ∧ c ≤ 57 then sfIdLoop p ((id * 10 + (c.toNat - 48)) % 2 ^ 32) else (id, c :: p)

def sfContentType : Bytes := ascii "application/x-cerco-sf"

def sfDispatch (env : Env σ) (x : Ctx σ) (k : ℕ) (idStr : Bytes) : Ctx σ :=
  let r := x.c.objs k
  let (id, rest) := sfIdLoop idStr 0
  if rest ≠ [] ∨ idStr = [] then
    connSendSimple env x 400 none (ascii "bad sf id\n") false
  else
    match env.sfs.find? fun e => e.id == id with
    | none => connSendSimple env x 404 none (ascii "unknown server function\n") false
    | some ent =>
      let method := reqMethod r
      if !strcaseeq method ent.method &&
          !(strcaseeq method (ascii "HEAD") && strcaseeq ent.method (ascii "GET")) then
        connSendSimple env x 405 (some (ascii "Allow: POST")) (ascii "method not allowed\n") false
      else
        match reqHeader r (ascii "content-type") with
        | none =>
          -- the length 31 given here drops the newline of the text
          connSendSimple env x 415 none (ascii "expected application/x-cerco-sf") false
        | some ct =>
          if !strncaseeq (cstr ct) sfContentType 22 then
            connSendSimple env x 415 none (ascii "expected application/x-cerco-sf") false
          else
            let x := x.withReq k fun a r => (a, { r with sfEntry := some ent.id, handler := some .sfRun })
            match wpoolSubmit x k with
            | (x, true) => x
            | (x, false) => rejectJob env x

def sendText (env : Env σ) (x : Ctx σ) (k : ℕ) (contentType text : Bytes) : Ctx σ :=
  let x := x.withReq k (setStatus 200)
  let x := x.withReq k (hdrSet (ascii "Content-Type") contentType)
  let x := x.withReq k (hdrSet (ascii "Cache-Control") (ascii "no-store"))
  let x := x.withReq k respReset
  let x := x.withReq k (respPutn text)
  connStartResponse env x k

def sendHealth (env : Env σ) (x : Ctx σ) (k : ℕ) : Ctx σ :=
  sendText env x k (ascii "text/plain; charset=utf-8") (ascii "ok")

/-- `%ld` -/
def printLong (z : ℤ) : Bytes :=
  if z < 0 then 45 :: decimal z.natAbs else decimal z.natAbs

def statsText (s : Stats) : Bytes :=
  ascii "\x7b\"active_connections\":" ++ printLong s.activeConns ++
  ascii ",\"total_connections\":" ++ printLong s.totalConns ++
  ascii ",\"active_requests\":" ++ printLong s.activeReqs ++
  ascii ",\"total_requests\":" ++ printLong s.totalReqs ++
  ascii ",\"queued_jobs\":" ++ printLong s.queuedJobs ++
  ascii ",\"completed_jobs\":" ++ printLong s.completedJobs ++
  ascii ",\"rejected_jobs\":" ++ printLong s.rejectedJobs ++
  ascii ",\"bytes_read\":" ++ printLong s.bytesRead ++
  ascii ",\"bytes_written\":" ++ printLong s.bytesWritten ++
  ascii ",\"responses_2xx\":" ++ printLong s.r2xx ++
  ascii ",\"responses_3xx\":" ++ printLong s.r3xx ++
  ascii ",\"responses_4xx\":" ++ printLong s.r4xx ++
  ascii ",\"responses_5xx\":" ++ printLong s.r5xx ++
  ascii ",\"arena_high_water\":" ++ printLong s.arenaHwm ++
  ascii ",\"event_loop_lag_ms\":" ++ printLong s.eventLoopLagMs ++
  ascii ",\"sse_clients\":" ++ printLong s.sseClients ++ ascii "\x7d"

def sendStats (env : Env σ) (x : Ctx σ) (k : ℕ) : Ctx σ :=
  sendText env x k (ascii "application/json; charset=utf-8") (statsText x.srv.stats)

def sendLiveJs (env : Env σ) (x : Ctx σ) (k : ℕ) : Ctx σ :=
  sendText env x k (ascii "text/javascript; charset=utf-8")
    (ascii "new EventSource('/__cerco/live').onmessage=function(){location.reload();};")

def liveHead : Reply :=
  ⟨200, [ascii "HTTP/1.1 200 OK", ascii "Content-Type: text/event-stream",
    ascii "Cache-Control: no-store", ascii "Connection: keep-alive", ascii "Server: cerco"], []⟩

def sseLink (x : Ctx σ) : Ctx σ :=
  { x with
    srv := { x.srv with
      sseClients := x.id :: x.srv.sseClients
      stats := { x.srv.stats with
        sseClients := x.srv.stats.sseClients + 1
        activeReqs := x.srv.stats.activeReqs - 1 } }
    c := { x.c with sse := true } }

def sendLiveSse (env : Env σ) (x : Ctx σ) : Ctx σ :=
  let res := writeRes env x
  let x := countWrite x
  if res = .noMem then connCloseAndFree x
  else
    let x := uvWrite x res ⟨.sse, .reply liveHead⟩
    if res = .ok then connSseWrite env (sseLink x) (ascii ":ok\n\n") else x

def sfHandleReserved (env : Env σ) (x : Ctx σ) (k : ℕ) : Ctx σ :=
  let path := cstr ((x.c.objs k).path.getD [])
  if strcaseeq path (ascii "/__cerco/health") then sendHealth env x k
  else if strcaseeq path (ascii "/__cerco/stats") then
    if !env.cfg.statsEnabled then routerSend404 env x k else sendStats env x k
  else if strcaseeq path (ascii "/__cerco/live") then
    if !env.cfg.devMode then routerSend404 env x k else sendLiveSse env x
  else if strcaseeq path (ascii "/__cerco/live.js") then
    if !env.cfg.devMode then routerSend404 env x k else sendLiveJs env x k
  else routerSend404 env x k

/-- `strstr(inm, etag) != NULL` -/
def contains (needle : Bytes) : Bytes → Bool
  | [] => needle.isEmpty
  | c :: s => needle.isPrefixOf (c :: s) || contains needle s

def ifNoneMatchHits (r : Req) (etag : Bytes) : Bool :=
  match reqHeader r (ascii "if-none-match") with
  | none => false
  | some inm => contains etag (cstr inm)

/-- `snprintf` into 128 bytes. -/
def quoteEtag (etag : Bytes) : Bytes := (34 :: etag ++ [34]).take 127

def serveAssetBytes (env : Env σ) (x : Ctx σ) (k : ℕ) (f : Asset) (cacheable : Bool) : Ctx σ :=
  if ifNoneMatchHits (x.c.objs k) f.etag then
    let x := x.withReq k (setStatus 304)
    let x := x.withReq k (hdrSet (ascii "ETag") (quoteEtag f.etag))
    let x := x.withReq k (hdrSet (ascii "Cache-Control") (ascii "public, max-age=300"))
    connStartResponse env x k
  else
    let x := x.withReq k (setStatus 200)
    let x := x.withReq k (hdrSet (ascii "Content-Type") f.mime)
    let x := x.withReq k (hdrSet (ascii "ETag") (quoteEtag f.etag))
    let x := x.withReq k (hdrSet (ascii "Cache-Control")
      (if cacheable then ascii "public, max-age=300" else ascii "no-store"))
    let x := x.withReq k (respPutn f.bytes)
    connStartResponse env x k

/-- The last `.` comes after the last `/` and has something on both sides. -/
def staticIsAssetPath (path : Bytes) : Bool :=
  let ext := (path.reverse.takeWhile (· ≠ 46)).reverse
  let before := path.length - ext.length - 1
  decide (46 ∈ path) && decide (before ≠ 0) && !(ext.contains slash) && !ext.isEmpty

def staticTryServe (env : Env σ) (x : Ctx σ) (k : ℕ) : Ctx σ :=
  let path := cstr ((x.c.objs k).path.getD [])
  match env.assets.find? fun f => strcaseeq f.path path with
  | some f => serveAssetBytes env x k f true
  | none =>
    match (if env.cfg.devMode then env.devFile path else none) with
    | some f => serveAssetBytes env x k f false
    | none => routerSend404 env x k

def probeReq (routes : List RtRoute) (a : Arena) (r : Req) : Arena × Req :=
  let p := routerProbe routes a r none 0
  (p.2.arena, p.2.req)

def optionsItems : List (ℕ × Bytes) := allowItems.take 5

/-- The part of `conn_request_dispatch` behind its guard, for request `k`. -/
def dispatchReq (env : Env σ) (x : Ctx σ) (k : ℕ) : Ctx σ :=
  let r := x.c.objs k
  let path := cstr (r.path.getD [])
  let method := reqMethod r
  let getLike := strcaseeq method (ascii "GET") || strcaseeq method (ascii "HEAD")
  if sfIsSfPath path then sfDispatch env x k (path.drop 12)
  else if strncaseeq path (ascii "/__cerco/") 9 then sfHandleReserved env x k
  else
    let p := routerProbe env.routes x.c.arena r none 0
    let x := x.withReq k (probeReq env.routes)
    if p.1 = 1 then
      let x := x.withReq k fun a r => (a, { r with handler := p.2.fn.map .route })
      match wpoolSubmit x k with
      | (x, true) => x
      | (x, false) => rejectJob env x
    else if p.1 = 2 then
      if strcaseeq method (ascii "OPTIONS") then
        let x := x.withReq k (setStatus 204)
        connSendSimple env x 204 (some (allowHdr p.2.mask optionsItems)) [] false
      else routerSend405 env x k p.2.mask
    else if getLike && staticIsAssetPath path then staticTryServe env x k
    else routerSend404 env x k

def connRequestDispatch (env : Env σ) (x : Ctx σ) : Ctx σ :=
  match x.c.req with
  | none => x
  | some k =>
    if x.c.stage.badRequest ≠ 0 then x
    else
      dispatchReq env { x with c := { x.c with trace := x.c.trace ++ [.dispatched k (x.c.objs k)] } } k

end Cerco.Dispatch
