import Cerco.HttpCallbacks

set_option autoImplicit false

/-!
# The server as a transition system

The labels are what the network, the clock, the application and the worker
threads can do next; everything else follows from the code. A process whose
arena policy ran, or which left its buffers, takes no further step.
-/
namespace Cerco.Server
open Cerco.Alloc Cerco.CString Cerco.Request Cerco.Response Cerco.Connection Cerco.Dispatch
open Cerco.HttpCallbacks Cerco.SpanParser Cerco.WorkerPool Cerco.TransitionRuns

variable {σ : Type}

def freshBuf : ReadBuf := ⟨none, [], 0, 0, [], [], [], false⟩

def freshStage : Staging := ⟨[], [], [], 0⟩

/-- The connection that `cerco_connection_cb` sets up. -/
def freshConn (env : Env σ) (i now : ℕ) : Conn σ where
  -- a zeroed parser holds method number 0
  parser := ⟨env.llhttp.start, .ok, none, ascii "DELETE"⟩
  arena := Arena.zero (env.malloc i)
  req := none
  objs := fun _ => reqSetup i
  nObjs := 0
  buf := freshBuf
  stage := freshStage
  statusSent := false
  phase := .headers
  deadline := now + env.cfg.headerTimeoutMs
  keepAlive := true
  closing := false
  finalized := false
  closeCbDone := false
  forceClose := false
  pendingWrites := 0
  sse := false
  reading := false
  writable := true
  closeQueued := false
  writes := []
  trace := []

/-- The new connection, linked and counted. -/
def accepted (env : Env σ) (s : Srv σ) : Ctx σ :=
  let i := s.nextConn
  { srv := { s with
      nextConn := i + 1
      connFree := s.connFree - 1
      active := i :: s.active
      nConns := s.nConns + 1
      stats := { s.stats with
        activeConns := s.stats.activeConns + 1, totalConns := s.stats.totalConns + 1 } }
    id := i
    c := freshConn env i s.now }

def cercoConnectionCb (env : Env σ) (s : Srv σ) : Srv σ :=
  if s.shuttingDown then s
  else
    let x := accepted env s
    if env.cfg.maxConnections < x.srv.nConns then
      (connSendSimple env x 503 none (ascii "server busy\n") true).done
    else { x with c := readStart x.c }.done

/-- Run `f` on every connection of a list. -/
def eachConn (f : Ctx σ → Ctx σ) (ids : List ℕ) (s : Srv σ) : Srv σ :=
  ids.foldl (fun s i => (f (s.enter i)).done) s

def connDeadlinePass (x : Ctx σ) : Ctx σ :=
  if !x.c.closing && !x.c.finalized && decide (x.c.deadline ≤ x.srv.now) then
    connCloseAndFree { x with c := { cancelReq x.c with forceClose := true } }
  else x

def connSweepDeadlines (s : Srv σ) : Srv σ := eachConn connDeadlinePass s.active s

def reloadConn (env : Env σ) (x : Ctx σ) : Ctx σ :=
  if x.c.closing then x else connSseWrite env x (ascii "data: reload\n\n")

def connSendSseReload (env : Env σ) (s : Srv σ) : Srv σ := eachConn (reloadConn env) s.sseClients s

def shutdownConn (x : Ctx σ) : Ctx σ :=
  if x.c.phase = .idle ∨ x.c.phase = .headers ∨ x.c.phase = .body then connCloseAndFree x
  else if x.c.req.isSome then { x with c := { cancelReq x.c with forceClose := true } }
  else x

def startShutdown (s : Srv σ) : Srv σ :=
  if s.shuttingDown then s else eachConn shutdownConn s.active { s with shuttingDown := true }

/-- What the application can do to its request through the API; output is the
bytes after escaping and formatting, `alloc` stands for the calls that only copy
into the arena. -/
inductive ApiCall
  | status (code : ℕ)
  | setHeader (name value : Bytes)
  | addHeader (name value : Bytes)
  | write (s : Bytes)
  | reset
  | title (escaped : Bytes)
  | redirect (location : Bytes)
  | alloc (size : ℕ)

def apiRun (call : ApiCall) (a : Arena) (r : Req) : Arena × Req :=
  match call with
  | .status code => if 100 ≤ code ∧ code ≤ 599 then (a, { r with status := code }) else (a, r)
  | .setHeader name value => Request.setHeader a r name value
  | .addHeader name value => respHdrAdd a r name value
  | .write s => respPutn s a r
  | .reset => respReset a r
  | .title escaped =>
    match arenaAlloc a (escaped.length + 1) with
    | (none, a) => (a, r)
    | (some _, a) => (a, { r with pageTitle := some escaped })
  | .redirect location =>
    let r := { r with status := if strcaseeq (reqMethod r) (ascii "POST") then 303 else 302 }
    match Request.setHeader a r (ascii "Location") location with
    | (a, r) => respPutn (ascii "redirecting...") a { r with resp := wbufReset r.resp }
  | .alloc size => ((arenaAlloc a size).2, r)

def handlerRun (calls : List ApiCall) (a : Arena) (r : Req) : Arena × Req :=
  calls.foldl (fun p call => apiRun call p.1 p.2) (a, r)

/-- The response checks of `wpool_drain_completions`. -/
def checkResponse (a : Arena) (r : Req) : Arena × Req :=
  if arenaFailed a = true ∧ r.status < 500 then
    match wbufPutn a (wbufReset r.resp) (ascii "request exceeded memory limit\n") with
    | (a, b) => (a, { r with status := 500, resp := b, respHdrs := [] })
  else if r.resp.data.length = 0 ∧ r.status < 300 then
    match wbufPutn a r.resp (ascii "empty response\n") with
    | (a, b) => (a, { r with status := 500, resp := b })
  else (a, r)

/-- Replace `data[from, to)` in the response buffer. -/
def splice (a : Arena) (r : Req) (lo hi : ℕ) (s : Bytes) (injected : Bool) : Arena × Req :=
  let data := r.resp.data.take lo ++ s ++ r.resp.data.drop hi
  match arenaAlloc a data.length with
  | (none, a) => (a, r)
  | (some _, a) =>
    (a, { r with resp := ⟨data, data.length⟩, headInjected := r.headInjected || injected })

def applyPageTitle (a : Arena) (r : Req) : Arena × Req :=
  match r.pageTitle with
  | none => (a, r)
  | some title =>
    if r.resp.cap = 0 then (a, r)
    else
      match wbufFind r.resp 0 (ascii "<title>") with
      | none => (a, r)
      | some opened =>
        match wbufFind r.resp (opened + 7) (ascii "</title>") with
        | none => (a, r)
        | some close => splice a r (opened + 7) close (cstr title) false

def liveScript : Bytes :=
  ascii "<script src=\"/assets/host.js\" defer></script><script src=\"/__cerco/live.js\" defer></script>"

def devInjectLiveScript (env : Env σ) (a : Arena) (r : Req) : Arena × Req :=
  if !env.cfg.devMode || r.headInjected || r.status != 200 then (a, r)
  else
    let ct := (r.respHdrs.find? fun h => strcaseeq h.1 (ascii "content-type")).map (·.2)
    if ct.isSome && !strncaseeq (ct.getD []) (ascii "text/html") 9 then (a, r)
    else
      let at_ := match (if r.resp.cap = 0 then none else wbufFind r.resp 0 (ascii "<head>")) with
        | some p => p + 6
        | none => 0
      splice a r at_ at_ liveScript true

/-- The body of the loop in `wpool_drain_completions`, for request `k`. -/
def drainReq (env : Env σ) (x : Ctx σ) (k : ℕ) : Ctx σ :=
  let x := x.stat fun s => { s with completedJobs := s.completedJobs + 1 }
  if (x.c.objs k).cancelled || x.c.finalized || x.c.closing then connMaybeFinalize x
  else
    let x := x.stat fun s => { s with arenaHwm := max s.arenaHwm x.c.arena.total }
    let x := x.withReq k checkResponse
    let x := x.withReq k applyPageTitle
    let x := x.withReq k (devInjectLiveScript env)
    connStartResponse env x k

inductive Step
  | accept
  | read (conn : ℕ) (data : Bytes)
  | readEnd (conn : ℕ)
  | written (conn : ℕ) (ok : Bool)
  | closed (conn : ℕ)
  | sweep
  | reload
  | tick (ms : ℕ)
  | take (worker : ℕ)
  | finish (worker : ℕ) (calls : List ApiCall)
  | drain
  | shutdown

def connDead (c : Conn σ) : Bool := c.arena.policyRan || c.arena.stuck || c.buf.fault

def srvDead (s : Srv σ) : Bool := (List.range s.nextConn).any fun i => connDead (s.conns i)

/-- A read of at least one byte, after `conn_alloc_cb` made room for it. -/
def readStep (env : Env σ) (s : Srv σ) (i : ℕ) (data : Bytes) : Option (Srv σ) :=
  if i < s.nextConn ∧ (s.conns i).reading = true ∧ data ≠ [] then
    match connAllocCb env (s.enter i) with
    | (some room, x) => if data.length ≤ room then some (connOnRead env x data).done else none
    | (none, _) => none
  else none

def readEndStep (env : Env σ) (s : Srv σ) (i : ℕ) : Option (Srv σ) :=
  if i < s.nextConn ∧ (s.conns i).reading = true then
    some (connCloseAndFree (connAllocCb env (s.enter i)).2).done
  else none

def writtenStep (env : Env σ) (s : Srv σ) (i : ℕ) (ok : Bool) : Option (Srv σ) :=
  if i < s.nextConn then
    match (s.conns i).writes with
    | w :: _ => some (onWritten env (s.enter i) w.kind ok).done
    | [] => none
  else none

def closedStep (s : Srv σ) (i : ℕ) : Option (Srv σ) :=
  if i < s.nextConn ∧ (s.conns i).closeQueued = true ∧ (s.conns i).closeCbDone = false ∧
      (s.conns i).writes = [] then
    some (connOnStreamClosed (s.enter i)).done
  else none

def takeJob (env : Env σ) (s : Srv σ) (w : ℕ) : Option (Srv σ) :=
  (poolStep env.cfg.workers s.pool (.take w)).map fun p =>
    { s with pool := p, stats := { s.stats with queuedJobs := s.stats.queuedJobs - 1 } }

def finishJob (env : Env σ) (s : Srv σ) (w : ℕ) (calls : List ApiCall) : Option (Srv σ) :=
  match s.pool.running.find? fun j => j.1 == w with
  | none => none
  | some (_, ref) =>
    let s := ((s.enter ref.conn).withReq ref.req (handlerRun calls)).done
    (poolStep env.cfg.workers s.pool (.pushDone w)).map fun p => { s with pool := p }

def drainJob (env : Env σ) (s : Srv σ) : Option (Srv σ) :=
  match drainOne s.pool.pool with
  | none => none
  | some (ref, p) =>
    let s := { s with pool := drainStep s.pool (ref, p) }
    some (drainReq env (s.enter ref.conn) ref.req).done

def srvStep (env : Env σ) (s : Srv σ) (a : Step) : Option (Srv σ) :=
  if srvDead s then none
  else
    match a with
    | .accept => some (cercoConnectionCb env s)
    | .read i data => readStep env s i data
    | .readEnd i => readEndStep env s i
    | .written i ok => writtenStep env s i ok
    | .closed i => closedStep s i
    | .sweep => some (connSweepDeadlines s)
    | .reload => some (connSendSseReload env s)
    | .tick ms => some { s with now := s.now + ms }
    | .take w => takeJob env s w
    | .finish w calls => finishJob env s w calls
    | .drain => drainJob env s
    | .shutdown => some (startShutdown s)

def zeroStats : Stats := ⟨0, 0, 0, 0, 0, 0, 0, 0, 0, 0, 0, 0, 0, 0, 0, 0⟩

def srvStart (env : Env σ) : Srv σ where
  conns := fun i => freshConn env i 0
  nextConn := 0
  active := []
  nConns := 0
  connFree := 0
  bufFree := 0
  sseClients := []
  pool := ⟨wpoolStart env.cfg.workQueue, [], [], [], [], []⟩
  stats := zeroStats
  now := 0
  writeCalls := 0
  shuttingDown := false

def server (env : Env σ) : System (Srv σ) Step where
  start s := s = srvStart env
  step := srvStep env

end Cerco.Server
