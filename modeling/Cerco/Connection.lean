import Cerco.Response
import Cerco.SpanParser
import Cerco.WorkerPool

set_option autoImplicit false

/-!
# Connections and the server they belong to

A step of the event loop works on one connection; `Ctx` holds it beside the rest
of the server. Connections are numbered in the order of `accept`, a number is not
used again when the memory is. The request objects of a connection are numbered
in the order of `on_message_begin`, they stay readable after the arena moved on.
-/
namespace Cerco.Connection
open Cerco.Alloc Cerco.CString Cerco.HeadText Cerco.Request Cerco.Response Cerco.Router Cerco.SpanParser
open Cerco.WorkerPool

/-- The errors after which a parser does not go on. -/
inductive HttpError
  | invalidMethod
  | invalidUrl
  | other (n : ℕ)
deriving DecidableEq

inductive Errno
  | ok
  | paused
  | bad (e : HttpError)
deriving DecidableEq

inductive Elem
  | url
  | field
  | value
  | body
deriving DecidableEq

/-- The callbacks without data, with what they read from the parser. -/
inductive Mark
  | messageBegin
  | method (name : Bytes)
  | headersComplete (contentLength : ℕ) (chunked : Bool)
  | messageComplete (keepAlive : Bool)
deriving DecidableEq

/-- The state machine of `llhttp__internal__run`. -/
abbrev Llhttp (σ : Type) := Machine σ UInt8 Elem Mark HttpError

abbrev HttpEvent := Event UInt8 Elem Mark HttpError

/-- The fields of `llhttp_t`; `errorPos` is an offset into the read buffer. -/
structure Parser (σ : Type) where
  state : σ
  error : Errno
  errorPos : Option ℕ
  method : Bytes

inductive Phase
  | headers
  | body
  | work
  | write
  | idle
  | drain
deriving DecidableEq

/-- What a queued `uv_write` carries. -/
inductive Out
  | reply (w : Reply)
  | raw (b : Bytes)
deriving DecidableEq

inductive WriteKind
  | response (req : ℕ)
  | simple
  | sse
deriving DecidableEq

structure WriteCtx where
  kind : WriteKind
  out : Out
deriving DecidableEq

inductive ConnEvent
  | dispatched (req : ℕ) (r : Req)
  | rejected (code : ℕ)
  | wrote (w : WriteCtx)
deriving DecidableEq

/-- The read buffer. `mem` is its content up to `filled`; `rx` are the bytes
received so far, `parsed` those the parser consumed, and `execs` pairs what each
`llhttp_execute` was given with what it had to be given. -/
structure ReadBuf where
  base : Option ℕ
  mem : Bytes
  filled : ℕ
  consumed : ℕ
  rx : Bytes
  parsed : Bytes
  execs : List (Bytes × Bytes)
  fault : Bool

structure Staging where
  fSb : Bytes
  vSb : Bytes
  urlSb : Bytes
  badRequest : ℕ
deriving DecidableEq

structure Conn (σ : Type) where
  parser : Parser σ
  arena : Arena
  req : Option ℕ
  objs : ℕ → Req
  nObjs : ℕ
  buf : ReadBuf
  stage : Staging
  statusSent : Bool
  phase : Phase
  deadline : ℕ
  keepAlive : Bool
  closing : Bool
  finalized : Bool
  closeCbDone : Bool
  forceClose : Bool
  pendingWrites : ℕ
  sse : Bool
  /-- The handle: reads enabled, not shut down, `uv_close` called, queued writes. -/
  reading : Bool
  writable : Bool
  closeQueued : Bool
  writes : List WriteCtx
  trace : List ConnEvent

structure Config where
  workers : ℕ
  workQueue : ℕ
  maxConnections : ℕ
  maxBody : ℕ
  devMode : Bool
  statsEnabled : Bool
  headerTimeoutMs : ℕ
  bodyTimeoutMs : ℕ
  keepAliveTimeoutMs : ℕ
  requestTimeoutMs : ℕ
  requestArenaFirst : ℕ
  requestArenaCap : ℕ

structure SfEntry where
  id : ℕ
  method : Bytes

structure Asset where
  path : Bytes
  mime : Bytes
  etag : Bytes
  bytes : Bytes

/-- The answers of malloc and `uv_write` for one response. -/
inductive WriteRes
  | ok
  | noMem
  | failed
deriving DecidableEq

/-- What does not change while the server runs: parser, configuration, tables,
the files of dev mode, and the answers of the operating system. -/
structure Env (σ : Type) where
  llhttp : Llhttp σ
  cfg : Config
  routes : List RtRoute
  sfs : List SfEntry
  assets : List Asset
  devFile : Bytes → Option Asset
  write : ℕ → WriteRes
  malloc : ℕ → Malloc
  bufAddr : ℕ → ℕ

structure Stats where
  activeConns : ℤ
  totalConns : ℤ
  activeReqs : ℤ
  totalReqs : ℤ
  queuedJobs : ℤ
  completedJobs : ℤ
  rejectedJobs : ℤ
  bytesRead : ℤ
  bytesWritten : ℤ
  r2xx : ℤ
  r3xx : ℤ
  r4xx : ℤ
  r5xx : ℤ
  arenaHwm : ℤ
  eventLoopLagMs : ℤ
  sseClients : ℤ

/-- A `cerco_req *`: its connection and number, and the age of the arena it lies in. -/
structure ReqRef where
  conn : ℕ
  req : ℕ
  epoch : ℕ
deriving DecidableEq

instance : Inhabited ReqRef := ⟨⟨0, 0, 0⟩⟩

structure Srv (σ : Type) where
  conns : ℕ → Conn σ
  nextConn : ℕ
  active : List ℕ
  nConns : ℤ
  connFree : ℕ
  bufFree : ℕ
  sseClients : List ℕ
  pool : PoolRun ReqRef
  stats : Stats
  now : ℕ
  writeCalls : ℕ
  shuttingDown : Bool

structure Ctx (σ : Type) where
  srv : Srv σ
  id : ℕ
  c : Conn σ

variable {σ : Type}

def Ctx.done (x : Ctx σ) : Srv σ := { x.srv with conns := Function.update x.srv.conns x.id x.c }

def Srv.enter (s : Srv σ) (i : ℕ) : Ctx σ := ⟨s, i, s.conns i⟩

def Ctx.stat (x : Ctx σ) (f : Stats → Stats) : Ctx σ :=
  { x with srv := { x.srv with stats := f x.srv.stats } }

/-- Work on the current request object and its arena. -/
def Ctx.withReq (x : Ctx σ) (k : ℕ) (f : Arena → Req → Arena × Req) : Ctx σ :=
  let r := f x.c.arena (x.c.objs k)
  { x with c := { x.c with arena := r.1, objs := Function.update x.c.objs k r.2 } }

def readBufSize : ℕ := 16 * 1024

def connFinalize (x : Ctx σ) : Ctx σ :=
  if x.c.finalized then x
  else
    let c : Conn σ := { x.c with
      finalized := true
      stage := { x.c.stage with fSb := [], vSb := [], urlSb := [] }
      buf := { x.c.buf with base := none } }
    let srv : Srv σ := { x.srv with
      active := x.srv.active.erase x.id
      nConns := x.srv.nConns - 1
      stats := { x.srv.stats with activeConns := x.srv.stats.activeConns - 1 }
      bufFree := if x.c.buf.base.isSome ∧ x.srv.bufFree < 256 then x.srv.bufFree + 1
        else x.srv.bufFree }
    if srv.connFree < 256 then
      { x with
        srv := { srv with connFree := srv.connFree + 1 }
        c := { c with arena := if c.arena.chunks.isEmpty then c.arena else arenaReset c.arena } }
    else
      { x with
        srv := srv
        c := { c with arena := if c.arena.chunks.isEmpty then c.arena else arenaDestroy c.arena } }

def connMaybeFinalize (x : Ctx σ) : Ctx σ :=
  if !x.c.closing || x.c.finalized then x
  else if !x.c.closeCbDone then x
  else if 0 < x.c.pendingWrites then x
  else if x.c.req.isSome && decide (x.c.phase = .work) then x
  else connFinalize x

def cancelReq (c : Conn σ) : Conn σ :=
  match c.req with
  | some k => { c with objs := Function.update c.objs k { c.objs k with cancelled := true } }
  | none => c

def connCloseAndFree (x : Ctx σ) : Ctx σ :=
  if x.c.closing then x
  else
    let x := { x with c := { x.c with closing := true } }
    let x := if x.c.sse then
        { x with
          srv := { x.srv with
            sseClients := x.srv.sseClients.erase x.id
            stats := { x.srv.stats with sseClients := x.srv.stats.sseClients - 1 } }
          c := { x.c with sse := false } }
      else x
    connMaybeFinalize { x with c := { cancelReq x.c with reading := false, closeQueued := true } }

/-- `uv_read_start`; it fails on a handle that is being closed. -/
def readStart (c : Conn σ) : Conn σ := { c with reading := !c.closeQueued }

def connCloseGraceful (x : Ctx σ) : Ctx σ :=
  if x.c.closing then x
  else
    { x with c := readStart { x.c with
        phase := .drain
        deadline := x.srv.now + 300
        arena := if x.c.arena.chunks.isEmpty then x.c.arena else arenaReset x.c.arena
        writable := false } }

/-- What happens to the `n`-th write; a closed or shut down handle takes none. -/
def writeRes (env : Env σ) (x : Ctx σ) : WriteRes :=
  match env.write x.srv.writeCalls with
  | .ok => if x.c.writable && !x.c.closeQueued then .ok else .failed
  | r => r

/-- `uv_write` with its error path. -/
def uvWrite (x : Ctx σ) (res : WriteRes) (w : WriteCtx) : Ctx σ :=
  if res = .ok then
    { x with c := { x.c with
        pendingWrites := x.c.pendingWrites + 1
        writes := x.c.writes ++ [w]
        trace := x.c.trace ++ [.wrote w] } }
  else connCloseAndFree x

def countWrite (x : Ctx σ) : Ctx σ :=
  { x with srv := { x.srv with writeCalls := x.srv.writeCalls + 1 } }

def statusCounter (code : ℕ) (s : Stats) : Stats :=
  if code < 300 then { s with r2xx := s.r2xx + 1 }
  else if code < 400 then { s with r3xx := s.r3xx + 1 }
  else if code < 500 then { s with r4xx := s.r4xx + 1 }
  else { s with r5xx := s.r5xx + 1 }

def addWritten (n : ℕ) (s : Stats) : Stats := { s with bytesWritten := s.bytesWritten + n }

/-- `conn_start_response` for request `k` of the connection. -/
def connStartResponse (env : Env σ) (x : Ctx σ) (k : ℕ) : Ctx σ :=
  let x := { x with c := { x.c with
    phase := .write, deadline := x.srv.now + env.cfg.requestTimeoutMs } }
  let r := x.c.objs k
  let x := x.stat (statusCounter r.status)
  let isHead := decide (x.c.parser.method = ascii "HEAD")
  let w := startReply r isHead (x.c.forceClose || !x.c.keepAlive)
  let res := writeRes env x
  let x := countWrite x
  if res = .noMem then connCloseAndFree x
  else
    let x := x.stat (addWritten (w.bytes.length - w.body.length))
    uvWrite x res ⟨.response k, .reply w⟩

def connSendSimple (env : Env σ) (x : Ctx σ) (code : ℕ) (extraHdr : Option Bytes) (body : Bytes)
    (forceClose : Bool) : Ctx σ :=
  let w := simpleReply code extraHdr body forceClose
  let res := writeRes env x
  let x := countWrite x
  if res = .noMem then connCloseAndFree x
  else
    let x := x.stat (addWritten w.bytes.length)
    let x := if 400 ≤ code then x.stat fun s => { s with r4xx := s.r4xx + 1 } else x
    let x := { x with c := { x.c with
      keepAlive := !forceClose, forceClose := forceClose, statusSent := true } }
    uvWrite x res ⟨.simple, .reply w⟩

/-- `conn_sse_write`: one chunk of the live-reload stream. -/
def connSseWrite (env : Env σ) (x : Ctx σ) (data : Bytes) : Ctx σ :=
  let chunk := (Nat.toDigits 16 data.length).map (fun c => UInt8.ofNat c.toNat) ++ crlf ++ data ++ crlf
  let res := writeRes env x
  let x := countWrite x
  if res = .noMem then connCloseAndFree x else uvWrite x res ⟨.sse, .raw chunk⟩

end Cerco.Connection
