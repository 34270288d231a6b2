import Cerco.Dispatch

set_option autoImplicit false

/-!
# The callbacks of the parser and the reads they come from

`llhttp_pause` inside a callback leaves the running execute alone; a later
execute returns the error that is still set and consumes nothing.
-/
namespace Cerco.HttpCallbacks
open Cerco.Alloc Cerco.CString Cerco.Request Cerco.Connection Cerco.Dispatch

variable {σ : Type}

/-- `req_finish_headers`: move the staged pair into the header list. -/
def reqFinishHeaders (c : Conn σ) : Conn σ :=
  match c.req with
  | none => c
  | some k =>
    let r := c.objs k
    let st := c.stage
    if st.fSb.length = 0 then c
    else if maxHeaders ≤ r.headers.length then { c with stage := { st with badRequest := 431 } }
    else if maxName < st.fSb.length ∨ maxValue < st.vSb.length ∨
        maxHeaderBytes < st.fSb.length + st.vSb.length + r.headers.length * 2 then
      { c with stage := { st with badRequest := 431 } }
    else
      match arenaStrndup c.arena st.fSb with
      | (name, a) =>
        match arenaStrndup a st.vSb with
        | (value, a) =>
          match name, value with
          | some name, some value =>
            { c with
              arena := a
              objs := Function.update c.objs k { r with headers := r.headers ++ [(name, value)] }
              stage := { st with fSb := [], vSb := [] } }
          | _, _ => { c with arena := a }

def badRequest (code : ℕ) (c : Conn σ) : Conn σ := { c with stage := { c.stage with badRequest := code } }

def onMessageBegin (env : Env σ) (x : Ctx σ) : Ctx σ × Bool :=
  if x.c.req.isSome then
    -- second message began while first still open
    ({ x with c := { x.c with forceClose := true } }, true)
  else
    let a := if x.c.arena.chunks.isEmpty then
        arenaInit x.c.arena env.cfg.requestArenaFirst env.cfg.requestArenaCap
      else x.c.arena
    match arenaAlloc a sizeofReq with
    | (none, a) => ({ x with c := { x.c with arena := a } }, false)
    | (some _, a) =>
      ({ x with c := { x.c with
          arena := a
          req := some x.c.nObjs
          objs := Function.update x.c.objs x.c.nObjs (reqSetup x.id)
          nObjs := x.c.nObjs + 1
          phase := .headers
          deadline := x.srv.now + env.cfg.headerTimeoutMs } }, true)

def onUrl (c : Conn σ) (s : Bytes) : Conn σ × Bool :=
  if maxUrl < c.stage.urlSb.length + s.length then (badRequest 414 c, false)
  else ({ c with stage := { c.stage with urlSb := c.stage.urlSb ++ s } }, true)

def onHeaderField (c : Conn σ) (s : Bytes) : Conn σ × Bool :=
  if c.stage.badRequest ≠ 0 then (c, false)
  else
    let c := if c.stage.fSb ≠ [] ∨ c.stage.vSb ≠ [] then reqFinishHeaders c else c
    if c.stage.badRequest ≠ 0 then (c, false)
    else if maxName < c.stage.fSb.length + s.length then (badRequest 431 c, false)
    else ({ c with stage := { c.stage with fSb := c.stage.fSb ++ s } }, true)

def onHeaderValue (c : Conn σ) (s : Bytes) : Conn σ × Bool :=
  if c.stage.badRequest ≠ 0 then (c, false)
  else if maxValue < c.stage.vSb.length + s.length then (badRequest 431 c, false)
  else ({ c with stage := { c.stage with vSb := c.stage.vSb ++ s } }, true)

/-- The body buffer that `on_headers_complete` asks for. `body_len` stays: an object that is used again has as
many bytes in its new buffer as in the old one, here those it had. -/
def bodyBuffer (c : Conn σ) (k n : ℕ) : Conn σ × Bool :=
  match arenaAlloc c.arena n with
  | (none, a) =>
    (badRequest 413 { c with
      arena := a
      objs := Function.update c.objs k { c.objs k with body := none, bodyCap := n } }, false)
  | (some _, a) =>
    ({ c with
      arena := a
      objs := Function.update c.objs k { c.objs k with body := some ((c.objs k).body.getD []), bodyCap := n } }, true)

def onHeadersComplete (env : Env σ) (x : Ctx σ) (contentLength : ℕ) (chunked : Bool) :
    Ctx σ × Bool :=
  if x.c.stage.badRequest ≠ 0 then (x, false)
  else
    let c := reqFinishHeaders x.c
    if c.stage.badRequest ≠ 0 then ({ x with c := c }, false)
    else
      match c.req with
      | none => ({ x with c := c }, false)
      | some k =>
        if 0 < contentLength ∧ env.cfg.maxBody < contentLength then
          ({ x with c := badRequest 413 c }, false)
        else
          let r := if 0 < contentLength then bodyBuffer c k contentLength
            else if chunked then bodyBuffer c k 4096 else (c, true)
          match r with
          | (c, false) => ({ x with c := c }, false)
          | (c, true) =>
            ({ x with c := { c with
                phase := .body, deadline := x.srv.now + env.cfg.bodyTimeoutMs } }, true)

def onBody (env : Env σ) (c : Conn σ) (s : Bytes) : Conn σ × Bool :=
  match c.req with
  | none => (c, true)
  | some k =>
    let r := c.objs k
    let len := r.bodyLen + s.length
    if env.cfg.maxBody < len then (badRequest 413 c, false)
    else if r.bodyCap < len then
      let ncap := doubleTo 64 (if r.bodyCap ≠ 0 then r.bodyCap * 2 else 4096) len
      match arenaAlloc c.arena ncap with
      | (none, a) => (badRequest 413 { c with arena := a }, false)
      | (some _, a) =>
        ({ c with
          arena := a
          objs := Function.update c.objs k
            { r with body := some (r.body.getD [] ++ s), bodyCap := ncap } }, true)
    else
      ({ c with
        objs := Function.update c.objs k { r with body := some (r.body.getD [] ++ s) } }, true)

def takeTarget (method : Bytes) (urlSb : Bytes) (a : Arena) (r : Req) : ℕ × Arena × Req :=
  match arenaStrdup a method with
  | (m, a) =>
    let r := { r with method := m }
    match (if urlSb ≠ [] then arenaStrndup a urlSb else (some [slash], a)) with
    | (t, a) => reqTargetPath a { r with target := t }

def llhttpPause (p : Parser σ) : Parser σ :=
  if p.error ≠ .ok then p else { p with error := .paused }

def llhttpResume (p : Parser σ) : Parser σ :=
  if p.error ≠ .paused then p else { p with error := .ok }

/-- The first part of `on_message_complete`; the code of a bad target. -/
def completeReq (c : Conn σ) : Conn σ × ℕ :=
  match c.req with
  | none => (c, 0)
  | some k =>
    match takeTarget c.parser.method c.stage.urlSb c.arena (c.objs k) with
    | (code, a, r) =>
      ({ c with
        arena := a
        objs := Function.update c.objs k r
        stage := { c.stage with urlSb := [] } }, code)

def onMessageComplete (env : Env σ) (x : Ctx σ) (keepAlive : Bool) : Ctx σ × Bool :=
  match completeReq { x.c with keepAlive := keepAlive } with
  | (c, code) =>
    if code ≠ 0 then ({ x with c := badRequest code c }, false)
    else
      let x := { x with c := c }
      let x := x.stat fun s => { s with activeReqs := s.activeReqs + 1, totalReqs := s.totalReqs + 1 }
      let x := connRequestDispatch env x
      ({ x with c := { x.c with parser := llhttpPause x.c.parser } }, true)

def onEvent (env : Env σ) (x : Ctx σ) : HttpEvent → Ctx σ × Bool
  | .span .url s => let r := onUrl x.c s; ({ x with c := r.1 }, r.2)
  | .span .field s => let r := onHeaderField x.c s; ({ x with c := r.1 }, r.2)
  | .span .value s => let r := onHeaderValue x.c s; ({ x with c := r.1 }, r.2)
  | .span .body s => let r := onBody env x.c s; ({ x with c := r.1 }, r.2)
  | .mark .messageBegin => onMessageBegin env x
  | .mark (.method m) => ({ x with c := { x.c with parser := { x.c.parser with method := m } } }, true)
  | .mark (.headersComplete n chunked) => onHeadersComplete env x n chunked
  | .mark (.messageComplete keepAlive) => onMessageComplete env x keepAlive
  | .fail _ => (x, false)

def eventErrno : HttpEvent → HttpError
  | .fail e => e
  | .span _ _ => .other 24
  | .mark .messageBegin => .other 16
  | .mark (.headersComplete _ _) => .other 17
  | .mark _ => .other 18

def stopParser (x : Ctx σ) (e : HttpError) (pos : ℕ) : Ctx σ :=
  { x with c := { x.c with parser := { x.c.parser with error := .bad e, errorPos := some pos } } }

def runEvents (env : Env σ) : List (ℕ × HttpEvent) → Ctx σ → Ctx σ × Bool
  | [], x => (x, true)
  | (pos, ev) :: rest, x =>
    match onEvent env x ev with
    | (x, true) => runEvents env rest x
    | (x, false) => (stopParser x (eventErrno ev) pos, false)

/-- `llhttp_execute` on the bytes of a buffer. -/
def llhttpExecute (env : Env σ) (x : Ctx σ) (data : Bytes) : Errno × Ctx σ :=
  let due := x.c.buf.rx.drop x.c.buf.parsed.length
  let x := { x with c := { x.c with buf := { x.c.buf with execs := x.c.buf.execs ++ [(data, due)] } } }
  if x.c.parser.error ≠ .ok then (x.c.parser.error, x)
  else
    let out := env.llhttp.buffer x.c.parser.state data
    match runEvents env out.1 x with
    | (x, true) => (.ok, { x with c := { x.c with parser := { x.c.parser with state := out.2.1 } } })
    | (x, false) => (x.c.parser.error, x)

/-- `(size_t)(llhttp_get_error_pos(&c->parser) - (const char *)c->read_buf)` -/
def errorOffset (c : Conn σ) : ℕ :=
  match c.parser.errorPos with
  | some p => p
  | none => (2 ^ 64 - c.buf.base.getD 0) % 2 ^ 64

def setConsumed (x : Ctx σ) (data : Bytes) (n : ℕ) : Ctx σ :=
  { x with c := { x.c with
      buf := { x.c.buf with consumed := n, parsed := x.c.buf.parsed ++ data.take n } } }

/-- `filled - consumed` on `size_t`. -/
def leftover (b : ReadBuf) : ℕ := (b.filled + 2 ^ 64 - b.consumed) % 2 ^ 64

def compact (b : ReadBuf) : ReadBuf :=
  { b with
    mem := (b.mem.drop b.consumed).take (leftover b)
    filled := leftover b
    consumed := 0
    fault := b.fault || decide (0 < leftover b ∧ readBufSize < b.consumed + leftover b) }

/-- `conn_alloc_cb`: how many bytes libuv may read, or no buffer. -/
def connAllocCb (env : Env σ) (x : Ctx σ) : Option ℕ × Ctx σ :=
  if x.c.closing || x.c.finalized then (none, x)
  else
    let b := match x.c.buf.base with
      | none => { x.c.buf with base := some (env.bufAddr x.id), mem := [], filled := 0, consumed := 0 }
      | some _ => compact x.c.buf
    (some ((readBufSize + 2 ^ 64 - b.filled) % 2 ^ 64), { x with c := { x.c with buf := b } })

def rejectReason (code : ℕ) (err : HttpError) : Bytes :=
  if code = 431 then ascii "header fields too large\n"
  else if code = 413 then ascii "payload too large\n"
  else if code = 414 then ascii "uri too long\n"
  else if code ≠ 0 then ascii "malformed request\n"
  else if err = .invalidMethod then ascii "invalid method\n"
  else if err = .invalidUrl then ascii "invalid url\n"
  else ascii "malformed request\n"

def rejectRequest (env : Env σ) (x : Ctx σ) (code : ℕ) (reason : Bytes) : Ctx σ :=
  let x := { x with c := { x.c with forceClose := true, trace := x.c.trace ++ [.rejected code] } }
  connSendSimple env x code none reason true

/-- The bytes of a read in the buffer, before anything looks at them. -/
def received (x : Ctx σ) (data : Bytes) : Ctx σ :=
  { x with
    srv := { x.srv with stats := { x.srv.stats with bytesRead := x.srv.stats.bytesRead + data.length } }
    c := { x.c with buf := { x.c.buf with
      filled := x.c.buf.filled + data.length
      mem := x.c.buf.mem ++ data
      rx := x.c.buf.rx ++ data } } }

/-- `conn_on_read` from the moment the bytes are in the buffer. -/
def readFrom (env : Env σ) (x : Ctx σ) : Ctx σ :=
  if x.c.statusSent || decide (x.c.phase = .drain) then
    -- draining bytes of a connection that was already answered with an error
    if readBufSize ≤ x.c.buf.filled then connCloseAndFree x else x
  else
    let given := x.c.buf.mem
    match llhttpExecute env x given with
    | (.ok, x) => setConsumed x given x.c.buf.filled
    | (.paused, x) =>
      let x := setConsumed x given (errorOffset x.c)
      { x with c := { x.c with reading := false } }
    | (.bad err, x) =>
      let x := setConsumed x given (errorOffset x.c)
      let bad := x.c.stage.badRequest
      rejectRequest env x (if bad ≠ 0 then bad else 400) (rejectReason bad err)

/-- `conn_on_read` with `nread > 0`. -/
def connOnRead (env : Env σ) (x : Ctx σ) (data : Bytes) : Ctx σ := readFrom env (received x data)

def connIdle (env : Env σ) (x : Ctx σ) : Ctx σ :=
  { x with c := { x.c with phase := .idle, deadline := x.srv.now + env.cfg.keepAliveTimeoutMs } }

/-- The reset between two requests in `after_response`. -/
def nextRequest (c : Conn σ) : Conn σ :=
  { c with
    req := none
    statusSent := false
    stage := { c.stage with badRequest := 0 }
    forceClose := false
    arena := arenaReset c.arena
    parser := llhttpResume c.parser
    buf := compact c.buf }

/-- The parse of pipelined bytes in `after_response`. -/
def resumeFrom (env : Env σ) (x : Ctx σ) : Ctx σ :=
  let given := x.c.buf.mem
  if 0 < x.c.buf.filled then
    match llhttpExecute env x given with
    | (.ok, x) =>
      let x := setConsumed x given given.length
      { x with c := readStart x.c }
    | (.paused, x) =>
      let x := setConsumed x given (errorOffset x.c)
      { x with c := readStart x.c }
    | (.bad _, x) => rejectRequest env x 400 (ascii "bad request\n")
  else { x with c := readStart x.c }

def countAnswered (x : Ctx σ) : Ctx σ := x.stat fun s => { s with activeReqs := s.activeReqs - 1 }

def afterResponse (env : Env σ) (x : Ctx σ) (ok : Bool) : Ctx σ :=
  let x := countAnswered x
  if !ok then connMaybeFinalize (connCloseAndFree x)
  else if x.c.closing then connMaybeFinalize { x with c := { x.c with req := none } }
  else if x.c.forceClose || !x.c.keepAlive then connCloseGraceful x
  else
    let x := connIdle env x
    resumeFrom env { x with c := nextRequest x.c }

def popWrite (c : Conn σ) : Conn σ :=
  { c with writes := c.writes.tail, pendingWrites := c.pendingWrites - 1 }

def popped (x : Ctx σ) : Ctx σ := { x with c := popWrite x.c }

def onResponseWritten (env : Env σ) (x : Ctx σ) (ok : Bool) : Ctx σ :=
  let x := popped x
  if !x.c.finalized then afterResponse env x ok else connMaybeFinalize x

/-- The keep-alive branch of `on_simple_written`: what is buffered is dropped, the
request and the staged header stay. -/
def recover (env : Env σ) (x : Ctx σ) : Ctx σ :=
  let x := connIdle env x
  { x with c := readStart { x.c with
      statusSent := false
      stage := { x.c.stage with badRequest := 0 }
      buf := { x.c.buf with mem := [], filled := 0, consumed := 0 }
      parser := llhttpResume x.c.parser } }

def onSimpleWritten (env : Env σ) (x : Ctx σ) (ok : Bool) : Ctx σ :=
  let x := countAnswered (popped x)
  if x.c.finalized || x.c.closing then connMaybeFinalize x
  else if !ok then connCloseAndFree x
  else if x.c.keepAlive && !x.c.forceClose then recover env x
  else connCloseGraceful x

def connOnSseWritten (x : Ctx σ) (ok : Bool) : Ctx σ :=
  let x := popped x
  if !ok && !x.c.closing && !x.c.finalized then connCloseAndFree x else connMaybeFinalize x

def onWritten (env : Env σ) (x : Ctx σ) (kind : WriteKind) (ok : Bool) : Ctx σ :=
  match kind with
  | .response _ => onResponseWritten env x ok
  | .simple => onSimpleWritten env x ok
  | .sse => connOnSseWritten x ok

def connOnStreamClosed (x : Ctx σ) : Ctx σ :=
  connMaybeFinalize { x with c := { x.c with closeCbDone := true } }

end Cerco.HttpCallbacks
