import Cerco.ServerRules
import Cerco.RequestGrammar

set_option autoImplicit false

/-!
# How a dispatch ends

Server functions, reserved endpoints, routes, static files and the 404 page end a request in
different ways. What counts is what they leave behind: a job in the pool, a queued write, a
connection that closes.
-/
namespace Cerco.DispatchOutcome
open Cerco.Alloc Cerco.CString Cerco.HeadText Cerco.Request Cerco.Response Cerco.Router Cerco.Connection Cerco.Dispatch
open Cerco.HttpCallbacks Cerco.Server Cerco.WorkerPool Cerco.Responders Cerco.ServerRules
open Cerco.RequestGrammar Cerco.ConnFrames TransitionRuns RingBuffer

variable {σ : Type}

inductive Outcome
  | submitted
  | responded
  | streamed
  | closed
deriving DecidableEq

/-- What others can see of a callback: the pool, the writes of the connection, the number of
attempts to write, and whether the connection closes. -/
structure Marks where
  pool : PoolRun ReqRef
  trace : List ConnEvent
  attempts : ℕ
  closing : Bool

def marks (x : Ctx σ) : Marks := ⟨x.srv.pool, x.c.trace, x.srv.writeCalls, x.c.closing⟩

/-- Request `k` becomes the newest job. -/
def withJob (x : Ctx σ) (k : ℕ) : PoolRun ReqRef :=
  let ref : ReqRef := ⟨x.id, k, x.c.arena.epoch⟩
  { x.srv.pool with
    pool := { x.srv.pool.pool with jobs := x.srv.pool.pool.jobs.push ref }
    accepted := x.srv.pool.accepted ++ [ref] }

def sseChunk (data : Bytes) : Bytes :=
  (Nat.toDigits 16 data.length).map (fun c => UInt8.ofNat c.toNat) ++ crlf ++ data ++ crlf

/-- The outcome of a callback that got `x` and left `y`. A stream whose head is queued and whose
first chunk cannot be written is closed, too. -/
inductive Ends (env : Env σ) (k : ℕ) (x y : Ctx σ) : Outcome → Prop
  | submitted (room : hasRoom x = true) (h : marks y = { marks x with pool := withJob x k }) :
      Ends env k x y .submitted
  | responded (w : WriteCtx) (kind : w.kind = .response k ∨ w.kind = .simple) (written : writeRes env x = .ok)
      (h : marks y = { marks x with
        trace := x.c.trace ++ [.wrote w], attempts := x.srv.writeCalls + 1 }) : Ends env k x y .responded
  | streamed (written : writeRes env x = .ok) (started : writeRes env (countWrite x) = .ok)
      (client : y.c.sse = true)
      (h : marks y = { marks x with
        trace := x.c.trace ++ [.wrote ⟨.sse, .reply liveHead⟩, .wrote ⟨.sse, .raw (sseChunk (ascii ":ok\n\n"))⟩]
        attempts := x.srv.writeCalls + 2 }) : Ends env k x y .streamed
  | refused (unwritten : writeRes env x ≠ .ok)
      (h : marks y = { marks x with attempts := x.srv.writeCalls + 1, closing := true }) :
      Ends env k x y .closed
  | cut (written : writeRes env x = .ok) (unwritten : writeRes env (countWrite x) ≠ .ok)
      (h : marks y = { marks x with
        trace := x.c.trace ++ [.wrote ⟨.sse, .reply liveHead⟩]
        attempts := x.srv.writeCalls + 2
        closing := true }) : Ends env k x y .closed

def readOutcome (m n : Marks) : Outcome :=
  if n.pool.accepted.length ≠ m.pool.accepted.length then .submitted
  else
    match n.trace.drop m.trace.length with
    | [] => .closed
    | [.wrote w] => if w.kind = .sse then .closed else .responded
    | _ => .streamed

theorem Ends.read {env : Env σ} {k : ℕ} {x y : Ctx σ} {o : Outcome} (h : Ends env k x y o) :
    readOutcome (marks x) (marks y) = o := by
  unfold readOutcome
  cases h with
  | submitted room h =>
    rw [h, if_pos]
    simp [marks, withJob]
  | responded w kind written h =>
    rw [h, if_neg (fun e => e rfl)]
    have fresh : w.kind ≠ .sse := by
      obtain e | e := kind <;> rw [e] <;> simp
    simp [marks, fresh]
  | streamed written started client h =>
    rw [h, if_neg (fun e => e rfl)]
    simp [marks]
  | refused unwritten h =>
    rw [h, if_neg (fun e => e rfl)]
    simp [marks]
  | cut written unwritten h =>
    rw [h, if_neg (fun e => e rfl)]
    simp [marks]

theorem Ends.unique {env : Env σ} {k : ℕ} {x y : Ctx σ} {o : Outcome} (h : Ends env k x y o) :
    ∃! o, Ends env k x y o :=
  ⟨o, h, fun _ h' => h'.read.symm.trans h.read⟩

section Marks
variable {env : Env σ} {k : ℕ} {x y : Ctx σ}

@[simp] theorem connFinalize_marks (x : Ctx σ) : marks (connFinalize x) = marks x := by
  unfold connFinalize
  split
  · rfl
  · dsimp only
    split <;> rfl

@[simp] theorem connMaybeFinalize_marks (x : Ctx σ) : marks (connMaybeFinalize x) = marks x := by
  unfold connMaybeFinalize
  split
  · rfl
  · split
    · rfl
    · split
      · rfl
      · split
        · rfl
        · exact connFinalize_marks x

@[simp] theorem cancelReq_trace (c : Conn σ) : (cancelReq c).trace = c.trace := by
  obtain ⟨o, ho⟩ := cancelReq_objs c
  rw [ho]

@[simp] theorem cancelReq_closing (c : Conn σ) : (cancelReq c).closing = c.closing := by
  obtain ⟨o, ho⟩ := cancelReq_objs c
  rw [ho]

theorem connCloseAndFree_marks (x : Ctx σ) :
    marks (connCloseAndFree x) = { marks x with closing := true } := by
  unfold connCloseAndFree
  cases h : x.c.closing with
  | true =>
    rw [if_pos rfl]
    unfold marks
    rw [h]
  | false =>
    rw [if_neg Bool.false_ne_true, connMaybeFinalize_marks]
    cases hs : x.c.sse with
    | true => simp [marks]
    | false => simp [marks]

theorem uvWrite_ok (x : Ctx σ) (w : WriteCtx) :
    marks (uvWrite x .ok w) = { marks x with trace := x.c.trace ++ [.wrote w] } := rfl

theorem uvWrite_marks {res : WriteRes} (h : res ≠ .ok) (x : Ctx σ) (w : WriteCtx) :
    marks (uvWrite x res w) = { marks x with closing := true } := by
  unfold uvWrite
  rw [if_neg h]
  exact connCloseAndFree_marks x

structure SameHandle (x y : Ctx σ) : Prop where
  marks : marks y = marks x
  writable : y.c.writable = x.c.writable
  closeQueued : y.c.closeQueued = x.c.closeQueued

theorem writeRes_congr (calls : y.srv.writeCalls = x.srv.writeCalls) (writable : y.c.writable = x.c.writable)
    (closeQueued : y.c.closeQueued = x.c.closeQueued) : writeRes env y = writeRes env x := by
  unfold writeRes
  rw [calls, writable, closeQueued]

theorem SameHandle.writeRes (h : SameHandle x y) : writeRes env y = writeRes env x :=
  writeRes_congr (congrArg Marks.attempts h.marks) h.writable h.closeQueued

theorem prepared_sameHandle (h : Prepared x y) : SameHandle x y := by
  obtain ⟨a, o, st, _, rfl⟩ := h
  exact ⟨rfl, rfl, rfl⟩

theorem attempt_ends {res : WriteRes} (hres : res = writeRes env x) {z z' : Ctx σ} {w : WriteCtx}
    (kind : w.kind = .response k ∨ w.kind = .simple)
    (hz : marks z = { marks x with attempts := x.srv.writeCalls + 1 })
    (hz' : marks z' = { marks x with attempts := x.srv.writeCalls + 1 }) :
    Ends env k x (if res = .noMem then connCloseAndFree z else uvWrite z' res w)
      (if writeRes env x = .ok then .responded else .closed) := by
  subst hres
  by_cases written : writeRes env x = .ok
  · have trace : z'.c.trace = x.c.trace := congrArg Marks.trace hz'
    rw [if_pos written, if_neg (by rw [written]; decide), written]
    refine .responded w kind written ?_
    rw [uvWrite_ok, hz', trace]
  · rw [if_neg written]
    refine .refused written ?_
    by_cases memory : writeRes env x = .noMem
    · rw [if_pos memory, connCloseAndFree_marks, hz]
    · rw [if_neg memory, uvWrite_marks written, hz']

theorem countWrite_marks (h : SameHandle x y) :
    marks (countWrite y) = { marks x with attempts := x.srv.writeCalls + 1 } := by
  have calls : y.srv.writeCalls = x.srv.writeCalls := congrArg Marks.attempts h.marks
  have counted : marks (countWrite y) = { marks y with attempts := y.srv.writeCalls + 1 } := rfl
  rw [counted, h.marks, calls]

theorem connStartResponse_ends (h : SameHandle x y) :
    Ends env k x (connStartResponse env y k) (if writeRes env x = .ok then .responded else .closed) := by
  have same : SameHandle x (({ y with c := { y.c with
      phase := .write, deadline := y.srv.now + env.cfg.requestTimeoutMs } } : Ctx σ).stat
      (statusCounter (y.c.objs k).status)) := ⟨h.marks, h.writable, h.closeQueued⟩
  have counted := countWrite_marks same
  exact attempt_ends same.writeRes (.inl rfl) counted counted

theorem connSendSimple_ends (h : SameHandle x y) (code : ℕ) (hdr : Option Bytes) (body : Bytes)
    (forceClose : Bool) :
    Ends env k x (connSendSimple env y code hdr body forceClose)
      (if writeRes env x = .ok then .responded else .closed) := by
  have counted := countWrite_marks h
  refine attempt_ends h.writeRes (.inr rfl) counted ?_
  rw [← counted]
  by_cases failed : 400 ≤ code
  · rw [if_pos failed]
    rfl
  · rw [if_neg failed]
    rfl

theorem connSseWrite_ok (written : writeRes env x = .ok) (data : Bytes) :
    connSseWrite env x data = uvWrite (countWrite x) .ok ⟨.sse, .raw (sseChunk data)⟩ := by
  unfold connSseWrite
  dsimp only
  rw [written, if_neg (by decide)]
  rfl

theorem connSseWrite_closes (unwritten : writeRes env x ≠ .ok) (data : Bytes) :
    marks (connSseWrite env x data) =
      { marks x with attempts := x.srv.writeCalls + 1, closing := true } := by
  unfold connSseWrite
  dsimp only
  by_cases memory : writeRes env x = .noMem
  · rw [if_pos memory, connCloseAndFree_marks]
    rfl
  · rw [if_neg memory, uvWrite_marks unwritten]
    rfl

theorem sendLiveSse_ends (h : SameHandle x y) : ∃ o, Ends env k x (sendLiveSse env y) o := by
  have counted := countWrite_marks h
  have first : writeRes env y = writeRes env x := h.writeRes
  unfold sendLiveSse
  dsimp only
  by_cases written : writeRes env x = .ok
  · rw [first, written, if_neg (by decide), if_pos rfl]
    let z := sseLink (uvWrite (countWrite y) .ok ⟨.sse, .reply liveHead⟩)
    have linked : marks z = { marks x with
        trace := x.c.trace ++ [.wrote ⟨.sse, .reply liveHead⟩], attempts := x.srv.writeCalls + 1 } := by
      have trace : (countWrite y).c.trace = x.c.trace := congrArg Marks.trace counted
      change marks (uvWrite (countWrite y) .ok _) = _
      rw [uvWrite_ok, counted, trace]
    have trace : z.c.trace = x.c.trace ++ [.wrote ⟨.sse, .reply liveHead⟩] := congrArg Marks.trace linked
    have attempts : z.srv.writeCalls = x.srv.writeCalls + 1 := congrArg Marks.attempts linked
    have second : writeRes env z = writeRes env (countWrite x) :=
      writeRes_congr attempts h.writable h.closeQueued
    by_cases started : writeRes env (countWrite x) = .ok
    · refine ⟨.streamed, .streamed written started ?_ ?_⟩
      · change (connSseWrite env z _).c.sse = true
        rw [connSseWrite_ok (second.trans started)]
        rfl
      · change marks (connSseWrite env z _) = _
        have queued : marks (countWrite z) = { marks z with attempts := z.srv.writeCalls + 1 } := rfl
        have same : (countWrite z).c.trace = z.c.trace := rfl
        rw [connSseWrite_ok (second.trans started), uvWrite_ok, queued, same, linked, trace, attempts,
          List.append_assoc]
        rfl
    · refine ⟨.closed, .cut written started ?_⟩
      change marks (connSseWrite env z _) = _
      rw [connSseWrite_closes (fun e => started (second.symm.trans e)), linked, attempts]
  · refine ⟨.closed, .refused written ?_⟩
    by_cases memory : writeRes env x = .noMem
    · rw [first, if_pos memory, connCloseAndFree_marks, counted]
    · rw [first, if_neg memory, if_neg written, uvWrite_marks written, counted]

theorem submitStep_room (p : PoolRun ReqRef) (ref : ReqRef) (h : (wpoolTrySubmit p.pool ref).2 = true) :
    submitStep p ref = { p with
      pool := { p.pool with jobs := p.pool.jobs.push ref }, accepted := p.accepted ++ [ref] } := by
  unfold submitStep
  cases hq : wpoolTrySubmit p.pool ref with
  | mk q taken =>
    rw [hq] at h
    cases h
    rw [(wpoolTrySubmit_accepts hq).2]

theorem wpoolSubmit_ends (h : Prepared x y) (room : (wpoolSubmit y k).2 = true) :
    Ends env k x (wpoolSubmit y k).1 .submitted := by
  have same := prepared_sameHandle h
  have roomy : hasRoom y = true := (wpoolSubmit_room y k).symm.trans room
  obtain ⟨a, o, st, all, rfl⟩ := h
  refine .submitted roomy ?_
  have pool := submitStep_room x.srv.pool ⟨x.id, k, a.epoch⟩ room
  unfold marks wpoolSubmit
  dsimp only
  rw [pool, all.epoch]
  rfl

theorem answer_ends (h : Answer env k x y) : ∃ o, Ends env k x y o := by
  cases h with
  | job prep room => exact ⟨_, wpoolSubmit_ends prep room⟩
  | response prep => exact ⟨_, connStartResponse_ends (prepared_sameHandle prep)⟩
  | simple code hdr body prep => exact ⟨_, connSendSimple_ends (prepared_sameHandle prep) code hdr body false⟩
  | stream prep => exact sendLiveSse_ends (prepared_sameHandle prep)

end Marks

def discarded (x : Ctx σ) (k : ℕ) : Bool := (x.c.objs k).cancelled || x.c.finalized || x.c.closing

/-- A drained request gets one call of `conn_start_response`, or its result is discarded without
any attempt to write. -/
def DrainsOnce (env : Env σ) (x : Ctx σ) (k : ℕ) (y : Ctx σ) : Prop :=
  if discarded x k then marks y = marks x
  else (∃ z, Prepared x z ∧ y = connStartResponse env z k) ∧
    (∃! o, Ends env k x y o) ∧ Ends env k x y (if writeRes env x = .ok then .responded else .closed)

theorem drainReq_once (env : Env σ) (x : Ctx σ) (k : ℕ) : DrainsOnce env x k (drainReq env x k) := by
  unfold DrainsOnce discarded
  obtain ⟨gone, st, e⟩ | ⟨wanted, y, prep, e⟩ := drainReq_split env x k
  · rw [if_pos gone, e, connMaybeFinalize_marks]
    rfl
  · have ends : Ends env k x (connStartResponse env y k) _ :=
      connStartResponse_ends (prepared_sameHandle prep)
    rw [if_neg (by rw [wanted]; decide), e]
    exact ⟨⟨y, prep, rfl⟩, ends.unique, ends⟩

/-- The context in which a completed request is drained. -/
def drainCtx (s : Srv σ) (ref : ReqRef) (p : Wpool ReqRef) : Ctx σ :=
  ({ s with pool := drainStep s.pool (ref, p) } : Srv σ).enter ref.conn

/-- The state in which `conn_request_dispatch` begins its work on request `k`. -/
def noted (x : Ctx σ) (k : ℕ) : Ctx σ :=
  { x with c := { x.c with trace := x.c.trace ++ [.dispatched k (x.c.objs k)] } }

/-- A dispatch has exactly one outcome, and so does the drain of a request. -/
theorem one_outcome (env : Env σ) :
    (∀ (x : Ctx σ) (k : ℕ), x.c.req = some k → x.c.stage.badRequest = 0 →
      ∃! o, Ends env k (noted x k) (connRequestDispatch env x) o) ∧
    ∀ (s : Srv σ) (ref : ReqRef) (p : Wpool ReqRef), drainOne s.pool.pool = some (ref, p) →
      ∃ y, drainJob env s = some y.done ∧ DrainsOnce env (drainCtx s ref p) ref.req y := by
  constructor
  · intro x k req good
    obtain ⟨o, h⟩ := answer_ends (dispatchReq_answer env (noted x k) k)
    have same : connRequestDispatch env x = dispatchReq env (noted x k) k := by
      unfold connRequestDispatch
      rw [req]
      dsimp only
      rw [if_neg (fun bad => bad good)]
      rfl
    rw [same]
    exact h.unique
  · intro s ref p first
    refine ⟨drainReq env (drainCtx s ref p) ref.req, ?_, drainReq_once env _ _⟩
    unfold drainJob
    rw [first]
    rfl

/-- A connection that has read a GET for the page. -/
def rootCtx : Ctx Scan :=
  ⟨srvStart (stockEnv rootTable), 0, { freshConn (stockEnv rootTable) 0 0 with
    req := some 0
    objs := fun _ => { reqSetup 0 with method := some (ascii "GET"), path := some (ascii "/") }
    arena := roomyArena }⟩

def rootRef : ReqRef := ⟨0, 0, 0⟩

/-- A server whose worker has finished this request. -/
def finishedSrv : Srv Scan :=
  { srvStart (stockEnv rootTable) with
    pool := ⟨wpoolPushDone (wpoolStart 1024) rootRef, [], [rootRef], [rootRef], [], []⟩ }

def drainedPool : Wpool ReqRef :=
  { finishedSrv.pool.pool with done := finishedSrv.pool.pool.done.pop }

/-- The page is asked for, and a finished request is drained. -/
theorem one_outcome_root :
    (∃! o, Ends (stockEnv rootTable) 0 (noted rootCtx 0) (connRequestDispatch (stockEnv rootTable) rootCtx) o) ∧
    ∃ y, drainJob (stockEnv rootTable) finishedSrv = some y.done ∧
      DrainsOnce (stockEnv rootTable) (drainCtx finishedSrv rootRef drainedPool) 0 y :=
  ⟨(one_outcome (stockEnv rootTable)).1 rootCtx 0 rfl rfl,
    (one_outcome (stockEnv rootTable)).2 finishedSrv rootRef _ rfl⟩

end Cerco.DispatchOutcome
