import Cerco.Responders

set_option autoImplicit false

/-!
# What the event loop leaves alone

`Linked` is what any step keeps about the flags of one connection. Under it,
`Kept` lists what answering a request does not touch, `Loose` what running the
parser callbacks does not touch.
-/
namespace Cerco.ConnFrames
open Cerco.Alloc Cerco.CString Cerco.Request Cerco.Response Cerco.Router Cerco.Connection
open Cerco.Dispatch Cerco.HttpCallbacks Cerco.Server Cerco.WorkerPool Cerco.ArenaUse
open Cerco.SpanParser Cerco.Responders

variable {σ : Type}

structure Linked (c : Conn σ) : Prop where
  queued : c.closeQueued = c.closing
  closeCb : c.closeCbDone = c.finalized
  finalized : c.finalized = true → c.closing = true
  reading : c.reading = true → c.closing = false
  writes : c.pendingWrites = c.writes.length
  phase : c.phase ≠ .work

theorem Linked.of_eq {c d : Conn σ} (h : Linked c)
    (same : (d.closeQueued, d.closing, d.closeCbDone, d.finalized, d.reading, d.pendingWrites,
      d.writes, d.phase) = (c.closeQueued, c.closing, c.closeCbDone, c.finalized, c.reading,
      c.pendingWrites, c.writes, c.phase)) : Linked d := by
  simp only [Prod.mk.injEq] at same
  obtain ⟨e₁, e₂, e₃, e₄, e₅, e₆, e₇, e₈⟩ := same
  exact ⟨by rw [e₁, e₂, h.queued], by rw [e₃, e₄, h.closeCb], by rw [e₄, e₂]; exact h.finalized,
    by rw [e₅, e₂]; exact h.reading, by rw [e₆, e₇, h.writes], by rw [e₈]; exact h.phase⟩

/-- The requests of connection `i` in the pool. -/
def mine (p : PoolRun ReqRef) (i : ℕ) : Multiset ReqRef := (held p).filter fun r => r.conn = i

structure Stays (x y : Ctx σ) : Prop where
  linked : Linked y.c
  id : y.id = x.id
  conns : y.srv.conns = x.srv.conns
  nextConn : y.srv.nextConn = x.srv.nextConn
  wired : ∀ C, Wired C x.srv.pool → Wired C y.srv.pool
  others : ∀ C, Wired C x.srv.pool → ∀ j, j ≠ x.id → mine y.srv.pool j = mine x.srv.pool j

structure Seated (x y : Ctx σ) : Prop extends Stays x y where
  seats : (y.srv.active, y.srv.connFree) = (x.srv.active, x.srv.connFree)

/-- Nothing is torn down or rewound, and requests that come into the pool lie in
the current arena. -/
structure Housed (x y : Ctx σ) : Prop extends Seated x y where
  finalized : y.c.finalized = x.c.finalized
  closing : x.c.closing = true → y.c.closing = true
  arena : Allocs x.c.arena y.c.arena
  trace : x.c.trace <+: y.c.trace
  added : ∀ C, Wired C x.srv.pool → ∀ ref ∈ mine y.srv.pool x.id,
    ref ∈ mine x.srv.pool x.id ∨ ref.epoch = x.c.arena.epoch

/-- The callbacks of the parser, and all they call, also leave the read buffer. -/
structure Loose (x y : Ctx σ) : Prop extends Housed x y where
  buf : y.c.buf = x.c.buf

/-- Answering a request also leaves the parser and what it assembled. -/
structure Kept (x y : Ctx σ) : Prop extends Loose x y where
  parser : y.c.parser = x.c.parser
  stage : y.c.stage = x.c.stage
  req : y.c.req = x.c.req
  nObjs : y.c.nObjs = x.c.nObjs

theorem Stays.done_conns {x y : Ctx σ} (h : Stays x y) (i : ℕ) :
    y.done.conns i = if i = x.id then y.c else x.srv.conns i := by
  change Function.update y.srv.conns y.id y.c i = _
  rw [h.id, h.conns, Function.update_apply]

theorem Stays.of_eq {x y : Ctx σ} (hl : Linked y.c)
    (srv : (y.id, y.srv.conns, y.srv.nextConn, y.srv.pool) =
      (x.id, x.srv.conns, x.srv.nextConn, x.srv.pool)) : Stays x y := by
  simp only [Prod.mk.injEq] at srv
  obtain ⟨id, conns, next, pool⟩ := srv
  exact ⟨hl, id, conns, next, fun C h => pool ▸ h, fun C _ j _ => by rw [pool]⟩

def SameSeats (x y : Ctx σ) : Prop :=
  (y.id, y.srv.conns, y.srv.nextConn, y.srv.pool, y.srv.active, y.srv.connFree) =
    (x.id, x.srv.conns, x.srv.nextConn, x.srv.pool, x.srv.active, x.srv.connFree)

theorem Seated.of_eq {x y : Ctx σ} (hl : Linked y.c) (srv : SameSeats x y) : Seated x y := by
  simp only [SameSeats, Prod.mk.injEq] at srv
  obtain ⟨id, conns, next, pool, active, free⟩ := srv
  exact ⟨.of_eq hl (by rw [id, conns, next, pool]), by rw [active, free]⟩

theorem Housed.of_eq {x y : Ctx σ} (hl : Linked y.c) (srv : SameSeats x y)
    (fin : y.c.finalized = x.c.finalized)
    (closing : x.c.closing = true → y.c.closing = true) (arena : Allocs x.c.arena y.c.arena)
    (trace : x.c.trace <+: y.c.trace) : Housed x y := by
  have seated := Seated.of_eq hl srv
  simp only [SameSeats, Prod.mk.injEq] at srv
  exact ⟨seated, fin, closing, arena, trace, fun C _ ref hr => .inl (srv.2.2.2.1 ▸ hr)⟩

theorem Loose.of_eq {x y : Ctx σ} (hl : Linked y.c) (srv : SameSeats x y)
    (conn : (y.c.buf, y.c.finalized) = (x.c.buf, x.c.finalized))
    (closing : x.c.closing = true → y.c.closing = true) (arena : Allocs x.c.arena y.c.arena)
    (trace : x.c.trace <+: y.c.trace) : Loose x y := by
  simp only [Prod.mk.injEq] at conn
  exact ⟨.of_eq hl srv conn.2 closing arena trace, conn.1⟩

theorem Kept.of_eq {x y : Ctx σ} (hl : Linked y.c) (srv : SameSeats x y)
    (conn : (y.c.buf, y.c.finalized) = (x.c.buf, x.c.finalized))
    (req : (y.c.parser, y.c.stage, y.c.req, y.c.nObjs) =
      (x.c.parser, x.c.stage, x.c.req, x.c.nObjs))
    (closing : x.c.closing = true → y.c.closing = true) (arena : Allocs x.c.arena y.c.arena)
    (trace : x.c.trace <+: y.c.trace) : Kept x y := by
  have loose := Loose.of_eq hl srv conn closing arena trace
  simp only [Prod.mk.injEq] at req
  exact ⟨loose, req.1, req.2.1, req.2.2.1, req.2.2.2⟩

theorem Seated.refl {x : Ctx σ} (h : Linked x.c) : Seated x x := .of_eq h rfl

theorem Housed.refl {x : Ctx σ} (h : Linked x.c) : Housed x x :=
  .of_eq h rfl rfl (fun h => h) (.refl _) List.prefix_rfl

theorem Loose.refl {x : Ctx σ} (h : Linked x.c) : Loose x x :=
  .of_eq h rfl rfl (fun h => h) (.refl _) List.prefix_rfl

theorem Kept.refl {x : Ctx σ} (h : Linked x.c) : Kept x x :=
  .of_eq h rfl rfl rfl (fun h => h) (.refl _) List.prefix_rfl

theorem Stays.trans {x y z : Ctx σ} (h₁ : Stays x y) (h₂ : Stays y z) : Stays x z where
  linked := h₂.linked
  id := h₂.id.trans h₁.id
  conns := h₂.conns.trans h₁.conns
  nextConn := h₂.nextConn.trans h₁.nextConn
  wired C := h₂.wired C ∘ h₁.wired C
  others C hC j hj :=
    (h₂.others C (h₁.wired C hC) j (by rw [h₁.id]; exact hj)).trans (h₁.others C hC j hj)

theorem Seated.trans {x y z : Ctx σ} (h₁ : Seated x y) (h₂ : Seated y z) : Seated x z :=
  ⟨h₁.toStays.trans h₂.toStays, h₂.seats.trans h₁.seats⟩

theorem Housed.trans {x y z : Ctx σ} (h₁ : Housed x y) (h₂ : Housed y z) : Housed x z where
  toSeated := h₁.toSeated.trans h₂.toSeated
  finalized := h₂.finalized.trans h₁.finalized
  closing := h₂.closing ∘ h₁.closing
  arena := h₁.arena.trans h₂.arena
  trace := h₁.trace.trans h₂.trace
  added C hC ref hr := by
    have later := h₂.added C (h₁.wired C hC) ref
    rw [h₁.id, h₁.arena.epoch] at later
    exact (later hr).elim (h₁.added C hC ref) .inr

theorem Loose.trans {x y z : Ctx σ} (h₁ : Loose x y) (h₂ : Loose y z) : Loose x z :=
  ⟨h₁.toHoused.trans h₂.toHoused, h₂.buf.trans h₁.buf⟩

theorem Kept.trans {x y z : Ctx σ} (h₁ : Kept x y) (h₂ : Kept y z) : Kept x z where
  toLoose := h₁.toLoose.trans h₂.toLoose
  parser := h₂.parser.trans h₁.parser
  stage := h₂.stage.trans h₁.stage
  req := h₂.req.trans h₁.req
  nObjs := h₂.nObjs.trans h₁.nObjs

theorem prepared_kept {x y : Ctx σ} (h : Prepared x y) (hl : Linked x.c) : Kept x y := by
  obtain ⟨a, o, st, all, rfl⟩ := h
  exact .of_eq (hl.of_eq rfl) rfl rfl rfl
    (fun h => h) all List.prefix_rfl

theorem connMaybeFinalize_open {x : Ctx σ} (h : x.c.closeCbDone = false) :
    connMaybeFinalize x = x := by
  unfold connMaybeFinalize
  rw [h]
  split <;> rfl

theorem connMaybeFinalize_linked {x : Ctx σ} (hl : Linked x.c) : connMaybeFinalize x = x := by
  cases h : x.c.closeCbDone with
  | false => exact connMaybeFinalize_open h
  | true =>
    unfold connMaybeFinalize
    rw [← hl.closeCb, h]
    simp

theorem cancelReq_objs (c : Conn σ) : ∃ o, cancelReq c = { c with objs := o } := by
  unfold cancelReq
  split <;> exact ⟨_, rfl⟩

/-- An open connection that is closed, up to its request objects and the list of
live-reload clients. -/
theorem connCloseAndFree_open {x : Ctx σ} (hl : Linked x.c) (h : x.c.closing = false) :
    ∃ o clients st, connCloseAndFree x =
      { x with
        srv := { x.srv with sseClients := clients, stats := st }
        c := { x.c with
          objs := o, closing := true, sse := false, reading := false, closeQueued := true } } := by
  have unfinished : x.c.closeCbDone = false := by
    rw [hl.closeCb]
    cases hf : x.c.finalized with
    | false => rfl
    | true => rw [hl.finalized hf] at h; cases h
  unfold connCloseAndFree
  rw [h]
  simp only [Bool.false_eq_true, ↓reduceIte]
  rw [connMaybeFinalize_open]
  · split
    · obtain ⟨o, ho⟩ := cancelReq_objs { x.c with closing := true, sse := false }
      exact ⟨o, _, _, by rw [ho]⟩
    · rename_i hs
      obtain ⟨o, ho⟩ := cancelReq_objs { x.c with closing := true }
      refine ⟨o, x.srv.sseClients, x.srv.stats, ?_⟩
      rw [ho, ← Bool.eq_false_iff.mpr hs]
  · split
    · obtain ⟨o, ho⟩ := cancelReq_objs { x.c with closing := true, sse := false }
      rw [ho]
      exact unfinished
    · obtain ⟨o, ho⟩ := cancelReq_objs { x.c with closing := true }
      rw [ho]
      exact unfinished

theorem connCloseAndFree_closing {x : Ctx σ} (h : x.c.closing = true) : connCloseAndFree x = x := by
  unfold connCloseAndFree
  rw [h]
  rfl

theorem connCloseAndFree_kept {x : Ctx σ} (hl : Linked x.c) : Kept x (connCloseAndFree x) := by
  cases h : x.c.closing with
  | true =>
    rw [connCloseAndFree_closing h]
    exact .refl hl
  | false =>
    obtain ⟨o, clients, st, e⟩ := connCloseAndFree_open hl h
    rw [e]
    exact .of_eq ⟨rfl, hl.closeCb, fun _ => rfl, fun hr => (by cases hr), hl.writes, hl.phase⟩
      rfl rfl rfl (fun _ => rfl) (.refl _) List.prefix_rfl

theorem connCloseAndFree_closes {x : Ctx σ} (hl : Linked x.c) :
    (connCloseAndFree x).c.closing = true := by
  cases h : x.c.closing with
  | true =>
    rw [connCloseAndFree_closing h]
    exact h
  | false =>
    obtain ⟨o, clients, st, e⟩ := connCloseAndFree_open hl h
    rw [e]

theorem countWrite_kept {x : Ctx σ} (hl : Linked x.c) : Kept x (countWrite x) :=
  .of_eq hl rfl rfl rfl (fun h => h) (.refl _) List.prefix_rfl

theorem stat_kept {x : Ctx σ} (hl : Linked x.c) (f : Stats → Stats) : Kept x (x.stat f) :=
  .of_eq hl rfl rfl rfl (fun h => h) (.refl _) List.prefix_rfl

theorem withReq_kept {x : Ctx σ} (hl : Linked x.c) (k : ℕ) {f : Arena → Req → Arena × Req}
    (hf : ∀ a r, Allocs a (f a r).1) : Kept x (x.withReq k f) :=
  prepared_kept ((Prepared.refl x).withReq k hf) hl

theorem uvWrite_kept {x : Ctx σ} (hl : Linked x.c) (res : WriteRes) (w : WriteCtx) :
    Kept x (uvWrite x res w) := by
  unfold uvWrite
  split
  · exact .of_eq ⟨hl.queued, hl.closeCb, hl.finalized, hl.reading, by simp [hl.writes], hl.phase⟩
      rfl rfl rfl (fun h => h) (.refl _) (List.prefix_append _ _)
  · exact connCloseAndFree_kept hl

theorem connStartResponse_cases (env : Env σ) (x : Ctx σ) (k : ℕ) :
    ∃ srv st res w, srv = { x.srv with stats := st, writeCalls := x.srv.writeCalls + 1 } ∧
      connStartResponse env x k =
        uvWrite { x with
          srv := srv
          c := { x.c with
            phase := .write, deadline := x.srv.now + env.cfg.requestTimeoutMs } }
          res ⟨.response k, .reply w⟩ := by
  unfold connStartResponse
  dsimp only
  split
  · exact ⟨_, _, .noMem, ⟨0, [], []⟩, rfl, rfl⟩
  · exact ⟨_, _, _, _, rfl, rfl⟩

theorem connStartResponse_kept {x : Ctx σ} (hl : Linked x.c) (env : Env σ) (k : ℕ) :
    Kept x (connStartResponse env x k) := by
  obtain ⟨srv, st, res, w, rfl, e⟩ := connStartResponse_cases env x k
  rw [e]
  refine Kept.trans (y := { x with
      srv := { x.srv with stats := st, writeCalls := x.srv.writeCalls + 1 }
      c := { x.c with phase := .write, deadline := x.srv.now + env.cfg.requestTimeoutMs } })
    (.of_eq ?_ rfl rfl rfl (fun h => h) (.refl _) List.prefix_rfl)
    (uvWrite_kept ?_ _ _) <;>
  exact ⟨hl.queued, hl.closeCb, hl.finalized, hl.reading, hl.writes, by simp⟩

theorem connSendSimple_cases (env : Env σ) (x : Ctx σ) (code : ℕ) (hdr : Option Bytes)
    (body : Bytes) (forceClose : Bool) :
    connSendSimple env x code hdr body forceClose = connCloseAndFree (countWrite x) ∨
    ∃ srv st res, srv = { x.srv with stats := st, writeCalls := x.srv.writeCalls + 1 } ∧
      connSendSimple env x code hdr body forceClose =
        uvWrite { x with
          srv := srv
          c := { x.c with keepAlive := !forceClose, forceClose := forceClose, statusSent := true } }
          res ⟨.simple, .reply (simpleReply code hdr body forceClose)⟩ := by
  unfold connSendSimple
  dsimp only
  split
  · exact .inl rfl
  · right
    split <;> exact ⟨_, _, _, rfl, rfl⟩

theorem connSendSimple_kept {x : Ctx σ} (hl : Linked x.c) (env : Env σ) (code : ℕ)
    (hdr : Option Bytes) (body : Bytes) (forceClose : Bool) :
    Kept x (connSendSimple env x code hdr body forceClose) := by
  obtain e | ⟨srv, st, res, rfl, e⟩ := connSendSimple_cases env x code hdr body forceClose
  · rw [e]
    exact (countWrite_kept hl).trans (connCloseAndFree_kept (countWrite_kept hl).linked)
  · rw [e]
    refine Kept.trans (y := { x with
        srv := { x.srv with stats := st, writeCalls := x.srv.writeCalls + 1 }
        c := { x.c with keepAlive := !forceClose, forceClose := forceClose, statusSent := true } })
      (.of_eq ?_ rfl rfl rfl (fun h => h) (.refl _) List.prefix_rfl) (uvWrite_kept ?_ _ _) <;>
    exact (hl.of_eq rfl)

theorem connSseWrite_kept {x : Ctx σ} (hl : Linked x.c) (env : Env σ) (data : Bytes) :
    Kept x (connSseWrite env x data) := by
  unfold connSseWrite
  dsimp only
  split
  · exact (countWrite_kept hl).trans (connCloseAndFree_kept hl)
  · exact (countWrite_kept hl).trans (uvWrite_kept (countWrite_kept hl).linked _ _)

theorem sseLink_kept {x : Ctx σ} (hl : Linked x.c) : Kept x (sseLink x) :=
  .of_eq (hl.of_eq rfl) rfl rfl rfl (fun h => h) (.refl _) List.prefix_rfl

theorem sendLiveSse_kept {x : Ctx σ} (hl : Linked x.c) (env : Env σ) :
    Kept x (sendLiveSse env x) := by
  have counted := countWrite_kept hl
  unfold sendLiveSse
  dsimp only
  split
  · exact counted.trans (connCloseAndFree_kept counted.linked)
  · have headed := counted.trans (uvWrite_kept counted.linked (writeRes env x)
      ⟨.sse, .reply liveHead⟩)
    split
    · have linked := headed.trans (sseLink_kept headed.linked)
      exact linked.trans (connSseWrite_kept linked.linked env _)
    · exact headed

theorem submitStep_mine {C : ℕ} {p : PoolRun ReqRef} (hC : Wired C p) (ref : ReqRef) :
    (wpoolTrySubmit p.pool ref).2 = true ∧ held (submitStep p ref) = held p + {ref} ∨
    (wpoolTrySubmit p.pool ref).2 = false ∧ submitStep p ref = p := by
  unfold submitStep
  split
  · rename_i q hq
    obtain ⟨room, rfl⟩ := wpoolTrySubmit_accepts hq
    exact .inl ⟨by rw [hq], held_submit hC ref _ room⟩
  · rename_i q hq
    exact .inr ⟨by rw [hq], by rw [wpoolTrySubmit_rejects hq]⟩

theorem wpoolSubmit_kept {x : Ctx σ} (hl : Linked x.c) (k : ℕ) : Kept x (wpoolSubmit x k).1 := by
  have step : poolStep 0 x.srv.pool (.submit ⟨x.id, k, x.c.arena.epoch⟩) =
    some (submitStep x.srv.pool ⟨x.id, k, x.c.arena.epoch⟩) := rfl
  have others : ∀ C, Wired C x.srv.pool → ∀ j, j ≠ x.id →
      mine (submitStep x.srv.pool ⟨x.id, k, x.c.arena.epoch⟩) j = mine x.srv.pool j := by
    intro C hC j hj
    obtain ⟨_, e⟩ | ⟨_, e⟩ := submitStep_mine hC ⟨x.id, k, x.c.arena.epoch⟩
    · rw [mine, e, Multiset.filter_add, Multiset.filter_singleton, if_neg (Ne.symm hj)]
      exact add_zero _
    · rw [e]
  have added : ∀ C, Wired C x.srv.pool →
      ∀ ref ∈ mine (submitStep x.srv.pool ⟨x.id, k, x.c.arena.epoch⟩) x.id,
        ref ∈ mine x.srv.pool x.id ∨ ref.epoch = x.c.arena.epoch := by
    intro C hC ref hr
    obtain ⟨hr, own⟩ := Multiset.mem_filter.mp hr
    obtain h | h := mem_held_step hC step hr
    · exact .inl (Multiset.mem_filter.mpr ⟨h, own⟩)
    · cases h
      exact .inr rfl
  have seated : Seated x (wpoolSubmit x k).1 :=
    ⟨⟨hl, rfl, rfl, rfl, fun C hC => wired_step hC step, others⟩, rfl⟩
  exact ⟨⟨⟨seated, rfl, fun h => h, .refl _, List.prefix_rfl, added⟩, rfl⟩, rfl, rfl, rfl, rfl⟩

theorem answer_kept {env : Env σ} {k : ℕ} {x y : Ctx σ} (h : Answer env k x y) (hl : Linked x.c) :
    Kept x y := by
  cases h with
  | job prep _ => exact (prepared_kept prep hl).trans (wpoolSubmit_kept (prepared_kept prep hl).linked k)
  | response prep => exact (prepared_kept prep hl).trans (connStartResponse_kept (prepared_kept prep hl).linked env k)
  | simple code hdr body prep =>
    exact (prepared_kept prep hl).trans (connSendSimple_kept (prepared_kept prep hl).linked env code hdr body false)
  | stream prep => exact (prepared_kept prep hl).trans (sendLiveSse_kept (prepared_kept prep hl).linked env)

theorem connRequestDispatch_kept {x : Ctx σ} (hl : Linked x.c) (env : Env σ) :
    Kept x (connRequestDispatch env x) := by
  unfold connRequestDispatch
  split
  · exact .refl hl
  · rename_i k _
    split
    · exact .refl hl
    · have noted : Kept x { x with c := { x.c with
          trace := x.c.trace ++ [.dispatched k (x.c.objs k)] } } :=
        .of_eq (hl.of_eq rfl) rfl rfl rfl
          (fun h => h) (.refl _) (List.prefix_append _ _)
      exact noted.trans (answer_kept (dispatchReq_answer _ _ _) noted.linked)

def Assembled (c d : Conn σ) : Prop :=
  ∃ a o st, Allocs c.arena a ∧ d = { c with arena := a, objs := o, stage := st }

theorem Assembled.refl (c : Conn σ) : Assembled c c := ⟨_, _, _, .refl _, rfl⟩

theorem Assembled.trans {c d e : Conn σ} (h₁ : Assembled c d) (h₂ : Assembled d e) :
    Assembled c e := by
  obtain ⟨a, o, st, all, rfl⟩ := h₁
  obtain ⟨a', o', st', all', rfl⟩ := h₂
  exact ⟨a', o', st', all.trans all', rfl⟩

theorem Assembled.linked {c d : Conn σ} (h : Assembled c d) (hl : Linked c) : Linked d := by
  obtain ⟨a, o, st, all, rfl⟩ := h
  exact (hl.of_eq rfl)

theorem Assembled.loose {x : Ctx σ} {d : Conn σ} (h : Assembled x.c d) (hl : Linked x.c) :
    Loose x { x with c := d } := by
  have linked := h.linked hl
  obtain ⟨a, o, st, all, rfl⟩ := h
  exact .of_eq linked rfl rfl (fun h => h) all List.prefix_rfl

theorem reqFinishHeaders_assembled (c : Conn σ) : Assembled c (reqFinishHeaders c) := by
  unfold reqFinishHeaders
  split
  · exact .refl c
  · dsimp only
    split
    · exact .refl c
    · split
      · exact ⟨_, _, _, .refl _, rfl⟩
      · split
        · exact ⟨_, _, _, .refl _, rfl⟩
        · have copied := (arenaStrndup_allocs c.arena c.stage.fSb).trans
            (arenaStrndup_allocs (arenaStrndup c.arena c.stage.fSb).2 c.stage.vSb)
          split <;> exact ⟨_, _, _, copied, rfl⟩

theorem badRequest_assembled (code : ℕ) (c : Conn σ) : Assembled c (badRequest code c) :=
  ⟨_, _, _, .refl _, rfl⟩

theorem onUrl_assembled (c : Conn σ) (s : Bytes) : Assembled c (onUrl c s).1 := by
  unfold onUrl
  split
  · exact badRequest_assembled _ c
  · exact ⟨_, _, _, .refl _, rfl⟩

theorem onHeaderField_assembled (c : Conn σ) (s : Bytes) : Assembled c (onHeaderField c s).1 := by
  unfold onHeaderField
  split
  · exact .refl c
  · have committed : Assembled c
        (if c.stage.fSb ≠ [] ∨ c.stage.vSb ≠ [] then reqFinishHeaders c else c) := by
      split
      · exact reqFinishHeaders_assembled c
      · exact .refl c
    dsimp only
    generalize (if c.stage.fSb ≠ [] ∨ c.stage.vSb ≠ [] then reqFinishHeaders c else c) = d
      at committed ⊢
    split
    · exact committed
    · split
      · exact committed.trans (badRequest_assembled _ _)
      · exact committed.trans ⟨_, _, _, .refl _, rfl⟩

theorem onHeaderValue_assembled (c : Conn σ) (s : Bytes) : Assembled c (onHeaderValue c s).1 := by
  unfold onHeaderValue
  split
  · exact .refl c
  · split
    · exact badRequest_assembled _ c
    · exact ⟨_, _, _, .refl _, rfl⟩

theorem bodyBuffer_assembled (c : Conn σ) (k n : ℕ) : Assembled c (bodyBuffer c k n).1 := by
  unfold bodyBuffer
  split <;> exact ⟨_, _, _, .one ‹_›, rfl⟩

theorem onBody_assembled (env : Env σ) (c : Conn σ) (s : Bytes) :
    Assembled c (onBody env c s).1 := by
  unfold onBody
  split
  · exact .refl c
  · dsimp only
    split
    · exact badRequest_assembled _ c
    · split
      · split <;> exact ⟨_, _, _, .one ‹_›, rfl⟩
      · exact ⟨_, _, _, .refl _, rfl⟩

theorem completeReq_assembled (c : Conn σ) : Assembled c (completeReq c).1 := by
  unfold completeReq
  split
  · exact .refl c
  · exact ⟨_, _, _, takeTarget_allocs _ _ _ _, rfl⟩

theorem onMessageBegin_loose {x : Ctx σ} (hl : Linked x.c) (env : Env σ) :
    Loose x (onMessageBegin env x).1 := by
  unfold onMessageBegin
  split
  · exact (.of_eq (hl.of_eq rfl) rfl rfl (fun h => h) (.refl _)
        List.prefix_rfl)
  · have ready : Allocs x.c.arena (if x.c.arena.chunks.isEmpty then
        arenaInit x.c.arena env.cfg.requestArenaFirst env.cfg.requestArenaCap else x.c.arena) := by
      split
      · exact .init (.refl _) ‹_› _ _
      · exact .refl _
    dsimp only
    split
    · exact .of_eq (hl.of_eq rfl) rfl rfl
        (fun h => h) (ready.trans (.one ‹_›)) List.prefix_rfl
    · exact .of_eq ⟨hl.queued, hl.closeCb, hl.finalized, hl.reading, hl.writes, by simp⟩ rfl rfl
        (fun h => h) (ready.trans (.one ‹_›)) List.prefix_rfl

theorem onHeadersComplete_cases (env : Env σ) (x : Ctx σ) (n : ℕ) (chunked : Bool) :
    ∃ d, Assembled x.c d ∧ (onHeadersComplete env x n chunked = ({ x with c := d }, false) ∨
      onHeadersComplete env x n chunked = ({ x with c := { d with
        phase := .body, deadline := x.srv.now + env.cfg.bodyTimeoutMs } }, true)) := by
  have finished := reqFinishHeaders_assembled x.c
  unfold onHeadersComplete
  split
  · exact ⟨_, .refl _, .inl rfl⟩
  · dsimp only
    split
    · exact ⟨_, finished, .inl rfl⟩
    · split
      · exact ⟨_, finished, .inl rfl⟩
      · rename_i k _
        split
        · exact ⟨_, finished.trans (badRequest_assembled _ _), .inl rfl⟩
        · have buffered : Assembled x.c (if 0 < n then bodyBuffer (reqFinishHeaders x.c) k n
              else if chunked = true then bodyBuffer (reqFinishHeaders x.c) k 4096
              else (reqFinishHeaders x.c, true)).1 := by
            split
            · exact finished.trans (bodyBuffer_assembled _ _ _)
            · split
              · exact finished.trans (bodyBuffer_assembled _ _ _)
              · exact finished
          split <;> rename_i h <;> rw [h] at buffered
          · exact ⟨_, buffered, .inl rfl⟩
          · exact ⟨_, buffered, .inr rfl⟩

theorem onHeadersComplete_loose {x : Ctx σ} (hl : Linked x.c) (env : Env σ) (n : ℕ)
    (chunked : Bool) : Loose x (onHeadersComplete env x n chunked).1 := by
  obtain ⟨d, assembled, e | e⟩ := onHeadersComplete_cases env x n chunked <;> rw [e]
  · exact assembled.loose hl
  · have l := assembled.linked hl
    exact (assembled.loose hl).trans (.of_eq
      ⟨l.queued, l.closeCb, l.finalized, l.reading, l.writes, by simp⟩ rfl rfl (fun h => h) (.refl _)
      List.prefix_rfl)

theorem onMessageComplete_loose {x : Ctx σ} (hl : Linked x.c) (env : Env σ) (keepAlive : Bool) :
    Loose x (onMessageComplete env x keepAlive).1 := by
  have kept : Loose x { x with c := { x.c with keepAlive := keepAlive } } :=
    (.of_eq (hl.of_eq rfl) rfl rfl (fun h => h) (.refl _)
        List.prefix_rfl)
  have completed := kept.trans ((completeReq_assembled { x.c with keepAlive := keepAlive }).loose
    kept.linked)
  unfold onMessageComplete
  dsimp only
  split
  · exact completed.trans ((badRequest_assembled _ _).loose completed.linked)
  · have counted := completed.trans (stat_kept completed.linked fun s =>
      { s with activeReqs := s.activeReqs + 1, totalReqs := s.totalReqs + 1 }).toLoose
    have dispatched := counted.trans (connRequestDispatch_kept counted.linked env).toLoose
    have l := dispatched.linked
    exact dispatched.trans
      (.of_eq (l.of_eq rfl) rfl rfl (fun h => h) (.refl _)
        List.prefix_rfl)

theorem onEvent_loose {x : Ctx σ} (hl : Linked x.c) (env : Env σ) (ev : HttpEvent) :
    Loose x (onEvent env x ev).1 := by
  cases ev with
  | span k s =>
    cases k with
    | url => exact (onUrl_assembled x.c s).loose hl
    | field => exact (onHeaderField_assembled x.c s).loose hl
    | value => exact (onHeaderValue_assembled x.c s).loose hl
    | body => exact (onBody_assembled env x.c s).loose hl
  | mark m =>
    cases m with
    | messageBegin => exact onMessageBegin_loose hl env
    | method name =>
      exact (.of_eq (hl.of_eq rfl) rfl rfl (fun h => h) (.refl _)
        List.prefix_rfl)
    | headersComplete n chunked => exact onHeadersComplete_loose hl env n chunked
    | messageComplete keepAlive => exact onMessageComplete_loose hl env keepAlive
  | fail e => exact .refl hl

theorem runEvents_loose {x : Ctx σ} (hl : Linked x.c) (env : Env σ) (evs : List (ℕ × HttpEvent)) :
    Loose x (runEvents env evs x).1 := by
  induction evs generalizing x with
  | nil => exact .refl hl
  | cons ev rest ih =>
    obtain ⟨pos, ev⟩ := ev
    have first := onEvent_loose hl env ev
    unfold runEvents
    split <;> rename_i h <;> rw [h] at first
    · exact first.trans (ih first.linked)
    · have l := first.linked
      exact first.trans
        (.of_eq (l.of_eq rfl) rfl rfl (fun h => h) (.refl _)
        List.prefix_rfl)

def Calm (p q : Parser σ) : Prop :=
  q.errorPos = p.errorPos ∧ q.state = p.state ∧
    (q.error = p.error ∨ p.error = .ok ∧ q.error = .paused)

theorem Calm.refl (p : Parser σ) : Calm p p := ⟨rfl, rfl, .inl rfl⟩

theorem Calm.of_eq {p q : Parser σ} (h : q = p) : Calm p q := h ▸ .refl p

theorem Calm.trans {p q r : Parser σ} (h₁ : Calm p q) (h₂ : Calm q r) : Calm p r := by
  refine ⟨h₂.1.trans h₁.1, h₂.2.1.trans h₁.2.1, ?_⟩
  obtain e | ⟨e, e'⟩ := h₂.2.2
  · rw [e]
    exact h₁.2.2
  · obtain f | ⟨_, f⟩ := h₁.2.2
    · exact .inr ⟨f ▸ e, e'⟩
    · rw [f] at e
      cases e

theorem llhttpPause_calm (p : Parser σ) : Calm p (llhttpPause p) := by
  unfold llhttpPause
  split
  · exact .refl p
  · exact ⟨rfl, rfl, .inr ⟨not_not.mp ‹_›, rfl⟩⟩

theorem Assembled.parser {c d : Conn σ} (h : Assembled c d) : d.parser = c.parser := by
  obtain ⟨a, o, st, _, rfl⟩ := h
  rfl

theorem onMessageBegin_errno (env : Env σ) (x : Ctx σ) :
    (onMessageBegin env x).1.c.parser = x.c.parser := by
  unfold onMessageBegin
  split
  · rfl
  · dsimp only
    split <;> rfl

theorem onHeadersComplete_errno (env : Env σ) (x : Ctx σ) (n : ℕ) (chunked : Bool) :
    (onHeadersComplete env x n chunked).1.c.parser = x.c.parser := by
  obtain ⟨d, assembled, e | e⟩ := onHeadersComplete_cases env x n chunked <;> rw [e]
  · exact assembled.parser
  · exact assembled.parser

theorem onMessageComplete_calm {x : Ctx σ} (hl : Linked x.c) (env : Env σ) (keepAlive : Bool) :
    Calm x.c.parser (onMessageComplete env x keepAlive).1.c.parser := by
  have completed := completeReq_assembled { x.c with keepAlive := keepAlive }
  have linked := completed.linked (hl.of_eq rfl)
  unfold onMessageComplete
  dsimp only
  split
  · exact .of_eq completed.parser
  · refine (Calm.of_eq ?_).trans (llhttpPause_calm _)
    rw [(connRequestDispatch_kept _ env).parser]
    · exact completed.parser
    · exact linked

theorem onEvent_calm {x : Ctx σ} (hl : Linked x.c) (env : Env σ) (ev : HttpEvent) :
    Calm x.c.parser (onEvent env x ev).1.c.parser := by
  cases ev with
  | span k s =>
    cases k with
    | url => exact .of_eq (onUrl_assembled x.c s).parser
    | field => exact .of_eq (onHeaderField_assembled x.c s).parser
    | value => exact .of_eq (onHeaderValue_assembled x.c s).parser
    | body => exact .of_eq (onBody_assembled env x.c s).parser
  | mark m =>
    cases m with
    | messageBegin => exact .of_eq (onMessageBegin_errno env x)
    | method name => exact ⟨rfl, rfl, .inl rfl⟩
    | headersComplete n chunked => exact .of_eq (onHeadersComplete_errno env x n chunked)
    | messageComplete keepAlive => exact onMessageComplete_calm hl env keepAlive
  | fail e => exact .refl _

theorem runEvents_true {env : Env σ} {evs : List (ℕ × HttpEvent)} {x y : Ctx σ} (hl : Linked x.c)
    (h : runEvents env evs x = (y, true)) : Calm x.c.parser y.c.parser := by
  induction evs generalizing x with
  | nil =>
    cases h
    exact .refl _
  | cons ev rest ih =>
    obtain ⟨pos, ev⟩ := ev
    have first := onEvent_calm hl env ev
    have linked := (onEvent_loose hl env ev).linked
    rw [runEvents] at h
    split at h <;> rename_i hz <;> rw [hz] at first linked
    · exact first.trans (ih linked h)
    · cases h

theorem runEvents_false {env : Env σ} {evs : List (ℕ × HttpEvent)} {x y : Ctx σ}
    (h : runEvents env evs x = (y, false)) :
    ∃ e, y.c.parser.error = .bad e ∧ ∃ ev ∈ evs, y.c.parser.errorPos = some ev.1 := by
  induction evs generalizing x with
  | nil => cases h
  | cons ev rest ih =>
    obtain ⟨pos, ev⟩ := ev
    rw [runEvents] at h
    split at h
    · obtain ⟨e, he, q, hq, hp⟩ := ih h
      exact ⟨e, he, q, List.mem_cons_of_mem _ hq, hp⟩
    · cases h
      exact ⟨_, rfl, _, List.mem_cons_self, rfl⟩

@[simp] theorem connCloseAndFree_pool {x : Ctx σ} (hl : Linked x.c) :
    (connCloseAndFree x).srv.pool = x.srv.pool := by
  cases h : x.c.closing with
  | true => rw [connCloseAndFree_closing h]
  | false =>
    obtain ⟨o, clients, st, e⟩ := connCloseAndFree_open hl h
    rw [e]

theorem connCloseGraceful_seated {x : Ctx σ} (hl : Linked x.c) : Seated x (connCloseGraceful x) := by
  unfold connCloseGraceful
  split
  · exact .refl hl
  · rename_i h
    have h : x.c.closing = false := by simpa using h
    exact (.of_eq ⟨hl.queued, hl.closeCb, hl.finalized, fun _ => h, hl.writes, by simp [readStart]⟩ rfl)

/-- `llhttp_execute` first notes what it was given. -/
def noteExec (x : Ctx σ) (data : Bytes) : Ctx σ :=
  { x with c := { x.c with buf := { x.c.buf with
      execs := x.c.buf.execs ++ [(data, x.c.buf.rx.drop x.c.buf.parsed.length)] } } }

theorem llhttpExecute_cases (env : Env σ) (x : Ctx σ) (data : Bytes) :
    x.c.parser.error ≠ .ok ∧ llhttpExecute env x data = (x.c.parser.error, noteExec x data) ∨
    (x.c.parser.error = .ok ∧ ∃ y, runEvents env (env.llhttp.buffer x.c.parser.state data).1
        (noteExec x data) = (y, true) ∧
      llhttpExecute env x data = (.ok, { y with c := { y.c with parser := { y.c.parser with
        state := (env.llhttp.buffer x.c.parser.state data).2.1 } } })) ∨
    (x.c.parser.error = .ok ∧ ∃ y, runEvents env (env.llhttp.buffer x.c.parser.state data).1
        (noteExec x data) = (y, false) ∧
      llhttpExecute env x data = (y.c.parser.error, y)) := by
  unfold llhttpExecute
  dsimp only
  split
  · exact .inl ⟨‹_›, rfl⟩
  · rename_i h
    have h : x.c.parser.error = .ok := not_not.mp h
    right
    split
    · exact .inl ⟨h, _, by assumption, rfl⟩
    · exact .inr ⟨h, _, by assumption, rfl⟩

theorem noteExec_housed {x : Ctx σ} (hl : Linked x.c) (data : Bytes) : Housed x (noteExec x data) :=
  .of_eq (hl.of_eq rfl) rfl rfl (fun h => h) (.refl _) List.prefix_rfl

theorem llhttpExecute_housed {x : Ctx σ} (hl : Linked x.c) (env : Env σ) (data : Bytes) :
    Housed x (llhttpExecute env x data).2 := by
  have noted := noteExec_housed hl data
  have ran := noted.trans (runEvents_loose noted.linked env
    (env.llhttp.buffer x.c.parser.state data).1).toHoused
  obtain ⟨_, e⟩ | ⟨_, y, hy, e⟩ | ⟨_, y, hy, e⟩ := llhttpExecute_cases env x data
  · rw [e]
    exact noted
  · rw [hy] at ran
    rw [e]
    exact ran.trans (.of_eq (ran.linked.of_eq rfl) rfl rfl (fun h => h) (.refl _) List.prefix_rfl)
  · rw [hy] at ran
    rw [e]
    exact ran

theorem rejectRequest_housed {x : Ctx σ} (hl : Linked x.c) (env : Env σ) (code : ℕ)
    (reason : Bytes) : Housed x (rejectRequest env x code reason) := by
  have noted : Housed x { x with c := { x.c with
      forceClose := true, trace := x.c.trace ++ [.rejected code] } } :=
    .of_eq (hl.of_eq rfl) rfl rfl (fun h => h) (.refl _) (List.prefix_append _ _)
  exact noted.trans (connSendSimple_kept noted.linked env code none reason true).toHoused

theorem setConsumed_housed {x : Ctx σ} (hl : Linked x.c) (data : Bytes) (n : ℕ) :
    Housed x (setConsumed x data n) :=
  .of_eq (hl.of_eq rfl) rfl rfl (fun h => h) (.refl _) List.prefix_rfl

theorem connAllocCb_housed {x : Ctx σ} (hl : Linked x.c) (env : Env σ) :
    Housed x (connAllocCb env x).2 := by
  unfold connAllocCb
  split
  · exact .refl hl
  · exact .of_eq (hl.of_eq rfl) rfl rfl (fun h => h) (.refl _) List.prefix_rfl

theorem received_housed {x : Ctx σ} (hl : Linked x.c) (data : Bytes) : Housed x (received x data) :=
  .of_eq (hl.of_eq rfl) rfl rfl (fun h => h) (.refl _) List.prefix_rfl

theorem readFrom_housed {x : Ctx σ} (hl : Linked x.c) (env : Env σ) : Housed x (readFrom env x) := by
  unfold readFrom
  split
  · split
    · exact (connCloseAndFree_kept hl).toHoused
    · exact .refl hl
  · have ran := llhttpExecute_housed hl env x.c.buf.mem
    dsimp only
    split <;> rename_i h <;> rw [h] at ran
    · exact ran.trans (setConsumed_housed ran.linked _ _)
    · have l := ran.linked
      exact ran.trans (.of_eq ⟨l.queued, l.closeCb, l.finalized, fun h => (by cases h), l.writes,
        l.phase⟩ rfl rfl (fun h => h) (.refl _) List.prefix_rfl)
    · refine (ran.trans (setConsumed_housed ran.linked _ _)).trans (rejectRequest_housed ?_ env _ _)
      exact (setConsumed_housed ran.linked _ _).linked

theorem connOnRead_housed {x : Ctx σ} (hl : Linked x.c) (env : Env σ) (data : Bytes) :
    Housed x (connOnRead env x data) := by
  unfold connOnRead
  exact (received_housed hl data).trans (readFrom_housed (received_housed hl data).linked env)

end Cerco.ConnFrames
