import Cerco.ConnFrames

set_option autoImplicit false

/-!
# Invariants of the server, one connection at a time

A step of the server works on one connection and on what the pool holds of it.
`ConnRules` lists what has to be checked of a property of one connection and its
requests in the pool; `ConnRules.reach` turns that into an invariant of all runs.
-/
namespace Cerco.ServerRules
open Cerco.Alloc Cerco.CString Cerco.Request Cerco.Response Cerco.Connection Cerco.Dispatch
open Cerco.HttpCallbacks Cerco.Server Cerco.WorkerPool Cerco.TransitionRuns Cerco.ConnFrames
open Cerco.ArenaUse Cerco.RingBuffer Cerco.Responders

variable {σ : Type}

theorem popWrite_linked {c : Conn σ} (hl : Linked c) : Linked (popWrite c) :=
  ⟨hl.queued, hl.closeCb, hl.finalized, hl.reading, by simp [popWrite, hl.writes], hl.phase⟩

theorem readStart_linked {c : Conn σ} (hl : Linked c) : Linked (readStart c) := by
  refine ⟨hl.queued, hl.closeCb, hl.finalized, fun h => ?_, hl.writes, hl.phase⟩
  change (!c.closeQueued) = true at h
  change c.closing = false
  rw [← hl.queued]
  simpa using h

theorem readStart_housed {x : Ctx σ} (hl : Linked x.c) : Housed x { x with c := readStart x.c } :=
  .of_eq (readStart_linked hl) rfl rfl (fun h => h) (.refl _) List.prefix_rfl

theorem resumeFrom_housed {x : Ctx σ} (hl : Linked x.c) (env : Env σ) :
    Housed x (resumeFrom env x) := by
  unfold resumeFrom
  dsimp only
  split
  · have ran := llhttpExecute_housed hl env x.c.buf.mem
    split <;> rename_i h <;> rw [h] at ran
    · exact (ran.trans (setConsumed_housed ran.linked _ _)).trans
        (readStart_housed (setConsumed_housed ran.linked _ _).linked)
    · exact (ran.trans (setConsumed_housed ran.linked _ _)).trans
        (readStart_housed (setConsumed_housed ran.linked _ _).linked)
    · exact ran.trans (rejectRequest_housed ran.linked env _ _)
  · exact readStart_housed hl

theorem countAnswered_kept {x : Ctx σ} (hl : Linked x.c) : Kept x (countAnswered x) :=
  stat_kept hl _

def rearmed (env : Env σ) (x : Ctx σ) : Ctx σ :=
  { connIdle env x with c := nextRequest (connIdle env x).c }

theorem rearmed_seated {x : Ctx σ} (hl : Linked x.c) (env : Env σ) : Seated x (rearmed env x) :=
  .of_eq ⟨hl.queued, hl.closeCb, hl.finalized, hl.reading, hl.writes, by
    change Phase.idle ≠ .work
    decide⟩ rfl

theorem afterResponse_cases {x : Ctx σ} (hl : Linked x.c) (env : Env σ) (ok : Bool) :
    ok = false ∧ afterResponse env x ok = connCloseAndFree (countAnswered x) ∨
    (ok = true ∧ x.c.closing = true ∧
      afterResponse env x ok = { countAnswered x with c := { x.c with req := none } }) ∨
    (ok = true ∧ x.c.closing = false ∧ (x.c.forceClose = true ∨ x.c.keepAlive = false) ∧
      afterResponse env x ok = connCloseGraceful (countAnswered x)) ∨
    (ok = true ∧ x.c.closing = false ∧ x.c.forceClose = false ∧ x.c.keepAlive = true ∧
      afterResponse env x ok = resumeFrom env (rearmed env (countAnswered x))) := by
  have counted := countAnswered_kept hl
  unfold afterResponse
  dsimp only
  cases ok with
  | false =>
    left
    rw [if_pos (by rfl), connMaybeFinalize_linked (connCloseAndFree_kept counted.linked).linked]
    exact ⟨rfl, rfl⟩
  | true =>
    right
    have same : (countAnswered x).c = x.c := rfl
    rw [if_neg (by simp), same]
    by_cases hc : x.c.closing = true
    · left
      have cleared : Linked { x.c with req := none } := hl.of_eq rfl
      rw [if_pos hc, connMaybeFinalize_linked (by exact cleared)]
      exact ⟨rfl, hc, rfl⟩
    · right
      rw [if_neg hc]
      rw [Bool.not_eq_true] at hc
      cases hf : x.c.forceClose with
      | true =>
        left
        rw [if_pos (by rfl)]
        exact ⟨rfl, hc, .inl rfl, rfl⟩
      | false =>
        cases hk : x.c.keepAlive with
        | false =>
          left
          rw [if_pos (by rfl)]
          exact ⟨rfl, hc, .inr rfl, rfl⟩
        | true =>
          right
          rw [if_neg (by simp)]
          exact ⟨rfl, hc, rfl, rfl, rfl⟩

theorem popped_housed {x : Ctx σ} (hl : Linked x.c) : Housed x (popped x) :=
  .of_eq (popWrite_linked hl) rfl rfl (fun h => h) (.refl _) List.prefix_rfl

theorem recover_housed {x : Ctx σ} (hl : Linked x.c) (env : Env σ) : Housed x (recover env x) := by
  refine .of_eq (readStart_linked (c := { (connIdle env x).c with
    statusSent := false
    stage := { x.c.stage with badRequest := 0 }
    buf := { x.c.buf with mem := [], filled := 0, consumed := 0 }
    parser := llhttpResume x.c.parser }) ?_) rfl rfl (fun h => h) (.refl _) List.prefix_rfl
  exact ⟨hl.queued, hl.closeCb, hl.finalized, hl.reading, hl.writes, by
    change Phase.idle ≠ .work
    decide⟩

theorem onSimpleWritten_cases {x : Ctx σ} (hl : Linked x.c) (env : Env σ) (ok : Bool) :
    x.c.closing = true ∧ onSimpleWritten env x ok = countAnswered (popped x) ∨
    (x.c.closing = false ∧ ok = false ∧
      onSimpleWritten env x ok = connCloseAndFree (countAnswered (popped x))) ∨
    (x.c.closing = false ∧ ok = true ∧ x.c.keepAlive = true ∧ x.c.forceClose = false ∧
      onSimpleWritten env x ok = recover env (countAnswered (popped x))) ∨
    (x.c.closing = false ∧ ok = true ∧ (x.c.forceClose = true ∨ x.c.keepAlive = false) ∧
      onSimpleWritten env x ok = connCloseGraceful (countAnswered (popped x))) := by
  have counted := countAnswered_kept (popped_housed hl).linked
  have same : (countAnswered (popped x)).c = popWrite x.c := rfl
  have closing : (popWrite x.c).closing = x.c.closing := rfl
  have finalized : (popWrite x.c).finalized = x.c.finalized := rfl
  have flags : ((popWrite x.c).keepAlive && !(popWrite x.c).forceClose) =
    (x.c.keepAlive && !x.c.forceClose) := rfl
  unfold onSimpleWritten
  dsimp only
  rw [same, closing, finalized, flags]
  by_cases hc : x.c.closing = true
  · left
    rw [if_pos (by simp [hc]), connMaybeFinalize_linked counted.linked]
    exact ⟨hc, rfl⟩
  · right
    have open_ : x.c.finalized = false := by
      by_contra hf
      exact hc (hl.finalized (by simpa using hf))
    rw [if_neg (by simp [hc, open_])]
    rw [Bool.not_eq_true] at hc
    cases ok with
    | false =>
      left
      rw [if_pos (by rfl)]
      exact ⟨hc, rfl, rfl⟩
    | true =>
      right
      rw [if_neg (by simp)]
      cases hk : x.c.keepAlive with
      | false =>
        right
        rw [if_neg (by simp)]
        exact ⟨hc, rfl, .inr rfl, rfl⟩
      | true =>
        cases hf : x.c.forceClose with
        | true =>
          right
          rw [if_neg (by simp)]
          exact ⟨hc, rfl, .inl rfl, rfl⟩
        | false =>
          left
          rw [if_pos (by rfl)]
          exact ⟨hc, rfl, rfl, rfl, rfl⟩

theorem onResponseWritten_eq {x : Ctx σ} (hl : Linked x.c) (env : Env σ) (ok : Bool) :
    onResponseWritten env x ok =
      if x.c.finalized then popped x else afterResponse env (popped x) ok := by
  unfold onResponseWritten
  dsimp only
  rw [connMaybeFinalize_linked (popped_housed hl).linked]
  change (if (!x.c.finalized) = true then _ else _) = _
  cases x.c.finalized <;> rfl

theorem connOnSseWritten_cases {x : Ctx σ} (hl : Linked x.c) (ok : Bool) :
    connOnSseWritten x ok = popped x ∨ connOnSseWritten x ok = connCloseAndFree (popped x) := by
  unfold connOnSseWritten
  dsimp only
  rw [connMaybeFinalize_linked (popped_housed hl).linked]
  split
  · exact .inr rfl
  · exact .inl rfl

theorem afterResponse_seated {x : Ctx σ} (hl : Linked x.c) (env : Env σ) (ok : Bool) :
    Seated x (afterResponse env x ok) := by
  have counted := (countAnswered_kept hl).toSeated
  obtain ⟨_, e⟩ | ⟨_, _, e⟩ | ⟨_, _, _, e⟩ | ⟨_, _, _, _, e⟩ := afterResponse_cases hl env ok <;> rw [e]
  · exact counted.trans (connCloseAndFree_kept counted.linked).toSeated
  · exact .of_eq (hl.of_eq rfl) rfl
  · exact counted.trans (connCloseGraceful_seated counted.linked)
  · have ready := rearmed_seated counted.linked env
    exact (counted.trans ready).trans (resumeFrom_housed ready.linked env).toSeated

theorem onWritten_seated {x : Ctx σ} (hl : Linked x.c) (env : Env σ) (kind : WriteKind)
    (ok : Bool) : Seated x (onWritten env x kind ok) := by
  have gone := (popped_housed hl).toSeated
  have counted := gone.trans (countAnswered_kept gone.linked).toSeated
  cases kind with
  | response k =>
    change Seated x (onResponseWritten env x ok)
    rw [onResponseWritten_eq hl]
    split
    · exact gone
    · exact gone.trans (afterResponse_seated gone.linked env ok)
  | simple =>
    change Seated x (onSimpleWritten env x ok)
    obtain ⟨_, e⟩ | ⟨_, _, e⟩ | ⟨_, _, _, _, e⟩ | ⟨_, _, _, e⟩ := onSimpleWritten_cases hl env ok <;>
      rw [e]
    · exact counted
    · exact counted.trans (connCloseAndFree_kept counted.linked).toSeated
    · exact counted.trans (recover_housed counted.linked env).toSeated
    · exact counted.trans (connCloseGraceful_seated counted.linked)
  | sse =>
    change Seated x (connOnSseWritten x ok)
    obtain e | e := connOnSseWritten_cases hl ok <;> rw [e]
    · exact gone
    · exact gone.trans (connCloseAndFree_kept gone.linked).toSeated

theorem connOnStreamClosed_eq {x : Ctx σ} (hl : Linked x.c) (hq : x.c.closeQueued = true)
    (hd : x.c.closeCbDone = false) (hw : x.c.writes = []) :
    connOnStreamClosed x = connFinalize { x with c := { x.c with closeCbDone := true } } := by
  have closing : x.c.closing = true := by rw [← hl.queued, hq]
  have finalized : x.c.finalized = false := by rw [← hl.closeCb, hd]
  have pending : x.c.pendingWrites = 0 := by rw [hl.writes, hw]; rfl
  have phase : (x.c.req.isSome && decide (x.c.phase = .work)) = false := by
    simp [hl.phase]
  unfold connOnStreamClosed connMaybeFinalize
  dsimp only
  rw [closing, finalized, pending, phase]
  rfl

theorem connFinalize_cases {x : Ctx σ} (hf : x.c.finalized = false) :
    ∃ srv a, (srv.conns, srv.nextConn, srv.pool) = (x.srv.conns, x.srv.nextConn, x.srv.pool) ∧
      (a = x.c.arena ∨ a = arenaReset x.c.arena ∨ a = arenaDestroy x.c.arena) ∧
      connFinalize x = { x with srv := srv, c := { x.c with
        finalized := true
        stage := { x.c.stage with fSb := [], vSb := [], urlSb := [] }
        buf := { x.c.buf with base := none }
        arena := a } } := by
  unfold connFinalize
  rw [hf, if_neg (by simp)]
  dsimp only
  split
  · refine ⟨_, _, ?_, ?_, rfl⟩
    · rfl
    · split
      · exact .inl rfl
      · exact .inr (.inl rfl)
  · refine ⟨_, _, ?_, ?_, rfl⟩
    · rfl
    · split
      · exact .inl rfl
      · exact .inr (.inr rfl)

theorem connOnStreamClosed_stays {x : Ctx σ} (hl : Linked x.c) (hq : x.c.closeQueued = true)
    (hd : x.c.closeCbDone = false) (hw : x.c.writes = []) :
    Stays x (connOnStreamClosed x) ∧ (connOnStreamClosed x).srv.pool = x.srv.pool := by
  have finalized : x.c.finalized = false := by rw [← hl.closeCb, hd]
  have closing : x.c.closing = true := by rw [← hl.queued, hq]
  obtain ⟨srv, a, hs, _, e⟩ := connFinalize_cases (x := { x with c := { x.c with
    closeCbDone := true } }) finalized
  rw [connOnStreamClosed_eq hl hq hd hw, e]
  simp only [Prod.mk.injEq] at hs
  refine ⟨.of_eq ⟨hl.queued, rfl, fun _ => closing, hl.reading, hl.writes, hl.phase⟩ ?_, hs.2.2⟩
  simp [hs]

theorem uvWrite_pool {x : Ctx σ} (hl : Linked x.c) (res : WriteRes) (w : WriteCtx) :
    (uvWrite x res w).srv.pool = x.srv.pool := by
  unfold uvWrite
  split
  · rfl
  · exact connCloseAndFree_pool hl

theorem connStartResponse_pool {x : Ctx σ} (hl : Linked x.c) (env : Env σ) (k : ℕ) :
    (connStartResponse env x k).srv.pool = x.srv.pool := by
  obtain ⟨srv, st, res, w, rfl, e⟩ := connStartResponse_cases env x k
  rw [e, uvWrite_pool]
  exact ⟨hl.queued, hl.closeCb, hl.finalized, hl.reading, hl.writes, by simp⟩

theorem connSendSimple_pool {x : Ctx σ} (hl : Linked x.c) (env : Env σ) (code : ℕ)
    (hdr : Option Bytes) (body : Bytes) (forceClose : Bool) :
    (connSendSimple env x code hdr body forceClose).srv.pool = x.srv.pool := by
  obtain e | ⟨srv, st, res, rfl, e⟩ := connSendSimple_cases env x code hdr body forceClose
  · rw [e]
    exact connCloseAndFree_pool (countWrite_kept hl).linked
  · rw [e, uvWrite_pool]
    exact hl.of_eq rfl

theorem connSseWrite_pool {x : Ctx σ} (hl : Linked x.c) (env : Env σ) (data : Bytes) :
    (connSseWrite env x data).srv.pool = x.srv.pool := by
  unfold connSseWrite
  dsimp only
  split
  · exact connCloseAndFree_pool (countWrite_kept hl).linked
  · exact uvWrite_pool (countWrite_kept hl).linked _ _

theorem forceClose_kept {x : Ctx σ} (hl : Linked x.c) :
    Kept x { x with c := { cancelReq x.c with forceClose := true } } := by
  obtain ⟨o, ho⟩ := cancelReq_objs x.c
  rw [ho]
  exact .of_eq (hl.of_eq rfl) rfl rfl rfl (fun h => h) (.refl _) List.prefix_rfl

theorem connDeadlinePass_kept {x : Ctx σ} (hl : Linked x.c) :
    Kept x (connDeadlinePass x) ∧ (connDeadlinePass x).srv.pool = x.srv.pool := by
  have forced := forceClose_kept hl
  unfold connDeadlinePass
  split
  · exact ⟨forced.trans (connCloseAndFree_kept forced.linked), connCloseAndFree_pool forced.linked⟩
  · exact ⟨.refl hl, rfl⟩

theorem shutdownConn_kept {x : Ctx σ} (hl : Linked x.c) :
    Kept x (shutdownConn x) ∧ (shutdownConn x).srv.pool = x.srv.pool := by
  unfold shutdownConn
  split
  · exact ⟨connCloseAndFree_kept hl, connCloseAndFree_pool hl⟩
  · split
    · exact ⟨forceClose_kept hl, rfl⟩
    · exact ⟨.refl hl, rfl⟩

theorem reloadConn_kept {x : Ctx σ} (hl : Linked x.c) (env : Env σ) :
    Kept x (reloadConn env x) ∧ (reloadConn env x).srv.pool = x.srv.pool := by
  unfold reloadConn
  split
  · exact ⟨.refl hl, rfl⟩
  · exact ⟨connSseWrite_kept hl env _, connSseWrite_pool hl env _⟩

theorem drainReq_split (env : Env σ) (x : Ctx σ) (k : ℕ) :
    (((x.c.objs k).cancelled || x.c.finalized || x.c.closing) = true ∧
      ∃ st, drainReq env x k = connMaybeFinalize { x with srv := { x.srv with stats := st } }) ∨
    (((x.c.objs k).cancelled || x.c.finalized || x.c.closing) = false ∧
      ∃ y, Prepared x y ∧ drainReq env x k = connStartResponse env y k) := by
  unfold drainReq
  dsimp only
  split
  · rename_i h
    exact .inl ⟨h, _, rfl⟩
  · rename_i h
    refine .inr ⟨Bool.not_eq_true _ ▸ h, _, ?_, rfl⟩
    exact (((((Prepared.refl x).stat _).stat _).withReq k checkResponse_allocs).withReq k
      applyPageTitle_allocs).withReq k (devInjectLiveScript_allocs env)

theorem drainReq_cases {x : Ctx σ} (hl : Linked x.c) (env : Env σ) (k : ℕ) :
    (((x.c.objs k).cancelled = true ∨ x.c.closing = true) ∧
      ∃ st, drainReq env x k = { x with srv := { x.srv with stats := st } }) ∨
    (x.c.closing = false ∧ ∃ y, Prepared x y ∧ drainReq env x k = connStartResponse env y k) := by
  obtain ⟨h, st, e⟩ | ⟨h, answered⟩ := drainReq_split env x k
  · left
    refine ⟨?_, st, e.trans (connMaybeFinalize_linked hl)⟩
    rw [Bool.or_eq_true, Bool.or_eq_true] at h
    obtain (h | h) | h := h
    · exact .inl h
    · exact .inr (hl.finalized h)
    · exact .inr h
  · rw [Bool.or_eq_false_iff] at h
    exact .inr ⟨h.2, answered⟩

theorem drainReq_kept {x : Ctx σ} (hl : Linked x.c) (env : Env σ) (k : ℕ) :
    Kept x (drainReq env x k) ∧ (drainReq env x k).srv.pool = x.srv.pool := by
  obtain ⟨_, st, e⟩ | ⟨_, y, prep, e⟩ := drainReq_cases hl env k <;> rw [e]
  · exact ⟨.of_eq hl rfl rfl rfl (fun h => h) (.refl _) List.prefix_rfl, rfl⟩
  · have ready := prepared_kept prep hl
    refine ⟨ready.trans (connStartResponse_kept ready.linked env k), ?_⟩
    rw [connStartResponse_pool ready.linked]
    obtain ⟨a, o, st, _, rfl⟩ := prep
    rfl

theorem readStep_cases {env : Env σ} {s t : Srv σ} {i : ℕ} {data : Bytes}
    (ht : readStep env s i data = some t) :
    i < s.nextConn ∧ ∃ room x, connAllocCb env (s.enter i) = (some room, x) ∧ t = (connOnRead env x data).done := by
  unfold readStep at ht
  split at ht
  · rename_i hg
    split at ht
    · rename_i room x hx
      split at ht
      · exact ⟨hg.1, room, x, hx, (Option.some.inj ht).symm⟩
      · cases ht
    · cases ht
  · cases ht

theorem writtenStep_cases {env : Env σ} {s t : Srv σ} {i : ℕ} {ok : Bool}
    (ht : writtenStep env s i ok = some t) :
    i < s.nextConn ∧ ∃ w rest, (s.conns i).writes = w :: rest ∧ t = (onWritten env (s.enter i) w.kind ok).done := by
  unfold writtenStep at ht
  split at ht
  · rename_i hg
    split at ht
    · rename_i w rest hw
      exact ⟨hg, w, rest, hw, (Option.some.inj ht).symm⟩
    · cases ht
  · cases ht

theorem read_stays {env : Env σ} {s : Srv σ} {i room : ℕ} {data : Bytes} {x : Ctx σ}
    (hl : Linked (s.conns i)) (hx : connAllocCb env (s.enter i) = (some room, x)) :
    Stays (s.enter i) (connOnRead env x data) := by
  have buffered := connAllocCb_housed (x := s.enter i) hl env
  rw [hx] at buffered
  exact (buffered.trans (connOnRead_housed buffered.linked env data)).toStays

structure SrvInv (C : ℕ) (L : Multiset ReqRef → Conn σ → Prop) (s : Srv σ) : Prop where
  wired : Wired C s.pool
  unborn : ∀ i, s.nextConn ≤ i → mine s.pool i = 0
  linked : ∀ i, Linked (s.conns i)
  each : ∀ i, L (mine s.pool i) (s.conns i)

/-- What to check of `L` so that it holds of every connection in every run. -/
structure ConnRules (env : Env σ) (ok : Srv σ → Step → Prop)
    (L : Multiset ReqRef → Conn σ → Prop) : Prop where
  fresh : ∀ i now, L 0 (freshConn env i now)
  accept : ∀ i now, L 0 (readStart (freshConn env i now))
  busy : ∀ (x : Ctx σ) now, x.c = freshConn env x.id now →
    L 0 (connSendSimple env x 503 none (ascii "server busy\n") true).c
  read : ∀ s i data room x, ok s (.read i data) → Wired env.cfg.workQueue s.pool →
    Linked (s.conns i) → L (mine s.pool i) (s.conns i) → (s.conns i).reading = true →
    connAllocCb env (s.enter i) = (some room, x) → data ≠ [] → data.length ≤ room →
    L (mine (connOnRead env x data).srv.pool i) (connOnRead env x data).c
  readEnd : ∀ m (x : Ctx σ), Linked x.c → L m x.c → x.c.reading = true →
    L m (connCloseAndFree (connAllocCb env x).2).c
  written : ∀ s i b w rest, ok s (.written i b) → Wired env.cfg.workQueue s.pool →
    Linked (s.conns i) → L (mine s.pool i) (s.conns i) → (s.conns i).writes = w :: rest →
    L (mine (onWritten env (s.enter i) w.kind b).srv.pool i) (onWritten env (s.enter i) w.kind b).c
  closed : ∀ s i, ok s (.closed i) → Linked (s.conns i) → L (mine s.pool i) (s.conns i) →
    (s.conns i).closeQueued = true → (s.conns i).closeCbDone = false → (s.conns i).writes = [] →
    L (mine s.pool i) (connOnStreamClosed (s.enter i)).c
  deadline : ∀ m (x : Ctx σ), Linked x.c → L m x.c → L m (connDeadlinePass x).c
  shutdown : ∀ m (x : Ctx σ), Linked x.c → L m x.c → L m (shutdownConn x).c
  reload : ∀ m (x : Ctx σ), Linked x.c → L m x.c → L m (reloadConn env x).c
  handler : ∀ m (x : Ctx σ) k calls, Linked x.c → L m x.c → L m (x.withReq k (handlerRun calls)).c
  -- without room the completion ring forgets or repeats requests
  finish : (∀ s w calls, ok s (.finish w calls) → s.pool.pool.done.count < s.pool.pool.done.cap) ∨
    ∀ m m' (c : Conn σ), (∀ r ∈ m', r ∈ m) → L m c → L m' c
  drain : ∀ m ref (x : Ctx σ), Linked x.c → L ({ref} + m) x.c → L m (drainReq env x ref.req).c

section Rules
variable {env : Env σ} {ok : Srv σ → Step → Prop} {C : ℕ} {L : Multiset ReqRef → Conn σ → Prop}

theorem SrvInv.put {x y : Ctx σ} (wired : Wired C x.srv.pool)
    (unborn : ∀ i, x.srv.nextConn ≤ i → mine x.srv.pool i = 0)
    (linked : ∀ i, i ≠ x.id → Linked (x.srv.conns i))
    (rest : ∀ i, i ≠ x.id → L (mine x.srv.pool i) (x.srv.conns i)) (stays : Stays x y)
    (born : x.id < x.srv.nextConn ∨ y.srv.pool = x.srv.pool) (hL : L (mine y.srv.pool x.id) y.c) :
    SrvInv C L y.done := by
  have conns := stays.done_conns
  refine ⟨stays.wired C wired, fun i hi => ?_, fun i => ?_, fun i => ?_⟩
  · have hi : x.srv.nextConn ≤ i := stays.nextConn ▸ hi
    change mine y.srv.pool i = 0
    by_cases own : i = x.id
    · obtain lt | same := born
      · omega
      · rw [same, unborn i hi]
    · rw [stays.others C wired i own, unborn i hi]
  · rw [conns]
    split
    · exact stays.linked
    · exact linked i ‹_›
  · rw [conns]
    change L (mine y.srv.pool i) _
    split
    · rename_i own
      rw [own]
      exact hL
    · rename_i own
      rw [stays.others C wired i own]
      exact rest i own

theorem SrvInv.enter {s : Srv σ} (h : SrvInv C L s) {i : ℕ} {y : Ctx σ} (stays : Stays (s.enter i) y)
    (born : i < s.nextConn ∨ y.srv.pool = s.pool) (hL : L (mine y.srv.pool i) y.c) :
    SrvInv C L y.done :=
  .put (x := s.enter i) h.wired h.unborn (fun i _ => h.linked i) (fun i _ => h.each i) stays born hL

theorem SrvInv.eachConn {f : Ctx σ → Ctx σ}
    (hf : ∀ x : Ctx σ, Linked x.c → Kept x (f x) ∧ (f x).srv.pool = x.srv.pool)
    (hL : ∀ m (x : Ctx σ), Linked x.c → L m x.c → L m (f x).c) (ids : List ℕ) {s : Srv σ}
    (h : SrvInv C L s) : SrvInv C L (eachConn f ids s) := by
  unfold Server.eachConn
  induction ids generalizing s with
  | nil => exact h
  | cons i ids ih =>
    obtain ⟨kept, pool⟩ := hf (s.enter i) (h.linked i)
    refine ih (h.enter kept.toStays (.inr pool) ?_)
    rw [pool]
    exact hL _ (s.enter i) (h.linked i) (h.each i)

theorem freshConn_linked (env : Env σ) (i now : ℕ) : Linked (freshConn env i now) :=
  ⟨rfl, rfl, fun h => (by cases h), fun h => (by cases h), rfl, by
    change Phase.headers ≠ .work
    decide⟩

theorem ConnRules.start (rules : ConnRules env ok L) :
    SrvInv env.cfg.workQueue L (srvStart env) :=
  ⟨start_wired _, fun _ _ => rfl, fun i => freshConn_linked env i 0, fun i => rules.fresh i 0⟩

theorem ConnRules.acceptStep (rules : ConnRules env ok L) {s : Srv σ} (h : SrvInv C L s) :
    SrvInv C L (cercoConnectionCb env s) := by
  have fresh : Linked (accepted env s).c := freshConn_linked env s.nextConn s.now
  have none_yet : mine s.pool s.nextConn = 0 := h.unborn _ (Nat.le_refl _)
  have put : ∀ y, Stays (accepted env s) y → y.srv.pool = s.pool → L 0 y.c →
      SrvInv C L y.done := by
    intro y stays pool hL
    refine .put (x := accepted env s) h.wired (fun i hi => h.unborn i (Nat.le_of_succ_le hi))
      (fun i _ => h.linked i) (fun i _ => h.each i) stays (.inr pool) ?_
    change L (mine y.srv.pool s.nextConn) y.c
    rwa [pool, none_yet]
  unfold cercoConnectionCb
  split
  · exact h
  · dsimp only
    split
    · exact put _ (connSendSimple_kept fresh env 503 none (ascii "server busy\n") true).toStays
        (connSendSimple_pool fresh env 503 none (ascii "server busy\n") true)
        (rules.busy (accepted env s) s.now rfl)
    · exact put _ (readStart_housed fresh).toStays rfl (rules.accept _ _)

theorem SrvInv.takeJob {s t : Srv σ} {w : ℕ} (h : SrvInv C L s) (ht : takeJob env s w = some t) :
    SrvInv C L t := by
  obtain ⟨p, hp, rfl⟩ := Option.map_eq_some_iff.mp ht
  have same : held p = held s.pool := by
    obtain ⟨_, e, _⟩ | ⟨_, e, _⟩ | ⟨v, _, busy, rfl⟩ | ⟨_, _, e, _⟩ | ⟨e, _⟩ := poolStep_cases hp
    · cases e
    · cases e
    · exact held_take h.wired v busy
    · cases e
    · cases e
  have same : ∀ i, mine p i = mine s.pool i := fun i => by rw [mine, same, mine]
  exact ⟨wired_step h.wired hp, fun i hi => (same i).trans (h.unborn i hi), h.linked,
    fun i => (same i).symm ▸ h.each i⟩

theorem ConnRules.finishJob (rules : ConnRules env ok L) {s t : Srv σ} {w : ℕ}
    {calls : List ApiCall} (h : SrvInv C L s) (hok : ok s (.finish w calls))
    (ht : finishJob env s w calls = some t) : SrvInv C L t := by
  unfold Server.finishJob at ht
  split at ht
  · cases ht
  · rename_i job ref _
    obtain ⟨p, hp, rfl⟩ := Option.map_eq_some_iff.mp ht
    have kept := withReq_kept (h.linked ref.conn) (x := s.enter ref.conn) ref.req
      (handlerRun_allocs calls)
    have ran := h.enter kept.toStays (.inr rfl)
      (rules.handler _ (s.enter ref.conn) ref.req calls (h.linked _) (h.each _))
    have hp : poolStep env.cfg.workers s.pool (.pushDone w) = some p := hp
    have sub : ∀ r ∈ held p, r ∈ held s.pool := by
      intro r hr
      obtain hr | e := mem_held_step h.wired hp hr
      · exact hr
      · cases e
    have sub : ∀ i, ∀ r ∈ mine p i, r ∈ mine s.pool i := fun i r hr =>
      Multiset.mem_filter.mpr ⟨sub r (Multiset.mem_filter.mp hr).1, (Multiset.mem_filter.mp hr).2⟩
    refine ⟨wired_step h.wired hp, fun i hi => ?_, ran.linked, fun i => ?_⟩
    · refine Multiset.eq_zero_of_forall_notMem fun r hr => ?_
      have := sub i r hr
      rw [h.unborn i hi] at this
      exact Multiset.notMem_zero r this
    · obtain room | mono := rules.finish
      · have same : held p = held s.pool := by
          obtain ⟨_, e, _⟩ | ⟨_, e, _⟩ | ⟨_, e, _⟩ | ⟨_, _, _, perm, rfl⟩ | ⟨e, _⟩ := poolStep_cases hp
          · cases e
          · cases e
          · cases e
          · exact held_pushDone h.wired perm (room s w calls hok)
          · cases e
        have each := ran.each i
        change L (mine s.pool i) _ at each
        change L (mine p i) _
        rwa [mine, same]
      · exact mono _ _ _ (sub i) (ran.each i)

theorem ConnRules.drainJob (rules : ConnRules env ok L) {s t : Srv σ} (h : SrvInv C L s)
    (ht : drainJob env s = some t) : SrvInv C L t := by
  unfold Server.drainJob at ht
  split at ht
  · cases ht
  · rename_i ref q hq
    cases ht
    have hp : poolStep env.cfg.workers s.pool .drain = some (drainStep s.pool (ref, q)) := by
      rw [poolStep, hq]
      rfl
    have gone : held s.pool = {ref} + held (drainStep s.pool (ref, q)) := by
      unfold drainOne at hq
      split at hq
      · cases hq
      · rename_i ready
        cases hq
        exact held_drain h.wired _ (Nat.pos_of_ne_zero ready)
    have mine_gone : ∀ i, mine s.pool i =
        (if ref.conn = i then {ref} else 0) + mine (drainStep s.pool (ref, q)) i := by
      intro i
      rw [mine, gone, Multiset.filter_add, Multiset.filter_singleton]
      rfl
    have same : ∀ i, i ≠ ref.conn → mine (drainStep s.pool (ref, q)) i = mine s.pool i := by
      intro i hi
      rw [mine_gone, if_neg (Ne.symm hi), zero_add]
    obtain ⟨kept, pool⟩ := drainReq_kept (h.linked ref.conn)
      (x := ({ s with pool := drainStep s.pool (ref, q) } : Srv σ).enter ref.conn) env ref.req
    refine .put (x := ({ s with pool := drainStep s.pool (ref, q) } : Srv σ).enter ref.conn)
      (wired_step h.wired hp) (fun i hi => ?_) (fun i _ => h.linked i) (fun i hi => ?_) kept.toStays
      (.inr pool) ?_
    · refine Multiset.eq_zero_of_forall_notMem fun r hr => ?_
      have held : r ∈ mine s.pool i := by
        rw [mine_gone]
        exact Multiset.mem_add.mpr (.inr hr)
      rw [h.unborn i hi] at held
      exact Multiset.notMem_zero r held
    · change L (mine (drainStep s.pool (ref, q)) i) (s.conns i)
      rw [same i hi]
      exact h.each i
    · rw [pool]
      refine rules.drain _ ref _ (h.linked ref.conn) ?_
      have := h.each ref.conn
      rwa [mine_gone, if_pos rfl] at this

theorem ConnRules.step (rules : ConnRules env ok L) {s t : Srv σ} {a : Step}
    (h : SrvInv env.cfg.workQueue L s) (hok : ok s a) (ht : srvStep env s a = some t) :
    SrvInv env.cfg.workQueue L t := by
  unfold srvStep at ht
  split at ht
  · cases ht
  · cases a with
    | accept =>
      cases ht
      exact rules.acceptStep h
    | read i data =>
      simp only [readStep] at ht
      split at ht
      · rename_i hg
        split at ht
        · rename_i room x hx
          split at ht
          · rename_i hlen
            cases ht
            have linked := h.linked i
            have buffered := connAllocCb_housed (x := s.enter i) linked env
            rw [hx] at buffered
            exact h.enter (buffered.trans (connOnRead_housed buffered.linked env data)).toStays
              (.inl hg.1)
              (rules.read s i data room x hok h.wired linked (h.each i) hg.2.1 hx hg.2.2 hlen)
          · cases ht
        · cases ht
      · cases ht
    | readEnd i =>
      simp only [readEndStep] at ht
      split at ht
      · rename_i hg
        cases ht
        have buffered := connAllocCb_housed (x := s.enter i) (h.linked i) env
        refine h.enter (buffered.trans (connCloseAndFree_kept buffered.linked).toHoused).toStays
          (.inl hg.1) ?_
        have pool : (connAllocCb env (s.enter i)).2.srv.pool = s.pool := by
          unfold connAllocCb
          split <;> rfl
        rw [connCloseAndFree_pool buffered.linked, pool]
        exact rules.readEnd _ (s.enter i) (h.linked i) (h.each i) hg.2
      · cases ht
    | written i b =>
      simp only [writtenStep] at ht
      split at ht
      · rename_i hg
        split at ht
        · rename_i w rest hw
          cases ht
          exact h.enter (onWritten_seated (x := s.enter i) (h.linked i) env w.kind b).toStays (.inl hg)
            (rules.written s i b w rest hok h.wired (h.linked i) (h.each i) hw)
        · cases ht
      · cases ht
    | closed i =>
      simp only [closedStep] at ht
      split at ht
      · rename_i hg
        cases ht
        obtain ⟨stays, pool⟩ := connOnStreamClosed_stays (x := s.enter i) (h.linked i) hg.2.1
          hg.2.2.1 hg.2.2.2
        refine h.enter stays (.inl hg.1) ?_
        rw [pool]
        exact rules.closed s i hok (h.linked i) (h.each i) hg.2.1 hg.2.2.1 hg.2.2.2
      · cases ht
    | sweep =>
      cases ht
      exact h.eachConn (fun x => connDeadlinePass_kept) rules.deadline _
    | reload =>
      cases ht
      exact h.eachConn (fun x hl => reloadConn_kept hl env) rules.reload _
    | tick ms =>
      cases ht
      exact ⟨h.wired, h.unborn, h.linked, h.each⟩
    | take w => exact h.takeJob ht
    | finish w calls => exact rules.finishJob h hok ht
    | drain => exact rules.drainJob h ht
    | shutdown =>
      cases ht
      simp only [startShutdown]
      split
      · exact h
      · refine SrvInv.eachConn (fun x => shutdownConn_kept) rules.shutdown _ ?_
        exact ⟨h.wired, h.unborn, h.linked, h.each⟩

theorem ConnRules.reach (rules : ConnRules env ok L) {s : Srv σ} (h : Reach (server env) ok s) :
    SrvInv env.cfg.workQueue L s := by
  refine h.invariant (fun s hs => ?_) fun s a t hs hok ht => rules.step hs hok ht
  cases hs
  exact rules.start

end Rules

theorem trivial_rules (env : Env σ) (ok : Srv σ → Step → Prop) : ConnRules env ok fun _ _ => True where
  fresh _ _ := trivial
  accept _ _ := trivial
  busy _ _ _ := trivial
  read _ _ _ _ _ _ _ _ _ _ _ _ _ := trivial
  readEnd _ _ _ _ _ := trivial
  written _ _ _ _ _ _ _ _ _ _ := trivial
  closed _ _ _ _ _ _ _ _ := trivial
  deadline _ _ _ _ := trivial
  shutdown _ _ _ _ := trivial
  reload _ _ _ _ := trivial
  handler _ _ _ _ _ _ := trivial
  finish := .inr fun _ _ _ _ _ => trivial
  drain _ _ _ _ _ := trivial

theorem reach_linked {env : Env σ} {ok : Srv σ → Step → Prop} {s : Srv σ} (h : Reach (server env) ok s)
    (i : ℕ) : Linked (s.conns i) := ((trivial_rules env ok).reach h).linked i

end Cerco.ServerRules
