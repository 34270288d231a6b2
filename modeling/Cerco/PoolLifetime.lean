import Cerco.RequestGrammar
import Cerco.ServerRules

set_option autoImplicit false

/-!
# The life of a request that a worker holds

A reference in the pool stays good as long as its connection is not torn down
and its arena not rewound. Teardown asks for `CERCO_PHASE_WORK`, which nothing
sets, so it does not wait for the worker; the close callback and the end of a
write are the two places where that matters.
-/
namespace Cerco.PoolLifetime
open Cerco.Alloc Cerco.CString Cerco.Connection Cerco.Dispatch Cerco.HttpCallbacks Cerco.Server
open Cerco.WorkerPool Cerco.TransitionRuns Cerco.ConnFrames Cerco.ServerRules Cerco.RequestGrammar
open Cerco.ArenaUse Cerco.Router

variable {σ : Type}

/-- A connection that still houses the requests `m`: not torn down, and in the
arena they were made in. -/
def Houses (m : Multiset ReqRef) (c : Conn σ) : Prop :=
  ∀ ref ∈ m, c.finalized = false ∧ c.arena.epoch = ref.epoch

/-- The write at the head of the queue, once reported, rewinds the arena: the end
of a response always does, the end of a simple answer when the connection closes. -/
def rewinds (c : Conn σ) (ok : Bool) : Prop :=
  ok = true ∧ c.closing = false ∧
    match c.writes.head?.map WriteCtx.kind with
    | some (.response _) => True
    | some .simple => c.forceClose = true ∨ c.keepAlive = false
    | _ => False

/-- Teardown and rewinding wait until the pool holds nothing of the connection. -/
def deferred (s : Srv σ) : Step → Prop
  | .closed i => ∀ ref ∈ held s.pool, ref.conn ≠ i
  | .written i ok => rewinds (s.conns i) ok → ∀ ref ∈ held s.pool, ref.conn ≠ i
  | _ => True

theorem mine_eq_zero {p : PoolRun ReqRef} {i : ℕ} (h : ∀ ref ∈ held p, ref.conn ≠ i) :
    mine p i = 0 :=
  Multiset.filter_eq_nil.mpr h

theorem Houses.empty (c : Conn σ) : Houses 0 c := fun ref hr => absurd hr (Multiset.notMem_zero ref)

theorem Houses.housed {m : Multiset ReqRef} {x y : Ctx σ} (h : Houses m x.c) (hy : Housed x y) :
    Houses m y.c := fun ref hr =>
  ⟨hy.finalized.trans (h ref hr).1, hy.arena.epoch.trans (h ref hr).2⟩

theorem Houses.submitted {C : ℕ} {x y : Ctx σ} (h : Houses (mine x.srv.pool x.id) x.c)
    (hC : Wired C x.srv.pool) (hy : Housed x y) (open_ : x.c.finalized = false) :
    Houses (mine y.srv.pool x.id) y.c := by
  intro ref hr
  obtain hr | he := hy.added C hC ref hr
  · exact h.housed hy ref hr
  · exact ⟨hy.finalized.trans open_, hy.arena.epoch.trans he.symm⟩

theorem afterResponse_houses {C : ℕ} {x : Ctx σ} (env : Env σ) (ok : Bool) (hl : Linked x.c)
    (hC : Wired C x.srv.pool) (h : Houses (mine x.srv.pool x.id) x.c)
    (gone : ok = true → x.c.closing = false → mine x.srv.pool x.id = 0) :
    Houses (mine (afterResponse env x ok).srv.pool x.id) (afterResponse env x ok).c := by
  have counted := (countAnswered_kept hl).toHoused
  obtain ⟨_, e⟩ | ⟨_, _, e⟩ | ⟨hok, hc, _, e⟩ | ⟨hok, hc, _, _, e⟩ := afterResponse_cases hl env ok <;>
    rw [e]
  · rw [connCloseAndFree_pool counted.linked]
    exact h.housed (counted.trans (connCloseAndFree_kept counted.linked).toHoused)
  · exact h
  · have pool : (connCloseGraceful (countAnswered x)).srv.pool = x.srv.pool := by
      unfold connCloseGraceful
      split <;> rfl
    rw [pool, gone hok hc]
    exact .empty _
  · have ready := rearmed_seated counted.linked env
    have open_ : x.c.finalized = false := by
      by_contra hf
      have := hl.finalized (by simpa using hf)
      rw [hc] at this
      cases this
    refine Houses.submitted (x := rearmed env (countAnswered x)) ?_ hC
      (resumeFrom_housed ready.linked env) open_
    change Houses (mine x.srv.pool x.id) _
    rw [gone hok hc]
    exact .empty _

theorem onWritten_houses {C : ℕ} {x : Ctx σ} (env : Env σ) (w : WriteCtx) (ok : Bool)
    (hl : Linked x.c) (hC : Wired C x.srv.pool) (h : Houses (mine x.srv.pool x.id) x.c)
    (hw : x.c.writes.head? = some w) (gone : rewinds x.c ok → mine x.srv.pool x.id = 0) :
    Houses (mine (onWritten env x w.kind ok).srv.pool x.id) (onWritten env x w.kind ok).c := by
  have less := popped_housed hl
  have counted := less.trans (countAnswered_kept less.linked).toHoused
  unfold rewinds at gone
  rw [hw, Option.map_some] at gone
  cases hk : w.kind with
  | response k =>
    rw [hk] at gone
    change Houses (mine (onResponseWritten env x ok).srv.pool x.id) (onResponseWritten env x ok).c
    rw [onResponseWritten_eq hl]
    split
    · exact h.housed less
    · exact afterResponse_houses (x := popped x) env ok less.linked hC (h.housed less)
        fun hok hc => gone ⟨hok, hc, trivial⟩
  | simple =>
    rw [hk] at gone
    change Houses (mine (onSimpleWritten env x ok).srv.pool x.id) (onSimpleWritten env x ok).c
    obtain ⟨_, e⟩ | ⟨_, _, e⟩ | ⟨_, _, _, _, e⟩ | ⟨hc, hok, hf, e⟩ := onSimpleWritten_cases hl env ok <;>
      rw [e]
    · exact h.housed counted
    · rw [connCloseAndFree_pool counted.linked]
      exact h.housed (counted.trans (connCloseAndFree_kept counted.linked).toHoused)
    · exact h.housed (counted.trans (recover_housed counted.linked env))
    · have pool : (connCloseGraceful (countAnswered (popped x))).srv.pool = x.srv.pool := by
        unfold connCloseGraceful
        split <;> rfl
      rw [pool, gone ⟨hok, hc, hf⟩]
      exact .empty _
  | sse =>
    change Houses (mine (connOnSseWritten x ok).srv.pool x.id) (connOnSseWritten x ok).c
    obtain e | e := connOnSseWritten_cases hl ok <;> rw [e]
    · exact h.housed less
    · rw [connCloseAndFree_pool less.linked]
      exact h.housed (less.trans (connCloseAndFree_kept less.linked).toHoused)

theorem houses_rules (env : Env σ) : ConnRules env deferred Houses where
  fresh _ _ := .empty _
  accept _ _ := .empty _
  busy _ _ _ := .empty _
  read s i data room x _ hC hl h _ hx _ _ := by
    have buffered := connAllocCb_housed (x := s.enter i) hl env
    have open_ : (s.conns i).finalized = false := by
      unfold connAllocCb at hx
      split at hx
      · cases hx
      · rename_i hc
        rw [Bool.or_eq_true, not_or] at hc
        exact Bool.not_eq_true _ ▸ hc.2
    rw [hx] at buffered
    exact Houses.submitted (x := s.enter i) h hC
      (buffered.trans (connOnRead_housed buffered.linked env data)) open_
  readEnd m x hl h _ := by
    have buffered := connAllocCb_housed hl env
    exact h.housed (buffered.trans (connCloseAndFree_kept buffered.linked).toHoused)
  written s i b w rest hok hC hl h hw := by
    refine onWritten_houses (x := s.enter i) env w b hl hC h ?_ fun hr => mine_eq_zero (hok hr)
    change (s.conns i).writes.head? = some w
    rw [hw]
    rfl
  closed s i hok hl _ _ _ _ := by
    rw [mine_eq_zero hok]
    exact .empty _
  deadline m x hl h := h.housed (connDeadlinePass_kept hl).1.toHoused
  shutdown m x hl h := h.housed (shutdownConn_kept hl).1.toHoused
  reload m x hl h := h.housed (reloadConn_kept hl env).1.toHoused
  handler m x k calls hl h := h.housed (withReq_kept hl k (handlerRun_allocs calls)).toHoused
  finish := .inr fun m m' c sub h ref hr => h ref (sub ref hr)
  drain m ref x hl h := by
    have rest : Houses m x.c := fun r hr => h r (Multiset.mem_add.mpr (.inr hr))
    exact rest.housed (drainReq_kept hl env ref.req).1.toHoused

/-- As long as the close callback, and the end of a write that rewinds the arena,
find nothing of the connection in the pool, every reference in the pool is to a
connection that was not torn down, in the arena it was made in. -/
theorem pooled_requests_housed {env : Env σ} {s : Srv σ} (h : Reach (server env) deferred s) :
    ∀ ref ∈ held s.pool,
      (s.conns ref.conn).finalized = false ∧ (s.conns ref.conn).arena.epoch = ref.epoch :=
  fun ref hr => ((houses_rules env).reach h).each ref.conn ref (Multiset.mem_filter.mpr ⟨hr, rfl⟩)

def jobsAndConn (s : Srv Scan) : List ReqRef × Bool × ℕ :=
  (s.pool.pool.jobs.contents, (s.conns 0).finalized, (s.conns 0).arena.epoch)

/-- One request, taken by a worker and finished. -/
theorem pooled_requests_housed_finished : ∃ s : Srv Scan,
    s.pool.pool.done.contents = [⟨0, 0, 0⟩] ∧ (s.conns 0).finalized = false ∧
      (s.conns 0).arena.epoch = 0 := by
  obtain ⟨s, hs, e⟩ := stock_reach deferred rootTable (fun s => s.pool.pool.done.contents)
    [.accept, .read 0 getRoot, .take 0, .finish 0 [.write (ascii "hi")]] [⟨0, 0, 0⟩]
    (by simp [deferred]) (by decide +kernel)
  have ref : (⟨0, 0, 0⟩ : ReqRef) ∈ held s.pool := mem_held.mpr (.inr (.inr (by rw [e]; simp)))
  exact ⟨s, e, pooled_requests_housed hs _ ref⟩

/-- The client leaves while its request waits in the job ring: the close callback
tears the connection down. A byte that is no method, sent right behind a request,
is answered with 400 while a worker may hold the request: the end of that answer
rewinds the arena. -/
theorem teardown_does_not_wait :
    (∃ s : Srv Scan, Reach (server (stockEnv rootTable)) anyStep s ∧
      ∃ ref ∈ held s.pool, (s.conns ref.conn).finalized = true) ∧
    ∃ s : Srv Scan, Reach (server (stockEnv rootTable)) anyStep s ∧
      ∃ ref ∈ held s.pool, (s.conns ref.conn).arena.epoch ≠ ref.epoch := by
  obtain ⟨s, hs, e⟩ := stock_reach anyStep rootTable jobsAndConn
    [.accept, .read 0 getRoot, .readEnd 0, .closed 0] ([⟨0, 0, 0⟩], true, 1)
    (fun _ _ _ => trivial) (by decide +kernel)
  obtain ⟨u, hu, f⟩ := stock_reach anyStep rootTable jobsAndConn
    [.accept, .read 0 (getRoot ++ [1]), .written 0 true] ([⟨0, 0, 0⟩], false, 1)
    (fun _ _ _ => trivial) (by decide +kernel)
  simp only [jobsAndConn, Prod.mk.injEq] at e f
  refine ⟨⟨s, hs, ⟨0, 0, 0⟩, mem_held.mpr (.inl ?_), e.2.1⟩,
    ⟨u, hu, ⟨0, 0, 0⟩, mem_held.mpr (.inl ?_), ?_⟩⟩
  · rw [e.1]
    exact List.mem_singleton_self _
  · rw [f.1]
    exact List.mem_singleton_self _
  · rw [f.2.2]
    decide

end Cerco.PoolLifetime
