import Cerco.ConnPool

set_option autoImplicit false

/-!
# Requests that wait when the server shuts down

`start_shutdown` decides by the phase of a connection alone: idle connections, and those whose
request is still being received, are closed. The phase for a request that waits for a worker is
never set, so such a connection looks like one that still receives a body.
-/
namespace Cerco.ShutdownDrain
open Cerco.Alloc Cerco.CString Cerco.Connection Cerco.Dispatch Cerco.HttpCallbacks Cerco.Server
open Cerco.WorkerPool Cerco.TransitionRuns Cerco.ConnFrames Cerco.ServerRules Cerco.RequestGrammar
open Cerco.ConnPool Cerco.ArenaUse

variable {σ : Type}

/-- A request of connection `i` is queued, in a worker or completed. -/
def Waits (s : Srv σ) (i : ℕ) : Prop := ∃ ref ∈ held s.pool, ref.conn = i

/-- No open connection with a waiting request is closed on the way from `s` to `t`. -/
def Spares (s t : Srv σ) : Prop :=
  ∀ i, Waits s i → (s.conns i).closing = false →
    (t.conns i).closing = false ∧ (t.conns i).deadline = (s.conns i).deadline

/-- Every open connection with a waiting request is past the phases that `start_shutdown` closes. -/
def Settled (s : Srv σ) : Prop :=
  ∀ i, Waits s i → (s.conns i).closing = false → (s.conns i).phase = .write ∨ (s.conns i).phase = .drain

/-- The shutdown finds waiting requests settled, or is not the first. -/
def settledShutdown (s : Srv σ) : Step → Prop
  | .shutdown => s.shuttingDown = true ∨ Settled s
  | _ => True

section Walk
variable {f : Ctx σ → Ctx σ} {i : ℕ} {P Q : Conn σ → Prop}

structure Local (f : Ctx σ → Ctx σ) : Prop where
  stays : ∀ x : Ctx σ, Linked x.c → Stays x (f x)
  now : ∀ x, (f x).srv.now = x.srv.now

theorem Local.conns (h : Local f) (s : Srv σ) (j : ℕ) (linked : Linked (s.conns j)) (i : ℕ) :
    (f (s.enter j)).done.conns i = if i = j then (f (s.enter j)).c else s.conns i :=
  (h.stays (s.enter j) linked).done_conns i

theorem Local.linked (h : Local f) {s : Srv σ} (linked : ∀ i, Linked (s.conns i)) (j i : ℕ) :
    Linked ((f (s.enter j)).done.conns i) := by
  rw [h.conns s j (linked j)]
  split
  · exact (h.stays (s.enter j) (linked j)).linked
  · exact linked i

theorem eachConn_keeps (h : Local f) (now : ℕ)
    (step : ∀ x : Ctx σ, x.id = i → x.srv.now = now → Linked x.c → Q x.c → Q (f x).c) (ids : List ℕ)
    {s : Srv σ} (linked : ∀ i, Linked (s.conns i)) (clock : s.now = now) (start : Q (s.conns i)) :
    Q ((eachConn f ids s).conns i) := by
  unfold eachConn
  induction ids generalizing s with
  | nil => exact start
  | cons j ids ih =>
    refine ih (h.linked linked j) ((h.now (s.enter j)).trans clock) ?_
    change Q ((f (s.enter j)).done.conns i)
    rw [h.conns s j (linked j)]
    split
    · rename_i own
      rw [own] at start
      exact step (s.enter j) own.symm clock (linked j) start
    · exact start

theorem eachConn_brings (h : Local f) (now : ℕ)
    (hit : ∀ x : Ctx σ, x.id = i → x.srv.now = now → Linked x.c → P x.c → Q (f x).c)
    (step : ∀ x : Ctx σ, x.id = i → x.srv.now = now → Linked x.c → Q x.c → Q (f x).c) (ids : List ℕ)
    (met : i ∈ ids) {s : Srv σ} (linked : ∀ i, Linked (s.conns i)) (clock : s.now = now)
    (start : P (s.conns i)) : Q ((eachConn f ids s).conns i) := by
  unfold eachConn
  induction ids generalizing s with
  | nil => cases met
  | cons j ids ih =>
    have next := h.conns s j (linked j) i
    have clock' : (f (s.enter j)).done.now = now := (h.now (s.enter j)).trans clock
    by_cases own : i = j
    · rw [if_pos own] at next
      refine eachConn_keeps h now step ids (h.linked linked j) clock' ?_
      rw [next]
      exact hit (s.enter j) own.symm clock (linked j) (own ▸ start)
    · rw [if_neg own] at next
      refine ih ((List.mem_cons.mp met).resolve_left own) (h.linked linked j) clock' ?_
      rw [next]
      exact start

end Walk

theorem connMaybeFinalize_now (x : Ctx σ) : (connMaybeFinalize x).srv.now = x.srv.now := by
  unfold connMaybeFinalize
  split
  · rfl
  · split
    · rfl
    · split
      · rfl
      · split
        · rfl
        · unfold connFinalize
          split
          · rfl
          · dsimp only
            split <;> rfl

theorem connCloseAndFree_now (x : Ctx σ) : (connCloseAndFree x).srv.now = x.srv.now := by
  unfold connCloseAndFree
  split
  · rfl
  · rw [connMaybeFinalize_now]
    dsimp only
    split <;> rfl

theorem shutdownConn_local : Local (σ := σ) shutdownConn := by
  refine ⟨fun x hl => (shutdownConn_kept hl).1.toStays, fun x => ?_⟩
  unfold shutdownConn
  split
  · exact connCloseAndFree_now x
  · split <;> rfl

theorem connDeadlinePass_local : Local (σ := σ) connDeadlinePass := by
  refine ⟨fun x hl => (connDeadlinePass_kept hl).1.toStays, fun x => ?_⟩
  unfold connDeadlinePass
  split
  · exact connCloseAndFree_now _
  · rfl

/-- `start_shutdown` closes connections in this phase. -/
def Receiving (c : Conn σ) : Prop := c.phase = .idle ∨ c.phase = .headers ∨ c.phase = .body

/-- The connection is open with this deadline, and past the phases that the shutdown closes. -/
structure Spared (deadline : ℕ) (c : Conn σ) : Prop where
  opened : c.closing = false
  settled : ¬ Receiving c
  deadline : c.deadline = deadline

theorem shutdownConn_spares {d : ℕ} {x : Ctx σ} (h : Spared d x.c) : Spared d (shutdownConn x).c := by
  have settled : ¬ (x.c.phase = .idle ∨ x.c.phase = .headers ∨ x.c.phase = .body) := h.settled
  unfold shutdownConn
  rw [if_neg settled]
  split
  · obtain ⟨o, ho⟩ := cancelReq_objs x.c
    rw [ho]
    exact ⟨h.opened, h.settled, h.deadline⟩
  · exact h

theorem shutdownConn_closes {x : Ctx σ} (hl : Linked x.c) (h : Receiving x.c) :
    (shutdownConn x).c.closing = true := by
  have receiving : x.c.phase = .idle ∨ x.c.phase = .headers ∨ x.c.phase = .body := h
  unfold shutdownConn
  rw [if_pos receiving]
  exact connCloseAndFree_closes hl

theorem shutdownConn_closed {x : Ctx σ} (hl : Linked x.c) (h : x.c.closing = true) :
    (shutdownConn x).c.closing = true := (shutdownConn_kept hl).1.closing h

theorem not_receiving {c : Conn σ} (hl : Linked c) : ¬ Receiving c ↔ c.phase = .write ∨ c.phase = .drain := by
  have := hl.phase
  unfold Receiving
  cases h : c.phase <;> simp_all

def subject (s : Srv σ) : Step → Option ℕ
  | .accept => some s.nextConn
  | .read i _ => some i
  | .readEnd i => some i
  | .written i _ => some i
  | .closed i => some i
  | .finish w _ => workerConn s w
  | .drain => (drainOne s.pool.pool).map fun p => p.1.conn
  | _ => none

def walks : Step → Bool
  | .sweep => true
  | .reload => true
  | .shutdown => true
  | _ => false

theorem srvStep_others {env : Env σ} {s t : Srv σ} {a : Step} (linked : ∀ i, Linked (s.conns i))
    (ht : srvStep env s a = some t) (one : walks a = false) {i : ℕ} (other : subject s a ≠ some i) :
    t.conns i = s.conns i := by
  have put : ∀ {x y : Ctx σ}, Stays x y → some x.id = subject s a → x.srv.conns = s.conns →
      y.done.conns i = s.conns i := by
    intro x y stays who same
    rw [stays.done_conns, if_neg fun e => other (who.symm.trans (congrArg some e.symm)), same]
  unfold srvStep at ht
  split at ht
  · cases ht
  · cases a with
    | accept =>
      cases ht
      cases up : s.shuttingDown with
      | true =>
        unfold cercoConnectionCb
        rw [up]
        rfl
      | false => exact (cercoConnectionCb_opened env up).others i fun e => other (congrArg some e.symm)
    | read j data =>
      obtain ⟨_, room, x, hx, rfl⟩ := readStep_cases ht
      exact put (read_stays (linked j) hx) rfl rfl
    | readEnd j =>
      simp only [readEndStep] at ht
      split at ht
      · cases ht
        have buffered := connAllocCb_housed (x := s.enter j) (linked j) env
        exact put (buffered.trans (connCloseAndFree_kept buffered.linked).toHoused).toStays rfl rfl
      · cases ht
    | written j ok =>
      obtain ⟨_, w, rest, _, rfl⟩ := writtenStep_cases ht
      exact put (onWritten_seated (x := s.enter j) (linked j) env w.kind ok).toStays rfl rfl
    | closed j =>
      simp only [closedStep] at ht
      split at ht
      · rename_i hg
        cases ht
        exact put (connOnStreamClosed_stays (x := s.enter j) (linked j) hg.2.1 hg.2.2.1 hg.2.2.2).1 rfl rfl
      · cases ht
    | tick ms =>
      cases ht
      rfl
    | take w =>
      obtain ⟨p, _, rfl⟩ := Option.map_eq_some_iff.mp ht
      rfl
    | finish w calls =>
      simp only [finishJob] at ht
      split at ht
      · cases ht
      · rename_i job ref hj
        obtain ⟨p, _, rfl⟩ := Option.map_eq_some_iff.mp ht
        have who : some ref.conn = subject s (.finish w calls) := by
          change some ref.conn = workerConn s w
          unfold workerConn
          rw [hj]
          rfl
        exact put (withReq_kept (linked ref.conn) (x := s.enter ref.conn) ref.req
          (handlerRun_allocs calls)).toStays who rfl
    | drain =>
      simp only [drainJob] at ht
      split at ht
      · cases ht
      · rename_i ref q hq
        cases ht
        have who : some ref.conn = subject s .drain := by
          unfold subject
          rw [hq]
          rfl
        exact put (x := ({ s with pool := drainStep s.pool (ref, q) } : Srv σ).enter ref.conn)
          (drainReq_kept (linked ref.conn) env ref.req).1.toStays who rfl
    | sweep => cases one
    | reload => cases one
    | shutdown => cases one

/-- What may close connection `i`: its own events, the drain of its request, a sweep after its
deadline, a reload that cannot be written, and the shutdown while the request is received. -/
def MayClose (s : Srv σ) (i : ℕ) : Step → Prop
  | .read j _ => j = i
  | .readEnd j => j = i
  | .written j _ => j = i
  | .drain => (drainOne s.pool.pool).map (fun p => p.1.conn) = some i
  | .sweep => (s.conns i).deadline ≤ s.now
  | .reload => True
  | .shutdown => s.shuttingDown = false ∧ Receiving (s.conns i)
  | _ => False

theorem finishJob_closing {env : Env σ} {s t : Srv σ} {w : ℕ} {calls : List ApiCall}
    (linked : ∀ i, Linked (s.conns i)) (ht : finishJob env s w calls = some t) (i : ℕ) :
    (t.conns i).closing = (s.conns i).closing := by
  unfold finishJob at ht
  split at ht
  · cases ht
  · rename_i job ref _
    obtain ⟨p, _, rfl⟩ := Option.map_eq_some_iff.mp ht
    have stays := (withReq_kept (linked ref.conn) (x := s.enter ref.conn) ref.req
      (handlerRun_allocs calls)).toStays
    change ((((s.enter ref.conn).withReq ref.req (handlerRun calls)).done).conns i).closing = _
    rw [stays.done_conns]
    split
    · rename_i own
      rw [own]
      rfl
    · rfl

theorem closing_cause {env : Env σ} {s t : Srv σ} {a : Step} (linked : ∀ i, Linked (s.conns i))
    (ht : srvStep env s a = some t) {i : ℕ} (born : i < s.nextConn) (before : (s.conns i).closing = false)
    (after : (t.conns i).closing = true) : MayClose s i a := by
  by_contra no
  cases hw : walks a with
  | false =>
    have same : (t.conns i).closing = (s.conns i).closing := by
      by_cases own : subject s a = some i
      · unfold srvStep at ht
        split at ht
        · cases ht
        · cases a with
          | accept => exact absurd (Option.some.inj own) (Nat.ne_of_gt born)
          | closed j =>
            simp only [closedStep] at ht
            split at ht
            · rename_i hg
              cases Option.some.inj own
              rw [← (linked i).queued, hg.2.1] at before
              cases before
            · cases ht
          | finish w calls => exact finishJob_closing linked ht i
          | drain => exact absurd own no
          | tick ms => cases own
          | take w => cases own
          | sweep => cases hw
          | reload => cases hw
          | shutdown => cases hw
          | _ => exact absurd (Option.some.inj own) no
      · rw [srvStep_others linked ht hw own]
    rw [same, before] at after
    cases after
  | true =>
    unfold srvStep at ht
    split at ht
    · cases ht
    · cases a with
      | sweep =>
        cases ht
        have kept := eachConn_keeps (i := i) connDeadlinePass_local s.now
          (Q := fun c => c.closing = false ∧ c.deadline = (s.conns i).deadline)
          (fun x _ clock _ hq => by
            have late : ¬ x.c.deadline ≤ x.srv.now := by
              rw [hq.2, clock]
              exact no
            unfold connDeadlinePass
            rw [if_neg (by simp [late])]
            exact hq) s.active linked rfl ⟨before, rfl⟩
        have stays : ((connSweepDeadlines s).conns i).closing = false := kept.1
        rw [stays] at after
        cases after
      | reload => exact no trivial
      | shutdown =>
        cases ht
        unfold startShutdown at after
        split at after
        · rw [before] at after
          cases after
        · rename_i first
          have settled : ¬ Receiving (s.conns i) := fun h => no ⟨Bool.not_eq_true _ ▸ first, h⟩
          have kept := eachConn_keeps (i := i) shutdownConn_local s.now
            (fun x _ _ _ hq => shutdownConn_spares hq) s.active (s := { s with shuttingDown := true })
            linked rfl ⟨before, settled, rfl⟩
          rw [kept.opened] at after
          cases after
      | _ => cases hw

theorem reach_born {env : Env σ} {ok : Srv σ → Step → Prop} {s : Srv σ} (h : Reach (server env) ok s)
    {i : ℕ} (waits : Waits s i) : i < s.nextConn := by
  by_contra unborn
  obtain ⟨ref, held, own⟩ := waits
  have none_ := ((trivial_rules env ok).reach h).unborn i (Nat.le_of_not_lt unborn)
  have some_ : ref ∈ mine s.pool i := Multiset.mem_filter.mpr ⟨held, own⟩
  rw [none_] at some_
  exact Multiset.notMem_zero ref some_

theorem reach_waits {env : Env σ} {ok : Srv σ → Step → Prop} {s : Srv σ} (h : Reach (server env) ok s)
    {i : ℕ} (waits : Waits s i) (opened : (s.conns i).closing = false) : i ∈ s.active := by
  obtain ⟨pool, hp⟩ := reach_pooled h
  refine ((reach_filed hp).active i).mpr ⟨reach_born h waits, ?_⟩
  by_contra gone
  rw [(reach_linked h i).finalized (Bool.not_eq_false _ ▸ gone)] at opened
  cases opened

theorem startShutdown_spares {env : Env σ} {ok : Srv σ → Step → Prop} {s : Srv σ}
    (h : Reach (server env) ok s) : Spares s (startShutdown s) ↔ settledShutdown s .shutdown := by
  have linked := reach_linked h
  unfold startShutdown
  by_cases again : s.shuttingDown = true
  · rw [if_pos again]
    exact iff_of_true (fun i _ opened => ⟨opened, rfl⟩) (.inl again)
  · rw [if_neg again]
    constructor
    · intro spares
      refine .inr fun i waits opened => (not_receiving (linked i)).mp fun receiving => ?_
      have closed := eachConn_brings (i := i) shutdownConn_local s.now (P := Receiving)
        (Q := fun c => c.closing = true) (fun x _ _ hl hp => shutdownConn_closes hl hp)
        (fun x _ _ hl hq => shutdownConn_closed hl hq) s.active (reach_waits h waits opened)
        (s := { s with shuttingDown := true }) linked rfl receiving
      rw [(spares i waits opened).1] at closed
      cases closed
    · rintro (done | settled) i waits opened
      · exact absurd done again
      · have kept := eachConn_keeps (i := i) shutdownConn_local s.now
          (fun x _ _ _ hq => shutdownConn_spares hq) s.active (s := { s with shuttingDown := true }) linked rfl
          ⟨opened, (not_receiving (linked i)).mpr (settled i waits opened), rfl⟩
        exact ⟨kept.opened, kept.deadline⟩

/-- What may close a connection with a waiting request when the shutdown does not. -/
def OwnEnd (s : Srv σ) (i : ℕ) (a : Step) : Prop := a ≠ .shutdown ∧ MayClose s i a

/-- The shutdown spares the connections of waiting requests exactly when they are settled. In a run
in which it always finds them settled, they are closed by their own events, after their deadline,
or when a reload cannot be written, and never by the shutdown. -/
theorem shutdown_drains_iff (env : Env σ) :
    (∀ s, Reach (server env) anyStep s → (Spares s (startShutdown s) ↔ settledShutdown s .shutdown)) ∧
    ∀ s, Reach (server env) settledShutdown s → ∀ a t, settledShutdown s a → srvStep env s a = some t →
      ∀ i, Waits s i → (s.conns i).closing = false → (t.conns i).closing = true → OwnEnd s i a := by
  refine ⟨fun s h => startShutdown_spares h, fun s h a t ok ht i waits before after => ⟨?_, ?_⟩⟩
  · rintro rfl
    have same : startShutdown s = t := by
      unfold srvStep at ht
      split at ht
      · cases ht
      · exact Option.some.inj ht
    have spared := (startShutdown_spares h).mpr ok i waits before
    rw [same, after] at spared
    cases spared.1
  · exact closing_cause (reach_linked h) ht (reach_born h waits) before after

/-- What the pool's job ring holds, and how connection 0 stands; last, whether a failed write
closes it. -/
def standing (s : Srv Scan) : ℕ × List ReqRef × Phase × List Bool × Option Bool :=
  (s.nextConn, s.pool.pool.jobs.contents, (s.conns 0).phase, [(s.conns 0).closing, s.shuttingDown],
    (srvStep (stockEnv rootTable) s (.written 0 false)).map fun t => (t.conns 0).closing)

/-- Two requests in one read are two jobs; the second waits while the first is answered. -/
theorem shutdown_drains_iff_two : ∃ s t : Srv Scan,
    Spares s (startShutdown s) ∧ srvStep (stockEnv rootTable) s (.written 0 false) = some t ∧
      OwnEnd s 0 (.written 0 false) := by
  obtain ⟨s, hs, e⟩ := stock_reach settledShutdown rootTable standing
    [.accept, .read 0 (getRoot ++ getRoot), .take 0, .finish 0 [.write (ascii "hi")], .drain]
    (1, [⟨0, 0, 0⟩], .write, [false, false], some true) (by simp [settledShutdown]) (by decide +kernel)
  simp only [standing, Prod.mk.injEq, List.cons.injEq, and_true] at e
  obtain ⟨next, jobs, phase, ⟨opened, _⟩, closes⟩ := e
  obtain ⟨t, ht, closed⟩ := Option.map_eq_some_iff.mp closes
  have job : (⟨0, 0, 0⟩ : ReqRef) ∈ held s.pool := mem_held.mpr (.inl (by rw [jobs]; simp))
  have settled : Settled s := by
    intro i waits _
    have own : i = 0 := Nat.lt_one_iff.mp (next ▸ reach_born hs waits)
    exact .inl (own ▸ phase)
  exact ⟨s, t, ((shutdown_drains_iff (stockEnv rootTable)).1 s (hs.mono fun _ _ _ => trivial)).mpr (.inr settled), ht,
    (shutdown_drains_iff (stockEnv rootTable)).2 s hs (.written 0 false) t trivial ht 0 ⟨_, job, rfl⟩ opened closed⟩

/-- A GET waits in the job ring, and the shutdown closes its connection. -/
theorem shutdown_closes_waiting : ∃ s : Srv Scan, Reach (server (stockEnv rootTable)) anyStep s ∧
    ¬ Spares s (startShutdown s) := by
  obtain ⟨s, hs, e⟩ := stock_reach anyStep rootTable standing [.accept, .read 0 getRoot]
    (1, [⟨0, 0, 0⟩], .body, [false, false], none) (fun _ _ _ => trivial) (by decide +kernel)
  simp only [standing, Prod.mk.injEq, List.cons.injEq, and_true] at e
  obtain ⟨_, jobs, phase, ⟨opened, first⟩, _⟩ := e
  have job : (⟨0, 0, 0⟩ : ReqRef) ∈ held s.pool := mem_held.mpr (.inl (by rw [jobs]; simp))
  refine ⟨s, hs, fun spares => ?_⟩
  obtain again | settled := (startShutdown_spares hs).mp spares
  · rw [first] at again
    cases again
  · have answering := settled 0 ⟨_, job, rfl⟩ opened
    rw [phase] at answering
    obtain h | h := answering <;> cases h

end Cerco.ShutdownDrain
