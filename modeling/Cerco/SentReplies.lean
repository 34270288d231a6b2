import Cerco.BookSteps
import Cerco.DispatchOutcome

set_option autoImplicit false

/-!
# Which writes answer a dispatched request

A response answers its request; a simple answer does when it directly follows a dispatch,
otherwise it is the reply to a request that was rejected, or to a connection too many. Each
dispatched request is answered once at most: what the pool still holds of a connection and
what was answered on it are not more than what was dispatched.
-/
namespace Cerco.SentReplies
open Cerco.Alloc Cerco.CString Cerco.Request Cerco.Response Cerco.Connection Cerco.Dispatch
open Cerco.HttpCallbacks Cerco.Server Cerco.WorkerPool Cerco.TransitionRuns Cerco.ConnFrames
open Cerco.ServerRules Cerco.Responders Cerco.SpanParser Cerco.CloseFlags Cerco.Books Cerco.BookSteps
open Cerco.Callbacks Cerco.RejectCodes Cerco.DispatchOutcome

variable {σ : Type}

/-- The writes among events, each with whether it answers a dispatched request; `due` says that a
dispatch came last. -/
def sentFrom : Bool → List ConnEvent → List (WriteCtx × Bool)
  | _, [] => []
  | _, .dispatched _ _ :: rest => sentFrom true rest
  | _, .rejected _ :: rest => sentFrom false rest
  | due, .wrote w :: rest =>
    (w, match w.kind with
      | .response _ => true
      | .simple => due
      | .sse => false) :: sentFrom false rest

def sent (trace : List ConnEvent) : List (WriteCtx × Bool) := sentFrom false trace

def answers (ws : List (WriteCtx × Bool)) : ℕ := ws.countP (·.2)

def dispatches (trace : List ConnEvent) : ℕ := trace.countP isDispatch

def dueAfter : Bool → List ConnEvent → Bool
  | due, [] => due
  | _, .dispatched _ _ :: rest => dueAfter true rest
  | _, .rejected _ :: rest => dueAfter false rest
  | _, .wrote _ :: rest => dueAfter false rest

theorem sentFrom_append (due : Bool) (a b : List ConnEvent) :
    sentFrom due (a ++ b) = sentFrom due a ++ sentFrom (dueAfter due a) b := by
  induction a generalizing due with
  | nil => rfl
  | cons ev a ih =>
    cases ev with
    | dispatched k r => exact ih true
    | rejected code => exact ih false
    | wrote w =>
      simp only [List.cons_append, sentFrom, dueAfter]
      rw [ih]

theorem sentFrom_writes (due : Bool) (evs : List ConnEvent) :
    (sentFrom due evs).map (·.1) = evs.filterMap writeOf := by
  induction evs generalizing due with
  | nil => rfl
  | cons ev evs ih =>
    cases ev with
    | dispatched k r => exact ih true
    | rejected code => exact ih false
    | wrote w =>
      simp only [sentFrom, List.map_cons]
      rw [ih]
      rfl

theorem answers_append (a b : List (WriteCtx × Bool)) : answers (a ++ b) = answers a + answers b :=
  List.countP_append

theorem dispatches_append (a b : List ConnEvent) : dispatches (a ++ b) = dispatches a + dispatches b :=
  List.countP_append

/-- From `x` to `y` no more was answered or put into the pool than was dispatched or came from the
pool. -/
def Owed (x y : Ctx σ) : Prop :=
  y.id = x.id ∧ ∀ C, Wired C x.srv.pool → Wired C y.srv.pool ∧ ∃ new, y.c.trace = x.c.trace ++ new ∧
    ∀ due, (mine y.srv.pool x.id).card + answers (sentFrom due new) ≤
      (mine x.srv.pool x.id).card + dispatches new

section Owed
variable {env : Env σ} {x y z : Ctx σ} {k : ℕ}

theorem Owed.trans (h₁ : Owed x y) (h₂ : Owed y z) : Owed x z := by
  obtain ⟨id, first⟩ := h₁
  obtain ⟨id', second⟩ := h₂
  refine ⟨id'.trans id, fun C wired => ?_⟩
  obtain ⟨wired, new, trace, debt⟩ := first C wired
  obtain ⟨wired, new', trace', debt'⟩ := second C wired
  refine ⟨wired, new ++ new', by rw [trace', trace, List.append_assoc], fun due => ?_⟩
  have early := debt due
  have late := debt' (dueAfter due new)
  rw [id] at late
  rw [sentFrom_append, answers_append, dispatches_append]
  omega

theorem Owed.silent (pool : (y.id, y.srv.pool) = (x.id, x.srv.pool)) (trace : y.c.trace = x.c.trace) :
    Owed x y := by
  obtain ⟨id, pool⟩ := Prod.mk.inj pool
  refine ⟨id, fun C wired => ⟨pool ▸ wired, [], by rw [trace, List.append_nil], fun due => ?_⟩⟩
  rw [pool]
  exact Nat.le_refl _

theorem assembled_owed {d : Conn σ} (h : Assembled x.c d) : Owed x { x with c := d } := by
  obtain ⟨a, o, st, _, rfl⟩ := h
  exact .silent rfl rfl

theorem withJob_mine {C : ℕ} (wired : Wired C x.srv.pool) (room : hasRoom x = true) (k : ℕ) :
    (mine (withJob x k) x.id).card = (mine x.srv.pool x.id).card + 1 := by
  let ref : ReqRef := ⟨x.id, k, x.c.arena.epoch⟩
  have taken : (wpoolTrySubmit x.srv.pool.pool ref).2 = true := (wpoolSubmit_room x k).trans room
  have job : withJob x k = submitStep x.srv.pool ref := (submitStep_room x.srv.pool ref taken).symm
  obtain ⟨_, more⟩ | ⟨refused, _⟩ := submitStep_mine wired ref
  · rw [job, mine, more, Multiset.filter_add, Multiset.card_add, Multiset.filter_singleton, if_pos rfl,
      Multiset.card_singleton]
    rfl
  · rw [taken] at refused
    cases refused

theorem ends_owed {o : Outcome} (h : Ends env k x y o) {C : ℕ} (wired : Wired C x.srv.pool) :
    ∃ new, y.c.trace = x.c.trace ++ new ∧ dispatches new = 0 ∧
      (mine y.srv.pool x.id).card + answers (sentFrom true new) ≤ (mine x.srv.pool x.id).card + 1 := by
  have seen {m : Marks} (h : marks y = m) : y.srv.pool = m.pool ∧ y.c.trace = m.trace := by
    rw [← h]
    exact ⟨rfl, rfl⟩
  cases h with
  | submitted room h =>
    obtain ⟨pool, trace⟩ := seen h
    refine ⟨[], by rw [trace, List.append_nil]; rfl, rfl, ?_⟩
    rw [pool]
    change (mine (withJob x k) x.id).card + 0 ≤ _
    rw [withJob_mine wired room]
  | responded w kind written h =>
    obtain ⟨pool, trace⟩ := seen h
    refine ⟨[.wrote w], trace, rfl, ?_⟩
    rw [pool]
    obtain ⟨kind', out⟩ := w
    obtain rfl | rfl := kind
    · exact Nat.le_refl _
    · exact Nat.le_refl _
  | streamed written started client h =>
    obtain ⟨pool, trace⟩ := seen h
    refine ⟨_, trace, rfl, ?_⟩
    rw [pool]
    exact Nat.le_succ _
  | refused unwritten h =>
    obtain ⟨pool, trace⟩ := seen h
    refine ⟨[], by rw [trace, List.append_nil]; rfl, rfl, ?_⟩
    rw [pool]
    exact Nat.le_succ _
  | cut written unwritten h =>
    obtain ⟨pool, trace⟩ := seen h
    refine ⟨_, trace, rfl, ?_⟩
    rw [pool]
    exact Nat.le_succ _

theorem connRequestDispatch_owed (hl : Linked x.c) (env : Env σ) : Owed x (connRequestDispatch env x) := by
  have kept := connRequestDispatch_kept hl env
  unfold connRequestDispatch at kept ⊢
  split
  · exact .silent rfl rfl
  · rename_i k _
    split
    · exact .silent rfl rfl
    · rename_i open_ bad
      rw [open_] at kept
      dsimp only at kept
      rw [if_neg bad] at kept
      refine ⟨kept.id, fun C wired => ⟨kept.wired C wired, ?_⟩⟩
      obtain ⟨o, ends⟩ := answer_ends (dispatchReq_answer env (noted x k) k)
      obtain ⟨new, trace, none, debt⟩ := ends_owed ends (x := noted x k) wired
      refine ⟨.dispatched k (x.c.objs k) :: new, ?_, fun due => ?_⟩
      · refine trace.trans ?_
        change (x.c.trace ++ [.dispatched k (x.c.objs k)]) ++ new = _
        rw [List.append_assoc]
        rfl
      · have one : dispatches (.dispatched k (x.c.objs k) :: new) = dispatches new + 1 := List.countP_cons_of_pos rfl
        rw [one, none]
        exact debt

theorem onMessageComplete_owed (hl : Linked x.c) (env : Env σ) (keepAlive : Bool) :
    Owed x (onMessageComplete env x keepAlive).1 := by
  have assembled := completeReq_assembled (told x keepAlive)
  have linked := assembled.linked (hl.of_eq rfl)
  have stored : Owed x { x with c := told x keepAlive } := .silent rfl rfl
  have taken := stored.trans (assembled_owed (x := { x with c := told x keepAlive }) assembled)
  generalize hd : completeReq (told x keepAlive) = done at linked taken
  obtain ⟨c, code⟩ := done
  obtain ⟨_, e⟩ | ⟨_, z, rfl, e⟩ := onMessageComplete_cases env x keepAlive hd <;> rw [e]
  · exact taken.trans (.silent rfl rfl)
  · have counting : Owed { x with c := c } (counted x c) := .silent rfl rfl
    have answered := counting.trans (connRequestDispatch_owed (x := counted x c) linked env)
    exact (taken.trans answered).trans (.silent rfl rfl)

theorem onMessageBegin_owed (env : Env σ) (x : Ctx σ) : Owed x (onMessageBegin env x).1 := by
  unfold onMessageBegin
  split
  · exact .silent rfl rfl
  · dsimp only
    split <;> exact .silent rfl rfl

theorem onHeadersComplete_owed (env : Env σ) (x : Ctx σ) (n : ℕ) (chunked : Bool) :
    Owed x (onHeadersComplete env x n chunked).1 := by
  obtain ⟨d, assembled, e | e⟩ := onHeadersComplete_cases env x n chunked <;> rw [e]
  · exact assembled_owed assembled
  · exact (assembled_owed assembled).trans (.silent rfl rfl)

theorem onEvent_owed (hl : Linked x.c) (env : Env σ) (ev : HttpEvent) : Owed x (onEvent env x ev).1 := by
  cases ev with
  | span k s =>
    cases k with
    | url => exact assembled_owed (onUrl_assembled x.c s)
    | field => exact assembled_owed (onHeaderField_assembled x.c s)
    | value => exact assembled_owed (onHeaderValue_assembled x.c s)
    | body => exact assembled_owed (onBody_assembled env x.c s)
  | mark m =>
    cases m with
    | messageBegin => exact onMessageBegin_owed env x
    | method name => exact .silent rfl rfl
    | headersComplete n chunked => exact onHeadersComplete_owed env x n chunked
    | messageComplete keepAlive => exact onMessageComplete_owed hl env keepAlive
  | fail e => exact .silent rfl rfl

theorem connCloseAndFree_trace (x : Ctx σ) : (connCloseAndFree x).c.trace = x.c.trace :=
  congrArg Marks.trace (connCloseAndFree_marks x)

theorem uvWrite_trace (x : Ctx σ) (res : WriteRes) (w : WriteCtx) : ∃ new, (new = [] ∨ new = [.wrote w]) ∧
    (uvWrite x res w).c.trace = x.c.trace ++ new := by
  unfold uvWrite
  split
  · exact ⟨_, .inr rfl, rfl⟩
  · exact ⟨[], .inl rfl, by rw [connCloseAndFree_trace, List.append_nil]⟩

theorem connCloseAndFree_owed (hl : Linked x.c) : Owed x (connCloseAndFree x) :=
  .silent (by rw [(connCloseAndFree_kept hl).id, connCloseAndFree_pool hl]) (connCloseAndFree_trace x)

theorem rejectRequest_owed (hl : Linked x.c) (env : Env σ) (code : ℕ) (reason : Bytes) :
    Owed x (rejectRequest env x code reason) := by
  let z : Ctx σ := { x with c := { x.c with forceClose := true, trace := x.c.trace ++ [.rejected code] } }
  have linked : Linked z.c := hl.of_eq rfl
  have kept := rejectRequest_kept hl env code reason
  have pool : (rejectRequest env x code reason).srv.pool = x.srv.pool :=
    connSendSimple_pool linked env code none reason true
  have unpaid (new : List ConnEvent) (mute : ∀ due, answers (sentFrom due new) = 0)
      (trace : (rejectRequest env x code reason).c.trace = x.c.trace ++ new) :
      Owed x (rejectRequest env x code reason) := by
    refine ⟨kept.id, fun C wired => ⟨kept.wired C wired, new, trace, fun due => ?_⟩⟩
    rw [pool, mute]
    exact Nat.le_add_right _ _
  obtain e | ⟨srv, st, res, rfl, e⟩ := connSendSimple_cases env z code none reason true
  · refine unpaid [.rejected code] (fun _ => rfl) ?_
    unfold rejectRequest
    dsimp only
    rw [e, connCloseAndFree_trace]
    rfl
  · obtain ⟨new, fits, trace⟩ := uvWrite_trace { z with
      srv := { z.srv with stats := st, writeCalls := z.srv.writeCalls + 1 }
      c := { z.c with keepAlive := !true, forceClose := true, statusSent := true } } res
      ⟨.simple, .reply (simpleReply code none reason true)⟩
    refine unpaid (.rejected code :: new) (fun due => ?_) ?_
    · obtain rfl | rfl := fits
      · rfl
      · rfl
    · unfold rejectRequest
      dsimp only
      rw [e, trace]
      simp [z]

theorem connCloseGraceful_owed (x : Ctx σ) : Owed x (connCloseGraceful x) := by
  unfold connCloseGraceful
  split
  · exact .silent rfl rfl
  · exact .silent rfl rfl

theorem owed_callbacks (env : Env σ) : CallbackRules env (fun _ _ => True) Owed Owed where
  refl _ := .silent rfl rfl
  trans _ _ _ := Owed.trans
  whole _ _ h := h
  ends _ _ _ := Owed.trans
  event _ ev hl _ := onEvent_owed hl env ev
  buffer _ _ _ _ := .silent rfl rfl
  receive _ _ := .silent rfl rfl
  reject _ code reason hl _ := rejectRequest_owed hl env code reason
  rearm _ _ _ _ := .silent rfl rfl
  restart _ _ _ _ := .silent rfl rfl
  shed _ _ _ := .silent rfl rfl
  cancel x _ := by
    obtain ⟨o, ho⟩ := cancelReq_objs x.c
    rw [ho]
    exact .silent rfl rfl
  close _ hl := connCloseAndFree_owed hl
  graceful x _ _ := connCloseGraceful_owed x

def Paid (m : Multiset ReqRef) (c : Conn σ) : Prop := m.card + answers (sent c.trace) ≤ dispatches c.trace

theorem Owed.paid {C : ℕ} (wired : Wired C x.srv.pool) (h : Owed x y) (paid : Paid (mine x.srv.pool x.id) x.c) :
    Paid (mine y.srv.pool x.id) y.c := by
  obtain ⟨_, new, trace, debt⟩ := h.2 C wired
  have debt := debt (dueAfter false x.c.trace)
  unfold Paid sent at *
  rw [trace, sentFrom_append, answers_append, dispatches_append]
  omega

theorem drainOne_held {C : ℕ} {p : PoolRun ReqRef} (wired : Wired C p) {r : ReqRef × Wpool ReqRef}
    (hr : drainOne p.pool = some r) : r.1 ∈ held p := by
  unfold drainOne at hr
  split at hr
  · cases hr
  · rename_i ready
    cases hr
    rw [held_drain wired [] (Nat.pos_of_ne_zero ready)]
    exact Multiset.mem_add.mpr (.inl (Multiset.mem_singleton_self _))

def roomForDone (s : Srv σ) : Step → Prop
  | .finish _ _ => s.pool.pool.done.count < s.pool.pool.done.cap
  | _ => True

instance (s : Srv σ) (a : Step) : Decidable (roomForDone s a) :=
  match a with
  | .finish _ _ => inferInstanceAs (Decidable (_ < _))
  | .accept | .read _ _ | .readEnd _ | .written _ _ | .closed _ | .sweep | .reload | .tick _ | .take _ | .drain
  | .shutdown => isTrue trivial

theorem Paid.of_trace {m : Multiset ReqRef} {c d : Conn σ} (h : Paid m c) (trace : d.trace = c.trace) :
    Paid m d := by
  unfold Paid at *
  rwa [trace]

theorem drainReq_paid {m : Multiset ReqRef} {ref : ReqRef} (h : Paid ({ref} + m) x.c) (env : Env σ) :
    Paid m (drainReq env x ref.req).c := by
  have once := drainReq_once env x ref.req
  unfold DrainsOnce at once
  have answered : ∃ new, (drainReq env x ref.req).c.trace = x.c.trace ++ new ∧ dispatches new = 0 ∧
      ∀ due, answers (sentFrom due new) ≤ 1 := by
    split at once
    · exact ⟨[], (congrArg Marks.trace once).trans (List.append_nil _).symm, rfl, fun _ => Nat.zero_le _⟩
    · obtain ⟨_, _, ends⟩ := once
      split at ends
      · cases ends with
        | responded w kind written marks =>
          exact ⟨[.wrote w], congrArg Marks.trace marks, rfl, fun due => List.countP_le_length⟩
      · cases ends with
        | refused unwritten marks =>
          exact ⟨[], (congrArg Marks.trace marks).trans (List.append_nil _).symm, rfl, fun _ => Nat.zero_le _⟩
        | cut written unwritten marks => exact absurd written ‹_›
  obtain ⟨new, trace, none, one⟩ := answered
  have one := one (dueAfter false x.c.trace)
  unfold Paid sent at *
  rw [Multiset.card_add, Multiset.card_singleton] at h
  rw [trace, sentFrom_append, answers_append, dispatches_append]
  omega

theorem reported_same (x : Ctx σ) (kind : WriteKind) : ((reported x kind).id, (reported x kind).srv.pool) =
    (x.id, x.srv.pool) ∧ (reported x kind).c = popWrite x.c := by
  cases kind with
  | response k =>
    unfold reported
    dsimp only
    split
    · exact ⟨rfl, rfl⟩
    · exact ⟨rfl, rfl⟩
  | simple => exact ⟨rfl, rfl⟩
  | sse => exact ⟨rfl, rfl⟩

theorem traced_callbacks (env : Env σ) :
    QuietRules env (fun x y => y.c.trace = x.c.trace) fun x y => y.c.trace = x.c.trace where
  refl _ := rfl
  trans _ _ _ h₁ h₂ := h₂.trans h₁
  whole _ _ h := h
  ends _ _ _ h₁ h₂ := h₂.trans h₁
  buffer _ _ _ _ := rfl
  receive _ _ := rfl
  rearm _ _ _ _ := rfl
  restart _ _ _ _ := rfl
  shed _ _ _ := rfl
  cancel x _ := cancelReq_trace x.c
  close x _ := connCloseAndFree_trace x
  graceful x _ _ := by
    unfold connCloseGraceful
    split <;> rfl

def Mute (new : List ConnEvent) : Prop := dispatches new = 0 ∧ ∀ due, answers (sentFrom due new) = 0

theorem reloadConn_mute (env : Env σ) (x : Ctx σ) :
    ∃ new, Mute new ∧ (reloadConn env x).c.trace = x.c.trace ++ new := by
  unfold reloadConn connSseWrite
  split
  · exact ⟨[], ⟨rfl, fun _ => rfl⟩, (List.append_nil _).symm⟩
  · dsimp only
    split
    · exact ⟨[], ⟨rfl, fun _ => rfl⟩, by rw [connCloseAndFree_trace, List.append_nil]; rfl⟩
    · obtain ⟨new, fits, trace⟩ := uvWrite_trace (countWrite x) (writeRes env x) ⟨.sse, .raw _⟩
      refine ⟨new, ?_, trace⟩
      obtain rfl | rfl := fits
      · exact ⟨rfl, fun _ => rfl⟩
      · exact ⟨rfl, fun _ => rfl⟩

theorem busy_paid (env : Env σ) (h : x.c.trace = []) :
    Paid 0 (connSendSimple env x 503 none (ascii "server busy\n") true).c := by
  unfold Paid
  obtain e | ⟨srv, st, res, rfl, e⟩ := connSendSimple_cases env x 503 none (ascii "server busy\n") true
  · have trace : (connCloseAndFree (countWrite x)).c.trace = [] := (connCloseAndFree_trace _).trans h
    rw [e, trace]
    exact Nat.le_refl _
  · obtain ⟨new, fits, trace⟩ := uvWrite_trace { x with
      srv := { x.srv with stats := st, writeCalls := x.srv.writeCalls + 1 }
      c := { x.c with keepAlive := !true, forceClose := true, statusSent := true } } res
      ⟨.simple, .reply (simpleReply 503 none (ascii "server busy\n") true)⟩
    rw [e, trace]
    dsimp only
    rw [h]
    obtain rfl | rfl := fits
    · exact Nat.le_refl _
    · exact Nat.le_refl _

theorem paid_rules (env : Env σ) : ConnRules env roomForDone Paid where
  fresh _ _ := Nat.le_refl _
  accept _ _ := Nat.le_refl _
  busy x now hx := busy_paid env (by rw [hx]; rfl)
  read s i data room x _ wired hl h _ hx _ _ :=
    ((owed_callbacks env).onRead hl hx fun _ _ => trivial).paid wired h
  readEnd m x hl h _ := h.of_trace ((traced_callbacks env).readEnd hl)
  written s i b w rest _ wired hl h hw := by
    have owed := (owed_callbacks env).onWrite b hl hw fun _ _ => trivial
    obtain ⟨srv, conn⟩ := reported_same (s.enter i) w.kind
    obtain ⟨id, pool⟩ := Prod.mk.inj srv
    have before : Paid (mine (reported (s.enter i) w.kind).srv.pool (reported (s.enter i) w.kind).id)
        (reported (s.enter i) w.kind).c := by
      rw [pool, id, conn]
      exact h.of_trace rfl
    have after := owed.paid (C := env.cfg.workQueue) (by rw [pool]; exact wired) before
    rw [id] at after
    exact after
  closed s i _ hl h hq hd hw := by
    rw [connOnStreamClosed_eq (x := s.enter i) hl hq hd hw]
    exact h.of_trace (congrArg Marks.trace (connFinalize_marks _))
  deadline m x hl h := h.of_trace ((traced_callbacks env).deadline hl)
  shutdown m x hl h := h.of_trace ((traced_callbacks env).shutdown hl)
  reload m x _ h := by
    obtain ⟨new, ⟨none, unpaid⟩, trace⟩ := reloadConn_mute env x
    unfold Paid sent at *
    rw [trace, sentFrom_append, answers_append, dispatches_append, none, unpaid]
    exact h
  handler _ _ _ _ _ h := h
  finish := .inl fun _ _ _ room => room
  drain _ _ _ _ h := drainReq_paid h env

end Owed

def Queued (c : Conn σ) : Prop := ∃ done, (sent c.trace).map (·.1) = done ++ c.writes

section Queue
variable {env : Env σ} {x y : Ctx σ} {new : List ConnEvent} {refused : List CodeClass} {orphans : ℕ}

theorem posts_queued (posts : Posts x y new refused orphans) (h : Queued x.c) : Queued y.c := by
  obtain ⟨done, queue⟩ := h
  refine ⟨done, ?_⟩
  unfold sent at *
  rw [posts.trace, posts.writes, sentFrom_append, List.map_append, queue, sentFrom_writes, List.append_assoc]

theorem Queued.pop {c : Conn σ} (h : Queued c) : Queued (popWrite c) := by
  obtain ⟨done, queue⟩ := h
  unfold Queued popWrite
  dsimp only
  cases writes : c.writes with
  | nil => exact ⟨done, by rw [queue, writes]; rfl⟩
  | cons w rest => exact ⟨done ++ [w], by rw [queue, writes, List.append_assoc]; rfl⟩

theorem queued_rules (env : Env σ) :
    ConnRules env (fun s a => ∀ p ∈ completed env s a, False → Accountable env p.1 p.2) fun _ c => Queued c := by
  have keeps : ∀ x y : Ctx σ, Closed env (False ∧ Coded x.c) x y → Queued x.c → Queued y.c :=
    fun x y ⟨_, _, _, posts, _⟩ h => posts_queued posts h
  refine (booked_callbacks env False).conns keeps (fun _ _ => ⟨[], rfl⟩) (fun _ h => h.pop) (fun x hl h => ?_)
    (fun x _ open_ _ h => ?_) (fun x hl h => ?_) (fun _ _ _ h => h) fun x k hl h => ?_
  · exact keeps _ _ (connSendSimple_booked hl env (fun never => never.1.elim) none _ true).closed h
  · obtain ⟨srv, a, _, _, e⟩ := connFinalize_cases (x := { x with c := { x.c with closeCbDone := true } }) open_
    rw [e]
    exact h
  · exact keeps _ _ (reloadConn_booked hl env).closed h
  · exact keeps _ _ (drainReq_booked hl env k).closed h

theorem reach_queued {ok : Srv σ → Step → Prop} {s : Srv σ} (h : Reach (server env) ok s) (i : ℕ) :
    Queued (s.conns i) :=
  ((queued_rules env).reach (h.mono fun _ _ _ _ _ never => never.elim)).each i

def Emptied (c : Conn σ) : Prop := c.finalized = true → c.writes = []

theorem finalized_callbacks (env : Env σ) : CallbackRules env (fun _ _ => True)
    (fun x y => y.c.finalized = x.c.finalized) fun x y => y.c.finalized = x.c.finalized where
  refl _ := rfl
  trans _ _ _ h₁ h₂ := h₂.trans h₁
  whole _ _ h := h
  ends _ _ _ h₁ h₂ := h₂.trans h₁
  event _ ev hl _ := (onEvent_loose hl env ev).finalized
  buffer _ _ _ _ := rfl
  receive _ _ := rfl
  reject _ code reason hl _ := (rejectRequest_kept hl env code reason).finalized
  rearm _ _ _ _ := rfl
  restart _ _ _ _ := rfl
  shed _ _ _ := rfl
  cancel x _ := by
    obtain ⟨o, ho⟩ := cancelReq_objs x.c
    rw [ho]
  close _ hl := (connCloseAndFree_kept hl).finalized
  graceful x _ _ := by
    unfold connCloseGraceful
    split <;> rfl

theorem Emptied.of_live {c : Conn σ} (h : c.finalized = false) : Emptied c := fun ended => by
  rw [h] at ended
  cases ended

theorem connCloseAndFree_writes {x : Ctx σ} (hl : Linked x.c) :
    ((connCloseAndFree x).c.finalized, (connCloseAndFree x).c.writes) = (x.c.finalized, x.c.writes) := by
  cases h : x.c.closing with
  | true => rw [connCloseAndFree_closing h]
  | false =>
    obtain ⟨o, clients, st, e⟩ := connCloseAndFree_open hl h
    rw [e]

theorem unwritten_callbacks (env : Env σ) :
    QuietRules env (fun x y => (y.c.finalized, y.c.writes) = (x.c.finalized, x.c.writes))
      fun x y => (y.c.finalized, y.c.writes) = (x.c.finalized, x.c.writes) where
  refl _ := rfl
  trans _ _ _ h₁ h₂ := h₂.trans h₁
  whole _ _ h := h
  ends _ _ _ h₁ h₂ := h₂.trans h₁
  buffer _ _ _ _ := rfl
  receive _ _ := rfl
  rearm _ _ _ _ := rfl
  restart _ _ _ _ := rfl
  shed _ _ _ := rfl
  cancel x _ := by
    obtain ⟨o, ho⟩ := cancelReq_objs x.c
    rw [ho]
  close _ hl := connCloseAndFree_writes hl
  graceful x _ _ := by
    unfold connCloseGraceful
    split <;> rfl

theorem Emptied.of_eq {c d : Conn σ} (h : Emptied c)
    (same : (d.finalized, d.writes) = (c.finalized, c.writes)) : Emptied d := by
  obtain ⟨finalized, writes⟩ := Prod.mk.inj same
  unfold Emptied at *
  rwa [finalized, writes]

theorem emptied_rules (env : Env σ) : ConnRules env anyStep fun _ c => Emptied c where
  fresh _ _ := .of_live rfl
  accept _ _ := .of_live rfl
  busy x now hx := by
    have linked : Linked x.c := hx ▸ freshConn_linked env x.id now
    refine .of_live ((connSendSimple_kept linked env 503 none (ascii "server busy\n") true).finalized.trans ?_)
    rw [hx]
    rfl
  read s i data room x _ _ hl _ reading hx _ _ := by
    refine .of_live (((finalized_callbacks env).onRead hl hx fun _ _ => trivial).trans ?_)
    refine Bool.eq_false_iff.mpr fun ended => ?_
    have closing : (s.conns i).closing = true := hl.finalized ended
    rw [hl.reading reading] at closing
    cases closing
  readEnd _ x hl h _ := h.of_eq ((unwritten_callbacks env).readEnd hl)
  written s i b w rest _ _ hl h hw := by
    refine .of_live (((finalized_callbacks env).onWrite b hl hw fun _ _ => trivial).trans ?_)
    obtain ⟨_, conn⟩ := reported_same (s.enter i) w.kind
    rw [conn]
    exact Bool.eq_false_iff.mpr fun ended => by
      rw [h ended] at hw
      cases hw
  closed s i _ hl h hq hd hw := by
    rw [connOnStreamClosed_eq (x := s.enter i) hl hq hd hw]
    have open_ : (s.conns i).finalized = false := by rw [← hl.closeCb, hd]
    obtain ⟨srv, a, _, _, e⟩ := connFinalize_cases (x := { s.enter i with c :=
      { (s.enter i).c with closeCbDone := true } }) open_
    rw [e]
    exact fun _ => hw
  deadline _ x hl h := h.of_eq ((unwritten_callbacks env).deadline hl)
  shutdown _ x hl h := h.of_eq ((unwritten_callbacks env).shutdown hl)
  reload _ x hl h := by
    cases ended : x.c.finalized with
    | true =>
      unfold reloadConn
      rw [if_pos (hl.finalized ended)]
      exact h
    | false => exact .of_live ((reloadConn_kept hl env).1.finalized.trans ended)
  handler _ _ _ _ _ h := h
  finish := .inr fun _ _ _ _ h => h
  drain _ ref x hl h := by
    obtain ⟨_, st, e⟩ | ⟨open_, _⟩ := drainReq_cases hl env ref.req
    · rw [e]
      exact h
    · refine .of_live ((drainReq_kept hl env ref.req).1.finalized.trans ?_)
      exact Bool.eq_false_iff.mpr fun ended => by
        rw [hl.finalized ended] at open_
        cases open_

def Halting (c : Conn σ) : Prop :=
  c.writable = false → c.closing = true ∨ c.phase = .drain ∧ closeFlag c = true

theorem Halting.of_open {c : Conn σ} (h : c.writable = true) : Halting c := fun shut => by
  rw [h] at shut
  cases shut

theorem Halting.of_closing {c : Conn σ} (h : c.closing = true) : Halting c := fun _ => .inl h

theorem Halting.of_eq {c d : Conn σ} (h : Halting c)
    (same : (d.writable, d.closing, d.phase, d.forceClose, d.keepAlive) =
      (c.writable, c.closing, c.phase, c.forceClose, c.keepAlive)) : Halting d := by
  simp only [Prod.mk.injEq] at same
  obtain ⟨writable, closing, phase, force, keep⟩ := same
  unfold Halting closeFlag at *
  rwa [writable, closing, phase, force, keep]

theorem Halting.writable {c : Conn σ} (h : Halting c) (open_ : c.closing = false) (flag : closeFlag c = false) :
    c.writable = true := by
  refine Bool.not_eq_false _ ▸ fun shut => ?_
  obtain closing | ⟨_, set⟩ := h shut
  · rw [open_] at closing
    cases closing
  · rw [flag] at set
    cases set

theorem Halting.parses {c : Conn σ} (h : Halting c) (open_ : c.closing = false)
    (drained : (c.statusSent || decide (c.phase = .drain)) = false) : c.writable = true := by
  refine Bool.not_eq_false _ ▸ fun shut => ?_
  obtain closing | ⟨drains, _⟩ := h shut
  · rw [open_] at closing
    cases closing
  · rw [drains, decide_eq_true rfl, Bool.or_true] at drained
    cases drained

theorem received_same {s : Srv σ} {i room : ℕ} {x : Ctx σ}
    (hx : connAllocCb env (s.enter i) = (some room, x)) (data : Bytes) :
    ∃ b, (received x data).c = { s.conns i with buf := b } := by
  unfold connAllocCb at hx
  split at hx
  · cases hx
  · cases hx
    exact ⟨_, rfl⟩

theorem halting_callbacks (env : Env σ) :
    QuietRules env (fun x y => Halting x.c → Halting y.c) fun x y => Halting x.c → Halting y.c where
  refl _ h := h
  trans _ _ _ h₁ h₂ := h₂ ∘ h₁
  whole _ _ h := h
  ends _ _ _ h₁ h₂ := h₂ ∘ h₁
  buffer _ _ _ _ h := h
  receive _ _ h := h
  rearm _ _ open_ flag h := .of_open (h.writable open_ flag)
  restart _ _ open_ flag h := .of_open (h.writable open_ flag)
  shed _ _ closing _ := .of_closing closing
  cancel x _ h shut := by
    obtain ⟨o, ho⟩ := cancelReq_objs x.c
    rw [ho] at shut ⊢
    exact (h shut).imp id fun drains => ⟨drains.1, rfl⟩
  close _ hl _ := .of_closing (connCloseAndFree_closes hl)
  graceful x _ flag h := by
    unfold connCloseGraceful
    split
    · exact h
    · exact fun _ => .inr ⟨rfl, flag⟩

theorem booked_halting {good : Prop} (granted : ∀ n, env.write n = .ok) (hl : Linked x.c)
    (booked : Booked env good x y) (writable : x.c.writable = true) (open_ : x.c.closing = false) :
    Halting y.c := by
  obtain ⟨_, _, _, _, usable, _⟩ := booked
  exact .of_open (usable ⟨granted, writable, hl.queued.trans open_⟩).2.2.1

theorem shut_refuses (h : x.c.writable = false) : writeRes env x ≠ .ok := by
  unfold writeRes
  split
  · rw [h, Bool.false_and, if_neg Bool.false_ne_true]
    decide
  · assumption

theorem reloadConn_halting (granted : ∀ n, env.write n = .ok) (hl : Linked x.c) (h : Halting x.c) :
    Halting (reloadConn env x).c := by
  cases closing : x.c.closing with
  | true =>
    unfold reloadConn
    rw [if_pos closing]
    exact h
  | false =>
    cases writable : x.c.writable with
    | true => exact booked_halting granted hl (reloadConn_booked hl env : Booked env False x _) writable closing
    | false =>
      unfold reloadConn
      rw [if_neg (by rw [closing]; decide)]
      exact .of_closing (congrArg Marks.closing (connSseWrite_closes (shut_refuses writable) _))

theorem connStartResponse_halting (granted : ∀ n, env.write n = .ok) (hl : Linked x.c)
    (open_ : x.c.closing = false) (k : ℕ) : Halting (connStartResponse env x k).c := by
  cases writable : x.c.writable with
  | true => exact booked_halting granted hl (connStartResponse_booked hl env k : Booked env False x _) writable open_
  | false =>
    have ends : Ends env k x (connStartResponse env x k) _ := connStartResponse_ends ⟨rfl, rfl, rfl⟩
    rw [if_neg (shut_refuses writable)] at ends
    cases ends with
    | refused _ marks => exact .of_closing (congrArg Marks.closing marks)
    | cut _ _ marks => exact .of_closing (congrArg Marks.closing marks)

theorem halting_rules (granted : ∀ n, env.write n = .ok) : ConnRules env anyStep fun _ c => Halting c where
  fresh _ _ := .of_open rfl
  accept _ _ := .of_open rfl
  busy x now hx := by
    have linked : Linked x.c := hx ▸ freshConn_linked env x.id now
    have sent : Booked env False x (connSendSimple env x 503 none (ascii "server busy\n") true) :=
      connSendSimple_booked linked env (fun never => never.elim) none _ true
    exact booked_halting granted linked sent (by rw [hx]; rfl) (by rw [hx]; rfl)
  read s i data room x _ _ hl h reading hx _ _ := by
    obtain ⟨_, quiet⟩ | ⟨_, ready, drained, linked⟩ := (halting_callbacks env).read data hl hx
    · exact quiet h
    · have open_ : (received x data).c.closing = false := by
        obtain ⟨b, e⟩ := received_same hx data
        rw [e]
        exact hl.reading reading
      have writable := (ready h).parses open_ drained
      have ran := (booked_callbacks env False).parse linked drained fun _ _ never => never.elim
      exact booked_halting granted linked ran.2 writable open_
  readEnd _ x hl h _ := (halting_callbacks env).readEnd hl h
  written s i b w rest _ _ hl h hw := by
    obtain ⟨_, quiet⟩ | ⟨z, _, _, linked, rfl, open_, flag, _, e⟩ := (halting_callbacks env).written b hl hw
    · refine quiet (h.of_eq ?_)
      rw [(reported_same (s.enter i) w.kind).2]
      rfl
    · have ran := (booked_callbacks env False).resumeFrom linked fun _ _ _ never => never.elim
      rw [e]
      exact booked_halting granted linked ran.2 (h.writable open_ flag) open_
  closed s i _ hl h hq hd hw := by
    rw [connOnStreamClosed_eq (x := s.enter i) hl hq hd hw]
    refine .of_closing ((congrArg Marks.closing (connFinalize_marks _)).trans ?_)
    exact hl.queued.symm.trans hq
  deadline _ x hl h := (halting_callbacks env).deadline hl h
  shutdown _ x hl h := (halting_callbacks env).shutdown hl h
  reload _ x hl h := reloadConn_halting granted hl h
  handler _ _ _ _ _ h := h
  finish := .inr fun _ _ _ _ h => h
  drain _ ref x hl h := by
    obtain ⟨_, st, e⟩ | ⟨open_, y, prep, e⟩ := drainReq_cases hl env ref.req <;> rw [e]
    · exact h
    · have linked := (prepared_kept prep hl).linked
      obtain ⟨a, o, st, _, rfl⟩ := prep
      exact connStartResponse_halting granted linked open_ ref.req

end Queue

end Cerco.SentReplies
