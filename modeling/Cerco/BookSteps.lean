import Cerco.RejectCodes
import Cerco.ShutdownDrain
import Cerco.Verdicts

set_option autoImplicit false

/-!
# The accounts of a step

Requests are counted when the parser completes a message; `Accountable` says that there is
one to dispatch and that its answer is counted in its class. The callbacks are booked from
there, then the steps.
-/
namespace Cerco.BookSteps
open Cerco.Alloc Cerco.CString Cerco.Request Cerco.Response Cerco.Connection Cerco.Dispatch
open Cerco.HttpCallbacks Cerco.Server Cerco.WorkerPool Cerco.TransitionRuns Cerco.ConnFrames
open Cerco.ServerRules Cerco.Responders Cerco.SpanParser Cerco.CloseFlags Cerco.Books Cerco.Verdicts
open Cerco.Callbacks Cerco.RejectCodes

variable {σ : Type}

/-- A message that is complete and counted has a request to dispatch, and the writer that answers it
counts the answer as what it is. -/
def Accountable (env : Env σ) (y : Ctx σ) (keepAlive : Bool) : Prop :=
  (completeReq (told y keepAlive)).2 = 0 → y.c.stage.badRequest = 0 ∧
    ∃ k ∈ y.c.req, Fits (verdict env { y with c := (completeReq (told y keepAlive)).1 } k)

instance (env : Env σ) (y : Ctx σ) (keepAlive : Bool) : Decidable (Accountable env y keepAlive) :=
  inferInstanceAs (Decidable (_ → _))

section Callbacks
variable {env : Env σ} {x y : Ctx σ} {good : Prop}

theorem assembled_booked {d : Conn σ} (h : Assembled x.c d) : Booked env good x { x with c := d } := by
  obtain ⟨a, o, st, _, rfl⟩ := h
  exact .silent rfl rfl (.refl _)

theorem onMessageBegin_booked (env : Env σ) (x : Ctx σ) : Booked env good x (onMessageBegin env x).1 := by
  unfold onMessageBegin
  split
  · exact .silent rfl rfl (.refl _)
  · dsimp only
    split <;> exact .silent rfl rfl (.refl _)

theorem onHeadersComplete_booked (env : Env σ) (x : Ctx σ) (n : ℕ) (chunked : Bool) :
    Booked env good x (onHeadersComplete env x n chunked).1 := by
  obtain ⟨d, assembled, e | e⟩ := onHeadersComplete_cases env x n chunked <;> rw [e]
  · exact assembled_booked assembled
  · exact (assembled_booked assembled).trans (.silent rfl rfl (.refl _))

theorem counted_booked {c : Conn σ} (hl : Linked c) (env : Env σ)
    (fits : good → c.stage.badRequest = 0 ∧ ∃ k ∈ c.req, Fits (verdict env { y with c := c } k)) :
    Booked env good { y with c := c } (connRequestDispatch env (counted y c)) := by
  have orphan (never : ¬ good) : Booked env good { y with c := c } (counted y c) :=
    ⟨[], [], 1, ⟨(List.append_nil _).symm, (List.append_nil _).symm, rfl, by simp [counted, Ctx.stat],
      fun cls => by cases cls <;> simp [responses, counted, Ctx.stat]⟩, fun ready => ⟨rfl, ready⟩,
      fun holds => absurd holds never⟩
  unfold connRequestDispatch
  split
  · rename_i none
    refine orphan fun holds => ?_
    obtain ⟨_, k, hk, _⟩ := fits holds
    rw [show c.req = Option.none from none] at hk
    cases hk
  · rename_i k hk
    split
    · rename_i bad
      exact orphan fun holds => bad (fits holds).1
    · let z : Ctx σ := { counted y c with c := { c with trace := c.trace ++ [.dispatched k (c.objs k)] } }
      have noted : Booked env good { y with c := c } z := by
        refine ⟨[.dispatched k (c.objs k)], [], 0, ⟨rfl, (List.append_nil _).symm, rfl, ?_, fun cls => ?_⟩,
          fun ready => ⟨rfl, ready⟩, fun _ => ⟨rfl, fun ev hev => ?_⟩⟩
        · simp [z, counted, Ctx.stat, isStream, isDispatch]
        · have mute : [ConnEvent.dispatched k (c.objs k)].filterMap tallied = [] := rfl
          rw [mute]
          cases cls <;> simp [responses, z, counted, Ctx.stat]
        · rw [List.mem_singleton.mp hev]
          exact ⟨rfl, rfl⟩
      refine noted.trans (dispatchReq_booked (x := z) (hl.of_eq rfl) env k fun holds => ?_)
      obtain ⟨_, j, hj, fits⟩ := fits holds
      rw [show c.req = some k from hk] at hj
      cases hj
      exact fits

theorem onMessageComplete_booked (hl : Linked x.c) (env : Env σ) (keepAlive : Bool)
    (fits : good → Accountable env x keepAlive) : Booked env good x (onMessageComplete env x keepAlive).1 := by
  have assembled := completeReq_assembled (told x keepAlive)
  have linked := assembled.linked (hl.of_eq rfl)
  obtain ⟨req, bad⟩ := completeReq_kept (told x keepAlive)
  have stored : Booked env good x { x with c := told x keepAlive } := .silent rfl rfl (.refl _)
  have taken := stored.trans (assembled_booked (x := { x with c := told x keepAlive }) assembled)
  unfold Accountable at fits
  generalize hd : completeReq (told x keepAlive) = done at linked req bad taken fits
  obtain ⟨c, code⟩ := done
  obtain ⟨_, e⟩ | ⟨fine, z, rfl, e⟩ := onMessageComplete_cases env x keepAlive hd <;> rw [e]
  · exact taken.trans (.silent rfl rfl (.refl _))
  · refine (taken.trans (counted_booked (y := x) linked env fun holds => ?_)).trans (.silent rfl rfl (.refl _))
    have fits := fits holds fine
    rw [bad, req]
    exact fits

theorem onEvent_booked (hl : Linked x.c) (env : Env σ) (ev : HttpEvent)
    (fits : good → ∀ keepAlive ∈ completes ev, Accountable env x keepAlive) :
    Booked env good x (onEvent env x ev).1 := by
  cases ev with
  | span k s =>
    cases k with
    | url => exact assembled_booked (onUrl_assembled x.c s)
    | field => exact assembled_booked (onHeaderField_assembled x.c s)
    | value => exact assembled_booked (onHeaderValue_assembled x.c s)
    | body => exact assembled_booked (onBody_assembled env x.c s)
  | mark m =>
    cases m with
    | messageBegin => exact onMessageBegin_booked env x
    | method name => exact .silent rfl rfl (.refl _)
    | headersComplete n chunked => exact onHeadersComplete_booked env x n chunked
    | messageComplete keepAlive => exact onMessageComplete_booked hl env keepAlive fun holds => fits holds _ rfl
  | fail e => exact .refl env good x

theorem rejectRequest_booked (hl : Linked x.c) (env : Env σ) {code : ℕ} (fits : good → ClientError code)
    (reason : Bytes) : Booked env good x (rejectRequest env x code reason) := by
  let z : Ctx σ := { x with c := { x.c with forceClose := true, trace := x.c.trace ++ [.rejected code] } }
  have noted : Booked env good x z := by
    refine ⟨[.rejected code], [], 0, ⟨rfl, (List.append_nil _).symm, rfl, by simp [z, isStream, isDispatch],
      fun cls => ?_⟩, fun ready => ⟨rfl, ready⟩, fun _ => ⟨rfl, fun ev hev => ?_⟩⟩
    · have mute : [ConnEvent.rejected code].filterMap tallied = [] := rfl
      simp [mute, z]
    · rw [List.mem_singleton.mp hev]
      exact ⟨rfl, rfl⟩
  exact noted.trans (connSendSimple_booked (x := z) (hl.of_eq rfl) env fits none reason true)

theorem connCloseGraceful_closed (env : Env σ) (x : Ctx σ) : Closed env good x (connCloseGraceful x) := by
  refine ⟨[], [], 0, .silent ?_ ?_ ?_, fun _ => rfl, fun _ => none_fair⟩ <;> unfold connCloseGraceful <;> split
  · rfl
  · rfl
  · rfl
  · rfl
  · exact .refl _
  · exact .refl _

theorem forced_booked (env : Env σ) (x : Ctx σ) :
    Booked env good x { x with c := { cancelReq x.c with forceClose := true } } := by
  obtain ⟨o, ho⟩ := cancelReq_objs x.c
  rw [ho]
  exact .silent rfl rfl (.refl _)

theorem reloadConn_booked (hl : Linked x.c) (env : Env σ) : Booked env good x (reloadConn env x) := by
  unfold reloadConn
  split
  · exact .refl env good x
  · exact connSseWrite_booked hl env _

theorem drainReq_booked (hl : Linked x.c) (env : Env σ) (k : ℕ) : Booked env good x (drainReq env x k) := by
  have counted : Ready x (x.stat fun s => { s with completedJobs := s.completedJobs + 1 }) :=
    ⟨⟨_, _, _, rfl⟩, rfl, rfl, fun _ => rfl⟩
  unfold drainReq
  dsimp only
  split
  · rw [connMaybeFinalize_linked (by exact hl)]
    exact counted.booked
  · generalize hy : Ctx.stat (Ctx.stat x _) _ = y
    have seen : Ready x y := by
      subst hy
      exact ⟨⟨_, _, _, rfl⟩, rfl, rfl, fun _ => rfl⟩
    have ready := ((seen.withReq k checkResponse).withReq k applyPageTitle).withReq k (devInjectLiveScript env)
    exact ready.booked.trans (connStartResponse_booked (ready.linked hl) env k)

/-- The accounts of a part of a callback; they are right when the code of a bad request is one. -/
def Entered (env : Env σ) (good : Prop) (x y : Ctx σ) : Prop :=
  (Coded x.c → Coded y.c) ∧ Booked env (good ∧ Coded x.c) x y

def Settled (env : Env σ) (good : Prop) (x y : Ctx σ) : Prop := Closed env (good ∧ Coded x.c) x y

theorem Entered.silent (codes : Coded x.c → Coded y.c)
    (conn : (y.c.trace, y.c.writes, y.c.writable, y.c.closeQueued) =
      (x.c.trace, x.c.writes, x.c.writable, x.c.closeQueued)) (level : y.srv.nConns = x.srv.nConns)
    (same : SameBooks x.srv.stats y.srv.stats) : Entered env good x y :=
  ⟨codes, .silent conn level same⟩

theorem booked_callbacks (env : Env σ) (good : Prop) :
    CallbackRules env (fun y keepAlive => good → Accountable env y keepAlive) (Entered env good)
      (Settled env good) where
  refl x := ⟨id, .refl env _ x⟩
  trans x y z h₁ h₂ :=
    ⟨h₂.1 ∘ h₁.1, h₁.2.trans (h₂.2.mono fun holds => ⟨holds.1, h₁.1 holds.2⟩)⟩
  whole x y h := h.2.closed
  ends x y z h₁ h₂ := h₁.2.then_closed (Closed.mono h₂ fun holds => ⟨holds.1, h₁.1 holds.2⟩)
  event x ev hl fits := ⟨onEvent_coded hl env ev, onEvent_booked hl env ev fun holds keepAlive hk =>
    fits keepAlive hk holds.1⟩
  buffer _ _ _ _ := .silent id rfl rfl (.refl _)
  receive _ _ := .silent id rfl rfl ⟨rfl, rfl, fun _ => rfl⟩
  reject x code reason hl cause := by
    refine ⟨Kept.coded (rejectRequest_kept hl env code reason), rejectRequest_booked hl env (fun holds => ?_) reason⟩
    obtain rfl | ⟨rfl, bad⟩ := cause
    · decide
    · exact holds.2.resolve_left bad
  rearm _ _ _ _ := .silent (fun _ => .inl rfl) rfl rfl (.refl _)
  restart _ _ _ _ := .silent (fun _ => .inl rfl) rfl rfl (.refl _)
  shed _ _ _ := .silent id rfl rfl (.refl _)
  cancel x _ := ⟨cancelReq_coded, forced_booked env x⟩
  close _ hl := connCloseAndFree_closed hl
  graceful x _ _ := connCloseGraceful_closed env x

end Callbacks

/-- `n_conns` and `stats.active_conns`. -/
def level (s : Srv σ) : ℤ × ℤ := (s.nConns, s.stats.activeConns)

theorem closed_level {env : Env σ} {x y : Ctx σ} {good : Prop} (h : Closed env good x y) :
    level y.done = level x.srv := by
  obtain ⟨_, _, _, posts, _⟩ := h
  exact posts.level

theorem settled_level {env : Env σ} {x y : Ctx σ} {good : Prop} (h : Settled env good x y) :
    level y.done = level x.srv := closed_level h

theorem eachConn_level {f : Ctx σ → Ctx σ}
    (hf : ∀ x : Ctx σ, Linked x.c → Stays x (f x) ∧ level (f x).srv = level x.srv) (ids : List ℕ) {s : Srv σ}
    (linked : ∀ i, Linked (s.conns i)) : level (eachConn f ids s) = level s := by
  unfold eachConn
  induction ids generalizing s with
  | nil => rfl
  | cons i ids ih =>
    obtain ⟨stays, same⟩ := hf (s.enter i) (linked i)
    refine (ih fun j => ?_).trans same
    rw [stays.done_conns]
    split
    · exact stays.linked
    · exact linked j

theorem cercoConnectionCb_level (env : Env σ) {s : Srv σ} (up : s.shuttingDown = false) :
    level (cercoConnectionCb env s) = (s.nConns + 1, s.stats.activeConns + 1) := by
  have fresh : Linked (accepted env s).c := freshConn_linked env s.nextConn s.now
  unfold cercoConnectionCb
  rw [up, if_neg Bool.false_ne_true]
  dsimp only
  split
  · have sent : Booked env False (accepted env s)
        (connSendSimple env (accepted env s) 503 none (ascii "server busy\n") true) :=
      connSendSimple_booked fresh env (fun never => never.elim) none (ascii "server busy\n") true
    exact closed_level sent.closed
  · rfl

theorem connFinalize_level {x : Ctx σ} (before : x.c.finalized = false) :
    level (connFinalize x).done = (x.srv.nConns - 1, x.srv.stats.activeConns - 1) := by
  unfold connFinalize
  rw [before, if_neg Bool.false_ne_true]
  dsimp only
  split <;> rfl

theorem closedStep_level {s t : Srv σ} {i : ℕ} (hl : Linked (s.conns i)) (ht : closedStep s i = some t) :
    level t = (s.nConns - 1, s.stats.activeConns - 1) := by
  unfold closedStep at ht
  split at ht
  · rename_i hg
    cases ht
    rw [connOnStreamClosed_eq (x := s.enter i) hl hg.2.1 hg.2.2.1 hg.2.2.2]
    refine connFinalize_level ?_
    change (s.conns i).finalized = false
    rw [← hl.closeCb, hg.2.2.1]
  · cases ht

theorem srvStep_level {env : Env σ} {s t : Srv σ} {a : Step} (linked : ∀ i, Linked (s.conns i))
    (ht : srvStep env s a = some t) (busy : a = .accept → s.shuttingDown = true) (live : ∀ i, a ≠ .closed i) :
    level t = level s := by
  unfold srvStep at ht
  split at ht
  · cases ht
  · cases a with
    | accept =>
      cases ht
      unfold cercoConnectionCb
      rw [busy rfl, if_pos rfl]
    | read i data =>
      obtain ⟨_, room, x, hx, rfl⟩ := readStep_cases ht
      exact settled_level ((booked_callbacks env False).onRead (linked i) hx fun _ _ never => never.elim)
    | readEnd i =>
      simp only [readEndStep] at ht
      split at ht
      · cases ht
        exact settled_level ((booked_callbacks env False).readEnd (x := s.enter i) (linked i))
      · cases ht
    | written i ok =>
      obtain ⟨_, w, rest, hw, rfl⟩ := writtenStep_cases ht
      have settled : Settled env False (reported (s.enter i) w.kind) (onWritten env (s.enter i) w.kind ok) :=
        (booked_callbacks env False).onWrite ok (linked i) hw fun _ _ never => never.elim
      refine (settled_level settled).trans ?_
      obtain ⟨kind, out⟩ := w
      cases kind with
      | response k =>
        unfold reported
        dsimp only
        split <;> rfl
      | simple => rfl
      | sse => rfl
    | closed i => exact absurd rfl (live i)
    | sweep =>
      cases ht
      exact eachConn_level (fun x hl => ⟨(connDeadlinePass_kept hl).1.toStays,
        settled_level ((booked_callbacks env False).deadline hl)⟩) _ linked
    | reload =>
      cases ht
      exact eachConn_level (fun x hl => ⟨(reloadConn_kept hl env).1.toStays,
        closed_level (reloadConn_booked hl env : Booked env False x _).closed⟩) _ linked
    | tick ms =>
      cases ht
      rfl
    | take w =>
      obtain ⟨p, _, rfl⟩ := Option.map_eq_some_iff.mp ht
      rfl
    | finish w calls =>
      simp only [finishJob] at ht
      split at ht
      · cases ht
      · obtain ⟨p, _, rfl⟩ := Option.map_eq_some_iff.mp ht
        rfl
    | drain =>
      simp only [drainJob] at ht
      split at ht
      · cases ht
      · rename_i ref q _
        cases ht
        let x := ({ s with pool := drainStep s.pool (ref, q) } : Srv σ).enter ref.conn
        have drained : Booked env False x (drainReq env x ref.req) :=
          drainReq_booked (linked ref.conn) env ref.req
        exact closed_level drained.closed
    | shutdown =>
      cases ht
      unfold startShutdown
      split
      · rfl
      · exact eachConn_level (s := { s with shuttingDown := true }) (fun x hl =>
          ⟨(shutdownConn_kept hl).1.toStays, settled_level ((booked_callbacks env False).shutdown hl)⟩) _ linked

end Cerco.BookSteps
