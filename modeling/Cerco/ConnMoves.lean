import Cerco.ServerRules

set_option autoImplicit false

/-!
# What a step does to each connection

`ConnRules` lists what to check of a property of connections. `MoveRules` does the same for
a relation between a connection before a step and behind it, with the time on both sides.
-/
namespace Cerco.ConnMoves
open Cerco.Alloc Cerco.CString Cerco.Connection Cerco.HttpCallbacks Cerco.Server Cerco.WorkerPool Cerco.ArenaUse
open Cerco.ConnFrames Cerco.ServerRules

variable {σ : Type}

/-- A callback leads from `x` to `y`. -/
def Turn (R : ℕ → Conn σ → ℕ → Conn σ → Prop) (x y : Ctx σ) : Prop := R x.srv.now x.c y.srv.now y.c

/-- What to check of `R` so that every step that takes up no connection, the clock apart, leads from each
connection to what becomes of it. A connection that is not worked on sees the time that another one does. -/
structure MoveRules (env : Env σ) (known : Srv σ → Prop) (ok : Srv σ → Step → Prop)
    (R : ℕ → Conn σ → ℕ → Conn σ → Prop) : Prop where
  linked : ∀ s, known s → ∀ i, Linked (s.conns i)
  refl : ∀ n c, R n c n c
  trans : ∀ n c n' d n'' e, R n c n' d → R n' d n'' e → R n c n'' e
  others : ∀ n c n' d e, R n c n' d → R n e n' e
  read : ∀ s i data room x, known s → ok s (.read i data) → connAllocCb env (s.enter i) = (some room, x) →
    Turn R (s.enter i) (connOnRead env x data)
  readEnd : ∀ x : Ctx σ, Linked x.c → Turn R x (connCloseAndFree (connAllocCb env x).2)
  written : ∀ s i b w rest, known s → ok s (.written i b) → (s.conns i).writes = w :: rest →
    Turn R (s.enter i) (onWritten env (s.enter i) w.kind b)
  closed : ∀ x : Ctx σ, Linked x.c → x.c.closeQueued = true → x.c.closeCbDone = false → x.c.writes = [] →
    Turn R x (connOnStreamClosed x)
  deadline : ∀ x : Ctx σ, Linked x.c → Turn R x (connDeadlinePass x)
  shutdown : ∀ x : Ctx σ, Linked x.c → Turn R x (shutdownConn x)
  reload : ∀ x : Ctx σ, Linked x.c → Turn R x (reloadConn env x)
  handler : ∀ (x : Ctx σ) k calls, Turn R x (x.withReq k (handlerRun calls))
  drain : ∀ s ref q, known s → drainOne s.pool.pool = some (ref, q) →
    Turn R (({ s with pool := drainStep s.pool (ref, q) } : Srv σ).enter ref.conn)
      (drainReq env (({ s with pool := drainStep s.pool (ref, q) } : Srv σ).enter ref.conn) ref.req)

/-- `R` leads from every connection of `s` to what it is in `t`, and there is no new one. -/
structure Moves (R : ℕ → Conn σ → ℕ → Conn σ → Prop) (s t : Srv σ) : Prop where
  next : t.nextConn = s.nextConn
  each : ∀ j, R s.now (s.conns j) t.now (t.conns j)

section Moves
variable {env : Env σ} {known : Srv σ → Prop} {ok : Srv σ → Step → Prop} {R : ℕ → Conn σ → ℕ → Conn σ → Prop}
  {s t : Srv σ} {i : ℕ}

theorem MoveRules.still (rules : MoveRules env known ok R) (s : Srv σ) : Moves R s s := ⟨rfl, fun _ => rules.refl _ _⟩

theorem MoveRules.done (rules : MoveRules env known ok R) {y : Ctx σ} (stays : Stays (s.enter i) y)
    (turn : Turn R (s.enter i) y) : Moves R s y.done := by
  refine ⟨stays.nextConn, fun j => ?_⟩
  rw [stays.done_conns]
  split
  · rename_i own
    rw [own]
    exact turn
  · exact rules.others _ _ _ _ _ turn

theorem MoveRules.walk (rules : MoveRules env known ok R) {f : Ctx σ → Ctx σ}
    (stays : ∀ x : Ctx σ, Linked x.c → Stays x (f x)) (turn : ∀ x : Ctx σ, Linked x.c → Turn R x (f x))
    (ids : List ℕ) (linked : ∀ i, Linked (s.conns i)) : Moves R s (eachConn f ids s) := by
  unfold eachConn
  induction ids generalizing s with
  | nil => exact rules.still s
  | cons i ids ih =>
    have first := rules.done (stays (s.enter i) (linked i)) (turn (s.enter i) (linked i))
    have rest := ih (s := (f (s.enter i)).done) fun k => by
      rw [(stays (s.enter i) (linked i)).done_conns]
      split
      · exact (stays (s.enter i) (linked i)).linked
      · exact linked k
    exact ⟨rest.next.trans first.next, fun j => rules.trans _ _ _ _ _ _ (first.each j) (rest.each j)⟩

theorem MoveRules.step (rules : MoveRules env known ok R) {a : Step} (facts : known s) (good : ok s a)
    (ht : srvStep env s a = some t) (other : a ≠ .accept) (untimed : ∀ ms, a ≠ .tick ms) : Moves R s t := by
  have linked := rules.linked s facts
  unfold srvStep at ht
  split at ht
  · cases ht
  · cases a with
    | accept => exact absurd rfl other
    | read i data =>
      obtain ⟨_, room, x, hx, rfl⟩ := readStep_cases ht
      exact rules.done (read_stays (linked i) hx) (rules.read s i data room x facts good hx)
    | readEnd i =>
      simp only [readEndStep] at ht
      split at ht
      · cases ht
        have buffered := connAllocCb_housed (x := s.enter i) (linked i) env
        exact rules.done (buffered.trans (connCloseAndFree_kept buffered.linked).toHoused).toStays
          (rules.readEnd (s.enter i) (linked i))
      · cases ht
    | written i b =>
      obtain ⟨_, w, rest, hw, rfl⟩ := writtenStep_cases ht
      exact rules.done (onWritten_seated (x := s.enter i) (linked i) env w.kind b).toStays
        (rules.written s i b w rest facts good hw)
    | closed i =>
      simp only [closedStep] at ht
      split at ht
      · rename_i hg
        cases ht
        exact rules.done (connOnStreamClosed_stays (x := s.enter i) (linked i) hg.2.1 hg.2.2.1 hg.2.2.2).1
          (rules.closed (s.enter i) (linked i) hg.2.1 hg.2.2.1 hg.2.2.2)
      · cases ht
    | sweep =>
      cases ht
      exact rules.walk (fun _ hl => (connDeadlinePass_kept hl).1.toStays) rules.deadline s.active linked
    | reload =>
      cases ht
      exact rules.walk (fun _ hl => (reloadConn_kept hl env).1.toStays) rules.reload s.sseClients linked
    | tick ms => exact absurd rfl (untimed ms)
    | take w =>
      obtain ⟨p, _, rfl⟩ := Option.map_eq_some_iff.mp ht
      exact ⟨rfl, fun _ => rules.refl _ _⟩
    | finish w calls =>
      simp only [finishJob] at ht
      split at ht
      · cases ht
      · rename_i job ref _
        obtain ⟨p, _, rfl⟩ := Option.map_eq_some_iff.mp ht
        have kept := withReq_kept (x := s.enter ref.conn) (linked ref.conn) ref.req (handlerRun_allocs calls)
        have ran := rules.done kept.toStays (rules.handler (s.enter ref.conn) ref.req calls)
        exact ⟨ran.next, ran.each⟩
    | drain =>
      simp only [drainJob] at ht
      split at ht
      · cases ht
      · rename_i ref q hq
        cases ht
        let s' : Srv σ := { s with pool := drainStep s.pool (ref, q) }
        have kept := (drainReq_kept (x := s'.enter ref.conn) (linked ref.conn) env ref.req).1
        have drained := rules.done (s := s') kept.toStays (rules.drain s ref q facts hq)
        exact ⟨drained.next, drained.each⟩
    | shutdown =>
      cases ht
      unfold startShutdown
      split
      · exact rules.still s
      · have walked := rules.walk (s := { s with shuttingDown := true }) (fun _ hl => (shutdownConn_kept hl).1.toStays)
          rules.shutdown s.active linked
        exact ⟨walked.next, walked.each⟩

theorem tick_only {ms : ℕ} (ht : srvStep env s (.tick ms) = some t) : t = { s with now := s.now + ms } := by
  unfold srvStep at ht
  split at ht
  · cases ht
  · cases ht
    rfl

theorem cercoConnectionCb_others (env : Env σ) (s : Srv σ) {j : ℕ} (other : j ≠ s.nextConn) :
    (cercoConnectionCb env s).conns j = s.conns j := by
  have fresh : Linked (accepted env s).c := freshConn_linked env s.nextConn s.now
  have other : j ≠ (accepted env s).id := other
  unfold cercoConnectionCb
  split
  · rfl
  · dsimp only
    split
    · rw [(connSendSimple_kept fresh env 503 none (ascii "server busy\n") true).toStays.done_conns, if_neg other]
      rfl
    · exact Function.update_of_ne other _ _

theorem cercoConnectionCb_next (env : Env σ) (s : Srv σ) : s.nextConn ≤ (cercoConnectionCb env s).nextConn := by
  have fresh : Linked (accepted env s).c := freshConn_linked env s.nextConn s.now
  unfold cercoConnectionCb
  split
  · exact Nat.le_refl _
  · dsimp only
    split
    · have next := (connSendSimple_kept fresh env 503 none (ascii "server busy\n") true).nextConn
      exact (Nat.le_succ _).trans next.ge
    · exact Nat.le_succ _

end Moves

end Cerco.ConnMoves
