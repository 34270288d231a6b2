import Cerco.CloseFlags
import Cerco.ConnPool

set_option autoImplicit false

/-!
# A client that asks to close

In runs whose messages and jobs heed the flags, what is written after a request that
asked to close says close, and a reply that says close shuts its connection when it is
reported.
-/
namespace Cerco.KeepAlive
open Cerco.Alloc Cerco.CString Cerco.Request Cerco.Response Cerco.Connection Cerco.Dispatch
open Cerco.HttpCallbacks Cerco.Server Cerco.WorkerPool Cerco.TransitionRuns Cerco.ConnFrames
open Cerco.ServerRules Cerco.Responders Cerco.SpanParser Cerco.ConnPool Cerco.ArenaUse Cerco.RequestGrammar
open Cerco.CloseFlags

variable {σ : Type}

theorem cancel_firm {x : Ctx σ} :
    Firm x.c { cancelReq x.c with forceClose := true } := by
  obtain ⟨o, ho⟩ := cancelReq_objs x.c
  rw [ho]
  exact .silent id (fun h => h.imp (fun _ => rfl) id) rfl fun w hw => hw

theorem connDeadlinePass_firm {x : Ctx σ} (hl : Linked x.c) : Firm x.c (connDeadlinePass x).c := by
  unfold connDeadlinePass
  split
  · exact cancel_firm.trans (connCloseAndFree_firm (x := { x with c := { cancelReq x.c with
      forceClose := true } }) (forceClose_kept hl).linked)
  · exact .refl _

theorem shutdownConn_firm {x : Ctx σ} (hl : Linked x.c) : Firm x.c (shutdownConn x).c := by
  unfold shutdownConn
  split
  · exact connCloseAndFree_firm hl
  · split
    · exact cancel_firm
    · exact .refl _

theorem reloadConn_firm {x : Ctx σ} (hl : Linked x.c) (env : Env σ) : Firm x.c (reloadConn env x).c := by
  unfold reloadConn
  split
  · exact .refl _
  · exact connSseWrite_firm hl env _

theorem firm_done {x y : Ctx σ} (stays : Stays x y) (own : x.c = x.srv.conns x.id) (firm : Firm x.c y.c)
    (j : ℕ) : Firm (x.srv.conns j) (y.done.conns j) := by
  rw [stays.done_conns]
  split
  · rename_i e
    rw [e, ← own]
    exact firm
  · exact .refl _

theorem eachConn_firm {f : Ctx σ → Ctx σ}
    (hf : ∀ x : Ctx σ, Linked x.c → Stays x (f x) ∧ Firm x.c (f x).c) (ids : List ℕ) {s : Srv σ}
    (linked : ∀ i, Linked (s.conns i)) (j : ℕ) : Firm (s.conns j) ((eachConn f ids s).conns j) := by
  unfold Server.eachConn
  induction ids generalizing s with
  | nil => exact .refl _
  | cons i ids ih =>
    obtain ⟨stays, firm⟩ := hf (s.enter i) (linked i)
    refine (firm_done stays rfl firm j).trans (ih fun j => ?_)
    rw [stays.done_conns]
    split
    · exact stays.linked
    · exact linked j

/-- The job that is drained may answer: it was given up, or its own headers stay on their lines and agree with the
flags. -/
def drains (s : Srv σ) (ref : ReqRef) : Prop :=
  ((s.conns ref.conn).objs ref.req).cancelled = true ∨ Shut (s.conns ref.conn) ∨
    Agrees ((s.conns ref.conn).objs ref.req) (closeFlag (s.conns ref.conn))

instance (s : Srv σ) (ref : ReqRef) : Decidable (drains s ref) := inferInstanceAs (Decidable (_ ∨ _ ∨ _))

def drained (s : Srv σ) : Step → List ReqRef
  | .drain => (drainOne s.pool.pool).toList.map Prod.fst
  | _ => []

/-- Every message that the step completes, and every job that it drains, heeds the flags. -/
def heedful (env : Env σ) (s : Srv σ) (a : Step) : Prop :=
  (∀ p ∈ completed env s a, Heeded env p.1 p.2) ∧ ∀ ref ∈ drained s a, drains s ref

instance (env : Env σ) (s : Srv σ) (a : Step) : Decidable (heedful env s a) :=
  inferInstanceAs (Decidable (_ ∧ _))

theorem srvStep_told {env : Env σ} {s t : Srv σ} {a : Step} (linked : ∀ i, Linked (s.conns i))
    (ok : heedful env s a) (ht : srvStep env s a = some t) {y : Ctx σ} {keepAlive : Bool}
    (hy : (y, keepAlive) ∈ completed env s a) :
    y.id < s.nextConn ∧ Firm (told y keepAlive) (t.conns y.id) := by
  unfold srvStep at ht
  split at ht
  · cases ht
  · cases a with
    | read i data =>
      obtain ⟨born, room, x, hx, rfl⟩ := readStep_cases ht
      obtain ⟨rfl, firm⟩ := (connOnRead_follows (linked i) hx ok.1).2 y keepAlive hy
      rw [(read_stays (linked y.id) hx).done_conns, if_pos (by rfl)]
      exact ⟨born, firm⟩
    | written i done =>
      obtain ⟨born, w, rest, hw, rfl⟩ := writtenStep_cases ht
      obtain ⟨rfl, firm⟩ := (onWritten_follows (linked i) hw ok.1).2 y keepAlive hy
      rw [(onWritten_seated (x := s.enter y.id) (linked y.id) env w.kind done).toStays.done_conns,
        if_pos (by rfl)]
      exact ⟨born, firm⟩
    | _ => simp [completed, parsing] at hy

theorem cercoConnectionCb_firm (env : Env σ) (s : Srv σ) (i : ℕ) :
    Firm (s.conns i) ((cercoConnectionCb env s).conns i) ∨
      (i = s.nextConn ∧ Firm (freshConn env i s.now) ((cercoConnectionCb env s).conns i)) := by
  have fresh : Linked (accepted env s).c := freshConn_linked env s.nextConn s.now
  have put : ∀ y, Stays (accepted env s) y → Firm (accepted env s).c y.c →
      Firm (s.conns i) (y.done.conns i) ∨
        (i = s.nextConn ∧ Firm (freshConn env i s.now) (y.done.conns i)) := by
    intro y stays firm
    rw [stays.done_conns]
    split
    · rename_i own
      exact .inr ⟨own, own ▸ firm⟩
    · exact .inl (.refl _)
  unfold cercoConnectionCb
  split
  · exact .inl (.refl _)
  · dsimp only
    split
    · exact put _ (connSendSimple_kept fresh env 503 none (ascii "server busy\n") true).toStays
        (connSendSimple_firm fresh env 503 rfl (by decide) (ascii "server busy\n") fun h => (by cases h))
    · exact put _ (readStart_housed fresh).toStays (readStart_firm _)

theorem srvStep_firm {env : Env σ} {s t : Srv σ} {a : Step} (linked : ∀ i, Linked (s.conns i))
    (ok : heedful env s a) (ht : srvStep env s a = some t) (j : ℕ) :
    Firm (s.conns j) (t.conns j) ∨ (j = s.nextConn ∧ Firm (freshConn env j s.now) (t.conns j)) := by
  unfold srvStep at ht
  split at ht
  · cases ht
  · cases a with
    | accept =>
      cases ht
      exact cercoConnectionCb_firm env s j
    | read i data =>
      obtain ⟨_, room, x, hx, rfl⟩ := readStep_cases ht
      exact .inl (firm_done (read_stays (linked i) hx) rfl (connOnRead_follows (linked i) hx ok.1).1 j)
    | readEnd i =>
      simp only [readEndStep] at ht
      split at ht
      · cases ht
        have buffered := connAllocCb_housed (x := s.enter i) (linked i) env
        have filled : Firm (s.conns i) (connAllocCb env (s.enter i)).2.c := by
          unfold connAllocCb
          split
          · exact .refl _
          · exact .of_eq rfl rfl
        exact .inl (firm_done (buffered.trans (connCloseAndFree_kept buffered.linked).toHoused).toStays rfl
          (filled.trans (connCloseAndFree_firm buffered.linked)) j)
      · cases ht
    | written i done =>
      obtain ⟨_, w, rest, hw, rfl⟩ := writtenStep_cases ht
      exact .inl (firm_done (onWritten_seated (x := s.enter i) (linked i) env w.kind done).toStays rfl
        (onWritten_follows (linked i) hw ok.1).1 j)
    | closed i =>
      simp only [closedStep] at ht
      split at ht
      · rename_i hg
        cases ht
        obtain ⟨stays, _⟩ := connOnStreamClosed_stays (x := s.enter i) (linked i) hg.2.1 hg.2.2.1 hg.2.2.2
        refine .inl (firm_done stays rfl ?_ j)
        have before : (s.conns i).finalized = false := by rw [← (linked i).closeCb, hg.2.2.1]
        rw [connOnStreamClosed_eq (x := s.enter i) (linked i) hg.2.1 hg.2.2.1 hg.2.2.2]
        obtain ⟨srv, a, _, _, e⟩ := connFinalize_cases
          (x := { s.enter i with c := { s.conns i with closeCbDone := true } }) before
        change Firm (s.conns i) (connFinalize { s.enter i with c := { s.conns i with closeCbDone := true } }).c
        rw [e]
        exact .of_eq rfl rfl
      · cases ht
    | sweep =>
      cases ht
      exact .inl (eachConn_firm (fun x hl => ⟨(connDeadlinePass_kept hl).1.toStays, connDeadlinePass_firm hl⟩)
        _ linked j)
    | reload =>
      cases ht
      exact .inl (eachConn_firm (fun x hl => ⟨(reloadConn_kept hl env).1.toStays, reloadConn_firm hl env⟩)
        _ linked j)
    | tick ms =>
      cases ht
      exact .inl (.refl _)
    | take w =>
      obtain ⟨p, _, rfl⟩ := Option.map_eq_some_iff.mp ht
      exact .inl (.refl _)
    | finish w calls =>
      simp only [finishJob] at ht
      split at ht
      · cases ht
      · rename_i job ref _
        obtain ⟨p, _, rfl⟩ := Option.map_eq_some_iff.mp ht
        have kept := withReq_kept (linked ref.conn) (x := s.enter ref.conn) ref.req (handlerRun_allocs calls)
        exact .inl (firm_done kept.toStays rfl (withReq_firm _ _ _) j)
    | drain =>
      simp only [drainJob] at ht
      split at ht
      · cases ht
      · rename_i ref q hq
        cases ht
        have agrees : drains s ref := ok.2 ref (by
          simp only [drained, hq]
          exact List.mem_singleton_self ref)
        exact .inl (firm_done
          (x := ({ s with pool := drainStep s.pool (ref, q) } : Srv σ).enter ref.conn)
          (drainReq_kept (linked ref.conn) env ref.req).1.toStays rfl
          (drainReq_firm (linked ref.conn) env agrees) j)
    | shutdown =>
      cases ht
      simp only [startShutdown]
      split
      · exact .inl (.refl _)
      · exact .inl (eachConn_firm (s := { s with shuttingDown := true })
          (fun x hl => ⟨(shutdownConn_kept hl).1.toStays, shutdownConn_firm hl⟩) _ linked j)

theorem freshConn_honest (env : Env σ) (i now : ℕ) : Honest (freshConn env i now) :=
  ⟨fun _ hp => (by cases hp), fun _ hw => (by cases hw)⟩

theorem reach_honest {env : Env σ} {s : Srv σ} (h : Reach (server env) (heedful env) s) :
    ∀ i, Honest (s.conns i) := by
  refine h.invariant_with (J := fun s => ∀ i, Linked (s.conns i)) (I := fun s => ∀ i, Honest (s.conns i))
    (fun _ hr i => reach_linked hr i)
    (fun s hs i => ?_) fun s a t linked hi ok ht i => ?_
  · cases hs
    exact freshConn_honest env i 0
  · obtain firm | ⟨_, firm⟩ := srvStep_firm linked ok ht i
    · exact firm.honest (hi i)
    · exact firm.honest (freshConn_honest env i s.now)

theorem srvStep_born {env : Env σ} {s t : Srv σ} {a : Step} (linked : ∀ i, Linked (s.conns i))
    (ht : srvStep env s a = some t) : s.nextConn ≤ t.nextConn := by
  obtain ⟨_, _, opened⟩ | ⟨_, _, torn⟩ | ⟨_, quiet, _⟩ := srvStep_seats linked ht
  · rw [opened.nextConn]
    exact Nat.le_succ _
  · rw [torn.nextConn]
  · have seats := quiet.seats
    simp only [Prod.mk.injEq] at seats
    rw [seats.2.2]

theorem steps_firm {env : Env σ} {s t : Srv σ} (h : Reach (server env) (heedful env) s)
    (run : Steps (server env) (heedful env) s t) {i : ℕ} (born : i < s.nextConn) :
    Firm (s.conns i) (t.conns i) := by
  induction run with
  | refl => exact .refl _
  | head ok ht _ ih =>
    have linked := reach_linked h
    have step := (srvStep_firm linked ok ht i).resolve_right fun new => by omega
    exact step.trans (ih (.step h ok ht) (Nat.lt_of_lt_of_le born (srvStep_born linked ht)))

/-- In every continuation: what is written after a request that asked to close says close, and a
reply that says close shuts its connection when it is reported. -/
def Obeyed (env : Env σ) (ok : Srv σ → Step → Prop) (s : Srv σ) : Prop :=
  (∀ a t y, ok s a → srvStep env s a = some t → (y, false) ∈ completed env s a →
    ∀ u, Steps (server env) ok t u → ∃ new, (u.conns y.id).trace = y.c.trace ++ new ∧
      ∀ p ∈ replies new, saysClose p.2 = true) ∧
  ∀ i kind w rest done t, (s.conns i).writes = ⟨kind, .reply w⟩ :: rest → saysClose w = true →
    ok s (.written i done) → srvStep env s (.written i done) = some t →
      ∀ u, Steps (server env) ok t u → Shut (u.conns i)

theorem close_obeyed {env : Env σ} {s : Srv σ} (h : Reach (server env) (heedful env) s) :
    Obeyed env (heedful env) s := by
  have linked := reach_linked h
  refine ⟨fun a t y ok ht hy u run => ?_, fun i kind w rest done t hw closes ok ht u run => ?_⟩
  · obtain ⟨born, firm⟩ := srvStep_told linked ok ht hy
    have later := steps_firm (.step h ok ht) run (Nat.lt_of_lt_of_le born (srvStep_born linked ht))
    obtain ⟨new, trace, fit, _⟩ := (firm.trans later).wrote
    have bound : Bound (told y false) := .inl (by simp [closeFlag, told])
    exact ⟨new, trace, fun p hp => (fit p hp).2 bound⟩
  · have honest := reach_honest h i
    have queued := honest.queued ⟨kind, .reply w⟩ (by rw [hw]; exact List.mem_cons_self)
    obtain ⟨bound, reply⟩ := honest.bound (kind, w) (List.mem_filterMap.mpr ⟨_, queued, rfl⟩) closes
    have born := srvStep_born linked ht
    have later : i < s.nextConn → Firm (t.conns i) (u.conns i) := fun lt =>
      steps_firm (.step h ok ht) run (Nat.lt_of_lt_of_le lt born)
    unfold srvStep at ht
    split at ht
    · cases ht
    · obtain ⟨lt, w', rest', hw', rfl⟩ := writtenStep_cases ht
      rw [hw] at hw'
      cases hw'
      refine (later lt).shut ?_
      rw [(onWritten_seated (x := s.enter i) (linked i) env kind done).toStays.done_conns, if_pos (by rfl)]
      exact onWritten_shut (linked i) hw ok.1 bound reply

def onMark {κ μ ε : Type} (f : μ → μ) : Report κ μ ε → Report κ μ ε
  | .enter k => .enter k
  | .leave => .leave
  | .mark m => .mark (f m)
  | .fail e => .fail e

theorem consecutive_onMark {κ μ ε : Type} (f : μ → μ) {p o : Option κ} {rs : List (Report κ μ ε)}
    (h : Consecutive p rs o) : Consecutive p (rs.map (onMark f)) o := by
  induction h with
  | nil o => exact .nil o
  | enter _ ih => exact .enter ih
  | leave _ ih => exact .leave ih
  | mark _ ih => exact .mark ih
  | fail => exact .fail

/-- The flag of a message without a Connection header. -/
def asked (old : Bool) : Mark → Mark
  | .messageComplete _ => .messageComplete (!old)
  | m => m

def oldVersion (s : Scan × Bool) (c : UInt8) : Bool :=
  match s.1.pos with
  | .start => false
  | .version => s.2 || c == 48
  | _ => s.2

def versionScan (s : Scan × Bool) (c : UInt8) : List Rep × List Rep × (Scan × Bool) :=
  let r := scan s.1 c
  let old := oldVersion s c
  (r.1.map (onMark (asked old)), r.2.1.map (onMark (asked old)), (r.2.2, old))

def versionParser : Llhttp (Scan × Bool) where
  start := (between, false)
  opened s := openedAt s.1.pos
  step := versionScan
  opened_start := rfl
  consecutive s c := by
    obtain ⟨o, h₁, h₂⟩ := scan_consecutive s.1 c
    exact ⟨o, consecutive_onMark _ h₁, consecutive_onMark _ h₂⟩

def versionEnv : Env (Scan × Bool) where
  llhttp := versionParser
  cfg := stockConfig
  routes := (stockEnv rootTable).routes
  sfs := []
  assets := []
  devFile := (stockEnv rootTable).devFile
  write := (stockEnv rootTable).write
  malloc := (stockEnv rootTable).malloc
  bufAddr := (stockEnv rootTable).bufAddr

def oldGet : Bytes := ascii "GET / HTTP/1.0\r\n\r\n"

def oldOptions : Bytes := ascii "OPTIONS / HTTP/1.0\r\n\r\n"

/-- The page is sent with `Connection: close`. -/
theorem close_obeyed_get : ∃ s, Reach (server versionEnv) (heedful versionEnv) s ∧
    (replies (s.conns 0).trace).map (fun p => saysClose p.2) = [true] ∧
    Obeyed versionEnv (heedful versionEnv) s := by
  have run : ((execWhile (server versionEnv) (heedful versionEnv) (srvStart versionEnv)
      [.accept, .read 0 oldGet, .take 0, .finish 0 [.write (ascii "hi")], .drain]).map fun s =>
        (replies (s.conns 0).trace).map fun p => saysClose p.2) = some [true] := by decide +kernel
  obtain ⟨s, hs, view⟩ := Option.map_eq_some_iff.mp run
  have h := execWhile_reach _ (.start rfl) hs
  exact ⟨s, h, view, close_obeyed h⟩

/-- The answer to OPTIONS keeps the connection of a client that asked to close. -/
theorem options_keeps_alive :
    ¬ ∀ s, Reach (server versionEnv) anyStep s → Obeyed versionEnv anyStep s := by
  intro all
  have run : ((exec (server versionEnv) (srvStart versionEnv) [.accept]).bind fun s =>
      (srvStep versionEnv s (.read 0 oldOptions)).map fun t =>
        ((completed versionEnv s (.read 0 oldOptions)).map fun p => (p.1.id, p.1.c.trace, p.2),
          (replies (t.conns 0).trace).map fun p => saysClose p.2)) =
      some ([(0, [], false)], [false]) := by decide +kernel
  obtain ⟨s, hs, ht⟩ := Option.bind_eq_some_iff.mp run
  obtain ⟨t, ht, view⟩ := Option.map_eq_some_iff.mp ht
  simp only [Prod.mk.injEq] at view
  obtain ⟨message, answer⟩ := view
  obtain ⟨⟨y, keepAlive⟩, only, e⟩ := List.map_eq_singleton_iff.mp message
  simp only [Prod.mk.injEq] at e
  obtain ⟨id, trace, rfl⟩ := e
  have h : Reach (server versionEnv) anyStep s := exec_reach _ (.start rfl) (fun _ _ _ => trivial) hs
  obtain ⟨new, written, closes⟩ := (all s h).1 _ t y trivial ht (by rw [only]; exact List.mem_singleton_self _)
    t (.refl t)
  rw [trace, List.nil_append, id] at written
  rw [written] at answer
  obtain ⟨p, hp, e⟩ := List.map_eq_singleton_iff.mp answer
  rw [closes p (by rw [hp]; exact List.mem_singleton_self p)] at e
  cases e

end Cerco.KeepAlive
