import Cerco.SentReplies

set_option autoImplicit false

/-!
# The stages of a connection

Callbacks set the phase of a connection and its deadline in pairs. A dispatch to the workers
sets neither, and neither do simple answers and streams. Where only `conn_start_response`
answers, a callback leaves the stage alone or begins a later one.
-/
namespace Cerco.ConnStages
open Cerco.Alloc Cerco.CString Cerco.Request Cerco.Connection Cerco.Dispatch Cerco.HttpCallbacks Cerco.Server
open Cerco.WorkerPool Cerco.TransitionRuns Cerco.ConnFrames Cerco.ServerRules Cerco.Responders Cerco.CloseFlags
open Cerco.Callbacks Cerco.Books Cerco.Verdicts Cerco.RejectCodes Cerco.SentReplies Cerco.ShutdownDrain
open Cerco.DispatchOutcome

variable {σ : Type}

inductive Stage
  | head
  | body
  | working
  | writing
  | idle
deriving DecidableEq

def limit (cfg : Config) : Stage → ℕ
  | .head => cfg.headerTimeoutMs
  | .body => cfg.bodyTimeoutMs
  | .working | .writing => cfg.requestTimeoutMs
  | .idle => cfg.keepAliveTimeoutMs

def phaseStage : Phase → Stage
  | .headers => .head
  | .idle => .idle
  | .write => .writing
  | .body | .work | .drain => .body

/-- A connection with a queued reply writes it, and one whose last event is a dispatch waits for a
worker. Otherwise the phase says how far its request is received. -/
def stageOf (c : Conn σ) : Stage :=
  if !c.writes.isEmpty then .writing
  else if dueAfter false c.trace then .working
  else phaseStage c.phase

def place (c : Conn σ) : ℕ × Stage := (c.nObjs, stageOf c)

def Stage.rank : Stage → ℕ
  | .head => 0
  | .body => 1
  | .working => 2
  | .writing => 3
  | .idle => 4

def age (p : ℕ × Stage) : ℕ := 5 * p.1 + p.2.rank

theorem stageOf_congr {c d : Conn σ} (same : (d.writes, d.trace, d.phase) = (c.writes, c.trace, c.phase)) :
    stageOf d = stageOf c := by
  simp only [Prod.mk.injEq] at same
  obtain ⟨writes, trace, phase⟩ := same
  unfold stageOf
  rw [writes, trace, phase]

def regular : ConnEvent → Bool
  | .dispatched _ _ => true
  | .wrote ⟨.response _, _⟩ => true
  | _ => false

/-- The connection is open, and whatever was written on it is a response. -/
def Plain (c : Conn σ) : Prop := ¬ Shut c ∧ c.trace.all regular = true

instance (c : Conn σ) : Decidable (Plain c) := inferInstanceAs (Decidable (_ ∧ _))

theorem not_plain_of_shut {c : Conn σ} (h : Shut c) : ¬ Plain c := fun plain => plain.1 h

theorem not_plain_of_mem {c : Conn σ} {ev : ConnEvent} (h : ev ∈ c.trace) (odd : regular ev = false) :
    ¬ Plain c := fun plain => by
  have regular := List.all_eq_true.mp plain.2 ev h
  rw [odd] at regular
  cases regular

/-- A connection in good order: at most one response is queued, a request that waits for a worker was
received whole, and every other one was answered. -/
structure Serving (c : Conn σ) : Prop where
  writes : c.phase = .write ∧ c.writes.length ≤ 1 ∨ c.phase ≠ .write ∧ c.writes = []
  waits : dueAfter false c.trace = true → c.phase = .body
  between : c.req = none → c.phase = .headers ∨ c.phase = .idle
  books : dispatches c.trace = answers (sent c.trace) + (dueAfter false c.trace).toNat
  phase : c.phase ≠ .work ∧ c.phase ≠ .drain

/-- From `c` to `d` the stage and the deadline stay, or a later stage begins with the deadline it has to
have. -/
def Paced (env : Env σ) (now : ℕ) (c d : Conn σ) : Prop :=
  place d = place c ∧ d.deadline = c.deadline ∨
  age (place c) < age (place d) ∧ (stageOf d ≠ .working → d.deadline = now + limit env.cfg (stageOf d))

/-- What a callback does to the stage of a connection that is plain behind it. -/
structure Pace (env : Env σ) (now : ℕ) (c d : Conn σ) : Prop where
  plain : Plain d → Plain c
  paced : Plain d → Serving c → Serving d ∧ Paced env now c d

section Pace
variable {env : Env σ} {now : ℕ} {c d e : Conn σ}

theorem Paced.trans (h₁ : Paced env now c d) (h₂ : Paced env now d e) : Paced env now c e := by
  obtain ⟨same, deadline⟩ | ⟨later, set⟩ := h₂
  · have stage : stageOf e = stageOf d := congrArg Prod.snd same
    obtain ⟨same', deadline'⟩ | ⟨later', set'⟩ := h₁
    · exact .inl ⟨same.trans same', deadline.trans deadline'⟩
    · refine .inr ⟨same ▸ later', fun off => ?_⟩
      rw [deadline, stage]
      exact set' (stage ▸ off)
  · refine .inr ⟨?_, set⟩
    obtain ⟨same', _⟩ | ⟨later', _⟩ := h₁
    · exact same' ▸ later
    · exact later'.trans later

theorem Pace.trans (h₁ : Pace env now c d) (h₂ : Pace env now d e) : Pace env now c e := by
  refine ⟨h₁.plain ∘ h₂.plain, fun plain serving => ?_⟩
  obtain ⟨serving, first⟩ := h₁.paced (h₂.plain plain) serving
  obtain ⟨serving, second⟩ := h₂.paced plain serving
  exact ⟨serving, first.trans second⟩

theorem Pace.over (h : ¬ Plain d) : Pace env now c d := ⟨fun plain => absurd plain h, fun plain => absurd plain h⟩

theorem Plain.of_eq (h : Plain d) (same : (d.closing, d.writable, d.trace) = (c.closing, c.writable, c.trace)) :
    Plain c := by
  simp only [Prod.mk.injEq] at same
  obtain ⟨closing, writable, trace⟩ := same
  unfold Plain Shut at *
  rwa [← closing, ← writable, ← trace]

theorem Pace.of_eq (handle : (d.closing, d.writable) = (c.closing, c.writable))
    (turn : (d.phase, d.deadline, d.req, d.nObjs) = (c.phase, c.deadline, c.req, c.nObjs))
    (written : (d.writes, d.trace) = (c.writes, c.trace)) : Pace env now c d := by
  simp only [Prod.mk.injEq] at handle turn written
  obtain ⟨closing, writable⟩ := handle
  obtain ⟨phase, deadline, req, nObjs⟩ := turn
  obtain ⟨writes, trace⟩ := written
  have back : Plain d → Plain c := fun plain => plain.of_eq (by rw [closing, writable, trace])
  refine ⟨back, fun _ serving => ⟨?_, .inl ⟨?_, deadline⟩⟩⟩
  · refine ⟨?_, ?_, ?_, ?_, ?_⟩
    · rw [phase, writes]
      exact serving.writes
    · rw [trace, phase]
      exact serving.waits
    · rw [req, phase]
      exact serving.between
    · rw [trace]
      exact serving.books
    · rw [phase]
      exact serving.phase
  · have stage : stageOf d = stageOf c := stageOf_congr (by rw [writes, trace, phase])
    unfold place
    rw [nObjs, stage]

theorem Pace.refl (env : Env σ) (now : ℕ) (c : Conn σ) : Pace env now c c := .of_eq rfl rfl rfl

theorem Serving.unwritten (h : Serving c) (other : c.phase ≠ .write) : c.writes = [] := by
  obtain ⟨writing, _⟩ | ⟨_, none⟩ := h.writes
  · exact absurd writing other
  · exact none

theorem stageOf_quiet (none : c.writes = []) (settled : dueAfter false c.trace = false) :
    stageOf c = phaseStage c.phase := by
  unfold stageOf
  rw [none, settled]
  rfl

theorem stageOf_working (none : c.writes = []) (due : dueAfter false c.trace = true) : stageOf c = .working := by
  unfold stageOf
  rw [none, due]
  rfl

theorem stageOf_written (queued : c.writes ≠ []) : stageOf c = .writing := by
  unfold stageOf
  cases writes : c.writes with
  | nil => exact absurd writes queued
  | cons w rest => rfl

theorem receiving_cases (h : stageOf c = .head ∨ stageOf c = .body ∨ stageOf c = .idle) :
    c.writes = [] ∧ dueAfter false c.trace = false := by
  unfold stageOf at h
  cases writes : c.writes with
  | cons w rest => simp [writes] at h
  | nil =>
    cases due : dueAfter false c.trace with
    | true => simp [writes, due] at h
    | false => exact ⟨rfl, rfl⟩

theorem Serving.of_body (h : Serving c) (stage : stageOf c = .body) : c.phase = .body := by
  obtain ⟨none, settled⟩ := receiving_cases (.inr (.inl stage))
  rw [stageOf_quiet none settled] at stage
  obtain ⟨unworked, undrained⟩ := h.phase
  cases phase : c.phase with
  | headers => rw [phase] at stage; cases stage
  | body => rfl
  | work => exact absurd phase unworked
  | write => rw [phase] at stage; cases stage
  | idle => rw [phase] at stage; cases stage
  | drain => exact absurd phase undrained

theorem working_cases (h : stageOf c = .working) : c.writes = [] ∧ dueAfter false c.trace = true := by
  unfold stageOf at h
  cases writes : c.writes with
  | cons w rest => simp [writes] at h
  | nil =>
    cases due : dueAfter false c.trace with
    | true => exact ⟨rfl, rfl⟩
    | false => cases phase : c.phase <;> simp [writes, due, phase, phaseStage] at h

theorem Serving.settled (h : Serving c) (other : c.phase ≠ .body) : dueAfter false c.trace = false :=
  Bool.eq_false_iff.mpr fun due => other (h.waits due)

theorem Pace.begins (handle : (d.closing, d.writable) = (c.closing, c.writable))
    (written : (d.writes, d.trace) = (c.writes, c.trace))
    (quiet : Plain c → Serving c → c.writes = [] ∧ dueAfter false c.trace = false)
    (phase : d.phase = .headers ∨ d.phase = .body ∨ d.phase = .idle) (req : d.phase = .body → d.req ≠ none)
    (later : Plain c → Serving c → age (place c) < age (d.nObjs, phaseStage d.phase))
    (deadline : d.deadline = now + limit env.cfg (phaseStage d.phase)) : Pace env now c d := by
  simp only [Prod.mk.injEq] at handle written
  obtain ⟨closing, writable⟩ := handle
  obtain ⟨writes, trace⟩ := written
  have before : Plain d → Plain c := fun plain => plain.of_eq (by rw [closing, writable, trace])
  refine ⟨before, fun plain serving => ?_⟩
  obtain ⟨none, settled⟩ := quiet (before plain) serving
  have later := later (before plain) serving
  rw [← writes] at none
  rw [← trace] at settled
  have stage := stageOf_quiet none settled
  refine ⟨⟨.inr ⟨?_, none⟩, fun due => ?_, fun free => ?_, ?_, ?_⟩, .inr ⟨?_, fun _ => ?_⟩⟩
  · obtain h | h | h := phase <;> rw [h] <;> decide
  · rw [settled] at due
    cases due
  · obtain h | h | h := phase
    · exact .inl h
    · exact absurd free (req h)
    · exact .inr h
  · rw [trace]
    exact serving.books
  · obtain h | h | h := phase <;> rw [h] <;> decide
  · unfold place
    rw [stage]
    exact later
  · rw [stage]
    exact deadline

end Pace

structure March (env : Env σ) (x y : Ctx σ) : Prop where
  now : y.srv.now = x.srv.now
  pace : Pace env x.srv.now x.c y.c

/-- The end of a head comes while one is received, and the end of a message while its body is. -/
def inOrder (c : Conn σ) : HttpEvent → Prop
  | .mark (.headersComplete _ _) => stageOf c = .head
  | .mark (.messageComplete _) => stageOf c = .body
  | _ => True

instance (c : Conn σ) (ev : HttpEvent) : Decidable (inOrder c ev) :=
  match ev with
  | .mark (.headersComplete _ _) => inferInstanceAs (Decidable (_ = _))
  | .mark (.messageComplete _) => inferInstanceAs (Decidable (_ = _))
  | .mark .messageBegin | .mark (.method _) | .span _ _ | .fail _ => isTrue trivial

section March
variable {env : Env σ} {x y z : Ctx σ} {k : ℕ}

theorem March.refl (env : Env σ) (x : Ctx σ) : March env x x := ⟨rfl, .refl env _ _⟩

theorem March.trans (h₁ : March env x y) (h₂ : March env y z) : March env x z :=
  ⟨h₂.now.trans h₁.now, h₁.pace.trans (h₁.now ▸ h₂.pace)⟩

theorem assembled_march {d : Conn σ} (h : Assembled x.c d) : March env x { x with c := d } := by
  obtain ⟨a, o, st, _, rfl⟩ := h
  exact ⟨rfl, .of_eq rfl rfl rfl⟩

theorem Ready.march (h : Ready x y) : March env x y := by
  obtain ⟨⟨a, o, st, rfl⟩, _⟩ := h
  exact ⟨rfl, .of_eq rfl rfl rfl⟩

theorem connCloseAndFree_march (hl : Linked x.c) : March env x (connCloseAndFree x) :=
  ⟨connCloseAndFree_now x, .over (not_plain_of_shut (.inl (connCloseAndFree_closes hl)))⟩

theorem onMessageBegin_march (env : Env σ) (x : Ctx σ) : March env x (onMessageBegin env x).1 := by
  unfold onMessageBegin
  split
  · exact ⟨rfl, .of_eq rfl rfl rfl⟩
  · rename_i free
    have free : x.c.req = none := by simpa using free
    dsimp only
    split
    · exact ⟨rfl, .of_eq rfl rfl rfl⟩
    · have quiet (serving : Serving x.c) : x.c.phase ≠ .write ∧ x.c.phase ≠ .body := by
        obtain phase | phase := serving.between free <;> rw [phase] <;> decide
      refine ⟨rfl, .begins rfl rfl (fun _ serving => ?_) (.inl rfl) (fun h => (by cases h)) (fun _ _ => ?_) rfl⟩
      · exact ⟨serving.unwritten (quiet serving).1, serving.settled (quiet serving).2⟩
      · have old : (stageOf x.c).rank ≤ 4 := by cases stageOf x.c <;> decide
        simp only [place, age]
        omega

theorem onHeadersComplete_req {n : ℕ} {chunked : Bool} (h : onHeadersComplete env x n chunked = (y, true)) :
    x.c.req ≠ none := by
  intro free
  have same : reqFinishHeaders x.c = x.c := by
    unfold reqFinishHeaders
    rw [free]
  unfold onHeadersComplete at h
  dsimp only at h
  rw [same, free] at h
  split at h
  · cases h
  · cases h

theorem onHeadersComplete_march (env : Env σ) (x : Ctx σ) (n : ℕ) (chunked : Bool)
    (order : Plain x.c → stageOf x.c = .head) : March env x (onHeadersComplete env x n chunked).1 := by
  obtain ⟨d, assembled, e | e⟩ := onHeadersComplete_cases env x n chunked
  · rw [e]
    exact assembled_march assembled
  · have req := onHeadersComplete_req e
    rw [e]
    obtain ⟨a, o, st, _, rfl⟩ := assembled
    refine ⟨rfl, .begins rfl rfl (fun plain _ => receiving_cases (.inl (order plain))) (.inr (.inl rfl))
      (fun _ => req) (fun plain _ => ?_) rfl⟩
    unfold place
    rw [order plain]
    exact Nat.lt_succ_self _

theorem dueAfter_last (due : Bool) (evs : List ConnEvent) (ev : ConnEvent) :
    dueAfter due (evs ++ [ev]) = isDispatch ev := by
  induction evs generalizing due with
  | nil => cases ev <;> rfl
  | cons e evs ih => cases e <;> exact ih _

theorem uvWrite_now (x : Ctx σ) (res : WriteRes) (w : WriteCtx) : (uvWrite x res w).srv.now = x.srv.now := by
  unfold uvWrite
  split
  · rfl
  · exact connCloseAndFree_now x

theorem connStartResponse_march (hl : Linked x.c) (env : Env σ) (k : ℕ)
    (working : Plain x.c → Serving x.c → stageOf x.c = .working) : March env x (connStartResponse env x k) := by
  obtain ⟨srv, st, res, w, rfl, e⟩ := connStartResponse_cases env x k
  rw [e]
  refine ⟨(uvWrite_now _ _ _).trans rfl, ?_⟩
  unfold uvWrite
  split
  · have before : Plain { x.c with
        phase := .write
        deadline := x.srv.now + env.cfg.requestTimeoutMs
        pendingWrites := x.c.pendingWrites + 1
        writes := x.c.writes ++ [⟨.response k, .reply w⟩]
        trace := x.c.trace ++ [.wrote ⟨.response k, .reply w⟩] } → Plain x.c := fun plain => by
      refine ⟨plain.1, ?_⟩
      have all := plain.2
      rw [List.all_append, Bool.and_eq_true] at all
      exact all.1
    refine ⟨before, fun plain serving => ?_⟩
    have working := working (before plain) serving
    obtain ⟨none, due⟩ := working_cases working
    have phase := serving.waits due
    have books := serving.books
    have settled : dueAfter false (x.c.trace ++ [.wrote ⟨.response k, .reply w⟩]) = false := dueAfter_last _ _ _
    refine ⟨⟨.inl ⟨rfl, ?_⟩, fun late => ?_, fun free => ?_, ?_, by simp⟩, .inr ⟨?_, fun _ => ?_⟩⟩
    · dsimp only
      rw [none]
      rfl
    · rw [show dueAfter false (x.c.trace ++ [.wrote ⟨.response k, .reply w⟩]) = true from late] at settled
      cases settled
    · have between := serving.between free
      rw [phase] at between
      obtain h | h := between <;> cases h
    · dsimp only
      rw [settled]
      unfold sent at *
      rw [sentFrom_append, answers_append, dispatches_append, books, due]
      rfl
    · have stage : stageOf x.c = .working := working
      unfold place
      rw [stage, stageOf_written (by simp)]
      exact Nat.lt_succ_self _
    · rw [stageOf_written (by simp)]
      rfl
  · exact .over (not_plain_of_shut (.inl (connCloseAndFree_closes
      ⟨hl.queued, hl.closeCb, hl.finalized, hl.reading, hl.writes, by simp⟩)))

/-- A connection on which another writer wrote is not plain, and neither is one that closed instead. -/
theorem uvWrite_odd (hl : Linked x.c) (res : WriteRes) {w : WriteCtx} (odd : regular (.wrote w) = false) :
    ¬ Plain (uvWrite x res w).c := by
  unfold uvWrite
  split
  · exact not_plain_of_mem (List.mem_append_right _ (List.mem_singleton_self _)) odd
  · exact not_plain_of_shut (.inl (connCloseAndFree_closes hl))

theorem uvWrite_march (hl : Linked x.c) (env : Env σ) (res : WriteRes) {w : WriteCtx}
    (odd : regular (.wrote w) = false) : March env x (uvWrite x res w) :=
  ⟨uvWrite_now x res w, .over (uvWrite_odd hl res odd)⟩

theorem countWrite_march (env : Env σ) (x : Ctx σ) : March env x (countWrite x) := ⟨rfl, .of_eq rfl rfl rfl⟩

theorem connSendSimple_odd (hl : Linked x.c) (env : Env σ) (code : ℕ) (hdr : Option Bytes) (body : Bytes)
    (forceClose : Bool) : (connSendSimple env x code hdr body forceClose).srv.now = x.srv.now ∧
      ¬ Plain (connSendSimple env x code hdr body forceClose).c := by
  obtain e | ⟨srv, st, res, rfl, e⟩ := connSendSimple_cases env x code hdr body forceClose <;> rw [e]
  · exact ⟨connCloseAndFree_now _, not_plain_of_shut (.inl (connCloseAndFree_closes (x := countWrite x) hl))⟩
  · let z : Ctx σ := { x with
      srv := { x.srv with stats := st, writeCalls := x.srv.writeCalls + 1 }
      c := { x.c with keepAlive := !forceClose, forceClose := forceClose, statusSent := true } }
    have linked : Linked z.c := hl.of_eq rfl
    exact ⟨uvWrite_now z res _, uvWrite_odd linked res rfl⟩

theorem connSendSimple_march (hl : Linked x.c) (env : Env σ) (code : ℕ) (hdr : Option Bytes) (body : Bytes)
    (forceClose : Bool) : March env x (connSendSimple env x code hdr body forceClose) :=
  have sent := connSendSimple_odd hl env code hdr body forceClose
  ⟨sent.1, .over sent.2⟩

theorem connSseWrite_march (hl : Linked x.c) (env : Env σ) (data : Bytes) :
    March env x (connSseWrite env x data) := by
  unfold connSseWrite
  dsimp only
  split
  · exact (countWrite_march env x).trans (connCloseAndFree_march (x := countWrite x) hl)
  · exact (countWrite_march env x).trans (uvWrite_march (x := countWrite x) hl env _ rfl)

theorem sendLiveSse_march (hl : Linked x.c) (env : Env σ) : March env x (sendLiveSse env x) := by
  unfold sendLiveSse
  dsimp only
  split
  · exact (countWrite_march env x).trans (connCloseAndFree_march (x := countWrite x) hl)
  · have head := (countWrite_march env x).trans
      (uvWrite_march (x := countWrite x) hl env (writeRes env x) (w := ⟨.sse, .reply liveHead⟩) rfl)
    have linked := (uvWrite_kept (countWrite_kept hl).linked (writeRes env x) ⟨.sse, .reply liveHead⟩).linked
    split
    · let z := sseLink (uvWrite (countWrite x) (writeRes env x) ⟨.sse, .reply liveHead⟩)
      have streaming : March env x z := head.trans ⟨rfl, .of_eq rfl rfl rfl⟩
      exact streaming.trans (connSseWrite_march (x := z) (linked.of_eq rfl) env _)
    · exact head

theorem noted_march (env : Env σ) (order : Plain x.c → stageOf x.c = .body) (k : ℕ) : March env x (noted x k) ∧
    (Plain (noted x k).c → Serving (noted x k).c → stageOf (noted x k).c = .working) := by
  have due : dueAfter false (noted x k).c.trace = true := dueAfter_last _ _ _
  have before : Plain (noted x k).c → Plain x.c := fun plain => by
    refine ⟨plain.1, ?_⟩
    have all := plain.2
    rw [noted, List.all_append, Bool.and_eq_true] at all
    exact all.1
  have working (plain : Plain (noted x k).c) : stageOf (noted x k).c = .working :=
    stageOf_working (c := (noted x k).c) (receiving_cases (.inr (.inl (order (before plain))))).1 due
  refine ⟨⟨rfl, before, fun plain serving => ?_⟩, fun plain _ => working plain⟩
  have stage := order (before plain)
  obtain ⟨none, settled⟩ := receiving_cases (.inr (.inl stage))
  have books := serving.books
  refine ⟨⟨serving.writes, fun _ => serving.of_body stage, serving.between, ?_, serving.phase⟩,
    .inr ⟨?_, fun off => absurd (working plain) off⟩⟩
  · rw [due]
    unfold noted sent at *
    rw [sentFrom_append, answers_append, dispatches_append, books, settled]
    rfl
  · unfold place
    rw [working plain, stage]
    exact Nat.lt_succ_self _

theorem connRequestDispatch_march (hl : Linked x.c) (env : Env σ) (order : Plain x.c → stageOf x.c = .body) :
    March env x (connRequestDispatch env x) := by
  unfold connRequestDispatch
  split
  · exact .refl env x
  · rename_i k _
    split
    · exact .refl env x
    · obtain ⟨march, working⟩ := noted_march env order k
      have linked : Linked (noted x k).c := hl.of_eq rfl
      have answered := dispatchReq_answers env (noted x k) k
      refine march.trans (y := noted x k) ?_
      change March env (noted x k) (dispatchReq env (noted x k) k)
      generalize dispatchReq env (noted x k) k = z at answered
      generalize verdict env (noted x k) k = v at answered
      cases answered with
      | worker ready => exact (Ready.march ready).trans ⟨rfl, .of_eq rfl rfl rfl⟩
      | response ready =>
        refine (Ready.march ready).trans (connStartResponse_march (ready.linked linked) env k ?_)
        obtain ⟨⟨a, o, st, rfl⟩, _⟩ := ready
        exact fun plain serving => working (plain.of_eq rfl) ⟨serving.writes, serving.waits, serving.between,
          serving.books, serving.phase⟩
      | simple ready code hdr body =>
        exact (Ready.march ready).trans (connSendSimple_march (ready.linked linked) env code hdr body false)
      | stream ready => exact (Ready.march ready).trans (sendLiveSse_march (ready.linked linked) env)

theorem onMessageComplete_march (hl : Linked x.c) (env : Env σ) (keepAlive : Bool)
    (order : Plain x.c → stageOf x.c = .body) : March env x (onMessageComplete env x keepAlive).1 := by
  have assembled := completeReq_assembled (told x keepAlive)
  have linked := assembled.linked (hl.of_eq rfl)
  have stored : March env x { x with c := told x keepAlive } := ⟨rfl, .of_eq rfl rfl rfl⟩
  have taken := stored.trans (assembled_march (x := { x with c := told x keepAlive }) assembled)
  have same : stageOf (completeReq (told x keepAlive)).1 = stageOf x.c := by
    obtain ⟨a, o, st, _, e⟩ := assembled
    rw [e]
    exact stageOf_congr rfl
  generalize hd : completeReq (told x keepAlive) = done at linked taken same
  obtain ⟨c, code⟩ := done
  obtain ⟨_, e⟩ | ⟨_, z, rfl, e⟩ := onMessageComplete_cases env x keepAlive hd <;> rw [e]
  · exact taken.trans ⟨rfl, .of_eq rfl rfl rfl⟩
  · have counting : March env { x with c := c } (counted x c) := ⟨rfl, .of_eq rfl rfl rfl⟩
    have dispatched := connRequestDispatch_march (x := counted x c) linked env fun plain =>
      same.trans (order (taken.pace.plain plain))
    exact ((taken.trans counting).trans dispatched).trans ⟨rfl, .of_eq rfl rfl rfl⟩

theorem onEvent_march (hl : Linked x.c) (env : Env σ) (ev : HttpEvent) (order : Plain x.c → inOrder x.c ev) :
    March env x (onEvent env x ev).1 := by
  cases ev with
  | span k s =>
    cases k with
    | url => exact assembled_march (onUrl_assembled x.c s)
    | field => exact assembled_march (onHeaderField_assembled x.c s)
    | value => exact assembled_march (onHeaderValue_assembled x.c s)
    | body => exact assembled_march (onBody_assembled env x.c s)
  | mark m =>
    cases m with
    | messageBegin => exact onMessageBegin_march env x
    | method name => exact ⟨rfl, .of_eq rfl rfl rfl⟩
    | headersComplete n chunked => exact onHeadersComplete_march env x n chunked order
    | messageComplete keepAlive => exact onMessageComplete_march hl env keepAlive order
  | fail e => exact .refl env x

theorem rejectRequest_march (hl : Linked x.c) (env : Env σ) (code : ℕ) (reason : Bytes) :
    March env x (rejectRequest env x code reason) := by
  have noted : March env x { x with c := { x.c with forceClose := true, trace := x.c.trace ++ [.rejected code] } } :=
    ⟨rfl, .over (not_plain_of_mem (List.mem_append_right _ (List.mem_singleton_self _)) rfl)⟩
  exact noted.trans (connSendSimple_march (x := { x with c := { x.c with
    forceClose := true, trace := x.c.trace ++ [.rejected code] } }) (hl.of_eq rfl) env code none reason true)

theorem march_rules (env : Env σ) : ParseRules env (fun x ev => Plain x.c → inOrder x.c ev) (March env) where
  refl := .refl env
  trans _ _ _ := .trans
  buffer _ _ _ _ := ⟨rfl, .of_eq rfl rfl rfl⟩
  event _ ev hl order := onEvent_march hl env ev order
  reject _ code reason hl _ := rejectRequest_march hl env code reason

theorem readFrom_march (hl : Linked x.c) (env : Env σ)
    (order : (x.c.statusSent || decide (x.c.phase = .drain)) = false →
      ∀ p ∈ callsOf env x, Plain p.1.c → inOrder p.1.c p.2) : March env x (readFrom env x) := by
  cases drained : x.c.statusSent || decide (x.c.phase = .drain) with
  | false => exact (march_rules env).readFrom hl drained (order drained)
  | true =>
    unfold readFrom
    rw [drained, if_pos rfl]
    split
    · exact connCloseAndFree_march hl
    · exact .refl env x

theorem popped_march (env : Env σ) (x : Ctx σ) : March env x (popped x) := by
  refine ⟨rfl, fun plain => plain.of_eq rfl, fun _ serving => ⟨?_, .inl ⟨?_, rfl⟩⟩⟩
  · refine ⟨?_, serving.waits, serving.between, serving.books, serving.phase⟩
    obtain ⟨writing, few⟩ | ⟨other, none⟩ := serving.writes
    · refine .inl ⟨writing, ?_⟩
      change x.c.writes.tail.length ≤ 1
      rw [List.length_tail]
      omega
    · refine .inr ⟨other, ?_⟩
      change x.c.writes.tail = []
      rw [none]
      rfl
  · have stage : stageOf (popped x).c = stageOf x.c := by
      obtain ⟨writing, few⟩ | ⟨_, none⟩ := serving.writes
      · have settled := serving.settled (by rw [writing]; decide)
        cases writes : x.c.writes with
        | nil => exact stageOf_congr (by simp [popped, popWrite, writes])
        | cons w rest =>
          have last : (popped x).c.writes = [] := by
            rw [writes] at few
            change x.c.writes.tail = []
            rw [writes]
            exact List.length_eq_zero_iff.mp (Nat.le_zero.mp (Nat.le_of_succ_le_succ few))
          have phase : (popped x).c.phase = .write := writing
          rw [stageOf_quiet last settled, phase, stageOf_written (by rw [writes]; simp)]
          rfl
      · exact stageOf_congr (by simp [popped, popWrite, none])
    have turn : (popped x).c.nObjs = x.c.nObjs := rfl
    unfold place
    rw [stage, turn]

theorem rearmed_march (env : Env σ) {w : WriteCtx} {rest : List WriteCtx} (hw : x.c.writes = w :: rest) :
    March env x (rearmed env (countAnswered (popped x))) := by
  have made := popped_march env x
  refine ⟨rfl, fun plain => made.pace.plain (plain.of_eq rfl), fun plain serving => ?_⟩
  obtain ⟨writing, few⟩ | ⟨_, none⟩ := serving.writes
  · have last : (popped x).c.writes = [] := by
      rw [hw] at few
      change x.c.writes.tail = []
      rw [hw]
      exact List.length_eq_zero_iff.mp (Nat.le_zero.mp (Nat.le_of_succ_le_succ few))
    have phase : (popped x).c.phase = .write := writing
    have settled := serving.settled (by rw [writing]; decide)
    have begins : Pace env x.srv.now (popped x).c (rearmed env (countAnswered (popped x))).c := by
      refine .begins rfl rfl (fun _ _ => ⟨last, settled⟩) (.inr (.inr rfl)) (fun h => (by cases h))
        (fun _ _ => ?_) rfl
      unfold place
      rw [stageOf_quiet last settled, phase]
      exact Nat.lt_succ_self _
    exact (made.pace.trans begins).paced plain serving
  · rw [hw] at none
    cases none

theorem connCloseGraceful_march (env : Env σ) (x : Ctx σ) : March env x (connCloseGraceful x) := by
  refine ⟨?_, .over (not_plain_of_shut (connCloseGraceful_shut x))⟩
  unfold connCloseGraceful
  split <;> rfl

theorem onResponseWritten_march (hl : Linked x.c) (env : Env σ) {w : WriteCtx} {rest : List WriteCtx}
    (hw : x.c.writes = w :: rest) (ok : Bool)
    (order : ok = true → x.c.finalized = false → x.c.closing = false → closeFlag x.c = false →
      0 < (rearmed env (countAnswered (popped x))).c.buf.filled →
        ∀ p ∈ callsOf env (rearmed env (countAnswered (popped x))), Plain p.1.c → inOrder p.1.c p.2) :
    March env x (onResponseWritten env x ok) := by
  have made := popped_march env x
  have linked := (popped_housed hl).linked
  have counted : March env (popped x) (countAnswered (popped x)) := ⟨rfl, .of_eq rfl rfl rfl⟩
  rw [onResponseWritten_eq hl]
  split
  · exact made
  · rename_i live
    obtain ⟨_, e⟩ | ⟨_, closing, e⟩ | ⟨_, _, _, e⟩ | ⟨done, open_, force, keep, e⟩ :=
      afterResponse_cases linked env ok <;> rw [e]
    · exact (made.trans counted).trans (connCloseAndFree_march (x := countAnswered (popped x)) linked)
    · exact ⟨rfl, .over (not_plain_of_shut (.inl closing))⟩
    · exact (made.trans counted).trans (connCloseGraceful_march env _)
    · have ready := rearmed_seated (x := countAnswered (popped x)) linked env
      refine (rearmed_march env hw).trans ((march_rules env).resumeFrom ready.linked fun left => ?_)
      exact order done (Bool.eq_false_iff.mpr live) open_ (closeFlag_clear force keep) left

theorem odd_reported (queued : Queued x.c) {w : WriteCtx} {rest : List WriteCtx} (hw : x.c.writes = w :: rest)
    (odd : regular (.wrote w) = false) : ¬ Plain x.c := by
  obtain ⟨done, queue⟩ := queued
  unfold sent at queue
  rw [sentFrom_writes, hw] at queue
  have mem : w ∈ x.c.trace.filterMap writeOf := by
    rw [queue]
    exact List.mem_append_right _ List.mem_cons_self
  obtain ⟨ev, hev, e⟩ := List.mem_filterMap.mp mem
  refine not_plain_of_mem hev ?_
  cases ev with
  | wrote v =>
    cases e
    exact odd
  | dispatched k r => cases e
  | rejected code => cases e

theorem onSimpleWritten_march (hl : Linked x.c) (env : Env σ) (odd : ¬ Plain x.c) (ok : Bool) :
    March env x (onSimpleWritten env x ok) := by
  have linked := (popped_housed hl).linked
  have counted : March env x (countAnswered (popped x)) := (popped_march env x).trans ⟨rfl, .of_eq rfl rfl rfl⟩
  obtain ⟨_, e⟩ | ⟨_, _, e⟩ | ⟨_, _, _, _, e⟩ | ⟨_, _, _, e⟩ := onSimpleWritten_cases hl env ok <;> rw [e]
  · exact counted
  · exact counted.trans (connCloseAndFree_march (x := countAnswered (popped x)) linked)
  · have back : Plain (recover env (countAnswered (popped x))).c → Plain x.c := fun plain => plain.of_eq rfl
    exact ⟨rfl, back, fun plain => absurd (back plain) odd⟩
  · exact counted.trans (connCloseGraceful_march env _)

theorem connOnSseWritten_march (hl : Linked x.c) (env : Env σ) (ok : Bool) : March env x (connOnSseWritten x ok) := by
  obtain e | e := connOnSseWritten_cases hl ok <;> rw [e]
  · exact popped_march env x
  · exact (popped_march env x).trans (connCloseAndFree_march (popped_housed hl).linked)

theorem onWritten_march {s : Srv σ} {i : ℕ} (hl : Linked (s.conns i)) (queued : Queued (s.conns i)) {w : WriteCtx}
    {rest : List WriteCtx} (hw : (s.conns i).writes = w :: rest) (ok : Bool)
    (order : ∀ p ∈ stepCalls env s (.written i ok), Plain p.1.c → inOrder p.1.c p.2) :
    March env (s.enter i) (onWritten env (s.enter i) w.kind ok) := by
  obtain ⟨kind, out⟩ := w
  cases kind with
  | simple => exact onSimpleWritten_march (x := s.enter i) hl env (odd_reported queued hw rfl) ok
  | sse => exact connOnSseWritten_march (x := s.enter i) hl env ok
  | response k =>
    refine onResponseWritten_march (x := s.enter i) hl env hw ok fun done live open_ flag left p hp => order p ?_
    subst done
    have live : (s.conns i).finalized = false := live
    have open_ : (s.conns i).closing = false := open_
    have flag : closeFlag (s.conns i) = false := flag
    have parses := parsing_response env hw
    rw [live, open_, flag, Bool.or_self, Bool.or_self, if_neg Bool.false_ne_true, if_pos left] at parses
    rw [stepCalls, parses]
    simpa using hp

theorem connOnRead_march {s : Srv σ} {i room : ℕ} {data : Bytes} (hl : Linked (s.conns i))
    (hx : connAllocCb env (s.enter i) = (some room, x))
    (order : ∀ p ∈ stepCalls env s (.read i data), Plain p.1.c → inOrder p.1.c p.2) :
    March env (s.enter i) (connOnRead env x data) := by
  have buffered := (connAllocCb_housed (x := s.enter i) hl env).linked
  rw [hx] at buffered
  have linked := (received_housed buffered data).linked
  have made : March env (s.enter i) (received x data) := by
    unfold connAllocCb at hx
    split at hx
    · cases hx
    · cases hx
      exact ⟨rfl, .of_eq rfl rfl rfl⟩
  refine made.trans (readFrom_march linked env fun parses p hp => order p ?_)
  have parses : (x.c.statusSent || decide (x.c.phase = .drain)) = false := parses
  rw [stepCalls, parsing_read data hx, parses, if_neg Bool.false_ne_true]
  simpa using hp

theorem forced_march (env : Env σ) (x : Ctx σ) :
    March env x { x with c := { cancelReq x.c with forceClose := true } } := by
  obtain ⟨o, ho⟩ := cancelReq_objs x.c
  rw [ho]
  exact ⟨rfl, .of_eq rfl rfl rfl⟩

theorem connDeadlinePass_march (hl : Linked x.c) (env : Env σ) : March env x (connDeadlinePass x) := by
  unfold connDeadlinePass
  split
  · exact (forced_march env x).trans (connCloseAndFree_march (forceClose_kept hl).linked)
  · exact .refl env x

theorem shutdownConn_march (hl : Linked x.c) (env : Env σ) : March env x (shutdownConn x) := by
  unfold shutdownConn
  split
  · exact connCloseAndFree_march hl
  · split
    · exact forced_march env x
    · exact .refl env x

theorem reloadConn_march (hl : Linked x.c) (env : Env σ) : March env x (reloadConn env x) := by
  unfold reloadConn
  split
  · exact .refl env x
  · exact connSseWrite_march hl env _

theorem Serving.waiting {m : Multiset ReqRef} {c : Conn σ} (h : Serving c) {ref : ReqRef} (held : ref ∈ m)
    (paid : Paid m c) : stageOf c = .working := by
  have one := Multiset.card_pos_iff_exists_mem.mpr ⟨ref, held⟩
  have books := h.books
  unfold Paid at paid
  have due : dueAfter false c.trace = true := by
    refine Bool.not_eq_false _ ▸ fun settled => ?_
    rw [settled] at books
    change dispatches c.trace = answers (sent c.trace) + 0 at books
    omega
  exact stageOf_working (h.unwritten (by rw [h.waits due]; decide)) due

theorem prepared_march (h : Prepared x y) : March env x y := by
  obtain ⟨a, o, st, _, rfl⟩ := h
  exact ⟨rfl, .of_eq rfl rfl rfl⟩

theorem drainReq_march (hl : Linked x.c) (env : Env σ) {m : Multiset ReqRef} {ref : ReqRef} (held : ref ∈ m)
    (paid : Paid m x.c) : March env x (drainReq env x ref.req) := by
  obtain ⟨_, st, e⟩ | ⟨_, y, prep, e⟩ := drainReq_cases hl env ref.req <;> rw [e]
  · exact ⟨rfl, .of_eq rfl rfl rfl⟩
  · have linked := (prepared_kept prep hl).linked
    refine (prepared_march prep).trans (connStartResponse_march linked env ref.req fun _ serving => ?_)
    obtain ⟨a, o, st, _, rfl⟩ := prep
    exact serving.waiting held (paid.of_trace rfl)

end March

end Cerco.ConnStages
