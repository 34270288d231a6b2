import Cerco.CloseFlags

set_option autoImplicit false

/-!
# Relations between the start of a callback and its end

A callback of the event loop parses, answers and closes. `QuietRules` and `CallbackRules`
list what has to be checked of a relation `R` for the parts of a callback and of `Q` for all
of it; the rest of the module derives them for the callbacks themselves.
-/
namespace Cerco.Callbacks
open Cerco.Alloc Cerco.CString Cerco.Request Cerco.Connection Cerco.Dispatch Cerco.HttpCallbacks
open Cerco.Server Cerco.ConnFrames Cerco.ServerRules Cerco.CloseFlags

variable {σ : Type}

/-- The parts that neither parse nor answer. Nothing follows `Q`. -/
structure QuietRules (env : Env σ) (R Q : Ctx σ → Ctx σ → Prop) : Prop where
  refl : ∀ x, R x x
  trans : ∀ x y z, R x y → R y z → R x z
  whole : ∀ x y, R x y → Q x y
  ends : ∀ x y z, R x y → Q y z → Q x z
  buffer : ∀ (x : Ctx σ) p b reading,
    R x { x with c := { x.c with parser := p, buf := b, reading := reading } }
  receive : ∀ (x : Ctx σ) data, R x (received x data)
  rearm : ∀ x : Ctx σ, Linked x.c → x.c.closing = false → closeFlag x.c = false → R x (rearmed env x)
  restart : ∀ x : Ctx σ, Linked x.c → x.c.closing = false → closeFlag x.c = false → R x (recover env x)
  shed : ∀ x : Ctx σ, Linked x.c → x.c.closing = true → R x { x with c := { x.c with req := none } }
  cancel : ∀ x : Ctx σ, Linked x.c → R x { x with c := { cancelReq x.c with forceClose := true } }
  close : ∀ x, Linked x.c → Q x (connCloseAndFree x)
  graceful : ∀ x : Ctx σ, Linked x.c → closeFlag x.c = true → Q x (connCloseGraceful x)

/-- All parts. `P` may be assumed of a message that is complete. -/
structure CallbackRules (env : Env σ) (P : Ctx σ → Bool → Prop) (R Q : Ctx σ → Ctx σ → Prop) : Prop
    extends QuietRules env R Q where
  event : ∀ x ev, Linked x.c → (∀ keepAlive ∈ completes ev, P x keepAlive) → R x (onEvent env x ev).1
  reject : ∀ x code reason, Linked x.c → (code = 400 ∨ code = x.c.stage.badRequest ∧ code ≠ 0) →
    R x (rejectRequest env x code reason)

/-- The parts that parse. `P` may be assumed of every event that is reported. -/
structure ParseRules (env : Env σ) (P : Ctx σ → HttpEvent → Prop) (R : Ctx σ → Ctx σ → Prop) : Prop where
  refl : ∀ x, R x x
  trans : ∀ x y z, R x y → R y z → R x z
  buffer : ∀ (x : Ctx σ) p b reading,
    R x { x with c := { x.c with parser := p, buf := b, reading := reading } }
  event : ∀ x ev, Linked x.c → P x ev → R x (onEvent env x ev).1
  reject : ∀ x code reason, Linked x.c → (code = 400 ∨ code = x.c.stage.badRequest ∧ code ≠ 0) →
    R x (rejectRequest env x code reason)

/-- The events of a list up to the one that fails, each with its connection before it. -/
def calls (env : Env σ) : List (ℕ × HttpEvent) → Ctx σ → List (Ctx σ × HttpEvent)
  | [], _ => []
  | (_, ev) :: rest, x =>
    (x, ev) :: if (onEvent env x ev).2 then calls env rest (onEvent env x ev).1 else []

/-- The events that the parser reports while `llhttp_execute` runs on the buffer. -/
def callsOf (env : Env σ) (x : Ctx σ) : List (Ctx σ × HttpEvent) :=
  if x.c.parser.error = .ok then
    calls env (env.llhttp.buffer x.c.parser.state x.c.buf.mem).1 (noteExec x x.c.buf.mem)
  else []

def stepCalls (env : Env σ) (s : Srv σ) (a : Step) : List (Ctx σ × HttpEvent) :=
  (parsing env s a).toList.flatMap (callsOf env)

/-- The write is taken from the queue; answers count as done, those of a connection that was torn down
no more. -/
def reported (x : Ctx σ) : WriteKind → Ctx σ
  | .response _ => if x.c.finalized then popped x else countAnswered (popped x)
  | .simple => countAnswered (popped x)
  | .sse => popped x

section Parser
variable {env : Env σ} {P : Ctx σ → HttpEvent → Prop} {R : Ctx σ → Ctx σ → Prop} {x : Ctx σ}

theorem ParseRules.runEvents (rules : ParseRules env P R) (evs : List (ℕ × HttpEvent)) (hl : Linked x.c)
    (h : ∀ p ∈ calls env evs x, P p.1 p.2) : R x (HttpCallbacks.runEvents env evs x).1 := by
  induction evs generalizing x with
  | nil => exact rules.refl x
  | cons ev rest ih =>
    obtain ⟨pos, ev⟩ := ev
    rw [calls] at h
    have first := rules.event x ev hl (h _ List.mem_cons_self)
    rw [runEvents_cons]
    split
    · rename_i good
      rw [if_pos good] at h
      exact rules.trans _ _ _ first (ih (onEvent_loose hl env ev).linked fun p hp =>
        h p (List.mem_cons_of_mem _ hp))
    · exact rules.trans _ _ _ first (rules.buffer _ _ _ _)

theorem ParseRules.execute (rules : ParseRules env P R) (hl : Linked x.c) (h : ∀ p ∈ callsOf env x, P p.1 p.2) :
    R x (llhttpExecute env x x.c.buf.mem).2 := by
  have noting : R x (noteExec x x.c.buf.mem) := rules.buffer _ _ _ _
  have linked := (noteExec_housed hl x.c.buf.mem).linked
  unfold callsOf at h
  obtain ⟨_, e⟩ | ⟨good, z, hz, e⟩ | ⟨good, z, hz, e⟩ := llhttpExecute_cases env x x.c.buf.mem <;> rw [e]
  · exact noting
  all_goals
    rw [if_pos good] at h
    have ran := rules.trans _ _ _ noting (rules.runEvents _ linked h)
    rw [hz] at ran
  · exact rules.trans _ _ _ ran (rules.buffer _ _ _ _)
  · exact ran

theorem rejectCode_cases (c : Conn σ) {code : ℕ}
    (h : code = if c.stage.badRequest ≠ 0 then c.stage.badRequest else 400) :
    code = 400 ∨ code = c.stage.badRequest ∧ code ≠ 0 := by
  split at h
  · rename_i bad
    exact .inr ⟨h, h ▸ bad⟩
  · exact .inl h

theorem ParseRules.readFrom (rules : ParseRules env P R) (hl : Linked x.c)
    (parses : (x.c.statusSent || decide (x.c.phase = .drain)) = false) (h : ∀ p ∈ callsOf env x, P p.1 p.2) :
    R x (HttpCallbacks.readFrom env x) := by
  have ran := rules.execute hl h
  have linked := (llhttpExecute_housed hl env x.c.buf.mem).linked
  unfold HttpCallbacks.readFrom
  rw [parses, if_neg Bool.false_ne_true]
  dsimp only
  split <;> rename_i z hz <;> rw [hz] at ran linked
  · exact rules.trans _ _ _ ran (rules.buffer _ _ _ _)
  · exact rules.trans _ _ _ ran (rules.buffer _ _ _ _)
  · have consumed : R z (setConsumed z x.c.buf.mem (errorOffset z.c)) := rules.buffer _ _ _ _
    have linked := (setConsumed_housed linked x.c.buf.mem (errorOffset z.c)).linked
    refine rules.trans _ _ _ ran (rules.trans _ _ _ consumed ?_)
    exact rules.reject _ _ _ linked (rejectCode_cases z.c rfl)

theorem resumeFrom_empty (env : Env σ) (h : ¬ 0 < x.c.buf.filled) :
    HttpCallbacks.resumeFrom env x = { x with c := readStart x.c } := by
  unfold HttpCallbacks.resumeFrom
  dsimp only
  rw [if_neg h]

theorem ParseRules.resumeFrom (rules : ParseRules env P R) (hl : Linked x.c)
    (h : 0 < x.c.buf.filled → ∀ p ∈ callsOf env x, P p.1 p.2) : R x (HttpCallbacks.resumeFrom env x) := by
  unfold HttpCallbacks.resumeFrom
  dsimp only
  split
  · rename_i left
    have ran := rules.execute hl (h left)
    have linked := (llhttpExecute_housed hl env x.c.buf.mem).linked
    split <;> rename_i hz <;> rw [hz] at ran linked
    · exact rules.trans _ _ _ ran (rules.buffer _ _ _ _)
    · exact rules.trans _ _ _ ran (rules.buffer _ _ _ _)
    · exact rules.trans _ _ _ ran (rules.reject _ _ _ linked (.inl rfl))
  · exact rules.buffer _ _ _ _

theorem mem_completions {evs : List (ℕ × HttpEvent)} {p : Ctx σ × HttpEvent} (hp : p ∈ calls env evs x)
    {keepAlive : Bool} (done : keepAlive ∈ completes p.2) : (p.1, keepAlive) ∈ completions env evs x := by
  induction evs generalizing x with
  | nil => cases hp
  | cons ev rest ih =>
    obtain ⟨pos, ev⟩ := ev
    rw [calls] at hp
    rw [completions]
    obtain rfl | later := List.mem_cons.mp hp
    · exact List.mem_append_left _ (List.mem_map.mpr ⟨keepAlive, Option.mem_toList.mpr done, rfl⟩)
    · refine List.mem_append_right _ ?_
      split at later
      · rename_i good
        rw [if_pos good]
        exact ih later
      · cases later

theorem mem_parsed {p : Ctx σ × HttpEvent} (hp : p ∈ callsOf env x) {keepAlive : Bool}
    (done : keepAlive ∈ completes p.2) : (p.1, keepAlive) ∈ parsed env x := by
  unfold callsOf at hp
  unfold parsed
  split at hp
  · rename_i good
    rw [if_pos good]
    exact mem_completions hp done
  · cases hp

end Parser

section Rules
variable {env : Env σ} {P : Ctx σ → Bool → Prop} {R Q : Ctx σ → Ctx σ → Prop} {x : Ctx σ}

theorem CallbackRules.parser (rules : CallbackRules env P R Q) :
    ParseRules env (fun y ev => ∀ keepAlive ∈ completes ev, P y keepAlive) R :=
  ⟨rules.refl, rules.trans, rules.buffer, rules.event, rules.reject⟩

theorem CallbackRules.parse (rules : CallbackRules env P R Q) (hl : Linked x.c)
    (parses : (x.c.statusSent || decide (x.c.phase = .drain)) = false) (h : ∀ p ∈ parsed env x, P p.1 p.2) :
    R x (HttpCallbacks.readFrom env x) :=
  rules.parser.readFrom hl parses fun _ hp _ done => h _ (mem_parsed hp done)

theorem CallbackRules.resumeFrom (rules : CallbackRules env P R Q) (hl : Linked x.c)
    (h : 0 < x.c.buf.filled → ∀ p ∈ parsed env x, P p.1 p.2) : R x (HttpCallbacks.resumeFrom env x) :=
  rules.parser.resumeFrom hl fun left _ hp _ done => h left _ (mem_parsed hp done)

theorem QuietRules.drained (rules : QuietRules env R Q) (hl : Linked x.c)
    (drained : (x.c.statusSent || decide (x.c.phase = .drain)) = true) : Q x (HttpCallbacks.readFrom env x) := by
  unfold HttpCallbacks.readFrom
  rw [if_pos drained]
  split
  · exact rules.close x hl
  · exact rules.whole _ _ (rules.refl x)

theorem QuietRules.allocate (rules : QuietRules env R Q) (x : Ctx σ) : R x (connAllocCb env x).2 := by
  unfold connAllocCb
  split
  · exact rules.refl x
  · exact rules.buffer _ _ _ _

theorem parsing_read {s : Srv σ} {i room : ℕ} (data : Bytes) (hx : connAllocCb env (s.enter i) = (some room, x)) :
    parsing env s (.read i data) =
      if x.c.statusSent || decide (x.c.phase = .drain) then none else some (received x data) := by
  simp only [parsing, hx]

theorem QuietRules.read (rules : QuietRules env R Q) {s : Srv σ} {i room : ℕ} (data : Bytes)
    (hl : Linked (s.conns i)) (hx : connAllocCb env (s.enter i) = (some room, x)) :
    parsing env s (.read i data) = none ∧ Q (s.enter i) (connOnRead env x data) ∨
    (parsing env s (.read i data) = some (received x data) ∧ R (s.enter i) (received x data) ∧
      ((received x data).c.statusSent || decide ((received x data).c.phase = .drain)) = false ∧
      Linked (received x data).c) := by
  have buffered := (connAllocCb_housed (x := s.enter i) hl env).linked
  have made := rules.allocate (s.enter i)
  rw [hx] at buffered made
  have ready := rules.trans _ _ _ made (rules.receive x data)
  have linked := (received_housed buffered data).linked
  have parses := parsing_read data hx
  cases drained : x.c.statusSent || decide (x.c.phase = .drain) with
  | true =>
    rw [drained, if_pos rfl] at parses
    exact .inl ⟨parses, rules.ends _ _ _ ready (rules.drained linked drained)⟩
  | false =>
    rw [drained, if_neg Bool.false_ne_true] at parses
    exact .inr ⟨parses, ready, drained, linked⟩

theorem QuietRules.readEnd (rules : QuietRules env R Q) (hl : Linked x.c) :
    Q x (connCloseAndFree (connAllocCb env x).2) :=
  rules.ends _ _ _ (rules.allocate x) (rules.close _ (connAllocCb_housed hl env).linked)

theorem parsing_response (env : Env σ) {s : Srv σ} {i k : ℕ} {out : Out} {rest : List WriteCtx}
    (hw : (s.conns i).writes = ⟨.response k, out⟩ :: rest) : parsing env s (.written i true) =
      if (s.conns i).finalized || (s.conns i).closing || closeFlag (s.conns i) then none
      else if 0 < (rearmed env (countAnswered (popped (s.enter i)))).c.buf.filled then
        some (rearmed env (countAnswered (popped (s.enter i)))) else none := by
  simp only [parsing, hw]
  rfl

theorem closeFlag_clear {c : Conn σ} (force : c.forceClose = false) (keep : c.keepAlive = true) :
    closeFlag c = false := by
  rw [closeFlag, force, keep]
  rfl

theorem closeFlag_set {c : Conn σ} (h : c.forceClose = true ∨ c.keepAlive = false) : closeFlag c = true := by
  obtain force | keep := h
  · rw [closeFlag, force, Bool.true_or]
  · rw [closeFlag, keep, Bool.not_false, Bool.or_true]

theorem QuietRules.written (rules : QuietRules env R Q) {s : Srv σ} {i : ℕ} {w : WriteCtx}
    {rest : List WriteCtx} (ok : Bool) (hl : Linked (s.conns i)) (hw : (s.conns i).writes = w :: rest) :
    parsing env s (.written i ok) = none ∧
      Q (reported (s.enter i) w.kind) (onWritten env (s.enter i) w.kind ok) ∨
    ∃ z, parsing env s (.written i ok) = some z ∧ R (reported (s.enter i) w.kind) z ∧ Linked z.c ∧
      z = rearmed env (countAnswered (popped (s.enter i))) ∧ (s.conns i).closing = false ∧
      closeFlag (s.conns i) = false ∧ 0 < z.c.buf.filled ∧
      onWritten env (s.enter i) w.kind ok = HttpCallbacks.resumeFrom env z := by
  have linked := (popped_housed (x := s.enter i) hl).linked
  have counted : Linked (countAnswered (popped (s.enter i))).c := linked
  obtain ⟨kind, out⟩ := w
  cases kind with
  | sse =>
    refine .inl ⟨by cases ok <;> simp [parsing, hw], ?_⟩
    change Q (popped (s.enter i)) (connOnSseWritten (s.enter i) ok)
    obtain e | e := connOnSseWritten_cases (x := s.enter i) hl ok <;> rw [e]
    · exact rules.whole _ _ (rules.refl _)
    · exact rules.close _ linked
  | simple =>
    refine .inl ⟨by cases ok <;> simp [parsing, hw], ?_⟩
    change Q (countAnswered (popped (s.enter i))) (onSimpleWritten env (s.enter i) ok)
    obtain ⟨_, e⟩ | ⟨_, _, e⟩ | ⟨open_, _, keep, force, e⟩ | ⟨_, _, force, e⟩ :=
      onSimpleWritten_cases (x := s.enter i) hl env ok <;> rw [e]
    · exact rules.whole _ _ (rules.refl _)
    · exact rules.close _ counted
    · exact rules.whole _ _ (rules.restart _ counted open_ (closeFlag_clear force keep))
    · exact rules.graceful _ counted (closeFlag_set force)
  | response k =>
    have parses := parsing_response env hw
    change parsing env s (.written i ok) = none ∧ Q (if (s.conns i).finalized then popped (s.enter i)
      else countAnswered (popped (s.enter i))) (onResponseWritten env (s.enter i) ok) ∨ ∃ z, _ ∧
        R (if (s.conns i).finalized then popped (s.enter i) else countAnswered (popped (s.enter i))) z ∧ _ ∧
          _ ∧ _ ∧ _ ∧ _ ∧ onResponseWritten env (s.enter i) ok = _
    rw [onResponseWritten_eq (x := s.enter i) hl]
    cases finalized : (s.conns i).finalized with
    | true =>
      have ended : (s.enter i).c.finalized = true := finalized
      refine .inl ⟨?_, ?_⟩
      · cases ok with
        | false => rfl
        | true => rw [parses, finalized, Bool.true_or, Bool.true_or, if_pos rfl]
      · rw [if_pos ended, if_pos rfl]
        exact rules.whole _ _ (rules.refl _)
    | false =>
      have live : ¬ (s.enter i).c.finalized = true := by
        change ¬ (s.conns i).finalized = true
        rw [finalized]
        exact Bool.false_ne_true
      rw [if_neg live, if_neg Bool.false_ne_true]
      obtain ⟨rfl, e⟩ | ⟨rfl, closing, e⟩ | ⟨rfl, _, force, e⟩ | ⟨rfl, open_, force, keep, e⟩ :=
        afterResponse_cases linked env ok <;> rw [e]
      · exact .inl ⟨rfl, rules.close _ counted⟩
      · have closing' : (s.conns i).closing = true := closing
        refine .inl ⟨?_, rules.whole _ _ (rules.shed _ counted closing)⟩
        rw [parses, closing', Bool.or_true, Bool.true_or, if_pos rfl]
      · have flag : closeFlag (s.conns i) = true := closeFlag_set force
        refine .inl ⟨?_, rules.graceful _ counted flag⟩
        rw [parses, flag, Bool.or_true, if_pos rfl]
      · have open' : (s.conns i).closing = false := open_
        have flag : closeFlag (s.conns i) = false := closeFlag_clear force keep
        have ready := rules.rearm _ counted open_ flag
        rw [finalized, open', flag, Bool.or_self, Bool.or_self, if_neg Bool.false_ne_true] at parses
        by_cases left : 0 < (rearmed env (countAnswered (popped (s.enter i)))).c.buf.filled
        · rw [if_pos left] at parses
          exact .inr ⟨_, parses, ready, (rearmed_seated counted env).linked, rfl, open', flag, left, rfl⟩
        · rw [if_neg left] at parses
          have drained := resumeFrom_empty env left
          rw [drained]
          exact .inl ⟨parses, rules.whole _ _ (rules.trans _ _ _ ready (rules.buffer _ _ _ _))⟩

theorem QuietRules.deadline (rules : QuietRules env R Q) (hl : Linked x.c) : Q x (connDeadlinePass x) := by
  unfold connDeadlinePass
  split
  · exact rules.ends _ _ _ (rules.cancel x hl) (rules.close _ (forceClose_kept hl).linked)
  · exact rules.whole _ _ (rules.refl x)

theorem QuietRules.shutdown (rules : QuietRules env R Q) (hl : Linked x.c) : Q x (shutdownConn x) := by
  unfold shutdownConn
  split
  · exact rules.close x hl
  · split
    · exact rules.whole _ _ (rules.cancel x hl)
    · exact rules.whole _ _ (rules.refl x)

theorem mem_completed {s : Srv σ} {a : Step} {p : Ctx σ × HttpEvent} (hp : p ∈ stepCalls env s a)
    {keepAlive : Bool} (done : keepAlive ∈ completes p.2) : (p.1, keepAlive) ∈ completed env s a := by
  obtain ⟨y, hy, hp⟩ := List.mem_flatMap.mp hp
  exact List.mem_flatMap.mpr ⟨y, hy, mem_parsed hp done⟩

theorem QuietRules.onRead (rules : QuietRules env R Q) {P : Ctx σ → HttpEvent → Prop}
    (parser : ParseRules env P R) {s : Srv σ} {i room : ℕ} {data : Bytes} (hl : Linked (s.conns i))
    (hx : connAllocCb env (s.enter i) = (some room, x))
    (h : ∀ p ∈ stepCalls env s (.read i data), P p.1 p.2) : Q (s.enter i) (connOnRead env x data) := by
  obtain ⟨_, quiet⟩ | ⟨parses, ready, drained, linked⟩ := rules.read data hl hx
  · exact quiet
  · refine rules.whole _ _ (rules.trans _ _ _ ready (parser.readFrom linked drained fun p hp => h p ?_))
    rw [stepCalls, parses]
    simpa using hp

theorem QuietRules.onWrite (rules : QuietRules env R Q) {P : Ctx σ → HttpEvent → Prop}
    (parser : ParseRules env P R) {s : Srv σ} {i : ℕ} {w : WriteCtx} {rest : List WriteCtx} (ok : Bool)
    (hl : Linked (s.conns i)) (hw : (s.conns i).writes = w :: rest)
    (h : ∀ p ∈ stepCalls env s (.written i ok), P p.1 p.2) :
    Q (reported (s.enter i) w.kind) (onWritten env (s.enter i) w.kind ok) := by
  obtain ⟨_, drained⟩ | ⟨z, parses, ready, linked, _, _, _, _, e⟩ := rules.written ok hl hw
  · exact drained
  · rw [e]
    refine rules.whole _ _ (rules.trans _ _ _ ready (parser.resumeFrom linked fun _ p hp => h p ?_))
    rw [stepCalls, parses]
    simpa using hp

theorem CallbackRules.onRead (rules : CallbackRules env P R Q) {s : Srv σ} {i room : ℕ} {data : Bytes}
    (hl : Linked (s.conns i)) (hx : connAllocCb env (s.enter i) = (some room, x))
    (h : ∀ p ∈ completed env s (.read i data), P p.1 p.2) : Q (s.enter i) (connOnRead env x data) :=
  rules.toQuietRules.onRead rules.parser hl hx fun _ hp _ done => h _ (mem_completed hp done)

theorem CallbackRules.onWrite (rules : CallbackRules env P R Q) {s : Srv σ} {i : ℕ} {w : WriteCtx}
    {rest : List WriteCtx} (ok : Bool) (hl : Linked (s.conns i)) (hw : (s.conns i).writes = w :: rest)
    (h : ∀ p ∈ completed env s (.written i ok), P p.1 p.2) :
    Q (reported (s.enter i) w.kind) (onWritten env (s.enter i) w.kind ok) :=
  rules.toQuietRules.onWrite rules.parser ok hl hw fun _ hp _ done => h _ (mem_completed hp done)

/-- A property of connections that callbacks preserve is one of all runs, as long as what `P` says holds
of every message. -/
theorem CallbackRules.conns {L : Conn σ → Prop}
    (rules : CallbackRules env P R Q) (keeps : ∀ x y, Q x y → L x.c → L y.c)
    (fresh : ∀ i now, L (freshConn env i now)) (pop : ∀ c, L c → L (popWrite c))
    (busy : ∀ x : Ctx σ, Linked x.c → L x.c → L (connSendSimple env x 503 none (ascii "server busy\n") true).c)
    (gone : ∀ x : Ctx σ, x.c.closing = true → x.c.finalized = false → x.c.writes = [] → L x.c →
      L (connFinalize { x with c := { x.c with closeCbDone := true } }).c)
    (reload : ∀ x : Ctx σ, Linked x.c → L x.c → L (reloadConn env x).c)
    (handler : ∀ (x : Ctx σ) k calls, L x.c → L (x.withReq k (handlerRun calls)).c)
    (drain : ∀ (x : Ctx σ) k, Linked x.c → L x.c → L (drainReq env x k).c) :
    ConnRules env (fun s a => ∀ p ∈ completed env s a, P p.1 p.2) fun _ c => L c where
  fresh := fresh
  accept i now := by
    let x : Ctx σ := ⟨srvStart env, i, freshConn env i now⟩
    have opened : R x { x with c := readStart x.c } := rules.buffer x _ _ _
    exact keeps _ _ (rules.whole _ _ opened) (fresh i now)
  busy x now hx := by
    have linked : Linked x.c := hx ▸ freshConn_linked env x.id now
    exact busy x linked (hx ▸ fresh x.id now)
  read s i data room x ok _ hl h _ hx _ _ := keeps _ _ (rules.onRead hl hx ok) h
  readEnd _ x hl h _ := keeps _ _ (rules.readEnd hl) h
  written s i b w rest ok _ hl h hw := by
    refine keeps _ _ (rules.onWrite b hl hw ok) ?_
    have gone : L (popWrite (s.conns i)) := pop _ h
    cases w.kind with
    | response k =>
      unfold reported
      dsimp only
      split
      · exact gone
      · exact gone
    | simple => exact gone
    | sse => exact gone
  closed s i _ hl h hq hd hw := by
    rw [connOnStreamClosed_eq (x := s.enter i) hl hq hd hw]
    have closing : (s.conns i).closing = true := by rw [← hl.queued, hq]
    have finalized : (s.conns i).finalized = false := by rw [← hl.closeCb, hd]
    exact gone (s.enter i) closing finalized hw h
  deadline _ x hl h := keeps _ _ (rules.deadline hl) h
  shutdown _ x hl h := keeps _ _ (rules.shutdown hl) h
  reload _ x hl h := reload x hl h
  handler _ x k calls _ h := handler x k calls h
  finish := .inr fun _ _ _ _ h => h
  drain _ ref x hl h := drain x ref.req hl h

end Rules

end Cerco.Callbacks
