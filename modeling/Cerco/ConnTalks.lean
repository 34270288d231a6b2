import Cerco.DraftCallbacks
import Cerco.SentReplies

set_option autoImplicit false

/-!
# Connections as talks

The bytes that a connection gives to the parser are a talk: text after text, each with a ruling.
As long as the parser runs only where the last request is done with, every run of the server
dispatches and rejects on a connection what the talk of its bytes says.
-/
namespace Cerco.ConnTalks
open Cerco.Alloc Cerco.CString Cerco.Request Cerco.Response Cerco.Connection Cerco.Dispatch Cerco.HttpCallbacks
open Cerco.Server Cerco.WorkerPool Cerco.TransitionRuns Cerco.ConnFrames Cerco.ServerRules Cerco.Responders
open Cerco.SpanParser Cerco.SpanConsumers Cerco.ArenaUse Cerco.CloseFlags Cerco.Books Cerco.Callbacks
open Cerco.SentReplies Cerco.RequestDrafts Cerco.DraftCallbacks

variable {σ : Type}

def rulingOf : ConnEvent → Option Ruling
  | .dispatched _ r => some (dispatchedReq r)
  | .rejected code => some (.rejected code)
  | .wrote _ => none

/-- What came of the requests of a connection, in order. -/
def rulings (trace : List ConnEvent) : List Ruling := trace.filterMap rulingOf

/-- What `llhttp_execute` was given. -/
def given (c : Conn σ) : List Bytes := c.buf.execs.map Prod.fst

def talkOf (env : Env σ) (c : Conn σ) : Talk σ UInt8 Draft Ruling :=
  talk (Draft.on env.cfg.maxBody) env.llhttp blank (given c)

def spoiled (c : Conn σ) : Bool :=
  match c.req with
  | some k => c.trace.any fun
    | .dispatched j _ => j == k
    | _ => false
  | none => !c.stage.fSb.isEmpty || !c.stage.vSb.isEmpty

/-- The parser is not paused and the last request left nothing; no header name goes on behind the buffer
and no request begins in it behind another one. -/
structure Plain (env : Env σ) (x : Ctx σ) : Prop where
  running : x.c.parser.error = .ok
  clean : spoiled x.c = false
  whole : wholeIn x.c.buf.mem.length (env.llhttp.buffer x.c.parser.state x.c.buf.mem).1 = true
  ends : EndsJoined env.llhttp joins x.c.parser.state x.c.buf.mem

/-- Wherever a step parses, it parses plainly. -/
def plainStep (env : Env σ) (s : Srv σ) (a : Step) : Prop := roomForDone s a ∧ ∀ x ∈ parsing env s a, Plain env x

instance (M : Llhttp σ) (st : σ) (bs : Bytes) : Decidable (EndsJoined M joins st bs) :=
  decidable_of_iff ((M.feed st (reopened M st) 0 bs).going = true →
      ∀ p ∈ (M.feed st (reopened M st) 0 bs).held, joins p.1 p.2)
    ⟨fun h going k d held => h going (k, d) held, fun h going p held => h going p.1 p.2 held⟩

instance (env : Env σ) (x : Ctx σ) : Decidable (Plain env x) :=
  decidable_of_iff (x.c.parser.error = .ok ∧ spoiled x.c = false ∧
      wholeIn x.c.buf.mem.length (env.llhttp.buffer x.c.parser.state x.c.buf.mem).1 = true ∧
      EndsJoined env.llhttp joins x.c.parser.state x.c.buf.mem)
    ⟨fun ⟨h₁, h₂, h₃, h₄⟩ => ⟨h₁, h₂, h₃, h₄⟩, fun ⟨h₁, h₂, h₃, h₄⟩ => ⟨h₁, h₂, h₃, h₄⟩⟩

instance (env : Env σ) (s : Srv σ) (a : Step) : Decidable (plainStep env s a) := inferInstanceAs (Decidable (_ ∧ _))

/-- The writes in the queue that are answers. -/
def pending (c : Conn σ) : ℕ := c.writes.countP fun w => decide (w.kind ≠ .sse)

def Clear (c : Conn σ) : Prop := dispatches c.trace ≤ answers (sent c.trace)

structure Owing (c : Conn σ) : Prop where
  unsent : c.statusSent = false
  phase : c.phase ≠ .drain
  owing : dispatches c.trace ≤ answers (sent c.trace) + 1
  quiet : pending c = 0

structure Responding (c : Conn σ) : Prop where
  unsent : c.statusSent = false
  phase : c.phase ≠ .drain
  clear : Clear c
  one : pending c = 1
  kind : ∀ w ∈ c.writes, w.kind ≠ .simple

structure Answered (c : Conn σ) : Prop where
  sent : c.statusSent = true
  clear : Clear c
  one : pending c = 1

structure Holds (env : Env σ) (c : Conn σ) : Prop where
  state : (talkOf env c).state = c.parser.state
  drafted : Drafted (talkOf env c).taken c
  fed : (given c).flatten = c.buf.rx
  framed : ∀ p ∈ (talkOf env c).answered, Framed env.llhttp p.1.flatten

structure Rested (env : Env σ) (c : Conn σ) : Prop where
  talk : ((talkOf env c).state, (talkOf env c).taken) = (env.llhttp.start, blank)
  state : c.parser.state = env.llhttp.start
  url : c.stage.urlSb = []
  buf : c.buf.consumed = c.buf.filled
  fed : (given c).flatten = c.buf.rx
  framed : ∀ p ∈ (talkOf env c).answered, Framed env.llhttp p.1.flatten

inductive Stands (env : Env σ) (c : Conn σ) : Prop
  | reading (owing : Owing c) (clear : Clear c) (running : c.parser.error = .ok)
      (taken : c.buf.consumed = c.buf.filled) (holds : spoiled c = false → Holds env c)
  | working (owing : Owing c) (paused : c.parser.error = .paused) (rests : closeFlag c = false → Rested env c)
  | responding (answer : Responding c) (paused : c.parser.error = .paused)
      (rests : closeFlag c = false → Rested env c)
  | answered (answer : Answered c) (spoils : closeFlag c = false → c.parser.error = .paused ∧ spoiled c = true ∧
      ∀ w ∈ c.writes, ∀ k, w.kind ≠ .response k)
  | draining (phase : c.phase = .drain) (clear : Clear c) (quiet : pending c = 0)

structure Told (env : Env σ) (c : Conn σ) : Prop where
  ruled : rulings c.trace = (talkOf env c).answered.map Prod.snd
  sound : Sound (Draft.on env.cfg.maxBody) env.llhttp joins blank (talkOf env c)
  fed : (given c).flatten <+: c.buf.rx
  framed : ∀ p ∈ (talkOf env c).answered.dropLast, Framed env.llhttp p.1.flatten
  stands : c.closing = false → Stands env c

def input (r : Req) : List (Bytes × Bytes) × Option Bytes × Option Bytes := (r.headers, r.body, r.path)

/-- Only writes of the live-reload stream, answers in request objects and flags that close have changed. -/
structure Unheard (c d : Conn σ) : Prop where
  same : (d.statusSent, d.buf, d.stage, d.req, d.parser, d.closing) =
    (c.statusSent, c.buf, c.stage, c.req, c.parser, c.closing)
  phase : d.phase = c.phase
  ruled : (rulings d.trace, spoiled d) = (rulings c.trace, spoiled c)
  debt : (dispatches d.trace, answers (sent d.trace)) = (dispatches c.trace, answers (sent c.trace))
  pending : pending d = pending c
  writes : ∀ w ∈ d.writes, w ∈ c.writes ∨ w.kind = .sse
  flag : closeFlag d = false → closeFlag c = false
  objs : ∀ k, input (d.objs k) = input (c.objs k)

section Frames
variable {env : Env σ} {c d e : Conn σ} {x y : Ctx σ} {k : ℕ}

theorem Unheard.refl (c : Conn σ) : Unheard c c := ⟨rfl, rfl, rfl, rfl, rfl, fun _ => .inl, id, fun _ => rfl⟩

theorem Unheard.trans (h₁ : Unheard c d) (h₂ : Unheard d e) : Unheard c e where
  same := h₂.same.trans h₁.same
  phase := h₂.phase.trans h₁.phase
  ruled := h₂.ruled.trans h₁.ruled
  debt := h₂.debt.trans h₁.debt
  pending := h₂.pending.trans h₁.pending
  writes w hw := (h₂.writes w hw).elim (h₁.writes w) .inr
  flag := h₁.flag ∘ h₂.flag
  objs k := (h₂.objs k).trans (h₁.objs k)

theorem spoiled_congr (req : (d.req, d.stage.fSb, d.stage.vSb) = (c.req, c.stage.fSb, c.stage.vSb))
    (trace : d.trace = c.trace) : spoiled d = spoiled c := by
  simp only [Prod.mk.injEq] at req
  obtain ⟨req, name, value⟩ := req
  rw [spoiled, spoiled, req, name, value, trace]

theorem Unheard.of_eq (same : (d.statusSent, d.buf, d.stage, d.req, d.parser, d.closing) =
      (c.statusSent, c.buf, c.stage, c.req, c.parser, c.closing))
    (written : (d.phase, d.trace, d.writes) = (c.phase, c.trace, c.writes))
    (flag : closeFlag d = false → closeFlag c = false)
    (objs : ∀ k, input (d.objs k) = input (c.objs k)) : Unheard c d := by
  have parts := same
  simp only [Prod.mk.injEq] at written parts
  obtain ⟨phase, trace, writes⟩ := written
  have spoils : spoiled d = spoiled c := spoiled_congr (by rw [parts.2.2.1, parts.2.2.2.1]) trace
  refine ⟨same, phase, by rw [trace, spoils], by rw [trace], ?_, fun w hw => .inl (writes ▸ hw), flag, objs⟩
  unfold ConnTalks.pending
  rw [writes]

theorem Clear.of_unheard (h : Unheard c d) (clear : Clear c) : Clear d := by
  obtain ⟨dispatched, answered⟩ := Prod.mk.inj h.debt
  unfold Clear
  rw [dispatched, answered]
  exact clear

theorem Owing.of_unheard (h : Unheard c d) (owing : Owing c) : Owing d := by
  have same := h.same
  simp only [Prod.mk.injEq] at same
  obtain ⟨dispatched, answered⟩ := Prod.mk.inj h.debt
  exact ⟨same.1.trans owing.unsent, h.phase ▸ owing.phase, by rw [dispatched, answered]; exact owing.owing,
    h.pending.trans owing.quiet⟩

theorem talkOf_congr (buf : d.buf.execs = c.buf.execs) : talkOf env d = talkOf env c := by
  rw [talkOf, given, buf, ← given, ← talkOf]

theorem Rested.of_unheard (h : Unheard c d) (rested : Rested env c) : Rested env d := by
  have same := h.same
  simp only [Prod.mk.injEq] at same
  obtain ⟨_, buf, stage, _, parser, _⟩ := same
  have talk : talkOf env d = talkOf env c := talkOf_congr (by rw [buf])
  exact ⟨talk ▸ rested.talk, parser ▸ rested.state, stage ▸ rested.url, buf ▸ rested.buf,
    by rw [given, buf]; exact rested.fed, talk ▸ rested.framed⟩

theorem Holds.of_unheard (h : Unheard c d) (holds : Holds env c) : Holds env d := by
  have same := h.same
  simp only [Prod.mk.injEq] at same
  obtain ⟨_, buf, stage, req, parser, _⟩ := same
  have talk : talkOf env d = talkOf env c := talkOf_congr (by rw [buf])
  refine ⟨talk ▸ parser ▸ holds.state, ?_, by rw [given, buf]; exact holds.fed, talk ▸ holds.framed⟩
  rw [talk]
  have drafted := holds.drafted
  refine ⟨req ▸ drafted.opened, parser ▸ drafted.method, stage ▸ drafted.stage, fun k hk => ?_⟩
  have objs := h.objs k
  simp only [input, Prod.mk.injEq] at objs
  rw [objs.1, objs.2.1, objs.2.2]
  exact drafted.obj k (req ▸ hk)

theorem Stands.of_unheard (h : Unheard c d) (stands : Stands env c) : Stands env d := by
  have same := h.same
  simp only [Prod.mk.injEq] at same
  obtain ⟨sent, buf, stage, req, parser, _⟩ := same
  obtain ⟨_, spoils⟩ := Prod.mk.inj h.ruled
  cases stands with
  | reading owing clear running taken holds =>
    refine .reading (owing.of_unheard h) (clear.of_unheard h) (parser ▸ running) (buf ▸ taken) fun fresh => ?_
    exact (holds (spoils ▸ fresh)).of_unheard h
  | working owing paused rests =>
    exact .working (owing.of_unheard h) (parser ▸ paused) fun goes => (rests (h.flag goes)).of_unheard h
  | responding answer paused rests =>
    refine .responding ⟨sent.trans answer.unsent, h.phase ▸ answer.phase, answer.clear.of_unheard h,
      h.pending.trans answer.one, fun w hw => ?_⟩ (parser ▸ paused) fun goes => (rests (h.flag goes)).of_unheard h
    obtain old | stream := h.writes w hw
    · exact answer.kind w old
    · rw [stream]
      decide
  | answered answer spoils' =>
    refine .answered ⟨sent.trans answer.sent, answer.clear.of_unheard h, h.pending.trans answer.one⟩ fun goes => ?_
    obtain ⟨paused, spoilt, kind⟩ := spoils' (h.flag goes)
    refine ⟨parser ▸ paused, spoils.trans spoilt, fun w hw k => ?_⟩
    obtain old | stream := h.writes w hw
    · exact kind w old k
    · rw [stream]
      exact WriteKind.noConfusion
  | draining phase clear quiet =>
    exact .draining (h.phase.trans phase) (clear.of_unheard h) (h.pending.trans quiet)

theorem Told.of_stands (told : Told env c) (heard : (rulings d.trace, d.buf.execs) = (rulings c.trace, c.buf.execs))
    (rx : c.buf.rx <+: d.buf.rx) (stands : d.closing = false → Stands env d) : Told env d := by
  obtain ⟨ruled, execs⟩ := Prod.mk.inj heard
  have talk : talkOf env d = talkOf env c := talkOf_congr execs
  refine ⟨by rw [ruled, talk, told.ruled], talk ▸ told.sound, ?_, talk ▸ told.framed, stands⟩
  rw [given, execs]
  exact told.fed.trans rx

theorem Told.of_unheard (told : Told env c) (h : Unheard c d) : Told env d := by
  have same := h.same
  simp only [Prod.mk.injEq] at same
  obtain ⟨_, buf, _, _, _, closing⟩ := same
  refine told.of_stands ?_ (buf ▸ List.prefix_rfl) fun open_ => (told.stands (closing ▸ open_)).of_unheard h
  rw [(Prod.mk.inj h.ruled).1, buf]

theorem Told.of_closing (told : Told env c) (heard : (rulings d.trace, d.buf.execs) = (rulings c.trace, c.buf.execs))
    (rx : c.buf.rx <+: d.buf.rx) (closing : d.closing = true) : Told env d :=
  told.of_stands heard rx fun open_ => absurd (closing.symm.trans open_) Bool.true_eq_false.mp

theorem rulings_append (a b : List ConnEvent) : rulings (a ++ b) = rulings a ++ rulings b := List.filterMap_append

theorem uvWrite_takes (hl : Linked x.c) (res : WriteRes) (w : WriteCtx) :
    (uvWrite x res w).c = { x.c with
      pendingWrites := x.c.pendingWrites + 1, writes := x.c.writes ++ [w], trace := x.c.trace ++ [.wrote w] } ∨
    (uvWrite x res w).c.closing = true := by
  unfold uvWrite
  split
  · exact .inl rfl
  · exact .inr (connCloseAndFree_closes hl)

theorem pending_snoc (ws : List WriteCtx) (w : WriteCtx) (trace : List ConnEvent) (n : ℕ) :
    pending { c with pendingWrites := n, writes := ws ++ [w], trace := trace } =
      ws.countP (fun w => decide (w.kind ≠ .sse)) + if w.kind = .sse then 0 else 1 := by
  unfold pending
  rw [List.countP_append, List.countP_singleton]
  by_cases stream : w.kind = .sse
  · rw [if_pos stream, decide_eq_false (not_not.mpr stream)]
    rfl
  · rw [if_neg stream, decide_eq_true stream]
    rfl

theorem connCloseAndFree_heard (x : Ctx σ) : rulings (connCloseAndFree x).c.trace = rulings x.c.trace := by
  rw [connCloseAndFree_trace]

theorem uvWrite_heard (x : Ctx σ) (res : WriteRes) (w : WriteCtx) :
    rulings (uvWrite x res w).c.trace = rulings x.c.trace := by
  obtain ⟨new, rfl | rfl, trace⟩ := uvWrite_trace x res w
  · rw [trace, List.append_nil]
  · rw [trace, rulings_append]
    exact List.append_nil _

def Streamed (c d : Conn σ) : Prop := rulings d.trace = rulings c.trace ∧ (Unheard c d ∨ d.closing = true)

theorem uvWrite_streamed (hl : Linked x.c) (res : WriteRes) (out : Out) :
    Streamed x.c (uvWrite x res ⟨.sse, out⟩).c := by
  refine ⟨uvWrite_heard _ _ _, (uvWrite_takes hl res ⟨.sse, out⟩).imp_left fun e => ?_⟩
  rw [e]
  refine ⟨rfl, rfl, ?_, ?_, ?_, fun w hw => ?_, id, fun _ => rfl⟩
  · refine Prod.ext ?_ ?_
    · dsimp only
      rw [rulings_append]
      exact List.append_nil _
    · unfold spoiled
      cases x.c.req with
      | none => rfl
      | some k =>
        dsimp only
        rw [List.any_append]
        exact Bool.or_false _
  · dsimp only
    rw [dispatches_append, sent, sentFrom_append, answers_append]
    rfl
  · exact pending_snoc _ _ _ _
  · refine (List.mem_append.mp hw).imp_right fun new => ?_
    rw [List.mem_singleton.mp new]

theorem connSseWrite_streamed (hl : Linked x.c) (env : Env σ) (data : Bytes) :
    Streamed x.c (connSseWrite env x data).c := by
  unfold connSseWrite
  dsimp only
  split
  · exact ⟨connCloseAndFree_heard _, .inr (connCloseAndFree_closes (x := countWrite x) hl)⟩
  · exact uvWrite_streamed (x := countWrite x) hl _ _

theorem sendLiveSse_streamed (hl : Linked x.c) (env : Env σ) : Streamed x.c (sendLiveSse env x).c := by
  have headed := uvWrite_streamed (x := countWrite x) hl (writeRes env x) (.reply liveHead)
  have linked := (uvWrite_kept (x := countWrite x) hl (writeRes env x) ⟨.sse, .reply liveHead⟩).linked
  unfold sendLiveSse
  dsimp only
  split
  · exact ⟨connCloseAndFree_heard _, .inr (connCloseAndFree_closes (x := countWrite x) hl)⟩
  · split
    · have linked := (sseLink_kept linked).linked
      have first := connSseWrite_streamed linked env (ascii ":ok\n\n")
      refine ⟨first.1.trans headed.1, ?_⟩
      obtain heard | closing := headed.2
      · have joined : Unheard x.c (sseLink (uvWrite (countWrite x) (writeRes env x) ⟨.sse, .reply liveHead⟩)).c :=
          heard.trans (.of_eq rfl rfl id fun _ => rfl)
        exact first.2.imp_left joined.trans
      · exact .inr ((connSseWrite_kept linked env _).closing closing)
    · exact headed

/-- The connection after a write that is neither the response nor a simple answer was reported. -/
theorem popped_unheard {w : WriteCtx} {rest : List WriteCtx} (hw : c.writes = w :: rest) (stream : w.kind = .sse) :
    Unheard c (popWrite c) := by
  refine ⟨rfl, rfl, rfl, rfl, ?_, fun w hw => .inl (List.mem_of_mem_tail hw), id, fun _ => rfl⟩
  unfold pending popWrite
  rw [hw, List.tail_cons, List.countP_cons_of_neg (by rw [stream]; decide)]

theorem popped_quiet {w : WriteCtx} {rest : List WriteCtx} (hw : c.writes = w :: rest) (answer : w.kind ≠ .sse) :
    pending c = pending (popWrite c) + 1 := by
  unfold pending popWrite
  rw [hw, List.tail_cons, List.countP_cons, if_pos (decide_eq_true answer)]

theorem cancelReq_unheard (c : Conn σ) : Unheard c { cancelReq c with forceClose := true } := by
  unfold cancelReq
  split
  · rename_i k _
    refine .of_eq rfl rfl (fun goes => ?_) fun j => ?_
    · rw [closeFlag] at goes
      cases goes
    · dsimp only
      rw [Function.update_apply]
      split
      · rename_i same
        rw [same]
        rfl
      · rfl
  · refine .of_eq rfl rfl (fun goes => ?_) fun _ => rfl
    rw [closeFlag] at goes
    cases goes

/-- What a request that was answered leaves: its connection closes, still owes the answer, or has it in the queue. -/
def Replied (c d : Conn σ) : Prop :=
  rulings d.trace = rulings c.trace ∧ (d.closing = true ∨
    (Owing d ∧ (closeFlag d = false → closeFlag c = false)) ∨
    (Responding d ∧ (closeFlag d = false → closeFlag c = false)) ∨
    (Answered d ∧ spoiled d = spoiled c ∧ ∀ w ∈ d.writes, ∀ k, w.kind ≠ .response k))

theorem Owing.of_eq (owing : Owing c) (same : (d.statusSent, d.phase, d.trace, d.writes) =
    (c.statusSent, c.phase, c.trace, c.writes)) : Owing d := by
  simp only [Prod.mk.injEq] at same
  obtain ⟨sent, phase, trace, writes⟩ := same
  refine ⟨sent ▸ owing.unsent, phase ▸ owing.phase, trace ▸ owing.owing, ?_⟩
  have quiet := owing.quiet
  unfold pending at *
  rwa [writes]

theorem streams_of_quiet (quiet : pending c = 0) {w : WriteCtx} (hw : w ∈ c.writes) : w.kind = .sse := by
  by_contra answer
  exact Nat.lt_irrefl 0 (quiet ▸ List.countP_pos_iff.mpr ⟨w, hw, decide_eq_true answer⟩)

theorem connStartResponse_responding (hl : Linked x.c) (env : Env σ) (k : ℕ) (owing : Owing x.c) :
    rulings (connStartResponse env x k).c.trace = rulings x.c.trace ∧
      ((connStartResponse env x k).c.closing = true ∨ Responding (connStartResponse env x k).c ∧
        closeFlag (connStartResponse env x k).c = closeFlag x.c) := by
  obtain ⟨srv, st, res, w, rfl, e⟩ := connStartResponse_cases env x k
  rw [e]
  refine ⟨uvWrite_heard _ _ _, ?_⟩
  have linked : Linked { x.c with
      phase := .write, deadline := x.srv.now + env.cfg.requestTimeoutMs } :=
    ⟨hl.queued, hl.closeCb, hl.finalized, hl.reading, hl.writes, by simp⟩
  obtain took | closing := uvWrite_takes (x := { x with
      srv := { x.srv with stats := st, writeCalls := x.srv.writeCalls + 1 }
      c := { x.c with phase := .write, deadline := x.srv.now + env.cfg.requestTimeoutMs } }) linked res
      ⟨.response k, .reply w⟩
  · rw [took]
    refine .inr ⟨⟨owing.unsent, by simp, ?_, ?_, fun w hw => ?_⟩, rfl⟩
    · have := owing.owing
      unfold Clear sent at *
      dsimp only
      rw [dispatches_append, sentFrom_append, answers_append]
      exact this
    · rw [pending_snoc]
      have := owing.quiet
      unfold pending at this
      rw [this]
      rfl
    · obtain old | new := List.mem_append.mp hw
      · rw [streams_of_quiet owing.quiet old]
        decide
      · rw [List.mem_singleton.mp new]
        exact WriteKind.noConfusion
  · exact .inl closing

theorem connSendSimple_refuses (hl : Linked x.c) (env : Env σ) (code : ℕ) (hdr : Option Bytes) (body : Bytes)
    (clear : Clear x.c) (quiet : pending x.c = 0) :
    rulings (connSendSimple env x code hdr body true).c.trace = rulings x.c.trace ∧
      ((connSendSimple env x code hdr body true).c.closing = true ∨
        Answered (connSendSimple env x code hdr body true).c ∧
          closeFlag (connSendSimple env x code hdr body true).c = true) := by
  obtain e | ⟨srv, st, res, rfl, e⟩ := connSendSimple_cases env x code hdr body true
  · rw [e]
    exact ⟨connCloseAndFree_heard _, .inl (connCloseAndFree_closes (x := countWrite x) hl)⟩
  · rw [e]
    refine ⟨uvWrite_heard _ _ _, ?_⟩
    have linked : Linked { x.c with keepAlive := !true, forceClose := true, statusSent := true } := hl.of_eq rfl
    obtain took | closing := uvWrite_takes (x := { x with
        srv := { x.srv with stats := st, writeCalls := x.srv.writeCalls + 1 }
        c := { x.c with keepAlive := !true, forceClose := true, statusSent := true } }) linked res
        ⟨.simple, .reply (simpleReply code hdr body true)⟩
    · rw [took]
      refine .inr ⟨⟨rfl, ?_, ?_⟩, rfl⟩
      · unfold Clear sent at *
        dsimp only
        rw [dispatches_append, sentFrom_append, answers_append]
        exact clear.trans (Nat.le_add_right _ _)
      · rw [pending_snoc]
        unfold pending at quiet
        rw [quiet]
        rfl
    · exact .inl closing

theorem connSendSimple_replied (hl : Linked x.c) (env : Env σ) (code : ℕ) (hdr : Option Bytes) (body : Bytes)
    (owing : Owing x.c) (due : dueAfter false x.c.trace = true) :
    Replied x.c (connSendSimple env x code hdr body false).c := by
  obtain e | ⟨srv, st, res, rfl, e⟩ := connSendSimple_cases env x code hdr body false
  · rw [e]
    exact ⟨connCloseAndFree_heard _, .inl (connCloseAndFree_closes (x := countWrite x) hl)⟩
  · rw [e]
    refine ⟨uvWrite_heard _ _ _, ?_⟩
    have linked : Linked { x.c with keepAlive := !false, forceClose := false, statusSent := true } := hl.of_eq rfl
    obtain took | closing := uvWrite_takes (x := { x with
        srv := { x.srv with stats := st, writeCalls := x.srv.writeCalls + 1 }
        c := { x.c with keepAlive := !false, forceClose := false, statusSent := true } }) linked res
        ⟨.simple, .reply (simpleReply code hdr body false)⟩
    · refine .inr (.inr (.inr ?_))
      rw [took]
      refine ⟨?_, ?_, fun w hw k => ?_⟩
      · refine ⟨rfl, ?_, ?_⟩
        · have := owing.owing
          unfold Clear sent at *
          dsimp only
          rw [dispatches_append, sentFrom_append, answers_append, due]
          exact this
        · rw [pending_snoc]
          have := owing.quiet
          unfold pending at this
          rw [this]
          rfl
      · unfold spoiled
        dsimp only
        cases x.c.req with
        | none => rfl
        | some k =>
          dsimp only
          rw [List.any_append]
          exact Bool.or_false _
      · obtain old | new := List.mem_append.mp hw
        · rw [streams_of_quiet owing.quiet old]
          exact WriteKind.noConfusion
        · rw [List.mem_singleton.mp new]
          exact WriteKind.noConfusion
    · exact .inl closing

theorem answer_replied (h : Answer env k x y) (hl : Linked x.c) (owing : Owing x.c)
    (due : dueAfter false x.c.trace = true) : Replied x.c y.c := by
  cases h with
  | job prep room =>
    obtain ⟨a, o, st, _, rfl⟩ := prep
    exact ⟨rfl, .inr (.inl ⟨owing.of_eq rfl, id⟩)⟩
  | response prep =>
    have linked := (prepared_kept prep hl).linked
    obtain ⟨a, o, st, _, rfl⟩ := prep
    obtain ⟨ruled, closing | ⟨answer, flag⟩⟩ := connStartResponse_responding (x := { x with
      srv := { x.srv with stats := st }, c := { x.c with arena := a, objs := o } }) linked env k (owing.of_eq rfl)
    · exact ⟨ruled, .inl closing⟩
    · exact ⟨ruled, .inr (.inr (.inl ⟨answer, fun goes => flag ▸ goes⟩))⟩
  | simple code hdr body prep =>
    have linked := (prepared_kept prep hl).linked
    obtain ⟨a, o, st, _, rfl⟩ := prep
    exact connSendSimple_replied (x := { x with
      srv := { x.srv with stats := st }, c := { x.c with arena := a, objs := o } }) linked env code hdr body
      (owing.of_eq rfl) due
  | stream prep =>
    have linked := (prepared_kept prep hl).linked
    obtain ⟨a, o, st, _, rfl⟩ := prep
    obtain ⟨ruled, heard | closing⟩ := sendLiveSse_streamed (x := { x with
      srv := { x.srv with stats := st }, c := { x.c with arena := a, objs := o } }) linked env
    · have owing : Owing { x.c with arena := a, objs := o } := owing.of_eq rfl
      exact ⟨ruled, .inr (.inl ⟨owing.of_unheard heard, heard.flag⟩)⟩
    · exact ⟨ruled, .inl closing⟩

theorem Replied.of_eq (h : Replied c d) (same : (e.statusSent, e.phase, e.trace, e.writes, e.closing) =
      (d.statusSent, d.phase, d.trace, d.writes, d.closing))
    (rest : (e.req, e.stage.fSb, e.stage.vSb) = (d.req, d.stage.fSb, d.stage.vSb))
    (flag : closeFlag e = closeFlag d) : Replied c e := by
  simp only [Prod.mk.injEq] at same
  obtain ⟨sent, phase, trace, writes, closing⟩ := same
  have spoils : spoiled e = spoiled d := spoiled_congr rest trace
  have count : pending e = pending d := by
    unfold pending
    rw [writes]
  have clear (h : Clear d) : Clear e := by
    unfold Clear
    rw [trace]
    exact h
  rw [Replied, trace, closing, spoils, writes, flag]
  refine ⟨h.1, h.2.imp_right (.imp (.imp_left fun owing => ?_) (.imp (.imp_left fun answer => ?_)
    (.imp_left fun answer => ?_)))⟩
  · exact ⟨sent ▸ owing.unsent, phase ▸ owing.phase, trace ▸ owing.owing, count.trans owing.quiet⟩
  · exact ⟨sent ▸ answer.unsent, phase ▸ answer.phase, clear answer.clear, count.trans answer.one, writes ▸ answer.kind⟩
  · exact ⟨sent ▸ answer.sent, clear answer.clear, count.trans answer.one⟩

end Frames

theorem wholeIn_place {n q : ℕ} {es : List (ℕ × HttpEvent)} {keepAlive : Bool} (whole : wholeIn n es = true)
    (done : (q, .mark (.messageComplete keepAlive)) ∈ es) : q = n := by
  induction es with
  | nil => cases done
  | cons ev es ih =>
    obtain ⟨p, ev⟩ := ev
    rw [wholeIn, Bool.and_eq_true] at whole
    obtain here | later := List.mem_cons.mp done
    · cases here
      have last := whole.1
      rw [DraftCallbacks.completes, Bool.not_true, Bool.false_or, Bool.and_eq_true] at last
      exact beq_iff_eq.mp last.2
    · exact ih whole.2 later

theorem dueAfter_dispatched (due : Bool) (trace : List ConnEvent) (k : ℕ) (r : Req) :
    dueAfter due (trace ++ [.dispatched k r]) = true := by
  induction trace generalizing due with
  | nil => rfl
  | cons ev trace ih => cases ev <;> exact ih _

/-- The connection before a plain parse: the talk so far is what it holds, and the bytes in the buffer come next. -/
structure Ready (env : Env σ) (x : Ctx σ) : Prop where
  linked : Linked x.c
  plain : Plain env x
  owing : Owing x.c
  clear : Clear x.c
  ruled : rulings x.c.trace = (talkOf env x.c).answered.map Prod.snd
  sound : Sound (Draft.on env.cfg.maxBody) env.llhttp joins blank (talkOf env x.c)
  state : (talkOf env x.c).state = x.c.parser.state
  drafted : Drafted (talkOf env x.c).taken x.c
  framed : ∀ p ∈ (talkOf env x.c).answered, Framed env.llhttp p.1.flatten
  fed : x.c.buf.rx = (given x.c).flatten ++ x.c.buf.mem
  some_ : x.c.buf.mem ≠ []

section Parses
variable {env : Env σ} {c d : Conn σ} {x y : Ctx σ}

structure Gave (env : Env σ) (x : Ctx σ) (d : Conn σ) : Prop where
  talk : talkOf env d = (talkOf env x.c).add (Draft.on env.cfg.maxBody) env.llhttp blank x.c.buf.mem
  fed : (given d).flatten = d.buf.rx

theorem Ready.gave (ready : Ready env x) (heard : (d.buf.execs, d.buf.rx) =
    ((noteExec x x.c.buf.mem).c.buf.execs, (noteExec x x.c.buf.mem).c.buf.rx)) : Gave env x d := by
  obtain ⟨execs, rx⟩ := Prod.mk.inj heard
  have more : given d = given x.c ++ [x.c.buf.mem] := by
    rw [given, execs, noteExec, List.map_append]
    rfl
  refine ⟨?_, ?_⟩
  · rw [talkOf, more, talk_concat]
    rfl
  · rw [more, List.flatten_append, List.flatten_singleton, rx]
    exact ready.fed.symm

theorem Ready.after (ready : Ready env x) (gave : Gave env x d) :
    Sound (Draft.on env.cfg.maxBody) env.llhttp joins blank (talkOf env d) :=
  gave.talk ▸ ready.sound.add (ready.state ▸ ready.plain.ends)

theorem Ready.taken (ready : Ready env x) {u : Draft}
    (hu : consume (Draft.on env.cfg.maxBody) (talkOf env x.c).taken
      ((env.llhttp.buffer x.c.parser.state x.c.buf.mem).1.map Prod.snd) = .ok u)
    (drafted : Drafted u d) (gave : Gave env x d) (steady : (d.trace, d.writes, d.statusSent, d.parser.error) =
      (x.c.trace, x.c.writes, x.c.statusSent, x.c.parser.error)) (phase : d.phase ≠ .drain)
    (state : d.parser.state = (env.llhttp.buffer x.c.parser.state x.c.buf.mem).2.1)
    (consumed : d.buf.consumed = d.buf.filled) : Told env d := by
  simp only [Prod.mk.injEq] at steady
  obtain ⟨trace, writes, sent, error⟩ := steady
  have talk := gave.talk
  rw [add_ok blank (talkOf env x.c) (ready.state ▸ hu), ready.state] at talk
  have answered : (talkOf env d).answered = (talkOf env x.c).answered := by rw [talk]
  have owing : Owing d := by
    refine ⟨sent ▸ ready.owing.unsent, phase, trace ▸ ready.owing.owing, ?_⟩
    have quiet := ready.owing.quiet
    unfold pending at *
    rwa [writes]
  have clear : Clear d := by
    unfold Clear
    rw [trace]
    exact ready.clear
  refine ⟨?_, ready.after gave, gave.fed ▸ List.prefix_rfl, fun p hp => ?_, fun _ => ?_⟩
  · rw [trace, answered, ready.ruled]
  · exact ready.framed p (answered ▸ List.dropLast_subset _ hp)
  · refine .reading owing clear (error.trans ready.plain.running) consumed fun _ => ⟨?_, ?_, gave.fed, ?_⟩
    · rw [talk, state]
    · rw [talk]
      exact drafted
    · rw [answered]
      exact ready.framed

theorem Ready.verdict (ready : Ready env x) {v : Ruling}
    (hv : consume (Draft.on env.cfg.maxBody) (talkOf env x.c).taken
      ((env.llhttp.buffer x.c.parser.state x.c.buf.mem).1.map Prod.snd) = .error v)
    (gave : Gave env x d) (ruled : rulings d.trace = rulings x.c.trace ++ [v])
    (stands : d.closing = false → Stands env d) : Told env d := by
  have talk := gave.talk
  rw [add_error blank (talkOf env x.c) (ready.state ▸ hv)] at talk
  refine ⟨?_, ready.after gave, gave.fed ▸ List.prefix_rfl, fun p hp => ?_, stands⟩
  · rw [talk, ruled, ready.ruled, List.map_append]
    rfl
  · rw [talk, List.dropLast_concat] at hp
    exact ready.framed p hp

theorem Ready.dispatched (ready : Ready env x) (orderly : Orderly env.llhttp) {k : ℕ} {r : Req} {keepAlive : Bool}
    (hv : consume (Draft.on env.cfg.maxBody) (talkOf env x.c).taken
      ((env.llhttp.buffer x.c.parser.state x.c.buf.mem).1.map Prod.snd) = .error (dispatchedReq r))
    (handed : Handed (noteExec x x.c.buf.mem).c k r keepAlive y)
    (going : (env.llhttp.buffer x.c.parser.state x.c.buf.mem).2.2 = true)
    (done : (x.c.buf.mem.length, .mark (.messageComplete keepAlive)) ∈
      (env.llhttp.buffer x.c.parser.state x.c.buf.mem).1) (gave : Gave env x d) (replied : Replied y.c d)
    (rest : (d.stage.urlSb, d.buf.consumed) = ([], d.buf.filled))
    (parser : (d.parser.state, d.parser.error) =
      ((env.llhttp.buffer x.c.parser.state x.c.buf.mem).2.1, .paused)) : Told env d := by
  obtain ⟨state, paused⟩ := Prod.mk.inj parser
  obtain ⟨url, consumed⟩ := Prod.mk.inj rest
  have talk := gave.talk
  rw [add_error blank (talkOf env x.c) (ready.state ▸ hv)] at talk
  have framed : ∀ p ∈ (talkOf env d).answered, Framed env.llhttp p.1.flatten := by
    intro p hp
    rw [talk] at hp
    obtain old | new := List.mem_append.mp hp
    · exact ready.framed p old
    · rw [List.mem_singleton.mp new, List.flatten_append, List.flatten_singleton]
      rw [← ready.state] at done
      refine talk_framed ready.sound done fun q ka mem => ?_
      rw [ready.state] at mem
      exact wholeIn_place ready.plain.whole mem
  have rests (goes : closeFlag y.c = false) : Rested env d := by
    refine ⟨by rw [talk], ?_, url, consumed, gave.fed, framed⟩
    obtain ⟨_, keeps⟩ := Bool.or_eq_false_iff.mp goes
    obtain rfl : keepAlive = true := by
      rw [← handed.keepAlive]
      simpa using keeps
    obtain ⟨s, b, mark, behind⟩ := buffer_last going ready.some_ done
    rw [state, behind]
    exact orderly.restarts s b mark
  have spoilt : spoiled y.c = true := by
    rw [spoiled, handed.req]
    dsimp only
    rw [handed.trace, List.any_append]
    simp
  refine ready.verdict hv gave ?_ fun open_ => ?_
  · rw [replied.1, handed.trace, rulings_append]
    rfl
  · obtain closing | ⟨owing, flag⟩ | ⟨answer, flag⟩ | ⟨answer, spoils, kind⟩ := replied.2
    · rw [open_] at closing
      cases closing
    · exact .working owing paused fun goes => rests (flag goes)
    · exact .responding answer paused fun goes => rests (flag goes)
    · exact .answered answer fun _ => ⟨paused, spoils.trans spoilt, kind⟩

theorem Ready.rejected (ready : Ready env x) {code : ℕ} {reason : Bytes} (hl : Linked y.c)
    (hv : consume (Draft.on env.cfg.maxBody) (talkOf env x.c).taken
      ((env.llhttp.buffer x.c.parser.state x.c.buf.mem).1.map Prod.snd) = .error (.rejected code))
    (gave : Gave env x y.c) (same : (y.c.trace, y.c.writes) = (x.c.trace, x.c.writes)) :
    Told env (rejectRequest env y code reason).c := by
  obtain ⟨trace, writes⟩ := Prod.mk.inj same
  let z : Ctx σ := { y with c := { y.c with forceClose := true, trace := y.c.trace ++ [.rejected code] } }
  have linked : Linked z.c := hl.of_eq rfl
  have kept := connSendSimple_kept linked env code none reason true
  have gave : Gave env x (rejectRequest env y code reason).c := by
    have buf : (rejectRequest env y code reason).c.buf = y.c.buf := kept.buf
    refine ⟨(talkOf_congr (by rw [buf])).trans gave.talk, ?_⟩
    rw [given, buf]
    exact gave.fed
  have heard : rulings z.c.trace = rulings x.c.trace ++ [.rejected code] := by
    rw [← trace]
    exact rulings_append _ _
  have clear : Clear z.c := by
    have clear := ready.clear
    unfold Clear sent at *
    change dispatches (y.c.trace ++ [.rejected code]) ≤ answers (sentFrom false (y.c.trace ++ [.rejected code]))
    rw [trace, dispatches_append, sentFrom_append, answers_append]
    exact clear
  have quiet : pending z.c = 0 := by
    have quiet := ready.owing.quiet
    unfold pending at *
    change List.countP _ y.c.writes = 0
    rw [writes, quiet]
  obtain ⟨ruled, stands⟩ := connSendSimple_refuses linked env code none reason clear quiet
  refine ready.verdict hv gave (ruled.trans heard) fun open_ => ?_
  obtain closing | ⟨answer, closes⟩ := stands
  · exact absurd (closing.symm.trans open_) Bool.true_eq_false.mp
  · exact .answered answer fun goes => absurd (closes.symm.trans goes) Bool.true_eq_false.mp

theorem runEvents_fail {es : List (ℕ × HttpEvent)} (ran : (runEvents env es x).2 = true) {q : ℕ} {e : HttpError} :
    (q, .fail e) ∉ es := by
  induction es generalizing x with
  | nil => exact List.not_mem_nil
  | cons ev es ih =>
    obtain ⟨pos, ev⟩ := ev
    rw [runEvents_cons] at ran
    intro mem
    split at ran
    · rename_i good
      obtain here | later := List.mem_cons.mp mem
      · cases here
        exact Bool.false_ne_true good
      · exact ih ran later
    · cases ran

theorem phase_stays {p q : Phase} (h : q = p ∨ q = .headers ∨ q = .body) (open_ : p ≠ .drain) : q ≠ .drain := by
  obtain rfl | rfl | rfl := h
  · exact open_
  · decide
  · decide

theorem Ready.handed (ready : Ready env x) {k : ℕ} {r : Req} {keepAlive : Bool}
    (handed : Handed (noteExec x x.c.buf.mem).c k r keepAlive y) :
    Owing y.c ∧ dueAfter false y.c.trace = true := by
  have same := handed.same
  simp only [Prod.mk.injEq] at same
  obtain ⟨writes, unsent, _⟩ := same
  refine ⟨⟨unsent.trans ready.owing.unsent, phase_stays handed.phase ready.owing.phase, ?_, ?_⟩,
    by rw [handed.trace, dueAfter_dispatched]⟩
  · have clear := ready.clear
    unfold Clear sent at *
    rw [handed.trace, dispatches_append, sentFrom_append, answers_append]
    exact Nat.add_le_add_right clear 1
  · have quiet := ready.owing.quiet
    unfold pending at *
    rw [writes]
    exact quiet

theorem Ready.noted (ready : Ready env x) : Drafted (talkOf env x.c).taken (noteExec x x.c.buf.mem).c :=
  ready.drafted.of_eq rfl

def parsedOn (env : Env σ) (x y : Ctx σ) : Ctx σ :=
  { y with c := { y.c with parser := { y.c.parser with
    state := (env.llhttp.buffer x.c.parser.state x.c.buf.mem).2.1 } } }

def judged (env : Env σ) (x : Ctx σ) : Except Ruling Draft :=
  consume (Draft.on env.cfg.maxBody) (talkOf env x.c).taken
    ((env.llhttp.buffer x.c.parser.state x.c.buf.mem).1.map Prod.snd)

inductive Reads (env : Env σ) (x : Ctx σ) : Ctx σ → Prop
  | taken {u : Draft} (y : Ctx σ) (hu : judged env x = .ok u) (drafted : Drafted u y.c)
      (steady : Steady (noteExec x x.c.buf.mem).c y.c) :
      Reads env x (setConsumed (parsedOn env x y) x.c.buf.mem y.c.buf.filled)
  | dispatched {r : Req} {keepAlive : Bool} (k : ℕ) (z : Ctx σ) (hv : judged env x = .error (dispatchedReq r))
      (handed : Handed (noteExec x x.c.buf.mem).c k r keepAlive z) (place : (z.id, z.srv.pool) = (x.id, x.srv.pool))
      (going : (env.llhttp.buffer x.c.parser.state x.c.buf.mem).2.2 = true)
      (done : (x.c.buf.mem.length, .mark (.messageComplete keepAlive)) ∈
        (env.llhttp.buffer x.c.parser.state x.c.buf.mem).1) :
      Reads env x (setConsumed (parsedOn env x (paused (dispatchReq env z k))) x.c.buf.mem
        (paused (dispatchReq env z k)).c.buf.filled)
  | rejected (y : Ctx σ) (reason : Bytes) (linked : Linked (setConsumed y x.c.buf.mem (errorOffset y.c)).c)
      (hv : judged env x = .error (.rejected (answerCode y.c)))
      (same : (y.c.trace, y.c.writes, y.c.closing, y.c.finalized, y.c.buf) =
        (x.c.trace, x.c.writes, x.c.closing, x.c.finalized, (noteExec x x.c.buf.mem).c.buf)) :
      Reads env x (rejectRequest env (setConsumed y x.c.buf.mem (errorOffset y.c)) (answerCode y.c) reason)

theorem Ready.reads (ready : Ready env x) (orderly : Orderly env.llhttp)
    (served : (readFrom env x).c.arena.Served) : Reads env x (readFrom env x) := by
  have linked := (noteExec_housed ready.linked x.c.buf.mem).linked
  have turn := talk_turn orderly ready.sound x.c.buf.mem
  rw [ready.state] at turn
  have parses : (x.c.statusSent || decide (x.c.phase = .drain)) = false := by
    rw [ready.owing.unsent, decide_eq_false ready.owing.phase]
    rfl
  have concludes (served : (runEvents env (env.llhttp.buffer x.c.parser.state x.c.buf.mem).1
      (noteExec x x.c.buf.mem)).1.c.arena.Served) :=
    runEvents_concludes linked ready.noted served ready.plain.whole turn
  obtain ⟨stopped, _⟩ | ⟨_, y, hy, e⟩ | ⟨_, y, hy, e⟩ := llhttpExecute_cases env x x.c.buf.mem
  · exact absurd ready.plain.running stopped
  · have ran : readFrom env x = setConsumed (parsedOn env x y) x.c.buf.mem y.c.buf.filled := by
      unfold readFrom
      rw [parses, if_neg Bool.false_ne_true]
      dsimp only
      rw [e]
      rfl
    have going : (env.llhttp.buffer x.c.parser.state x.c.buf.mem).2.2 = true := by
      by_contra stops
      obtain ⟨q, f, mem⟩ := env.llhttp.buffer_fail _ _ (Bool.eq_false_iff.mpr stops)
      exact runEvents_fail (congrArg Prod.snd hy) mem
    rw [hy] at concludes
    rw [ran] at served ⊢
    have concludes := concludes served
    cases hv : judged env x with
    | ok u =>
      rw [show consume _ _ _ = .ok u from hv] at concludes
      exact .taken y hv concludes.2.1 concludes.2.2
    | error v =>
      rw [show consume _ _ _ = .error v from hv] at concludes
      obtain ⟨stopped, _⟩ | ⟨k, r, keepAlive, z, handed, place, same, rfl, done⟩ := concludes
      · cases stopped
      · obtain rfl : y = paused (dispatchReq env z k) := congrArg Prod.fst same
        exact .dispatched k z hv handed place going done
  · rw [hy] at concludes
    obtain ⟨err, bad, _⟩ := runEvents_false hy
    have ran : readFrom env x = rejectRequest env (setConsumed y x.c.buf.mem (errorOffset y.c)) (answerCode y.c)
        (rejectReason y.c.stage.badRequest err) := by
      unfold readFrom
      rw [parses, if_neg Bool.false_ne_true]
      dsimp only
      rw [e, bad]
      rfl
    have loose := runEvents_loose linked env (env.llhttp.buffer x.c.parser.state x.c.buf.mem).1
    rw [hy] at loose
    have consumed := setConsumed_housed loose.linked x.c.buf.mem (errorOffset y.c)
    rw [ran] at served ⊢
    have kept := rejectRequest_housed consumed.linked env (answerCode y.c) (rejectReason y.c.stage.badRequest err)
    have concludes := concludes (kept.arena.served served)
    cases hv : judged env x with
    | ok u =>
      rw [show consume _ _ _ = .ok u from hv] at concludes
      cases concludes.1
    | error v =>
      rw [show consume _ _ _ = .error v from hv] at concludes
      obtain ⟨_, rfl, same⟩ | ⟨_, _, _, _, _, _, same, _⟩ := concludes
      · exact .rejected y _ consumed.linked hv same
      · cases congrArg Prod.snd same

theorem Ready.read (ready : Ready env x) (orderly : Orderly env.llhttp)
    (served : (readFrom env x).c.arena.Served) : Told env (readFrom env x).c := by
  have reads := ready.reads orderly served
  generalize readFrom env x = out at reads ⊢
  cases reads with
  | taken y hu drafted steady =>
    have same := steady.same
    have parser := steady.parser
    simp only [Prod.mk.injEq] at same parser
    obtain ⟨trace, writes, sent, _, _, _, buf⟩ := same
    refine ready.taken hu (drafted.of_eq rfl) (ready.gave ?_) ?_ (phase_stays steady.phase ready.owing.phase) rfl rfl
    · exact congrArg (fun b => (b.execs, b.rx)) buf
    · change (y.c.trace, y.c.writes, y.c.statusSent, y.c.parser.error) = _
      rw [trace, writes, sent, parser.2.1]
      rfl
  | dispatched k z hv handed place going done =>
    obtain ⟨owing, due⟩ := ready.handed handed
    have replied := answer_replied (dispatchReq_answer env z k) handed.linked owing due
    have kept := answer_kept (dispatchReq_answer env z k) handed.linked
    have same := handed.same
    have parser := handed.parser
    simp only [Prod.mk.injEq] at same parser
    obtain ⟨_, _, _, _, buf⟩ := same
    refine ready.dispatched orderly hv handed going done (ready.gave ?_) (replied.of_eq rfl rfl rfl) ?_ ?_
    · exact congrArg (fun b => (b.execs, b.rx)) (kept.buf.trans buf)
    · refine Prod.ext ?_ rfl
      exact (congrArg Staging.urlSb kept.stage).trans handed.clean.1
    · refine Prod.ext rfl ?_
      change (llhttpPause (dispatchReq env z k).c.parser).error = .paused
      have runs : z.c.parser.error = .ok := parser.2.trans ready.plain.running
      rw [kept.parser, llhttpPause, if_neg (not_not.mpr runs)]
  | rejected y reason linked hv same =>
    simp only [Prod.mk.injEq] at same
    obtain ⟨trace, writes, _, _, buf⟩ := same
    refine ready.rejected linked hv (ready.gave ?_) ?_
    · exact congrArg (fun b => (b.execs, b.rx)) buf
    · exact Prod.ext trace writes

end Parses

end Cerco.ConnTalks
