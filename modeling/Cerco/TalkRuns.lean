import Cerco.BufferDiscipline
import Cerco.ConnTalks
import Cerco.RequestGrammar

set_option autoImplicit false

/-!
# Every run of the server is a talk on each connection

A connection tells what the talk of its bytes says, in every state that the server reaches. So what
a client's bytes are dispatched as does not depend on how they were cut, on what other clients do or on
when workers and timers run.
-/
namespace Cerco.TalkRuns
open Cerco.Alloc Cerco.CString Cerco.Request Cerco.Response Cerco.Connection Cerco.Dispatch Cerco.HttpCallbacks
open Cerco.Server Cerco.WorkerPool Cerco.TransitionRuns Cerco.ConnFrames Cerco.ServerRules Cerco.Responders
open Cerco.SpanParser Cerco.SpanConsumers Cerco.ArenaUse Cerco.CloseFlags Cerco.Callbacks Cerco.BufferDiscipline
open Cerco.SentReplies Cerco.RequestDrafts Cerco.DraftCallbacks Cerco.ConnTalks Cerco.RequestGrammar

variable {σ : Type}

theorem served_callbacks (env : Env σ) : CallbackRules env (fun _ _ => True)
    (fun x y => y.c.arena.Served → x.c.arena.Served) fun x y => y.c.arena.Served → x.c.arena.Served where
  refl _ h := h
  trans _ _ _ h₁ h₂ := h₁ ∘ h₂
  whole _ _ h := h
  ends _ _ _ h₁ h₂ := h₁ ∘ h₂
  event _ ev hl _ := (onEvent_loose hl env ev).arena.served
  buffer _ _ _ _ h := h
  receive _ _ h := h
  reject _ code reason hl _ := (rejectRequest_housed hl env code reason).arena.served
  rearm x _ _ _ h := by
    change (arenaReset x.c.arena).Served at h
    unfold arenaReset at h
    split at h <;> exact h
  restart _ _ _ _ h := h
  shed _ _ _ h := h
  cancel x _ h := by
    obtain ⟨o, ho⟩ := cancelReq_objs x.c
    rw [ho] at h
    exact h
  close _ hl := (connCloseAndFree_kept hl).arena.served
  graceful x _ _ h := by
    unfold connCloseGraceful at h
    split at h
    · exact h
    · change (if x.c.arena.chunks.isEmpty then x.c.arena else arenaReset x.c.arena).Served at h
      unfold arenaReset at h
      split at h
      · exact h
      · split at h <;> exact h

section Steps
variable {env : Env σ} {c d : Conn σ} {s : Srv σ} {x y : Ctx σ} {i : ℕ}

theorem freshConn_told (env : Env σ) (i now : ℕ) : Told env (freshConn env i now) := by
  refine ⟨rfl, silence_sound blank, List.prefix_rfl, fun p hp => absurd hp List.not_mem_nil, fun _ => ?_⟩
  refine .reading ⟨rfl, ?_, Nat.zero_le _, rfl⟩ (Nat.zero_le _) rfl rfl fun _ => ⟨rfl, ?_, rfl, fun p hp => ?_⟩
  · exact Phase.noConfusion
  · exact ⟨rfl, fun m hm => absurd hm (Option.not_mem_none m), rfl, fun k hk => absurd hk (Option.not_mem_none k)⟩
  · exact absurd hp List.not_mem_nil

theorem busy_told (env : Env σ) {now : ℕ} (hx : x.c = freshConn env x.id now) :
    Told env (connSendSimple env x 503 none (ascii "server busy\n") true).c := by
  have linked : Linked x.c := hx ▸ freshConn_linked env x.id now
  have kept := connSendSimple_kept linked env 503 none (ascii "server busy\n") true
  have fresh : Told env x.c := hx ▸ freshConn_told env x.id now
  have clear : Clear x.c := hx ▸ Nat.zero_le _
  have quiet : pending x.c = 0 := hx ▸ rfl
  obtain ⟨ruled, stands⟩ := connSendSimple_refuses linked env 503 none (ascii "server busy\n") clear quiet
  refine fresh.of_stands (by rw [ruled, kept.buf]) (kept.buf ▸ List.prefix_rfl) fun open_ => ?_
  obtain closing | ⟨answer, closes⟩ := stands
  · exact absurd (closing.symm.trans open_) Bool.true_eq_false.mp
  · exact .answered answer fun goes => absurd (closes.symm.trans goes) Bool.true_eq_false.mp

theorem close_told (told : Told env c) (hl : Linked x.c) (same : (rulings x.c.trace, x.c.buf.execs, x.c.buf.rx) =
    (rulings c.trace, c.buf.execs, c.buf.rx)) : Told env (connCloseAndFree x).c := by
  simp only [Prod.mk.injEq] at same
  obtain ⟨ruled, execs, rx⟩ := same
  have kept := connCloseAndFree_kept hl
  refine told.of_closing ?_ ?_ (connCloseAndFree_closes hl)
  · rw [connCloseAndFree_heard, kept.buf, ruled, execs]
  · exact kept.buf ▸ rx ▸ List.prefix_rfl

theorem compact_heard (b : ReadBuf) : ((compact b).execs, (compact b).rx) = (b.execs, b.rx) := by
  unfold compact
  rfl

theorem compact_taken {b : ReadBuf} (taken : b.consumed = b.filled) :
    ((compact b).mem, (compact b).filled, (compact b).consumed) = ([], 0, 0) := by
  have none_left : leftover b = 0 := by
    rw [leftover_def, taken, Nat.add_sub_cancel_left, Nat.mod_self]
  unfold compact
  rw [none_left, List.take_zero]

theorem connAllocCb_buf (env : Env σ) (x : Ctx σ) : ∃ b, (connAllocCb env x).2.c = { x.c with buf := b } ∧
    (b.execs, b.rx) = (x.c.buf.execs, x.c.buf.rx) := by
  unfold connAllocCb
  split
  · exact ⟨x.c.buf, rfl, rfl⟩
  · refine ⟨_, rfl, ?_⟩
    cases x.c.buf.base with
    | none => rfl
    | some p => exact compact_heard _

theorem received_buf {room : ℕ} (hx : connAllocCb env x = (some room, y)) (data : Bytes) :
    ∃ b, (received y data).c = { x.c with buf := b } ∧ (b.execs, b.rx) = (x.c.buf.execs, x.c.buf.rx ++ data) ∧
      (x.c.buf.consumed = x.c.buf.filled → b.mem = data) := by
  have made : ∃ b, y.c = { x.c with buf := b } ∧ (b.execs, b.rx) = (x.c.buf.execs, x.c.buf.rx) ∧
      (x.c.buf.consumed = x.c.buf.filled → b.mem = []) := by
    unfold connAllocCb at hx
    split at hx
    · cases hx
    · cases hx
      refine ⟨_, rfl, ?_⟩
      generalize x.c.buf = b
      split
      · exact ⟨rfl, fun _ => rfl⟩
      · exact ⟨compact_heard b, fun taken => (Prod.mk.inj (compact_taken taken)).1⟩
  obtain ⟨b, hb, heard, empty⟩ := made
  obtain ⟨execs, rx⟩ := Prod.mk.inj heard
  refine ⟨{ b with filled := b.filled + data.length, mem := b.mem ++ data, rx := b.rx ++ data }, ?_, ?_,
    fun taken => ?_⟩
  · unfold received
    rw [hb]
  · dsimp only
    rw [execs, rx]
  · dsimp only
    rw [empty taken, List.nil_append]

theorem readFrom_drained (drained : (x.c.statusSent || decide (x.c.phase = .drain)) = true) (hl : Linked x.c)
    (told : Told env x.c) : Told env (readFrom env x).c := by
  unfold readFrom
  rw [if_pos drained]
  split
  · exact close_told told hl rfl
  · exact told

theorem received_plain {room : ℕ} {data : Bytes} (plain : ∀ y ∈ parsing env s (.read i data), Plain env y)
    (hx : connAllocCb env (s.enter i) = (some room, x)) (unsent : (s.conns i).statusSent = false)
    (phase : (s.conns i).phase ≠ .drain) : Plain env (received x data) := by
  obtain ⟨b, hb, _⟩ := received_buf (x := s.enter i) hx data
  have sent : (received x data).c.statusSent = _ := congrArg Conn.statusSent hb
  have same : (received x data).c.phase = _ := congrArg Conn.phase hb
  have parses : x.c.statusSent = false ∧ x.c.phase ≠ .drain := ⟨sent.trans unsent, fun h => phase (same.symm.trans h)⟩
  refine plain _ ?_
  rw [parsing_read data hx, parses.1, decide_eq_false parses.2]
  exact rfl

theorem received_ready {room : ℕ} {data : Bytes} (hl : Linked (s.conns i)) (plain : Plain env (received x data))
    (told : Told env (s.conns i)) (hx : connAllocCb env (s.enter i) = (some room, x)) (some_ : data ≠ [])
    (owing : Owing (s.conns i)) (clear : Clear (s.conns i)) (consumed : (s.conns i).buf.consumed = (s.conns i).buf.filled)
    (holds : spoiled (s.conns i) = false → Holds env (s.conns i)) : Ready env (received x data) := by
  have made := received_buf (x := s.enter i) hx data
  change ∃ b, _ = { s.conns i with buf := b } ∧ _ = ((s.conns i).buf.execs, (s.conns i).buf.rx ++ data) ∧
    ((s.conns i).buf.consumed = (s.conns i).buf.filled → _) at made
  obtain ⟨b, hb, heard, taken⟩ := made
  obtain ⟨execs, rx⟩ := Prod.mk.inj heard
  have buffered := (connAllocCb_housed (x := s.enter i) hl env).linked
  rw [hx] at buffered
  have linked := (received_housed buffered data).linked
  have mem := taken consumed
  have holds := holds (by
    have clean := plain.clean
    rw [hb] at clean
    exact clean)
  have talk : talkOf env (received x data).c = talkOf env (s.conns i) := talkOf_congr (by rw [hb]; exact execs)
  refine ⟨linked, plain, ?_, ?_, ?_, ?_, ?_, ?_, ?_, ?_, ?_⟩
  · rw [hb]
    exact owing.of_eq rfl
  · rw [hb]
    exact clear
  · rw [talk, hb]
    exact told.ruled
  · exact talk ▸ told.sound
  · rw [talk, hb]
    exact holds.state
  · rw [talk, hb]
    exact holds.drafted.of_eq rfl
  · exact talk ▸ holds.framed
  · rw [hb, given]
    change b.rx = (b.execs.map Prod.fst).flatten ++ b.mem
    rw [rx, execs, mem, ← holds.fed]
    rfl
  · rw [hb]
    exact mem ▸ some_

theorem read_told {room : ℕ} {data : Bytes} (orderly : Orderly env.llhttp) (hl : Linked (s.conns i))
    (plain : ∀ y ∈ parsing env s (.read i data), Plain env y) (told : Told env (s.conns i))
    (reading : (s.conns i).reading = true) (hx : connAllocCb env (s.enter i) = (some room, x)) (some_ : data ≠ [])
    (served : (connOnRead env x data).c.arena.Served) : Told env (connOnRead env x data).c := by
  have made := received_buf (x := s.enter i) hx data
  change ∃ b, _ = { s.conns i with buf := b } ∧ _ = ((s.conns i).buf.execs, (s.conns i).buf.rx ++ data) ∧
    ((s.conns i).buf.consumed = (s.conns i).buf.filled → _) at made
  obtain ⟨b, hb, heard, _⟩ := made
  obtain ⟨execs, rx⟩ := Prod.mk.inj heard
  have buffered := (connAllocCb_housed (x := s.enter i) hl env).linked
  rw [hx] at buffered
  have linked := (received_housed buffered data).linked
  have running (unsent : (s.conns i).statusSent = false) (phase : (s.conns i).phase ≠ .drain) :
      (s.conns i).parser.error = .ok := by
    have runs := (received_plain plain hx unsent phase).running
    rw [hb] at runs
    exact runs
  have kept (stands : Stands env { s.conns i with buf := b }) : Told env (received x data).c := by
    rw [hb]
    exact told.of_stands (Prod.ext rfl execs) (rx ▸ List.prefix_append _ _) fun _ => stands
  unfold connOnRead at served ⊢
  have drained (over_ : (s.conns i).statusSent = true ∨ (s.conns i).phase = .drain) :
      ((received x data).c.statusSent || decide ((received x data).c.phase = .drain)) = true := by
    rw [hb, Bool.or_eq_true, decide_eq_true_eq]
    exact over_
  cases told.stands (hl.reading reading) with
  | reading owing clear running consumed holds =>
    exact (received_ready hl (received_plain plain hx owing.unsent owing.phase) told hx some_ owing clear consumed
      holds).read orderly served
  | working owing paused _ =>
    rw [running owing.unsent owing.phase] at paused
    cases paused
  | responding answer paused _ =>
    rw [running answer.unsent answer.phase] at paused
    cases paused
  | answered answer spoils =>
    exact readFrom_drained (drained (.inl answer.sent)) linked
      (kept (.answered ⟨answer.sent, answer.clear, answer.one⟩ spoils))
  | draining phase clear quiet =>
    exact readFrom_drained (drained (.inr phase)) linked (kept (.draining phase clear quiet))

theorem graceful_told (told : Told env c) (same : (x.c.trace, x.c.buf) = (c.trace, c.buf))
    (answered : x.c.closing = false → Clear c ∧ pending x.c = 0) : Told env (connCloseGraceful x).c := by
  obtain ⟨trace, buf⟩ := Prod.mk.inj same
  unfold connCloseGraceful
  split
  · rename_i closing
    exact told.of_closing (by rw [trace, buf]) (buf ▸ List.prefix_rfl) closing
  · rename_i open_
    obtain ⟨clear, quiet⟩ := answered (Bool.eq_false_iff.mpr open_)
    refine told.of_stands ?_ ?_ fun _ => .draining rfl ?_ quiet
    · rw [← trace, ← buf]
      rfl
    · rw [← buf]
      exact List.prefix_rfl
    · unfold Clear at *
      rw [← trace] at clear
      exact clear

/-- Where an answer is reported, it is the only one; behind it the connection starts over, or the next request is
spoiled. -/
theorem answer_stands (stands : Stands env c) {w : WriteCtx} {rest : List WriteCtx} (hw : c.writes = w :: rest)
    (answer : w.kind ≠ .sse) : Clear c ∧ pending (popWrite c) = 0 ∧ (closeFlag c = false → c.parser.error = .paused ∧
      (w.kind = .simple ∧ spoiled c = true ∨ w.kind ≠ .simple ∧ Rested env c)) := by
  have count := popped_quiet hw answer
  have mem : w ∈ c.writes := hw ▸ List.mem_cons_self
  cases stands with
  | reading owing => exact absurd owing.quiet (by omega)
  | working owing => exact absurd owing.quiet (by omega)
  | responding answer' paused rests =>
    have one := answer'.one
    exact ⟨answer'.clear, by omega, fun goes => ⟨paused, .inr ⟨answer'.kind w mem, rests goes⟩⟩⟩
  | answered answer' spoils =>
    have one := answer'.one
    refine ⟨answer'.clear, by omega, fun goes => ?_⟩
    obtain ⟨paused, spoilt, kind⟩ := spoils goes
    refine ⟨paused, .inl ⟨?_, spoilt⟩⟩
    cases hk : w.kind with
    | response k => exact absurd hk (kind w mem k)
    | simple => rfl
    | sse => exact absurd hk answer
  | draining _ _ quiet => exact absurd quiet (by omega)

theorem llhttpResume_paused {p : Parser σ} (paused : p.error = .paused) : llhttpResume p = { p with error := .ok } := by
  unfold llhttpResume
  rw [if_neg (not_not.mpr paused)]

theorem rearmed_told (told : Told env c) (clear : Clear c) (quiet : pending x.c = 0) (paused : c.parser.error = .paused)
    (rested : Rested env c) (same : (x.c.trace, x.c.buf, x.c.parser, x.c.stage) = (c.trace, c.buf, c.parser, c.stage)) :
    Told env (resumeFrom env (rearmed env x)).c := by
  simp only [Prod.mk.injEq] at same
  obtain ⟨trace, buf, parser, stage⟩ := same
  have kept : (rearmed env x).c.buf = compact c.buf := by
    rw [← buf]
    rfl
  have empty := compact_taken rested.buf
  simp only [Prod.mk.injEq] at empty
  obtain ⟨_, filled, consumed⟩ := empty
  obtain ⟨execs, rx⟩ := Prod.mk.inj (compact_heard c.buf)
  have resumed : (rearmed env x).c.parser = { c.parser with error := .ok } := by
    change llhttpResume x.c.parser = _
    rw [parser, llhttpResume_paused paused]
  rw [resumeFrom_empty env (by rw [kept, filled]; exact Nat.lt_irrefl 0)]
  have heard : (readStart (rearmed env x).c).trace = c.trace ∧ (readStart (rearmed env x).c).buf = compact c.buf :=
    ⟨trace, kept⟩
  have talk : talkOf env (readStart (rearmed env x).c) = talkOf env c := talkOf_congr (by rw [heard.2, execs])
  have same : (readStart (rearmed env x).c).buf.rx = c.buf.rx := by rw [heard.2, rx]
  change Told env (readStart (rearmed env x).c)
  refine told.of_stands (by rw [heard.1, heard.2, execs]) (same ▸ List.prefix_rfl) fun _ => ?_
  have clear' : Clear (readStart (rearmed env x).c) := by
    unfold Clear
    rw [heard.1]
    exact clear
  refine .reading ⟨rfl, Phase.noConfusion, clear'.trans (Nat.le_succ _), quiet⟩ clear' ?_
    (by rw [heard.2, consumed, filled]) fun fresh => ⟨?_, ?_, ?_, talk ▸ rested.framed⟩
  · exact congrArg Parser.error resumed
  · rw [talk, (Prod.mk.inj rested.talk).1]
    exact (rested.state.symm.trans (congrArg Parser.state resumed).symm)
  · rw [talk, (Prod.mk.inj rested.talk).2]
    have fresh : (!x.c.stage.fSb.isEmpty || !x.c.stage.vSb.isEmpty) = false := fresh
    rw [stage, Bool.or_eq_false_iff, Bool.not_eq_false', Bool.not_eq_false', List.isEmpty_iff,
      List.isEmpty_iff] at fresh
    refine ⟨rfl, fun m hm => absurd hm (Option.not_mem_none m), ?_, fun k hk => absurd hk (Option.not_mem_none k)⟩
    change (⟨x.c.stage.fSb, x.c.stage.vSb, x.c.stage.urlSb, 0⟩ : Staging) = ⟨[], [], [], 0⟩
    rw [stage, fresh.1, fresh.2, rested.url]
  · rw [given, heard.2, execs, rx]
    exact rested.fed

theorem written_told {w : WriteCtx} {rest : List WriteCtx} (ok : Bool) (hl : Linked (s.conns i))
    (told : Told env (s.conns i)) (hw : (s.conns i).writes = w :: rest) :
    Told env (onWritten env (s.enter i) w.kind ok).c := by
  have linked := (popped_housed (x := s.enter i) hl).linked
  have counted : Linked (countAnswered (popped (s.enter i))).c := linked
  have silent {d : Conn σ} (same : (d.trace, d.buf) = ((s.conns i).trace, (s.conns i).buf))
      (stands : d.closing = false → Stands env d) : Told env d := by
    obtain ⟨trace, buf⟩ := Prod.mk.inj same
    exact told.of_stands (by rw [trace, buf]) (buf ▸ List.prefix_rfl) stands
  have shut {d : Conn σ} (same : (d.trace, d.buf) = ((s.conns i).trace, (s.conns i).buf)) (closing : d.closing = true) :
      Told env d := silent same fun open_ => absurd (closing.symm.trans open_) Bool.true_eq_false.mp
  obtain ⟨kind, out⟩ := w
  cases kind with
  | sse =>
    change Told env (connOnSseWritten (s.enter i) ok).c
    obtain e | e := connOnSseWritten_cases (x := s.enter i) hl ok <;> rw [e]
    · exact told.of_unheard (popped_unheard hw rfl)
    · exact close_told told linked rfl
  | simple =>
    change Told env (onSimpleWritten env (s.enter i) ok).c
    have answer := fun open_ : (s.conns i).closing = false => 
      answer_stands (told.stands open_) hw (by exact WriteKind.noConfusion)
    obtain ⟨closing, e⟩ | ⟨_, _, e⟩ | ⟨open_, _, keep, force, e⟩ | ⟨open_, _, force, e⟩ :=
      onSimpleWritten_cases (x := s.enter i) hl env ok <;> rw [e]
    · exact shut rfl closing
    · exact close_told told counted rfl
    · obtain ⟨clear, quiet, goes⟩ := answer open_
      obtain ⟨paused, ⟨_, spoilt⟩ | ⟨other, _⟩⟩ := goes (closeFlag_clear force keep)
      · refine told.of_stands rfl List.prefix_rfl fun _ => .reading ⟨rfl, ?_, ?_, quiet⟩ clear ?_ rfl fun fresh => ?_
        · exact Phase.noConfusion
        · exact clear.trans (Nat.le_succ _)
        · exact congrArg Parser.error (llhttpResume_paused paused)
        · exact absurd ((show spoiled _ = true from spoilt).symm.trans fresh) Bool.true_eq_false.mp
      · exact absurd rfl other
    · exact graceful_told told rfl fun _ => ⟨(answer open_).1, (answer open_).2.1⟩
  | response k =>
    change Told env (onResponseWritten env (s.enter i) ok).c
    rw [onResponseWritten_eq (x := s.enter i) hl]
    have answer := fun open_ : (s.conns i).closing = false =>
      answer_stands (told.stands open_) hw (by exact WriteKind.noConfusion)
    split
    · rename_i finalized
      exact shut rfl (hl.finalized finalized)
    · obtain ⟨rfl, e⟩ | ⟨rfl, closing, e⟩ | ⟨rfl, open_, _, e⟩ | ⟨rfl, open_, force, keep, e⟩ :=
        afterResponse_cases linked env ok <;> rw [e]
      · exact close_told told counted rfl
      · exact shut rfl closing
      · exact graceful_told told rfl fun _ => ⟨(answer open_).1, (answer open_).2.1⟩
      · obtain ⟨clear, quiet, goes⟩ := answer open_
        obtain ⟨paused, ⟨other, _⟩ | ⟨_, rested⟩⟩ := goes (closeFlag_clear force keep)
        · cases other
        · exact rearmed_told told clear quiet paused rested rfl

theorem closed_served (hl : Linked (s.conns i)) (hq : (s.conns i).closeQueued = true)
    (hd : (s.conns i).closeCbDone = false) (hw : (s.conns i).writes = [])
    (served : (connOnStreamClosed (s.enter i)).c.arena.Served) : (s.conns i).arena.Served := by
  have finalized : (s.conns i).finalized = false := by rw [← hl.closeCb, hd]
  obtain ⟨srv, a, _, arena, e⟩ := connFinalize_cases (x := { s.enter i with c := { (s.enter i).c with
    closeCbDone := true } }) finalized
  rw [connOnStreamClosed_eq (x := s.enter i) hl hq hd hw, e] at served
  obtain rfl | rfl | rfl := arena
  · exact served
  · change (arenaReset (s.conns i).arena).Served at served
    unfold arenaReset at served
    split at served <;> exact served
  · exact served

theorem closed_told (hl : Linked (s.conns i)) (hq : (s.conns i).closeQueued = true)
    (hd : (s.conns i).closeCbDone = false) (hw : (s.conns i).writes = []) (told : Told env (s.conns i)) :
    Told env (connOnStreamClosed (s.enter i)).c := by
  have finalized : (s.conns i).finalized = false := by rw [← hl.closeCb, hd]
  have closing : (s.conns i).closing = true := by rw [← hl.queued, hq]
  obtain ⟨srv, a, _, _, e⟩ := connFinalize_cases (x := { s.enter i with c := { (s.enter i).c with
    closeCbDone := true } }) finalized
  rw [connOnStreamClosed_eq (x := s.enter i) hl hq hd hw, e]
  exact told.of_closing rfl List.prefix_rfl closing

theorem respHdrAdd_input (a : Arena) (r : Req) (name value : Bytes) :
    input (respHdrAdd a r name value).2 = input r := by
  unfold respHdrAdd
  split
  · rfl
  · split
    · rfl
    · dsimp only
      split <;> rfl

theorem setHeader_input (a : Arena) (r : Req) (name value : Bytes) :
    input (Request.setHeader a r name value).2 = input r := by
  unfold Request.setHeader
  split
  · rfl
  · exact respHdrAdd_input a r name value

theorem apiRun_input (call : ApiCall) (a : Arena) (r : Req) : input (apiRun call a r).2 = input r := by
  cases call with
  | status code =>
    unfold apiRun
    dsimp only
    split <;> rfl
  | setHeader name value => exact setHeader_input a r name value
  | addHeader name value => exact respHdrAdd_input a r name value
  | write s => rfl
  | reset => rfl
  | title escaped =>
    unfold apiRun
    dsimp only
    split <;> rfl
  | redirect location => exact setHeader_input _ _ _ _
  | alloc size => rfl

theorem handlerRun_input (calls : List ApiCall) (a : Arena) (r : Req) : input (handlerRun calls a r).2 = input r := by
  unfold handlerRun
  induction calls generalizing a r with
  | nil => rfl
  | cons call calls ih => exact (ih _ _).trans (apiRun_input call a r)

theorem handler_told (told : Told env x.c) (k : ℕ) (calls : List ApiCall) :
    Told env (x.withReq k (handlerRun calls)).c := by
  refine told.of_unheard (.of_eq rfl rfl id fun j => ?_)
  change input (Function.update x.c.objs k _ j) = input (x.c.objs j)
  rw [Function.update_apply]
  split
  · rename_i same
    rw [same]
    exact handlerRun_input _ _ _
  · rfl

theorem deadline_told (hl : Linked x.c) (told : Told env x.c) : Told env (connDeadlinePass x).c := by
  unfold connDeadlinePass
  split
  · exact close_told (told.of_unheard (cancelReq_unheard x.c)) (forceClose_kept hl).linked rfl
  · exact told

theorem shutdown_told (hl : Linked x.c) (told : Told env x.c) : Told env (shutdownConn x).c := by
  unfold shutdownConn
  split
  · exact close_told told hl rfl
  · split
    · exact told.of_unheard (cancelReq_unheard x.c)
    · exact told

theorem reload_told (hl : Linked x.c) (told : Told env x.c) : Told env (reloadConn env x).c := by
  unfold reloadConn
  split
  · exact told
  · have kept := connSseWrite_kept hl env (ascii "data: reload\n\n")
    obtain ⟨ruled, heard | closing⟩ := connSseWrite_streamed hl env (ascii "data: reload\n\n")
    · exact told.of_unheard heard
    · exact told.of_closing (by rw [ruled, kept.buf]) (kept.buf ▸ List.prefix_rfl) closing

theorem drain_told {m : Multiset ReqRef} {ref : ReqRef} (hl : Linked x.c) (paid : Paid ({ref} + m) x.c)
    (told : Told env x.c) : Told env (drainReq env x ref.req).c := by
  have owed : ¬ Clear x.c := by
    unfold Paid Clear at *
    rw [Multiset.card_add, Multiset.card_singleton] at paid
    omega
  obtain ⟨_, st, e⟩ | ⟨open_, y, prep, e⟩ := drainReq_cases hl env ref.req <;> rw [e]
  · exact told
  · have linked := (prepared_kept prep hl).linked
    obtain ⟨a, o, st, _, rfl⟩ := prep
    let y : Ctx σ := { x with srv := { x.srv with stats := st }, c := { x.c with arena := a, objs := o } }
    have kept := connStartResponse_kept (x := y) linked env ref.req
    cases told.stands open_ with
    | reading _ clear => exact absurd clear owed
    | working owing paused rests =>
      obtain ⟨ruled, stands⟩ := connStartResponse_responding (x := y) linked env ref.req (owing.of_eq rfl)
      have buf : (connStartResponse env y ref.req).c.buf = x.c.buf := kept.buf
      refine told.of_stands (by rw [ruled, buf]) (buf ▸ List.prefix_rfl) fun open_ => ?_
      obtain closing | ⟨answer, flag⟩ := stands
      · exact absurd (closing.symm.trans open_) Bool.true_eq_false.mp
      · refine .responding answer ((congrArg Parser.error kept.parser).trans paused) fun goes => ?_
        have rested := rests (flag.symm.trans goes)
        have talk : talkOf env (connStartResponse env y ref.req).c = talkOf env x.c := talkOf_congr (by rw [buf])
        refine ⟨talk ▸ rested.talk, ?_, ?_, by rw [buf]; exact rested.buf, ?_, talk ▸ rested.framed⟩
        · rw [kept.parser]
          exact rested.state
        · rw [kept.stage]
          exact rested.url
        · rw [given, buf]
          exact rested.fed
    | responding answer => exact absurd answer.clear owed
    | answered answer => exact absurd answer.clear owed
    | draining _ clear => exact absurd clear owed

theorem told_rules (orderly : Orderly env.llhttp) :
    ConnRules env (plainStep env) fun m c => Paid m c ∧ (c.arena.Served → Told env c) where
  fresh i now := ⟨(paid_rules env).fresh i now, fun _ => freshConn_told env i now⟩
  accept i now := ⟨(paid_rules env).accept i now, fun _ => (freshConn_told env i now).of_unheard (.of_eq rfl rfl id
    fun _ => rfl)⟩
  busy x now hx := ⟨(paid_rules env).busy x now hx, fun _ => busy_told env hx⟩
  read s i data room x ok wired hl h reading hx some_ fits := by
    refine ⟨(paid_rules env).read s i data room x ok.1 wired hl h.1 reading hx some_ fits, fun served => ?_⟩
    have before : (s.conns i).arena.Served := (served_callbacks env).onRead hl hx (fun _ _ => trivial) served
    exact read_told orderly hl ok.2 (h.2 before) reading hx some_ served
  readEnd m x hl h reading := by
    refine ⟨(paid_rules env).readEnd m x hl h.1 reading, fun served => ?_⟩
    obtain ⟨b, hb, heard⟩ := connAllocCb_buf env x
    have told := h.2 ((served_callbacks env).readEnd hl served)
    obtain ⟨execs, rx⟩ := Prod.mk.inj heard
    refine close_told told (connAllocCb_housed hl env).linked ?_
    rw [hb]
    exact Prod.ext rfl heard
  written s i b w rest ok wired hl h hw := by
    refine ⟨(paid_rules env).written s i b w rest ok.1 wired hl h.1 hw, fun served => ?_⟩
    have before := (served_callbacks env).onWrite b hl hw (fun _ _ => trivial) served
    rw [(reported_same (s.enter i) w.kind).2] at before
    exact written_told b hl (h.2 before) hw
  closed s i ok hl h hq hd hw := by
    refine ⟨(paid_rules env).closed s i ok.1 hl h.1 hq hd hw, fun served => ?_⟩
    exact closed_told hl hq hd hw (h.2 (closed_served hl hq hd hw served))
  deadline m x hl h := ⟨(paid_rules env).deadline m x hl h.1, fun served =>
    deadline_told hl (h.2 ((served_callbacks env).deadline hl served))⟩
  shutdown m x hl h := ⟨(paid_rules env).shutdown m x hl h.1, fun served =>
    shutdown_told hl (h.2 ((served_callbacks env).shutdown hl served))⟩
  reload m x hl h := ⟨(paid_rules env).reload m x hl h.1, fun served =>
    reload_told hl (h.2 ((reloadConn_kept hl env).1.arena.served served))⟩
  handler m x k calls hl h := ⟨(paid_rules env).handler m x k calls hl h.1, fun served =>
    handler_told (h.2 ((withReq_kept hl k (handlerRun_allocs calls)).arena.served served)) k calls⟩
  finish := .inl fun s w calls ok => ok.1
  drain m ref x hl h := ⟨(paid_rules env).drain m ref x hl h.1, fun served =>
    drain_told hl h.1 (h.2 ((drainReq_kept hl env ref.req).1.arena.served served))⟩

end Steps

/-- The ruling on a text that comes alone and in one buffer. -/
def alone (env : Env σ) (text : Bytes) : Except Ruling (σ × Draft) :=
  readBuffer (Draft.on env.cfg.maxBody) env.llhttp (env.llhttp.start, blank) text

/-- The same ruling, or two rejections. -/
def Alike (v w : Ruling) : Prop := v = w ∨ (∃ code, v = .rejected code) ∧ ∃ code, w = .rejected code

section Texts
variable {env : Env σ} {c : Conn σ} {u v w : Ruling} {a b : Bytes}

theorem Alike.symm (h : Alike v w) : Alike w v := h.imp Eq.symm And.symm

theorem Alike.trans (h₁ : Alike u v) (h₂ : Alike v w) : Alike u w := by
  obtain rfl | ⟨first, second⟩ := h₁
  · exact h₂
  · obtain rfl | ⟨_, third⟩ := h₂
    · exact .inr ⟨first, second⟩
    · exact .inr ⟨first, third⟩

theorem span_rejected {maxBody : ℕ} {d : Draft} {k : Elem} {s : Bytes} (h : d.on maxBody (.span k s) = .error v) :
    ∃ code, v = .rejected code := by
  have finishes {d : Draft} (h : d.finish = .error v) : ∃ code, v = .rejected code := by
    unfold Draft.finish at h
    split at h
    · cases h
    · split at h
      · cases h
        exact ⟨431, rfl⟩
      · cases h
  cases k with
  | url =>
    simp only [Draft.on] at h
    split at h <;> cases h
    exact ⟨414, rfl⟩
  | field =>
    simp only [Draft.on, Draft.onField] at h
    cases hd : (if d.name ≠ [] ∨ d.value ≠ [] then d.finish else .ok d) with
    | error w =>
      rw [hd] at h
      cases h
      split at hd
      · exact finishes hd
      · cases hd
    | ok t =>
      rw [hd] at h
      change (if _ then _ else _) = _ at h
      split at h <;> cases h
      exact ⟨431, rfl⟩
  | value =>
    simp only [Draft.on] at h
    split at h <;> cases h
    exact ⟨431, rfl⟩
  | body =>
    simp only [Draft.on, Draft.onBody] at h
    split at h
    · cases h
    · split at h <;> cases h
      exact ⟨413, rfl⟩

theorem overruns_rejected {maxBody : ℕ} {x : Except Ruling (σ × Draft)}
    (h : Overruns (Draft.on maxBody) (fun _ => .rejected 400) (.error v) x) :
    (∃ code, v = .rejected code) ∧ x = .error (.rejected 400) := by
  obtain ⟨d, u, k, s, _, refused, same, rfl⟩ := h
  cases same
  exact ⟨span_rejected refused, rfl⟩

/-- A text gets the ruling that it gets alone, or it is rejected for its size before the parser fails. -/
theorem told_alone (told : Told env c) {p : List Bytes × Ruling} (mem : p ∈ (talkOf env c).answered) :
    alone env p.1.flatten = .error p.2 ∨
      (∃ code, p.2 = .rejected code) ∧ alone env p.1.flatten = .error (.rejected 400) :=
  (told.sound.alone (draft_pieces _) mem).imp_right overruns_rejected

theorem told_alike (told : Told env c) {p : List Bytes × Ruling} (mem : p ∈ (talkOf env c).answered) :
    ∃ w, alone env p.1.flatten = .error w ∧ Alike p.2 w := by
  obtain same | ⟨rejected, fails⟩ := told_alone told mem
  · exact ⟨p.2, same, .inl rfl⟩
  · exact ⟨_, fails, .inr ⟨rejected, 400, rfl⟩⟩

theorem alone_longer (ha : alone env a = .error v) (front : a <+: b) : ∃ w, alone env b = .error w ∧ Alike v w := by
  obtain ⟨rest, rfl⟩ := front
  obtain same | longer := verdict_longer (draft_pieces _) ha rest
  · exact ⟨v, same, .inl rfl⟩
  · obtain ⟨rejected, fails⟩ := overruns_rejected longer
    exact ⟨_, fails, .inr ⟨rejected, 400, rfl⟩⟩

theorem texts_aligned {M : Llhttp σ} {ps qs : List (List Bytes × Ruling)} {stream : Bytes}
    (hp : (ps.flatMap Prod.fst).flatten <+: stream) (hq : (qs.flatMap Prod.fst).flatten <+: stream)
    (framed : ∀ p ∈ ps.dropLast, Framed M p.1.flatten) (framed' : ∀ p ∈ qs.dropLast, Framed M p.1.flatten) {k : ℕ}
    {p q : List Bytes × Ruling} (kp : ps[k]? = some p) (kq : qs[k]? = some q) :
    p.1.flatten <+: q.1.flatten ∨ q.1.flatten <+: p.1.flatten := by
  induction ps generalizing qs stream k with
  | nil => cases kp
  | cons p₀ ps ih =>
    cases qs with
    | nil => cases kq
    | cons q₀ qs =>
      rw [List.flatMap_cons, List.flatten_append] at hp hq
      have first := (List.prefix_append _ _).trans hp
      have first' := (List.prefix_append _ _).trans hq
      have heads := List.prefix_or_prefix_of_prefix first first'
      cases k with
      | zero =>
        cases kp
        cases kq
        exact heads
      | succ k =>
        have more : ps ≠ [] := by
          rintro rfl
          cases kp
        have more' : qs ≠ [] := by
          rintro rfl
          cases kq
        rw [List.dropLast_cons_of_ne_nil more] at framed
        rw [List.dropLast_cons_of_ne_nil more'] at framed'
        have same : p₀.1.flatten = q₀.1.flatten := by
          obtain front | front := heads
          · exact (framed p₀ List.mem_cons_self).same (framed' q₀ List.mem_cons_self) front
          · exact ((framed' q₀ List.mem_cons_self).same (framed p₀ List.mem_cons_self) front).symm
        obtain ⟨rest, rfl⟩ := first
        rw [List.prefix_append_right_inj] at hp
        rw [same, List.prefix_append_right_inj] at hq
        exact ih hp hq (fun p hp => framed p (List.mem_cons_of_mem _ hp))
          (fun p hp => framed' p (List.mem_cons_of_mem _ hp)) kp kq

theorem told_texts (told : Told env c) : ((talkOf env c).answered.flatMap Prod.fst).flatten <+: c.buf.rx := by
  refine List.IsPrefix.trans ?_ told.fed
  have parts : (talkOf env c).answered.flatMap Prod.fst ++ (talkOf env c).reads = given c :=
    talk_buffers blank (given c)
  rw [← parts, List.flatten_append]
  exact List.prefix_append _ _

end Texts

structure Known (s : Scan) (ms : List Mark) : Prop where
  begun : s.pos ≠ .start → .messageBegin ∈ ms
  named : s.pos ≠ .start → s.pos ≠ .method → ∃ m, .method m ∈ ms

def byteMarks (s : Scan) (c : UInt8) : List Mark := (reportMarks (scan s c).1).1 ++ (reportMarks (scan s c).2.1).1

theorem scan_known {s : Scan} {ms : List Mark} (known : Known s ms) (c : UInt8) :
    Known (scan s c).2.2 (ms ++ byteMarks s c) ∧ ∀ keepAlive, .messageComplete keepAlive ∈ byteMarks s c →
      s.pos ≠ .start ∧ s.pos ≠ .method := by
  obtain ⟨pos, word, length⟩ := s
  by_cases later : pos ≠ .start ∧ pos ≠ .method
  · obtain ⟨m, named⟩ := known.named later.1 later.2
    exact ⟨⟨fun _ => List.mem_append_left _ (known.begun later.1), fun _ _ => ⟨m, List.mem_append_left _ named⟩⟩,
      fun _ _ => later⟩
  · unfold byteMarks
    cases pos with
    | start =>
      simp only [scan]
      split
      · exact ⟨⟨fun h => absurd rfl h, fun h => absurd rfl h⟩, by simp [reportMarks]⟩
      · split
        · exact ⟨⟨fun _ => by simp [reportMarks], fun _ h => absurd rfl h⟩, by simp [reportMarks]⟩
        · exact ⟨⟨fun h => absurd rfl h, fun h => absurd rfl h⟩, by simp [reportMarks]⟩
    | method =>
      have begun := known.begun Pos.noConfusion
      simp only [scan]
      split
      · exact ⟨⟨fun _ => List.mem_append_left _ begun, fun _ _ => ⟨word, by simp [reportMarks]⟩⟩, by simp [reportMarks]⟩
      · split
        · exact ⟨⟨fun _ => List.mem_append_left _ begun, fun _ h => absurd rfl h⟩, by simp [reportMarks]⟩
        · exact ⟨⟨fun _ => List.mem_append_left _ begun, fun _ h => absurd rfl h⟩, by simp [reportMarks]⟩
    | _ => exact absurd ⟨Pos.noConfusion, Pos.noConfusion⟩ later

theorem run_parts (s : Scan) (c : UInt8) (bs : Bytes) : ∃ part tail, (requestParser.run s (c :: bs)).1 = part ++ tail ∧
    part <+: byteMarks s c ∧ (tail = [] ∨ part = byteMarks s c ∧ tail = (requestParser.run (scan s c).2.2 bs).1) := by
  have step : requestParser.step s c = scan s c := rfl
  rw [Machine.run, step, byteMarks]
  cases reportMarks (scan s c).1 with
  | mk ms going =>
    cases going with
    | false => exact ⟨ms, [], (List.append_nil ms).symm, List.prefix_append _ _, .inl rfl⟩
    | true =>
      cases reportMarks (scan s c).2.1 with
      | mk ms' going =>
        cases going with
        | false => exact ⟨ms ++ ms', [], (List.append_nil _).symm, List.prefix_rfl, .inl rfl⟩
        | true => exact ⟨ms ++ ms', _, (List.append_assoc _ _ _).symm, List.prefix_rfl, .inr ⟨rfl, rfl⟩⟩

theorem run_turn {s : Scan} {ms : List Mark} (known : Known s ms) {bs : Bytes} {front rest : List Mark}
    {keepAlive : Bool} (h : (requestParser.run s bs).1 = front ++ .messageComplete keepAlive :: rest) :
    .messageBegin ∈ ms ++ front ∧ ∃ m, .method m ∈ ms ++ front := by
  induction bs generalizing s ms front with
  | nil => exact absurd h.symm (List.append_ne_nil_of_right_ne_nil _ (List.cons_ne_nil _ _))
  | cons c bs ih =>
    obtain ⟨after, late⟩ := scan_known known c
    obtain ⟨part, tail, whole, prefix_, onward⟩ := run_parts s c bs
    have behind (front' : List Mark) (hf : front = part ++ front')
        (ht : tail = front' ++ .messageComplete keepAlive :: rest) :
        .messageBegin ∈ ms ++ front ∧ ∃ m, .method m ∈ ms ++ front := by
      obtain rfl | ⟨rfl, rfl⟩ := onward
      · exact absurd ht.symm (List.append_ne_nil_of_right_ne_nil _ (List.cons_ne_nil _ _))
      · rw [hf, ← List.append_assoc]
        exact ih after ht
    rw [whole] at h
    obtain ⟨a, hf, ht⟩ | ⟨a, hp, hc⟩ := List.append_eq_append_iff.mp h
    · exact behind a hf ht
    · cases a with
      | nil =>
        rw [List.append_nil] at hp
        exact behind [] (by rw [hp, List.append_nil]) hc.symm
      | cons m a =>
        cases hc
        have mem : .messageComplete keepAlive ∈ byteMarks s c :=
          prefix_.mem (hp ▸ List.mem_append_right _ List.mem_cons_self)
        obtain ⟨begun, named⟩ := late keepAlive mem
        obtain ⟨m, hm⟩ := known.named begun named
        exact ⟨List.mem_append_left _ (known.begun begun), m, List.mem_append_left _ hm⟩

theorem scan_behind {s : Scan} (c : UInt8) (pos : s.pos ≠ .blank ∧ s.pos ≠ .bodyStart ∧ s.pos ≠ .body) :
    (scan s c).2.1 = [] := by
  obtain ⟨p, word, length⟩ := s
  unfold scan
  cases p with
  | blank => exact absurd rfl pos.1
  | bodyStart => exact absurd rfl pos.2.1
  | body => exact absurd rfl pos.2.2
  | start | beforeUrl | method | url | line | name | beforeValue =>
    dsimp only
    split
    · rfl
    · split <;> rfl
  | version | value | valueEnd =>
    dsimp only
    split <;> rfl

theorem bodyByte_restarts {s : Scan} (h : Report.mark (.messageComplete true) ∈ (bodyByte s).1) :
    (bodyByte s).2 = between := by
  unfold bodyByte at h ⊢
  split
  · rfl
  · rename_i more
    rw [if_neg more] at h
    cases h

theorem requestParser_orderly : Orderly requestParser where
  turn bs ms keepAlive rest h := by
    have fresh : Known between [] := ⟨fun h => absurd rfl h, fun h => absurd rfl h⟩
    exact run_turn fresh h
  restarts s c h := by
    obtain ⟨pos, word, length⟩ := s
    have h : Report.mark (.messageComplete true) ∈ (scan ⟨pos, word, length⟩ c).2.1 := h
    change (scan ⟨pos, word, length⟩ c).2.2 = between
    cases pos with
    | blank =>
      simp only [scan] at h ⊢
      split at h
      · split at h
        · rw [if_pos ‹_›, if_pos ‹_›]
        · simp at h
      · cases h
    | bodyStart => exact bodyByte_restarts h
    | body => exact bodyByte_restarts h
    | _ =>
      rw [scan_behind c ⟨Pos.noConfusion, Pos.noConfusion, Pos.noConfusion⟩] at h
      cases h

def cutRoot : List Step :=
  [.accept, .read 0 (ascii "GET / HT"), .read 0 (ascii "TP/1.1\r\nHost: a"), .read 0 (ascii "\r\n\r\n"), .take 0,
    .finish 0 [], .drain, .written 0 true, .read 0 (ascii "FOO(")]

def wholeRoot : List Step :=
  [.accept, .accept, .read 1 (ascii "GET / HTTP/1.1\r\nHost: a\r\n\r\n"), .take 0, .finish 0 [], .drain, .sweep,
    .written 1 true, .read 1 (ascii "FO"), .tick 5, .read 1 (ascii "O(")]

def rootRulings : List Ruling :=
  [.dispatched (some (ascii "GET")) (some (ascii "/")) (some (ascii "/")) (some []) [(ascii "Host", ascii "a")] none,
    .rejected 400]

section Server
variable {env : Env σ}

theorem reach_told (orderly : Orderly env.llhttp) {s : Srv σ} (h : Reach (server env) (plainStep env) s) {i : ℕ}
    (served : (s.conns i).arena.Served) : Told env (s.conns i) :=
  ((told_rules orderly).reach h).each i |>.2 served

/-- The bytes that a client sent are cut into texts, each but the last one where its first message is complete.
Each text got the ruling that it gets alone and in one buffer, or was rejected for its size where the parser
fails on it. -/
theorem requests_alone (orderly : Orderly env.llhttp) {s : Srv σ} (h : Reach (server env) (plainStep env) s) {i : ℕ}
    (served : (s.conns i).arena.Served) :
    ∃ texts : List (List Bytes × Ruling), (texts.flatMap Prod.fst).flatten <+: (s.conns i).buf.rx ∧
      rulings (s.conns i).trace = texts.map Prod.snd ∧
      (∀ p ∈ texts.dropLast, Framed env.llhttp p.1.flatten) ∧
      ∀ p ∈ texts, alone env p.1.flatten = .error p.2 ∨
        (∃ code, p.2 = .rejected code) ∧ alone env p.1.flatten = .error (.rejected 400) := by
  have told := reach_told orderly h served
  exact ⟨(talkOf env (s.conns i)).answered, told_texts told, told.ruled, told.framed, fun _ => told_alone told⟩

theorem requests_alone_root : ∃ s, Reach (server (stockEnv rootTable)) (plainStep (stockEnv rootTable)) s ∧
    rulings (s.conns 0).trace = rootRulings ∧
    ∃ texts : List (List Bytes × Ruling), (texts.flatMap Prod.fst).flatten <+: (s.conns 0).buf.rx ∧
      rulings (s.conns 0).trace = texts.map Prod.snd ∧
      (∀ p ∈ texts.dropLast, Framed requestParser p.1.flatten) ∧
      ∀ p ∈ texts, alone (stockEnv rootTable) p.1.flatten = .error p.2 ∨
        (∃ code, p.2 = .rejected code) ∧ alone (stockEnv rootTable) p.1.flatten = .error (.rejected 400) := by
  obtain ⟨s, hs, view⟩ := stock_reach_while (plainStep (stockEnv rootTable)) rootTable
    (fun s => (decide (s.conns 0).arena.Served, rulings (s.conns 0).trace)) cutRoot (true, rootRulings)
    (by decide +kernel)
  obtain ⟨served, ruled⟩ := Prod.mk.inj view
  exact ⟨s, hs, ruled, requests_alone requestParser_orderly hs (of_decide_eq_true served)⟩

/-- The `k`-th requests of two connections that received the same bytes, in two runs of two servers with the same
parser and limit, are dispatched with the same data, or both are rejected. -/
theorem same_bytes {env' : Env σ} (same : (env'.llhttp, env'.cfg.maxBody) = (env.llhttp, env.cfg.maxBody))
    (orderly : Orderly env.llhttp) {s s' : Srv σ} (h : Reach (server env) (plainStep env) s)
    (h' : Reach (server env') (plainStep env') s') {i i' : ℕ} (served : (s.conns i).arena.Served)
    (served' : (s'.conns i').arena.Served) (received : (s.conns i).buf.rx <+: (s'.conns i').buf.rx) {k : ℕ}
    {v v' : Ruling} (hv : (rulings (s.conns i).trace)[k]? = some v)
    (hv' : (rulings (s'.conns i').trace)[k]? = some v') :
    Alike v v' := by
  obtain ⟨parser, maxBody⟩ := Prod.mk.inj same
  have told := reach_told orderly h served
  have told' := reach_told (parser ▸ orderly) h' served'
  rw [told.ruled, List.getElem?_map, Option.map_eq_some_iff] at hv
  rw [told'.ruled, List.getElem?_map, Option.map_eq_some_iff] at hv'
  obtain ⟨p, hp, rfl⟩ := hv
  obtain ⟨q, hq, rfl⟩ := hv'
  have again : alone env' = alone env := by
    unfold alone
    rw [parser, maxBody]
  obtain ⟨w, ruled, alike⟩ := told_alike told (List.mem_of_getElem? hp)
  obtain ⟨w', ruled', alike'⟩ := told_alike told' (List.mem_of_getElem? hq)
  rw [again] at ruled'
  have both : Alike w w' := by
    obtain front | front := texts_aligned ((told_texts told).trans received) (told_texts told') told.framed
      (parser ▸ told'.framed) hp hq
    · obtain ⟨u, longer, still⟩ := alone_longer ruled front
      rw [ruled'] at longer
      cases longer
      exact still
    · obtain ⟨u, longer, still⟩ := alone_longer ruled' front
      rw [ruled] at longer
      cases longer
      exact still.symm
  exact (alike.trans both).trans alike'.symm

/-- The two clients. -/
theorem same_bytes_root : ∃ s s', Reach (server (stockEnv rootTable)) (plainStep (stockEnv rootTable)) s ∧
    Reach (server (stockEnv rootTable)) (plainStep (stockEnv rootTable)) s' ∧
    (given (s.conns 0)).length = 4 ∧ (given (s'.conns 1)).length = 3 ∧
    ∃ v v', (rulings (s.conns 0).trace)[0]? = some v ∧ (rulings (s'.conns 1).trace)[0]? = some v' ∧ Alike v v' := by
  obtain ⟨s, hs, view⟩ := stock_reach_while (plainStep (stockEnv rootTable)) rootTable
    (fun s => (decide (s.conns 0).arena.Served, rulings (s.conns 0).trace, (s.conns 0).buf.rx,
      (given (s.conns 0)).length))
    cutRoot (true, rootRulings, ascii "GET / HTTP/1.1\r\nHost: a\r\n\r\nFOO(", 4) (by decide +kernel)
  obtain ⟨s', hs', view'⟩ := stock_reach_while (plainStep (stockEnv rootTable)) rootTable
    (fun s => (decide (s.conns 1).arena.Served, rulings (s.conns 1).trace, (s.conns 1).buf.rx,
      (given (s.conns 1)).length))
    wholeRoot (true, rootRulings, ascii "GET / HTTP/1.1\r\nHost: a\r\n\r\nFOO(", 3) (by decide +kernel)
  simp only [Prod.mk.injEq] at view view'
  obtain ⟨served, ruled, rx, count⟩ := view
  obtain ⟨served', ruled', rx', count'⟩ := view'
  have first : rootRulings[0]? = some (.dispatched (some (ascii "GET")) (some (ascii "/")) (some (ascii "/")) (some [])
      [(ascii "Host", ascii "a")] none) := rfl
  rw [← ruled] at first
  have first' : (rulings (s'.conns 1).trace)[0]? = _ := (congrArg (·[0]?) (ruled'.trans ruled.symm)).trans first
  exact ⟨s, s', hs, hs', count, count', _, _, first, first', same_bytes rfl
    requestParser_orderly hs hs' (of_decide_eq_true served) (of_decide_eq_true served')
    (rx.trans rx'.symm ▸ List.prefix_rfl) first first'⟩

end Server

end Cerco.TalkRuns
