import Cerco.TalkRuns

set_option autoImplicit false

/-!
# Requests and replies take turns

A monitor reads what happens on a connection. It lets a request come when none is open, and then takes
the response of that request, or one simple reply. Every run of plain steps passes it, and what the
worker pool holds of a connection is the request that the monitor waits for.
-/
namespace Cerco.ReplyTurns
open Cerco.Alloc Cerco.CString Cerco.Request Cerco.Response Cerco.Connection Cerco.Dispatch Cerco.HttpCallbacks
open Cerco.Server Cerco.WorkerPool Cerco.TransitionRuns Cerco.ConnFrames Cerco.ServerRules Cerco.Responders
open Cerco.SpanParser Cerco.SpanConsumers Cerco.ArenaUse Cerco.CloseFlags Cerco.Callbacks Cerco.BufferDiscipline
open Cerco.SentReplies Cerco.DispatchOutcome Cerco.RequestDrafts Cerco.DraftCallbacks Cerco.ConnTalks Cerco.TalkRuns
open Cerco.RequestGrammar

variable {σ : Type}

inductive Turn
  | fresh
  | asked (k : ℕ)
  | refused (code : ℕ)
  | answered
  | shut
deriving DecidableEq

/-- A request that was rejected gets its code, a connection too many gets 503, and both are the last. -/
def Turn.on : Turn → ConnEvent → Option Turn
  | t, .wrote ⟨.sse, _⟩ => some t
  | .fresh, .dispatched k _ => some (.asked k)
  | .answered, .dispatched k _ => some (.asked k)
  | .fresh, .rejected code => some (.refused code)
  | .answered, .rejected code => some (.refused code)
  | .asked k, .wrote ⟨.response j, _⟩ => if j = k then some .answered else none
  | .asked _, .wrote ⟨.simple, _⟩ => some .answered
  | .refused code, .wrote ⟨.simple, .reply w⟩ => if w.code = code then some .shut else none
  | .fresh, .wrote ⟨.simple, .reply w⟩ => if w.code = 503 then some .shut else none
  | _, _ => none

def turnsFrom (t : Turn) (evs : List ConnEvent) : Option Turn := evs.foldlM Turn.on t

def turns (trace : List ConnEvent) : Option Turn := turnsFrom .fresh trace

theorem turns_append {a b : List ConnEvent} {t : Turn} (h : turns a = some t) : turns (a ++ b) = turnsFrom t b := by
  unfold turns turnsFrom at *
  rw [List.foldlM_append, h]
  rfl

theorem turnsFrom_cons {t u : Turn} {ev : ConnEvent} (h : t.on ev = some u) (new : List ConnEvent) :
    turnsFrom t (ev :: new) = turnsFrom u new := by
  unfold turnsFrom
  rw [List.foldlM_cons, h]
  rfl

theorem turnsFrom_one {t u : Turn} {ev : ConnEvent} (h : t.on ev = some u) : turnsFrom t [ev] = some u :=
  turnsFrom_cons h []

def Turn.last : Turn → Bool
  | .refused _ => true
  | .shut => true
  | _ => false

def Turn.open_ : Turn → Bool
  | .asked _ => true
  | _ => false

/-- The connection closes, or says so and parses no more. -/
def Ended (c : Conn σ) : Prop :=
  c.closing = true ∨ closeFlag c = true ∧ (c.statusSent = true ∨ c.phase = .drain)

structure Turned (m : Multiset ReqRef) (c : Conn σ) (t : Turn) : Prop where
  turn : turns c.trace = some t
  mine : ∀ r ∈ m, t = .asked r.req
  due : t.open_ = true ↔ ¬ Clear c
  ended : t.last = true → Ended c

def InTurn (m : Multiset ReqRef) (c : Conn σ) : Prop := ∃ t, Turned m c t

def streams (new : List ConnEvent) : Prop := ∀ ev ∈ new, ∃ out, ev = .wrote ⟨.sse, out⟩

section Traces
variable {m m' : Multiset ReqRef} {c d : Conn σ} {t : Turn} {new : List ConnEvent} {k code : ℕ} {r : Req}

theorem streams_turns (h : streams new) (t : Turn) : turnsFrom t new = some t := by
  induction new with
  | nil => rfl
  | cons ev new ih =>
    obtain ⟨out, rfl⟩ := h ev List.mem_cons_self
    have passes : t.on (.wrote ⟨.sse, out⟩) = some t := by cases t <;> rfl
    rw [turnsFrom_cons passes]
    exact ih fun ev hev => h ev (List.mem_cons_of_mem _ hev)

theorem streams_mute (h : streams new) : Mute new := by
  induction new with
  | nil => exact ⟨rfl, fun _ => rfl⟩
  | cons ev new ih =>
    obtain ⟨out, rfl⟩ := h ev List.mem_cons_self
    obtain ⟨none_, unpaid⟩ := ih fun ev hev => h ev (List.mem_cons_of_mem _ hev)
    refine ⟨none_, fun due => ?_⟩
    rw [sentFrom, answers, List.countP_cons_of_neg Bool.false_ne_true]
    exact unpaid false

theorem clear_streams (h : streams new) (trace : d.trace = c.trace ++ new) : Clear d ↔ Clear c := by
  obtain ⟨none_, unpaid⟩ := streams_mute h
  unfold Clear sent
  rw [trace, dispatches_append, sentFrom_append, answers_append, none_, unpaid]
  rfl

theorem Turned.more (h : Turned m c t) (trace : d.trace = c.trace ++ new) (only : streams new)
    (less : ∀ r ∈ m', r ∈ m) (ended : Ended c → Ended d) : Turned m' d t where
  turn := by
    rw [trace, turns_append h.turn]
    exact streams_turns only t
  mine r hr := h.mine r (less r hr)
  due := h.due.trans (not_congr (clear_streams only trace)).symm
  ended last := ended (h.ended last)

theorem Turned.quiet (h : Turned m c t) (trace : d.trace = c.trace) (less : ∀ r ∈ m', r ∈ m)
    (ended : Ended c → Ended d) : Turned m' d t :=
  h.more (trace.trans (List.append_nil _).symm) (fun _ hev => absurd hev List.not_mem_nil) less ended

theorem clear_counts (paid : Paid m c) (clear : Clear c) : m = 0 ∧ dispatches c.trace = answers (sent c.trace) := by
  unfold Paid at paid
  unfold Clear at clear
  exact ⟨Multiset.card_eq_zero.mp (by omega), by omega⟩

theorem Turned.idle (h : Turned m c t) (clear : Clear c) (goes : ¬ Ended c) : t = .fresh ∨ t = .answered := by
  cases t with
  | fresh => exact .inl rfl
  | answered => exact .inr rfl
  | asked k => exact absurd clear (h.due.mp rfl)
  | refused code => exact absurd (h.ended rfl) goes
  | shut => exact absurd (h.ended rfl) goes

theorem idle_asks (idle : t = .fresh ∨ t = .answered) (k : ℕ) (r : Req) : t.on (.dispatched k r) = some (.asked k) := by
  obtain rfl | rfl := idle <;> rfl

theorem idle_refuses (idle : t = .fresh ∨ t = .answered) (code : ℕ) : t.on (.rejected code) = some (.refused code) := by
  obtain rfl | rfl := idle <;> rfl

theorem Turned.ask (h : Turned m c t) (paid : Paid m c) (clear : Clear c) (goes : ¬ Ended c)
    (trace : d.trace = c.trace ++ .dispatched k r :: new) (only : streams new) (job : ∀ r ∈ m', r.req = k) :
    Turned m' d (.asked k) where
  turn := by
    rw [trace, turns_append h.turn, turnsFrom_cons (idle_asks (h.idle clear goes) k r)]
    exact streams_turns only _
  mine r hr := by rw [job r hr]
  due := by
    obtain ⟨_, same⟩ := clear_counts paid clear
    obtain ⟨none_, unpaid⟩ := streams_mute only
    refine ⟨fun _ clear => ?_, fun _ => rfl⟩
    have one : dispatches (.dispatched k r :: new) = dispatches new + 1 := List.countP_cons_of_pos rfl
    unfold Clear sent at clear
    rw [trace, dispatches_append, sentFrom_append, answers_append, sentFrom, unpaid, one, none_] at clear
    unfold sent at same
    omega
  ended last := by cases last

theorem Turned.reply (h : Turned m c t) (clear : Clear c) (goes : ¬ Ended c) {w : WriteCtx}
    (trace : d.trace = c.trace ++ [.dispatched k r, .wrote w]) (kind : w.kind = .response k ∨ w.kind = .simple)
    (after : Paid m' d) : Turned m' d .answered := by
  have pays : answers (sentFrom true [.wrote w]) = 1 := by
    obtain ⟨_, out⟩ := w
    obtain rfl | rfl := kind <;> rfl
  have clear' : Clear d := by
    have one : dispatches [.dispatched k r, .wrote w] = 1 := rfl
    unfold Clear sent at *
    rw [trace, dispatches_append, sentFrom_append, answers_append, sentFrom, pays, one]
    omega
  refine ⟨?_, fun r hr => ?_, ⟨fun opens => ?_, fun owed => absurd clear' owed⟩, fun last => ?_⟩
  · rw [trace, turns_append h.turn, turnsFrom_cons (idle_asks (h.idle clear goes) k r)]
    refine turnsFrom_one ?_
    obtain ⟨_, out⟩ := w
    obtain rfl | rfl := kind
    · exact if_pos rfl
    · rfl
  · rw [(clear_counts after clear').1] at hr
    exact absurd hr (Multiset.notMem_zero r)
  · cases opens
  · cases last

theorem Turned.refuse (h : Turned m c t) (clear : Clear c) (goes : ¬ Ended c)
    (trace : d.trace = c.trace ++ .rejected code :: new)
    (replied : new = [] ∨ ∃ w : Reply, w.code = code ∧ new = [.wrote ⟨.simple, .reply w⟩]) (after : Paid m' d)
    (ended : Ended d) : InTurn m' d := by
  have unpaid : dispatches (.rejected code :: new) = 0 ∧ ∀ due, answers (sentFrom due (.rejected code :: new)) = 0 := by
    obtain rfl | ⟨w, _, rfl⟩ := replied <;> exact ⟨rfl, fun _ => rfl⟩
  have clear' : Clear d := by
    unfold Clear sent at *
    rw [trace, dispatches_append, sentFrom_append, answers_append, unpaid.1, unpaid.2]
    exact clear
  have none_ : ∀ r ∈ m', False := fun r hr => by
    rw [(clear_counts after clear').1] at hr
    exact absurd hr (Multiset.notMem_zero r)
  have first := idle_refuses (h.idle clear goes) code
  have turned {t : Turn} (turn : turnsFrom (.refused code) new = some t) (still : t.open_ = false) : Turned m' d t := by
    refine ⟨?_, fun r hr => (none_ r hr).elim, ⟨fun opens => ?_, fun owed => absurd clear' owed⟩, fun _ => ended⟩
    · rw [trace, turns_append h.turn, turnsFrom_cons first]
      exact turn
    · rw [still] at opens
      cases opens
  obtain rfl | ⟨w, same, rfl⟩ := replied
  · exact ⟨.refused code, turned rfl rfl⟩
  · exact ⟨.shut, turned (turnsFrom_one (if_pos same)) rfl⟩

end Traces

section Steps
variable {env : Env σ} {m : Multiset ReqRef} {c : Conn σ} {x y z : Ctx σ} {s : Srv σ} {i : ℕ} {t : Turn}

def Still (x y : Ctx σ) : Prop :=
  (y.id, y.srv.pool, y.c.trace) = (x.id, x.srv.pool, x.c.trace) ∧ (Ended x.c → Ended y.c)

theorem still_callbacks (env : Env σ) : QuietRules env (Still (σ := σ)) Still where
  refl _ := ⟨rfl, id⟩
  trans _ _ _ h₁ h₂ := ⟨h₂.1.trans h₁.1, h₂.2 ∘ h₁.2⟩
  whole _ _ h := h
  ends _ _ _ h₁ h₂ := ⟨h₂.1.trans h₁.1, h₂.2 ∘ h₁.2⟩
  buffer _ _ _ _ := ⟨rfl, id⟩
  receive _ _ := ⟨rfl, id⟩
  rearm x _ open_ goes := ⟨rfl, fun ended => by
    obtain closing | ⟨flag, _⟩ := ended
    · rw [open_] at closing
      cases closing
    · rw [goes] at flag
      cases flag⟩
  restart x _ open_ goes := ⟨rfl, fun ended => by
    obtain closing | ⟨flag, _⟩ := ended
    · rw [open_] at closing
      cases closing
    · rw [goes] at flag
      cases flag⟩
  shed _ _ closing := ⟨rfl, fun _ => .inl closing⟩
  cancel x _ := by
    obtain ⟨o, ho⟩ := cancelReq_objs x.c
    rw [ho]
    exact ⟨rfl, fun ended => ended.imp_right fun h => ⟨rfl, h.2⟩⟩
  close x hl := by
    refine ⟨?_, fun _ => .inl (connCloseAndFree_closes hl)⟩
    rw [(connCloseAndFree_kept hl).id, connCloseAndFree_pool hl, connCloseAndFree_trace]
  graceful x _ flag := by
    unfold connCloseGraceful
    split
    · exact ⟨rfl, id⟩
    · exact ⟨rfl, fun _ => .inr ⟨flag, .inr rfl⟩⟩

theorem Turned.still (h : Turned m x.c t) (still : Still x y) : Turned m y.c t := by
  have same := still.1
  simp only [Prod.mk.injEq] at same
  exact h.quiet same.2.2 (fun _ => id) still.2

theorem freshConn_turned (env : Env σ) (i now : ℕ) : Turned 0 (freshConn env i now) .fresh where
  turn := rfl
  mine r hr := absurd hr (Multiset.notMem_zero r)
  due := ⟨fun h => absurd h Bool.false_ne_true, fun owed => absurd (Nat.zero_le _) owed⟩
  ended last := by cases last

theorem connSendSimple_last (hl : Linked x.c) (env : Env σ) (code : ℕ) (hdr : Option Bytes) (body : Bytes) :
    ∃ new, (connSendSimple env x code hdr body true).c.trace = x.c.trace ++ new ∧
      (new = [] ∨ ∃ w : Reply, w.code = code ∧ new = [.wrote ⟨.simple, .reply w⟩]) ∧
      Ended (connSendSimple env x code hdr body true).c := by
  obtain e | ⟨srv, st, res, rfl, e⟩ := connSendSimple_cases env x code hdr body true
  · rw [e]
    refine ⟨[], ?_, .inl rfl, .inl (connCloseAndFree_closes (x := countWrite x) hl)⟩
    rw [connCloseAndFree_trace, List.append_nil]
    rfl
  · rw [e]
    have linked : Linked { x.c with keepAlive := !true, forceClose := true, statusSent := true } := hl.of_eq rfl
    obtain took | closing := uvWrite_takes (x := { x with
        srv := { x.srv with stats := st, writeCalls := x.srv.writeCalls + 1 }
        c := { x.c with keepAlive := !true, forceClose := true, statusSent := true } }) linked res
        ⟨.simple, .reply (simpleReply code hdr body true)⟩
    · rw [took]
      exact ⟨_, rfl, .inr ⟨_, rfl, rfl⟩, .inr ⟨rfl, .inl rfl⟩⟩
    · obtain ⟨new, fits, trace⟩ := uvWrite_trace { x with
        srv := { x.srv with stats := st, writeCalls := x.srv.writeCalls + 1 }
        c := { x.c with keepAlive := !true, forceClose := true, statusSent := true } } res
        ⟨.simple, .reply (simpleReply code hdr body true)⟩
      exact ⟨new, trace, fits.imp id fun e => ⟨_, rfl, e⟩, .inl closing⟩

theorem busy_turned (env : Env σ) {now : ℕ} (hx : x.c = freshConn env x.id now) :
    InTurn 0 (connSendSimple env x 503 none (ascii "server busy\n") true).c := by
  have linked : Linked x.c := hx ▸ freshConn_linked env x.id now
  obtain ⟨new, trace, replied, ended⟩ := connSendSimple_last linked env 503 none (ascii "server busy\n")
  have clear := (paid_rules env).busy x now hx
  generalize connSendSimple env x 503 none (ascii "server busy\n") true = y at *
  rw [show x.c.trace = [] from congrArg Conn.trace hx, List.nil_append] at trace
  obtain rfl | ⟨w, code, rfl⟩ := replied
  · exact ⟨.fresh, (freshConn_turned env x.id now).quiet trace (fun _ => id) fun _ => ended⟩
  · refine ⟨.shut, ?_, fun r hr => absurd hr (Multiset.notMem_zero r), ⟨fun h => absurd h Bool.false_ne_true, fun owed => ?_⟩,
      fun _ => ended⟩
    · rw [trace]
      exact turnsFrom_one (if_pos code)
    · refine absurd ?_ owed
      unfold Clear
      rw [trace]
      exact Nat.zero_le _

theorem withJob_job {C : ℕ} (wired : Wired C x.srv.pool) (room : hasRoom x = true) (k : ℕ) {r : ReqRef}
    (hr : r ∈ mine (withJob x k) x.id) : r ∈ mine x.srv.pool x.id ∨ r.req = k := by
  let ref : ReqRef := ⟨x.id, k, x.c.arena.epoch⟩
  have taken : (wpoolTrySubmit x.srv.pool.pool ref).2 = true := (wpoolSubmit_room x k).trans room
  have job : withJob x k = submitStep x.srv.pool ref := (submitStep_room x.srv.pool ref taken).symm
  obtain ⟨_, more⟩ | ⟨refused, _⟩ := submitStep_mine wired ref
  · rw [job, mine, more, Multiset.filter_add, Multiset.mem_add] at hr
    refine hr.imp id fun new => ?_
    rw [Multiset.mem_singleton.mp (Multiset.mem_of_mem_filter new)]
  · rw [taken] at refused
    cases refused

theorem ends_turned {C k : ℕ} {r : Req} {o : Outcome} (ends : Ends env k z y o) (wired : Wired C z.srv.pool)
    (empty : mine z.srv.pool z.id = 0) (trace : z.c.trace = x.c.trace ++ [.dispatched k r]) (h : Turned m x.c t)
    (paid : Paid m x.c) (clear : Clear x.c) (goes : ¬ Ended x.c) {m' : Multiset ReqRef}
    (pool : m' = mine y.srv.pool z.id) (after : Paid m' y.c) : InTurn m' y.c := by
  have more {new : List ConnEvent} (left : y.c.trace = z.c.trace ++ new) :
      y.c.trace = x.c.trace ++ .dispatched k r :: new := by
    rw [left, trace, List.append_assoc]
    rfl
  have waits {new : List ConnEvent} (left : y.c.trace = z.c.trace ++ new) (only : streams new)
      (same : y.srv.pool = z.srv.pool) : InTurn m' y.c := by
    refine ⟨.asked k, h.ask paid clear goes (more left) only fun r hr => ?_⟩
    rw [pool, same, empty] at hr
    exact absurd hr (Multiset.notMem_zero r)
  cases ends with
  | submitted room marks =>
    have left : y.c.trace = z.c.trace ++ [] := (congrArg Marks.trace marks).trans (List.append_nil _).symm
    refine ⟨.asked k, h.ask paid clear goes (more left) (fun ev hev => absurd hev List.not_mem_nil) fun r hr => ?_⟩
    rw [pool, show y.srv.pool = _ from congrArg Marks.pool marks] at hr
    obtain old | new := withJob_job wired room k hr
    · rw [empty] at old
      exact absurd old (Multiset.notMem_zero r)
    · exact new
  | responded w kind _ marks =>
    exact ⟨.answered, h.reply clear goes (more (congrArg Marks.trace marks)) kind after⟩
  | streamed _ _ _ marks =>
    refine waits (congrArg Marks.trace marks) (fun ev hev => ?_) (congrArg Marks.pool marks)
    obtain rfl | new := List.mem_cons.mp hev
    · exact ⟨_, rfl⟩
    · exact ⟨_, List.mem_singleton.mp new⟩
  | refused _ marks =>
    refine waits ((congrArg Marks.trace marks).trans (List.append_nil _).symm)
      (fun ev hev => absurd hev List.not_mem_nil) (congrArg Marks.pool marks)
  | cut _ _ marks =>
    refine waits (congrArg Marks.trace marks) (fun ev hev => ?_) (congrArg Marks.pool marks)
    exact ⟨_, List.mem_singleton.mp hev⟩

theorem ready_turned {C : ℕ} (ready : Ready env x) (orderly : Orderly env.llhttp) (open_ : x.c.closing = false)
    (served : (readFrom env x).c.arena.Served) (wired : Wired C x.srv.pool)
    (paid : Paid (mine x.srv.pool x.id) x.c) (after : Paid (mine (readFrom env x).srv.pool x.id) (readFrom env x).c)
    (h : Turned (mine x.srv.pool x.id) x.c t) :
    InTurn (mine (readFrom env x).srv.pool x.id) (readFrom env x).c := by
  have empty := (clear_counts paid ready.clear).1
  have goes : ¬ Ended x.c := by
    rintro (closing | ⟨_, sent | drained⟩)
    · rw [open_] at closing
      cases closing
    · rw [ready.owing.unsent] at sent
      cases sent
    · exact ready.owing.phase drained
  have reads := ready.reads orderly served
  generalize readFrom env x = out at reads after ⊢
  cases reads with
  | taken y hu drafted steady =>
    have same := steady.same
    simp only [Prod.mk.injEq] at same
    have trace : y.c.trace = x.c.trace := same.1
    have clear : Clear (setConsumed (parsedOn env x y) x.c.buf.mem y.c.buf.filled).c := by
      have clear := ready.clear
      unfold Clear at *
      change dispatches y.c.trace ≤ answers (sent y.c.trace)
      rw [trace]
      exact clear
    refine ⟨t, h.quiet trace (fun r hr => ?_) fun ended => absurd ended goes⟩
    rw [(clear_counts after clear).1] at hr
    exact absurd hr (Multiset.notMem_zero r)
  | dispatched k z hv handed place going done =>
    obtain ⟨same, pool⟩ := Prod.mk.inj place
    obtain ⟨o, ends⟩ := answer_ends (dispatchReq_answer env z k)
    have trace : z.c.trace = x.c.trace ++ _ := handed.trace
    obtain ⟨t, turned⟩ : InTurn (mine (dispatchReq env z k).srv.pool x.id) (dispatchReq env z k).c :=
      ends_turned ends (pool.symm ▸ wired) (by rw [pool, same, empty]) trace h paid ready.clear goes (by rw [same]) after
    exact ⟨t, turned.quiet rfl (fun _ => id) id⟩
  | rejected y reason linked hv same =>
    simp only [Prod.mk.injEq] at same
    obtain ⟨new, trace, replied, ended⟩ := connSendSimple_last (x := { setConsumed y x.c.buf.mem (errorOffset y.c) with
      c := { (setConsumed y x.c.buf.mem (errorOffset y.c)).c with
        forceClose := true
        trace := (setConsumed y x.c.buf.mem (errorOffset y.c)).c.trace ++ [.rejected (answerCode y.c)] } })
      (linked.of_eq rfl) env (answerCode y.c) none reason
    refine h.refuse ready.clear goes (trace.trans ?_) replied after ended
    change (y.c.trace ++ [_]) ++ new = _
    rw [same.1, List.append_assoc]
    rfl

theorem read_turned {room : ℕ} {data : Bytes} (orderly : Orderly env.llhttp)
    (wired : Wired env.cfg.workQueue s.pool) (hl : Linked (s.conns i))
    (plain : ∀ y ∈ parsing env s (.read i data), Plain env y) (told : Told env (s.conns i))
    (reading : (s.conns i).reading = true) (hx : connAllocCb env (s.enter i) = (some room, x)) (some_ : data ≠ [])
    (served : (connOnRead env x data).c.arena.Served) (paid : Paid (mine s.pool i) (s.conns i))
    (after : Paid (mine (connOnRead env x data).srv.pool i) (connOnRead env x data).c)
    (h : Turned (mine s.pool i) (s.conns i) t) :
    InTurn (mine (connOnRead env x data).srv.pool i) (connOnRead env x data).c := by
  obtain ⟨_, still⟩ | ⟨parses, still, drained, linked⟩ := (still_callbacks env).read data hl hx
  · have same := still.1
    simp only [Prod.mk.injEq] at same
    have turned := Turned.still (x := s.enter i) h still
    rw [same.2.1]
    exact ⟨t, turned⟩
  · have same := still.1
    simp only [Prod.mk.injEq] at same
    obtain ⟨place, pool, _⟩ := same
    have place : (received x data).id = i := place
    have pool : (received x data).srv.pool = s.pool := pool
    have plain : Plain env (received x data) := plain _ parses
    obtain ⟨b, hb, _⟩ := received_buf (x := s.enter i) hx data
    have unsent : (s.conns i).statusSent = false ∧ (s.conns i).phase ≠ .drain := by
      rw [hb, Bool.or_eq_false_iff, decide_eq_false_iff_not] at drained
      exact drained
    have open_ : (s.conns i).closing = false := hl.reading reading
    have runs : (s.conns i).parser.error = .ok := by
      have running := plain.running
      rw [hb] at running
      exact running
    have turned := Turned.still (x := s.enter i) h still
    cases told.stands open_ with
    | reading owing clear running consumed holds =>
      have ready := received_ready hl plain told hx some_ owing clear consumed holds
      have before : Paid (mine s.pool i) (received x data).c := by
        rw [hb]
        exact paid.of_trace rfl
      have goes := ready_turned (C := env.cfg.workQueue) (t := t) ready orderly (by rw [hb]; exact open_) served
        (pool ▸ wired) (by rw [pool, place]; exact before) (by rw [place]; exact after)
        (by rw [pool, place]; exact turned)
      rw [place] at goes
      exact goes
    | working owing paused _ =>
      rw [runs] at paused
      cases paused
    | responding answer paused _ =>
      rw [runs] at paused
      cases paused
    | answered answer _ =>
      have sent := answer.sent
      rw [unsent.1] at sent
      cases sent
    | draining phase _ _ => exact absurd phase unsent.2

theorem written_turned {w : WriteCtx} {rest : List WriteCtx} (ok : Bool) (hl : Linked (s.conns i))
    (told : Told env (s.conns i)) (hw : (s.conns i).writes = w :: rest) (h : Turned (mine s.pool i) (s.conns i) t) :
    Turned (mine (onWritten env (s.enter i) w.kind ok).srv.pool i) (onWritten env (s.enter i) w.kind ok).c t := by
  obtain ⟨place, popped_⟩ := reported_same (s.enter i) w.kind
  obtain ⟨_, still⟩ | ⟨z, parses, _, _, rfl, open_, goes, left, _⟩ := (still_callbacks env).written ok hl hw
  · have same := still.1
    simp only [Prod.mk.injEq] at same place
    have before : Turned (mine s.pool i) (reported (s.enter i) w.kind).c t := by
      rw [popped_]
      exact h.quiet rfl (fun _ => id) id
    have turned := before.still still
    rw [same.2.1, place.2]
    exact turned
  · refine absurd left ?_
    obtain ⟨kind, out⟩ := w
    cases kind with
    | sse => cases ok <;> simp [parsing, hw] at parses
    | simple => cases ok <;> simp [parsing, hw] at parses
    | response k =>
      obtain ⟨_, _, goes'⟩ := answer_stands (told.stands open_) hw WriteKind.noConfusion
      obtain ⟨_, ⟨other, _⟩ | ⟨_, rested⟩⟩ := goes' goes
      · cases other
      · have empty := compact_taken rested.buf
        simp only [Prod.mk.injEq] at empty
        have filled : (rearmed env (countAnswered (popped (s.enter i)))).c.buf.filled =
          (compact (s.conns i).buf).filled := rfl
        rw [filled, empty.2.1]
        exact Nat.lt_irrefl 0

theorem Turned.respond {m' : Multiset ReqRef} {d : Conn σ} {k : ℕ} {out : Out} (h : Turned m c (.asked k))
    (owing : dispatches c.trace ≤ answers (sent c.trace) + 1) (trace : d.trace = c.trace ++ [.wrote ⟨.response k, out⟩])
    (after : Paid m' d) : Turned m' d .answered := by
  have clear : Clear d := by
    unfold Clear sent at *
    rw [trace, dispatches_append, sentFrom_append, answers_append]
    exact owing
  refine ⟨?_, fun r hr => ?_, ⟨fun opens => absurd opens Bool.false_ne_true, fun owed => absurd clear owed⟩,
    fun last => absurd last Bool.false_ne_true⟩
  · rw [trace, turns_append h.turn]
    exact turnsFrom_one (if_pos rfl)
  · rw [(clear_counts after clear).1] at hr
    exact absurd hr (Multiset.notMem_zero r)

theorem drain_turned {ref : ReqRef} (hl : Linked x.c) (told : Told env x.c) (after : Paid m (drainReq env x ref.req).c) (h : Turned ({ref} + m) x.c t) :
    InTurn m (drainReq env x ref.req).c := by
  have fewer : ∀ r ∈ m, r ∈ ({ref} + m : Multiset ReqRef) := fun r hr => Multiset.mem_add.mpr (.inr hr)
  obtain rfl := h.mine ref (Multiset.mem_add.mpr (.inl (Multiset.mem_singleton_self _)))
  have owed : ¬ Clear x.c := h.due.mp rfl
  obtain ⟨_, st, e⟩ | ⟨open_, y, prep, e⟩ := drainReq_cases hl env ref.req <;> rw [e] at after ⊢
  · exact ⟨_, h.quiet rfl fewer id⟩
  · have linked := (prepared_kept prep hl).linked
    obtain ⟨a, o, st, _, rfl⟩ := prep
    obtain ⟨srv, st', res, w, rfl, e⟩ := connStartResponse_cases env
      { x with srv := { x.srv with stats := st }, c := { x.c with arena := a, objs := o } } ref.req
    have owing : Owing x.c := by
      cases told.stands open_ with
      | working owing => exact owing
      | reading _ clear => exact absurd clear owed
      | responding answer => exact absurd answer.clear owed
      | answered answer => exact absurd answer.clear owed
      | draining _ clear => exact absurd clear owed
    rw [e] at after ⊢
    unfold uvWrite at after ⊢
    by_cases written : res = .ok
    · rw [if_pos written] at after ⊢
      exact ⟨.answered, h.respond owing.owing rfl after⟩
    · rw [if_neg written] at after ⊢
      refine ⟨_, h.quiet (connCloseAndFree_trace _) fewer fun _ => .inl (connCloseAndFree_closes ?_)⟩
      exact ⟨hl.queued, hl.closeCb, hl.finalized, hl.reading, hl.writes, by simp⟩

theorem reload_turned (hl : Linked x.c) (h : Turned m x.c t) : Turned m (reloadConn env x).c t := by
  unfold reloadConn
  split
  · exact h
  · unfold connSseWrite
    dsimp only
    split
    · exact h.quiet (connCloseAndFree_trace _) (fun _ => id) fun _ =>
        .inl (connCloseAndFree_closes (x := countWrite x) hl)
    · unfold uvWrite
      split
      · refine h.more rfl (fun ev hev => ?_) (fun _ => id) id
        exact ⟨_, List.mem_singleton.mp hev⟩
      · exact h.quiet (connCloseAndFree_trace _) (fun _ => id) fun _ =>
          .inl (connCloseAndFree_closes (x := countWrite x) hl)

theorem turned_rules (orderly : Orderly env.llhttp) : ConnRules env (plainStep env) fun m c =>
    (Paid m c ∧ (c.arena.Served → Told env c)) ∧ (c.arena.Served → InTurn m c) where
  fresh i now := ⟨(told_rules orderly).fresh i now, fun _ => ⟨_, freshConn_turned env i now⟩⟩
  accept i now := ⟨(told_rules orderly).accept i now, fun _ =>
    ⟨_, (freshConn_turned env i now).quiet rfl (fun _ => id) id⟩⟩
  busy x now hx := ⟨(told_rules orderly).busy x now hx, fun _ => busy_turned env hx⟩
  read s i data room x ok wired hl h reading hx some_ fits := by
    have told := (told_rules orderly).read s i data room x ok wired hl h.1 reading hx some_ fits
    refine ⟨told, fun served => ?_⟩
    have before : (s.conns i).arena.Served := (served_callbacks env).onRead hl hx (fun _ _ => trivial) served
    obtain ⟨t, turned⟩ := h.2 before
    exact read_turned orderly wired hl ok.2 (h.1.2 before) reading hx some_ served h.1.1 told.1 turned
  readEnd m x hl h reading := by
    refine ⟨(told_rules orderly).readEnd m x hl h.1 reading, fun served => ?_⟩
    obtain ⟨t, turned⟩ := h.2 ((served_callbacks env).readEnd hl served)
    exact ⟨t, turned.still ((still_callbacks env).readEnd hl)⟩
  written s i b w rest ok wired hl h hw := by
    refine ⟨(told_rules orderly).written s i b w rest ok wired hl h.1 hw, fun served => ?_⟩
    have before := (served_callbacks env).onWrite b hl hw (fun _ _ => trivial) served
    rw [(reported_same (s.enter i) w.kind).2] at before
    obtain ⟨t, turned⟩ := h.2 before
    exact ⟨t, written_turned b hl (h.1.2 before) hw turned⟩
  closed s i ok hl h hq hd hw := by
    refine ⟨(told_rules orderly).closed s i ok hl h.1 hq hd hw, fun served => ?_⟩
    obtain ⟨t, turned⟩ := h.2 (closed_served hl hq hd hw served)
    have closing : (s.conns i).closing = true := by rw [← hl.queued, hq]
    have same := connFinalize_marks { s.enter i with c := { (s.enter i).c with closeCbDone := true } }
    rw [connOnStreamClosed_eq (x := s.enter i) hl hq hd hw]
    exact ⟨t, turned.quiet (congrArg Marks.trace same) (fun _ => id) fun _ =>
      .inl ((congrArg Marks.closing same).trans closing)⟩
  deadline m x hl h := by
    refine ⟨(told_rules orderly).deadline m x hl h.1, fun served => ?_⟩
    obtain ⟨t, turned⟩ := h.2 ((served_callbacks env).deadline hl served)
    exact ⟨t, turned.still ((still_callbacks env).deadline hl)⟩
  shutdown m x hl h := by
    refine ⟨(told_rules orderly).shutdown m x hl h.1, fun served => ?_⟩
    obtain ⟨t, turned⟩ := h.2 ((served_callbacks env).shutdown hl served)
    exact ⟨t, turned.still ((still_callbacks env).shutdown hl)⟩
  reload m x hl h := by
    refine ⟨(told_rules orderly).reload m x hl h.1, fun served => ?_⟩
    obtain ⟨t, turned⟩ := h.2 ((reloadConn_kept hl env).1.arena.served served)
    exact ⟨t, reload_turned hl turned⟩
  handler m x k calls hl h := by
    refine ⟨(told_rules orderly).handler m x k calls hl h.1, fun served => ?_⟩
    obtain ⟨t, turned⟩ := h.2 ((withReq_kept hl k (handlerRun_allocs calls)).arena.served served)
    exact ⟨t, turned.quiet rfl (fun _ => id) id⟩
  finish := .inl fun s w calls ok => ok.1
  drain m ref x hl h := by
    have told := (told_rules orderly).drain m ref x hl h.1
    refine ⟨told, fun served => ?_⟩
    have before := (drainReq_kept hl env ref.req).1.arena.served served
    obtain ⟨t, turned⟩ := h.2 before
    exact drain_turned hl (h.1.2 before) told.1 turned

end Steps

section Server
variable {env : Env σ}

/-- On every connection requests and replies take turns: a request is answered once, by its own response or a
simple one, before the next one is dispatched. A rejected request gets its code, and nothing comes behind it.
What the pool holds of the connection is the request that waits. -/
theorem replies_in_turn (orderly : Orderly env.llhttp) {s : Srv σ} (h : Reach (server env) (plainStep env) s) {i : ℕ}
    (served : (s.conns i).arena.Served) : ∃ t, turns (s.conns i).trace = some t ∧
      (∀ r ∈ mine s.pool i, t = .asked r.req) ∧ (t.last = true → Ended (s.conns i)) := by
  obtain ⟨t, turned⟩ := (((turned_rules orderly).reach h).each i).2 served
  exact ⟨t, turned.turn, turned.mine, turned.ended⟩

theorem replies_in_turn_root : ∃ s, Reach (server (stockEnv rootTable)) (plainStep (stockEnv rootTable)) s ∧
    turns (s.conns 0).trace = some .shut ∧ ∃ t, turns (s.conns 0).trace = some t ∧
      (∀ r ∈ mine s.pool 0, t = .asked r.req) ∧ (t.last = true → Ended (s.conns 0)) := by
  obtain ⟨s, hs, view⟩ := stock_reach_while (plainStep (stockEnv rootTable)) rootTable
    (fun s => (decide (s.conns 0).arena.Served, turns (s.conns 0).trace)) cutRoot (true, some .shut)
    (by decide +kernel)
  obtain ⟨served, turn⟩ := Prod.mk.inj view
  exact ⟨s, hs, turn, replies_in_turn requestParser_orderly hs (of_decide_eq_true served)⟩

end Server

end Cerco.ReplyTurns
