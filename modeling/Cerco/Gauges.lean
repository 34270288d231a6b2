import Cerco.SentReplies
import Mathlib.Algebra.Order.BigOperators.Group.Finset

set_option autoImplicit false

/-!
# The gauge of active requests and the counters of responses

What the statistics should be is read off the traces of all connections: a request is
outstanding from its dispatch until its answer was reported or its connection torn down,
and an answer is started when it is queued. The statistics agree in the runs that stay
away from what the writers count wrong.
-/
namespace Cerco.Gauges
open Cerco.Alloc Cerco.CString Cerco.Request Cerco.Response Cerco.Connection Cerco.Dispatch
open Cerco.HttpCallbacks Cerco.Server Cerco.WorkerPool Cerco.TransitionRuns Cerco.ConnFrames
open Cerco.ServerRules Cerco.CloseFlags Cerco.Books Cerco.BookSteps Cerco.Callbacks Cerco.RejectCodes
open Cerco.DispatchOutcome Cerco.SentReplies Cerco.ShutdownDrain Cerco.RequestGrammar

variable {σ : Type}

/-- The dispatched requests whose answer was written and reported. -/
def answered (c : Conn σ) : ℕ := answers ((sent c.trace).take ((sent c.trace).length - c.writes.length))

/-- The dispatched requests that are neither answered nor dropped with their connection. -/
def outstanding (c : Conn σ) : ℕ := if c.finalized then 0 else dispatches c.trace - answered c

def started (cls : CodeClass) (c : Conn σ) : ℕ := (c.trace.filterMap replyClass).count cls

def total (f : Conn σ → ℕ) (s : Srv σ) : ℤ := ∑ i ∈ Finset.range s.nextConn, (f (s.conns i) : ℤ)

/-- The statistics are what there is to count, and no request is answered that was not dispatched. -/
structure Exact (s : Srv σ) : Prop where
  reqs : s.stats.activeReqs = total outstanding s
  responses : ∀ cls, Books.responses s.stats cls = total (started cls) s
  answered : ∀ i, answered (s.conns i) ≤ dispatches (s.conns i).trace

section Totals
variable {s t : Srv σ} {i : ℕ} {y : Ctx σ}

theorem total_put (f : Conn σ → ℕ) (born : i < s.nextConn) (stays : Stays (s.enter i) y) :
    total f y.done + f (s.conns i) = total f s + f y.c := by
  have mem : i ∈ Finset.range s.nextConn := Finset.mem_range.mpr born
  have conns (j : ℕ) : y.done.conns j = if j = i then y.c else s.conns j := stays.done_conns j
  have next : y.done.nextConn = s.nextConn := stays.nextConn
  have rest : ∑ j ∈ (Finset.range s.nextConn).erase i, (f (y.done.conns j) : ℤ) =
      ∑ j ∈ (Finset.range s.nextConn).erase i, (f (s.conns j) : ℤ) :=
    Finset.sum_congr rfl fun j hj => by rw [conns, if_neg (Finset.ne_of_mem_erase hj)]
  have after := Finset.add_sum_erase (Finset.range s.nextConn) (fun j => (f (y.done.conns j) : ℤ)) mem
  have before := Finset.add_sum_erase (Finset.range s.nextConn) (fun j => (f (s.conns j) : ℤ)) mem
  rw [rest, conns, if_pos rfl] at after
  unfold total
  rw [next, ← after, ← before]
  omega

theorem total_same {f : Conn σ → ℕ} (next : t.nextConn = s.nextConn)
    (same : ∀ j, f (t.conns j) = f (s.conns j)) : total f t = total f s := by
  unfold total
  rw [next]
  exact Finset.sum_congr rfl fun j _ => by rw [same]

theorem total_born {f : Conn σ → ℕ} (next : t.nextConn = s.nextConn + 1)
    (others : ∀ j, j ≠ s.nextConn → t.conns j = s.conns j) (none : f (t.conns s.nextConn) = 0) :
    total f t = total f s := by
  unfold total
  rw [next, Finset.sum_range_succ, none, Nat.cast_zero, add_zero]
  exact Finset.sum_congr rfl fun j hj => by rw [others j (Finset.mem_range.mp hj).ne]

end Totals

structure Tied (x y : Ctx σ) : Prop where
  reqs : y.srv.stats.activeReqs + outstanding x.c = x.srv.stats.activeReqs + outstanding y.c
  responses : ∀ cls, Books.responses y.srv.stats cls + started cls x.c =
    Books.responses x.srv.stats cls + started cls y.c

section Tied
variable {x y : Ctx σ} {new : List ConnEvent} {refused : List CodeClass} {orphans : ℕ}

theorem posts_answered (posts : Posts x y new refused orphans) (queued : Queued x.c) :
    answered y.c = answered x.c := by
  obtain ⟨done, queue⟩ := queued
  have length : (sent x.c.trace).length = done.length + x.c.writes.length := by
    have h := congrArg List.length queue
    rwa [List.length_map, List.length_append] at h
  have more := congrArg List.length (sentFrom_writes (dueAfter false x.c.trace) new)
  rw [List.length_map] at more
  unfold answered sent at *
  rw [posts.trace, posts.writes, sentFrom_append, List.length_append, List.length_append, more, length]
  rw [show done.length + x.c.writes.length + (new.filterMap writeOf).length -
      (x.c.writes.length + (new.filterMap writeOf).length) = done.length by omega,
    show done.length + x.c.writes.length - x.c.writes.length = done.length by omega,
    List.take_append_of_le_length (by omega)]

theorem fair_tallied (fair : ∀ ev ∈ new, Fair ev) : new.filterMap tallied = new.filterMap replyClass :=
  List.filterMap_congr fun ev hev => (fair ev hev).1

theorem fair_streams (fair : ∀ ev ∈ new, Fair ev) : new.countP isStream = 0 :=
  List.countP_eq_zero.mpr fun ev hev => by
    rw [(fair ev hev).2]
    decide

theorem posts_tied (posts : Posts x y new [] 0) (fair : ∀ ev ∈ new, Fair ev) (queued : Queued x.c)
    (paid : answered x.c ≤ dispatches x.c.trace) (live : y.c.finalized = x.c.finalized)
    (ended : x.c.finalized = true → dispatches new = 0) : Tied x y := by
  have same := posts_answered posts queued
  refine ⟨?_, fun cls => ?_⟩
  · have reqs := posts.reqs
    rw [fair_streams fair] at reqs
    unfold outstanding
    rw [same, live, posts.trace, dispatches_append]
    change _ = _ + ((dispatches new : ℕ) : ℤ) + _ at reqs
    split
    · rename_i finalized
      rw [ended finalized] at reqs
      push_cast at reqs
      omega
    · push_cast at reqs
      omega
  · have counts := posts.counts cls
    unfold started
    rw [posts.trace, List.filterMap_append, List.count_append, ← fair_tallied fair]
    rw [List.count_nil] at counts
    push_cast at counts ⊢
    omega

theorem Tied.trans {z : Ctx σ} (h₁ : Tied x y) (h₂ : Tied y z) : Tied x z := by
  refine ⟨?_, fun cls => ?_⟩
  · have r₁ := h₁.reqs
    have r₂ := h₂.reqs
    omega
  · have c₁ := h₁.responses cls
    have c₂ := h₂.responses cls
    omega

end Tied

section Calm
variable {env : Env σ} {x y : Ctx σ} {new : List ConnEvent}

theorem quiet_callbacks (env : Env σ) : QuietRules env
    (fun x y => Posts x y [] [] 0 ∧ y.c.finalized = x.c.finalized)
    (fun x y => Posts x y [] [] 0 ∧ y.c.finalized = x.c.finalized) where
  refl _ := ⟨.silent rfl rfl (.refl _), rfl⟩
  trans _ _ _ h₁ h₂ := ⟨h₁.1.trans h₂.1, h₂.2.trans h₁.2⟩
  whole _ _ h := h
  ends _ _ _ h₁ h₂ := ⟨h₁.1.trans h₂.1, h₂.2.trans h₁.2⟩
  buffer _ _ _ _ := ⟨.silent rfl rfl (.refl _), rfl⟩
  receive _ _ := ⟨.silent rfl rfl ⟨rfl, rfl, fun _ => rfl⟩, rfl⟩
  rearm _ _ _ _ := ⟨.silent rfl rfl (.refl _), rfl⟩
  restart _ _ _ _ := ⟨.silent rfl rfl (.refl _), rfl⟩
  shed _ _ _ := ⟨.silent rfl rfl (.refl _), rfl⟩
  cancel x _ := by
    obtain ⟨o, ho⟩ := cancelReq_objs x.c
    rw [ho]
    exact ⟨.silent rfl rfl (.refl _), rfl⟩
  close _ hl := ⟨connCloseAndFree_posts hl, (connCloseAndFree_kept hl).finalized⟩
  graceful x _ _ := by
    unfold connCloseGraceful
    split
    · exact ⟨.silent rfl rfl (.refl _), rfl⟩
    · exact ⟨.silent rfl rfl (.refl _), rfl⟩

def Chunks (new : List ConnEvent) : Prop := ∀ ev ∈ new, ∃ b, ev = .wrote ⟨.sse, .raw b⟩

theorem reloadConn_posts (hl : Linked x.c) (env : Env σ) :
    ∃ new, Chunks new ∧ Posts x (reloadConn env x) new [] 0 := by
  have nothing : Chunks [] := fun _ h => (by cases h)
  have counted := (countWrite_answering x).posts
  unfold reloadConn connSseWrite
  split
  · exact ⟨[], nothing, .silent rfl rfl (.refl _)⟩
  · dsimp only
    split
    · exact ⟨[], nothing, counted.trans (connCloseAndFree_posts (x := countWrite x) hl)⟩
    · generalize writeRes env x = res
      unfold uvWrite
      split
      · refine ⟨[.wrote ⟨.sse, .raw _⟩], fun ev hev => ⟨_, List.mem_singleton.mp hev⟩, ⟨rfl, rfl, rfl, ?_, ?_⟩⟩
        · simp [countWrite, isStream, isDispatch]
        · intro cls
          have mute (b : Bytes) : [ConnEvent.wrote ⟨.sse, .raw b⟩].filterMap tallied = [] := rfl
          rw [mute]
          simp [countWrite]
      · exact ⟨[], nothing, counted.trans (connCloseAndFree_posts (x := countWrite x) hl)⟩

structure Calm (x y : Ctx σ) : Prop where
  same : SameBooks x.srv.stats y.srv.stats
  outstanding : outstanding y.c = outstanding x.c
  started : ∀ cls, started cls y.c = started cls x.c

theorem posts_calm (posts : Posts x y new [] 0) (chunks : Chunks new) (queued : Queued x.c)
    (live : y.c.finalized = x.c.finalized) : Calm x y := by
  have dispatched : new.countP isDispatch = 0 := List.countP_eq_zero.mpr fun ev hev => by
    obtain ⟨b, rfl⟩ := chunks ev hev
    exact Bool.false_ne_true
  have streams : new.countP isStream = 0 := List.countP_eq_zero.mpr fun ev hev => by
    obtain ⟨b, rfl⟩ := chunks ev hev
    exact Bool.false_ne_true
  have untallied : new.filterMap tallied = [] := List.filterMap_eq_nil_iff.mpr fun ev hev => by
    obtain ⟨b, rfl⟩ := chunks ev hev
    rfl
  have unstarted : new.filterMap replyClass = [] := List.filterMap_eq_nil_iff.mpr fun ev hev => by
    obtain ⟨b, rfl⟩ := chunks ev hev
    rfl
  have reqs := posts.reqs
  have conns := (Prod.mk.inj posts.level).2
  rw [dispatched, streams] at reqs
  refine ⟨⟨conns, by omega, fun cls => ?_⟩, ?_, fun cls => ?_⟩
  · have counts := posts.counts cls
    rw [untallied] at counts
    simpa using counts
  · unfold Gauges.outstanding
    rw [live, posts_answered posts queued, posts.trace, dispatches_append]
    have none : dispatches new = 0 := dispatched
    rw [none, Nat.add_zero]
  · unfold Gauges.started
    rw [posts.trace, List.filterMap_append, unstarted, List.append_nil]

theorem eachConn_calm {f : Ctx σ → Ctx σ}
    (hf : ∀ x : Ctx σ, Linked x.c → Queued x.c → Stays x (f x) ∧ Queued (f x).c ∧ Calm x (f x)) (ids : List ℕ)
    {s : Srv σ} (linked : ∀ i, Linked (s.conns i)) (queued : ∀ i, Queued (s.conns i)) :
    (eachConn f ids s).nextConn = s.nextConn ∧ SameBooks s.stats (eachConn f ids s).stats ∧
      ∀ j, outstanding ((eachConn f ids s).conns j) = outstanding (s.conns j) ∧
        ∀ cls, started cls ((eachConn f ids s).conns j) = started cls (s.conns j) := by
  unfold eachConn
  induction ids generalizing s with
  | nil => exact ⟨rfl, .refl _, fun _ => ⟨rfl, fun _ => rfl⟩⟩
  | cons i ids ih =>
    obtain ⟨stays, queue, calm⟩ := hf (s.enter i) (linked i) (queued i)
    have conns (j : ℕ) : (f (s.enter i)).done.conns j = if j = i then (f (s.enter i)).c else s.conns j :=
      stays.done_conns j
    obtain ⟨next, books, each⟩ := ih (s := (f (s.enter i)).done) (fun j => by
      rw [conns]
      split
      · exact stays.linked
      · exact linked j) (fun j => by
      rw [conns]
      split
      · exact queue
      · exact queued j)
    refine ⟨next.trans stays.nextConn, ⟨books.conns.trans calm.same.conns, books.reqs.trans calm.same.reqs,
      fun cls => (books.counts cls).trans (calm.same.counts cls)⟩, fun j => ?_⟩
    obtain ⟨out, start⟩ := each j
    have here : outstanding ((f (s.enter i)).done.conns j) = outstanding (s.conns j) ∧
        ∀ cls, started cls ((f (s.enter i)).done.conns j) = started cls (s.conns j) := by
      rw [conns]
      split
      · rename_i own
        rw [own]
        exact ⟨calm.outstanding, calm.started⟩
      · exact ⟨rfl, fun _ => rfl⟩
    exact ⟨out.trans here.1, fun cls => (start cls).trans (here.2 cls)⟩

end Calm

def reporting (c : Conn σ) : Option (WriteCtx × Bool) :=
  ((sent c.trace).drop ((sent c.trace).length - c.writes.length)).head?

section Report
variable {c : Conn σ} {w : WriteCtx} {rest : List WriteCtx}

theorem sentFrom_kind (due : Bool) (evs : List ConnEvent) : ∀ p ∈ sentFrom due evs,
    (∀ k, p.1.kind = .response k → p.2 = true) ∧ (p.1.kind = .sse → p.2 = false) := by
  induction evs generalizing due with
  | nil => exact fun _ hp => (by cases hp)
  | cons ev evs ih =>
    cases ev with
    | dispatched k r => exact ih true
    | rejected code => exact ih false
    | wrote w =>
      intro p hp
      obtain rfl | hp := List.mem_cons.mp hp
      · obtain ⟨kind, out⟩ := w
        cases kind with
        | response k => exact ⟨fun _ _ => rfl, fun e => (by cases e)⟩
        | simple => exact ⟨fun _ e => (by cases e), fun e => (by cases e)⟩
        | sse => exact ⟨fun _ e => (by cases e), fun _ => rfl⟩
      · exact ih false p hp

theorem reporting_head (queued : Queued c) (writes : c.writes = w :: rest) : ∃ answers : Bool,
    reporting c = some (w, answers) ∧ answered (popWrite c) = answered c + answers.toNat ∧
      (∀ k, w.kind = .response k → answers = true) ∧ (w.kind = .sse → answers = false) := by
  obtain ⟨done, queue⟩ := queued
  rw [writes] at queue
  obtain ⟨early, late, split, early_done, late_rest⟩ := List.map_eq_append_iff.mp queue
  obtain ⟨p, after, rfl, hp, after_rest⟩ := List.map_eq_cons_iff.mp late_rest
  have length : after.length = rest.length := by rw [← after_rest, List.length_map]
  have popped : (popWrite c).writes = rest := by
    unfold popWrite
    rw [writes, List.tail_cons]
  have place : (sent c.trace).length - c.writes.length = early.length := by
    rw [split, writes, List.length_append, List.length_cons, List.length_cons, length]
    omega
  have next : (sent c.trace).length - (popWrite c).writes.length = early.length + 1 := by
    rw [split, popped, List.length_append, List.length_cons, length]
    omega
  have kind := sentFrom_kind false c.trace p (by
    change p ∈ sent c.trace
    rw [split]
    exact List.mem_append_right _ (List.mem_cons_self ..))
  obtain ⟨w', flag⟩ := p
  obtain rfl : w' = w := hp
  refine ⟨flag, ?_, ?_, kind⟩
  · unfold reporting
    rw [place, split, List.drop_left]
    rfl
  · unfold answered
    rw [place]
    have trace : (popWrite c).trace = c.trace := rfl
    have one : answers (List.take 1 ((w', flag) :: after)) = flag.toNat := by cases flag <;> rfl
    rw [trace, next, split, List.take_left, List.take_length_add_append, answers_append, one]

theorem answered_le (c : Conn σ) : answered c ≤ answers (sent c.trace) :=
  (List.take_sublist _ _).countP_le

/-- The gauge follows the report of a write, of a simple answer when it answers a dispatched request. -/
theorem reported_tied {x : Ctx σ} (queued : Queued x.c) (writes : x.c.writes = w :: rest)
    (emptied : Emptied x.c) (paid : answers (sent x.c.trace) ≤ dispatches x.c.trace)
    (solicited : ∀ p ∈ reporting x.c, p.1.kind = .simple → p.2 = true) : Tied x (reported x w.kind) := by
  obtain ⟨flag, next, pop, response, chunk⟩ := reporting_head queued writes
  have live : x.c.finalized = false := Bool.eq_false_iff.mpr fun ended => by
    rw [emptied ended] at writes
    cases writes
  have most : answered (popWrite x.c) ≤ dispatches x.c.trace := (answered_le (popWrite x.c)).trans paid
  have left : (outstanding (popWrite x.c) : ℤ) + flag.toNat = outstanding x.c := by
    have live' : (popWrite x.c).finalized = false := live
    have trace : (popWrite x.c).trace = x.c.trace := rfl
    unfold outstanding
    rw [live, live', if_neg Bool.false_ne_true, if_neg Bool.false_ne_true, trace]
    omega
  have done : flag = true → Tied x (countAnswered (popped x)) := by
    rintro rfl
    refine ⟨?_, fun _ => rfl⟩
    change x.srv.stats.activeReqs - 1 + _ = _ + (outstanding (popWrite x.c) : ℤ)
    rw [← left]
    simp only [Bool.toNat_true]
    omega
  obtain ⟨kind, out⟩ := w
  cases kind with
  | response k =>
    unfold reported
    dsimp only
    rw [live, if_neg Bool.false_ne_true]
    exact done (response k rfl)
  | simple => exact done (solicited _ next rfl)
  | sse =>
    refine ⟨?_, fun _ => rfl⟩
    change _ = _ + (outstanding (popWrite x.c) : ℤ)
    rw [← left, chunk rfl]
    simp [reported, popped]

end Report

/-- What a step must not do, so that the statistics stay right: complete a message that is not
dispatched or is answered by a writer that counts it wrong, take up a connection too many, report the
reply to a request that was rejected, tear down a connection with outstanding requests, drain a job
whose connection was shut down, or hand back a job that the completion ring does not take. -/
def Countable (env : Env σ) (s : Srv σ) (a : Step) : Prop :=
  (∀ p ∈ completed env s a, Accountable env p.1 p.2) ∧
    match a with
    | .accept => s.shuttingDown = true ∨ s.nConns < env.cfg.maxConnections
    | .written i _ => ∀ p ∈ reporting (s.conns i), p.1.kind = .simple → p.2 = true
    | .closed i => outstanding (s.conns i) = 0
    | .drain => ∀ p ∈ drainOne s.pool.pool,
      discarded (s.enter p.1.conn) p.1.req = true ∨ (s.conns p.1.conn).writable = true
    | .finish _ _ => s.pool.pool.done.count < s.pool.pool.done.cap
    | _ => True

instance (env : Env σ) (s : Srv σ) (a : Step) : Decidable (Countable env s a) :=
  match a with
  | .accept => inferInstanceAs (Decidable (_ ∧ (_ ∨ _)))
  | .written i _ => inferInstanceAs (Decidable (_ ∧ ∀ p ∈ reporting (s.conns i), p.1.kind = .simple → p.2 = true))
  | .closed _ => inferInstanceAs (Decidable (_ ∧ _ = _))
  | .drain => inferInstanceAs (Decidable (_ ∧ ∀ p ∈ drainOne s.pool.pool,
      discarded (s.enter p.1.conn) p.1.req = true ∨ (s.conns p.1.conn).writable = true))
  | .finish _ _ => inferInstanceAs (Decidable (_ ∧ _ < _))
  | .read _ _ | .readEnd _ | .sweep | .reload | .tick _ | .take _ | .shutdown =>
    inferInstanceAs (Decidable (_ ∧ True))

structure Balanced (s : Srv σ) : Prop where
  reqs : s.stats.activeReqs = total outstanding s
  responses : ∀ cls, Books.responses s.stats cls = total (started cls) s

structure Grounded (s : Srv σ) : Prop where
  linked : ∀ i, Linked (s.conns i)
  coded : ∀ i, Coded (s.conns i)
  queued : ∀ i, Queued (s.conns i)
  emptied : ∀ i, Emptied (s.conns i)
  halting : ∀ i, Halting (s.conns i)
  paid : ∀ i, answers (sent (s.conns i).trace) ≤ dispatches (s.conns i).trace
  born : ∀ p ∈ drainOne s.pool.pool, p.1.conn < s.nextConn

section Runs
variable {env : Env σ} {s t : Srv σ} {i : ℕ} {x y : Ctx σ} {a : Step}

theorem reach_grounded (granted : ∀ n, env.write n = .ok) (h : Reach (server env) (Countable env) s) :
    Grounded s := by
  have roomy : Reach (server env) roomForDone s := h.mono fun s a ok => by
    cases a with
    | finish w calls => exact ok.2
    | _ => trivial
  have any : Reach (server env) anyStep s := h.mono fun _ _ _ => trivial
  have paid := (paid_rules env).reach roomy
  refine ⟨reach_linked h, reach_coded h, reach_queued h, ((emptied_rules env).reach any).each,
    ((halting_rules granted).reach any).each, fun i => (Nat.le_add_left _ _).trans (paid.each i), ?_⟩
  intro p hp
  exact reach_born h ⟨p.1, drainOne_held paid.wired hp, rfl⟩

theorem Balanced.put (h : Balanced s) (born : i < s.nextConn) (stays : Stays (s.enter i) y)
    (tied : Tied (s.enter i) y) : Balanced y.done := by
  have own : (s.enter i).c = s.conns i := rfl
  refine ⟨?_, fun cls => ?_⟩
  · have sum := total_put outstanding born stays
    have change_ := tied.reqs
    have before := h.reqs
    rw [own] at change_
    change y.srv.stats.activeReqs = _
    change _ + _ = s.stats.activeReqs + _ at change_
    omega
  · have sum := total_put (started cls) born stays
    have change_ := tied.responses cls
    have before := h.responses cls
    rw [own] at change_
    change Books.responses y.srv.stats cls = _
    change _ + _ = Books.responses s.stats cls + _ at change_
    omega

theorem Balanced.calm (h : Balanced s) (next : t.nextConn = s.nextConn) (books : SameBooks s.stats t.stats)
    (each : ∀ j, outstanding (t.conns j) = outstanding (s.conns j) ∧
      ∀ cls, started cls (t.conns j) = started cls (s.conns j)) : Balanced t := by
  refine ⟨?_, fun cls => ?_⟩
  · rw [books.reqs, h.reqs, total_same next fun j => (each j).1]
  · rw [books.counts, h.responses, total_same next fun j => (each j).2 cls]

theorem Grounded.answered (h : Grounded s) (i : ℕ) : answered (s.conns i) ≤ dispatches (s.conns i).trace :=
  (answered_le _).trans (h.paid i)

theorem parse_tied {z : Ctx σ} (quiet : Posts x z [] [] 0 ∧ z.c.finalized = x.c.finalized)
    (ran : Entered env True z y) (live : y.c.finalized = z.c.finalized) (usable : Usable env z)
    (coded : Coded z.c) (queued : Queued x.c) (paid : Gauges.answered x.c ≤ dispatches x.c.trace)
    (open_ : x.c.finalized = false) : Tied x y := by
  obtain ⟨new, refused, orphans, posts, none, fair⟩ := ran.2
  obtain ⟨rfl, _⟩ := none usable
  obtain ⟨rfl, counted⟩ := fair ⟨trivial, coded⟩
  refine posts_tied (quiet.1.trans posts) counted queued paid (live.trans quiet.2) fun ended => ?_
  rw [open_] at ended
  cases ended

theorem quiet_tied (quiet : Posts x y [] [] 0 ∧ y.c.finalized = x.c.finalized) (queued : Queued x.c)
    (paid : Gauges.answered x.c ≤ dispatches x.c.trace) : Tied x y :=
  posts_tied quiet.1 (fun _ h => (by cases h)) queued paid quiet.2 fun _ => rfl

theorem read_tied (known : Grounded s) (granted : ∀ n, env.write n = .ok) {room : ℕ} {data : Bytes}
    (reading : (s.conns i).reading = true) (hx : connAllocCb env (s.enter i) = (some room, x))
    (fits : ∀ p ∈ completed env s (.read i data), Accountable env p.1 p.2) :
    Tied (s.enter i) (connOnRead env x data) := by
  have hl := known.linked i
  have open_ : (s.conns i).closing = false := hl.reading reading
  have live : (s.conns i).finalized = false := Bool.eq_false_iff.mpr fun ended => by
    rw [hl.finalized ended] at open_
    cases open_
  obtain ⟨_, quiet⟩ | ⟨parses, quiet, drained, linked⟩ := (quiet_callbacks env).read data hl hx
  · exact quiet_tied quiet (known.queued i) (known.answered i)
  · obtain ⟨b, e⟩ := received_same hx data
    have writable : (received x data).c.writable = true := by
      have halting : Halting (received x data).c := by
        rw [e]
        exact known.halting i
      exact halting.parses (by rw [e]; exact open_) drained
    have ran := (booked_callbacks env True).parse linked drained fun p hp _ => fits p (by
      rw [completed, parses]
      simpa using hp)
    refine parse_tied quiet ran (readFrom_housed linked env).finalized ⟨granted, writable, ?_⟩ ?_
      (known.queued i) (known.answered i) live
    · rw [linked.queued, e]
      exact open_
    · rw [e]
      exact known.coded i

theorem written_tied (known : Grounded s) (granted : ∀ n, env.write n = .ok) {w : WriteCtx} {rest : List WriteCtx}
    {ok : Bool} (hw : (s.conns i).writes = w :: rest) (good : Countable env s (.written i ok)) :
    Tied (s.enter i) (onWritten env (s.enter i) w.kind ok) := by
  have hl := known.linked i
  have told := reported_tied (x := s.enter i) (known.queued i) hw (known.emptied i) (known.paid i) good.2
  have same : (reported (s.enter i) w.kind).c = popWrite (s.conns i) := (reported_same (s.enter i) w.kind).2
  have queued : Queued (reported (s.enter i) w.kind).c := by
    rw [same]
    exact (known.queued i).pop
  have paid : Gauges.answered (reported (s.enter i) w.kind).c ≤
      dispatches (reported (s.enter i) w.kind).c.trace := by
    rw [same]
    exact (answered_le _).trans (known.paid i)
  refine told.trans ?_
  obtain ⟨_, quiet⟩ | ⟨z, parses, quiet, linked, e, open_, flag, left, done⟩ :=
    (quiet_callbacks env).written ok hl hw
  · exact quiet_tied quiet queued paid
  · have ran := (booked_callbacks env True).resumeFrom linked fun _ p hp _ => good.1 p (by
      rw [completed, parses]
      simpa using hp)
    have live : (reported (s.enter i) w.kind).c.finalized = false := by
      rw [same]
      refine Bool.eq_false_iff.mpr fun ended => ?_
      rw [hl.finalized ended] at open_
      cases open_
    rw [done]
    refine parse_tied quiet ran (resumeFrom_housed linked env).finalized ⟨granted, ?_, ?_⟩ ?_ queued paid live
    · rw [e]
      exact (known.halting i).writable open_ flag
    · rw [linked.queued, e]
      exact open_
    · rw [e]
      exact .inl rfl

theorem drainReq_discards (hl : Linked x.c) (env : Env σ) {k : ℕ} (gone : discarded x k = true) :
    Posts x (drainReq env x k) [] [] 0 := by
  unfold drainReq
  dsimp only
  rw [if_pos (by exact gone), connMaybeFinalize_linked (by exact hl)]
  exact .silent rfl rfl ⟨rfl, rfl, fun _ => rfl⟩

theorem drained_tied (hl : Linked x.c) (granted : ∀ n, env.write n = .ok) {k : ℕ} (queued : Queued x.c)
    (paid : Gauges.answered x.c ≤ dispatches x.c.trace) (good : discarded x k = true ∨ x.c.writable = true) :
    Tied x (drainReq env x k) := by
  have live := (drainReq_kept hl env k).1.finalized
  cases gone : discarded x k with
  | true => exact quiet_tied ⟨drainReq_discards hl env gone, live⟩ queued paid
  | false =>
    have writable := good.resolve_left (by rw [gone]; decide)
    unfold discarded at gone
    rw [Bool.or_eq_false_iff, Bool.or_eq_false_iff] at gone
    obtain ⟨⟨_, open_⟩, closing⟩ := gone
    obtain ⟨new, refused, orphans, posts, none, fair⟩ : Booked env True x (drainReq env x k) :=
      drainReq_booked hl env k
    obtain ⟨rfl, _⟩ := none ⟨granted, writable, hl.queued.trans closing⟩
    obtain ⟨rfl, counted⟩ := fair trivial
    refine posts_tied posts counted queued paid live fun ended => ?_
    rw [open_] at ended
    cases ended

theorem connFinalize_tied (live : x.c.finalized = false) (idle : outstanding x.c = 0) :
    Tied x (connFinalize { x with c := { x.c with closeCbDone := true } }) := by
  have before : ({ x with c := { x.c with closeCbDone := true } } : Ctx σ).c.finalized = false := live
  have books : (connFinalize { x with c := { x.c with closeCbDone := true } }).srv.stats.activeReqs =
      x.srv.stats.activeReqs ∧ ∀ cls, Books.responses
        (connFinalize { x with c := { x.c with closeCbDone := true } }).srv.stats cls =
          Books.responses x.srv.stats cls := by
    unfold connFinalize
    rw [before, if_neg Bool.false_ne_true]
    dsimp only
    split
    · exact ⟨rfl, fun cls => by cases cls <;> rfl⟩
    · exact ⟨rfl, fun cls => by cases cls <;> rfl⟩
  obtain ⟨srv, a, _, _, e⟩ := connFinalize_cases before
  obtain ⟨reqs, counts⟩ := books
  refine ⟨?_, fun cls => ?_⟩
  · have gone : outstanding (connFinalize { x with c := { x.c with closeCbDone := true } }).c = 0 := by
      rw [e]
      rfl
    rw [reqs, gone, idle]
  · have same : started cls (connFinalize { x with c := { x.c with closeCbDone := true } }).c =
        started cls x.c := by
      rw [e]
      rfl
    rw [counts, same]

theorem Balanced.accept (h : Balanced s) (room : s.shuttingDown = true ∨ s.nConns < env.cfg.maxConnections) :
    Balanced (cercoConnectionCb env s) := by
  unfold cercoConnectionCb
  cases up : s.shuttingDown with
  | true =>
    rw [if_pos rfl]
    exact h
  | false =>
    rw [if_neg Bool.false_ne_true]
    have room : ¬ (env.cfg.maxConnections : ℤ) < (accepted env s).srv.nConns := by
      have fits := room.resolve_left (by rw [up]; decide)
      change ¬ (env.cfg.maxConnections : ℤ) < s.nConns + 1
      omega
    dsimp only
    rw [if_neg room]
    generalize ht : Ctx.done _ = t
    have next : t.nextConn = s.nextConn + 1 := by rw [← ht]; rfl
    have others (j : ℕ) (hj : j ≠ s.nextConn) : t.conns j = s.conns j := by
      rw [← ht]
      exact Function.update_of_ne hj _ _
    have fresh : t.conns s.nextConn = readStart (freshConn env s.nextConn s.now) := by
      rw [← ht]
      exact Function.update_self _ _ _
    refine ⟨?_, fun cls => ?_⟩
    · rw [total_born next others (by rw [fresh]; rfl), ← h.reqs, ← ht]
      rfl
    · rw [total_born next others (by rw [fresh]; rfl), ← h.responses, ← ht]
      cases cls <;> rfl

theorem quiet_walk {f : Ctx σ → Ctx σ} (hf : ∀ x : Ctx σ, Linked x.c → Stays x (f x))
    (quiet : ∀ x : Ctx σ, Linked x.c → Posts x (f x) [] [] 0 ∧ (f x).c.finalized = x.c.finalized)
    (x : Ctx σ) (hl : Linked x.c) (queued : Queued x.c) : Stays x (f x) ∧ Queued (f x).c ∧ Calm x (f x) :=
  ⟨hf x hl, posts_queued (quiet x hl).1 queued,
    posts_calm (quiet x hl).1 (fun _ h => (by cases h)) queued (quiet x hl).2⟩

theorem Balanced.step (h : Balanced s) (known : Grounded s) (granted : ∀ n, env.write n = .ok)
    (good : Countable env s a) (ht : srvStep env s a = some t) : Balanced t := by
  unfold srvStep at ht
  split at ht
  · cases ht
  · cases a with
    | accept =>
      cases ht
      exact h.accept good.2
    | read i data =>
      have reading : (s.conns i).reading = true := by
        simp only [readStep] at ht
        split at ht
        · rename_i hg
          exact hg.2.1
        · cases ht
      obtain ⟨born, room, x, hx, rfl⟩ := readStep_cases ht
      have buffered := connAllocCb_housed (x := s.enter i) (known.linked i) env
      rw [hx] at buffered
      exact h.put born (buffered.trans (connOnRead_housed buffered.linked env data)).toStays
        (read_tied known granted reading hx good.1)
    | readEnd i =>
      simp only [readEndStep] at ht
      split at ht
      · rename_i hg
        cases ht
        have buffered := connAllocCb_housed (x := s.enter i) (known.linked i) env
        exact h.put hg.1 (buffered.trans (connCloseAndFree_kept buffered.linked).toHoused).toStays
          (quiet_tied ((quiet_callbacks env).readEnd (x := s.enter i) (known.linked i)) (known.queued i)
            (known.answered i))
      · cases ht
    | written i ok =>
      obtain ⟨born, w, rest, hw, rfl⟩ := writtenStep_cases ht
      exact h.put born (onWritten_seated (x := s.enter i) (known.linked i) env w.kind ok).toStays
        (written_tied known granted hw good)
    | closed i =>
      simp only [closedStep] at ht
      split at ht
      · rename_i hg
        cases ht
        have hl := known.linked i
        obtain ⟨stays, _⟩ := connOnStreamClosed_stays (x := s.enter i) hl hg.2.1 hg.2.2.1 hg.2.2.2
        refine h.put hg.1 stays ?_
        rw [connOnStreamClosed_eq (x := s.enter i) hl hg.2.1 hg.2.2.1 hg.2.2.2]
        exact connFinalize_tied (hl.closeCb.symm.trans hg.2.2.1) good.2
      · cases ht
    | sweep =>
      cases ht
      obtain ⟨next, books, each⟩ := eachConn_calm (quiet_walk (fun _ hl => (connDeadlinePass_kept hl).1.toStays)
        fun _ hl => (quiet_callbacks env).deadline hl) s.active known.linked known.queued
      exact h.calm next books each
    | reload =>
      cases ht
      obtain ⟨next, books, each⟩ := eachConn_calm (f := reloadConn env) (fun x hl queued => by
        obtain ⟨new, chunks, posts⟩ := reloadConn_posts hl env
        have kept := (reloadConn_kept hl env).1
        exact ⟨kept.toStays, posts_queued posts queued, posts_calm posts chunks queued kept.finalized⟩)
        s.sseClients known.linked known.queued
      exact h.calm next books each
    | tick ms =>
      cases ht
      exact ⟨h.reqs, h.responses⟩
    | take w =>
      obtain ⟨p, _, rfl⟩ := Option.map_eq_some_iff.mp ht
      exact ⟨h.reqs, fun cls => (h.responses cls).symm ▸ by cases cls <;> rfl⟩
    | finish w calls =>
      simp only [finishJob] at ht
      split at ht
      · cases ht
      · rename_i job ref _
        obtain ⟨p, _, rfl⟩ := Option.map_eq_some_iff.mp ht
        refine h.calm rfl (.refl _) fun j => ?_
        change outstanding (Function.update s.conns ref.conn _ j) = _ ∧
          ∀ cls, started cls (Function.update s.conns ref.conn _ j) = _
        rw [Function.update_apply]
        split
        · rename_i own
          rw [own]
          exact ⟨rfl, fun _ => rfl⟩
        · exact ⟨rfl, fun _ => rfl⟩
    | drain =>
      simp only [drainJob] at ht
      split at ht
      · cases ht
      · rename_i ref q hq
        cases ht
        have h' : Balanced ({ s with pool := drainStep s.pool (ref, q) } : Srv σ) := ⟨h.reqs, h.responses⟩
        have drained := drainReq_kept (x := ({ s with pool := drainStep s.pool (ref, q) } : Srv σ).enter ref.conn)
          (known.linked ref.conn) env ref.req
        refine h'.put (known.born _ hq) drained.1.toStays ?_
        exact drained_tied (known.linked ref.conn) granted (known.queued _) (known.answered _) (good.2 _ hq)
    | shutdown =>
      cases ht
      unfold startShutdown
      split
      · exact h
      · obtain ⟨next, books, each⟩ := eachConn_calm (s := { s with shuttingDown := true })
          (quiet_walk (fun _ hl => (shutdownConn_kept hl).1.toStays)
            fun _ hl => (quiet_callbacks env).shutdown hl) s.active known.linked known.queued
        exact Balanced.calm (s := { s with shuttingDown := true }) ⟨h.reqs, h.responses⟩ next books each

theorem start_balanced (env : Env σ) : Balanced (srvStart env) :=
  ⟨rfl, fun cls => by cases cls <;> rfl⟩

/-- While the system takes every write and no step does what is counted wrong, the gauge is the number
of outstanding requests, and each counter the number of answers that were started in its class. -/
theorem gauges_exact (granted : ∀ n, env.write n = .ok) (h : Reach (server env) (Countable env) s) :
    Exact s ∧ 0 ≤ s.stats.activeReqs ∧
      ((∀ i < s.nextConn, outstanding (s.conns i) = 0) → s.stats.activeReqs = 0) := by
  have known (s : Srv σ) (h : Reach (server env) (Countable env) s) : Grounded s := reach_grounded granted h
  have balanced : Balanced s := by
    refine h.invariant_with known (fun s hs => ?_) fun s a t known balanced good ht =>
      balanced.step known granted good ht
    cases hs
    exact start_balanced env
  refine ⟨⟨balanced.reqs, balanced.responses, (known s h).answered⟩, ?_, fun idle => ?_⟩
  · rw [balanced.reqs]
    exact Finset.sum_nonneg fun i _ => Int.natCast_nonneg _
  · rw [balanced.reqs]
    exact Finset.sum_eq_zero fun i hi => by rw [idle i (Finset.mem_range.mp hi), Nat.cast_zero]

end Runs

def oneServed : List Step :=
  [.accept, .read 0 getRoot, .accept, .read 1 getRoot, .take 0, .finish 0 [.write (ascii "hi")], .drain,
    .written 0 true]

theorem gauges_exact_served : ∃ s : Srv Scan, (s.stats.activeReqs, s.stats.r2xx) = (1, 1) ∧ Exact s ∧
    0 ≤ s.stats.activeReqs ∧ ((∀ i < s.nextConn, outstanding (s.conns i) = 0) → s.stats.activeReqs = 0) := by
  obtain ⟨s, h, view⟩ := stock_reach_while (Countable (stockEnv rootTable)) rootTable
    (fun s => (s.stats.activeReqs, s.stats.r2xx)) oneServed (1, 1) (by decide +kernel)
  exact ⟨s, view, gauges_exact (fun _ => rfl) h⟩

/-- A client sends no request, and the report of its 400 counts one as answered. -/
theorem gauge_negative : ∃ s : Srv Scan, Reach (server (stockEnv rootTable)) anyStep s ∧
    s.stats.activeReqs = -1 ∧ ¬ Exact s := by
  obtain ⟨s, h, view⟩ := stock_reach anyStep rootTable (fun s => s.stats.activeReqs)
    [.accept, .read 0 (ascii "("), .written 0 true] (-1) (fun _ _ _ => trivial) (by decide +kernel)
  refine ⟨s, h, view, fun exact_ => ?_⟩
  have none_below : 0 ≤ s.stats.activeReqs := by
    rw [exact_.reqs]
    exact Finset.sum_nonneg fun i _ => Int.natCast_nonneg _
  rw [view] at none_below
  cases none_below

end Cerco.Gauges
