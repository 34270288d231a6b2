import Cerco.CloseFlags

set_option autoImplicit false

/-!
# What the writers count

The statistics count requests and answers, the trace of a connection says which there
were. `Posts` compares the two for one callback: the events that it added, the answers it
counted and could not write, and the requests it counted that were never dispatched.
-/
namespace Cerco.Books
open Cerco.Alloc Cerco.CString Cerco.Request Cerco.Response Cerco.Connection Cerco.Dispatch
open Cerco.HttpCallbacks Cerco.Server Cerco.ConnFrames Cerco.ServerRules Cerco.Responders

variable {σ : Type}

inductive CodeClass
  | c2xx
  | c3xx
  | c4xx
  | c5xx
deriving DecidableEq

def classOf (code : ℕ) : CodeClass :=
  if code < 300 then .c2xx else if code < 400 then .c3xx else if code < 500 then .c4xx else .c5xx

def responses (s : Stats) : CodeClass → ℤ
  | .c2xx => s.r2xx
  | .c3xx => s.r3xx
  | .c4xx => s.r4xx
  | .c5xx => s.r5xx

theorem statusCounter_responses (code : ℕ) (s : Stats) (cls : CodeClass) :
    responses (statusCounter code s) cls = responses s cls + [classOf code].count cls := by
  unfold statusCounter classOf
  split
  · cases cls <;> simp [responses]
  · split
    · cases cls <;> simp [responses]
    · split <;> cases cls <;> simp [responses]

def tallied : ConnEvent → Option CodeClass
  | .wrote ⟨.response _, .reply w⟩ => some (classOf w.code)
  | .wrote ⟨.simple, .reply w⟩ => if 400 ≤ w.code then some .c4xx else none
  | _ => none

def isDispatch : ConnEvent → Bool
  | .dispatched _ _ => true
  | _ => false

def isStream : ConnEvent → Bool
  | .wrote ⟨.sse, .reply _⟩ => true
  | _ => false

def writeOf : ConnEvent → Option WriteCtx
  | .wrote w => some w
  | _ => none

def replyClass : ConnEvent → Option CodeClass
  | .wrote ⟨_, .reply w⟩ => some (classOf w.code)
  | _ => none

def Fair (ev : ConnEvent) : Prop := tallied ev = replyClass ev ∧ isStream ev = false

structure SameBooks (s t : Stats) : Prop where
  conns : t.activeConns = s.activeConns
  reqs : t.activeReqs = s.activeReqs
  counts : ∀ cls, responses t cls = responses s cls

/-- From `x` to `y` the events `new` were added; answers in `refused` were counted and not queued,
and `orphans` requests were counted and not dispatched. -/
structure Posts (x y : Ctx σ) (new : List ConnEvent) (refused : List CodeClass) (orphans : ℕ) : Prop where
  trace : y.c.trace = x.c.trace ++ new
  writes : y.c.writes = x.c.writes ++ new.filterMap writeOf
  level : (y.srv.nConns, y.srv.stats.activeConns) = (x.srv.nConns, x.srv.stats.activeConns)
  reqs : y.srv.stats.activeReqs + new.countP isStream =
    x.srv.stats.activeReqs + new.countP isDispatch + orphans
  counts : ∀ cls, responses y.srv.stats cls =
    responses x.srv.stats cls + (new.filterMap tallied).count cls + refused.count cls

def Usable (env : Env σ) (x : Ctx σ) : Prop :=
  (∀ n, env.write n = .ok) ∧ x.c.writable = true ∧ x.c.closeQueued = false

/-- The accounts of a callback. As long as the handle is usable no answer is refused; when `good` holds
every request that is counted is dispatched and every answer is counted in its class. -/
def Booked (env : Env σ) (good : Prop) (x y : Ctx σ) : Prop :=
  ∃ new refused orphans, Posts x y new refused orphans ∧ (Usable env x → refused = [] ∧ Usable env y) ∧
    (good → orphans = 0 ∧ ∀ ev ∈ new, Fair ev)

def Closed (env : Env σ) (good : Prop) (x y : Ctx σ) : Prop :=
  ∃ new refused orphans, Posts x y new refused orphans ∧ (Usable env x → refused = []) ∧
    (good → orphans = 0 ∧ ∀ ev ∈ new, Fair ev)

section Posts
variable {env : Env σ} {x y z : Ctx σ} {new new' : List ConnEvent} {refused refused' : List CodeClass}
  {orphans orphans' : ℕ} {good : Prop}

theorem Posts.trans (h₁ : Posts x y new refused orphans) (h₂ : Posts y z new' refused' orphans') :
    Posts x z (new ++ new') (refused ++ refused') (orphans + orphans') where
  trace := by rw [h₂.trace, h₁.trace, List.append_assoc]
  writes := by rw [h₂.writes, h₁.writes, List.filterMap_append, List.append_assoc]
  level := h₂.level.trans h₁.level
  reqs := by
    have r₁ := h₁.reqs
    have r₂ := h₂.reqs
    rw [List.countP_append, List.countP_append]
    push_cast
    omega
  counts cls := by
    have c₁ := h₁.counts cls
    have c₂ := h₂.counts cls
    rw [List.filterMap_append, List.count_append, List.count_append]
    push_cast
    omega

theorem Posts.silent (conn : (y.c.trace, y.c.writes) = (x.c.trace, x.c.writes))
    (level : y.srv.nConns = x.srv.nConns) (same : SameBooks x.srv.stats y.srv.stats) :
    Posts x y [] [] 0 := by
  simp only [Prod.mk.injEq] at conn
  refine ⟨by rw [conn.1, List.append_nil], by rw [conn.2]; exact (List.append_nil _).symm,
    by rw [level, same.conns], ?_, fun cls => ?_⟩
  · simp [same.reqs]
  · rw [same.counts]
    simp

theorem SameBooks.refl (s : Stats) : SameBooks s s := ⟨rfl, rfl, fun _ => rfl⟩

theorem Booked.then_closed (h₁ : Booked env good x y) (h₂ : Closed env good y z) : Closed env good x z := by
  obtain ⟨new, refused, orphans, posts, usable, fair⟩ := h₁
  obtain ⟨new', refused', orphans', posts', usable', fair'⟩ := h₂
  refine ⟨_, _, _, posts.trans posts', fun ready => ?_, fun holds => ⟨?_, fun ev hev => ?_⟩⟩
  · obtain ⟨none, ready⟩ := usable ready
    rw [none, usable' ready]
    rfl
  · rw [(fair holds).1, (fair' holds).1]
  · exact (List.mem_append.mp hev).elim ((fair holds).2 ev) ((fair' holds).2 ev)

theorem Booked.trans (h₁ : Booked env good x y) (h₂ : Booked env good y z) : Booked env good x z := by
  obtain ⟨new, refused, orphans, posts, usable, fair⟩ := h₁
  obtain ⟨new', refused', orphans', posts', usable', fair'⟩ := h₂
  refine ⟨_, _, _, posts.trans posts', fun ready => ?_, fun holds => ⟨?_, fun ev hev => ?_⟩⟩
  · obtain ⟨none, ready⟩ := usable ready
    obtain ⟨none', ready⟩ := usable' ready
    exact ⟨by rw [none, none']; rfl, ready⟩
  · rw [(fair holds).1, (fair' holds).1]
  · exact (List.mem_append.mp hev).elim ((fair holds).2 ev) ((fair' holds).2 ev)

theorem Booked.closed (h : Booked env good x y) : Closed env good x y := by
  obtain ⟨new, refused, orphans, posts, usable, fair⟩ := h
  exact ⟨new, refused, orphans, posts, fun ready => (usable ready).1, fair⟩

theorem Booked.mono {good' : Prop} (h : Booked env good x y) (only : good' → good) : Booked env good' x y := by
  obtain ⟨new, refused, orphans, posts, usable, fair⟩ := h
  exact ⟨new, refused, orphans, posts, usable, fun holds => fair (only holds)⟩

theorem Closed.mono {good' : Prop} (h : Closed env good x y) (only : good' → good) : Closed env good' x y := by
  obtain ⟨new, refused, orphans, posts, usable, fair⟩ := h
  exact ⟨new, refused, orphans, posts, usable, fun holds => fair (only holds)⟩

theorem none_fair : 0 = 0 ∧ ∀ ev ∈ ([] : List ConnEvent), Fair ev := ⟨rfl, fun _ h => (by cases h)⟩

theorem Booked.silent (conn : (y.c.trace, y.c.writes, y.c.writable, y.c.closeQueued) =
      (x.c.trace, x.c.writes, x.c.writable, x.c.closeQueued)) (level : y.srv.nConns = x.srv.nConns)
    (same : SameBooks x.srv.stats y.srv.stats) : Booked env good x y := by
  simp only [Prod.mk.injEq] at conn
  obtain ⟨trace, writes, writable, queued⟩ := conn
  refine ⟨[], [], 0, .silent (by rw [trace, writes]) level same, fun ready => ⟨rfl, ready.1, ?_, ?_⟩,
    fun _ => none_fair⟩
  · rw [writable]
    exact ready.2.1
  · rw [queued]
    exact ready.2.2

theorem Booked.refl (env : Env σ) (good : Prop) (x : Ctx σ) : Booked env good x x :=
  .silent rfl rfl (.refl _)

end Posts

section Writers
variable {env : Env σ} {x : Ctx σ} {good : Prop}

theorem connCloseAndFree_same (hl : Linked x.c) : (connCloseAndFree x).srv.nConns = x.srv.nConns ∧
    SameBooks x.srv.stats (connCloseAndFree x).srv.stats := by
  unfold connCloseAndFree
  split
  · exact ⟨rfl, .refl _⟩
  · rename_i h
    have unfinished : x.c.closeCbDone = false := by
      rw [hl.closeCb]
      exact Bool.eq_false_iff.mpr fun hf => h (hl.finalized hf)
    dsimp only
    rw [connMaybeFinalize_open]
    · dsimp only
      split <;> exact ⟨rfl, rfl, rfl, fun _ => rfl⟩
    · split
      · obtain ⟨o, ho⟩ := cancelReq_objs { x.c with closing := true, sse := false }
        rw [ho]
        exact unfinished
      · obtain ⟨o, ho⟩ := cancelReq_objs { x.c with closing := true }
        rw [ho]
        exact unfinished

theorem connCloseAndFree_posts (hl : Linked x.c) : Posts x (connCloseAndFree x) [] [] 0 := by
  obtain ⟨level, same⟩ := connCloseAndFree_same hl
  refine .silent ?_ level same
  cases h : x.c.closing with
  | true => rw [connCloseAndFree_closing h]
  | false =>
    obtain ⟨o, clients, st, e⟩ := connCloseAndFree_open hl h
    rw [e]

theorem connCloseAndFree_closed (hl : Linked x.c) : Closed env good x (connCloseAndFree x) :=
  ⟨[], [], 0, connCloseAndFree_posts hl, fun _ => rfl, fun _ => none_fair⟩

theorem Usable.writes {z : Ctx σ} (h : Usable env x)
    (same : (z.c.writable, z.c.closeQueued) = (x.c.writable, x.c.closeQueued)) : writeRes env z = .ok := by
  obtain ⟨writable, queued⟩ := Prod.mk.inj same
  unfold writeRes
  rw [h.1, writable, queued, h.2.1, h.2.2]
  rfl

theorem not_usable {z : Ctx σ} (unwritten : writeRes env z ≠ .ok)
    (same : (z.c.writable, z.c.closeQueued) = (x.c.writable, x.c.closeQueued)) : ¬ Usable env x :=
  fun ready => unwritten (ready.writes same)

theorem no_memory {z : Ctx σ} (memory : writeRes env z = .noMem)
    (same : (z.c.writable, z.c.closeQueued) = (x.c.writable, x.c.closeQueued)) : ¬ Usable env x :=
  not_usable (by rw [memory]; decide) same

/-- The handle of `z` is the one of `x`, and so are the books, up to the answer that is being
written. -/
structure Answering (x z : Ctx σ) (classes : List CodeClass) : Prop where
  conn : (z.c.trace, z.c.writes, z.c.writable, z.c.closeQueued) =
    (x.c.trace, x.c.writes, x.c.writable, x.c.closeQueued)
  level : (z.srv.nConns, z.srv.stats.activeConns, z.srv.stats.activeReqs) =
    (x.srv.nConns, x.srv.stats.activeConns, x.srv.stats.activeReqs)
  counts : ∀ cls, responses z.srv.stats cls = responses x.srv.stats cls + classes.count cls

theorem Answering.posts {z : Ctx σ} {classes : List CodeClass} (h : Answering x z classes) :
    Posts x z [] classes 0 := by
  obtain ⟨conn, level, counts⟩ := h
  simp only [Prod.mk.injEq] at conn level
  refine ⟨by rw [conn.1, List.append_nil], by rw [conn.2.1]; exact (List.append_nil _).symm,
    by rw [level.1, level.2.1], by simp [level.2.2], fun cls => ?_⟩
  rw [counts]
  simp

theorem refused_booked {z : Ctx σ} (classes : List CodeClass) (h : Answering x z classes)
    (hl : Linked z.c) (unusable : ¬ Usable env x) : Booked env good x (connCloseAndFree z) :=
  ⟨_, _, 0, h.posts.trans (connCloseAndFree_posts hl), fun ready => absurd ready unusable,
    fun _ => none_fair⟩

theorem queued_booked {z : Ctx σ} (classes : List CodeClass) (h : Answering x z classes)
    (hl : Linked z.c) {res : WriteRes} (usable : Usable env x → res = .ok) {w : WriteCtx}
    (fits : [ConnEvent.wrote w].filterMap tallied = classes) (plain : isStream (.wrote w) = false)
    (fair : good → tallied (.wrote w) = replyClass (.wrote w)) : Booked env good x (uvWrite z res w) := by
  by_cases done : res = .ok
  · obtain ⟨conn, level, counts⟩ := h
    simp only [Prod.mk.injEq] at conn level
    unfold uvWrite
    rw [if_pos done]
    refine ⟨[.wrote w], [], 0, ⟨?_, ?_, ?_, ?_, fun cls => ?_⟩, fun ready => ⟨rfl, ready.1, ?_, ?_⟩,
      fun holds => ⟨rfl, fun ev hev => ?_⟩⟩
    · change z.c.trace ++ [.wrote w] = _
      rw [conn.1]
    · change z.c.writes ++ [w] = _
      rw [conn.2.1]
      rfl
    · change (z.srv.nConns, z.srv.stats.activeConns) = _
      rw [level.1, level.2.1]
    · simp [level.2.2, plain, isDispatch]
    · change responses z.srv.stats cls = _
      rw [counts, fits, List.count_nil, Nat.cast_zero, add_zero]
    · exact conn.2.2.1.trans ready.2.1
    · exact conn.2.2.2.trans ready.2.2
    · rw [List.mem_singleton.mp hev]
      exact ⟨fair holds, plain⟩
  · unfold uvWrite
    rw [if_neg done]
    exact refused_booked classes h hl fun ready => done (usable ready)

theorem statusCounter_level (code : ℕ) (s : Stats) :
    ((statusCounter code s).activeConns, (statusCounter code s).activeReqs) = (s.activeConns, s.activeReqs) := by
  unfold statusCounter
  split
  · rfl
  · split
    · rfl
    · split <;> rfl

theorem connStartResponse_booked (hl : Linked x.c) (env : Env σ) (k : ℕ) :
    Booked env good x (connStartResponse env x k) := by
  have linked : Linked { x.c with phase := .write, deadline := x.srv.now + env.cfg.requestTimeoutMs } :=
    ⟨hl.queued, hl.closeCb, hl.finalized, hl.reading, hl.writes, by simp⟩
  obtain ⟨conns, reqs⟩ := Prod.mk.inj (statusCounter_level (x.c.objs k).status x.srv.stats)
  have level : (x.srv.nConns, (statusCounter (x.c.objs k).status x.srv.stats).activeConns,
      (statusCounter (x.c.objs k).status x.srv.stats).activeReqs) =
      (x.srv.nConns, x.srv.stats.activeConns, x.srv.stats.activeReqs) := by rw [conns, reqs]
  unfold connStartResponse
  dsimp only
  split
  · rename_i memory
    refine refused_booked [classOf (x.c.objs k).status] ?_ ?_ (no_memory memory rfl)
    · exact ⟨rfl, level, statusCounter_responses _ _⟩
    · exact linked
  · refine queued_booked [classOf (x.c.objs k).status] ?_ ?_ (fun ready => ready.writes rfl) ?_ ?_ fun _ => ?_
    · exact ⟨rfl, level, statusCounter_responses _ _⟩
    · exact linked
    · rfl
    · rfl
    · rfl

theorem countWrite_answering (x : Ctx σ) : Answering x (countWrite x) [] :=
  ⟨rfl, rfl, fun _ => by simp [countWrite]⟩

theorem connSendSimple_booked (hl : Linked x.c) (env : Env σ) {code : ℕ}
    (fits : good → 400 ≤ code ∧ code < 500) (hdr : Option Bytes) (body : Bytes) (forceClose : Bool) :
    Booked env good x (connSendSimple env x code hdr body forceClose) := by
  unfold connSendSimple
  dsimp only
  split
  · rename_i memory
    exact refused_booked [] (countWrite_answering x) hl (no_memory memory rfl)
  · split
    · rename_i failed
      refine queued_booked [.c4xx] ⟨?_, ?_, fun cls => ?_⟩ ?_ (fun ready => ready.writes rfl) ?_ ?_ fun holds => ?_
      · rfl
      · rfl
      · cases cls <;> simp [responses, Ctx.stat, countWrite, addWritten]
      · exact hl.of_eq rfl
      · simp [tallied, simpleReply, failed]
      · rfl
      · have high := (fits holds).2
        have class_ : classOf code = .c4xx := by
          unfold classOf
          rw [if_neg (by omega), if_neg (by omega), if_pos high]
        simp [tallied, replyClass, simpleReply, failed, class_]
    · rename_i fine
      refine queued_booked [] ⟨?_, ?_, fun cls => ?_⟩ ?_ (fun ready => ready.writes rfl) ?_ ?_ fun holds => ?_
      · rfl
      · rfl
      · cases cls <;> simp [responses, Ctx.stat, countWrite, addWritten]
      · exact hl.of_eq rfl
      · simp [tallied, simpleReply, fine]
      · rfl
      · exact absurd (fits holds).1 fine

theorem connSseWrite_booked (hl : Linked x.c) (env : Env σ) (data : Bytes) :
    Booked env good x (connSseWrite env x data) := by
  unfold connSseWrite
  dsimp only
  split
  · rename_i memory
    exact refused_booked [] (countWrite_answering x) hl (no_memory memory rfl)
  · exact queued_booked [] (countWrite_answering x) hl (fun ready => ready.writes rfl) rfl rfl fun _ => rfl

theorem sendLiveSse_booked (hl : Linked x.c) (env : Env σ) (never : ¬ good) :
    Booked env good x (sendLiveSse env x) := by
  unfold sendLiveSse
  dsimp only
  split
  · rename_i memory
    exact refused_booked [] (countWrite_answering x) hl (no_memory memory rfl)
  · split
    · rename_i done
      have linked := (uvWrite_kept (countWrite_kept hl).linked (writeRes env x) ⟨.sse, .reply liveHead⟩).linked
      have streaming : Linked (sseLink (uvWrite (countWrite x) (writeRes env x) ⟨.sse, .reply liveHead⟩)).c :=
        linked.of_eq rfl
      refine Booked.trans (y := sseLink (uvWrite (countWrite x) (writeRes env x) ⟨.sse, .reply liveHead⟩)) ?_
        (connSseWrite_booked streaming env _)
      unfold uvWrite
      rw [if_pos done]
      refine ⟨[.wrote ⟨.sse, .reply liveHead⟩], [], 0, ⟨rfl, rfl, rfl, ?_, fun cls => ?_⟩,
        fun ready => ⟨rfl, ready⟩, fun holds => absurd holds never⟩
      · simp [sseLink, countWrite, isStream, isDispatch]
      · have mute : [ConnEvent.wrote ⟨.sse, .reply liveHead⟩].filterMap tallied = [] := rfl
        rw [mute]
        cases cls <;> simp [responses, sseLink, countWrite]
    · rename_i unwritten
      unfold uvWrite
      rw [if_neg unwritten]
      exact refused_booked [] (countWrite_answering x) hl (not_usable unwritten rfl)

end Writers

end Cerco.Books
