import Cerco.ConnMoves
import Cerco.ConnStages

set_option autoImplicit false

/-!
# Deadlines and the stages of a connection

A run is watched with a clock for each connection that says when its present stage began.
The deadline that the sweep looks at is the one of the stage, unless a worker has the request.
-/
namespace Cerco.StageDeadlines
open Cerco.Alloc Cerco.CString Cerco.Request Cerco.Connection Cerco.Dispatch Cerco.HttpCallbacks Cerco.Server
open Cerco.WorkerPool Cerco.TransitionRuns Cerco.ConnFrames Cerco.ServerRules Cerco.CloseFlags Cerco.Callbacks
open Cerco.SentReplies Cerco.ShutdownDrain Cerco.DispatchOutcome Cerco.RequestGrammar Cerco.ArenaUse
open Cerco.ConnStages Cerco.ConnMoves

variable {σ : Type}

/-- Heads and messages end in order on plain connections, and the completion ring has room. -/
def Timely (env : Env σ) (s : Srv σ) (a : Step) : Prop :=
  roomForDone s a ∧ ∀ p ∈ stepCalls env s a, Plain p.1.c → inOrder p.1.c p.2

instance (env : Env σ) (s : Srv σ) (a : Step) : Decidable (Timely env s a) := inferInstanceAs (Decidable (_ ∧ _))

section Steps
variable {env : Env σ} {s t : Srv σ} {a : Step} {i : ℕ}

structure Advance (env : Env σ) (s t : Srv σ) : Prop where
  next : t.nextConn = s.nextConn
  pace : ∀ j, Pace env t.now (s.conns j) (t.conns j)

/-- `March`, as a relation of connections and times. -/
def Marches (env : Env σ) (n : ℕ) (c : Conn σ) (n' : ℕ) (d : Conn σ) : Prop := n' = n ∧ Pace env n c d

theorem march_turn {x y : Ctx σ} (h : March env x y) : Turn (Marches env) x y := ⟨h.now, h.pace⟩

theorem march_moves (env : Env σ) :
    MoveRules env (fun s => SrvInv env.cfg.workQueue Paid s ∧ ∀ i, Queued (s.conns i)) (Timely env)
      (Marches env) where
  linked _ known := known.1.linked
  refl _ _ := ⟨rfl, .refl env _ _⟩
  trans := by
    rintro _ _ _ _ _ _ ⟨rfl, first⟩ ⟨rfl, second⟩
    exact ⟨rfl, first.trans second⟩
  others _ _ _ _ _ turn := ⟨turn.1, .refl env _ _⟩
  read s i data room x known timely hx :=
    march_turn (connOnRead_march (known.1.linked i) hx timely.2)
  readEnd x hl := by
    have buffered := connAllocCb_housed hl env
    have made : March env x (connAllocCb env x).2 := by
      unfold connAllocCb
      split
      · exact .refl env _
      · exact ⟨rfl, .of_eq rfl rfl rfl⟩
    exact march_turn (made.trans (connCloseAndFree_march buffered.linked))
  written s i ok w rest known timely hw :=
    march_turn (onWritten_march (known.1.linked i) (known.2 i) hw ok timely.2)
  closed x hl queued _ _ := by
    have closing : (connOnStreamClosed x).c.closing = true :=
      (congrArg Marks.closing (connMaybeFinalize_marks _)).trans (hl.queued.symm.trans queued)
    exact ⟨connMaybeFinalize_now _, .over (not_plain_of_shut (.inl closing))⟩
  deadline x hl := march_turn (connDeadlinePass_march hl env)
  shutdown x hl := march_turn (shutdownConn_march hl env)
  reload x hl := march_turn (reloadConn_march hl env)
  handler x k calls := ⟨rfl, .of_eq rfl rfl rfl⟩
  drain s ref q known hq := by
    have held : ref ∈ mine s.pool ref.conn := Multiset.mem_filter.mpr ⟨drainOne_held known.1.wired hq, rfl⟩
    exact march_turn (drainReq_march
      (x := ({ s with pool := drainStep s.pool (ref, q) } : Srv σ).enter ref.conn)
      (known.1.linked ref.conn) env held (known.1.each ref.conn))

theorem step_advances (inv : SrvInv env.cfg.workQueue Paid s) (queued : ∀ i, Queued (s.conns i))
    (timely : Timely env s a) (ht : srvStep env s a = some t) (other : a ≠ .accept) : Advance env s t := by
  by_cases timed : ∃ ms, a = .tick ms
  · obtain ⟨ms, rfl⟩ := timed
    obtain rfl := tick_only ht
    exact ⟨rfl, fun _ => .refl env _ _⟩
  · have moves := (march_moves env).step ⟨inv, queued⟩ timely ht other fun ms tick => timed ⟨ms, tick⟩
    refine ⟨moves.next, fun j => ?_⟩
    obtain ⟨now, pace⟩ := moves.each j
    rw [now]
    exact pace

theorem accept_cases (env : Env σ) (s : Srv σ) :
    cercoConnectionCb env s = s ∨ (cercoConnectionCb env s).now = s.now ∧
      (cercoConnectionCb env s).nextConn = s.nextConn + 1 ∧
      (Plain ((cercoConnectionCb env s).conns s.nextConn) →
        (cercoConnectionCb env s).conns s.nextConn = readStart (freshConn env s.nextConn s.now)) := by
  have fresh : Linked (accepted env s).c := freshConn_linked env s.nextConn s.now
  unfold cercoConnectionCb
  split
  · exact .inl rfl
  · right
    dsimp only
    split
    · have stays := (connSendSimple_kept fresh env 503 none (ascii "server busy\n") true).toStays
      have march := connSendSimple_march fresh env 503 none (ascii "server busy\n") true
      refine ⟨march.now, stays.nextConn, fun plain => ?_⟩
      have own : s.nextConn = (accepted env s).id := rfl
      rw [stays.done_conns, if_pos own] at plain
      exact absurd plain (connSendSimple_odd fresh env 503 none _ true).2
    · exact ⟨rfl, rfl, fun _ => Function.update_self _ _ _⟩

end Steps

def sinceAfter (s t : Srv σ) (since : ℕ → ℕ) (i : ℕ) : ℕ :=
  if i < s.nextConn ∧ place (t.conns i) = place (s.conns i) then since i else t.now

/-- The server with the times at which the present stages of its connections began. -/
def clocked (env : Env σ) : System (Srv σ × (ℕ → ℕ)) Step where
  start p := p.1 = srvStart env
  step p a := (srvStep env p.1 a).map fun t => (t, sinceAfter p.1 t p.2)

/-- The deadline that the documentation gives for the present stage. -/
def due (env : Env σ) (p : Srv σ × (ℕ → ℕ)) (i : ℕ) : ℕ := p.2 i + limit env.cfg (stageOf (p.1.conns i))

def OnTime (env : Env σ) (p : Srv σ × (ℕ → ℕ)) : Prop :=
  ∀ i < p.1.nextConn, Plain (p.1.conns i) →
    Serving (p.1.conns i) ∧ (stageOf (p.1.conns i) ≠ .working → (p.1.conns i).deadline = due env p i)

section Runs
variable {env : Env σ} {s t : Srv σ} {since : ℕ → ℕ} {a : Step} {i : ℕ}

theorem sinceAfter_stays (born : i < s.nextConn) (same : place (t.conns i) = place (s.conns i)) :
    sinceAfter s t since i = since i := if_pos ⟨born, same⟩

theorem sinceAfter_moves (new : ¬ (i < s.nextConn ∧ place (t.conns i) = place (s.conns i))) :
    sinceAfter s t since i = t.now := if_neg new

theorem due_of_paced (paced : Paced env t.now (s.conns i) (t.conns i)) (born : i < s.nextConn)
    (before : stageOf (s.conns i) ≠ .working → (s.conns i).deadline = due env (s, since) i)
    (off : stageOf (t.conns i) ≠ .working) :
    (t.conns i).deadline = due env (t, sinceAfter s t since) i := by
  change _ = sinceAfter s t since i + limit env.cfg (stageOf (t.conns i))
  obtain ⟨same, deadline⟩ | ⟨later, set⟩ := paced
  · have stage : stageOf (t.conns i) = stageOf (s.conns i) := congrArg Prod.snd same
    rw [sinceAfter_stays born same, deadline, stage]
    exact before (stage ▸ off)
  · rw [sinceAfter_moves fun same => ?_]
    · exact set off
    · rw [same.2] at later
      exact absurd later (Nat.lt_irrefl _)

theorem Advance.onTime (h : OnTime env (s, since)) (step : Advance env s t) :
    OnTime env (t, sinceAfter s t since) := by
  intro i born plain
  have born : i < s.nextConn := step.next ▸ born
  obtain ⟨serving, before⟩ := h i born ((step.pace i).plain plain)
  obtain ⟨serving, paced⟩ := (step.pace i).paced plain serving
  exact ⟨serving, due_of_paced paced born before⟩

theorem fresh_serving (env : Env σ) (i now : ℕ) : Serving (readStart (freshConn env i now)) :=
  ⟨.inr ⟨by simp [readStart, freshConn], rfl⟩, fun h => (by cases h), fun _ => .inl rfl, rfl,
    by simp [readStart, freshConn]⟩

theorem accept_onTime (h : OnTime env (s, since)) :
    OnTime env (cercoConnectionCb env s, sinceAfter s (cercoConnectionCb env s) since) := by
  obtain e | ⟨now, next, fresh⟩ := accept_cases env s
  · rw [e]
    exact Advance.onTime h ⟨rfl, fun _ => .refl env _ _⟩
  · intro i born plain
    have born : i < (cercoConnectionCb env s).nextConn := born
    rw [next] at born
    obtain old | rfl := Nat.lt_succ_iff_lt_or_eq.mp born
    · have same := cercoConnectionCb_others env s (Nat.ne_of_lt old)
      have plain : Plain ((cercoConnectionCb env s).conns i) := plain
      rw [same] at plain
      obtain ⟨serving, before⟩ := h i old plain
      refine ⟨same ▸ serving, due_of_paced ?_ old before⟩
      rw [same]
      exact .inl ⟨rfl, rfl⟩
    · have made := fresh plain
      refine ⟨made ▸ fresh_serving env _ _, fun _ => ?_⟩
      change _ = sinceAfter s (cercoConnectionCb env s) since s.nextConn +
        limit env.cfg (stageOf ((cercoConnectionCb env s).conns s.nextConn))
      rw [sinceAfter_moves fun known => Nat.lt_irrefl _ known.1, made, now]
      rfl

theorem clocked_reach {ok : Srv σ → Step → Prop} {p : Srv σ × (ℕ → ℕ)}
    (h : Reach (clocked env) (fun p a => ok p.1 a) p) : Reach (server env) ok p.1 := by
  induction h with
  | start h0 => exact .start h0
  | step _ hok hs ih =>
    obtain ⟨t, ht, rfl⟩ := Option.map_eq_some_iff.mp hs
    exact .step ih hok ht

theorem reach_onTime {p : Srv σ × (ℕ → ℕ)} (h : Reach (clocked env) (fun p a => Timely env p.1 a) p) :
    OnTime env p := by
  refine h.invariant_with (J := fun p => SrvInv env.cfg.workQueue Paid p.1 ∧ ∀ i, Queued (p.1.conns i))
    (fun p hp => ?_) (fun p hp => ?_) fun p a q known onTime timely hq => ?_
  · have run := clocked_reach hp
    exact ⟨(paid_rules env).reach (run.mono fun _ _ timely => timely.1), reach_queued run⟩
  · intro i born
    rw [hp] at born
    cases born
  · obtain ⟨t, ht, rfl⟩ := Option.map_eq_some_iff.mp hq
    by_cases accepts : a = .accept
    · subst accepts
      unfold srvStep at ht
      split at ht
      · cases ht
      · cases ht
        exact accept_onTime onTime
    · exact Advance.onTime onTime (step_advances known.1 known.2 timely ht accepts)

/-- In runs whose heads and messages end in order, the deadline of an open connection that only got
responses is the one of its stage, except while a worker has its request; the sweep closes it then
and not before. -/
theorem stage_deadline {p : Srv σ × (ℕ → ℕ)} (h : Reach (clocked env) (fun p a => Timely env p.1 a) p)
    (born : i < p.1.nextConn) (plain : Plain (p.1.conns i)) (off : stageOf (p.1.conns i) ≠ .working) :
    (p.1.conns i).deadline = due env p i ∧
      (connDeadlinePass (p.1.enter i)).c.closing = decide (due env p i ≤ p.1.now) := by
  have exact_ := (reach_onTime h i born plain).2 off
  have linked := reach_linked (clocked_reach h) i
  have open_ : (p.1.conns i).closing = false := Bool.eq_false_iff.mpr fun closing => plain.1 (.inl closing)
  have live : (p.1.conns i).finalized = false := Bool.eq_false_iff.mpr fun ended => by
    rw [linked.finalized ended] at open_
    cases open_
  refine ⟨exact_, ?_⟩
  unfold connDeadlinePass
  have guard : (!(p.1.enter i).c.closing && !(p.1.enter i).c.finalized &&
      decide ((p.1.enter i).c.deadline ≤ (p.1.enter i).srv.now)) = decide (due env p i ≤ p.1.now) := by
    change (!(p.1.conns i).closing && !(p.1.conns i).finalized && decide ((p.1.conns i).deadline ≤ p.1.now)) = _
    rw [open_, live, exact_]
    rfl
  rw [guard]
  by_cases passed : due env p i ≤ p.1.now
  · rw [decide_eq_true passed, if_pos rfl]
    exact connCloseAndFree_closes (forceClose_kept (x := p.1.enter i) linked).linked
  · rw [decide_eq_false passed, if_neg Bool.false_ne_true]
    exact open_

end Runs

def clockedStart : Srv Scan × (ℕ → ℕ) := (srvStart (stockEnv rootTable), fun _ => 0)

theorem clocked_start : (clocked (stockEnv rootTable)).start clockedStart := rfl

def servedOnce : List Step :=
  [.accept, .tick 5, .read 0 getRoot, .tick 7, .take 0, .finish 0 [.write (ascii "hi")], .tick 20, .drain,
    .written 0 true, .tick 4, .read 0 (ascii "GET /x")]

theorem stage_deadline_next : ∃ p : Srv Scan × (ℕ → ℕ), stageOf (p.1.conns 0) = .head ∧ p.2 0 = 36 ∧
    (p.1.conns 0).deadline = due (stockEnv rootTable) p 0 ∧
    (connDeadlinePass (p.1.enter 0)).c.closing = decide (due (stockEnv rootTable) p 0 ≤ p.1.now) := by
  obtain ⟨p, hp, view⟩ := Option.map_eq_some_iff.mp (show
    (execWhile (clocked (stockEnv rootTable)) (fun p a => Timely (stockEnv rootTable) p.1 a) clockedStart
      servedOnce).map (fun p => (decide (0 < p.1.nextConn ∧ Plain (p.1.conns 0)), stageOf (p.1.conns 0), p.2 0)) =
        some (true, .head, 36) from by decide +kernel)
  simp only [Prod.mk.injEq] at view
  obtain ⟨known, stage, since⟩ := view
  obtain ⟨born, plain⟩ := of_decide_eq_true known
  exact ⟨p, stage, since, stage_deadline (execWhile_reach servedOnce (.start clocked_start) hp) born plain
    (by rw [stage]; decide)⟩

/-- The page is asked for, and while a worker has the request the limit is still that of the body. -/
theorem working_deadline : ¬ ∀ p : Srv Scan × (ℕ → ℕ), Reach (clocked (stockEnv rootTable)) anyStep p →
    ∀ i < p.1.nextConn, ¬ Shut (p.1.conns i) → (p.1.conns i).deadline = due (stockEnv rootTable) p i := by
  intro claim
  obtain ⟨p, hp, view⟩ := Option.map_eq_some_iff.mp (show
    (exec (clocked (stockEnv rootTable)) clockedStart [.accept, .read 0 getRoot]).map (fun p =>
      (decide (0 < p.1.nextConn ∧ ¬ Shut (p.1.conns 0)), (p.1.conns 0).deadline, due (stockEnv rootTable) p 0)) =
        some (true, 30000, 60000) from by decide +kernel)
  simp only [Prod.mk.injEq] at view
  obtain ⟨known, deadline, limit⟩ := view
  obtain ⟨born, open_⟩ := of_decide_eq_true known
  have equal := claim p (exec_reach _ (.start clocked_start) (fun _ _ _ => trivial) hp) 0 born open_
  rw [deadline, limit] at equal
  cases equal

end Cerco.StageDeadlines
