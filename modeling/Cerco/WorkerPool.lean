import Cerco.RingBuffer
import Cerco.TransitionRuns
import Mathlib.Algebra.Order.Group.Multiset
import Mathlib.Tactic.Abel

set_option autoImplicit false

/-!
# The bounded worker pool

The job ring is checked for room on submit, the completion ring is not. Both
have the same capacity, and the loop drains completions on its own schedule.
Requests are opaque: the pool only moves references.
-/
namespace Cerco.WorkerPool
open RingBuffer TransitionRuns

universe u

structure Wpool (ρ : Type u) where
  jobs : RingQueue ρ
  done : RingQueue ρ
  shutdown : Bool

variable {ρ : Type u}

def wpoolStart [Inhabited ρ] (queueCap : ℕ) : Wpool ρ :=
  ⟨.empty queueCap default, .empty queueCap default, false⟩

/-- Event loop: a full job ring or a pool that shuts down rejects the request. -/
def wpoolTrySubmit (p : Wpool ρ) (req : ρ) : Wpool ρ × Bool :=
  if !p.shutdown && p.jobs.count < p.jobs.cap then ({ p with jobs := p.jobs.push req }, true)
  else (p, false)

/-- The locked part of `worker_main`: the oldest job leaves the ring. -/
def workerTake (p : Wpool ρ) : Option (ρ × Wpool ρ) :=
  if p.jobs.count = 0 then none else some (p.jobs.front, { p with jobs := p.jobs.pop })

def wpoolPushDone (p : Wpool ρ) (req : ρ) : Wpool ρ :=
  { p with done := p.done.push req }

/-- One round of the loop in `wpool_drain_completions`. -/
def drainOne (p : Wpool ρ) : Option (ρ × Wpool ρ) :=
  if p.done.count = 0 then none else some (p.done.front, { p with done := p.done.pop })

theorem wpoolTrySubmit_accepts {p q : Wpool ρ} {req : ρ} (h : wpoolTrySubmit p req = (q, true)) :
    p.jobs.count < p.jobs.cap ∧ q = { p with jobs := p.jobs.push req } := by
  unfold wpoolTrySubmit at h
  split at h
  · rename_i hc
    simp only [Bool.and_eq_true, decide_eq_true_eq] at hc
    exact ⟨hc.2, (congrArg Prod.fst h).symm⟩
  · cases h

theorem wpoolTrySubmit_running {p q : Wpool ρ} {req : ρ} (h : wpoolTrySubmit p req = (q, true)) :
    p.shutdown = false := by
  unfold wpoolTrySubmit at h
  split at h
  · rename_i hc
    simp only [Bool.and_eq_true, Bool.not_eq_true'] at hc
    exact hc.1
  · cases h

theorem wpoolTrySubmit_rejects {p q : Wpool ρ} {req : ρ} (h : wpoolTrySubmit p req = (q, false)) :
    q = p := by
  unfold wpoolTrySubmit at h
  split at h
  · cases h
  · exact (congrArg Prod.fst h).symm

/-- The pool with its workers. `running` lists the requests taken and not yet
pushed, by worker; the last four fields are history. -/
structure PoolRun (ρ : Type u) where
  pool : Wpool ρ
  running : List (ℕ × ρ)
  accepted : List ρ
  executed : List ρ
  drained : List ρ
  lost : List ρ

inductive PoolStep (ρ : Type u)
  | submit (req : ρ)
  | take (worker : ℕ)
  | pushDone (worker : ℕ)
  | drain

def submitStep (s : PoolRun ρ) (req : ρ) : PoolRun ρ :=
  match wpoolTrySubmit s.pool req with
  | (p, true) => { s with pool := p, accepted := s.accepted ++ [req] }
  | (p, false) => { s with pool := p }

def takeStep (s : PoolRun ρ) (worker : ℕ) (x : ρ × Wpool ρ) : PoolRun ρ :=
  { s with pool := x.2, running := (worker, x.1) :: s.running }

def drainStep (s : PoolRun ρ) (x : ρ × Wpool ρ) : PoolRun ρ :=
  { s with pool := x.2, drained := s.drained ++ [x.1] }

def pushDoneStep (s : PoolRun ρ) (job : ℕ × ρ) : PoolRun ρ :=
  { s with
    pool := wpoolPushDone s.pool job.2
    running := s.running.eraseP fun j => j.1 == job.1
    executed := s.executed ++ [job.2]
    lost := s.lost ++ s.pool.done.overwritten }

/-- `workers` threads share the rings with one event loop. -/
def poolStep (workers : ℕ) (s : PoolRun ρ) : PoolStep ρ → Option (PoolRun ρ)
  | .submit req => some (submitStep s req)
  | .take w =>
    if w < workers ∧ (s.running.find? fun j => j.1 == w) = none then
      (workerTake s.pool).map (takeStep s w)
    else none
  | .pushDone w => (s.running.find? fun j => j.1 == w).map (pushDoneStep s)
  | .drain => (drainOne s.pool).map (drainStep s)

def poolSystem (ρ : Type u) [Inhabited ρ] (queueCap workers : ℕ) :
    System (PoolRun ρ) (PoolStep ρ) where
  start s := s = ⟨wpoolStart queueCap, [], [], [], [], []⟩
  step := poolStep workers

/-- Requests accepted and not yet drained. -/
def outstanding (s : PoolRun ρ) : ℕ :=
  s.pool.jobs.count + s.running.length + s.pool.done.count

/-- Where the pool takes a request, the completion ring could hold it and
everything that is already outstanding. -/
def roomToFinish (s : PoolRun ρ) : PoolStep ρ → Prop
  | .submit _ => s.pool.shutdown = false → s.pool.jobs.count < s.pool.jobs.cap →
      outstanding s < s.pool.done.cap
  | _ => True

instance (s : PoolRun ρ) (a : PoolStep ρ) : Decidable (roomToFinish s a) :=
  match a with
  | .submit _ => inferInstanceAs (Decidable (_ → _))
  | .take _ | .pushDone _ | .drain => isTrue trivial

/-- Steps of the workers and of the drain, without new submissions. -/
def noSubmit (_ : PoolRun ρ) : PoolStep ρ → Prop
  | .submit _ => False
  | _ => True

structure Wired (queueCap : ℕ) (s : PoolRun ρ) : Prop where
  jobs_indexed : s.pool.jobs.Indexed
  done_indexed : s.pool.done.Indexed
  jobs_cap : s.pool.jobs.cap = queueCap
  done_cap : s.pool.done.cap = queueCap
  jobs_le : s.pool.jobs.count ≤ queueCap

/-- What the pool still refers to: queued, in a worker, or completed and not drained. -/
def held (s : PoolRun ρ) : Multiset ρ :=
  s.pool.jobs.contents + s.running.map Prod.snd + s.pool.done.contents

structure Accounted (s : PoolRun ρ) : Prop where
  balance : (s.accepted : Multiset ρ) = held s + s.drained
  ran : (s.executed : Multiset ρ) = s.pool.done.contents + s.drained
  kept : s.lost = []

theorem find?_perm_eraseP {α : Type u} {p : α → Bool} {l : List α} {x : α}
    (h : l.find? p = some x) : l.Perm (x :: l.eraseP p) := by
  induction l with
  | nil => cases h
  | cons y l ih =>
    cases hy : p y with
    | true =>
      rw [List.find?_cons_of_pos hy] at h
      cases h
      rw [List.eraseP_cons_of_pos hy]
    | false =>
      have hn : ¬ p y = true := by simp [hy]
      rw [List.find?_cons_of_neg hn] at h
      rw [List.eraseP_cons_of_neg hn]
      exact ((ih h).cons y).trans (.swap x y _)

theorem poolStep_cases {workers : ℕ} {s t : PoolRun ρ} {a : PoolStep ρ}
    (h : poolStep workers s a = some t) :
    (∃ req, a = .submit req ∧ (s.pool.shutdown = false ∧ s.pool.jobs.count < s.pool.jobs.cap) ∧
      t = { s with pool := { s.pool with jobs := s.pool.jobs.push req },
                   accepted := s.accepted ++ [req] }) ∨
    (∃ req, a = .submit req ∧ t = s) ∨
    (∃ w, a = .take w ∧ 0 < s.pool.jobs.count ∧
      t = { s with pool := { s.pool with jobs := s.pool.jobs.pop },
                   running := (w, s.pool.jobs.front) :: s.running }) ∨
    (∃ w job, a = .pushDone w ∧ s.running.Perm (job :: s.running.eraseP fun j => j.1 == job.1) ∧
      t = pushDoneStep s job) ∨
    (a = .drain ∧ 0 < s.pool.done.count ∧
      t = { s with pool := { s.pool with done := s.pool.done.pop },
                   drained := s.drained ++ [s.pool.done.front] }) := by
  cases a with
  | submit req =>
    simp only [poolStep, submitStep, Option.some.injEq] at h
    split at h
    · rename_i p hp
      have running := wpoolTrySubmit_running hp
      obtain ⟨room, rfl⟩ := wpoolTrySubmit_accepts hp
      exact .inl ⟨req, rfl, ⟨running, room⟩, h.symm⟩
    · rename_i p hp
      cases wpoolTrySubmit_rejects hp
      exact .inr (.inl ⟨req, rfl, h.symm⟩)
  | take w =>
    simp only [poolStep, workerTake] at h
    split at h
    · split at h
      · cases h
      · rename_i hc
        exact .inr (.inr (.inl ⟨w, rfl, Nat.pos_of_ne_zero hc, (Option.some.inj h).symm⟩))
    · cases h
  | pushDone w =>
    obtain ⟨job, hj, ht⟩ := Option.map_eq_some_iff.mp h
    have hw : job.1 = w := by simpa using List.find?_some (p := fun j : ℕ × ρ => j.1 == w) hj
    subst hw
    exact .inr (.inr (.inr (.inl ⟨job.1, job, rfl, find?_perm_eraseP hj, ht.symm⟩)))
  | drain =>
    simp only [poolStep, drainOne] at h
    split at h
    · cases h
    · rename_i hc
      exact .inr (.inr (.inr (.inr ⟨rfl, Nat.pos_of_ne_zero hc, (Option.some.inj h).symm⟩)))

theorem start_wired [Inhabited ρ] (queueCap : ℕ) :
    Wired queueCap (⟨wpoolStart queueCap, [], [], [], [], []⟩ : PoolRun ρ) :=
  ⟨RingQueue.empty_indexed _ _, RingQueue.empty_indexed _ _, rfl, rfl, Nat.zero_le _⟩

theorem start_accounted [Inhabited ρ] (queueCap : ℕ) :
    Accounted (⟨wpoolStart queueCap, [], [], [], [], []⟩ : PoolRun ρ) :=
  ⟨rfl, rfl, rfl⟩

theorem wired_step {C workers : ℕ} {s t : PoolRun ρ} {a : PoolStep ρ} (hw : Wired C s)
    (h : poolStep workers s a = some t) : Wired C t := by
  obtain ⟨req, rfl, ⟨running, room⟩, rfl⟩ | ⟨req, rfl, rfl⟩ | ⟨w, rfl, busy, rfl⟩ | ⟨w, job, rfl, perm, rfl⟩ |
    ⟨rfl, ready, rfl⟩ := poolStep_cases h
  · have := hw.jobs_cap
    exact ⟨RingQueue.push_indexed hw.jobs_indexed req, hw.done_indexed, hw.jobs_cap, hw.done_cap,
      by simp only [RingQueue.push_count]; omega⟩
  · exact hw
  · have := hw.jobs_le
    exact ⟨RingQueue.pop_indexed hw.jobs_indexed busy, hw.done_indexed, hw.jobs_cap, hw.done_cap,
      by simp only [RingQueue.pop_count]; omega⟩
  · exact ⟨hw.jobs_indexed, RingQueue.push_indexed hw.done_indexed job.2, hw.jobs_cap,
      hw.done_cap, hw.jobs_le⟩
  · exact ⟨hw.jobs_indexed, RingQueue.pop_indexed hw.done_indexed ready, hw.jobs_cap,
      hw.done_cap, hw.jobs_le⟩

theorem outstanding_step {C workers : ℕ} {s t : PoolRun ρ} {a : PoolStep ρ} (hw : Wired C s)
    (ho : outstanding s ≤ C) (hok : roomToFinish s a) (h : poolStep workers s a = some t) :
    outstanding t ≤ C := by
  have cap := hw.done_cap
  obtain ⟨req, rfl, ⟨running, room⟩, rfl⟩ | ⟨req, rfl, rfl⟩ | ⟨w, rfl, busy, rfl⟩ | ⟨w, job, rfl, perm, rfl⟩ |
    ⟨rfl, ready, rfl⟩ := poolStep_cases h
  · have fits := hok running room
    simp only [outstanding, RingQueue.push_count] at fits ⊢
    omega
  · exact ho
  · simp only [outstanding, RingQueue.pop_count, List.length_cons] at ho ⊢
    omega
  · have len := perm.length_eq
    simp only [outstanding, pushDoneStep, wpoolPushDone, RingQueue.push_count,
      List.length_cons] at ho len ⊢
    omega
  · simp only [outstanding, RingQueue.pop_count] at ho ⊢
    omega

theorem held_submit {C : ℕ} {s : PoolRun ρ} (hw : Wired C s) (req : ρ) (acc : List ρ)
    (room : s.pool.jobs.count < s.pool.jobs.cap) :
    held { s with pool := { s.pool with jobs := s.pool.jobs.push req }, accepted := acc } =
      held s + {req} := by
  change ((s.pool.jobs.push req).contents : Multiset ρ) + _ + _ = _
  rw [RingQueue.push_contents hw.jobs_indexed req room, ← Multiset.coe_add, Multiset.coe_singleton,
    held]
  abel

theorem held_take {C : ℕ} {s : PoolRun ρ} (hw : Wired C s) (w : ℕ) (busy : 0 < s.pool.jobs.count) :
    held { s with pool := { s.pool with jobs := s.pool.jobs.pop },
                  running := (w, s.pool.jobs.front) :: s.running } = held s := by
  rw [held, held, RingQueue.contents_pop hw.jobs_indexed busy, List.map_cons, ← Multiset.cons_coe,
    ← Multiset.cons_coe, ← Multiset.singleton_add, ← Multiset.singleton_add]
  abel

theorem held_pushDone {C : ℕ} {s : PoolRun ρ} (hw : Wired C s) {job : ℕ × ρ}
    (perm : s.running.Perm (job :: s.running.eraseP fun j => j.1 == job.1))
    (room : s.pool.done.count < s.pool.done.cap) : held (pushDoneStep s job) = held s := by
  have moved : (s.running.map Prod.snd : Multiset ρ) =
      {job.2} + ((s.running.eraseP fun j => j.1 == job.1).map Prod.snd : List ρ) := by
    rw [Multiset.singleton_add, Multiset.cons_coe]
    exact Multiset.coe_eq_coe.mpr (perm.map Prod.snd)
  change (s.pool.jobs.contents : Multiset ρ) + ((s.running.eraseP _).map Prod.snd : Multiset ρ) +
    ((s.pool.done.push job.2).contents : Multiset ρ) = _
  rw [RingQueue.push_contents hw.done_indexed job.2 room, held, moved, ← Multiset.coe_add,
    Multiset.coe_singleton]
  abel

theorem held_drain {C : ℕ} {s : PoolRun ρ} (hw : Wired C s) (dr : List ρ)
    (ready : 0 < s.pool.done.count) :
    held s = {s.pool.done.front} +
      held { s with pool := { s.pool with done := s.pool.done.pop }, drained := dr } := by
  rw [held, held, RingQueue.contents_pop hw.done_indexed ready, ← Multiset.cons_coe,
    ← Multiset.singleton_add]
  abel

theorem mem_held {s : PoolRun ρ} {x : ρ} : x ∈ held s ↔
    x ∈ s.pool.jobs.contents ∨ x ∈ s.running.map Prod.snd ∨ x ∈ s.pool.done.contents := by
  rw [held, Multiset.mem_add, Multiset.mem_add, Multiset.mem_coe, Multiset.mem_coe,
    Multiset.mem_coe, or_assoc]

theorem mem_held_step {C workers : ℕ} {s t : PoolRun ρ} {a : PoolStep ρ} (hw : Wired C s)
    (h : poolStep workers s a = some t) {x : ρ} (hx : x ∈ held t) :
    x ∈ held s ∨ a = .submit x := by
  obtain ⟨req, rfl, ⟨running, room⟩, rfl⟩ | ⟨req, rfl, rfl⟩ | ⟨w, rfl, busy, rfl⟩ | ⟨w, job, rfl, perm, rfl⟩ |
    ⟨rfl, ready, rfl⟩ := poolStep_cases h
  · rw [held_submit hw req _ room, Multiset.mem_add, Multiset.mem_singleton] at hx
    exact hx.imp id fun e => by rw [e]
  · exact .inl hx
  · rw [held_take hw w busy] at hx
    exact .inl hx
  · left
    have ran : ∀ y ∈ job :: s.running.eraseP (fun j => j.1 == job.1), y.2 ∈ s.running.map Prod.snd :=
      fun y hy => List.mem_map_of_mem (perm.mem_iff.mpr hy)
    obtain hj | hr | hd := mem_held.mp hx
    · exact mem_held.mpr (.inl hj)
    · obtain ⟨y, hy, rfl⟩ := List.mem_map.mp hr
      exact mem_held.mpr (.inr (.inl (ran y (List.mem_cons_of_mem _ hy))))
    · obtain rfl | hd := RingQueue.mem_push hw.done_indexed hd
      · exact mem_held.mpr (.inr (.inl (ran job List.mem_cons_self)))
      · exact mem_held.mpr (.inr (.inr hd))
  · left
    rw [held_drain hw (s.drained ++ [s.pool.done.front]) ready]
    exact Multiset.mem_add.mpr (.inr hx)

theorem accounted_step {C workers : ℕ} {s t : PoolRun ρ} {a : PoolStep ρ} (hw : Wired C s)
    (ho : outstanding s ≤ C) (hs : Accounted s) (h : poolStep workers s a = some t) :
    Accounted t := by
  obtain ⟨balance, ran, kept⟩ := hs
  obtain ⟨req, rfl, ⟨running, room⟩, rfl⟩ | ⟨req, rfl, rfl⟩ | ⟨w, rfl, busy, rfl⟩ | ⟨w, job, rfl, perm, rfl⟩ |
    ⟨rfl, ready, rfl⟩ := poolStep_cases h
  · refine ⟨?_, ran, kept⟩
    rw [held_submit hw req _ room]
    change ((s.accepted ++ [req] : List ρ) : Multiset ρ) = _ + (s.drained : Multiset ρ)
    rw [← Multiset.coe_add, balance, Multiset.coe_singleton]
    abel
  · exact ⟨balance, ran, kept⟩
  · exact ⟨by rw [held_take hw w busy]; exact balance, ran, kept⟩
  · -- some job is running, so the completion ring still has room
    have room : s.pool.done.count < s.pool.done.cap := by
      have len := perm.length_eq
      have := hw.done_cap
      simp only [outstanding, List.length_cons] at ho len
      omega
    refine ⟨by rw [held_pushDone hw perm room]; exact balance, ?_, ?_⟩
    · change ((s.executed ++ [job.2] : List ρ) : Multiset ρ) =
        (s.pool.done.push job.2).contents + s.drained
      rw [RingQueue.push_contents hw.done_indexed job.2 room, ← Multiset.coe_add, ran,
        ← Multiset.coe_add]
      abel
    · change s.lost ++ s.pool.done.overwritten = []
      rw [kept, RingQueue.overwritten_eq_nil room]
      rfl
  · refine ⟨?_, ?_, kept⟩
    · rw [held_drain hw (s.drained ++ [s.pool.done.front]) ready] at balance
      change (s.accepted : Multiset ρ) = _ +
        ((s.drained ++ [s.pool.done.front] : List ρ) : Multiset ρ)
      rw [balance, ← Multiset.coe_add, Multiset.coe_singleton]
      abel
    · rw [RingQueue.contents_pop hw.done_indexed ready, ← Multiset.cons_coe,
        ← Multiset.singleton_add] at ran
      change (s.executed : Multiset ρ) = s.pool.done.pop.contents +
        ((s.drained ++ [s.pool.done.front] : List ρ) : Multiset ρ)
      rw [ran, ← Multiset.coe_add, Multiset.coe_singleton]
      abel

theorem reach_accounted [Inhabited ρ] {C workers : ℕ} {s : PoolRun ρ}
    (h : Reach (poolSystem ρ C workers) roomToFinish s) :
    Wired C s ∧ outstanding s ≤ C ∧ Accounted s := by
  refine h.invariant (I := fun s => Wired C s ∧ outstanding s ≤ C ∧ Accounted s) ?_ ?_
  · rintro s rfl
    exact ⟨start_wired C, Nat.zero_le _, start_accounted C⟩
  · rintro s a t ⟨hw, ho, hs⟩ hok hstep
    exact ⟨wired_step hw hstep, outstanding_step hw ho hok hstep, accounted_step hw ho hs hstep⟩

/-- Steps left until everything outstanding is drained. -/
def pendingWork (s : PoolRun ρ) : ℕ :=
  3 * s.pool.jobs.count + 2 * s.running.length + s.pool.done.count

theorem pendingWork_step {workers : ℕ} {s t : PoolRun ρ} {a : PoolStep ρ} (hn : noSubmit s a)
    (h : poolStep workers s a = some t) : pendingWork t < pendingWork s := by
  obtain ⟨req, rfl, ⟨running, room⟩, rfl⟩ | ⟨req, rfl, rfl⟩ | ⟨w, rfl, busy, rfl⟩ | ⟨w, job, rfl, perm, rfl⟩ |
    ⟨rfl, ready, rfl⟩ := poolStep_cases h
  · exact hn.elim
  · exact hn.elim
  · simp only [pendingWork, RingQueue.pop_count, List.length_cons]
    omega
  · have len := perm.length_eq
    simp only [pendingWork, pushDoneStep, wpoolPushDone, RingQueue.push_count,
      List.length_cons] at len ⊢
    omega
  · simp only [pendingWork, RingQueue.pop_count]
    omega

theorem work_enabled {workers : ℕ} (hn : 0 < workers) {s : PoolRun ρ} (h : 0 < outstanding s) :
    ∃ a t, noSubmit s a ∧ poolStep workers s a = some t := by
  by_cases hd : s.pool.done.count = 0
  · cases hr : s.running with
    | nil =>
      have hj : s.pool.jobs.count ≠ 0 := by
        simp only [outstanding, hr, List.length_nil] at h
        omega
      refine ⟨.take 0, takeStep s 0 (s.pool.jobs.front, { s.pool with jobs := s.pool.jobs.pop }),
        trivial, ?_⟩
      simp only [poolStep, hn, hr, List.find?_nil, and_self, ↓reduceIte, workerTake, hj,
        Option.map_some]
    | cons job rest =>
      refine ⟨.pushDone job.1, pushDoneStep s job, trivial, ?_⟩
      simp only [poolStep, hr, List.find?_cons, beq_self_eq_true, Option.map_some]
  · refine ⟨.drain, drainStep s (s.pool.done.front, { s.pool with done := s.pool.done.pop }),
      trivial, ?_⟩
    simp only [poolStep, drainOne, hd, ↓reduceIte, Option.map_some]

theorem drained_of_idle {s : PoolRun ρ} (hs : Accounted s) (h : outstanding s = 0) :
    s.drained.Perm s.accepted ∧ s.drained.Perm s.executed := by
  obtain ⟨hj, hr, hd⟩ : s.pool.jobs.count = 0 ∧ s.running = [] ∧ s.pool.done.count = 0 := by
    simp only [outstanding] at h
    exact ⟨by omega, List.length_eq_zero_iff.mp (by omega), by omega⟩
  have ej : s.pool.jobs.contents = [] := List.length_eq_zero_iff.mp (by simp [hj])
  have ed : s.pool.done.contents = [] := List.length_eq_zero_iff.mp (by simp [hd])
  have b := hs.balance
  have e := hs.ran
  rw [held, ej, hr, ed] at b
  rw [ed] at e
  exact ⟨Multiset.coe_eq_coe.mp (by simpa using b.symm), Multiset.coe_eq_coe.mp (by simpa using e.symm)⟩

def workersOnly (_ : PoolRun ρ) : PoolStep ρ → Prop
  | .submit _ | .drain => False
  | _ => True

/-- The bound is needed: from more than `C` outstanding requests the workers
alone push the completion ring past its capacity. -/
theorem workers_overflow [Inhabited ρ] {C workers : ℕ} (hn : 0 < workers) {s : PoolRun ρ}
    (ho : C < outstanding s) :
    ∃ t, Steps (poolSystem ρ C workers) workersOnly s t ∧ C < t.pool.done.count := by
  have finish : ∀ s : PoolRun ρ, C < outstanding s → ¬ C < s.pool.done.count →
      ∃ a t, workersOnly s a ∧ (poolSystem ρ C workers).step s a = some t ∧ C < outstanding t ∧
        2 * t.pool.jobs.count + t.running.length < 2 * s.pool.jobs.count + s.running.length := by
    intro s ho hg
    cases hr : s.running with
    | nil =>
      have hj : s.pool.jobs.count ≠ 0 := by
        simp only [outstanding, hr, List.length_nil] at ho
        omega
      refine ⟨.take 0, takeStep s 0 (s.pool.jobs.front, { s.pool with jobs := s.pool.jobs.pop }),
        trivial, ?_, ?_, ?_⟩
      · simp only [poolSystem, poolStep, hn, hr, List.find?_nil, and_self, ↓reduceIte, workerTake,
          hj, Option.map_some]
      · simp only [outstanding, takeStep, RingQueue.pop_count, List.length_cons] at ho ⊢
        omega
      · simp only [takeStep, RingQueue.pop_count, hr, List.length_cons, List.length_nil]
        omega
    | cons job rest =>
      have erased : s.running.eraseP (fun j => j.1 == job.1) = rest := by
        rw [hr, List.eraseP_cons_of_pos (by simp)]
      refine ⟨.pushDone job.1, pushDoneStep s job, trivial, ?_, ?_, ?_⟩
      · simp only [poolSystem, poolStep, hr, List.find?_cons, beq_self_eq_true, Option.map_some]
      · simp only [outstanding, hr, List.length_cons] at ho
        simp only [outstanding, pushDoneStep, wpoolPushDone, erased, RingQueue.push_count]
        omega
      · simp only [pushDoneStep, wpoolPushDone, erased, List.length_cons]
        omega
  obtain ⟨t, run, _, drained⟩ := Steps.of_measure
    (fun s : PoolRun ρ => 2 * s.pool.jobs.count + s.running.length)
    (fun s => C < outstanding s) (fun s => C < s.pool.done.count) finish s ho
  exact ⟨t, run, drained⟩

/-- The loop submits only while the ring has room for everything outstanding.
Then nothing is overwritten, every accepted request is in exactly one place,
and every schedule of workers and drain ends with all of them drained once,
after their handlers ran. -/
theorem completions_drained_once [Inhabited ρ] {C workers : ℕ} {s : PoolRun ρ}
    (h : Reach (poolSystem ρ C workers) roomToFinish s) :
    s.pool.done.count ≤ s.pool.done.cap ∧ s.lost = [] ∧
    (s.accepted : Multiset ρ) =
      s.pool.jobs.contents + s.running.map Prod.snd + s.pool.done.contents + s.drained ∧
    (s.executed : Multiset ρ) = s.pool.done.contents + s.drained ∧
    (∀ a t, noSubmit s a → poolStep workers s a = some t → pendingWork t < pendingWork s) ∧
    (0 < workers → (∀ a, noSubmit s a → poolStep workers s a = none) →
      s.drained.Perm s.accepted ∧ s.drained.Perm s.executed) := by
  obtain ⟨hw, ho, hs⟩ := reach_accounted h
  refine ⟨?_, hs.kept, hs.balance, hs.ran, fun a t => pendingWork_step, fun hn stuck => ?_⟩
  · have := hw.done_cap
    simp only [outstanding] at ho
    omega
  · apply drained_of_idle hs
    by_contra hne
    obtain ⟨a, t, hna, hst⟩ := work_enabled hn (Nat.pos_of_ne_zero hne)
    rw [stuck a hna] at hst
    cases hst

/-- Two workers, capacity four: the fifth request finds the job ring full and gets its 503, the second one
finishes before the first, and the sixth comes when two are drained. -/
def rejectedRun : List (PoolStep ℕ) :=
  [.submit 1, .submit 2, .submit 3, .submit 4, .submit 5, .take 0, .take 1, .pushDone 1, .pushDone 0, .drain, .drain,
    .submit 6, .take 1, .take 0, .pushDone 0, .pushDone 1, .take 1, .drain, .pushDone 1, .drain, .drain]

theorem completions_drained_once_rejected :
    ∃ s : PoolRun ℕ, s.accepted = [1, 2, 3, 4, 6] ∧ s.drained = [2, 1, 4, 3, 6] ∧ s.lost = [] ∧
      s.drained.Perm s.accepted := by
  have run : (execWhile (poolSystem ℕ 4 2) roomToFinish ⟨wpoolStart 4, [], [], [], [], []⟩ rejectedRun).map
      (fun s => (s.accepted, s.drained, outstanding s)) = some ([1, 2, 3, 4, 6], [2, 1, 4, 3, 6], 0) := by
    decide
  obtain ⟨s, hs, view⟩ := Option.map_eq_some_iff.mp run
  simp only [Prod.mk.injEq] at view
  obtain ⟨accepted, drained, idle⟩ := view
  obtain ⟨_, lost, balance, ran, _, all⟩ := completions_drained_once (execWhile_reach rejectedRun (.start rfl) hs)
  refine ⟨s, accepted, drained, lost, (all (by decide) fun a hn => ?_).1⟩
  cases hst : poolStep 2 s a with
  | none => rfl
  | some t =>
    have less := pendingWork_step hn hst
    simp only [outstanding, pendingWork] at idle less
    omega

def lateDrain : List (PoolStep ℕ) :=
  (List.range 5).flatMap fun i => [.submit (i + 1), .take 0, .pushDone 0]

/-- The fifth completion overwrites the first; the drain then hands the fifth
request out twice and the first one never. -/
theorem late_drain_loses :
    (∃ s, Reach (poolSystem ℕ 4 1) anyStep s ∧ s.pool.done.cap = 4 ∧ s.pool.done.count = 5 ∧
      s.lost = [1]) ∧
    ∃ s, Reach (poolSystem ℕ 4 1) anyStep s ∧ s.accepted = [1, 2, 3, 4, 5] ∧
      s.drained = [5, 2, 3, 4, 5] := by
  have run : ∀ (as : List (PoolStep ℕ)) (v : ℕ × ℕ × List ℕ × List ℕ × List ℕ),
      (exec (poolSystem ℕ 4 1) ⟨wpoolStart 4, [], [], [], [], []⟩ as).map (fun s =>
        (s.pool.done.cap, s.pool.done.count, s.lost, s.accepted, s.drained)) = some v →
      ∃ s, Reach (poolSystem ℕ 4 1) anyStep s ∧
        (s.pool.done.cap, s.pool.done.count, s.lost, s.accepted, s.drained) = v := by
    intro as v h
    obtain ⟨s, hs, hv⟩ := Option.map_eq_some_iff.mp h
    exact ⟨s, exec_reach as (.start rfl) (fun _ _ _ => trivial) hs, hv⟩
  obtain ⟨s, hs, e⟩ := run lateDrain (4, 5, [1], [1, 2, 3, 4, 5], []) (by decide)
  obtain ⟨u, hu, f⟩ := run (lateDrain ++ List.replicate 5 .drain)
    (4, 0, [1], [1, 2, 3, 4, 5], [5, 2, 3, 4, 5]) (by decide)
  simp only [Prod.mk.injEq] at e f
  exact ⟨⟨s, hs, e.1, e.2.1, e.2.2.1⟩, ⟨u, hu, f.2.2.2.1, f.2.2.2.2⟩⟩

end Cerco.WorkerPool
