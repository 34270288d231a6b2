import Cerco.WorkerPool

set_option autoImplicit false

/-!
# The job ring is a bounded queue

`wpool_try_submit` and the locked part of `worker_main` run under `job_mu`, so they are
steps. Seen from outside, the ring is a list: submissions go to its end, workers take from
its front.
-/
namespace Cerco.JobQueue
open RingBuffer TransitionRuns WorkerPool

universe u

variable {ρ : Type u}

inductive QueueStep (ρ : Type u)
  | submit (req : ρ)
  | take (worker : ℕ)
  | shutdown

/-- The waiting requests, every submission with its answer, and every request taken with its
worker. -/
structure Fifo (ρ : Type u) where
  shut : Bool
  waiting : List ρ
  answers : List (ρ × Bool)
  taken : List (ℕ × ρ)

def fifoStart : Fifo ρ := ⟨false, [], [], []⟩

def Fifo.admits (q : Fifo ρ) (bound : ℕ) : Bool := !q.shut && decide (q.waiting.length < bound)

def Fifo.submit (q : Fifo ρ) (bound : ℕ) (req : ρ) : Fifo ρ :=
  { q with
    waiting := if q.admits bound then q.waiting ++ [req] else q.waiting
    answers := q.answers ++ [(req, q.admits bound)] }

def Fifo.take (q : Fifo ρ) (worker : ℕ) : Option (Fifo ρ) :=
  match q.waiting with
  | [] => none
  | req :: rest => some { q with waiting := rest, taken := q.taken ++ [(worker, req)] }

def fifo (ρ : Type u) (bound : ℕ) : System (Fifo ρ) (QueueStep ρ) where
  start q := q = fifoStart
  step q
    | .submit req => some (q.submit bound req)
    | .take w => q.take w
    | .shutdown => some { q with shut := true }

/-- The requests that were let in, in the order of their submission. -/
def Fifo.accepted (q : Fifo ρ) : List ρ := (q.answers.filter (·.2)).map (·.1)

def Fifo.Ordered (q : Fifo ρ) : Prop := q.accepted = q.taken.map Prod.snd ++ q.waiting

theorem Fifo.Ordered.submit {q : Fifo ρ} (h : q.Ordered) (bound : ℕ) (req : ρ) :
    (q.submit bound req).Ordered := by
  unfold Fifo.Ordered Fifo.accepted Fifo.submit at *
  cases hb : q.admits bound with
  | true => simp [h]
  | false => simp [h]

theorem Fifo.Ordered.take {q t : Fifo ρ} (h : q.Ordered) {worker : ℕ} (ht : q.take worker = some t) :
    t.Ordered := by
  unfold Fifo.Ordered Fifo.accepted Fifo.take at *
  split at ht
  · cases ht
  · rename_i req rest hw
    cases ht
    rw [hw] at h
    simp [h]

/-- The pool with its history: the answers of `wpool_try_submit` and what the workers took. -/
structure JobRun (ρ : Type u) where
  pool : Wpool ρ
  answers : List (ρ × Bool)
  taken : List (ℕ × ρ)

def jobStart [Inhabited ρ] (queueCap : ℕ) : JobRun ρ := ⟨wpoolStart queueCap, [], []⟩

def jobStep (s : JobRun ρ) : QueueStep ρ → Option (JobRun ρ)
  | .submit req =>
    some { s with
      pool := (wpoolTrySubmit s.pool req).1
      answers := s.answers ++ [(req, (wpoolTrySubmit s.pool req).2)] }
  | .take w => (workerTake s.pool).map fun x => { s with pool := x.2, taken := s.taken ++ [(w, x.1)] }
  | .shutdown => some { s with pool := { s.pool with shutdown := true } }

def jobRing (ρ : Type u) [Inhabited ρ] (queueCap : ℕ) : System (JobRun ρ) (QueueStep ρ) where
  start s := s = jobStart queueCap
  step := jobStep

/-- The queue that the ring stands for. -/
def view (s : JobRun ρ) : Fifo ρ := ⟨s.pool.shutdown, s.pool.jobs.contents, s.answers, s.taken⟩

structure Ringed (queueCap : ℕ) (s : JobRun ρ) : Prop where
  indexed : s.pool.jobs.Indexed
  cap : s.pool.jobs.cap = queueCap

theorem admits_view {queueCap : ℕ} {s : JobRun ρ} (h : Ringed queueCap s) (req : ρ) :
    (wpoolTrySubmit s.pool req).2 = (view s).admits queueCap := by
  unfold wpoolTrySubmit Fifo.admits view
  rw [RingQueue.contents_length, h.cap]
  dsimp only
  split <;> rename_i hc <;> simp [hc]

theorem submit_view {queueCap : ℕ} {s : JobRun ρ} (h : Ringed queueCap s) (req : ρ) :
    view { s with
      pool := (wpoolTrySubmit s.pool req).1
      answers := s.answers ++ [(req, (wpoolTrySubmit s.pool req).2)] } =
    (view s).submit queueCap req := by
  have answer := admits_view h req
  cases hp : wpoolTrySubmit s.pool req with
  | mk p ok =>
    rw [hp] at answer
    have answer : ok = (view s).admits queueCap := answer
    cases ok with
    | true =>
      obtain ⟨room, rfl⟩ := wpoolTrySubmit_accepts hp
      unfold Fifo.submit
      rw [← answer, if_pos rfl]
      have pushed : (s.pool.jobs.push req).contents = s.pool.jobs.contents ++ [req] :=
        RingQueue.push_contents h.indexed req room
      unfold view
      rw [pushed]
    | false =>
      obtain rfl := wpoolTrySubmit_rejects hp
      unfold Fifo.submit
      rw [← answer, if_neg Bool.false_ne_true]
      rfl

theorem take_view {s : JobRun ρ} (h : s.pool.jobs.Indexed) (w : ℕ) :
    ((workerTake s.pool).map fun x =>
      view { s with pool := x.2, taken := s.taken ++ [(w, x.1)] }) = (view s).take w := by
  unfold workerTake Fifo.take view
  split
  · rename_i none_
    have empty : s.pool.jobs.contents = [] := List.length_eq_zero_iff.mp (by simp [none_])
    rw [empty]
    rfl
  · rename_i some_
    rw [RingQueue.contents_pop h (Nat.pos_of_ne_zero some_)]
    rfl

theorem jobStep_ringed {queueCap : ℕ} {s t : JobRun ρ} {a : QueueStep ρ} (h : Ringed queueCap s)
    (ht : jobStep s a = some t) : Ringed queueCap t := by
  cases a with
  | submit req =>
    cases ht
    cases hp : wpoolTrySubmit s.pool req with
    | mk p ok =>
      cases ok with
      | true =>
        obtain ⟨_, rfl⟩ := wpoolTrySubmit_accepts hp
        exact ⟨RingQueue.push_indexed h.indexed req, h.cap⟩
      | false =>
        obtain rfl := wpoolTrySubmit_rejects hp
        exact ⟨h.indexed, h.cap⟩
  | take w =>
    obtain ⟨x, hx, rfl⟩ := Option.map_eq_some_iff.mp ht
    unfold workerTake at hx
    split at hx
    · cases hx
    · rename_i some_
      cases hx
      exact ⟨RingQueue.pop_indexed h.indexed (Nat.pos_of_ne_zero some_), h.cap⟩
  | shutdown =>
    cases ht
    exact ⟨h.indexed, h.cap⟩

theorem jobStep_view {queueCap : ℕ} {s : JobRun ρ} (h : Ringed queueCap s) (a : QueueStep ρ) :
    (jobStep s a).map view = (fifo ρ queueCap).step (view s) a := by
  cases a with
  | submit req => exact congrArg some (submit_view h req)
  | take w =>
    change ((workerTake s.pool).map _).map view = (view s).take w
    rw [Option.map_map, ← take_view h.indexed w]
    rfl
  | shutdown => rfl

theorem fifo_ordered {bound : ℕ} {q t : Fifo ρ} (h : q.Ordered) (as : List (QueueStep ρ))
    (ht : exec (fifo ρ bound) q as = some t) : t.Ordered := by
  induction as generalizing q with
  | nil => exact Option.some.inj ht ▸ h
  | cons a as ih =>
    obtain ⟨u, hu, ht⟩ := Option.bind_eq_some_iff.mp ht
    refine ih ?_ ht
    cases a with
    | submit req => exact Option.some.inj hu ▸ h.submit bound req
    | take w => exact h.take hu
    | shutdown => exact Option.some.inj hu ▸ h

/-- Every interleaving of submissions, takes and the shutdown flag runs on the ring as it runs on
the bounded queue, so the ring holds the accepted requests that no worker took, in order. -/
theorem job_ring_refines_fifo [Inhabited ρ] (queueCap : ℕ) (as : List (QueueStep ρ)) :
    (exec (jobRing ρ queueCap) (jobStart queueCap) as).map view = exec (fifo ρ queueCap) fifoStart as ∧
    ∀ s, exec (jobRing ρ queueCap) (jobStart queueCap) as = some s →
      s.pool.jobs.tail = (s.pool.jobs.head + s.pool.jobs.contents.length) % queueCap ∧
      (view s).accepted = s.taken.map Prod.snd ++ s.pool.jobs.contents ∧
      ∀ req, ((wpoolTrySubmit s.pool req).2 = true ↔
          s.pool.shutdown = false ∧ s.pool.jobs.contents.length < queueCap) ∧
        ((wpoolTrySubmit s.pool req).2 = false → (wpoolTrySubmit s.pool req).1 = s.pool) := by
  have start : Ringed queueCap (jobStart queueCap : JobRun ρ) := ⟨RingQueue.empty_indexed _ _, rfl⟩
  obtain ⟨same, ringed⟩ := exec_view (S := jobRing ρ queueCap) (T := fifo ρ queueCap) view
    (fun s a h => jobStep_view h a) (fun s a t h => jobStep_ringed h) start as
  refine ⟨same, fun s hs => ⟨?_, ?_, fun req => ⟨?_, fun rejected => ?_⟩⟩⟩
  · rw [RingQueue.contents_length, ← (ringed s hs).cap]
    exact (ringed s hs).indexed.tail_eq
  · rw [hs] at same
    exact fifo_ordered (q := fifoStart) rfl as same.symm
  · rw [admits_view (ringed s hs), Fifo.admits, Bool.and_eq_true, Bool.not_eq_true', decide_eq_true_iff]
    rfl
  · exact wpoolTrySubmit_rejects (Prod.ext rfl rejected)

end Cerco.JobQueue
