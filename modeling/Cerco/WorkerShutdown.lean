import Cerco.WorkerPool
import Mathlib.Algebra.BigOperators.Group.Finset.Piecewise

set_option autoImplicit false

/-!
# Workers and the shutdown of the pool

`worker_main` tests the number of jobs and the flag under `job_mu` and then waits, which
releases the mutex. `wpool_shutdown` stores the flag and broadcasts without the mutex, so both
can come between the test and the wait.
-/
namespace Cerco.WorkerShutdown
open RingBuffer TransitionRuns WorkerPool

universe u

variable {ρ : Type u}

inductive Thread
  | loop
  | worker (w : ℕ)
deriving DecidableEq

/-- Where a worker is in `worker_main`. -/
inductive WorkerAt (ρ : Type u)
  | idle
  /-- It holds the mutex and is before the test of the loop. -/
  | testing
  /-- It saw neither a job nor the flag, and calls `uv_cond_wait`. -/
  | drowsy
  | waiting
  /-- It was woken and needs the mutex again. -/
  | woken
  /-- It left the loop with the mutex. -/
  | checking
  | leaving
  | took (req : ρ)
  | running (req : ρ)
  | exited

/-- Where the event loop is: in `wpool_try_submit` or in `wpool_shutdown`. -/
inductive LoopAt (ρ : Type u)
  | idle
  | submitting (req : ρ)
  | signalling
  | stored
  | joining

/-- The pool, who holds `job_mu`, and where the threads are; the last two fields are history. -/
structure Crew (ρ : Type u) where
  pool : Wpool ρ
  owner : Option Thread
  loop : LoopAt ρ
  workers : ℕ → WorkerAt ρ
  accepted : List ρ
  executed : List ρ

def crewStart [Inhabited ρ] (queueCap : ℕ) : Crew ρ :=
  ⟨wpoolStart queueCap, none, .idle, fun _ => .idle, [], []⟩

inductive Act (ρ : Type u)
  | lock (req : ρ)
  | submit
  | signal (worker : Option ℕ)
  | store
  | broadcast
  | work (worker : ℕ)

def Crew.put (s : Crew ρ) (w : ℕ) (at_ : WorkerAt ρ) : Crew ρ :=
  { s with workers := Function.update s.workers w at_ }

def isWaiting : WorkerAt ρ → Bool
  | .waiting => true
  | _ => false

def wakeUp : WorkerAt ρ → WorkerAt ρ
  | .waiting => .woken
  | at_ => at_

def workerNext (s : Crew ρ) (w : ℕ) : Option (Crew ρ) :=
  match s.workers w with
  | .idle => if s.owner = none then some { s.put w .testing with owner := some (.worker w) } else none
  | .testing =>
    if s.pool.jobs.count = 0 ∧ s.pool.shutdown = false then some (s.put w .drowsy)
    else some (s.put w .checking)
  | .drowsy => some { s.put w .waiting with owner := none }
  | .waiting => some (s.put w .woken)
  | .woken => if s.owner = none then some { s.put w .testing with owner := some (.worker w) } else none
  | .checking =>
    if s.pool.jobs.count = 0 ∧ s.pool.shutdown = true then some (s.put w .leaving)
    else some { s.put w (.took s.pool.jobs.front) with pool := { s.pool with jobs := s.pool.jobs.pop } }
  | .leaving => some { s.put w .exited with owner := none }
  | .took req => some { s.put w (.running req) with owner := none }
  | .running req =>
    some { s.put w .idle with pool := wpoolPushDone s.pool req, executed := s.executed ++ [req] }
  | .exited => none

/-- `n` workers and the event loop. -/
def act (n : ℕ) (s : Crew ρ) : Act ρ → Option (Crew ρ)
  | .lock req =>
    match s.loop, s.owner with
    | .idle, none => some { s with loop := .submitting req, owner := some .loop }
    | _, _ => none
  | .submit =>
    match s.loop with
    | .submitting req =>
      match wpoolTrySubmit s.pool req with
      | (p, true) =>
        some { s with pool := p, loop := .signalling, owner := none, accepted := s.accepted ++ [req] }
      | (p, false) => some { s with pool := p, loop := .idle, owner := none }
    | _ => none
  | .signal v =>
    match s.loop, v with
    | .signalling, some w =>
      if w < n ∧ isWaiting (s.workers w) = true then some { s.put w .woken with loop := .idle } else none
    | .signalling, none =>
      if ∀ w < n, isWaiting (s.workers w) = false then some { s with loop := .idle } else none
    | _, _ => none
  | .store =>
    match s.loop with
    | .idle => some { s with pool := { s.pool with shutdown := true }, loop := .stored }
    | _ => none
  | .broadcast =>
    match s.loop with
    | .stored => some { s with workers := fun w => wakeUp (s.workers w), loop := .joining }
    | _ => none
  | .work w => if w < n then workerNext s w else none

def crew (ρ : Type u) [Inhabited ρ] (queueCap n : ℕ) : System (Crew ρ) (Act ρ) where
  start s := s = crewStart queueCap
  step := act n

def inside : WorkerAt ρ → Bool
  | .testing => true
  | .drowsy => true
  | .checking => true
  | .leaving => true
  | .took _ => true
  | _ => false

/-- A worker at this place has seen the flag and no job. -/
def done : WorkerAt ρ → Bool
  | .leaving => true
  | .exited => true
  | _ => false

def carried : WorkerAt ρ → Multiset ρ
  | .took req => {req}
  | .running req => {req}
  | _ => 0

def inHand (n : ℕ) (s : Crew ρ) : Multiset ρ := ∑ w ∈ Finset.range n, carried (s.workers w)

structure Sound (n : ℕ) (s : Crew ρ) : Prop where
  indexed : s.pool.jobs.Indexed
  owned : ∀ w, inside (s.workers w) = true → s.owner = some (.worker w)
  looped : ∀ req, s.loop = .submitting req → s.owner = some .loop
  flag : s.pool.shutdown = true ↔ s.loop = .stored ∨ s.loop = .joining
  /-- A worker that left the loop finds a job or the flag. -/
  ready : ∀ w, s.workers w = .checking → 0 < s.pool.jobs.count ∨ s.pool.shutdown = true
  last : ∀ w, done (s.workers w) = true → s.pool.shutdown = true ∧ s.pool.jobs.count = 0
  accounted : (s.accepted : Multiset ρ) = s.pool.jobs.contents + s.executed + inHand n s

theorem inHand_put {n w : ℕ} (hw : w < n) (s : Crew ρ) (at_ : WorkerAt ρ) :
    inHand n (s.put w at_) + carried (s.workers w) = inHand n s + carried at_ := by
  have mem : w ∈ Finset.range n := Finset.mem_range.mpr hw
  have moved : (fun v => carried ((s.put w at_).workers v)) =
      Function.update (fun v => carried (s.workers v)) w (carried at_) := by
    funext v
    change carried (Function.update s.workers w at_ v) = _
    rw [Function.update_apply, Function.update_apply]
    split <;> rfl
  unfold inHand
  rw [moved, Finset.sum_update_of_mem mem, Finset.sum_eq_add_sum_sdiff_singleton_of_mem mem]
  abel

theorem put_workers (s : Crew ρ) (w : ℕ) (at_ : WorkerAt ρ) (v : ℕ) :
    (s.put w at_).workers v = if v = w then at_ else s.workers v := Function.update_apply _ _ _ _

section Steps
variable {n : ℕ} {s : Crew ρ}

theorem Sound.put (h : Sound n s) {w : ℕ} (hw : w < n) {at_ : WorkerAt ρ} {owner : Option Thread}
    (own : inside at_ = true → owner = some (.worker w))
    (others : ∀ t, t ≠ .worker w → s.owner = some t → owner = some t)
    (ready : at_ = .checking → 0 < s.pool.jobs.count ∨ s.pool.shutdown = true)
    (last : done at_ = true → s.pool.shutdown = true ∧ s.pool.jobs.count = 0)
    (same : carried at_ = carried (s.workers w)) : Sound n { s.put w at_ with owner := owner } where
  indexed := h.indexed
  owned v hv := by
    change inside ((s.put w at_).workers v) = true at hv
    rw [put_workers] at hv
    by_cases e : v = w
    · rw [if_pos e] at hv
      rw [e]
      exact own hv
    · rw [if_neg e] at hv
      exact others _ (fun t => e (Thread.worker.inj t)) (h.owned v hv)
  looped req hr := others _ (fun t => Thread.noConfusion t) (h.looped req hr)
  flag := h.flag
  ready v hv := by
    change (s.put w at_).workers v = .checking at hv
    rw [put_workers] at hv
    by_cases e : v = w
    · rw [if_pos e] at hv
      exact ready hv
    · rw [if_neg e] at hv
      exact h.ready v hv
  last v hv := by
    change done ((s.put w at_).workers v) = true at hv
    rw [put_workers] at hv
    by_cases e : v = w
    · rw [if_pos e] at hv
      exact last hv
    · rw [if_neg e] at hv
      exact h.last v hv
  accounted := by
    have moved := inHand_put hw s at_
    rw [same] at moved
    change _ = _ + _ + inHand n (s.put w at_)
    rw [add_right_cancel moved]
    exact h.accounted

theorem Sound.release (h : Sound n s) {w : ℕ} (hw : w < n) (own : inside (s.workers w) = true)
    {at_ : WorkerAt ρ} (out : inside at_ = false)
    (last : done at_ = true → s.pool.shutdown = true ∧ s.pool.jobs.count = 0)
    (same : carried at_ = carried (s.workers w)) : Sound n { s.put w at_ with owner := none } := by
  refine h.put hw (fun e => ?_) (fun t ht e => ?_) (fun e => ?_) last same
  · rw [out] at e
    cases e
  · rw [h.owned w own] at e
    exact absurd (Option.some.inj e).symm ht
  · rw [e] at out
    cases out

theorem Sound.acquire (h : Sound n s) {w : ℕ} (hw : w < n) (free : s.owner = none)
    (light : carried (s.workers w) = 0) :
    Sound n { s.put w .testing with owner := some (.worker w) } := by
  refine h.put hw (fun _ => rfl) (fun t _ e => ?_) (fun e => ?_) (fun e => ?_) light.symm
  · rw [free] at e
    cases e
  · cases e
  · cases e

theorem Sound.stay (h : Sound n s) {w : ℕ} (hw : w < n) {at_ : WorkerAt ρ}
    (own : inside at_ = true → inside (s.workers w) = true)
    (ready : at_ = .checking → 0 < s.pool.jobs.count ∨ s.pool.shutdown = true)
    (last : done at_ = true → s.pool.shutdown = true ∧ s.pool.jobs.count = 0)
    (same : carried at_ = carried (s.workers w)) : Sound n (s.put w at_) :=
  h.put hw (fun e => h.owned w (own e)) (fun _ _ e => e) ready last same

theorem Sound.take (h : Sound n s) {w : ℕ} (hw : w < n) (at_ : s.workers w = .checking)
    (job : ¬ (s.pool.jobs.count = 0 ∧ s.pool.shutdown = true)) :
    Sound n { s.put w (.took s.pool.jobs.front) with
      pool := { s.pool with jobs := s.pool.jobs.pop } } := by
  have some_ : 0 < s.pool.jobs.count := by
    obtain some_ | flag := h.ready w at_
    · exact some_
    · exact Nat.pos_of_ne_zero fun none_ => job ⟨none_, flag⟩
  have own : s.owner = some (.worker w) := h.owned w (by rw [at_]; rfl)
  refine ⟨RingQueue.pop_indexed h.indexed some_, fun v hv => ?_, fun req hr => ?_, h.flag, fun v hv => ?_,
    fun v hv => ?_, ?_⟩
  · change inside ((s.put w _).workers v) = true at hv
    rw [put_workers] at hv
    by_cases e : v = w
    · rw [e]
      exact own
    · rw [if_neg e] at hv
      exact h.owned v hv
  · have both := h.looped req hr
    rw [own] at both
    cases both
  · change (s.put w _).workers v = .checking at hv
    rw [put_workers] at hv
    by_cases e : v = w
    · rw [if_pos e] at hv
      cases hv
    · rw [if_neg e] at hv
      have both := h.owned v (by rw [hv]; rfl)
      rw [own] at both
      exact absurd (Thread.worker.inj (Option.some.inj both)).symm e
  · change done ((s.put w _).workers v) = true at hv
    rw [put_workers] at hv
    by_cases e : v = w
    · rw [if_pos e] at hv
      cases hv
    · rw [if_neg e] at hv
      obtain ⟨flag, none_⟩ := h.last v hv
      exact absurd none_ (Nat.ne_of_gt some_)
  · have moved := inHand_put hw s (.took s.pool.jobs.front)
    rw [at_] at moved
    have light : carried (WorkerAt.checking : WorkerAt ρ) = 0 := rfl
    rw [light, add_zero] at moved
    have gone := RingQueue.contents_pop h.indexed some_
    calc (s.accepted : Multiset ρ) = s.pool.jobs.contents + s.executed + inHand n s := h.accounted
      _ = {s.pool.jobs.front} + s.pool.jobs.pop.contents + s.executed + inHand n s := by
        rw [gone, ← Multiset.cons_coe, ← Multiset.singleton_add]
      _ = s.pool.jobs.pop.contents + s.executed + (inHand n s + {s.pool.jobs.front}) := by abel
      _ = s.pool.jobs.pop.contents + s.executed + inHand n (s.put w (.took s.pool.jobs.front)) := by
        rw [moved]
        rfl

theorem Sound.finish (h : Sound n s) {w : ℕ} (hw : w < n) {req : ρ} (at_ : s.workers w = .running req) :
    Sound n { s.put w .idle with pool := wpoolPushDone s.pool req, executed := s.executed ++ [req] } := by
  refine ⟨h.indexed, fun v hv => ?_, h.looped, h.flag, fun v hv => ?_, fun v hv => ?_, ?_⟩
  · change inside ((s.put w .idle).workers v) = true at hv
    rw [put_workers] at hv
    by_cases e : v = w
    · rw [if_pos e] at hv
      cases hv
    · rw [if_neg e] at hv
      exact h.owned v hv
  · change (s.put w .idle).workers v = .checking at hv
    rw [put_workers] at hv
    by_cases e : v = w
    · rw [if_pos e] at hv
      cases hv
    · rw [if_neg e] at hv
      exact h.ready v hv
  · change done ((s.put w .idle).workers v) = true at hv
    rw [put_workers] at hv
    by_cases e : v = w
    · rw [if_pos e] at hv
      cases hv
    · rw [if_neg e] at hv
      exact h.last v hv
  · have moved := inHand_put hw s .idle
    rw [at_] at moved
    have light : carried (WorkerAt.idle : WorkerAt ρ) = 0 := rfl
    have heavy : carried (WorkerAt.running req) = {req} := rfl
    rw [light, heavy, add_zero] at moved
    calc (s.accepted : Multiset ρ) = s.pool.jobs.contents + s.executed + inHand n s := h.accounted
      _ = s.pool.jobs.contents + (s.executed + ({req} : Multiset ρ)) + inHand n (s.put w .idle) := by
        rw [← moved]
        abel
      _ = s.pool.jobs.contents + ((s.executed ++ [req] : List ρ) : Multiset ρ) + inHand n (s.put w .idle) := by
        rw [← Multiset.coe_add, Multiset.coe_singleton]

theorem Sound.workerNext (h : Sound n s) {w : ℕ} (hw : w < n) {t : Crew ρ} (ht : workerNext s w = some t) :
    Sound n t := by
  unfold WorkerShutdown.workerNext at ht
  cases at_ : s.workers w with
  | idle =>
    rw [at_] at ht
    dsimp only at ht
    split at ht
    · cases ht
      exact h.acquire hw ‹_› (by rw [at_]; rfl)
    · cases ht
  | testing =>
    rw [at_] at ht
    dsimp only at ht
    split at ht
    · cases ht
      exact h.stay hw (fun _ => by rw [at_]; rfl) nofun nofun (by rw [at_]; rfl)
    · rename_i seen
      cases ht
      refine h.stay hw (fun _ => by rw [at_]; rfl) (fun _ => ?_) nofun (by rw [at_]; rfl)
      rw [not_and_or, Bool.not_eq_false] at seen
      exact seen.imp Nat.pos_of_ne_zero id
  | drowsy =>
    rw [at_] at ht
    cases ht
    exact h.release hw (by rw [at_]; rfl) rfl nofun (by rw [at_]; rfl)
  | waiting =>
    rw [at_] at ht
    cases ht
    exact h.stay hw nofun nofun nofun (by rw [at_]; rfl)
  | woken =>
    rw [at_] at ht
    dsimp only at ht
    split at ht
    · cases ht
      exact h.acquire hw ‹_› (by rw [at_]; rfl)
    · cases ht
  | checking =>
    rw [at_] at ht
    dsimp only at ht
    split at ht
    · rename_i over_
      cases ht
      exact h.stay hw (fun _ => by rw [at_]; rfl) nofun (fun _ => ⟨over_.2, over_.1⟩) (by rw [at_]; rfl)
    · cases ht
      exact h.take hw at_ ‹_›
  | leaving =>
    rw [at_] at ht
    cases ht
    exact h.release hw (by rw [at_]; rfl) rfl (fun _ => h.last w (by rw [at_]; rfl)) (by rw [at_]; rfl)
  | took req =>
    rw [at_] at ht
    cases ht
    exact h.release hw (by rw [at_]; rfl) rfl nofun (by rw [at_]; rfl)
  | running req =>
    rw [at_] at ht
    cases ht
    exact h.finish hw at_
  | exited =>
    rw [at_] at ht
    cases ht

@[simp] theorem inside_wakeUp (x : WorkerAt ρ) : inside (wakeUp x) = inside x := by
  cases x <;> rfl

@[simp] theorem done_wakeUp (x : WorkerAt ρ) : done (wakeUp x) = done x := by
  cases x <;> rfl

@[simp] theorem carried_wakeUp (x : WorkerAt ρ) : carried (wakeUp x) = carried x := by
  cases x <;> rfl

theorem wakeUp_checking {x : WorkerAt ρ} (h : wakeUp x = .checking) : x = .checking := by
  cases x <;> first | rfl | cases h

theorem Sound.goes (h : Sound n s) {loop : LoopAt ρ} {owner : Option Thread}
    (own : ∀ w, s.owner = some (.worker w) → owner = some (.worker w))
    (looped : ∀ req, loop = .submitting req → owner = some .loop)
    (flag : (loop = .stored ∨ loop = .joining) ↔ (s.loop = .stored ∨ s.loop = .joining)) :
    Sound n { s with loop := loop, owner := owner } :=
  ⟨h.indexed, fun w hw => own w (h.owned w hw), looped, h.flag.trans flag.symm, h.ready, h.last,
    h.accounted⟩

theorem Sound.accept (h : Sound n s) {req : ρ} (at_ : s.loop = .submitting req) {p : Wpool ρ}
    (hp : wpoolTrySubmit s.pool req = (p, true)) :
    Sound n { s with
      pool := p, loop := .signalling, owner := none, accepted := s.accepted ++ [req] } := by
  obtain ⟨room, rfl⟩ := wpoolTrySubmit_accepts hp
  have own : s.owner = some .loop := h.looped req at_
  have outside : ∀ w, inside (s.workers w) = true → False := by
    intro w hw
    have both := h.owned w hw
    rw [own] at both
    cases both
  have open_ : ¬ s.pool.shutdown = true := by
    rw [h.flag, at_]
    simp
  refine ⟨RingQueue.push_indexed h.indexed req, fun w hw => (outside w hw).elim, nofun, ?_,
    fun w hw => (outside w (by rw [hw]; rfl)).elim, fun w hw => absurd (h.last w hw).1 open_, ?_⟩
  · exact iff_of_false open_ (by simp)
  · have put : ((s.accepted ++ [req] : List ρ) : Multiset ρ) = s.accepted + ({req} : Multiset ρ) := by
      rw [← Multiset.coe_add, Multiset.coe_singleton]
    calc ((s.accepted ++ [req] : List ρ) : Multiset ρ)
      _ = s.pool.jobs.contents + ({req} : Multiset ρ) + s.executed + inHand n s := by
        rw [put, h.accounted]
        abel
      _ = (s.pool.jobs.push req).contents + s.executed + inHand n s := by
        rw [RingQueue.push_contents h.indexed req room, ← Multiset.coe_add, Multiset.coe_singleton]

theorem Sound.store (h : Sound n s) :
    Sound n { s with pool := { s.pool with shutdown := true }, loop := .stored } :=
  ⟨h.indexed, h.owned, nofun, iff_of_true rfl (.inl rfl), fun _ _ => .inr rfl,
    fun w hw => ⟨rfl, (h.last w hw).2⟩, h.accounted⟩

theorem Sound.broadcast (h : Sound n s) (at_ : s.loop = .stored) :
    Sound n { s with workers := fun w => wakeUp (s.workers w), loop := .joining } := by
  refine ⟨h.indexed, fun w hw => h.owned w ((inside_wakeUp _).symm.trans hw), nofun, ?_,
    fun w hw => h.ready w (wakeUp_checking hw), fun w hw => h.last w ((done_wakeUp _).symm.trans hw), ?_⟩
  · exact iff_of_true (h.flag.mpr (.inl at_)) (.inr rfl)
  · have same : inHand n { s with workers := fun w => wakeUp (s.workers w), loop := .joining } = inHand n s := by
      unfold inHand
      simp
    rw [same]
    exact h.accounted

theorem Sound.act (h : Sound n s) {a : Act ρ} {t : Crew ρ} (ht : act n s a = some t) : Sound n t := by
  unfold WorkerShutdown.act at ht
  cases a with
  | lock req =>
    dsimp only at ht
    split at ht
    · rename_i loop owner
      cases ht
      refine h.goes (fun w e => ?_) (fun _ _ => rfl) (by rw [loop]; simp)
      rw [owner] at e
      cases e
    · cases ht
  | submit =>
    dsimp only at ht
    split at ht
    · rename_i req loop
      have own := h.looped req loop
      split at ht
      · rename_i p hp
        cases ht
        exact h.accept loop hp
      · rename_i p hp
        cases ht
        rw [wpoolTrySubmit_rejects hp]
        refine h.goes (fun w e => ?_) nofun (by rw [loop]; simp)
        rw [own] at e
        cases e
    · cases ht
  | signal v =>
    dsimp only at ht
    split at ht
    · rename_i w loop
      split at ht
      · rename_i hw
        cases ht
        have light : carried (s.workers w) = 0 := by
          cases at_ : s.workers w <;> first | rfl | (rw [at_] at hw; cases hw.2)
        have woken : Sound n (s.put w .woken) := h.stay hw.1 nofun nofun nofun light.symm
        exact woken.goes (fun _ e => e) nofun (by change _ ↔ s.loop = _ ∨ s.loop = _; rw [loop]; simp)
      · cases ht
    · rename_i loop
      split at ht
      · cases ht
        exact h.goes (fun _ e => e) nofun (by rw [loop]; simp)
      · cases ht
    · cases ht
  | store =>
    dsimp only at ht
    split at ht
    · cases ht
      exact h.store
    · cases ht
  | broadcast =>
    dsimp only at ht
    split at ht
    · rename_i loop
      cases ht
      exact h.broadcast loop
    · cases ht
  | work w =>
    dsimp only at ht
    split at ht
    · exact h.workerNext ‹_› ht
    · cases ht

end Steps

theorem crewStart_sound [Inhabited ρ] (queueCap n : ℕ) : Sound n (crewStart queueCap : Crew ρ) := by
  refine ⟨RingQueue.empty_indexed _ _, nofun, nofun, ?_, nofun, nofun, ?_⟩
  · exact iff_of_false Bool.false_ne_true (by simp [crewStart])
  · simp [crewStart, inHand, carried, wpoolStart]

theorem reach_sound [Inhabited ρ] {queueCap n : ℕ} {ok : Crew ρ → Act ρ → Prop} {s : Crew ρ}
    (h : Reach (crew ρ queueCap n) ok s) : Sound n s :=
  h.invariant (fun _ hs => hs ▸ crewStart_sound queueCap n) fun _ _ _ hi _ ht => hi.act ht

/-- After the broadcast a worker is blocked, and nobody will wake it. -/
def Stranded (n : ℕ) (s : Crew ρ) : Prop := s.loop = .joining ∧ ∃ w < n, s.workers w = .waiting

def isDrowsy : WorkerAt ρ → Bool
  | .drowsy => true
  | _ => false

/-- The broadcast finds no worker between its test and its wait. -/
def prompt (n : ℕ) (s : Crew ρ) : Act ρ → Prop
  | .broadcast => ∀ w < n, isDrowsy (s.workers w) = false
  | _ => True

instance (n : ℕ) (s : Crew ρ) (a : Act ρ) : Decidable (prompt n s a) :=
  match a with
  | .broadcast => inferInstanceAs (Decidable (∀ w < n, isDrowsy (s.workers w) = false))
  | .lock _ => isTrue trivial
  | .submit => isTrue trivial
  | .signal _ => isTrue trivial
  | .store => isTrue trivial
  | .work _ => isTrue trivial

def dozing : WorkerAt ρ → Bool
  | .drowsy => true
  | .waiting => true
  | _ => false

def Awake (n : ℕ) (s : Crew ρ) : Prop := s.loop = .joining → ∀ w < n, dozing (s.workers w) = false

section Steps
variable {n : ℕ} {s : Crew ρ}

theorem workerNext_loop {w : ℕ} {t : Crew ρ} (ht : workerNext s w = some t) : t.loop = s.loop := by
  unfold workerNext at ht
  split at ht <;> first | (split at ht <;> cases ht <;> rfl) | (cases ht; try rfl)

theorem workerNext_dozing (flag : s.pool.shutdown = true) {w : ℕ} {t : Crew ρ} (ht : workerNext s w = some t)
    (awake : dozing (s.workers w) = false) (v : ℕ) (other : dozing (s.workers v) = false) :
    dozing (t.workers v) = false := by
  have put : ∀ at_ : WorkerAt ρ, dozing at_ = false → dozing ((s.put w at_).workers v) = false := by
    intro at_ h
    rw [put_workers]
    split
    · exact h
    · exact other
  unfold workerNext at ht
  cases at_ : s.workers w with
  | drowsy =>
    rw [at_] at awake
    cases awake
  | waiting =>
    rw [at_] at awake
    cases awake
  | testing =>
    rw [at_] at ht
    dsimp only at ht
    rw [if_neg (by simp [flag])] at ht
    cases ht
    exact put _ rfl
  | exited =>
    rw [at_] at ht
    cases ht
  | checking =>
    rw [at_] at ht
    dsimp only at ht
    split at ht <;> cases ht <;> exact put _ rfl
  | idle =>
    rw [at_] at ht
    dsimp only at ht
    split at ht <;> cases ht
    exact put _ rfl
  | woken =>
    rw [at_] at ht
    dsimp only at ht
    split at ht <;> cases ht
    exact put _ rfl
  | leaving =>
    rw [at_] at ht
    cases ht
    exact put _ rfl
  | took req =>
    rw [at_] at ht
    cases ht
    exact put _ rfl
  | running req =>
    rw [at_] at ht
    cases ht
    exact put _ rfl

theorem Awake.act (awake : Awake n s) (h : Sound n s) {a : Act ρ} (ok : prompt n s a) {t : Crew ρ}
    (ht : act n s a = some t) : Awake n t := by
  intro joining v hv
  unfold WorkerShutdown.act at ht
  cases a with
  | lock req =>
    dsimp only at ht
    split at ht
    · cases ht
      cases joining
    · cases ht
  | submit =>
    dsimp only at ht
    split at ht
    · split at ht <;> cases ht <;> cases joining
    · cases ht
  | signal v =>
    dsimp only at ht
    split at ht
    · split at ht <;> cases ht
      cases joining
    · split at ht <;> cases ht
      cases joining
    · cases ht
  | store =>
    dsimp only at ht
    split at ht <;> cases ht
    cases joining
  | broadcast =>
    dsimp only at ht
    split at ht <;> cases ht
    have alert : isDrowsy (s.workers v) = false := ok v hv
    change dozing (wakeUp (s.workers v)) = false
    cases at_ : s.workers v with
    | drowsy =>
      rw [at_] at alert
      cases alert
    | _ => rfl
  | work w =>
    dsimp only at ht
    split at ht
    · rename_i hw
      have same : t.loop = s.loop := workerNext_loop ht
      rw [same] at joining
      exact workerNext_dozing (h.flag.mpr (.inr joining)) ht (awake joining w hw) v (awake joining v hv)
    · cases ht

end Steps

theorem reach_awake [Inhabited ρ] {queueCap n : ℕ} {s : Crew ρ} (h : Reach (crew ρ queueCap n) (prompt n) s) :
    Awake n s :=
  h.invariant_with (fun _ hr => reach_sound hr) (fun s hs => by rw [hs]; exact nofun)
    fun _ _ _ sound awake ok ht => awake.act sound ok ht

theorem exited_executed [Inhabited ρ] {queueCap n : ℕ} {s : Crew ρ} (h : Reach (crew ρ queueCap n) anyStep s)
    (some_ : 0 < n) (all : ∀ w < n, s.workers w = .exited) : s.accepted.Perm s.executed := by
  have sound := reach_sound h
  have idle : inHand n s = 0 := by
    refine Finset.sum_eq_zero fun w hw => ?_
    rw [all w (Finset.mem_range.mp hw)]
    rfl
  have none_ : s.pool.jobs.contents = [] := by
    refine List.length_eq_zero_iff.mp ?_
    rw [RingQueue.contents_length]
    exact (sound.last 0 (by rw [all 0 some_]; rfl)).2
  have same := sound.accounted
  rw [idle, none_, add_zero, Multiset.coe_nil, zero_add] at same
  exact Multiset.coe_eq_coe.mp same

/-- When the broadcast finds no worker between its test and its wait, no worker is stranded; when it
finds one, the next step of this worker strands it. When the last worker exits, all jobs accepted
before the flag was stored are executed. -/
theorem workers_stranded_iff (ρ : Type u) [Inhabited ρ] (queueCap n : ℕ) :
    (∀ s, Reach (crew ρ queueCap n) (prompt n) s → ¬ Stranded n s) ∧
    (∀ s t, Reach (crew ρ queueCap n) anyStep s → act n s .broadcast = some t → ¬ prompt n s .broadcast →
      ∃ w u, act n t (.work w) = some u ∧ Stranded n u) ∧
    ∀ s, Reach (crew ρ queueCap n) anyStep s → 0 < n → (∀ w < n, s.workers w = .exited) →
      s.accepted.Perm s.executed := by
  refine ⟨fun s h ⟨joining, w, hw, waiting⟩ => ?_, fun s t h ht late => ?_, fun s => exited_executed⟩
  · have awake := reach_awake h joining w hw
    rw [waiting] at awake
    cases awake
  · unfold act at ht
    dsimp only at ht
    split at ht <;> cases ht
    obtain ⟨w, hw, drowsy⟩ : ∃ w, w < n ∧ isDrowsy (s.workers w) = true := by
      by_contra none_
      refine late fun w hw => ?_
      rw [← Bool.not_eq_true]
      exact fun drowsy => none_ ⟨w, hw, drowsy⟩
    have at_ : s.workers w = .drowsy := by
      cases h : s.workers w <;> first | rfl | (rw [h] at drowsy; cases drowsy)
    have still : wakeUp (s.workers w) = .drowsy := by
      rw [at_]
      rfl
    let t : Crew ρ := { s with workers := fun w => wakeUp (s.workers w), loop := .joining }
    refine ⟨w, { t.put w .waiting with owner := none }, ?_, rfl, w, hw, Function.update_self _ _ _⟩
    unfold act
    dsimp only
    rw [if_pos hw]
    unfold workerNext
    dsimp only
    rw [still]

def isJoining : LoopAt ρ → Bool
  | .joining => true
  | _ => false

def isExited : WorkerAt ρ → Bool
  | .exited => true
  | _ => false

def report (s : Crew ℕ) : List Bool × List ℕ :=
  ([isJoining s.loop, isDrowsy (s.workers 0), isWaiting (s.workers 0), isExited (s.workers 0)], s.executed)

def lateRun : List (Act ℕ) := [.work 0, .work 0, .store]

def jobRun : List (Act ℕ) :=
  [.lock 7, .submit, .signal none, .store, .broadcast] ++ List.replicate 9 (.work 0)

/-- The worker waits after the broadcast. -/
theorem worker_stranded : ∃ s : Crew ℕ, Reach (crew ℕ 4 1) anyStep s ∧ Stranded 1 s := by
  have run : (exec (crew ℕ 4 1) (crewStart 4) (lateRun ++ [.broadcast, .work 0])).map report =
    some ([true, false, true, false], []) := by decide
  obtain ⟨s, hs, e⟩ := Option.map_eq_some_iff.mp run
  simp only [report, Prod.mk.injEq, List.cons.injEq, and_true] at e
  obtain ⟨⟨joining, _, waiting, _⟩, _⟩ := e
  refine ⟨s, exec_reach _ (.start rfl) (fun _ _ _ => trivial) hs, ?_, 0, Nat.one_pos, ?_⟩
  · cases at_ : s.loop <;> first | rfl | (rw [at_] at joining; cases joining)
  · cases at_ : s.workers 0 <;> first | rfl | (rw [at_] at waiting; cases waiting)

/-- One run that ends well, and one that does not. -/
theorem workers_stranded_iff_runs : ∃ s u : Crew ℕ,
    ¬ Stranded 1 s ∧ s.accepted.Perm s.executed ∧ s.executed = [7] ∧ Stranded 1 u := by
  have job : (execWhile (crew ℕ 4 1) (prompt 1) (crewStart 4) jobRun).map report =
    some ([true, false, false, true], [7]) := by decide
  have late : (exec (crew ℕ 4 1) (crewStart 4) lateRun).map (fun s => (report s, (act 1 s .broadcast).isSome)) =
    some (([false, true, false, false], []), true) := by decide
  obtain ⟨s, hs, e⟩ := Option.map_eq_some_iff.mp job
  obtain ⟨v, hv, f⟩ := Option.map_eq_some_iff.mp late
  simp only [report, Prod.mk.injEq, List.cons.injEq, and_true] at e f
  obtain ⟨⟨_, _, _, exited⟩, executed⟩ := e
  obtain ⟨⟨⟨_, drowsy, _⟩, _⟩, cast⟩ := f
  obtain ⟨t, ht⟩ := Option.isSome_iff_exists.mp cast
  have met : Reach (crew ℕ 4 1) (prompt 1) s := execWhile_reach jobRun (.start rfl) hs
  obtain ⟨w, u, _, stranded⟩ := (workers_stranded_iff ℕ 4 1).2.1 v t
    (exec_reach lateRun (.start rfl) (fun _ _ _ => trivial) hv) ht (fun ok => by
      have awake := ok 0 Nat.one_pos
      rw [drowsy] at awake
      cases awake)
  refine ⟨s, u, (workers_stranded_iff ℕ 4 1).1 s met, ?_, executed, stranded⟩
  refine (workers_stranded_iff ℕ 4 1).2.2 s (met.mono fun _ _ _ => trivial) Nat.one_pos fun w hw => ?_
  rw [Nat.lt_one_iff.mp hw]
  cases at_ : s.workers 0 <;> first | rfl | (rw [at_] at exited; cases exited)

end Cerco.WorkerShutdown
