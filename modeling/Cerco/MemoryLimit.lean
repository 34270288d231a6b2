import Cerco.RequestGrammar
import Cerco.ServerRules

set_option autoImplicit false

/-!
# The memory limit of a request

Nothing installs another policy than `arena_oom_default`, so an allocation that
`arena_grow` refuses aborts the process. It does so when the current chunk has no
room and the capped total none either, and when the request is larger than any
chunk: then the loop adds chunks until the cap is reached.
-/
namespace Cerco.MemoryLimit
open Cerco.Alloc Cerco.CString Cerco.Connection Cerco.Dispatch Cerco.HttpCallbacks Cerco.Server
open Cerco.WorkerPool Cerco.TransitionRuns Cerco.ConnFrames Cerco.ServerRules Cerco.RequestGrammar
open Cerco.ArenaUse Cerco.Router

variable {σ : Type}

/-- The call fits neither the current chunk nor another one under the cap. -/
def Overruns (c : AllocCall) : Prop :=
  c.room < c.pad + c.size ∧ c.hardCap ≠ 0 ∧ (c.hardCap < c.total + c.size ∨ chunkMax < c.size)

instance (c : AllocCall) : Decidable (Overruns c) := by unfold Overruns; infer_instance

theorem arenaGrow_cases {a : Arena} (granted : Granted a.mem) (need : ℕ) :
    overCap a need ∧ arenaGrow a need = (false, { a with oom := true }) ∨
    (¬ overCap a need ∧ ∃ p, p % 8 = 0 ∧ arenaGrow a need = (true, grown a need p)) := by
  obtain ⟨p, hp, aligned⟩ := granted a.mallocs (sizeofChunk + growCap a need)
  obtain past | ⟨_, failed, _⟩ | ⟨under, q, hq, e⟩ := arenaGrow_outcomes a need
  · exact .inl past
  · rw [hp] at failed
    cases failed
  · rw [hp] at hq
    cases hq
    exact .inr ⟨under, p, aligned, e⟩

theorem growCap_eq (a : Arena) (need : ℕ) :
    ∃ doubled, growCap a need = min (max doubled need) chunkMax := by
  have capped : ∀ d, (if chunkMax < (if d < need then need else d) then chunkMax
      else if d < need then need else d) = min (max d need) chunkMax := by
    intro d
    split_ifs <;> omega
  exact ⟨_, capped _⟩

theorem growCap_le (a : Arena) {need : ℕ} (h : need ≤ chunkMax) : need ≤ growCap a need := by
  obtain ⟨doubled, e⟩ := growCap_eq a need
  omega

theorem growCap_large (a : Arena) {need : ℕ} (h : chunkMax < need) : growCap a need = chunkMax := by
  obtain ⟨doubled, e⟩ := growCap_eq a need
  omega

theorem padTo_aligned {addr : ℕ} (h : addr % 8 = 0) : padTo addr 8 = 0 := by
  unfold padTo
  omega

theorem allocLoop_new {size rounds p cap : ℕ} {a : Arena} {cs : List Chunk}
    (hc : a.chunks = ⟨p + sizeofChunk, cap, 0⟩ :: cs) (aligned : p % 8 = 0) (fits : size ≤ cap) :
    (allocLoop size 8 (rounds + 1) a).2.policyRan = a.policyRan := by
  have pad : padTo (p + sizeofChunk + 0) 8 = 0 := padTo_aligned (by unfold sizeofChunk; omega)
  rw [allocLoop, hc]
  dsimp only
  rw [pad, if_pos (by omega)]

theorem allocLoop_uncapped (size rounds : ℕ) {a : Arena} (granted : Granted a.mem)
    (uncapped : a.hardCap = 0) : (allocLoop size 8 rounds a).2.policyRan = a.policyRan := by
  induction rounds generalizing a with
  | zero => rfl
  | succ rounds ih =>
    rw [allocLoop]
    split
    · rfl
    · dsimp only
      split
      · rfl
      · obtain ⟨full, _⟩ | ⟨_, p, _, e⟩ := arenaGrow_cases granted size
        · exact absurd uncapped full.1
        · rw [e]
          exact ih (a := grown a size p) granted uncapped

theorem allocLoop_large {size : ℕ} (rounds : ℕ) {a : Arena} {c : Chunk} {cs : List Chunk}
    (granted : Granted a.mem) (large : chunkMax < size) (capped : a.hardCap ≠ 0)
    (hc : a.chunks = c :: cs) (full : c.cap - c.used < padTo (c.base + c.used) 8 + size)
    (enough : a.hardCap < a.total + size + rounds * chunkMax) :
    (allocLoop size 8 (rounds + 1) a).2.policyRan = true := by
  induction rounds generalizing a c cs with
  | zero =>
    obtain ⟨_, e⟩ | ⟨under, _⟩ := arenaGrow_cases granted size
    · rw [allocLoop, hc]
      dsimp only
      rw [if_neg (by omega), e]
    · exact absurd ⟨capped, by omega⟩ under
  | succ rounds ih =>
    obtain ⟨_, e⟩ | ⟨_, p, aligned, e⟩ := arenaGrow_cases granted size
    · rw [allocLoop, hc]
      dsimp only
      rw [if_neg (by omega), e]
    · rw [allocLoop, hc]
      dsimp only
      rw [if_neg (by omega), e]
      have cap := growCap_large a large
      refine ih (a := grown a size p) granted capped rfl ?_ ?_
      · change growCap a size - 0 < _
        omega
      · change a.hardCap < a.total + growCap a size + size + rounds * chunkMax
        rw [cap]
        rw [Nat.succ_mul] at enough
        omega

theorem allocLoop_grown {a : Arena} {size p : ℕ} (rounds : ℕ) (granted : Granted a.mem)
    (aligned : p % 8 = 0) (enough : a.hardCap < a.total + size + (rounds + 1) * chunkMax) :
    (allocLoop size 8 (rounds + 1) (grown a size p)).2.policyRan = true ↔
      a.policyRan = true ∨ (a.hardCap ≠ 0 ∧ chunkMax < size) := by
  by_cases large : chunkMax < size
  · by_cases capped : a.hardCap = 0
    · rw [allocLoop_uncapped size (rounds + 1) (a := grown a size p) granted capped]
      simp [grown, capped]
    · have cap := growCap_large a large
      have ran : (allocLoop size 8 (rounds + 1) (grown a size p)).2.policyRan = true := by
        refine allocLoop_large rounds (a := grown a size p) granted large capped rfl ?_ ?_
        · change growCap a size - 0 < _
          omega
        · change a.hardCap < a.total + growCap a size + size + rounds * chunkMax
          rw [cap]
          rw [Nat.succ_mul] at enough
          omega
      simp [ran, capped, large]
  · have fits : size ≤ growCap a size := growCap_le a (Nat.le_of_not_gt large)
    rw [allocLoop_new (a := grown a size p) rfl aligned fits]
    simp [grown, large]

structure Tracked (a : Arena) : Prop where
  granted : Granted a.mem
  ran : a.policyRan = true ↔ ∃ c ∈ a.calls, Overruns c

theorem arenaGrow_history (a : Arena) (need : ℕ) :
    ((arenaGrow a need).2.mem, (arenaGrow a need).2.calls) = (a.mem, a.calls) := by
  unfold arenaGrow chunkNew
  split
  · rfl
  · cases a.mem a.mallocs (sizeofChunk + growCap a need) <;> rfl

theorem allocLoop_history (size align rounds : ℕ) (a : Arena) :
    ((allocLoop size align rounds a).2.mem, (allocLoop size align rounds a).2.calls) =
      (a.mem, a.calls) := by
  induction rounds generalizing a with
  | zero => rfl
  | succ rounds ih =>
    have kept := arenaGrow_history a size
    rw [allocLoop]
    split
    · rfl
    · dsimp only
      split
      · rfl
      · split <;> rename_i h <;> rw [h] at kept
        · exact (ih _).trans kept
        · exact kept

/-- `arenaAlloc` from the moment its call is noted. -/
def allocNoted (a : Arena) (size rounds : ℕ) : Option ℕ × Arena :=
  if a.chunks.isEmpty then
    match arenaGrow a size with
    | (true, a') => allocLoop size 8 rounds a'
    | (false, a') => (none, { a' with policyRan := true })
  else allocLoop size 8 rounds a

theorem arenaAlloc_noted (a : Arena) (size : ℕ) : ∃ n, 0 < n ∧ arenaAlloc a size =
    allocNoted { a with calls := a.calls ++ [callOf a n 8] } n (a.hardCap + 64) := by
  refine ⟨if size = 0 then 1 else size, ?_, rfl⟩
  split_ifs <;> omega

theorem allocNoted_history (a : Arena) (size rounds : ℕ) :
    ((allocNoted a size rounds).2.mem, (allocNoted a size rounds).2.calls) = (a.mem, a.calls) := by
  have kept := arenaGrow_history a size
  unfold allocNoted
  split
  · split <;> rename_i h <;> rw [h] at kept
    · exact (allocLoop_history _ _ _ _).trans kept
    · exact kept
  · exact allocLoop_history _ _ _ _

theorem allocNoted_policy {a : Arena} {size : ℕ} (rounds : ℕ) (granted : Granted a.mem)
    (pos : 0 < size) (enough : a.hardCap < a.total + size + (rounds + 1) * chunkMax) :
    (allocNoted a size (rounds + 2)).2.policyRan = true ↔
      a.policyRan = true ∨ Overruns (callOf a size 8) := by
  unfold allocNoted
  cases hc : a.chunks with
  | nil =>
    have call : callOf a size 8 = ⟨size, 0, 0, a.total, a.hardCap⟩ := by rw [callOf, hc]
    rw [List.isEmpty_nil, if_pos rfl, call]
    obtain ⟨past, e⟩ | ⟨under, p, aligned, e⟩ := arenaGrow_cases granted size
    · rw [e]
      have o : Overruns ⟨size, 0, 0, a.total, a.hardCap⟩ :=
        ⟨by dsimp only; omega, past.1, .inl past.2⟩
      simp [o]
    · rw [e]
      dsimp only
      rw [allocLoop_grown (rounds + 1) granted aligned (by rw [Nat.succ_mul]; omega)]
      simp only [Overruns, overCap] at under ⊢
      grind
  | cons c cs =>
    have call : callOf a size 8 =
      ⟨size, padTo (c.base + c.used) 8, c.cap - c.used, a.total, a.hardCap⟩ := by rw [callOf, hc]
    rw [List.isEmpty_cons, if_neg (by simp), call, allocLoop, hc]
    dsimp only
    split
    · rename_i fits
      have o : ¬ Overruns ⟨size, padTo (c.base + c.used) 8, c.cap - c.used, a.total, a.hardCap⟩ :=
        fun h => Nat.not_lt.mpr fits h.1
      simp [o]
    · rename_i full
      obtain ⟨past, e⟩ | ⟨under, p, aligned, e⟩ := arenaGrow_cases granted size
      · rw [e]
        have o : Overruns ⟨size, padTo (c.base + c.used) 8, c.cap - c.used, a.total, a.hardCap⟩ :=
          ⟨Nat.not_le.mp full, past.1, .inl past.2⟩
        simp [o]
      · rw [e]
        dsimp only
        rw [allocLoop_grown rounds granted aligned enough]
        simp only [Overruns, overCap] at under ⊢
        grind

theorem Tracked.alloc {a : Arena} (h : Tracked a) (size : ℕ) : Tracked (arenaAlloc a size).2 := by
  obtain ⟨n, pos, e⟩ := arenaAlloc_noted a size
  have kept := allocNoted_history { a with calls := a.calls ++ [callOf a n 8] } n (a.hardCap + 64)
  have policy := allocNoted_policy (a := { a with calls := a.calls ++ [callOf a n 8] })
    (a.hardCap + 62) h.granted pos (by unfold chunkMax; dsimp only; omega)
  rw [← e] at kept policy
  obtain ⟨mem, calls⟩ := Prod.mk.inj kept
  refine ⟨by rw [mem]; exact h.granted, ?_⟩
  rw [policy, calls, h.ran]
  change _ ∨ Overruns (callOf a n 8) ↔ _
  simp only [List.mem_append, List.mem_singleton, or_and_right, exists_or, exists_eq_left]

theorem Tracked.init {a : Arena} (h : Tracked a) (first cap : ℕ) :
    Tracked (arenaInit a first cap) := by
  obtain ⟨p, hp, _⟩ := h.granted a.mallocs (sizeofChunk + if first < 64 then 64 else first)
  unfold arenaInit
  simp only [chunkNew, hp, Option.map_some]
  exact ⟨h.granted, h.ran⟩

theorem Tracked.allocs {a b : Arena} (h : Tracked a) (hb : Allocs a b) : Tracked b := by
  induction hb with
  | refl => exact h
  | alloc _ size ih => exact ih.alloc size
  | init _ _ first cap ih => exact ih.init first cap

theorem Tracked.reset {a : Arena} (h : Tracked a) : Tracked (arenaReset a) := by
  unfold arenaReset
  split <;> exact ⟨h.granted, h.ran⟩

theorem Tracked.destroy {a : Arena} (h : Tracked a) : Tracked (arenaDestroy a) :=
  ⟨h.granted, h.ran⟩

theorem Tracked.housed {x y : Ctx σ} (h : Tracked x.c.arena) (hy : Housed x y) :
    Tracked y.c.arena := h.allocs hy.arena

theorem connCloseGraceful_tracked {x : Ctx σ} (h : Tracked x.c.arena) :
    Tracked (connCloseGraceful x).c.arena := by
  unfold connCloseGraceful
  split
  · exact h
  · dsimp only [readStart]
    split
    · exact h
    · exact h.reset

theorem afterResponse_tracked {x : Ctx σ} (env : Env σ) (ok : Bool) (hl : Linked x.c)
    (h : Tracked x.c.arena) : Tracked (afterResponse env x ok).c.arena := by
  have counted := (countAnswered_kept hl).toHoused
  obtain ⟨_, e⟩ | ⟨_, _, e⟩ | ⟨_, _, _, e⟩ | ⟨_, _, _, _, e⟩ := afterResponse_cases hl env ok <;> rw [e]
  · exact h.housed (counted.trans (connCloseAndFree_kept counted.linked).toHoused)
  · exact h
  · exact connCloseGraceful_tracked (x := countAnswered x) h
  · have ready := rearmed_seated counted.linked env
    have rewound : Tracked (rearmed env (countAnswered x)).c.arena := h.reset
    exact rewound.housed (resumeFrom_housed ready.linked env)

theorem onWritten_tracked {x : Ctx σ} (env : Env σ) (kind : WriteKind) (ok : Bool)
    (hl : Linked x.c) (h : Tracked x.c.arena) : Tracked (onWritten env x kind ok).c.arena := by
  have less := popped_housed hl
  have counted := less.trans (countAnswered_kept less.linked).toHoused
  cases kind with
  | response k =>
    change Tracked (onResponseWritten env x ok).c.arena
    rw [onResponseWritten_eq hl]
    split
    · exact h
    · exact afterResponse_tracked (x := popped x) env ok less.linked h
  | simple =>
    change Tracked (onSimpleWritten env x ok).c.arena
    obtain ⟨_, e⟩ | ⟨_, _, e⟩ | ⟨_, _, _, _, e⟩ | ⟨_, _, _, e⟩ := onSimpleWritten_cases hl env ok <;>
      rw [e]
    · exact h.housed counted
    · exact h.housed (counted.trans (connCloseAndFree_kept counted.linked).toHoused)
    · exact h.housed (counted.trans (recover_housed counted.linked env))
    · exact connCloseGraceful_tracked (h.housed counted)
  | sse =>
    change Tracked (connOnSseWritten x ok).c.arena
    obtain e | e := connOnSseWritten_cases hl ok <;> rw [e]
    · exact h
    · exact h.housed (less.trans (connCloseAndFree_kept less.linked).toHoused)

theorem tracked_rules {env : Env σ} (granted : ∀ i, Granted (env.malloc i)) :
    ConnRules env anyStep fun _ c => Tracked c.arena where
  fresh i _ := ⟨granted i, by simp [freshConn, Arena.zero]⟩
  accept i _ := ⟨granted i, by simp [readStart, freshConn, Arena.zero]⟩
  busy x now hx := by
    have linked : Linked x.c := hx ▸ freshConn_linked env x.id now
    have zeroed : Tracked x.c.arena := by
      rw [hx]
      exact ⟨granted x.id, by simp [freshConn, Arena.zero]⟩
    exact zeroed.housed (connSendSimple_kept linked env _ _ _ _).toHoused
  read s i data room x _ _ hl h _ hx _ _ := by
    have buffered := connAllocCb_housed (x := s.enter i) hl env
    rw [hx] at buffered
    exact Tracked.housed (x := s.enter i) h
      (buffered.trans (connOnRead_housed buffered.linked env data))
  readEnd _ x hl h _ := by
    have buffered := connAllocCb_housed hl env
    exact h.housed (buffered.trans (connCloseAndFree_kept buffered.linked).toHoused)
  written s i b w _ _ _ hl h _ := onWritten_tracked (x := s.enter i) env w.kind b hl h
  closed s i _ hl h hq hd hw := by
    have open_ : (s.conns i).finalized = false := by rw [← hl.closeCb, hd]
    obtain ⟨_, a, _, ha, e⟩ := connFinalize_cases (x := { s.enter i with c :=
      { s.conns i with closeCbDone := true } }) open_
    rw [connOnStreamClosed_eq (x := s.enter i) hl hq hd hw]
    refine (congrArg (fun y : Ctx σ => Tracked y.c.arena) e).mpr ?_
    change Tracked a
    obtain rfl | rfl | rfl := ha
    · exact h
    · exact Tracked.reset h
    · exact Tracked.destroy h
  deadline _ x hl h := h.housed (connDeadlinePass_kept hl).1.toHoused
  shutdown _ x hl h := h.housed (shutdownConn_kept hl).1.toHoused
  reload _ x hl h := h.housed (reloadConn_kept hl env).1.toHoused
  handler _ x k calls hl h := h.housed (withReq_kept hl k (handlerRun_allocs calls)).toHoused
  finish := .inr fun _ _ _ _ h => h
  drain _ ref x hl h := h.housed (drainReq_kept hl env ref.req).1.toHoused

/-- In every run, the policy aborts the process if and only if a call for memory
overran what its arena had left. -/
theorem memory_limit_aborts {env : Env σ} (granted : ∀ i, Granted (env.malloc i)) {s : Srv σ}
    (h : Reach (server env) anyStep s) (i : ℕ) :
    (s.conns i).arena.policyRan = false ↔ ∀ c ∈ (s.conns i).arena.calls, ¬ Overruns c := by
  have ran := (((tracked_rules granted).reach h).each i).ran
  rw [← Bool.not_eq_true, ran]
  exact ⟨fun none_ c hc o => none_ ⟨c, hc, o⟩, fun none_ ⟨c, hc, o⟩ => none_ c hc o⟩

theorem stock_granted (routes : List RouteEntry) (i : ℕ) : Granted ((stockEnv routes).malloc i) :=
  fun k _ => ⟨_, rfl, by omega⟩

/-- A request of one header, answered with a few bytes. -/
theorem memory_limit_aborts_hello : ∃ s : Srv Scan,
    (s.conns 0).arena.calls.length = 6 ∧ (s.conns 0).arena.policyRan = false := by
  obtain ⟨s, hs, e⟩ := stock_reach anyStep rootTable
    (fun s => ((s.conns 0).arena.calls.length, (s.conns 0).arena.calls.all fun c => ¬ Overruns c))
    [.accept, .read 0 getRoot, .take 0, .finish 0 [.write (ascii "hi")]] (6, true)
    (fun _ _ _ => trivial) (by decide +kernel)
  obtain ⟨len, fit⟩ := Prod.mk.inj e
  refine ⟨s, len, (memory_limit_aborts (stock_granted _) hs 0).mpr fun c hc => ?_⟩
  simpa using List.all_eq_true.mp fit c hc

def bigPost : Bytes := ascii "POST / HTTP/1.1\r\nContent-Length: 2097152\r\n\r\n"

/-- With the default configuration a body of `max_body` bytes, announced on a new
connection, aborts the process before any of it arrives; so does a handler that
asks for a block of the size of the limit. -/
theorem body_limit_aborts :
    (∃ s : Srv Scan, Reach (server (stockEnv rootTable)) anyStep s ∧
      (s.conns 0).arena.calls.getLast?.map (·.size) = some stockConfig.maxBody ∧
      (s.conns 0).arena.policyRan = true) ∧
    ∃ s : Srv Scan, Reach (server (stockEnv rootTable)) anyStep s ∧
      (s.conns 0).arena.policyRan = true := by
  obtain ⟨s, hs, e⟩ := stock_reach anyStep rootTable
    (fun s => ((s.conns 0).arena.calls.getLast?.map (·.size), (s.conns 0).arena.policyRan))
    [.accept, .read 0 bigPost] (some (2 * 1024 * 1024), true) (fun _ _ _ => trivial)
    (by decide +kernel)
  obtain ⟨t, ht, f⟩ := stock_reach anyStep rootTable (fun s => (s.conns 0).arena.policyRan)
    [.accept, .read 0 getRoot, .take 0, .finish 0 [.alloc (2 * 1024 * 1024)]] true
    (fun _ _ _ => trivial) (by decide +kernel)
  obtain ⟨len, ran⟩ := Prod.mk.inj e
  exact ⟨⟨s, hs, len, ran⟩, ⟨t, ht, f⟩⟩

end Cerco.MemoryLimit
