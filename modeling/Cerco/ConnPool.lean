import Cerco.RequestGrammar
import Cerco.ServerRules

set_option autoImplicit false

/-!
# The pool of connections and the chunks of their arenas

`conn_put` keeps the memory of a connection that was torn down, with the first chunk
of its arena, and `conn_get` takes it again. Memory in the pool is known here by the
number of the connection that had it last. `cerco_connection_cb` clears it, so a chunk
that is still in it belongs to nobody from then on.

A step of the server either takes up a connection, tears one down, or is `Quiet`: it
leaves the list of connections and moves every arena by calls of its interface only.
-/
namespace Cerco.ConnPool
open Cerco.Alloc Cerco.CString Cerco.Connection Cerco.Dispatch Cerco.HttpCallbacks Cerco.Server
open Cerco.WorkerPool Cerco.TransitionRuns Cerco.ConnFrames Cerco.ServerRules Cerco.RequestGrammar
open Cerco.ArenaUse Cerco.Router

variable {σ : Type}

/-- The server and `conn_free`, the connection that was put last first. -/
structure Pooled (σ : Type) where
  srv : Srv σ
  pool : List ℕ

def connGet (pool : List ℕ) : List ℕ := pool.tail

def connPut (pool : List ℕ) (i : ℕ) : List ℕ := if 256 ≤ pool.length then pool else i :: pool

/-- A connection that is accepted takes memory from the pool, one that is torn down puts it back. -/
def poolAfter (s t : Srv σ) (pool : List ℕ) : Step → List ℕ
  | .accept => if s.shuttingDown then pool else connGet pool
  | .closed i => if (s.conns i).finalized = (t.conns i).finalized then pool else connPut pool i
  | _ => pool

def pooledServer (env : Env σ) : System (Pooled σ) Step where
  start p := p.srv = srvStart env ∧ p.pool = []
  step p a := (srvStep env p.srv a).map fun t => ⟨t, poolAfter p.srv t p.pool a⟩

def workerConn (s : Srv σ) (w : ℕ) : Option ℕ := (s.pool.running.find? fun j => j.1 == w).map fun j => j.2.conn

def bases (a : Arena) : List ℕ := a.chunks.map Chunk.base

/-- What `chunk_new` put in front of the chunks of `a`. -/
def added (a b : Arena) : List ℕ := (bases b).take ((bases b).length - (bases a).length)

/-- Calls of the arena interface that lead from one arena to another, with the chunks they
obtained and the chunks they gave to `free`. -/
inductive Uses : Arena → List ℕ → List ℕ → Arena → Prop
  | refl (a : Arena) : Uses a [] [] a
  | alloc {a b : Arena} {got freed : List ℕ} (h : Uses a got freed b) (size : ℕ) :
      Uses a (got ++ added b (arenaAlloc b size).2) freed (arenaAlloc b size).2
  | init {a b : Arena} {got freed : List ℕ} (h : Uses a got freed b) (empty : b.chunks.isEmpty = true)
      (first cap : ℕ) : Uses a (got ++ added b (arenaInit b first cap)) freed (arenaInit b first cap)
  | reset {a b : Arena} {got freed : List ℕ} (h : Uses a got freed b) :
      Uses a got (freed ++ (bases b).dropLast) (arenaReset b)
  | destroy {a b : Arena} {got freed : List ℕ} (h : Uses a got freed b) :
      Uses a got (freed ++ bases b) (arenaDestroy b)

theorem Uses.trans {a b c : Arena} {got freed got' freed' : List ℕ} (h₁ : Uses a got freed b)
    (h₂ : Uses b got' freed' c) : Uses a (got ++ got') (freed ++ freed') c := by
  induction h₂ with
  | refl => simpa using h₁
  | alloc _ size ih =>
    rw [← List.append_assoc]
    exact .alloc ih size
  | init _ empty first cap ih =>
    rw [← List.append_assoc]
    exact .init ih empty first cap
  | reset _ ih =>
    rw [← List.append_assoc]
    exact .reset ih
  | destroy _ ih =>
    rw [← List.append_assoc]
    exact .destroy ih

/-- Some calls of the interface lead from `a` to `b`. -/
def Moved (a b : Arena) : Prop := ∃ got freed, Uses a got freed b

theorem Moved.refl (a : Arena) : Moved a a := ⟨_, _, .refl a⟩

theorem Moved.trans {a b c : Arena} (h₁ : Moved a b) (h₂ : Moved b c) : Moved a c := by
  obtain ⟨_, _, u₁⟩ := h₁
  obtain ⟨_, _, u₂⟩ := h₂
  exact ⟨_, _, u₁.trans u₂⟩

theorem Allocs.moved {a b : Arena} (h : Allocs a b) : Moved a b := by
  induction h with
  | refl => exact .refl _
  | alloc _ size ih => exact ih.trans ⟨_, _, .alloc (.refl _) size⟩
  | init _ empty first cap ih => exact ih.trans ⟨_, _, .init (.refl _) empty first cap⟩

theorem moved_reset (a : Arena) : Moved a (arenaReset a) := ⟨_, _, .reset (.refl a)⟩

theorem moved_destroy (a : Arena) : Moved a (arenaDestroy a) := ⟨_, _, .destroy (.refl a)⟩

theorem added_append {a b : Arena} (h : bases a <:+ bases b) : added a b ++ bases a = bases b := by
  obtain ⟨new, e⟩ := h
  rw [added, ← e, List.length_append, Nat.add_sub_cancel, List.take_left]

theorem allocLoop_bases (size align rounds : ℕ) (a : Arena) :
    bases a <:+ bases (allocLoop size align rounds a).2 := by
  induction rounds generalizing a with
  | zero => exact List.suffix_rfl
  | succ rounds ih =>
    rw [allocLoop]
    split
    · exact List.suffix_rfl
    · rename_i c cs hc
      dsimp only
      split
      · rw [bases, hc]
        exact List.suffix_rfl
      · obtain ⟨_, e⟩ | ⟨_, _, e⟩ | ⟨_, p, _, e⟩ := arenaGrow_outcomes a size <;> rw [e]
        · exact List.suffix_rfl
        · exact List.suffix_rfl
        · exact (List.suffix_cons (p + sizeofChunk) (bases a)).trans (ih (grown a size p))

theorem arenaAlloc_bases (a : Arena) (size : ℕ) : bases a <:+ bases (arenaAlloc a size).2 := by
  unfold arenaAlloc arenaAllocAligned
  generalize (if size = 0 then 1 else size) = n
  change bases { a with calls := a.calls ++ [callOf a n 8] } <:+ _
  dsimp only
  split <;> generalize ({ a with calls := a.calls ++ [callOf a n 8] } : Arena) = b
  · obtain ⟨_, e⟩ | ⟨_, _, e⟩ | ⟨_, p, _, e⟩ := arenaGrow_outcomes b n <;> rw [e]
    · exact List.suffix_rfl
    · exact List.suffix_rfl
    · exact (List.suffix_cons (p + sizeofChunk) (bases b)).trans
        (allocLoop_bases n 8 (allocRounds b) (grown b n p))
  · exact allocLoop_bases n 8 (allocRounds b) b

theorem bases_reset (a : Arena) : (bases a).dropLast ++ bases (arenaReset a) = bases a := by
  obtain none | ⟨cs, c, e⟩ := List.eq_nil_or_concat' a.chunks
  · unfold arenaReset
    simp only [none, bases, List.getLast?_nil, List.map_nil, List.dropLast_nil, List.append_nil]
  · unfold arenaReset
    simp only [bases, e, List.getLast?_concat, List.map_append, List.map_cons, List.map_nil,
      List.dropLast_concat]

/-- The interface loses no chunk: what was there or was obtained is freed once, or is there. -/
theorem Uses.accounted {a b : Arena} {got freed : List ℕ} (h : Uses a got freed b) :
    (bases a ++ got).Perm (freed ++ bases b) := by
  rw [List.perm_iff_count]
  induction h with
  | refl => simp
  | @alloc b got freed _ size ih =>
    intro p
    have := ih p
    have := congrArg (List.count p) (added_append (arenaAlloc_bases b size))
    simp only [List.count_append] at *
    omega
  | @init b got freed _ empty first cap ih =>
    intro p
    have none : bases b = [] := by rw [bases, List.isEmpty_iff.mp empty, List.map_nil]
    have := ih p
    have := congrArg (List.count p) (added_append (b := arenaInit b first cap)
      (none ▸ List.nil_suffix))
    simp only [List.count_append] at *
    omega
  | @reset b got freed _ ih =>
    intro p
    have := ih p
    have := congrArg (List.count p) (bases_reset b)
    simp only [List.count_append] at *
    omega
  | @destroy b got freed _ ih =>
    intro p
    have := ih p
    have none : bases (arenaDestroy b) = [] := rfl
    simp only [List.count_append, none, List.count_nil] at *
    omega

/-- Work on one connection moves its arena through the interface, and not at all once it was torn
down. -/
structure Tame (x y : Ctx σ) : Prop extends Seated x y where
  finalized : y.c.finalized = x.c.finalized
  still : x.c.finalized = true → y.c.arena = x.c.arena
  moved : Moved x.c.arena y.c.arena

theorem Tame.trans {x y z : Ctx σ} (h₁ : Tame x y) (h₂ : Tame y z) : Tame x z where
  toSeated := h₁.toSeated.trans h₂.toSeated
  finalized := h₂.finalized.trans h₁.finalized
  still hf := (h₂.still (h₁.finalized.trans hf)).trans (h₁.still hf)
  moved := h₁.moved.trans h₂.moved

theorem Seated.tame {x y : Ctx σ} (h : Seated x y)
    (same : (y.c.finalized, y.c.arena) = (x.c.finalized, x.c.arena)) : Tame x y :=
  ⟨h, (Prod.mk.inj same).1, fun _ => (Prod.mk.inj same).2, (Prod.mk.inj same).2 ▸ .refl _⟩

theorem Housed.tame {x y : Ctx σ} (h : Housed x y) (open_ : x.c.finalized = false) : Tame x y :=
  ⟨h.toSeated, h.finalized, fun hf => (by rw [open_] at hf; cases hf), Allocs.moved h.arena⟩

theorem open_of_closing {c : Conn σ} (hl : Linked c) (h : c.closing = false) : c.finalized = false := by
  cases hf : c.finalized with
  | false => rfl
  | true =>
    rw [hl.finalized hf] at h
    cases h

theorem connCloseAndFree_arena {x : Ctx σ} (hl : Linked x.c) :
    (connCloseAndFree x).c.arena = x.c.arena := by
  cases h : x.c.closing with
  | true => rw [connCloseAndFree_closing h]
  | false =>
    obtain ⟨o, clients, st, e⟩ := connCloseAndFree_open hl h
    rw [e]

theorem connCloseAndFree_tame {x : Ctx σ} (hl : Linked x.c) : Tame x (connCloseAndFree x) :=
  have kept := connCloseAndFree_kept hl
  Seated.tame kept.toSeated (by rw [kept.finalized, connCloseAndFree_arena hl])

theorem connCloseGraceful_tame {x : Ctx σ} (hl : Linked x.c) : Tame x (connCloseGraceful x) := by
  have seated := connCloseGraceful_seated hl
  revert seated
  unfold connCloseGraceful
  split
  · exact fun seated => Seated.tame seated rfl
  · rename_i h
    have open_ := open_of_closing hl (by simpa using h)
    intro seated
    refine ⟨seated, rfl, fun hf => (by rw [open_] at hf; cases hf), ?_⟩
    change Moved x.c.arena (if x.c.arena.chunks.isEmpty then x.c.arena else arenaReset x.c.arena)
    split
    · exact .refl _
    · exact moved_reset _

theorem countAnswered_tame {x : Ctx σ} (hl : Linked x.c) : Tame x (countAnswered x) :=
  Seated.tame (countAnswered_kept hl).toSeated rfl

theorem afterResponse_tame {x : Ctx σ} (hl : Linked x.c) (env : Env σ) (ok : Bool) :
    Tame x (afterResponse env x ok) := by
  have counted := countAnswered_tame hl
  have seated := afterResponse_seated hl env ok
  obtain ⟨_, e⟩ | ⟨_, _, e⟩ | ⟨_, _, _, e⟩ | ⟨_, open_, _, _, e⟩ := afterResponse_cases hl env ok <;>
    rw [e] at seated ⊢
  · exact counted.trans (connCloseAndFree_tame counted.linked)
  · exact Seated.tame seated rfl
  · exact counted.trans (connCloseGraceful_tame counted.linked)
  · have open_ := open_of_closing hl open_
    have ready : Tame x (rearmed env (countAnswered x)) :=
      ⟨counted.toSeated.trans (rearmed_seated counted.linked env), rfl,
        fun hf => (by rw [open_] at hf; cases hf), moved_reset _⟩
    exact ready.trans (Housed.tame (resumeFrom_housed ready.linked env) open_)

theorem popped_tame {x : Ctx σ} (hl : Linked x.c) : Tame x (popped x) :=
  Seated.tame (popped_housed hl).toSeated rfl

theorem onWritten_tame {x : Ctx σ} (hl : Linked x.c) (env : Env σ) (kind : WriteKind) (ok : Bool) :
    Tame x (onWritten env x kind ok) := by
  have gone := popped_tame hl
  have counted := gone.trans (countAnswered_tame gone.linked)
  cases kind with
  | response k =>
    change Tame x (onResponseWritten env x ok)
    rw [onResponseWritten_eq hl]
    split
    · exact gone
    · exact gone.trans (afterResponse_tame gone.linked env ok)
  | simple =>
    change Tame x (onSimpleWritten env x ok)
    obtain ⟨_, e⟩ | ⟨_, _, e⟩ | ⟨open_, _, _, _, e⟩ | ⟨_, _, _, e⟩ := onSimpleWritten_cases hl env ok <;>
      rw [e]
    · exact counted
    · exact counted.trans (connCloseAndFree_tame counted.linked)
    · exact counted.trans (Housed.tame (recover_housed counted.linked env)
        (open_of_closing counted.linked open_))
    · exact counted.trans (connCloseGraceful_tame counted.linked)
  | sse =>
    change Tame x (connOnSseWritten x ok)
    obtain e | e := connOnSseWritten_cases hl ok <;> rw [e]
    · exact gone
    · exact gone.trans (connCloseAndFree_tame gone.linked)

theorem connDeadlinePass_tame {x : Ctx σ} (hl : Linked x.c) : Tame x (connDeadlinePass x) := by
  have forced := forceClose_kept hl
  obtain ⟨o, ho⟩ := cancelReq_objs x.c
  have cancelled : Tame x { x with c := { cancelReq x.c with forceClose := true } } :=
    Seated.tame forced.toSeated (by rw [ho])
  unfold connDeadlinePass
  split
  · exact cancelled.trans (connCloseAndFree_tame forced.linked)
  · exact Seated.tame (.refl hl) rfl

theorem shutdownConn_tame {x : Ctx σ} (hl : Linked x.c) : Tame x (shutdownConn x) := by
  obtain ⟨o, ho⟩ := cancelReq_objs x.c
  unfold shutdownConn
  split
  · exact connCloseAndFree_tame hl
  · split
    · exact Seated.tame (forceClose_kept hl).toSeated (by rw [ho])
    · exact Seated.tame (.refl hl) rfl

theorem reloadConn_tame {x : Ctx σ} (hl : Linked x.c) (env : Env σ) : Tame x (reloadConn env x) := by
  have kept := (reloadConn_kept hl env).1
  cases h : x.c.closing with
  | true =>
    unfold reloadConn at kept ⊢
    rw [h] at kept ⊢
    exact Seated.tame kept.toSeated rfl
  | false => exact Housed.tame kept.toHoused (open_of_closing hl h)

theorem drainReq_tame {x : Ctx σ} (hl : Linked x.c) (env : Env σ) (k : ℕ) :
    Tame x (drainReq env x k) := by
  have kept := (drainReq_kept hl env k).1
  obtain ⟨_, st, e⟩ | ⟨open_, _⟩ := drainReq_cases hl env k
  · rw [e] at kept ⊢
    exact Seated.tame kept.toSeated rfl
  · exact Housed.tame kept.toHoused (open_of_closing hl open_)

/-- No connection is taken up or torn down, and only the worker's request moves the arena of one
that was torn down. -/
structure Quiet (s t : Srv σ) (worker : Option ℕ) : Prop where
  seats : (t.active, t.connFree, t.nextConn) = (s.active, s.connFree, s.nextConn)
  finalized : ∀ i, (t.conns i).finalized = (s.conns i).finalized
  still : ∀ i, (s.conns i).finalized = true → worker ≠ some i → (t.conns i).arena = (s.conns i).arena
  moved : ∀ i, Moved (s.conns i).arena (t.conns i).arena

structure Opened (env : Env σ) (s t : Srv σ) : Prop where
  active : t.active = s.nextConn :: s.active
  connFree : t.connFree = s.connFree - 1
  nextConn : t.nextConn = s.nextConn + 1
  others : ∀ i, i ≠ s.nextConn → t.conns i = s.conns i
  finalized : (t.conns s.nextConn).finalized = false
  moved : Moved (Arena.zero (env.malloc s.nextConn)) (t.conns s.nextConn).arena

/-- `conn_finalize` ran for connection `i`; with a full pool no chunk stays. -/
structure Torn (s t : Srv σ) (i : ℕ) : Prop where
  born : i < s.nextConn
  before : (s.conns i).finalized = false
  finalized : (t.conns i).finalized = true
  active : t.active = s.active.erase i
  nextConn : t.nextConn = s.nextConn
  others : ∀ j, j ≠ i → t.conns j = s.conns j
  moved : Moved (s.conns i).arena (t.conns i).arena
  pooled : s.connFree < 256 ∧ t.connFree = s.connFree + 1 ∨
    256 ≤ s.connFree ∧ t.connFree = s.connFree ∧ (t.conns i).arena.chunks = []

theorem Quiet.of_eq {s t : Srv σ}
    (same : (t.active, t.connFree, t.nextConn, t.conns) = (s.active, s.connFree, s.nextConn, s.conns))
    (worker : Option ℕ) : Quiet s t worker := by
  simp only [Prod.mk.injEq] at same
  obtain ⟨active, free, next, conns⟩ := same
  exact ⟨by rw [active, free, next], fun i => by rw [conns], fun i _ _ => by rw [conns], fun i => by
    rw [conns]
    exact .refl _⟩

theorem Quiet.trans {s t u : Srv σ} {worker : Option ℕ} (h₁ : Quiet s t worker)
    (h₂ : Quiet t u worker) : Quiet s u worker where
  seats := h₂.seats.trans h₁.seats
  finalized i := (h₂.finalized i).trans (h₁.finalized i)
  still i hf hw := (h₂.still i ((h₁.finalized i).trans hf) hw).trans (h₁.still i hf hw)
  moved i := (h₁.moved i).trans (h₂.moved i)

theorem Seated.quiet {x y : Ctx σ} (h : Seated x y) (worker : Option ℕ)
    (own : x.c = x.srv.conns x.id) (finalized : y.c.finalized = x.c.finalized)
    (still : x.c.finalized = true → worker ≠ some x.id → y.c.arena = x.c.arena)
    (moved : Moved x.c.arena y.c.arena) : Quiet x.srv y.done worker where
  seats := by
    obtain ⟨active, free⟩ := Prod.mk.inj h.seats
    change (y.srv.active, y.srv.connFree, y.srv.nextConn) = _
    rw [active, free, h.nextConn]
  finalized i := by
    rw [h.toStays.done_conns]
    split
    · rename_i e
      rw [finalized, own, e]
    · rfl
  still i hf hw := by
    rw [h.toStays.done_conns]
    split
    · rename_i e
      rw [e] at hf hw ⊢
      rw [still (own ▸ hf) hw, own]
    · rfl
  moved i := by
    rw [h.toStays.done_conns]
    split
    · rename_i e
      rw [e, ← own]
      exact moved
    · exact .refl _

theorem Tame.quiet {s : Srv σ} {i : ℕ} {y : Ctx σ} (h : Tame (s.enter i) y) (worker : Option ℕ) :
    Quiet s y.done worker :=
  Seated.quiet h.toSeated worker rfl h.finalized (fun hf _ => h.still hf) h.moved

theorem eachConn_quiet {f : Ctx σ → Ctx σ} (hf : ∀ x : Ctx σ, Linked x.c → Tame x (f x)) (ids : List ℕ)
    {s : Srv σ} (linked : ∀ i, Linked (s.conns i)) : Quiet s (eachConn f ids s) none := by
  unfold Server.eachConn
  induction ids generalizing s with
  | nil => exact .of_eq (by rfl) none
  | cons i ids ih =>
    have tame := hf (s.enter i) (linked i)
    refine (tame.quiet none).trans (ih fun j => ?_)
    rw [tame.toStays.done_conns]
    split
    · exact tame.linked
    · exact linked j

theorem opened_of_seated {env : Env σ} {s : Srv σ} {y : Ctx σ} (h : Housed (accepted env s) y) :
    Opened env s y.done := by
  have fresh : Linked (accepted env s).c := freshConn_linked env s.nextConn s.now
  obtain ⟨active, free⟩ := Prod.mk.inj h.seats
  refine ⟨active, free, h.nextConn, fun i hi => ?_, ?_, ?_⟩
  · rw [h.toStays.done_conns]
    exact if_neg hi
  · rw [h.toStays.done_conns, if_pos (by rfl)]
    exact h.finalized
  · rw [h.toStays.done_conns, if_pos (by rfl)]
    exact Allocs.moved h.arena

theorem cercoConnectionCb_opened (env : Env σ) {s : Srv σ} (up : s.shuttingDown = false) :
    Opened env s (cercoConnectionCb env s) := by
  have fresh : Linked (accepted env s).c := freshConn_linked env s.nextConn s.now
  unfold cercoConnectionCb
  rw [up, if_neg (by simp)]
  dsimp only
  split
  · exact opened_of_seated (connSendSimple_kept fresh env 503 none (ascii "server busy\n") true).toHoused
  · exact opened_of_seated (readStart_housed fresh)

theorem connFinalize_pools {x : Ctx σ} (before : x.c.finalized = false) :
    (connFinalize x).c.finalized = true ∧ (connFinalize x).srv.active = x.srv.active.erase x.id ∧
      Moved x.c.arena (connFinalize x).c.arena ∧
      (x.srv.connFree < 256 ∧ (connFinalize x).srv.connFree = x.srv.connFree + 1 ∨
        256 ≤ x.srv.connFree ∧ (connFinalize x).srv.connFree = x.srv.connFree ∧
          (connFinalize x).c.arena.chunks = []) := by
  unfold connFinalize
  rw [before, if_neg (by simp)]
  dsimp only
  split
  · refine ⟨rfl, rfl, ?_, .inl ⟨‹_›, rfl⟩⟩
    dsimp only
    split
    · exact .refl _
    · exact moved_reset _
  · rename_i full
    refine ⟨rfl, rfl, ?_, .inr ⟨Nat.le_of_not_lt full, rfl, ?_⟩⟩
    · dsimp only
      split
      · exact .refl _
      · exact moved_destroy _
    · dsimp only
      split
      · exact List.isEmpty_iff.mp ‹_›
      · rfl

theorem connOnStreamClosed_torn {s : Srv σ} {i : ℕ} (hl : Linked (s.conns i)) (born : i < s.nextConn)
    (hq : (s.conns i).closeQueued = true) (hd : (s.conns i).closeCbDone = false)
    (hw : (s.conns i).writes = []) : Torn s (connOnStreamClosed (s.enter i)).done i := by
  have before : (s.conns i).finalized = false := by rw [← hl.closeCb, hd]
  obtain ⟨stays, _⟩ := connOnStreamClosed_stays (x := s.enter i) hl hq hd hw
  have own := stays.done_conns i
  rw [if_pos (by rfl)] at own
  rw [connOnStreamClosed_eq (x := s.enter i) hl hq hd hw] at stays own ⊢
  obtain ⟨finalized, active, moved, pooled⟩ := connFinalize_pools
    (x := { s.enter i with c := { s.conns i with closeCbDone := true } }) before
  refine ⟨born, before, ?_, active, stays.nextConn, fun j hj => ?_, ?_, ?_⟩
  · rw [own]
    exact finalized
  · rw [stays.done_conns]
    exact if_neg hj
  · rw [own]
    exact moved
  · rw [own]
    exact pooled

theorem srvStep_seats {env : Env σ} {s t : Srv σ} {a : Step} (linked : ∀ i, Linked (s.conns i))
    (ht : srvStep env s a = some t) :
    (a = .accept ∧ s.shuttingDown = false ∧ Opened env s t) ∨ (∃ i, a = .closed i ∧ Torn s t i) ∨
      ∃ worker, Quiet s t worker ∧ (∀ pool, poolAfter s t pool a = pool) ∧
        (worker = none ∨ ∃ w calls, a = .finish w calls ∧ worker = workerConn s w) := by
  unfold srvStep at ht
  split at ht
  · cases ht
  · cases a with
    | accept =>
      cases ht
      cases h : s.shuttingDown with
      | true =>
        refine .inr (.inr ⟨none, ?_, fun pool => ?_, .inl rfl⟩)
        · unfold cercoConnectionCb
          rw [h]
          exact .of_eq (by rfl) none
        · exact if_pos h
      | false => exact .inl ⟨rfl, rfl, cercoConnectionCb_opened env h⟩
    | read i data =>
      refine .inr (.inr ⟨none, ?_, fun _ => rfl, .inl rfl⟩)
      simp only [readStep] at ht
      split at ht
      · rename_i hg
        split at ht
        · rename_i room x hx
          split at ht
          · cases ht
            have buffered := connAllocCb_housed (x := s.enter i) (linked i) env
            rw [hx] at buffered
            have open_ := open_of_closing (linked i) ((linked i).reading hg.2.1)
            exact (Housed.tame (buffered.trans (connOnRead_housed buffered.linked env data)) open_).quiet
              none
          · cases ht
        · cases ht
      · cases ht
    | readEnd i =>
      refine .inr (.inr ⟨none, ?_, fun _ => rfl, .inl rfl⟩)
      simp only [readEndStep] at ht
      split at ht
      · rename_i hg
        cases ht
        have buffered := connAllocCb_housed (x := s.enter i) (linked i) env
        have open_ := open_of_closing (linked i) ((linked i).reading hg.2)
        exact (Housed.tame (buffered.trans (connCloseAndFree_kept buffered.linked).toHoused) open_).quiet
          none
      · cases ht
    | written i ok =>
      refine .inr (.inr ⟨none, ?_, fun _ => rfl, .inl rfl⟩)
      simp only [writtenStep] at ht
      split at ht
      · split at ht
        · rename_i w _ _
          cases ht
          exact (onWritten_tame (x := s.enter i) (linked i) env w.kind ok).quiet none
        · cases ht
      · cases ht
    | closed i =>
      simp only [closedStep] at ht
      split at ht
      · rename_i hg
        cases ht
        exact .inr (.inl ⟨i, rfl, connOnStreamClosed_torn (linked i) hg.1 hg.2.1 hg.2.2.1 hg.2.2.2⟩)
      · cases ht
    | sweep =>
      cases ht
      exact .inr (.inr ⟨none, eachConn_quiet (fun x => connDeadlinePass_tame) _ linked, fun _ => rfl,
        .inl rfl⟩)
    | reload =>
      cases ht
      exact .inr (.inr ⟨none, eachConn_quiet (fun x hl => reloadConn_tame hl env) _ linked, fun _ => rfl,
        .inl rfl⟩)
    | tick ms =>
      cases ht
      exact .inr (.inr ⟨none, .of_eq (by rfl) none, fun _ => rfl, .inl rfl⟩)
    | take w =>
      refine .inr (.inr ⟨none, ?_, fun _ => rfl, .inl rfl⟩)
      obtain ⟨p, _, rfl⟩ := Option.map_eq_some_iff.mp ht
      exact .of_eq (by rfl) none
    | finish w calls =>
      refine .inr (.inr ⟨workerConn s w, ?_, fun _ => rfl, .inr ⟨w, calls, rfl, rfl⟩⟩)
      simp only [finishJob] at ht
      unfold workerConn
      split at ht
      · cases ht
      · rename_i job ref hj
        obtain ⟨p, _, rfl⟩ := Option.map_eq_some_iff.mp ht
        rw [hj]
        have kept := withReq_kept (linked ref.conn) (x := s.enter ref.conn) ref.req
          (handlerRun_allocs calls)
        exact (Seated.quiet kept.toSeated _ rfl rfl (fun _ hw => absurd rfl hw)
          (Allocs.moved kept.arena)).trans (.of_eq (by rfl) _)
    | drain =>
      refine .inr (.inr ⟨none, ?_, fun _ => rfl, .inl rfl⟩)
      simp only [drainJob] at ht
      split at ht
      · cases ht
      · rename_i ref q _
        cases ht
        have tame := drainReq_tame (linked ref.conn)
          (x := ({ s with pool := drainStep s.pool (ref, q) } : Srv σ).enter ref.conn) env ref.req
        have queued : Quiet s { s with pool := drainStep s.pool (ref, q) } none := .of_eq (by rfl) none
        exact queued.trans (tame.quiet none)
    | shutdown =>
      refine .inr (.inr ⟨none, ?_, fun _ => rfl, .inl rfl⟩)
      cases ht
      unfold startShutdown
      split
      · exact .of_eq (by rfl) none
      · have down : Quiet s { s with shuttingDown := true } none := .of_eq (by rfl) none
        exact down.trans (eachConn_quiet (fun x => shutdownConn_tame) _ linked)

/-- Connections that were not torn down are on the list, those in the pool were. -/
structure Filed (p : Pooled σ) : Prop where
  active : ∀ i, i ∈ p.srv.active ↔ i < p.srv.nextConn ∧ (p.srv.conns i).finalized = false
  once : p.srv.active.Nodup
  pooled : ∀ i ∈ p.pool, i < p.srv.nextConn ∧ (p.srv.conns i).finalized = true
  poolOnce : p.pool.Nodup
  free : p.pool.length = p.srv.connFree

theorem Filed.apart {p : Pooled σ} (h : Filed p) : (p.srv.active ++ p.pool).Nodup := by
  refine List.nodup_append'.mpr ⟨h.once, h.poolOnce, fun i ha hp => ?_⟩
  have open_ := ((h.active i).mp ha).2
  rw [(h.pooled i hp).2] at open_
  cases open_

theorem poolAfter_torn {s t : Srv σ} {i : ℕ} (h : Torn s t i) (pool : List ℕ) :
    poolAfter s t pool (.closed i) = connPut pool i := by
  refine if_neg ?_
  rw [h.before, h.finalized]
  simp

theorem mem_connPut {pool : List ℕ} {i j : ℕ} (h : j ∈ connPut pool i) : j = i ∨ j ∈ pool := by
  unfold connPut at h
  split at h
  · exact .inr h
  · exact List.mem_cons.mp h

theorem pooledServer_step {env : Env σ} {p q : Pooled σ} {a : Step}
    (h : (pooledServer env).step p a = some q) :
    srvStep env p.srv a = some q.srv ∧ q.pool = poolAfter p.srv q.srv p.pool a := by
  obtain ⟨t, ht, rfl⟩ := Option.map_eq_some_iff.mp h
  exact ⟨ht, rfl⟩

theorem taken_or_left {pool : List ℕ} {i : ℕ} (h : i ∈ pool) : i ∈ pool.take 1 ∨ i ∈ connGet pool := by
  cases pool with
  | nil => cases h
  | cons j rest =>
    obtain rfl | hr := List.mem_cons.mp h
    · exact .inl (List.mem_singleton_self i)
    · exact .inr hr

theorem pooled_reach {env : Env σ} {ok : Pooled σ → Step → Prop} {p : Pooled σ}
    (h : Reach (pooledServer env) ok p) : Reach (server env) anyStep p.srv := by
  induction h with
  | start h => exact .start h.1
  | step _ _ ht ih => exact .step ih trivial (pooledServer_step ht).1

theorem reach_pooled {env : Env σ} {ok : Srv σ → Step → Prop} {s : Srv σ} (h : Reach (server env) ok s) :
    ∃ pool, Reach (pooledServer env) anyStep ⟨s, pool⟩ := by
  induction h with
  | start h => exact ⟨[], .start ⟨h, rfl⟩⟩
  | step _ _ ht ih =>
    obtain ⟨pool, hp⟩ := ih
    refine ⟨_, .step hp trivial (Option.map_eq_some_iff.mpr ⟨_, ht, rfl⟩)⟩

theorem Filed.quiet {p q : Pooled σ} {worker : Option ℕ} (h : Filed p) (hq : Quiet p.srv q.srv worker)
    (pool : q.pool = p.pool) : Filed q := by
  have seats := hq.seats
  simp only [Prod.mk.injEq] at seats
  obtain ⟨active, free, next⟩ := seats
  refine ⟨fun i => ?_, active ▸ h.once, fun i hi => ?_, pool ▸ h.poolOnce, by rw [pool, free, h.free]⟩
  · rw [active, next, hq.finalized]
    exact h.active i
  · rw [next, hq.finalized]
    exact h.pooled i (pool ▸ hi)

theorem Filed.opened {env : Env σ} {p q : Pooled σ} (h : Filed p) (ho : Opened env p.srv q.srv)
    (pool : q.pool = connGet p.pool) : Filed q := by
  have new : p.srv.nextConn ∉ p.srv.active := fun ha => Nat.lt_irrefl _ ((h.active _).mp ha).1
  refine ⟨fun i => ?_, ?_, fun i hi => ?_, ?_, ?_⟩
  · rw [ho.active, ho.nextConn, List.mem_cons, h.active]
    by_cases own : i = p.srv.nextConn
    · rw [own]
      exact ⟨fun _ => ⟨Nat.lt_succ_self _, ho.finalized⟩, fun _ => .inl rfl⟩
    · rw [ho.others i own]
      exact ⟨fun hi => ⟨Nat.lt_succ_of_lt (hi.resolve_left own).1, (hi.resolve_left own).2⟩,
        fun hi => .inr ⟨by omega, hi.2⟩⟩
  · rw [ho.active]
    exact List.nodup_cons.mpr ⟨new, h.once⟩
  · rw [pool] at hi
    obtain ⟨lt, done⟩ := h.pooled i (List.mem_of_mem_tail hi)
    rw [ho.nextConn, ho.others i (by omega)]
    exact ⟨Nat.lt_succ_of_lt lt, done⟩
  · rw [pool]
    exact h.poolOnce.sublist (List.tail_sublist _)
  · rw [pool, ho.connFree, ← h.free]
    exact List.length_tail

theorem Filed.torn {p q : Pooled σ} {i : ℕ} (h : Filed p) (ht : Torn p.srv q.srv i)
    (pool : q.pool = connPut p.pool i) : Filed q := by
  have out : i ∉ p.pool := fun hp => by
    have done := (h.pooled i hp).2
    rw [ht.before] at done
    cases done
  refine ⟨fun j => ?_, ?_, fun j hj => ?_, ?_, ?_⟩
  · rw [ht.active, ht.nextConn, h.once.mem_erase_iff, h.active]
    by_cases own : j = i
    · rw [own, ht.finalized]
      simp
    · rw [ht.others j own]
      exact ⟨fun hj => hj.2, fun hj => ⟨own, hj⟩⟩
  · rw [ht.active]
    exact h.once.erase i
  · rw [ht.nextConn]
    obtain rfl | hp := mem_connPut (pool ▸ hj)
    · exact ⟨ht.born, ht.finalized⟩
    · rw [ht.others j fun e => out (e ▸ hp)]
      exact h.pooled j hp
  · rw [pool, connPut]
    split
    · exact h.poolOnce
    · exact List.nodup_cons.mpr ⟨out, h.poolOnce⟩
  · rw [pool, connPut, h.free]
    obtain ⟨room, e⟩ | ⟨full, e, _⟩ := ht.pooled
    · rw [if_neg (Nat.not_le_of_lt room), e, List.length_cons, h.free]
    · rw [if_pos full, e, h.free]

theorem Filed.step {env : Env σ} {p q : Pooled σ} {a : Step} (h : Filed p)
    (linked : ∀ i, Linked (p.srv.conns i)) (hs : (pooledServer env).step p a = some q) : Filed q := by
  obtain ⟨ht, pool⟩ := pooledServer_step hs
  obtain ⟨rfl, up, ho⟩ | ⟨i, rfl, torn⟩ | ⟨worker, quiet, same, _⟩ := srvStep_seats linked ht
  · exact h.opened ho (pool.trans (if_neg (by simp [up])))
  · exact h.torn torn (pool.trans (poolAfter_torn torn _))
  · exact h.quiet quiet (pool.trans (same _))

theorem Filed.start {env : Env σ} {p : Pooled σ} (h : (pooledServer env).start p) : Filed p := by
  obtain ⟨srv, pool⟩ := p
  obtain ⟨rfl, rfl⟩ := h
  refine ⟨fun i => ?_, List.nodup_nil, fun i hi => (by cases hi), List.nodup_nil, rfl⟩
  exact ⟨fun hi => (by cases hi), fun hi => absurd hi.1 (Nat.not_lt_zero i)⟩

theorem reach_filed {env : Env σ} {ok : Pooled σ → Step → Prop} {p : Pooled σ}
    (h : Reach (pooledServer env) ok p) : Filed p :=
  h.invariant_with (J := fun p => ∀ i, Linked (p.srv.conns i))
    (fun _ hr i => reach_linked (pooled_reach hr) i) (fun _ => Filed.start)
    fun _ _ _ linked hi _ hs => hi.step linked hs

/-- The chunks of a connection that stands exactly once on the list of connections and in the pool. -/
def reached (p : Pooled σ) (i : ℕ) : List ℕ :=
  if (p.srv.active ++ p.pool).count i = 1 then bases (p.srv.conns i).arena else []

/-- What a connection's arena obtained was freed, or is reached from exactly one connection. -/
def NoChunkLeaked (env : Env σ) (p : Pooled σ) : Prop :=
  ∀ i < p.srv.nextConn, ∃ got freed, Uses (Arena.zero (env.malloc i)) got freed (p.srv.conns i).arena ∧
    got.Perm (freed ++ reached p i)

/-- What is taken from the pool has no chunk, and no worker ends a request of a connection that is
neither open nor in the pool. -/
def takesEmpty (p : Pooled σ) : Step → Prop
  | .accept => p.srv.shuttingDown = true ∨ ∀ j ∈ p.pool.take 1, (p.srv.conns j).arena.chunks = []
  | .finish w _ => ∀ i ∈ (workerConn p.srv w).toList, i ∈ p.srv.active ++ p.pool
  | _ => True

instance (p : Pooled σ) (a : Step) : Decidable (takesEmpty p a) :=
  match a with
  | .accept => inferInstanceAs (Decidable (_ ∨ _))
  | .finish w _ => inferInstanceAs (Decidable (∀ i ∈ (workerConn p.srv w).toList, i ∈ p.srv.active ++ p.pool))
  | .read _ _ => isTrue trivial
  | .readEnd _ => isTrue trivial
  | .written _ _ => isTrue trivial
  | .closed _ => isTrue trivial
  | .sweep => isTrue trivial
  | .reload => isTrue trivial
  | .tick _ => isTrue trivial
  | .take _ => isTrue trivial
  | .drain => isTrue trivial
  | .shutdown => isTrue trivial

/-- Every arena came about through its interface, and one that left list and pool has no chunk. -/
structure Owned (env : Env σ) (p : Pooled σ) : Prop where
  moved : ∀ i, Moved (Arena.zero (env.malloc i)) (p.srv.conns i).arena
  gone : ∀ i < p.srv.nextConn, i ∉ p.srv.active → i ∉ p.pool → (p.srv.conns i).arena.chunks = []

theorem Owned.step {env : Env σ} {p q : Pooled σ} {a : Step} (h : Owned env p) (filed : Filed p)
    (linked : ∀ i, Linked (p.srv.conns i)) (hok : takesEmpty p a)
    (hs : (pooledServer env).step p a = some q) : Owned env q := by
  obtain ⟨ht, pool⟩ := pooledServer_step hs
  obtain ⟨rfl, up, opened⟩ | ⟨i, rfl, torn⟩ | ⟨worker, quiet, same, works⟩ := srvStep_seats linked ht
  · rw [show poolAfter p.srv q.srv p.pool .accept = connGet p.pool from if_neg (by simp [up])] at pool
    refine ⟨fun j => ?_, fun j hj out notPooled => ?_⟩
    · by_cases own : j = p.srv.nextConn
      · rw [own]
        exact opened.moved
      · rw [opened.others j own]
        exact h.moved j
    · rw [opened.active, List.mem_cons, not_or] at out
      rw [opened.nextConn] at hj
      rw [opened.others j out.1]
      by_cases pooled : j ∈ p.pool
      · -- the connection whose memory is taken
        rw [pool] at notPooled
        exact (hok.resolve_left (by simp [up])) j ((taken_or_left pooled).resolve_right notPooled)
      · exact h.gone j (by omega) out.2 pooled
  · rw [poolAfter_torn torn] at pool
    refine ⟨fun j => ?_, fun j hj out notPooled => ?_⟩
    · by_cases own : j = i
      · rw [own]
        exact (h.moved i).trans torn.moved
      · rw [torn.others j own]
        exact h.moved j
    · by_cases own : j = i
      · rw [own] at notPooled ⊢
        obtain ⟨room, _⟩ | ⟨_, _, none⟩ := torn.pooled
        · rw [pool, connPut, filed.free, if_neg (Nat.not_le_of_lt room)] at notPooled
          exact absurd List.mem_cons_self notPooled
        · exact none
      · rw [torn.others j own]
        rw [torn.active, filed.once.mem_erase_iff] at out
        refine h.gone j (torn.nextConn ▸ hj) (fun ha => out ⟨own, ha⟩) fun hp => notPooled ?_
        rw [pool, connPut]
        split
        · exact hp
        · exact List.mem_cons_of_mem _ hp
  · have seats := quiet.seats
    simp only [Prod.mk.injEq] at seats
    obtain ⟨active, _, next⟩ := seats
    rw [same] at pool
    refine ⟨fun j => (h.moved j).trans (quiet.moved j), fun j hj out notPooled => ?_⟩
    rw [active] at out
    rw [pool] at notPooled
    rw [next] at hj
    have done : (p.srv.conns j).finalized = true := by
      by_contra hf
      exact out ((filed.active j).mpr ⟨hj, by simpa using hf⟩)
    rw [quiet.still j done, h.gone j hj out notPooled]
    obtain rfl | ⟨w, calls, rfl, rfl⟩ := works
    · simp
    · intro runs
      have := hok j (by rw [runs]; exact List.mem_singleton_self j)
      exact (List.mem_append.mp this).elim out notPooled

theorem reach_owned {env : Env σ} {p : Pooled σ} (h : Reach (pooledServer env) takesEmpty p) :
    Owned env p := by
  refine h.invariant_with (J := fun p => Filed p ∧ ∀ i, Linked (p.srv.conns i))
    (fun _ hr => ⟨reach_filed hr, reach_linked (pooled_reach hr)⟩) (fun p hp => ?_)
    fun _ _ _ known hi hok hs => hi.step known.1 known.2 hok hs
  obtain ⟨srv, pool⟩ := p
  obtain ⟨rfl, rfl⟩ := hp
  exact ⟨fun i => .refl _, fun i hi => absurd hi (Nat.not_lt_zero i)⟩

theorem Owned.noChunkLeaked {env : Env σ} {p : Pooled σ} (h : Owned env p) (filed : Filed p) :
    NoChunkLeaked env p := by
  intro i hi
  obtain ⟨got, freed, uses⟩ := h.moved i
  refine ⟨got, freed, uses, ?_⟩
  have accounted := uses.accounted
  rw [show bases (Arena.zero (env.malloc i)) = [] from rfl, List.nil_append] at accounted
  unfold reached
  split
  · exact accounted
  · rename_i lost
    have out : i ∉ p.srv.active ++ p.pool := fun hm => lost (List.count_eq_one_of_mem filed.apart hm)
    rw [List.mem_append, not_or] at out
    rwa [bases, h.gone i hi out.1 out.2] at accounted

theorem leaked_of_out {env : Env σ} {p : Pooled σ} {i : ℕ} (born : i < p.srv.nextConn)
    (out : (p.srv.active ++ p.pool).count i ≠ 1) (full : (p.srv.conns i).arena.chunks ≠ []) :
    ¬ NoChunkLeaked env p := by
  intro h
  obtain ⟨got, freed, uses, perm⟩ := h i born
  have accounted := uses.accounted
  rw [show bases (Arena.zero (env.malloc i)) = [] from rfl, List.nil_append] at accounted
  rw [reached, if_neg out] at perm
  have lengths := accounted.length_eq.symm.trans perm.length_eq
  rw [List.length_append, List.append_nil, bases, List.length_map] at lengths
  exact full (List.length_eq_zero_iff.mp (by omega))

theorem accept_opened {env : Env σ} {s t : Srv σ} (up : s.shuttingDown = false)
    (ht : srvStep env s .accept = some t) : Opened env s t := by
  unfold srvStep at ht
  split at ht
  · cases ht
  · cases ht
    exact cercoConnectionCb_opened env up

/-- No chunk is lost while what the pool gives has none, and an accept that takes a chunk from the
pool loses it. -/
theorem chunks_owned (env : Env σ) :
    (∀ p, Reach (pooledServer env) takesEmpty p → NoChunkLeaked env p) ∧
    ∀ p q, Reach (pooledServer env) anyStep p → (pooledServer env).step p .accept = some q →
      ¬ takesEmpty p .accept → ¬ NoChunkLeaked env q := by
  refine ⟨fun p h => (reach_owned h).noChunkLeaked (reach_filed h), fun p q h hs taken => ?_⟩
  have filed := reach_filed h
  change ¬ (_ ∨ _) at taken
  rw [not_or, Bool.not_eq_true] at taken
  obtain ⟨up, taken⟩ := taken
  push Not at taken
  obtain ⟨j, hj, full⟩ := taken
  obtain ⟨born, done⟩ := filed.pooled j (List.mem_of_mem_take hj)
  obtain ⟨ht, pool⟩ := pooledServer_step hs
  have opened := accept_opened up ht
  have same := opened.others j (by omega)
  have rest : q.pool = connGet p.pool := pool.trans (if_neg (by simp [up]))
  have out : j ∉ q.srv.active ++ q.pool := by
    rw [opened.active, rest, List.mem_append, List.mem_cons]
    rintro ((e | open_) | left)
    · omega
    · rw [((filed.active j).mp open_).2] at done
      cases done
    · have nodup := filed.poolOnce
      rw [← List.take_append_drop 1 p.pool, List.nodup_append'] at nodup
      exact nodup.2.2 hj (by rwa [List.drop_one])
  refine leaked_of_out (i := j) (by rw [opened.nextConn]; omega) ?_ (by rwa [same])
  rw [List.count_eq_zero_of_not_mem out]
  decide

def visit (i : ℕ) : List Step :=
  [.accept, .read i getRoot, .take 0, .finish 0 [.write (ascii "hi")], .drain, .written i true, .readEnd i,
    .closed i]

def stockStart : Pooled Scan := ⟨srvStart (stockEnv rootTable), []⟩

theorem stockStart_reach (ok : Pooled Scan → Step → Prop) :
    Reach (pooledServer (stockEnv rootTable)) ok stockStart := .start ⟨rfl, rfl⟩

/-- The first visitor asks for nothing, so the memory that the second one gets has no chunk. -/
theorem chunks_owned_visit : ∃ p, Reach (pooledServer (stockEnv rootTable)) takesEmpty p ∧ p.pool = [1] ∧
    (p.srv.conns 1).arena.chunks.length = 1 ∧ NoChunkLeaked (stockEnv rootTable) p := by
  have run : ((execWhile (pooledServer (stockEnv rootTable)) takesEmpty stockStart
      ([.accept, .readEnd 0, .closed 0] ++ visit 1)).map fun p =>
        (p.pool, (p.srv.conns 1).arena.chunks.length)) = some ([1], 1) := by decide +kernel
  obtain ⟨p, hp, view⟩ := Option.map_eq_some_iff.mp run
  have h := execWhile_reach _ (stockStart_reach takesEmpty) hp
  exact ⟨p, h, (Prod.mk.inj view).1, (Prod.mk.inj view).2, (chunks_owned (stockEnv rootTable)).1 p h⟩

/-- The client that comes after a visit is given the memory with the chunk. -/
theorem warm_chunk_lost :
    ¬ ∀ p, Reach (pooledServer (stockEnv rootTable)) anyStep p → NoChunkLeaked (stockEnv rootTable) p := by
  have run : ((exec (pooledServer (stockEnv rootTable)) stockStart (visit 0 ++ [.accept])).map fun p =>
      (p.srv.nextConn, (p.srv.active ++ p.pool).count 0, (p.srv.conns 0).arena.chunks.length)) =
        some (2, 0, 1) := by decide +kernel
  obtain ⟨p, hp, view⟩ := Option.map_eq_some_iff.mp run
  simp only [Prod.mk.injEq] at view
  obtain ⟨next, out, full⟩ := view
  intro owned
  refine leaked_of_out (i := 0) (by omega) (by omega) (fun none => ?_)
    (owned p (exec_reach _ (stockStart_reach anyStep) (fun _ _ _ => trivial) hp))
  rw [none] at full
  cases full

end Cerco.ConnPool
