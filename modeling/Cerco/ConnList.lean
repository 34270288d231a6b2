import Cerco.BookSteps
import Cerco.LinkedChain

set_option autoImplicit false

/-!
# The list of connections in memory

`srv->conns` and `srv->conn_free` run through the `next` and `prev` fields of the
connections themselves, and `conn_finalize` edits them. Here the server runs beside the
memory cells of its connections; connection `i` lies in `cell i`, a cell that was put back
may be taken for a later connection.
-/
namespace Cerco.ConnList
open Cerco.Connection Cerco.Server Cerco.TransitionRuns Cerco.ConnFrames Cerco.ServerRules Cerco.ConnPool
open Cerco.LinkedChain Cerco.BookSteps Cerco.RequestGrammar Cerco.WorkerPool

variable {σ : Type}

/-- The pointer fields of the connections with `srv->conns`, and the pool; `used` holds of what
`calloc` gave out and `free` did not take back. -/
structure Cells where
  list : Headed ℕ
  connFree : Option ℕ
  connFreeN : ℕ
  used : ℕ → Bool

/-- A connection from the pool, or what `calloc` answers. -/
def connGet (h : Cells) (calloc : Option ℕ) : Option ℕ × Cells :=
  match h.connFree with
  | some c => (some c, { h with connFree := h.list.links.next c, connFreeN := h.connFreeN - 1 })
  | none =>
    match calloc with
    | some c => (some c, { h with used := Function.update h.used c true })
    | none => (none, h)

def release (h : Cells) (c : ℕ) : Cells := { h with used := Function.update h.used c false }

def connPut (h : Cells) (c : ℕ) : Cells :=
  if 256 ≤ h.connFreeN then release h c
  else
    { h with
      list := { h.list with links := h.list.links.setNext c h.connFree }
      connFree := some c
      connFreeN := h.connFreeN + 1 }

/-- `memset(c, 0, sizeof(*c))` -/
def zeroed (h : Cells) (c : ℕ) : Cells :=
  { h with list := { h.list with links := (h.list.links.setNext c none).setPrev c none } }

/-- The lines of `cerco_connection_cb` that put a connection in front of the list. -/
def connLink (h : Cells) (c : ℕ) : Cells := { h with list := pushFront h.list c }

def connUnlink (h : Cells) (c : ℕ) : Cells := { h with list := unlink h.list c }

/-- What `conn_finalize` does to the cells. -/
def finalizeCell (h : Cells) (c : ℕ) : Cells :=
  let h := connUnlink h c
  if h.connFreeN < 256 then connPut h c else release h c

structure ConnMemory (σ : Type) where
  srv : Srv σ
  cells : Cells
  cell : ℕ → ℕ
  /-- The connections for which the body of `conn_finalize` ran, in order. -/
  torn : List ℕ

/-- How `cerco_connection_cb` goes on with a connection it got. -/
inductive AcceptEnd
  | taken
  | initFailed
  | acceptFailed
deriving DecidableEq

/-- A connection comes in, with what `calloc` would answer, or the server takes another step. -/
inductive Event
  | connection (calloc : Option ℕ) (ends : AcceptEnd)
  | step (a : Step)

/-- The connections whose `finalized` was set between two states. -/
def finalizedIn (s t : Srv σ) : List ℕ :=
  (List.range s.nextConn).filter fun i => !(s.conns i).finalized && (t.conns i).finalized

def after (p : ConnMemory σ) (t : Srv σ) : ConnMemory σ :=
  { p with
    srv := t
    cells := (finalizedIn p.srv t).foldl (fun h i => finalizeCell h (p.cell i)) p.cells
    torn := p.torn ++ finalizedIn p.srv t }

/-- `cerco_connection_cb`; `calloc` does not answer with memory that is in use. -/
def connectionCb (env : Env σ) (p : ConnMemory σ) (calloc : Option ℕ) (ends : AcceptEnd) :
    Option (ConnMemory σ) :=
  if srvDead p.srv || calloc.any p.cells.used then none
  else if p.srv.shuttingDown then some p
  else
    match connGet p.cells calloc with
    | (none, _) => some p
    | (some c, h) =>
      match ends with
      | .initFailed => some { p with cells := connPut (zeroed h c) c }
      | .acceptFailed =>
        -- closed without ever being linked; the callback of uv_close finds it not closing
        some { p with cells := zeroed h c }
      | .taken => (srvStep env p.srv .accept).map fun t =>
          { p with
            srv := t
            cells := connLink (zeroed h c) c
            cell := Function.update p.cell p.srv.nextConn c }

def memory (env : Env σ) : System (ConnMemory σ) Event where
  start p := p.srv = srvStart env ∧ p.torn = [] ∧
    p.cells = ⟨⟨⟨fun _ => none, fun _ => none⟩, none⟩, none, 0, fun _ => false⟩
  step p
    | .connection calloc ends => connectionCb env p calloc ends
    | .step .accept => none
    | .step a => (srvStep env p.srv a).map (after p)

def holder (p : ConnMemory σ) (c : ℕ) : Option ℕ :=
  (List.range p.srv.nextConn).reverse.find? fun i => p.cell i == c

/-- The body of the loop in `conn_sweep_deadlines`. -/
def passAt (c : ℕ) (p : ConnMemory σ) : ConnMemory σ :=
  match holder p c with
  | some i => after p (connDeadlinePass (p.srv.enter i)).done
  | none => p

/-- `conn_sweep_deadlines` with the cells it visits. -/
def sweepWalk (fuel : ℕ) (p : ConnMemory σ) : Option (List ℕ × ConnMemory σ) :=
  walk (fun p c => p.cells.list.links.next c) passAt fuel p.cells.list.head p

/-- The list goes through `xs`, the pool through `free`, and they are apart. -/
structure Shape (h : Cells) (xs free : List ℕ) : Prop where
  list : Chain h.list.links h.list.head xs
  pool : Stack h.list.links.next h.connFree free
  once : free.Nodup
  count : h.connFreeN = free.length
  apart : ∀ c ∈ free, c ∉ xs
  used : ∀ c ∈ xs ++ free, h.used c = true

structure InHand (h : Cells) (xs free : List ℕ) (c : ℕ) : Prop where
  list : c ∉ xs
  pool : c ∉ free
  used : h.used c = true

section Shape
variable {h : Cells} {xs free : List ℕ} {c : ℕ}

theorem connGet_shape (hs : Shape h xs free) {calloc : Option ℕ} (fresh : calloc.any h.used = false)
    {h' : Cells} (hc : connGet h calloc = (some c, h')) :
    ∃ free', Shape h' xs free' ∧ InHand h' xs free' c := by
  have head := hs.pool.head_eq
  unfold connGet at hc
  cases free with
  | nil =>
    rw [show h.connFree = none from head] at hc
    cases calloc with
    | none => cases hc
    | some d =>
      cases hc
      have unused : h.used c = false := fresh
      have off : c ∉ xs := fun hx => by
        rw [hs.used c (List.mem_append_left _ hx)] at unused
        cases unused
      refine ⟨[], ⟨hs.list, rfl, hs.once, hs.count, hs.apart, fun d hd => ?_⟩, off, List.not_mem_nil,
        Function.update_self c true h.used⟩
      rw [List.append_nil] at hd
      exact (Function.update_of_ne (fun e : d = c => off (e ▸ hd)) _ _).trans
        (hs.used d (List.mem_append_left _ hd))
  | cons d rest =>
    rw [show h.connFree = some d from head] at hc
    cases hc
    obtain ⟨notRest, once⟩ := List.nodup_cons.mp hs.once
    refine ⟨rest, ⟨hs.list, hs.pool.2, once, ?_, fun d hd => hs.apart d (List.mem_cons_of_mem c hd),
      fun d hd => hs.used d ?_⟩, hs.apart c List.mem_cons_self, notRest, ?_⟩
    · change h.connFreeN - 1 = _
      rw [hs.count, List.length_cons, Nat.add_sub_cancel]
    · exact (List.mem_append.mp hd).elim (List.mem_append_left _)
        fun hr => List.mem_append_right _ (List.mem_cons_of_mem c hr)
    · exact hs.used c (List.mem_append_right _ List.mem_cons_self)

theorem zeroed_shape (hs : Shape h xs free) (hc : InHand h xs free c) :
    Shape (zeroed h c) xs free ∧ InHand (zeroed h c) xs free c := by
  refine ⟨⟨Chain.congr hs.list fun d hd => ⟨?_, ?_⟩, Stack.congr hs.pool fun d hd => ?_, hs.once, hs.count,
    hs.apart, hs.used⟩, hc.list, hc.pool, hc.used⟩
  · exact Function.update_of_ne (fun e : d = c => hc.list (e ▸ hd)) _ _
  · exact Function.update_of_ne (fun e : d = c => hc.list (e ▸ hd)) _ _
  · exact Function.update_of_ne (fun e : d = c => hc.pool (e ▸ hd)) _ _

theorem release_shape (hs : Shape h xs free) (hc : InHand h xs free c) : Shape (release h c) xs free := by
  refine ⟨hs.list, hs.pool, hs.once, hs.count, hs.apart, fun d hd => ?_⟩
  refine (Function.update_of_ne (fun e : d = c => ?_) _ _).trans (hs.used d hd)
  exact (List.mem_append.mp hd).elim (fun hx => hc.list (e ▸ hx)) fun hf => hc.pool (e ▸ hf)

theorem connPut_shape (hs : Shape h xs free) (hc : InHand h xs free c) :
    ∃ free', Shape (connPut h c) xs free' := by
  unfold connPut
  split
  · exact ⟨free, release_shape hs hc⟩
  · refine ⟨c :: free, ⟨Chain.congr hs.list fun d hd => ⟨?_, rfl⟩, Stack.push hs.pool hc.pool,
      List.nodup_cons.mpr ⟨hc.pool, hs.once⟩, ?_, fun d hd => ?_, fun d hd => ?_⟩⟩
    · exact Function.update_of_ne (fun e : d = c => hc.list (e ▸ hd)) _ _
    · change h.connFreeN + 1 = _
      rw [hs.count, List.length_cons]
    · obtain rfl | hd := List.mem_cons.mp hd
      · exact hc.list
      · exact hs.apart d hd
    · obtain hx | hf := List.mem_append.mp hd
      · exact hs.used d (List.mem_append_left _ hx)
      · obtain rfl | hf := List.mem_cons.mp hf
        · exact hc.used
        · exact hs.used d (List.mem_append_right _ hf)

theorem connLink_shape (hs : Shape h xs free) (hc : InHand h xs free c) :
    Shape (connLink h c) (c :: xs) free := by
  refine ⟨hs.list.push hc.list, Stack.congr hs.pool fun d hd => ?_, hs.once, hs.count, fun d hd hx => ?_,
    fun d hd => ?_⟩
  · exact pushFront_next h.list fun e => hc.pool (e ▸ hd)
  · obtain rfl | hx := List.mem_cons.mp hx
    · exact hc.pool hd
    · exact hs.apart d hd hx
  · obtain rfl | hd := List.mem_cons.mp hd
    · exact hc.used
    · exact hs.used d hd

theorem connUnlink_shape (hs : Shape h xs free) (on : c ∈ xs) :
    Shape (connUnlink h c) (xs.erase c) free ∧ InHand (connUnlink h c) (xs.erase c) free c := by
  have off : c ∉ free := fun hf => hs.apart c hf on
  refine ⟨⟨hs.list.unlink on, Stack.congr hs.pool fun d hd => ?_, hs.once, hs.count, fun d hd hx => ?_,
    fun d hd => ?_⟩, hs.list.once.not_mem_erase, off, hs.used c (List.mem_append_left _ on)⟩
  · exact hs.list.unlink_outside on (hs.apart d hd)
  · exact hs.apart d hd (List.mem_of_mem_erase hx)
  · exact hs.used d ((List.mem_append.mp hd).elim
      (fun hx => List.mem_append_left _ (List.mem_of_mem_erase hx)) (List.mem_append_right _))

theorem finalizeCell_shape (hs : Shape h xs free) (on : c ∈ xs) :
    ∃ free', Shape (finalizeCell h c) (xs.erase c) free' := by
  obtain ⟨shape, inHand⟩ := connUnlink_shape hs on
  unfold finalizeCell
  dsimp only
  split
  · exact connPut_shape shape inHand
  · exact ⟨free, release_shape shape inHand⟩

end Shape

/-- The cells of the connections that are on the list. -/
def onList (p : ConnMemory σ) : List ℕ := p.srv.active.map p.cell

structure Stored (p : ConnMemory σ) : Prop where
  shape : ∃ free, Shape p.cells (onList p) free
  /-- What lies in a cell of the list is the connection that took it last. -/
  latest : ∀ i ∈ p.srv.active, ∀ j, i < j → j < p.srv.nextConn → p.cell j ≠ p.cell i
  counted : level p.srv = ((p.srv.active.length : ℤ), (p.srv.active.length : ℤ))
  tornOnce : p.torn.Nodup
  torn : ∀ i, i ∈ p.torn ↔ i < p.srv.nextConn ∧ (p.srv.conns i).finalized = true

theorem map_erase_of_nodup {α β : Type} [DecidableEq α] [DecidableEq β] (f : α → β) {l : List α}
    (once : (l.map f).Nodup) {a : α} (ha : a ∈ l) : (l.erase a).map f = (l.map f).erase (f a) := by
  induction l with
  | nil => cases ha
  | cons b l ih =>
    obtain ⟨fresh, once⟩ := List.nodup_cons.mp once
    by_cases own : b = a
    · rw [own, List.erase_cons_head, List.map_cons, List.erase_cons_head]
    · have ha := (List.mem_cons.mp ha).resolve_left (Ne.symm own)
      have other : f b ≠ f a := fun e => fresh (e ▸ List.mem_map_of_mem ha)
      rw [List.erase_cons_tail (by simpa using own), List.map_cons, List.map_cons,
        List.erase_cons_tail (by simpa using other), ih once ha]

theorem finalizedIn_quiet {s t : Srv σ} {worker : Option ℕ} (h : Quiet s t worker) : finalizedIn s t = [] := by
  refine List.filter_eq_nil_iff.mpr fun i _ => ?_
  rw [h.finalized i]
  cases (s.conns i).finalized <;> decide

theorem finalizedIn_torn {s t : Srv σ} {i : ℕ} (h : Torn s t i) : finalizedIn s t = [i] := by
  refine List.perm_singleton.mp ((List.perm_ext_iff_of_nodup (List.nodup_range.filter _)
    (List.nodup_singleton i)).mpr fun j => ?_)
  rw [List.mem_filter, List.mem_range, List.mem_singleton]
  constructor
  · rintro ⟨_, flips⟩
    by_contra other
    rw [h.others j other] at flips
    cases hf : (s.conns j).finalized <;> rw [hf] at flips <;> cases flips
  · rintro rfl
    rw [h.before, h.finalized]
    exact ⟨h.born, rfl⟩

section Steps
variable {env : Env σ} {p q : ConnMemory σ} {s : Srv σ}

structure Known (s : Srv σ) : Prop where
  linked : ∀ i, Linked (s.conns i)
  active : ∀ i, i ∈ s.active ↔ i < s.nextConn ∧ (s.conns i).finalized = false
  once : s.active.Nodup

theorem reach_known (h : Reach (server env) anyStep s) : Known s := by
  obtain ⟨pool, hp⟩ := reach_pooled h
  exact ⟨reach_linked h, (reach_filed hp).active, (reach_filed hp).once⟩

theorem Stored.quiet (h : Stored p) {t : Srv σ} {worker : Option ℕ} (hq : Quiet p.srv t worker)
    (same : level t = level p.srv) : Stored (after p t) := by
  have seats := hq.seats
  simp only [Prod.mk.injEq] at seats
  obtain ⟨active, _, next⟩ := seats
  have still : after p t = { p with srv := t } := by
    unfold after
    rw [finalizedIn_quiet hq, List.append_nil]
    rfl
  rw [still]
  refine ⟨?_, ?_, ?_, h.tornOnce, fun i => ?_⟩
  · rw [show onList { p with srv := t } = onList p from congrArg (List.map p.cell) active]
    exact h.shape
  · change ∀ i ∈ t.active, ∀ j, i < j → j < t.nextConn → _
    rw [active, next]
    exact h.latest
  · change level t = ((t.active.length : ℤ), (t.active.length : ℤ))
    rw [same, active]
    exact h.counted
  · change i ∈ p.torn ↔ i < t.nextConn ∧ (t.conns i).finalized = true
    rw [next, hq.finalized]
    exact h.torn i

theorem Stored.torn_step (h : Stored p) (known : Known p.srv) {t : Srv σ} {i : ℕ} (ht : Torn p.srv t i)
    (lower : level t = (p.srv.nConns - 1, p.srv.stats.activeConns - 1)) : Stored (after p t) := by
  have on : i ∈ p.srv.active := (known.active i).mpr ⟨ht.born, ht.before⟩
  have shorter := List.length_erase_of_mem on
  have some_ : 0 < p.srv.active.length := List.length_pos_of_mem on
  obtain ⟨free, shape⟩ := h.shape
  have one : after p t = { p with srv := t, cells := finalizeCell p.cells (p.cell i), torn := p.torn ++ [i] } := by
    unfold after
    rw [finalizedIn_torn ht]
    rfl
  rw [one]
  refine ⟨?_, ?_, ?_, ?_, fun j => ?_⟩
  · change ∃ free, Shape (finalizeCell p.cells (p.cell i)) (t.active.map p.cell) free
    rw [ht.active, map_erase_of_nodup p.cell shape.list.once on]
    exact finalizeCell_shape shape (List.mem_map_of_mem on)
  · change ∀ j ∈ t.active, ∀ k, j < k → k < t.nextConn → _
    rw [ht.active, ht.nextConn]
    exact fun j hj => h.latest j (List.mem_of_mem_erase hj)
  · change level t = ((t.active.length : ℤ), (t.active.length : ℤ))
    obtain ⟨conns, gauge⟩ := Prod.mk.inj h.counted
    rw [lower, ht.active, shorter, show p.srv.nConns = _ from conns, show p.srv.stats.activeConns = _ from gauge]
    rw [Nat.cast_sub some_, Nat.cast_one]
  · refine List.nodup_append'.mpr ⟨h.tornOnce, List.nodup_singleton i, fun j hj own => ?_⟩
    rw [List.mem_singleton.mp own] at hj
    have := ((h.torn i).mp hj).2
    rw [ht.before] at this
    cases this
  · change j ∈ p.torn ++ [i] ↔ j < t.nextConn ∧ (t.conns j).finalized = true
    rw [List.mem_append, List.mem_singleton, h.torn, ht.nextConn]
    by_cases own : j = i
    · rw [own]
      exact ⟨fun _ => ⟨ht.born, ht.finalized⟩, fun _ => .inr rfl⟩
    · rw [ht.others j own]
      exact ⟨fun hj => hj.resolve_right own, .inl⟩

theorem Stored.opened (h : Stored p) (known : Known p.srv) {t : Srv σ} (ho : Opened env p.srv t)
    (higher : level t = (p.srv.nConns + 1, p.srv.stats.activeConns + 1)) {cells : Cells} {free : List ℕ}
    {c : ℕ} (shape : Shape cells (onList p) free) (inHand : InHand cells (onList p) free c) :
    Stored { p with
      srv := t, cells := connLink cells c, cell := Function.update p.cell p.srv.nextConn c } := by
  have old : ∀ i, i ≠ p.srv.nextConn → Function.update p.cell p.srv.nextConn c i = p.cell i :=
    fun i hi => Function.update_of_ne hi _ _
  have born : ∀ i ∈ p.srv.active, i ≠ p.srv.nextConn := fun i hi => Nat.ne_of_lt ((known.active i).mp hi).1
  refine ⟨⟨free, ?_⟩, ?_, ?_, h.tornOnce, fun i => ?_⟩
  · change Shape _ (t.active.map (Function.update p.cell p.srv.nextConn c)) free
    rw [ho.active, List.map_cons, Function.update_self,
      List.map_congr_left fun i hi => old i (born i hi)]
    exact connLink_shape shape inHand
  · change ∀ i ∈ t.active, ∀ j, i < j → j < t.nextConn → Function.update p.cell p.srv.nextConn c j ≠
      Function.update p.cell p.srv.nextConn c i
    rw [ho.active, ho.nextConn]
    intro i hi j above below
    obtain rfl | hi := List.mem_cons.mp hi
    · omega
    · rw [old i (born i hi)]
      by_cases new : j = p.srv.nextConn
      · rw [new, Function.update_self]
        exact fun e => inHand.list (e ▸ List.mem_map_of_mem hi)
      · rw [old j new]
        exact h.latest i hi j above (by omega)
  · change level t = ((t.active.length : ℤ), (t.active.length : ℤ))
    obtain ⟨conns, gauge⟩ := Prod.mk.inj h.counted
    rw [higher, ho.active, List.length_cons, show p.srv.nConns = _ from conns,
      show p.srv.stats.activeConns = _ from gauge, Nat.cast_succ]
  · change i ∈ p.torn ↔ i < t.nextConn ∧ (t.conns i).finalized = true
    rw [h.torn, ho.nextConn]
    by_cases new : i = p.srv.nextConn
    · rw [new, ho.finalized]
      simp
    · rw [ho.others i new]
      exact ⟨fun hi => ⟨Nat.lt_succ_of_lt hi.1, hi.2⟩, fun hi => ⟨by omega, hi.2⟩⟩

theorem Stored.recells (h : Stored p) {cells : Cells} (shape : ∃ free, Shape cells (onList p) free) :
    Stored { p with cells := cells } := ⟨shape, h.latest, h.counted, h.tornOnce, h.torn⟩

theorem Stored.connection (h : Stored p) (known : Known p.srv) {calloc : Option ℕ} {ends : AcceptEnd}
    (hs : connectionCb env p calloc ends = some q) : Stored q := by
  unfold connectionCb at hs
  split at hs
  · cases hs
  · rename_i runs
    rw [Bool.not_eq_true, Bool.or_eq_false_iff] at runs
    split at hs
    · cases hs
      exact h
    · rename_i up
      rw [Bool.not_eq_true] at up
      split at hs
      · cases hs
        exact h
      · rename_i c cells hc
        obtain ⟨free, shape⟩ := h.shape
        obtain ⟨free, shape, inHand⟩ := connGet_shape shape runs.2 hc
        obtain ⟨shape, inHand⟩ := zeroed_shape shape inHand
        cases ends with
        | initFailed =>
          cases hs
          exact h.recells (connPut_shape shape inHand)
        | acceptFailed =>
          cases hs
          exact h.recells ⟨free, shape⟩
        | taken =>
          obtain ⟨t, ht, rfl⟩ := Option.map_eq_some_iff.mp hs
          have opened := accept_opened up ht
          have same : t = cercoConnectionCb env p.srv := by
            unfold srvStep at ht
            rw [runs.1, if_neg Bool.false_ne_true] at ht
            exact (Option.some.inj ht).symm
          exact h.opened known opened (same ▸ cercoConnectionCb_level env up) shape inHand

theorem Stored.step (h : Stored p) (known : Known p.srv) {e : Event} (hs : (memory env).step p e = some q) :
    Stored q := by
  cases e with
  | connection calloc ends => exact h.connection known hs
  | step a =>
    have other : a ≠ .accept := by
      rintro rfl
      cases hs
    obtain ⟨t, ht, rfl⟩ : ∃ t, srvStep env p.srv a = some t ∧ after p t = q := by
      cases a <;> first | exact absurd rfl other | exact Option.map_eq_some_iff.mp hs
    obtain ⟨rfl, _⟩ | ⟨i, rfl, torn⟩ | ⟨worker, quiet, _⟩ := srvStep_seats known.linked ht
    · exact absurd rfl other
    · refine h.torn_step known torn (closedStep_level (known.linked i) ?_)
      unfold srvStep at ht
      split at ht
      · cases ht
      · exact ht
    · refine h.quiet quiet (srvStep_level known.linked ht (fun e => absurd e other) fun i e => ?_)
      rw [e] at ht
      unfold srvStep at ht
      split at ht
      · cases ht
      · simp only [closedStep] at ht
        split at ht
        · rename_i hg
          cases ht
          have torn := connOnStreamClosed_torn (known.linked i) hg.1 hg.2.1 hg.2.2.1 hg.2.2.2
          have flips := quiet.finalized i
          rw [torn.finalized, torn.before] at flips
          cases flips
        · cases ht

theorem memory_reach {ok : ConnMemory σ → Event → Prop} (h : Reach (memory env) ok p) :
    Reach (server env) anyStep p.srv := by
  induction h with
  | start h => exact .start h.1
  | @step p q e _ _ hs ih =>
    cases e with
    | connection calloc ends =>
      change connectionCb env p calloc ends = some q at hs
      unfold connectionCb at hs
      split at hs
      · cases hs
      · split at hs
        · cases hs
          exact ih
        · split at hs
          · cases hs
            exact ih
          · cases ends with
            | initFailed =>
              cases hs
              exact ih
            | acceptFailed =>
              cases hs
              exact ih
            | taken =>
              obtain ⟨t, ht, rfl⟩ := Option.map_eq_some_iff.mp hs
              exact .step (a := .accept) ih trivial ht
    | step a =>
      obtain ⟨t, ht, rfl⟩ : ∃ t, srvStep env p.srv a = some t ∧ after p t = q := by
        cases a <;> first | cases hs | exact Option.map_eq_some_iff.mp hs
      exact .step ih trivial ht

theorem reach_stored {ok : ConnMemory σ → Event → Prop} (h : Reach (memory env) ok p) : Stored p := by
  refine h.invariant_with (J := fun p => Known p.srv) (fun _ hr => reach_known (memory_reach hr))
    (fun p hp => ?_) fun _ _ _ known hi _ hs => hi.step known hs
  obtain ⟨srv, cells, cell, torn⟩ := p
  obtain ⟨rfl, rfl, rfl⟩ := hp
  refine ⟨⟨[], chain_nil _, rfl, List.nodup_nil, rfl, fun _ hc => (by cases hc), fun _ hc => (by cases hc)⟩,
    fun _ hi => (by cases hi), rfl, List.nodup_nil, fun i => ?_⟩
  exact ⟨fun hi => (by cases hi), fun hi => absurd hi.1 (Nat.not_lt_zero i)⟩

end Steps

theorem find_latest {cell : ℕ → ℕ} {i n : ℕ} (born : i < n)
    (latest : ∀ j, i < j → j < n → cell j ≠ cell i) :
    (List.range n).reverse.find? (fun j => cell j == cell i) = some i := by
  induction n with
  | zero => cases born
  | succ n ih =>
    rw [List.range_succ, List.reverse_append, List.reverse_singleton, List.singleton_append, List.find?_cons]
    by_cases own : n = i
    · rw [own, beq_self_eq_true]
    · have other : (cell n == cell i) = false := beq_eq_false_iff_ne.mpr (latest n (by omega) (by omega))
      rw [other]
      exact ih (by omega) fun j above below => latest j above (by omega)

/-- The walk stands before the connections `ids`: nothing was torn down on the way. -/
structure Sweeping (p q : ConnMemory σ) (ids : List ℕ) : Prop where
  same : (q.cells, q.cell, q.torn, q.srv.nextConn) = (p.cells, p.cell, p.torn, p.srv.nextConn)
  linked : ∀ i, Linked (q.srv.conns i)
  listed : ∀ i ∈ ids, i ∈ p.srv.active

section Sweep
variable {env : Env σ} {p q : ConnMemory σ}

theorem passAt_listed (h : Stored p) (known : Known p.srv) {i : ℕ} {ids : List ℕ}
    (hq : Sweeping p q (i :: ids)) :
    passAt (p.cell i) q = { q with srv := (connDeadlinePass (q.srv.enter i)).done } ∧
      Sweeping p (passAt (p.cell i) q) ids := by
  obtain ⟨cells, cell, torn, next⟩ := Prod.mk.inj hq.same |>.imp_right fun e =>
    (Prod.mk.inj e).imp_right Prod.mk.inj
  have on := hq.listed i List.mem_cons_self
  have found : holder q (p.cell i) = some i := by
    unfold holder
    rw [cell, next]
    exact find_latest ((known.active i).mp on).1 (h.latest i on)
  have tame := connDeadlinePass_tame (x := q.srv.enter i) (hq.linked i)
  have pass : passAt (p.cell i) q = { q with srv := (connDeadlinePass (q.srv.enter i)).done } := by
    unfold passAt after
    rw [found]
    dsimp only
    rw [finalizedIn_quiet (tame.quiet none), List.append_nil]
    rfl
  refine ⟨pass, ?_⟩
  rw [pass]
  refine ⟨?_, fun j => ?_, fun j hj => hq.listed j (List.mem_cons_of_mem i hj)⟩
  · change (q.cells, q.cell, q.torn, (connDeadlinePass (q.srv.enter i)).srv.nextConn) = _
    rw [tame.nextConn]
    exact hq.same
  · change Linked ((connDeadlinePass (q.srv.enter i)).done.conns j)
    rw [tame.toStays.done_conns]
    split
    · exact tame.linked
    · exact hq.linked j

theorem sweep_foldl (h : Stored p) (known : Known p.srv) {ids : List ℕ} (hq : Sweeping p q ids) :
    (ids.map p.cell).foldl (fun q c => passAt c q) q =
      { q with srv := eachConn connDeadlinePass ids q.srv } := by
  induction ids generalizing q with
  | nil => rfl
  | cons i ids ih =>
    obtain ⟨pass, rest⟩ := passAt_listed h known hq
    rw [List.map_cons, List.foldl_cons, ih rest, pass]
    rfl

theorem sweepWalk_visits (h : Stored p) (known : Known p.srv) {fuel : ℕ}
    (enough : p.srv.active.length ≤ fuel) :
    sweepWalk fuel p = some (onList p, { p with srv := connSweepDeadlines p.srv }) := by
  obtain ⟨free, shape⟩ := h.shape
  have start : Sweeping p p p.srv.active := ⟨rfl, known.linked, fun i hi => hi⟩
  unfold sweepWalk
  rw [walk_visits (I := fun cs q => ∃ ids, cs = ids.map p.cell ∧ Sweeping p q ids) ?_ shape.list.stack
    ⟨_, rfl, start⟩ (by rw [List.length_map]; exact enough)]
  · rw [onList, sweep_foldl h known start]
    rfl
  · rintro c cs q ⟨ids, e, hq⟩
    cases ids with
    | nil => cases e
    | cons i ids =>
      obtain ⟨rfl, rfl⟩ := List.cons_eq_cons.mp e
      obtain ⟨pass, rest⟩ := passAt_listed h known hq
      refine ⟨⟨ids, rfl, rest⟩, fun d _ => ?_⟩
      rw [pass]

end Sweep

/-- The connection list of a state is consistent: the pointers from `srv->conns` run both ways through
the open connections, `n_conns` and `stats.active_conns` are its length, no connection on it was torn
down or lies in the pool, `conn_finalize` ran at most once for each accepted connection, and the sweep
visits each connection of the list once. -/
structure Consistent (p : ConnMemory σ) : Prop where
  list : Chain p.cells.list.links p.cells.list.head (onList p)
  conns : p.srv.nConns = (onList p).length
  gauge : p.srv.stats.activeConns = (onList p).length
  live : ∀ i ∈ p.srv.active, (p.srv.conns i).finalized = false
  pool : ∃ free, Stack p.cells.list.links.next p.cells.connFree free ∧ free.Nodup ∧
    p.cells.connFreeN = free.length ∧ ∀ c ∈ free, c ∉ onList p
  tornOnce : p.torn.Nodup
  accepted : ∀ i < p.srv.nextConn, i ∈ p.srv.active ↔ i ∉ p.torn
  swept : ∀ fuel, (onList p).length ≤ fuel →
    sweepWalk fuel p = some (onList p, { p with srv := connSweepDeadlines p.srv })

/-- In every run the connection list is consistent. -/
theorem conn_list_consistent {env : Env σ} {p : ConnMemory σ} (h : Reach (memory env) anyStep p) :
    Consistent p := by
  have known := reach_known (memory_reach h)
  have stored := reach_stored h
  obtain ⟨free, shape⟩ := stored.shape
  obtain ⟨conns, gauge⟩ := Prod.mk.inj stored.counted
  have length : (onList p).length = p.srv.active.length := List.length_map _
  refine ⟨shape.list, by rw [length]; exact conns, by rw [length]; exact gauge,
    fun i hi => ((known.active i).mp hi).2, ⟨free, shape.pool, shape.once, shape.count, shape.apart⟩,
    stored.tornOnce, fun i born => ?_, fun fuel enough => sweepWalk_visits stored known (length ▸ enough)⟩
  rw [known.active, stored.torn]
  cases (p.srv.conns i).finalized <;> simp [born]

def memoryStart : ConnMemory Scan :=
  ⟨srvStart (stockEnv rootTable), ⟨⟨⟨fun _ => none, fun _ => none⟩, none⟩, none, 0, fun _ => false⟩,
    fun _ => 0, []⟩

/-- Two clients come, the first one goes, and a third one gets its memory. -/
theorem conn_list_consistent_reused : ∃ p : ConnMemory Scan,
    Reach (memory (stockEnv rootTable)) anyStep p ∧ onList p = [8, 16] ∧ p.torn = [0] ∧ Consistent p := by
  have run : ((exec (memory (stockEnv rootTable)) memoryStart [.connection (some 8) .taken,
      .connection (some 16) .taken, .connection (some 24) .initFailed, .step (.readEnd 0), .step (.closed 0),
      .connection none .taken]).map fun p => (onList p, p.torn)) = some ([8, 16], [0]) := by decide +kernel
  obtain ⟨p, hp, view⟩ := Option.map_eq_some_iff.mp run
  have start : Reach (memory (stockEnv rootTable)) anyStep memoryStart := .start ⟨rfl, rfl, rfl⟩
  have h := exec_reach _ start (fun _ _ _ => trivial) hp
  exact ⟨p, h, (Prod.mk.inj view).1, (Prod.mk.inj view).2, conn_list_consistent h⟩

end Cerco.ConnList
