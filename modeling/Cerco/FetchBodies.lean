import Cerco.ByteMemory
import Cerco.ClientHeap

set_option autoImplicit false

/-!
# Response bodies on the client

32 requests can be pending and share four response buffers, by the index of their
table entry. The host answers in any order: it reserves a buffer, copies the body
and calls `cerco_fetch_done` without anything in between. A callback runs last, so
what it does is a matter of later steps; it returns normally. Page code may write
anywhere in the heap between two steps. `accepted` and `ran` are history.
-/
namespace Cerco.FetchBodies
open Cerco.ByteMemory Cerco.TransitionRuns
open Cerco.ClientHeap
open Cerco.ClientReply (asInt32)

abbrev Bytes := List UInt8

/-- An entry of `g_fetches`. The flag `used` is in the table of the heap. -/
structure Entry where
  cb : Option ℕ
  user : ℕ
  resp : ℕ
deriving DecidableEq

structure Request where
  num : ℕ
  id : ℕ
  cb : Option ℕ
  user : ℕ
deriving DecidableEq

/-- What becomes of a request on the network. -/
inductive Reply
  | failed
  | answer (status : Int) (body : Bytes)
deriving DecidableEq

/-- A response that is handled: the request it is for, and whether the heap has room for it. -/
structure Handled where
  num : ℕ
  reply : Reply
  room : Bool
deriving DecidableEq

/-- A callback that ran. `data` is what it finds behind the pointer: `len` bytes and one more. -/
structure Ran where
  handled : Handled
  cb : ℕ
  user : ℕ
  status : Int
  data : Option Bytes
  len : Int
deriving DecidableEq

structure FetchSt where
  heap : HeapSt
  mem : Mem
  entries : List Entry
  inflight : List Request
  accepted : List Request
  ran : List Ran

/-- `cerco_http_get` and `cerco_http_post`: without a free entry nothing is sent. -/
def cercoHttp (s : FetchSt) (cb : Option ℕ) (user : ℕ) : FetchSt :=
  match s.heap.used.findIdx? (· == false) with
  | none => s
  | some id =>
    { s with
      heap := httpStart s.heap
      entries := s.entries.set id ⟨cb, user, 0⟩
      inflight := s.inflight ++ [⟨s.accepted.length, id, cb, user⟩]
      accepted := s.accepted ++ [⟨s.accepted.length, id, cb, user⟩] }

/-- `g_fetch_bufs[slot]` -/
def fetchBuf (heap : HeapSt) (slot : Fin 4) : ℕ :=
  match heap.held.slots (.fetchBuf slot) with
  | none => 0
  | some r => r.base

/-- `g_fetches[id].resp = p` -/
def setResp (entries : List Entry) (id p : ℕ) : List Entry :=
  entries.modify id fun f => { f with resp := p }

/-- `cerco_fetch_reserve`; 0 is its null pointer. -/
def cercoFetchReserve (s : FetchSt) (grants id : ℕ) (len : Int) : FetchSt × ℕ :=
  if s.heap.used[id]? ≠ some true then (s, 0)
  else if len < 0 ∨ (fetchMax : Int) < len then (s, 0)
  else
    let heap := fetchReserve s.heap grants id len
    -- still too small: the heap is exhausted
    if heap.fetchCaps (slotOf id) < len.toNat + 1 then (s, 0)
    else
      let buf := fetchBuf heap (slotOf id)
      ({ s with
          heap := heap
          mem := s.mem.set (buf + len.toNat) 0
          entries := setResp s.entries id buf }, buf)

def cercoFetchDone (s : FetchSt) (h : Handled) (id : ℕ) (status len : Int) : FetchSt :=
  if s.heap.used[id]? ≠ some true then s
  else
    match s.entries[id]? with
    | none => s
    | some f =>
      let data := if 0 < len ∧ f.resp ≠ 0 then some (s.mem.load f.resp (len.toNat + 1)) else none
      { s with
        heap := fetchDone s.heap id
        entries := setResp s.entries id 0
        ran := s.ran ++ f.cb.toList.map fun cb => ⟨h, cb, f.user, status, data, len⟩ }

def hasRoom (s : HeapSt) (grants id len : ℕ) : Bool :=
  decide (len + 1 ≤ s.fetchCaps (slotOf id)) ||
    (allocSticky s grants (some (.fetchBuf (slotOf id))) (len + 1)).isSome

def roomFor (s : HeapSt) (grants id : ℕ) : Reply → Bool
  | .failed => false
  | .answer _ body => hasRoom s grants id body.length

/-- The host's handlers of a request. Lengths cross to the client as 32-bit numbers; what
the client writes or the host copies out of bounds ends in `catch`. -/
def respond (s : FetchSt) (req : Request) (reply : Reply) (grants : ℕ) : FetchSt :=
  let h : Handled := ⟨req.num, reply, roomFor s.heap grants req.id reply⟩
  match reply with
  | .failed => cercoFetchDone s h req.id 0 0
  | .answer status body =>
    let len := asInt32 body.length
    let (t, ptr) := cercoFetchReserve s grants req.id len
    if ptr = 0 then cercoFetchDone t h req.id (-1) 0
    else if t.heap.heapEnd < ptr + (len.toNat + 1) ∨ t.heap.heapEnd < ptr + body.length then
      cercoFetchDone t h req.id 0 0
    else cercoFetchDone { t with mem := t.mem.write ptr body } h req.id status len

inductive Event
  | heap (e : ClientHeap.Event)
  | rewind
  | store (a : ℕ) (b : UInt8)
  | request (cb : Option ℕ) (user : ℕ)
  | respond (num : ℕ) (reply : Reply) (grants : ℕ)
deriving DecidableEq

/-- Allocations besides the response buffers. A block does not wrap around the address space. -/
def Allocates (s : HeapSt) : ClientHeap.Event → Prop
  | .alloc n _ => Fits s n
  | .cmdBegin _ => True
  | .scratchAlloc _ => True
  | .scratchBase _ => True
  | .sfBegin _ => True
  | _ => False

instance (s : HeapSt) : (e : ClientHeap.Event) → Decidable (Allocates s e)
  | .alloc n _ => inferInstanceAs (Decidable (Fits s n))
  | .cmdBegin _ => .isTrue trivial
  | .scratchAlloc _ => .isTrue trivial
  | .scratchBase _ => .isTrue trivial
  | .sfBegin _ => .isTrue trivial
  | .httpStart => .isFalse id
  | .fetchReserve _ _ _ => .isFalse id
  | .fetchDone _ => .isFalse id
  | .navigate => .isFalse id

def fetchStep (s : FetchSt) : Event → Option FetchSt
  | .heap e =>
    if Allocates s.heap e then (heapStep s.heap e).map fun heap => { s with heap := heap } else none
  | .rewind => some { s with heap := heapRewind s.heap }
  | .store a b => some { s with mem := s.mem.set a b }
  | .request cb user => some (cercoHttp s cb user)
  | .respond num reply grants =>
    (s.inflight.find? fun r => r.num == num).map fun req =>
      respond { s with inflight := s.inflight.filter fun r => r.num != num } req reply grants

def bootFetch (heapBase pages : ℕ) (mem : Mem) : FetchSt :=
  { heap := heapInit heapBase pages
    mem := mem
    entries := List.replicate maxPendingFetches ⟨none, 0, 0⟩
    inflight := []
    accepted := []
    ran := [] }

/-- The heap starts within the module's memory, and pointers are positive for the host. -/
def fetchSystem : System FetchSt Event where
  start s := ∃ heapBase pages mem, 0 < heapBase ∧ heapBase ≤ pages * page ∧ pages * page ≤ 2 ^ 31 ∧
    s = bootFetch heapBase pages mem
  step := fetchStep

/-- The callbacks that ran for a request. -/
def FetchSt.calls (s : FetchSt) (num : ℕ) : List Ran := s.ran.filter fun c => c.handled.num == num

/-- The whole body, as `data` hands it over, when there is room for it, or nothing. -/
def Whole (data : Bytes → Option Bytes) (c : Ran) : Prop :=
  match c.handled.reply with
  | .failed => c.status = 0 ∧ c.data = none ∧ c.len = 0
  | .answer status body =>
    if body.length ≤ fetchMax ∧ c.handled.room = true then
      c.status = status ∧ c.data = data body ∧ c.len = body.length
    else (c.status = 0 ∨ c.status = -1) ∧ c.data = none ∧ c.len = 0

def Answered (data : Bytes → Option Bytes) (s : FetchSt) (r : Request) : Prop :=
  match r.cb with
  | none => s.calls r.num = []
  | some cb => ∃ c, s.calls r.num = [c] ∧ c.cb = cb ∧ c.user = r.user ∧ Whole data c

/-- A table entry is used exactly while its request is in flight, when its callback has not
run yet and any answer ends it; after that the callback has run exactly once. -/
structure Delivery (data : Bytes → Option Bytes) (s : FetchSt) : Prop where
  used : ∀ id, s.heap.used[id]? = some true ↔ ∃ r ∈ s.inflight, r.id = id
  pending : ∀ r ∈ s.inflight, r ∈ s.accepted ∧ s.calls r.num = []
  ends : ∀ r ∈ s.inflight, ∀ reply grants, ∃ t,
    fetchStep s (.respond r.num reply grants) = some t ∧ r ∉ t.inflight
  answered : ∀ r ∈ s.accepted, r ∉ s.inflight → Answered data s r

def terminated (body : Bytes) : Option Bytes := some (body ++ [0])

def terminatedUnlessEmpty (body : Bytes) : Option Bytes :=
  if body = [] then none else some (body ++ [0])

/-- The heap ends at a page boundary below 2 GiB, and its pointers and the response buffers
are not beyond that. -/
structure Mapped (s : HeapSt) : Prop where
  base_pos : 0 < s.heapBase
  base_le : s.heapBase ≤ s.heapEnd
  ptr_pos : 0 < s.heapPtr
  ptr_le : s.heapPtr ≤ s.heapEnd
  floor_le : s.stickyFloor ≤ s.heapEnd
  stop_le : s.heapEnd ≤ 2 ^ 31
  whole : s.heapEnd % page = 0
  bufs : ∀ slot, s.fetchCaps slot = 0 ∨
    ∃ r, s.held.slots (.fetchBuf slot) = some r ∧ 0 < r.base ∧ r.base + s.fetchCaps slot ≤ s.heapEnd

structure Carried (s t : HeapSt) : Prop where
  mapped : Mapped t
  used : t.used = s.used

theorem growLoop_some {target stop : ℕ} {grants pagesEnd : ℕ}
    (h : growLoop target grants pagesEnd = some stop) :
    pagesEnd ≤ stop ∧ target ≤ stop ∧ stop ≤ max pagesEnd (target + page) ∧
      stop % page = pagesEnd % page := by
  induction grants generalizing pagesEnd with
  | zero =>
    rw [growLoop] at h
    split at h
    · cases h
    · obtain rfl := Option.some.inj h
      exact ⟨le_rfl, by omega, le_max_left _ _, rfl⟩
  | succ grants ih =>
    rw [growLoop] at h
    split at h
    · obtain ⟨lo, reach, hi, pages⟩ := ih h
      refine ⟨by omega, reach, ?_, by rw [pages, Nat.add_mod_right]⟩
      have near : pagesEnd + page ≤ target + page := by omega
      exact hi.trans ((max_le near le_rfl).trans (le_max_right _ _))
    · obtain rfl := Option.some.inj h
      exact ⟨le_rfl, by omega, le_max_left _ _, rfl⟩

theorem Mapped.cercoAlloc {s t : HeapSt} (h : Mapped s) {grants n : ℕ} {owner : Option Static}
    (fits : Fits s n) (ht : cercoAlloc s grants owner n = some t) :
    ∃ stop, t = bump { s with heapEnd := stop } owner n ∧ s.heapEnd ≤ stop ∧
      s.heapPtr + allocSize n ≤ stop ∧ stop ≤ 2 ^ 31 ∧ stop % page = 0 := by
  have near := h.stop_le
  have sum : wrap32 (s.heapPtr + allocSize n) = s.heapPtr + allocSize n := Nat.mod_eq_of_lt fits.2
  have aligned : wrap32 (s.heapEnd + page - 1) / page * page = s.heapEnd := by
    have pages := h.whole
    unfold wrap32 page at *
    omega
  unfold ClientHeap.cercoAlloc at ht
  rw [sum] at ht
  split at ht
  · obtain ⟨stop, grown, rfl⟩ := Option.map_eq_some_iff.mp ht
    unfold heapGrow at grown
    rw [sum, aligned] at grown
    dsimp only at grown
    split at grown
    · cases grown
    · obtain ⟨lo, reach, hi, pages⟩ := growLoop_some grown
      refine ⟨stop, rfl, lo, reach, hi.trans (max_le near ?_), by rw [pages]; exact h.whole⟩
      unfold maxHeapPages page at *
      omega
  · exact ⟨s.heapEnd, (Option.some.inj ht).symm, le_rfl, by omega, near, h.whole⟩

theorem Mapped.bump {s : HeapSt} (h : Mapped s) {n stop : ℕ} {owner : Option Static}
    (plain : ∀ slot, owner ≠ some (.fetchBuf slot)) (fits : Fits s n) (grown : s.heapEnd ≤ stop)
    (room : s.heapPtr + allocSize n ≤ stop) (near : stop ≤ 2 ^ 31) (pages : stop % page = 0) :
    Mapped (bump { s with heapEnd := stop } owner n) := by
  have ptr := @bump_ptr { s with heapEnd := stop } n fits owner
  refine ⟨h.base_pos, h.base_le.trans grown, ?_, ?_, h.floor_le.trans grown, near, pages, fun slot => ?_⟩
  · rw [ptr]
    exact Nat.add_pos_left h.ptr_pos _
  · rw [ptr]
    exact room
  · obtain none | ⟨r, hr, pos, inside⟩ := h.bufs slot
    · exact .inl none
    · refine .inr ⟨r, ?_, pos, inside.trans grown⟩
      cases owner with
      | none => exact hr
      | some p => exact (Function.update_of_ne (fun e => plain slot (congrArg some e.symm)) _ _).trans hr

theorem Mapped.alloc {s t : HeapSt} (h : Mapped s) {grants n : ℕ} {owner : Option Static}
    (plain : ∀ slot, owner ≠ some (.fetchBuf slot)) (fits : Fits s n)
    (ht : ClientHeap.cercoAlloc s grants owner n = some t) : Carried s t := by
  obtain ⟨stop, rfl, grown, room, near, pages⟩ := h.cercoAlloc fits ht
  exact ⟨h.bump plain fits grown room near pages, rfl⟩

theorem Mapped.floor {s : HeapSt} (h : Mapped s) {floor : ℕ} (le : floor ≤ s.heapEnd) :
    Mapped { s with stickyFloor := floor } :=
  ⟨h.base_pos, h.base_le, h.ptr_pos, h.ptr_le, le, h.stop_le, h.whole, h.bufs⟩

theorem Mapped.allocSticky {s t : HeapSt} (h : Mapped s) {grants n : ℕ} {owner : Option Static}
    (plain : ∀ slot, owner ≠ some (.fetchBuf slot)) (fits : Fits s n)
    (ht : ClientHeap.allocSticky s grants owner n = some t) : Carried s t := by
  obtain ⟨u, hu, rfl⟩ := Option.map_eq_some_iff.mp ht
  obtain ⟨stop, rfl, grown, room, near, pages⟩ := h.cercoAlloc fits hu
  refine ⟨(h.bump plain fits grown room near pages).floor ?_, rfl⟩
  have block := roundUp_le_allocSize n
  have low : wrap32 (s.heapPtr + roundUp n) ≤ s.heapPtr + roundUp n := Nat.mod_le _ _
  change wrap32 (s.heapPtr + roundUp n) ≤ stop
  omega

theorem Mapped.lazyAlloc {s : HeapSt} (h : Mapped s) {p : Static} {fill : Option HeapSt}
    (filled : ∀ t, fill = some t → Carried s t) : Carried s (lazyAlloc s p fill) := by
  unfold ClientHeap.lazyAlloc
  split
  · exact ⟨h, rfl⟩
  · cases hf : fill with
    | none => exact ⟨h, rfl⟩
    | some t => exact filled t hf

theorem Mapped.fits {s : HeapSt} (h : Mapped s) {n : ℕ} (small : n ≤ 2 ^ 30) : Fits s n := by
  have ptr := h.ptr_le
  have stop := h.stop_le
  have size : allocSize n ≤ n + 16 := by
    unfold allocSize roundUp wrap32
    split <;> omega
  exact ⟨by omega, by omega⟩

theorem Mapped.rewind {s : HeapSt} (h : Mapped s) : Mapped (heapRewind s) := by
  refine ⟨h.base_pos, h.base_le, ?_, ?_, h.floor_le, h.stop_le, h.whole, h.bufs⟩
  · change 0 < rewound s
    have pos := h.base_pos
    unfold rewound
    split <;> omega
  · change rewound s ≤ s.heapEnd
    unfold rewound
    split
    · exact h.base_le
    · exact h.floor_le

theorem heapInit_mapped {heapBase pages : ℕ} (pos : 0 < heapBase) (le : heapBase ≤ pages * page)
    (near : pages * page ≤ 2 ^ 31) : Mapped (heapInit heapBase pages) := by
  have stop : (heapInit heapBase pages).heapEnd = pages * page :=
    Nat.mod_eq_of_lt (near.trans_lt (by decide))
  have aligned : pages * page % 16 = 0 := by
    unfold page
    omega
  refine ⟨pos, by rw [stop]; exact le, ?_, ?_, Nat.zero_le _, by rw [stop]; exact near,
    by rw [stop]; exact Nat.mul_mod_left _ _, fun slot => .inl rfl⟩
  · change 0 < wrap32 (heapBase + 15) / 16 * 16
    unfold wrap32
    omega
  · rw [stop]
    change wrap32 (heapBase + 15) / 16 * 16 ≤ pages * page
    unfold wrap32
    omega

theorem allocates_step {s t : HeapSt} {e : ClientHeap.Event} (h : Mapped s) (own : Allocates s e)
    (hs : heapStep s e = some t) : Carried s t := by
  have cmd : ∀ slot, some Static.cmdBuf ≠ some (.fetchBuf slot) := by intro slot e; cases e
  have scratch : ∀ slot, some Static.scratchBase ≠ some (.fetchBuf slot) := by intro slot e; cases e
  have sf : ∀ slot, some Static.sfBody ≠ some (.fetchBuf slot) := by intro slot e; cases e
  cases e with
  | alloc n grants =>
    simp only [heapStep] at hs
    split at hs
    · obtain rfl := Option.some.inj hs
      cases ha : ClientHeap.cercoAlloc s grants none n with
      | none => exact ⟨h, rfl⟩
      | some u => exact h.alloc (fun slot e => by cases e) own ha
    · cases hs
  | cmdBegin grants =>
    obtain rfl := Option.some.inj hs
    exact h.lazyAlloc fun u hu => h.alloc cmd (h.fits (by decide)) hu
  | scratchAlloc grants =>
    obtain rfl := Option.some.inj hs
    exact h.lazyAlloc fun u hu => h.alloc scratch (h.fits (by decide)) hu
  | scratchBase grants =>
    obtain rfl := Option.some.inj hs
    exact h.lazyAlloc fun u hu => h.allocSticky scratch (h.fits (by decide)) hu
  | sfBegin grants =>
    obtain rfl := Option.some.inj hs
    exact h.lazyAlloc fun u hu => h.allocSticky sf (h.fits (by decide)) hu
  | httpStart => exact own.elim
  | fetchReserve id len grants => exact own.elim
  | fetchDone id => exact own.elim
  | navigate => exact own.elim

theorem Mapped.newBuf {s t : HeapSt} (h : Mapped s) {grants n : ℕ} {slot : Fin 4} (fits : Fits s n)
    (ht : ClientHeap.allocSticky s grants (some (.fetchBuf slot)) n = some t) :
    Carried s { t with fetchCaps := Function.update t.fetchCaps slot n } := by
  obtain ⟨u, hu, rfl⟩ := Option.map_eq_some_iff.mp ht
  obtain ⟨stop, rfl, grown, room, near, pages⟩ := h.cercoAlloc fits hu
  have ptr := @bump_ptr { s with heapEnd := stop } n fits (some (.fetchBuf slot))
  have block := roundUp_le_allocSize n
  have size := le_roundUp fits.1
  refine ⟨⟨h.base_pos, h.base_le.trans grown, ?_, ?_, ?_, near, pages, fun i => ?_⟩, rfl⟩
  · change 0 < (ClientHeap.bump { s with heapEnd := stop } (some (.fetchBuf slot)) n).heapPtr
    rw [ptr]
    exact Nat.add_pos_left h.ptr_pos _
  · change (ClientHeap.bump { s with heapEnd := stop } (some (.fetchBuf slot)) n).heapPtr ≤ stop
    rw [ptr]
    exact room
  · have low : wrap32 (s.heapPtr + roundUp n) ≤ s.heapPtr + roundUp n := Nat.mod_le _ _
    change wrap32 (s.heapPtr + roundUp n) ≤ stop
    omega
  · by_cases same : i = slot
    · subst same
      refine .inr ⟨⟨s.heapPtr, n⟩, Function.update_self _ _ _, h.ptr_pos, ?_⟩
      change s.heapPtr + Function.update s.fetchCaps i n i ≤ stop
      rw [Function.update_self]
      omega
    · have caps : Function.update s.fetchCaps slot n i = s.fetchCaps i := Function.update_of_ne same _ _
      have held : (s.held.give (some (.fetchBuf slot)) ⟨s.heapPtr, n⟩).slots (.fetchBuf i) =
          s.held.slots (.fetchBuf i) :=
        Function.update_of_ne (fun e => same (Static.fetchBuf.inj e)) _ _
      obtain none | ⟨r, hr, pos, inside⟩ := h.bufs i
      · exact .inl (caps.trans none)
      · refine .inr ⟨r, held.trans hr, pos, ?_⟩
        change r.base + Function.update s.fetchCaps slot n i ≤ stop
        rw [caps]
        omega

/-- What a reservation does to the heap: the buffer is large enough exactly if there was room. -/
theorem fetchReserve_room {s : HeapSt} (h : Mapped s) {id n : ℕ} (used : s.used[id]? = some true)
    (small : n ≤ fetchMax) (grants : ℕ) :
    Carried s (fetchReserve s grants id n) ∧
      (n + 1 ≤ (fetchReserve s grants id n).fetchCaps (slotOf id) ↔ hasRoom s grants id n = true) := by
  have bound : fetchMax + 1 ≤ 2 ^ 30 := by decide
  have range : ¬ ((n : Int) < 0 ∨ (fetchMax : Int) < n) := by omega
  unfold fetchReserve hasRoom
  simp only [used, ne_eq, not_true_eq_false, if_false, if_neg range, Int.toNat_natCast,
    Bool.or_eq_true, decide_eq_true_iff]
  by_cases short : s.fetchCaps (slotOf id) < n + 1
  · rw [if_pos short]
    cases ha : allocSticky s grants (some (.fetchBuf (slotOf id))) (n + 1) with
    | none => exact ⟨⟨h, rfl⟩, by simp⟩
    | some t =>
      refine ⟨h.newBuf (h.fits (by omega)) ha, ?_⟩
      simp
  · rw [if_neg short]
    exact ⟨⟨h, rfl⟩, fun enough => .inl enough, fun _ => by omega⟩

theorem fetchBuf_inside {s : HeapSt} (h : Mapped s) {slot : Fin 4} {n : ℕ}
    (enough : n + 1 ≤ s.fetchCaps slot) :
    0 < fetchBuf s slot ∧ fetchBuf s slot + (n + 1) ≤ s.heapEnd := by
  obtain none | ⟨r, hr, pos, inside⟩ := h.bufs slot
  · omega
  · unfold fetchBuf
    rw [hr]
    exact ⟨pos, (Nat.add_le_add_left enough _).trans inside⟩

theorem setResp_setResp (entries : List Entry) (id p q : ℕ) :
    setResp (setResp entries id p) id q = setResp entries id q := by
  apply List.ext_getElem?
  intro i
  unfold setResp
  rw [List.getElem?_modify, List.getElem?_modify, List.getElem?_modify]
  split <;> cases entries[i]? <;> rfl

theorem setResp_self {entries : List Entry} {id : ℕ} {f : Entry} (h : entries[id]? = some f) (p : ℕ) :
    (setResp entries id p)[id]? = some { f with resp := p } := by
  simp [setResp, h]

theorem setResp_other (entries : List Entry) {id i : ℕ} (h : i ≠ id) (p : ℕ) :
    (setResp entries id p)[i]? = entries[i]? := by
  simp [setResp, h.symm]

theorem cercoFetchDone_run {s : FetchSt} {id : ℕ} {f : Entry} (used : s.heap.used[id]? = some true)
    (entry : s.entries[id]? = some f) (h : Handled) (status len : Int) :
    cercoFetchDone s h id status len =
      { s with
        heap := fetchDone s.heap id
        entries := setResp s.entries id 0
        ran := s.ran ++ f.cb.toList.map fun cb => ⟨h, cb, f.user, status,
          if 0 < len ∧ f.resp ≠ 0 then some (s.mem.load f.resp (len.toNat + 1)) else none, len⟩ } := by
  rw [cercoFetchDone, if_neg (not_not.mpr used), entry]

theorem cercoFetchReserve_refused {s : FetchSt} {id : ℕ} {len : Int}
    (big : len < 0 ∨ (fetchMax : Int) < len) (grants : ℕ) :
    cercoFetchReserve s grants id len = (s, 0) := by
  unfold cercoFetchReserve
  rw [if_pos big, ite_self]

theorem cercoFetchReserve_run {s : FetchSt} (hm : Mapped s.heap) {id n : ℕ}
    (used : s.heap.used[id]? = some true) (small : n ≤ fetchMax) (grants : ℕ) :
    if hasRoom s.heap grants id n then
      ∃ heap buf, Carried s.heap heap ∧ 0 < buf ∧ buf + (n + 1) ≤ heap.heapEnd ∧
        cercoFetchReserve s grants id n =
          ({ s with
              heap := heap
              mem := s.mem.set (buf + n) 0
              entries := setResp s.entries id buf }, buf)
    else cercoFetchReserve s grants id n = (s, 0) := by
  obtain ⟨carried, enough⟩ := fetchReserve_room hm used small grants
  have range : ¬ ((n : Int) < 0 ∨ (fetchMax : Int) < n) := by omega
  unfold cercoFetchReserve
  simp only [used, ne_eq, not_true_eq_false, if_false, if_neg range, Int.toNat_natCast]
  split
  · have room := enough.mpr ‹_›
    obtain ⟨pos, inside⟩ := fetchBuf_inside carried.mapped room
    rw [if_neg (by omega)]
    exact ⟨_, _, carried, pos, inside, rfl⟩
  · rw [if_pos]
    by_contra large
    exact absurd (enough.mp (by omega)) ‹_›

theorem load_body (m : Mem) (buf : ℕ) (body : Bytes) :
    ((m.set (buf + body.length) 0).write buf body).load buf (body.length + 1) = body ++ [0] := by
  rw [load_append, load_write, Mem.load, Mem.load, write_outside _ body (.inr (Nat.le_refl _))]
  exact congrArg (fun b => body ++ [b]) (if_pos rfl)

theorem asInt32_wraps {n : ℕ} (big : fetchMax < n)
    (range : ¬ (asInt32 n < 0 ∨ (fetchMax : Int) < asInt32 n)) : 2 ^ 32 ≤ n := by
  unfold asInt32 at range
  unfold fetchMax at *
  split at range <;> omega

/-- `t` is `s` after this answer to the request. -/
def AnsweredBy (s t : FetchSt) (req : Request) (h : Handled) : Prop :=
  ∃ heap mem status data len, Carried s.heap heap ∧
    t = { s with
      heap := fetchDone heap req.id
      mem := mem
      entries := setResp s.entries req.id 0
      ran := s.ran ++ req.cb.toList.map fun cb => ⟨h, cb, req.user, status, data, len⟩ } ∧
    ∀ cb, Whole terminatedUnlessEmpty ⟨h, cb, req.user, status, data, len⟩

theorem answeredBy_nothing {s : FetchSt} (hm : Mapped s.heap) {req : Request}
    (used : s.heap.used[req.id]? = some true)
    (entry : s.entries[req.id]? = some ⟨req.cb, req.user, 0⟩) {h : Handled} {status : Int}
    (nothing : ∀ cb, Whole terminatedUnlessEmpty ⟨h, cb, req.user, status, none, 0⟩) :
    AnsweredBy s (cercoFetchDone s h req.id status 0) req h :=
  ⟨s.heap, s.mem, status, none, 0, ⟨hm, rfl⟩, cercoFetchDone_run used entry h status 0, nothing⟩

theorem answeredBy_buffer {s : FetchSt} {req : Request} {heap : HeapSt} {mem : Mem} {buf : ℕ}
    (used : s.heap.used[req.id]? = some true)
    (entry : s.entries[req.id]? = some ⟨req.cb, req.user, 0⟩) (carried : Carried s.heap heap)
    {h : Handled} {status len : Int}
    (whole : ∀ cb, Whole terminatedUnlessEmpty ⟨h, cb, req.user, status,
      if 0 < len ∧ buf ≠ 0 then some (mem.load buf (len.toNat + 1)) else none, len⟩) :
    AnsweredBy s (cercoFetchDone
      { s with heap := heap, mem := mem, entries := setResp s.entries req.id buf } h req.id status len)
      req h := by
  have used' : heap.used[req.id]? = some true := by rw [carried.used]; exact used
  refine ⟨heap, mem, status, _, len, carried, ?_, whole⟩
  rw [@cercoFetchDone_run
    { s with heap := heap, mem := mem, entries := setResp s.entries req.id buf }
    req.id ⟨req.cb, req.user, buf⟩ used' (setResp_self entry buf)]
  dsimp only
  rw [setResp_setResp]

theorem data_body (m : Mem) {buf : ℕ} (pos : 0 < buf) (body : Bytes) :
    (if 0 < (body.length : Int) ∧ buf ≠ 0 then
      some (((m.set (buf + body.length) 0).write buf body).load buf ((body.length : Int).toNat + 1))
      else none) = terminatedUnlessEmpty body := by
  rw [Int.toNat_natCast, load_body]
  unfold terminatedUnlessEmpty
  cases body with
  | nil => rfl
  | cons b bs =>
    rw [if_pos, if_neg (List.cons_ne_nil b bs)]
    exact ⟨by rw [List.length_cons]; omega, by omega⟩

theorem whole_delivered {data : Bytes → Option Bytes} {body : Bytes} {room : Bool}
    (fits : body.length ≤ fetchMax ∧ room = true) (num cb user : ℕ) (status : Int) :
    Whole data ⟨⟨num, .answer status body, room⟩, cb, user, status, data body, body.length⟩ := by
  unfold Whole
  dsimp only
  rw [if_pos fits]
  exact ⟨rfl, rfl, rfl⟩

theorem whole_nothing {data : Bytes → Option Bytes} {body : Bytes} {room : Bool}
    (unfit : ¬ (body.length ≤ fetchMax ∧ room = true)) {num cb user : ℕ} {answered status : Int}
    (st : status = 0 ∨ status = -1) :
    Whole data ⟨⟨num, .answer answered body, room⟩, cb, user, status, none, 0⟩ := by
  unfold Whole
  dsimp only
  rw [if_neg unfit]
  exact ⟨st, rfl, rfl⟩

theorem respond_small {s : FetchSt} (hm : Mapped s.heap) {req : Request}
    (used : s.heap.used[req.id]? = some true) (entry : s.entries[req.id]? = some ⟨req.cb, req.user, 0⟩)
    (status : Int) {body : Bytes} (small : body.length ≤ fetchMax) (grants : ℕ) :
    AnsweredBy s (respond s req (.answer status body) grants) req
      ⟨req.num, .answer status body, roomFor s.heap grants req.id (.answer status body)⟩ := by
  have len : asInt32 body.length = body.length :=
    Cerco.ClientReply.asInt32_small (lt_of_le_of_lt small (by decide))
  have reserve := cercoFetchReserve_run hm used small grants
  unfold respond
  simp only [len, Int.toNat_natCast]
  by_cases room : hasRoom s.heap grants req.id body.length = true
  · rw [if_pos room] at reserve
    obtain ⟨heap, buf, carried, pos, inside, e⟩ := reserve
    have mapped : ¬ (heap.heapEnd < buf + (body.length + 1) ∨ heap.heapEnd < buf + body.length) := by
      omega
    rw [e]
    dsimp only
    rw [if_neg (Nat.pos_iff_ne_zero.mp pos), if_neg mapped]
    refine answeredBy_buffer used entry carried fun cb => ?_
    rw [data_body _ pos]
    exact whole_delivered ⟨small, room⟩ req.num cb req.user status
  · rw [if_neg room] at reserve
    rw [reserve]
    dsimp only
    rw [if_pos rfl]
    exact answeredBy_nothing hm used entry fun cb => whole_nothing (fun fits => room fits.2) (.inr rfl)

/-- A length over the limit is refused, or the copy fails because its length has wrapped. -/
theorem respond_big {s : FetchSt} (hm : Mapped s.heap) {req : Request}
    (used : s.heap.used[req.id]? = some true) (entry : s.entries[req.id]? = some ⟨req.cb, req.user, 0⟩)
    (status : Int) {body : Bytes} (big : fetchMax < body.length) (grants : ℕ) :
    AnsweredBy s (respond s req (.answer status body) grants) req
      ⟨req.num, .answer status body, roomFor s.heap grants req.id (.answer status body)⟩ := by
  unfold respond
  dsimp only
  have unfit : ∀ room : Bool, ¬ (body.length ≤ fetchMax ∧ room = true) :=
    fun _ fits => absurd fits.1 (Nat.not_le_of_lt big)
  by_cases range : asInt32 body.length < 0 ∨ (fetchMax : Int) < asInt32 body.length
  · rw [cercoFetchReserve_refused range]
    dsimp only
    rw [if_pos rfl]
    exact answeredBy_nothing hm used entry fun cb => whole_nothing (unfit _) (.inr rfl)
  · have wrapped := asInt32_wraps big range
    obtain ⟨n, hn⟩ := Int.eq_ofNat_of_zero_le (show 0 ≤ asInt32 body.length by omega)
    have reserve := cercoFetchReserve_run hm used (show n ≤ fetchMax by omega) grants
    rw [hn]
    by_cases room : hasRoom s.heap grants req.id n = true
    · rw [if_pos room] at reserve
      obtain ⟨heap, buf, carried, pos, inside, e⟩ := reserve
      have stop := carried.mapped.stop_le
      rw [e]
      dsimp only
      rw [if_neg (Nat.pos_iff_ne_zero.mp pos), if_pos (.inr (by omega))]
      exact answeredBy_buffer used entry carried fun cb => whole_nothing (unfit _) (.inl rfl)
    · rw [if_neg room] at reserve
      rw [reserve]
      dsimp only
      rw [if_pos rfl]
      exact answeredBy_nothing hm used entry fun cb => whole_nothing (unfit _) (.inr rfl)

theorem respond_run {s : FetchSt} (hm : Mapped s.heap) {req : Request}
    (used : s.heap.used[req.id]? = some true) (entry : s.entries[req.id]? = some ⟨req.cb, req.user, 0⟩)
    (reply : Reply) (grants : ℕ) :
    AnsweredBy s (respond s req reply grants) req ⟨req.num, reply, roomFor s.heap grants req.id reply⟩ := by
  cases reply with
  | failed => exact answeredBy_nothing hm used entry fun cb => ⟨rfl, rfl, rfl⟩
  | answer status body =>
    by_cases small : body.length ≤ fetchMax
    · exact respond_small hm used entry status small grants
    · exact respond_big hm used entry status (Nat.lt_of_not_le small) grants

/-- A used entry belongs to one request in flight, which has no buffer yet. Requests have
their own numbers, and callbacks ran for requests that are over. -/
structure FetchInv (s : FetchSt) : Prop where
  mapped : Mapped s.heap
  size : s.entries.length = s.heap.used.length
  used : ∀ id, s.heap.used[id]? = some true ↔ ∃ r ∈ s.inflight, r.id = id
  entry : ∀ r ∈ s.inflight, s.entries[r.id]? = some ⟨r.cb, r.user, 0⟩
  ids : ∀ r ∈ s.inflight, ∀ k ∈ s.inflight, r.id = k.id → r = k
  known : ∀ r ∈ s.inflight, r ∈ s.accepted
  nums : ∀ r ∈ s.accepted, ∀ k ∈ s.accepted, r.num = k.num → r = k
  fresh : ∀ r ∈ s.accepted, r.num < s.accepted.length
  past : ∀ c ∈ s.ran, c.handled.num < s.accepted.length
  waiting : ∀ r ∈ s.inflight, s.calls r.num = []
  answered : ∀ r ∈ s.accepted, r ∉ s.inflight → Answered terminatedUnlessEmpty s r

theorem answered_congr {data : Bytes → Option Bytes} {s t : FetchSt} {r : Request}
    (same : t.calls r.num = s.calls r.num) (h : Answered data s r) : Answered data t r := by
  unfold Answered at *
  rw [same]
  exact h

theorem FetchInv.carry {s : FetchSt} (h : FetchInv s) {heap : HeapSt} (carried : Carried s.heap heap)
    (mem : Mem) : FetchInv { s with heap := heap, mem := mem } :=
  ⟨carried.mapped, h.size.trans (congrArg List.length carried.used.symm),
    fun id => (iff_of_eq (congrArg (fun used => used[id]? = some true) carried.used)).trans (h.used id),
    h.entry, h.ids, h.known, h.nums, h.fresh, h.past, h.waiting, h.answered⟩

theorem set_true_iff {used : List Bool} {id : ℕ} (bound : id < used.length) (i : ℕ) :
    (used.set id true)[i]? = some true ↔ i = id ∨ used[i]? = some true := by
  by_cases same : i = id
  · subst same
    exact ⟨fun _ => .inl rfl, fun _ => List.getElem?_set_self bound⟩
  · rw [List.getElem?_set_ne (Ne.symm same)]
    exact ⟨.inr, fun h => h.resolve_left same⟩

theorem set_false_iff (used : List Bool) (id i : ℕ) :
    (used.set id false)[i]? = some true ↔ i ≠ id ∧ used[i]? = some true := by
  by_cases same : i = id
  · subst same
    refine ⟨fun h => ?_, fun h => absurd rfl h.1⟩
    have bound : i < (used.set i false).length := (List.getElem?_eq_some_iff.mp h).1
    rw [List.length_set] at bound
    rw [List.getElem?_set_self bound] at h
    cases h
  · rw [List.getElem?_set_ne (Ne.symm same)]
    exact ⟨fun h => ⟨same, h⟩, And.right⟩

def nextRequest (s : FetchSt) (id : ℕ) (cb : Option ℕ) (user : ℕ) : Request :=
  ⟨s.accepted.length, id, cb, user⟩

theorem cercoHttp_cases (s : FetchSt) (cb : Option ℕ) (user : ℕ) :
    cercoHttp s cb user = s ∨ ∃ id, s.heap.used[id]? = some false ∧ cercoHttp s cb user =
      { s with
        heap := { s.heap with used := s.heap.used.set id true }
        entries := s.entries.set id ⟨cb, user, 0⟩
        inflight := s.inflight ++ [nextRequest s id cb user]
        accepted := s.accepted ++ [nextRequest s id cb user] } := by
  unfold cercoHttp httpStart
  cases hf : s.heap.used.findIdx? (· == false) with
  | none => exact .inl rfl
  | some id =>
    obtain ⟨bound, free, _⟩ := List.findIdx?_eq_some_iff_getElem.mp hf
    refine .inr ⟨id, ?_, rfl⟩
    rw [List.getElem?_eq_getElem bound, eq_of_beq free]

theorem mem_snoc {α : Type} {l : List α} {a b : α} : a ∈ l ++ [b] ↔ a ∈ l ∨ a = b := by
  rw [List.mem_append, List.mem_singleton]

theorem FetchInv.request {s : FetchSt} (h : FetchInv s) {id : ℕ} (free : s.heap.used[id]? = some false)
    (cb : Option ℕ) (user : ℕ) : FetchInv { s with
      heap := { s.heap with used := s.heap.used.set id true }
      entries := s.entries.set id ⟨cb, user, 0⟩
      inflight := s.inflight ++ [nextRequest s id cb user]
      accepted := s.accepted ++ [nextRequest s id cb user] } := by
  have m := h.mapped
  have bound : id < s.heap.used.length := (List.getElem?_eq_some_iff.mp free).1
  have other : ∀ r ∈ s.inflight, r.id ≠ id := by
    intro r hr same
    have used := (h.used id).mpr ⟨r, hr, same⟩
    rw [free] at used
    cases used
  have later : ∀ r ∈ s.accepted, r.num ≠ s.accepted.length := fun r hr => Nat.ne_of_lt (h.fresh r hr)
  have unasked : s.calls s.accepted.length = [] := by
    refine List.filter_eq_nil_iff.mpr fun c hc => ?_
    have before := h.past c hc
    simpa using Nat.ne_of_lt before
  refine ⟨⟨m.base_pos, m.base_le, m.ptr_pos, m.ptr_le, m.floor_le, m.stop_le, m.whole, m.bufs⟩,
    ?_, fun i => ?_, fun r hr => ?_, fun r hr k hk same => ?_, fun r hr => ?_, fun r hr k hk same => ?_,
    fun r hr => ?_, fun c hc => ?_, fun r hr => ?_, fun r hr out => ?_⟩
  · change (s.entries.set id _).length = (s.heap.used.set id true).length
    rw [List.length_set, List.length_set, h.size]
  · change (s.heap.used.set id true)[i]? = some true ↔ _
    rw [set_true_iff bound, h.used]
    constructor
    · rintro (rfl | ⟨r, hr, e⟩)
      · exact ⟨_, mem_snoc.mpr (.inr rfl), rfl⟩
      · exact ⟨r, mem_snoc.mpr (.inl hr), e⟩
    · rintro ⟨r, hr, e⟩
      rcases mem_snoc.mp hr with hr | rfl
      · exact .inr ⟨r, hr, e⟩
      · exact .inl e.symm
  · change (s.entries.set id _)[r.id]? = _
    rcases mem_snoc.mp hr with hr | rfl
    · rw [List.getElem?_set_ne (Ne.symm (other r hr))]
      exact h.entry r hr
    · exact List.getElem?_set_self (by rw [h.size]; exact bound)
  · rcases mem_snoc.mp hr with hr | rfl <;> rcases mem_snoc.mp hk with hk | rfl
    · exact h.ids r hr k hk same
    · exact absurd same (other r hr)
    · exact absurd same.symm (other k hk)
    · rfl
  · exact mem_snoc.mpr ((mem_snoc.mp hr).imp_left (h.known r))
  · rcases mem_snoc.mp hr with hr | rfl <;> rcases mem_snoc.mp hk with hk | rfl
    · exact h.nums r hr k hk same
    · exact absurd same (later r hr)
    · exact absurd same.symm (later k hk)
    · rfl
  · change r.num < (s.accepted ++ [nextRequest s id cb user]).length
    rw [List.length_append, List.length_singleton]
    rcases mem_snoc.mp hr with hr | rfl
    · exact Nat.lt_succ_of_lt (h.fresh r hr)
    · exact Nat.lt_succ_self _
  · change c.handled.num < (s.accepted ++ [nextRequest s id cb user]).length
    rw [List.length_append, List.length_singleton]
    exact Nat.lt_succ_of_lt (h.past c hc)
  · rcases mem_snoc.mp hr with hr | rfl
    · exact h.waiting r hr
    · exact unasked
  · rcases mem_snoc.mp hr with hr | rfl
    · exact h.answered r hr fun hin => out (mem_snoc.mpr (.inl hin))
    · exact absurd (mem_snoc.mpr (.inr rfl)) out

def landed (s : FetchSt) (req : Request) : FetchSt :=
  { s with inflight := s.inflight.filter fun r => r.num != req.num }

theorem mem_landed {s : FetchSt} {req r : Request} :
    r ∈ (landed s req).inflight ↔ r ∈ s.inflight ∧ r.num ≠ req.num := by
  unfold landed
  simp

theorem filter_calls (ran : List Ran) (cb : Option ℕ) (call : ℕ → Ran) (h : Handled)
    (same : ∀ f, (call f).handled = h) (num : ℕ) :
    (ran ++ cb.toList.map call).filter (fun c => c.handled.num == num) =
      ran.filter (fun c => c.handled.num == num) ++ if h.num = num then cb.toList.map call else [] := by
  rw [List.filter_append]
  congr 1
  cases cb with
  | none => simp
  | some f =>
    simp only [Option.toList_some, List.map_cons, List.map_nil, List.filter_cons, same, beq_iff_eq,
      List.filter_nil]

theorem FetchInv.answer {s : FetchSt} (h : FetchInv s) {req : Request} (hin : req ∈ s.inflight)
    {t : FetchSt} {handled : Handled} (num : handled.num = req.num)
    (ht : AnsweredBy (landed s req) t req handled) : FetchInv t := by
  obtain ⟨heap, mem, status, data, len, carried, rfl, whole⟩ := ht
  have m := carried.mapped
  have used : heap.used = s.heap.used := carried.used
  have away : ∀ r ∈ s.inflight, r.num ≠ req.num → r.id ≠ req.id := fun r hr ne same =>
    ne (congrArg Request.num (h.ids r hr req hin same))
  refine ⟨⟨m.base_pos, m.base_le, m.ptr_pos, m.ptr_le, m.floor_le, m.stop_le, m.whole, m.bufs⟩,
    ?_, fun i => ?_, fun r hr => ?_, fun r hr k hk same => ?_, fun r hr => ?_, h.nums, h.fresh,
    fun c hc => ?_, fun r hr => ?_, fun r hr out => ?_⟩
  · change (setResp s.entries req.id 0).length = (heap.used.set req.id false).length
    rw [setResp, List.length_modify, List.length_set, used, h.size]
  · change (heap.used.set req.id false)[i]? = some true ↔ ∃ r ∈ (landed s req).inflight, r.id = i
    rw [used, set_false_iff, h.used]
    constructor
    · rintro ⟨ne, r, hr, e⟩
      refine ⟨r, mem_landed.mpr ⟨hr, fun same => ne ?_⟩, e⟩
      rw [← e, h.nums r (h.known r hr) req (h.known req hin) same]
    · rintro ⟨r, hr, e⟩
      obtain ⟨hr, ne⟩ := mem_landed.mp hr
      exact ⟨fun same => away r hr ne (e.trans same), r, hr, e⟩
  · obtain ⟨hr, ne⟩ := mem_landed.mp hr
    exact (setResp_other s.entries (away r hr ne) 0).trans (h.entry r hr)
  · exact h.ids r (mem_landed.mp hr).1 k (mem_landed.mp hk).1 same
  · exact h.known r (mem_landed.mp hr).1
  · obtain hc | hc := List.mem_append.mp hc
    · exact h.past c hc
    · obtain ⟨cb, _, rfl⟩ := List.mem_map.mp hc
      change handled.num < s.accepted.length
      rw [num]
      exact h.fresh req (h.known req hin)
  · obtain ⟨hr, ne⟩ := mem_landed.mp hr
    refine (filter_calls s.ran req.cb _ handled (fun _ => rfl) r.num).trans ?_
    rw [if_neg (by rw [num]; exact ne.symm), List.append_nil]
    exact h.waiting r hr
  · have calls := filter_calls s.ran req.cb
      (fun cb => ⟨handled, cb, req.user, status, data, len⟩) handled (fun _ => rfl) r.num
    by_cases same : r.num = req.num
    · obtain rfl := h.nums r hr req (h.known req hin) same
      rw [if_pos num, show s.ran.filter (fun c => c.handled.num == r.num) = [] from h.waiting r hin,
        List.nil_append] at calls
      unfold Answered
      cases hcb : r.cb with
      | none =>
        rw [hcb] at calls
        exact calls
      | some cb =>
        rw [hcb] at calls
        exact ⟨_, calls, rfl, rfl, whole cb⟩
    · rw [if_neg (by rw [num]; exact Ne.symm same), List.append_nil] at calls
      exact answered_congr calls (h.answered r hr fun hin => out (mem_landed.mpr ⟨hin, same⟩))

theorem fetchStep_inv {s t : FetchSt} {e : Event} (h : FetchInv s) (hs : fetchStep s e = some t) :
    FetchInv t := by
  cases e with
  | heap e =>
    simp only [fetchStep] at hs
    split at hs
    · obtain ⟨heap, hheap, rfl⟩ := Option.map_eq_some_iff.mp hs
      exact h.carry (allocates_step h.mapped ‹_› hheap) s.mem
    · cases hs
  | rewind =>
    obtain rfl := Option.some.inj hs
    exact h.carry ⟨h.mapped.rewind, rfl⟩ s.mem
  | store a b =>
    obtain rfl := Option.some.inj hs
    exact h.carry ⟨h.mapped, rfl⟩ _
  | request cb user =>
    obtain rfl := Option.some.inj hs
    obtain e | ⟨id, free, e⟩ := cercoHttp_cases s cb user
    · rw [e]
      exact h
    · rw [e]
      exact h.request free cb user
  | respond num reply grants =>
    obtain ⟨req, found, rfl⟩ := Option.map_eq_some_iff.mp hs
    have hin : req ∈ s.inflight := List.mem_of_find?_eq_some found
    obtain rfl : req.num = num := by simpa using List.find?_some found
    exact h.answer hin rfl (@respond_run (landed s req) h.mapped req ((h.used req.id).mpr ⟨req, hin, rfl⟩)
      (h.entry req hin) reply grants)

theorem bootFetch_inv {heapBase pages : ℕ} (pos : 0 < heapBase) (le : heapBase ≤ pages * page)
    (near : pages * page ≤ 2 ^ 31) (mem : Mem) : FetchInv (bootFetch heapBase pages mem) := by
  refine ⟨heapInit_mapped pos le near, rfl, fun id => ⟨fun h => ?_, ?_⟩, ?_, ?_, ?_, ?_, ?_, ?_, ?_, ?_⟩
  · have flag : true ∈ List.replicate maxPendingFetches false := List.mem_of_getElem? h
    cases List.eq_of_mem_replicate flag
  · rintro ⟨r, hr, _⟩
    cases hr
  all_goals
    intro r hr
    cases hr

theorem respond_ends {s : FetchSt} {r : Request} (hr : r ∈ s.inflight) (reply : Reply) (grants : ℕ)
    (inv : FetchInv s) : ∃ t, fetchStep s (.respond r.num reply grants) = some t ∧ r ∉ t.inflight := by
  have found : s.inflight.find? (fun k => k.num == r.num) = some r := by
    cases hf : s.inflight.find? (fun k => k.num == r.num) with
    | none =>
      have none := List.find?_eq_none.mp hf r hr
      simp at none
    | some k =>
      have hk := List.mem_of_find?_eq_some hf
      have same : k.num = r.num := by simpa using List.find?_some hf
      rw [inv.nums k (inv.known k hk) r (inv.known r hr) same]
  obtain ⟨heap, mem, status, data, len, _, e, _⟩ := @respond_run (landed s r) inv.mapped r
    ((inv.used r.id).mpr ⟨r, hr, rfl⟩) (inv.entry r hr) reply grants
  refine ⟨_, by rw [fetchStep, found]; rfl, ?_⟩
  change r ∉ (respond (landed s r) r reply grants).inflight
  rw [e]
  exact fun still => (mem_landed.mp still).2 rfl

theorem reach_inv {s : FetchSt} (h : Reach fetchSystem anyStep s) : FetchInv s :=
  h.invariant (I := FetchInv)
    (by
      rintro _ ⟨heapBase, pages, mem, pos, le, near, rfl⟩
      exact bootFetch_inv pos le near mem)
    fun _ _ _ hi _ hs => fetchStep_inv hi hs

/-- Whatever the order of requests and answers, a callback runs once, with the whole body or
with nothing; an empty body has no pointer. -/
theorem fetch_delivered_unless_empty {s : FetchSt} (h : Reach fetchSystem anyStep s) :
    Delivery terminatedUnlessEmpty s := by
  have inv := reach_inv h
  exact ⟨inv.used, fun r hr => ⟨inv.known r hr, inv.waiting r hr⟩,
    fun r hr reply grants => respond_ends hr reply grants inv, inv.answered⟩

/-- No empty body that fits is answered to a request with a callback. -/
def filled (s : FetchSt) : Event → Prop
  | .respond num (.answer _ body) grants => ∀ req ∈ s.inflight, req.num = num → body = [] →
      req.cb = none ∨ hasRoom s.heap grants req.id 0 = false
  | _ => True

instance (s : FetchSt) : (e : Event) → Decidable (filled s e)
  | .respond _ (.answer _ _) _ => inferInstanceAs (Decidable (∀ _ ∈ _, _))
  | .respond _ .failed _ => .isTrue trivial
  | .heap _ => .isTrue trivial
  | .rewind => .isTrue trivial
  | .store _ _ => .isTrue trivial
  | .request _ _ => .isTrue trivial

def NoneEmpty (s : FetchSt) : Prop :=
  ∀ c ∈ s.ran, ∀ status, c.handled.reply = .answer status [] → c.handled.room = false

theorem NoneEmpty.step {s t : FetchSt} {e : Event} (inv : FetchInv s) (h : NoneEmpty s) (ok : filled s e)
    (hs : fetchStep s e = some t) : NoneEmpty t := by
  cases e with
  | heap e =>
    simp only [fetchStep] at hs
    split at hs
    · obtain ⟨heap, _, rfl⟩ := Option.map_eq_some_iff.mp hs
      exact h
    · cases hs
  | rewind =>
    obtain rfl := Option.some.inj hs
    exact h
  | store a b =>
    obtain rfl := Option.some.inj hs
    exact h
  | request cb user =>
    obtain rfl := Option.some.inj hs
    obtain e | ⟨id, _, e⟩ := cercoHttp_cases s cb user <;> rw [e] <;> exact h
  | respond num reply grants =>
    obtain ⟨req, found, rfl⟩ := Option.map_eq_some_iff.mp hs
    have hin : req ∈ s.inflight := List.mem_of_find?_eq_some found
    obtain rfl : req.num = num := by simpa using List.find?_some found
    obtain ⟨heap, mem, status, data, len, _, e, _⟩ := @respond_run (landed s req) inv.mapped req
      ((inv.used req.id).mpr ⟨req, hin, rfl⟩) (inv.entry req hin) reply grants
    change NoneEmpty (respond (landed s req) req reply grants)
    rw [e]
    intro c hc
    obtain old | new := List.mem_append.mp hc
    · exact h c old
    · obtain ⟨cb, hcb, rfl⟩ := List.mem_map.mp new
      rintro st (rfl : reply = _)
      obtain none_ | room := ok req hin rfl rfl
      · rw [none_] at hcb
        cases hcb
      · exact room

theorem Whole.filled {c : Ran} (h : Whole terminatedUnlessEmpty c)
    (notEmpty : ∀ status, c.handled.reply = .answer status [] → c.handled.room = false) : Whole terminated c := by
  unfold Whole at *
  cases hr : c.handled.reply with
  | failed =>
    rw [hr] at h
    exact h
  | answer status body =>
    rw [hr] at h
    dsimp only at h ⊢
    split
    · rename_i fits
      rw [if_pos fits] at h
      refine ⟨h.1, h.2.1.trans (if_neg ?_), h.2.2⟩
      rintro rfl
      rw [notEmpty status hr] at fits
      cases fits.2
    · rename_i large
      rwa [if_neg large] at h

/-- Where no empty body is answered, a callback runs once, with the whole body and a NUL or with nothing. -/
theorem fetch_delivered_whole {s : FetchSt} (h : Reach fetchSystem filled s) : Delivery terminated s := by
  have any : Reach fetchSystem anyStep s := h.mono fun _ _ _ => trivial
  have base := fetch_delivered_unless_empty any
  have none_ : NoneEmpty s := h.invariant_with (fun _ hr => reach_inv (hr.mono fun _ _ _ => trivial))
    (by
      rintro _ ⟨heapBase, pages, mem, _, _, _, rfl⟩ c hc
      cases hc)
    fun _ _ _ inv hi ok hs => hi.step inv ok hs
  refine ⟨base.used, base.pending, base.ends, fun r hr ran => ?_⟩
  have answered := base.answered r hr ran
  unfold Answered at *
  cases hcb : r.cb with
  | none =>
    rw [hcb] at answered
    exact answered
  | some cb =>
    rw [hcb] at answered
    obtain ⟨c, calls, own, user, whole⟩ := answered
    refine ⟨c, calls, own, user, whole.filled (none_ c ?_)⟩
    have mem : c ∈ s.calls r.num := by
      rw [calls]
      exact List.mem_singleton_self c
    exact (List.mem_filter.mp mem).1

/-- The fifth request and the first share a buffer, and page code writes into it in between. -/
def sharedRun : List Event :=
  [.request (some 1) 7, .request (some 2) 0, .request none 0, .request (some 4) 0, .request (some 5) 9,
    .respond 4 (.answer 200 [65, 66, 67]) 0, .store 66560 90, .respond 0 (.answer 404 [68]) 0, .rewind,
    .respond 1 .failed 0]

theorem fetch_delivered_whole_shared :
    ((execWhile fetchSystem filled (bootFetch 66560 2 fun _ => 0) sharedRun).map fun s => (s.ran.map Ran.data)) =
      some [some [65, 66, 67, 0], some [68, 0], none] ∧
    ∀ s, execWhile fetchSystem filled (bootFetch 66560 2 fun _ => 0) sharedRun = some s → Delivery terminated s :=
  ⟨by decide +kernel, fun _ hs => fetch_delivered_whole
    (execWhile_reach sharedRun (.start ⟨66560, 2, _, by decide, by decide, by decide, rfl⟩) hs)⟩

/-- An empty answer comes without a terminator. -/
theorem empty_body_dropped :
    ¬ ∀ s, Reach fetchSystem anyStep s → Delivery terminated s := by
  intro all
  have run : (exec fetchSystem (bootFetch 66560 2 fun _ => 0)
      [.request (some 1) 0, .respond 0 (.answer 200 []) 0]).map
        (fun s => (s.accepted, s.inflight, s.calls 0)) =
      some ([⟨0, 0, some 1, 0⟩], [], [⟨⟨0, .answer 200 [], true⟩, 1, 0, 200, none, 0⟩]) := by
    decide +kernel
  obtain ⟨s, hs, e⟩ := Option.map_eq_some_iff.mp run
  injection e with accepted rest
  injection rest with inflight calls
  have reach : Reach fetchSystem anyStep s := exec_reach _
    (.start ⟨66560, 2, _, by decide, by decide, by decide, rfl⟩) (fun _ _ _ => trivial) hs
  obtain ⟨c, one, _, _, whole⟩ := (all s reach).answered ⟨0, 0, some 1, 0⟩ (by rw [accepted]; simp)
    (by rw [inflight]; simp)
  rw [calls] at one
  obtain rfl := (List.cons.inj one).1
  have data := whole.2.1
  cases data

end Cerco.FetchBodies
