import Cerco.BumpRegions
import Cerco.ClientReply
import Cerco.DomStream
import Cerco.TransitionRuns

set_option autoImplicit false

/-!
# The heap of the wasm client

One bump pointer serves page code and the runtime's own buffers. A navigation
rewinds it to the sticky floor, the end of the last sticky allocation, while the
static pointers keep their values. Addresses are 32 bits wide. `held` is history:
what each static pointer holds and which blocks were handed out since the last
rewind. Offsets within the scratch region and the contents of memory are left out.
-/
namespace Cerco.ClientHeap
open Cerco.BumpRegions Cerco.TransitionRuns
open Cerco.DomStream (cmdBufSize)
open Cerco.ClientReply (scratchSize)
open Cerco.ServerFunctions (sfBodyMax)

def page : ℕ := 65536
def maxHeapPages : ℕ := 64
def maxPendingFetches : ℕ := 32
def fetchSlots : ℕ := 4
def fetchMax : ℕ := 512 * 1024
def wrap32 (n : ℕ) : ℕ := n % 2 ^ 32

/-- `(n + 15u) & ~(size_t)15u` -/
def roundUp (n : ℕ) : ℕ := wrap32 (n + 15) / 16 * 16

/-- What `cerco_alloc(n)` moves the pointer by. -/
def allocSize (n : ℕ) : ℕ := if roundUp n = 0 then 16 else roundUp n

/-- The runtime's static pointers into the heap. -/
inductive Static
  | cmdBuf
  | scratchBase
  | sfBody
  | fetchBuf (slot : Fin 4)
deriving DecidableEq

structure HeapSt where
  heapBase : ℕ
  heapPtr : ℕ
  heapEnd : ℕ
  stickyFloor : ℕ
  fetchCaps : Fin 4 → ℕ
  used : List Bool
  held : Held Static

/-- `cerco_heap_init` in a fresh instance with this many pages. -/
def heapInit (heapBase pages : ℕ) : HeapSt :=
  { heapBase := heapBase
    heapPtr := wrap32 (heapBase + 15) / 16 * 16
    heapEnd := wrap32 (pages * page)
    stickyFloor := 0
    fetchCaps := fun _ => 0
    used := List.replicate maxPendingFetches false
    held := Held.empty }

/-- The loop of `heap_grow`; `grants` is how often `memory.grow` succeeds. -/
def growLoop (target : ℕ) : ℕ → ℕ → Option ℕ
  | 0, pagesEnd => if pagesEnd < target then none else some pagesEnd
  | grants + 1, pagesEnd =>
    if pagesEnd < target then growLoop target grants (pagesEnd + page) else some pagesEnd

def heapGrow (s : HeapSt) (grants need : ℕ) : Option ℕ :=
  let target := wrap32 (s.heapPtr + need)
  if maxHeapPages * page < target then none
  else growLoop target grants (wrap32 (s.heapEnd + page - 1) / page * page)

def bump (s : HeapSt) (owner : Option Static) (n : ℕ) : HeapSt :=
  { s with
    heapPtr := wrap32 (s.heapPtr + allocSize n)
    held := s.held.give owner ⟨s.heapPtr, n⟩ }

/-- `cerco_alloc`; `none` is its null pointer. -/
def cercoAlloc (s : HeapSt) (grants : ℕ) (owner : Option Static) (n : ℕ) : Option HeapSt :=
  if s.heapEnd < wrap32 (s.heapPtr + allocSize n) then
    (heapGrow s grants (allocSize n)).map fun stop => bump { s with heapEnd := stop } owner n
  else some (bump s owner n)

def allocSticky (s : HeapSt) (grants : ℕ) (owner : Option Static) (n : ℕ) : Option HeapSt :=
  (cercoAlloc s grants owner n).map fun t => { t with stickyFloor := wrap32 (s.heapPtr + roundUp n) }

def lazyAlloc (s : HeapSt) (p : Static) (fill : Option HeapSt) : HeapSt :=
  match s.held.slots p with
  | some _ => s
  | none => fill.getD s

def cmdBegin (s : HeapSt) (grants : ℕ) : HeapSt :=
  lazyAlloc s .cmdBuf (cercoAlloc s grants (some .cmdBuf) cmdBufSize)

/-- `cerco_scratch_alloc` as far as the heap goes. -/
def scratchAlloc (s : HeapSt) (grants : ℕ) : HeapSt :=
  lazyAlloc s .scratchBase (cercoAlloc s grants (some .scratchBase) scratchSize)

/-- `cerco_scratch` and `cerco_scratch_base` -/
def scratchBase (s : HeapSt) (grants : ℕ) : HeapSt :=
  lazyAlloc s .scratchBase (allocSticky s grants (some .scratchBase) scratchSize)

def sfBegin (s : HeapSt) (grants : ℕ) : HeapSt :=
  lazyAlloc s .sfBody (allocSticky s grants (some .sfBody) sfBodyMax)

/-- `fetch_reserve`: the entry that a new request takes. -/
def httpStart (s : HeapSt) : HeapSt :=
  match s.used.findIdx? (· == false) with
  | none => s
  | some id => { s with used := s.used.set id true }

def slotOf (id : ℕ) : Fin 4 := ⟨id % fetchSlots, Nat.mod_lt id (by decide)⟩

def fetchReserve (s : HeapSt) (grants id : ℕ) (len : Int) : HeapSt :=
  if s.used[id]? ≠ some true then s
  else if len < 0 ∨ (fetchMax : Int) < len then s
  else
    let need := len.toNat + 1
    if s.fetchCaps (slotOf id) < need then
      match allocSticky s grants (some (.fetchBuf (slotOf id))) need with
      | none => s
      | some t => { t with fetchCaps := Function.update t.fetchCaps (slotOf id) need }
    else s

def fetchDone (s : HeapSt) (id : ℕ) : HeapSt := { s with used := s.used.set id false }

/-- Where `cerco_heap_rewind` puts the pointer. -/
def rewound (s : HeapSt) : ℕ := if s.stickyFloor = 0 then s.heapBase else s.stickyFloor

def heapRewind (s : HeapSt) : HeapSt := { s with heapPtr := rewound s, held := s.held.forget }

/-- `cerco_navigate`; the copy of its path is a `scratchAlloc` of its own. -/
def cercoNavigate (s : HeapSt) : HeapSt := httpStart (heapRewind s)

/-- `alloc` is any call of `cerco_alloc`: page code, signals, bindings and `cerco_strdup`. -/
inductive Event
  | alloc (n grants : ℕ)
  | cmdBegin (grants : ℕ)
  | scratchAlloc (grants : ℕ)
  | scratchBase (grants : ℕ)
  | sfBegin (grants : ℕ)
  | httpStart
  | fetchReserve (id : ℕ) (len : Int) (grants : ℕ)
  | fetchDone (id : ℕ)
  | navigate
deriving DecidableEq

def heapStep (s : HeapSt) : Event → Option HeapSt
  | .alloc n grants => if n < 2 ^ 32 then some ((cercoAlloc s grants none n).getD s) else none
  | .cmdBegin grants => some (cmdBegin s grants)
  | .scratchAlloc grants => some (scratchAlloc s grants)
  | .scratchBase grants => some (scratchBase s grants)
  | .sfBegin grants => some (sfBegin s grants)
  | .httpStart => some (httpStart s)
  | .fetchReserve id len grants => some (fetchReserve s grants id len)
  | .fetchDone id => some (fetchDone s id)
  | .navigate => some (cercoNavigate s)

def heapSystem : System HeapSt Event where
  start s := ∃ heapBase pages, s = heapInit heapBase pages
  step := heapStep

/-- The request fits 32-bit arithmetic at this pointer. -/
def Fits (s : HeapSt) (n : ℕ) : Prop := n + 15 < 2 ^ 32 ∧ s.heapPtr + allocSize n < 2 ^ 32

/-- The region of this static pointer, if it has one, lies below the pointer of a rewind. -/
def Sheltered (s : HeapSt) (p : Static) : Prop := ∀ r, s.held.slots p = some r → r.stop ≤ rewound s

/-- `cerco_fetch_reserve` has to allocate. -/
def Outgrows (s : HeapSt) (id : ℕ) (len : Int) : Prop :=
  s.used[id]? = some true ∧ ¬ (len < 0 ∨ (fetchMax : Int) < len) ∧
    s.fetchCaps (slotOf id) < len.toNat + 1

/-- A navigation finds the two buffers that `cerco_alloc` may have made below the sticky floor,
and what a step allocates fits. -/
def Sound (s : HeapSt) : Event → Prop
  | .alloc n _ => Fits s n
  | .cmdBegin _ => s.held.slots .cmdBuf = none → Fits s cmdBufSize
  | .scratchAlloc _ => s.held.slots .scratchBase = none → Fits s scratchSize
  | .scratchBase _ => s.held.slots .scratchBase = none → Fits s scratchSize
  | .sfBegin _ => s.held.slots .sfBody = none → Fits s sfBodyMax
  | .fetchReserve id len _ => Outgrows s id len → Fits s (len.toNat + 1)
  | .navigate => Sheltered s .cmdBuf ∧ Sheltered s .scratchBase
  | _ => True

/-- All regions lie below the pointer, and those that only `cerco_alloc_sticky` makes lie
below the sticky floor. -/
structure HeapInv (s : HeapSt) : Prop where
  stacked : s.held.Stacked s.heapPtr
  floor_le : s.stickyFloor ≤ s.heapPtr
  sticky : ∀ p r, p ≠ .cmdBuf → p ≠ .scratchBase → s.held.slots p = some r → r.stop ≤ s.stickyFloor

theorem roundUp_le_allocSize (n : ℕ) : roundUp n ≤ allocSize n := by
  unfold allocSize
  split
  · omega
  · exact Nat.le_refl _

theorem le_roundUp {n : ℕ} (h : n + 15 < 2 ^ 32) : n ≤ roundUp n := by
  unfold roundUp wrap32
  rw [Nat.mod_eq_of_lt h]
  omega

theorem cercoAlloc_some {s t : HeapSt} {grants n : ℕ} {owner : Option Static}
    (h : cercoAlloc s grants owner n = some t) :
    ∃ stop, t = bump { s with heapEnd := stop } owner n := by
  unfold cercoAlloc at h
  split at h
  · obtain ⟨stop, _, e⟩ := Option.map_eq_some_iff.mp h
    exact ⟨stop, e.symm⟩
  · exact ⟨s.heapEnd, (Option.some.inj h).symm⟩

theorem bump_ptr {s : HeapSt} {n : ℕ} (h : Fits s n) (owner : Option Static) :
    (bump s owner n).heapPtr = s.heapPtr + allocSize n := Nat.mod_eq_of_lt h.2

theorem bump_stacked {s : HeapSt} {n : ℕ} (hs : s.held.Stacked s.heapPtr) (h : Fits s n)
    (owner : Option Static) : (bump s owner n).held.Stacked (bump s owner n).heapPtr := by
  rw [bump_ptr h]
  have room : n ≤ allocSize n := (le_roundUp h.1).trans (roundUp_le_allocSize n)
  exact hs.give (Nat.le_refl s.heapPtr) (Nat.add_le_add_left room s.heapPtr) owner

theorem HeapInv.alloc {s t : HeapSt} (h : HeapInv s) {grants n : ℕ} {owner : Option Static}
    (fits : Fits s n) (plain : ∀ p, owner = some p → p = .cmdBuf ∨ p = .scratchBase)
    (ht : cercoAlloc s grants owner n = some t) : HeapInv t := by
  obtain ⟨stop, rfl⟩ := cercoAlloc_some ht
  have ptr := @bump_ptr { s with heapEnd := stop } n fits owner
  refine ⟨@bump_stacked { s with heapEnd := stop } n h.stacked fits owner, ?_, ?_⟩
  · rw [ptr]
    exact h.floor_le.trans (Nat.le_add_right _ _)
  · intro p r ncmd nscratch hr
    obtain ⟨own, _⟩ | ⟨_, old⟩ := Held.give_slot hr
    · obtain e | e := plain p own
      · exact absurd e ncmd
      · exact absurd e nscratch
    · exact h.sticky p r ncmd nscratch old

theorem HeapInv.allocSticky {s t : HeapSt} (h : HeapInv s) {grants n : ℕ} {owner : Option Static}
    (fits : Fits s n) (ht : allocSticky s grants owner n = some t) : HeapInv t := by
  obtain ⟨u, hu, rfl⟩ := Option.map_eq_some_iff.mp ht
  obtain ⟨stop, rfl⟩ := cercoAlloc_some hu
  have ptr := @bump_ptr { s with heapEnd := stop } n fits owner
  have floor : wrap32 (s.heapPtr + roundUp n) = s.heapPtr + roundUp n :=
    Nat.mod_eq_of_lt (Nat.lt_of_le_of_lt (Nat.add_le_add_left (roundUp_le_allocSize n) _) fits.2)
  refine ⟨@bump_stacked { s with heapEnd := stop } n h.stacked fits owner, ?_, ?_⟩
  · change wrap32 (s.heapPtr + roundUp n) ≤ (bump { s with heapEnd := stop } owner n).heapPtr
    rw [floor, ptr]
    exact Nat.add_le_add_left (roundUp_le_allocSize n) _
  · intro p r _ _ hr
    change r.stop ≤ wrap32 (s.heapPtr + roundUp n)
    rw [floor]
    obtain ⟨_, rfl⟩ | ⟨_, old⟩ := Held.give_slot hr
    · exact Nat.add_le_add_left (le_roundUp fits.1) _
    · exact (h.stacked.slots_le p r old).trans (Nat.le_add_right _ _)

theorem HeapInv.lazyAlloc {s : HeapSt} (h : HeapInv s) {p : Static} {fill : Option HeapSt}
    (filled : s.held.slots p = none → ∀ t, fill = some t → HeapInv t) :
    HeapInv (lazyAlloc s p fill) := by
  unfold ClientHeap.lazyAlloc
  split
  · exact h
  · rename_i vacant
    cases hf : fill with
    | none => exact h
    | some t => exact filled vacant t hf

theorem HeapInv.httpStart {s : HeapSt} (h : HeapInv s) : HeapInv (httpStart s) := by
  unfold ClientHeap.httpStart
  split
  · exact h
  · exact ⟨h.stacked, h.floor_le, h.sticky⟩

theorem HeapInv.fetchReserve {s : HeapSt} (h : HeapInv s) {grants id : ℕ} {len : Int}
    (fits : Outgrows s id len → Fits s (len.toNat + 1)) :
    HeapInv (fetchReserve s grants id len) := by
  unfold ClientHeap.fetchReserve
  dsimp only
  split_ifs with unused big short
  · exact h
  · exact h
  · cases ha : ClientHeap.allocSticky s grants (some (.fetchBuf (slotOf id))) (len.toNat + 1) with
    | none => exact h
    | some t =>
      have ht := h.allocSticky (fits ⟨not_not.mp unused, big, short⟩) ha
      exact ⟨ht.stacked, ht.floor_le, ht.sticky⟩
  · exact h

theorem floor_le_rewound (s : HeapSt) : s.stickyFloor ≤ rewound s := by
  unfold rewound
  split
  · omega
  · exact Nat.le_refl _

theorem HeapInv.rewind {s : HeapSt} (h : HeapInv s) (cmd : Sheltered s .cmdBuf)
    (scratch : Sheltered s .scratchBase) : HeapInv (heapRewind s) := by
  have kept : ∀ p, Sheltered s p := by
    intro p r hr
    by_cases ncmd : p = .cmdBuf
    · exact cmd r (ncmd ▸ hr)
    · by_cases nscratch : p = .scratchBase
      · exact scratch r (nscratch ▸ hr)
      · exact (h.sticky p r ncmd nscratch hr).trans (floor_le_rewound s)
  exact ⟨h.stacked.forget kept, floor_le_rewound s, h.sticky⟩

theorem heapInit_inv (heapBase pages : ℕ) : HeapInv (heapInit heapBase pages) := by
  refine ⟨Held.empty_stacked _, Nat.zero_le _, ?_⟩
  intro p r _ _ hr
  cases hr

theorem heapStep_inv {s t : HeapSt} {e : Event} (h : HeapInv s) (sound : Sound s e)
    (hs : heapStep s e = some t) : HeapInv t := by
  cases e with
  | alloc n grants =>
    simp only [heapStep] at hs
    split at hs
    · cases Option.some.inj hs
      cases ha : cercoAlloc s grants none n with
      | none => exact h
      | some u => exact h.alloc sound (fun p hp => by cases hp) ha
    · cases hs
  | cmdBegin grants =>
    cases Option.some.inj hs
    exact h.lazyAlloc fun vacant u hu =>
      h.alloc (sound vacant) (fun p hp => .inl (Option.some.inj hp).symm) hu
  | scratchAlloc grants =>
    cases Option.some.inj hs
    exact h.lazyAlloc fun vacant u hu =>
      h.alloc (sound vacant) (fun p hp => .inr (Option.some.inj hp).symm) hu
  | scratchBase grants =>
    cases Option.some.inj hs
    exact h.lazyAlloc fun vacant u hu => h.allocSticky (sound vacant) hu
  | sfBegin grants =>
    cases Option.some.inj hs
    exact h.lazyAlloc fun vacant u hu => h.allocSticky (sound vacant) hu
  | httpStart =>
    cases Option.some.inj hs
    exact h.httpStart
  | fetchReserve id len grants =>
    cases Option.some.inj hs
    exact h.fetchReserve sound
  | fetchDone id =>
    cases Option.some.inj hs
    exact ⟨h.stacked, h.floor_le, h.sticky⟩
  | navigate =>
    cases Option.some.inj hs
    exact (h.rewind sound.1 sound.2).httpStart

theorem reach_inv {s : HeapSt} (h : Reach heapSystem Sound s) : HeapInv s :=
  h.invariant
    (by
      rintro _ ⟨heapBase, pages, rfl⟩
      exact heapInit_inv heapBase pages)
    fun _ _ _ hi hok hs => heapStep_inv hi hok hs

/-- As long as each navigation finds the command buffer and the scratch region below the
sticky floor, no buffer of the runtime meets another or a block of the current page. -/
theorem client_regions_disjoint {s : HeapSt} (h : Reach heapSystem Sound s) : s.held.Separate :=
  (reach_inv h).stacked.separate

theorem httpStart_held (s : HeapSt) : (httpStart s).held = s.held ∧ (httpStart s).heapPtr = s.heapPtr := by
  unfold httpStart
  split
  · exact ⟨rfl, rfl⟩
  · exact ⟨rfl, rfl⟩

theorem exposed_overlaps {s u : HeapSt} {p : Static} {r : Region} {grants : ℕ}
    (held : s.held.slots p = some r) (bytes : 0 < r.size) (exposed : rewound s < r.stop)
    (hu : cercoAlloc (cercoNavigate s) grants none (r.stop - rewound s) = some u) :
    ¬ u.held.Separate := by
  obtain ⟨stop, rfl⟩ := cercoAlloc_some hu
  obtain ⟨kept, ptr⟩ := httpStart_held (heapRewind s)
  change ¬ ((httpStart (heapRewind s)).held.give none
    ⟨(httpStart (heapRewind s)).heapPtr, r.stop - rewound s⟩).Separate
  rw [kept, ptr]
  have filled : rewound s + (r.stop - rewound s) = r.stop := Nat.add_sub_cancel' exposed.le
  have low : r.base < r.stop := Nat.lt_add_of_pos_right bytes
  refine Held.give_overlaps held exposed ?_
  change r.base < rewound s + (r.stop - rewound s)
  rw [filled]
  exact low

instance (s : HeapSt) (n : ℕ) : Decidable (Fits s n) := inferInstanceAs (Decidable (_ ∧ _))

instance (s : HeapSt) (p : Static) : Decidable (Sheltered s p) :=
  match h : s.held.slots p with
  | none => .isTrue fun r hr => by rw [h] at hr; cases hr
  | some r =>
    decidable_of_iff (r.stop ≤ rewound s)
      ⟨fun le q hq => by rw [h] at hq; exact Option.some.inj hq ▸ le, fun all => all r h⟩

instance (s : HeapSt) (id : ℕ) (len : Int) : Decidable (Outgrows s id len) :=
  inferInstanceAs (Decidable (_ ∧ _ ∧ _))

instance (s : HeapSt) : (e : Event) → Decidable (Sound s e)
  | .alloc n _ => inferInstanceAs (Decidable (Fits s n))
  | .cmdBegin _ => inferInstanceAs (Decidable (_ → _))
  | .scratchAlloc _ => inferInstanceAs (Decidable (_ → _))
  | .scratchBase _ => inferInstanceAs (Decidable (_ → _))
  | .sfBegin _ => inferInstanceAs (Decidable (_ → _))
  | .fetchReserve _ _ _ => inferInstanceAs (Decidable (_ → _))
  | .navigate => inferInstanceAs (Decidable (_ ∧ _))
  | .httpStart => .isTrue trivial
  | .fetchDone _ => .isTrue trivial

/-- A page that calls a server function before it is left. -/
def firstCallRun : List Event :=
  [.scratchBase 1, .cmdBegin 0, .alloc 8 0, .sfBegin 1, .navigate, .alloc 32768 1,
    .fetchReserve 0 4096 1]

theorem client_regions_disjoint_call :
    (execWhile heapSystem Sound (heapInit 66560 2) firstCallRun).isSome ∧
      ∀ s, execWhile heapSystem Sound (heapInit 66560 2) firstCallRun = some s →
        s.held.Separate :=
  ⟨by decide +kernel, fun _ hs =>
    client_regions_disjoint (execWhile_reach firstCallRun (.start ⟨66560, 2, rfl⟩) hs)⟩

/-- The first navigation of a page that had made no sticky allocation after its first command,
and the body of the new page. -/
def firstVisitRun : List Event :=
  [.scratchBase 1, .cmdBegin 0, .navigate, .fetchReserve 0 4096 0]

/-- The body of the new page is received in the command buffer. -/
theorem page_body_over_commands :
    ¬ ∀ s, Reach heapSystem anyStep s → s.held.Separate := by
  intro all
  obtain ⟨s, hs⟩ : ∃ s, exec heapSystem (heapInit 66560 2) firstVisitRun = some s :=
    Option.isSome_iff_exists.mp (by decide +kernel)
  have sep := all s (exec_reach firstVisitRun (.start ⟨66560, 2, rfl⟩) (fun _ _ _ => trivial) hs)
  have slots : ∀ p, s.held.slots p =
      ((exec heapSystem (heapInit 66560 2) firstVisitRun).bind fun s => s.held.slots p) := by
    intro p
    rw [hs]
    rfl
  have cmd : s.held.slots .cmdBuf = some ⟨132096, 32768⟩ := (slots _).trans (by decide +kernel)
  have body : s.held.slots (.fetchBuf 0) = some ⟨132096, 4097⟩ := (slots _).trans (by decide +kernel)
  exact absurd (sep.slots _ _ _ _ (by decide) cmd body) (by decide)

end Cerco.ClientHeap
