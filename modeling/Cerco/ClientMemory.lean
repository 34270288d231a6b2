import Cerco.ClientHeap

set_option autoImplicit false

/-!
# How far the client heap can be rewound

A rewind goes back to the end of the last sticky allocation. What page code had
allocated below that stays allocated, and so does a fetch buffer that was
replaced by a larger one. Without these two, the pointer after a rewind is
bounded by the sizes of the runtime's own buffers.
-/
namespace Cerco.ClientMemory
open Cerco.BumpRegions Cerco.TransitionRuns Cerco.ClientHeap
open Cerco.DomStream (cmdBufSize)
open Cerco.ClientReply (scratchSize)
open Cerco.ServerFunctions (sfBodyMax)

/-- `__heap_base`, aligned as `cerco_heap_init` aligns it. -/
def alignedBase (heapBase : ℕ) : ℕ := (heapBase + 15) / 16 * 16

def sizeLimit : Static → ℕ
  | .cmdBuf => cmdBufSize
  | .scratchBase => scratchSize
  | .sfBody => sfBodyMax
  | .fetchBuf _ => fetchMax + 1

/-- A value summed over the runtime's buffers. -/
def total (f : Static → ℕ) : ℕ :=
  f .cmdBuf + f .scratchBase + f .sfBody +
    (f (.fetchBuf 0) + f (.fetchBuf 1) + f (.fetchBuf 2) + f (.fetchBuf 3))

/-- The scratch region, the body and command buffers and four fetch buffers, each
rounded up, above the base. -/
def memoryBound (heapBase : ℕ) : ℕ := alignedBase heapBase + total fun p => allocSize (sizeLimit p)

def charge (h : Held Static) (p : Static) : ℕ :=
  match h.slots p with
  | none => 0
  | some r => allocSize r.size

def top (s : HeapSt) : ℕ := alignedBase s.heapBase + total (charge s.held)

def NoPageBlocks (s : HeapSt) : Prop := ∀ b ∈ s.held.blocks, b.1 ≠ none

/-- A sticky allocation finds no page block below it and replaces no buffer. -/
def Tidy (s : HeapSt) : Event → Prop
  | .scratchBase _ => s.held.slots .scratchBase = none → NoPageBlocks s
  | .sfBegin _ => s.held.slots .sfBody = none → NoPageBlocks s
  | .fetchReserve id len _ => Outgrows s id len →
      NoPageBlocks s ∧ s.held.slots (.fetchBuf (slotOf id)) = none
  | _ => True

theorem total_mono {f g : Static → ℕ} (h : ∀ p, f p ≤ g p) : total f ≤ total g := by
  have cmd := h .cmdBuf
  have scratch := h .scratchBase
  have sf := h .sfBody
  have f0 := h (.fetchBuf 0)
  have f1 := h (.fetchBuf 1)
  have f2 := h (.fetchBuf 2)
  have f3 := h (.fetchBuf 3)
  unfold total
  omega

theorem slot_cases : ∀ i : Fin 4, i = 0 ∨ i = 1 ∨ i = 2 ∨ i = 3 := by decide

theorem total_update (f : Static → ℕ) (p : Static) (n : ℕ) :
    total (Function.update f p n) + f p = total f + n := by
  unfold total
  cases p with
  | cmdBuf => simp [Function.update]; omega
  | scratchBase => simp [Function.update]; omega
  | sfBody => simp [Function.update]; omega
  | fetchBuf slot =>
    rcases slot_cases slot with rfl | rfl | rfl | rfl
    all_goals
      simp [Function.update]
      omega

theorem total_charge_give {h : Held Static} {p : Static} (vacant : h.slots p = none) (r : Region) :
    total (charge (h.give (some p) r)) = total (charge h) + allocSize r.size := by
  have before : charge h p = 0 := by rw [charge, vacant]
  have after : charge (h.give (some p) r) = Function.update (charge h) p (allocSize r.size) := by
    funext q
    by_cases same : q = p
    · subst same
      simp [charge, Held.give]
    · simp [charge, Held.give, same]
  have one := total_update (charge h) p (allocSize r.size)
  rw [before, ← after] at one
  exact one

/-- The floor, and as long as page code has allocated nothing the pointer, are where
the buffers alone would put them. -/
structure MemoryInv (s : HeapSt) : Prop where
  floor : s.stickyFloor ≤ top s
  ptr : NoPageBlocks s → s.heapPtr ≤ top s
  sizes : ∀ p r, s.held.slots p = some r → r.size ≤ sizeLimit p

theorem wrap32_le (n : ℕ) : wrap32 n ≤ n := Nat.mod_le n _

theorem roundUp_mono {m n : ℕ} (h : m ≤ n) (hn : n + 15 < 2 ^ 32) : roundUp m ≤ roundUp n := by
  unfold roundUp wrap32
  omega

theorem allocSize_mono {m n : ℕ} (h : m ≤ n) (hn : n + 15 < 2 ^ 32) : allocSize m ≤ allocSize n := by
  have le := roundUp_mono h hn
  have step : roundUp n % 16 = 0 := Nat.mul_mod_left _ 16
  unfold allocSize
  split <;> split <;> omega

theorem sizeLimit_small (p : Static) : sizeLimit p + 15 < 2 ^ 32 := by
  cases p with
  | fetchBuf slot => exact (by decide : fetchMax + 1 + 15 < 2 ^ 32)
  | _ => decide

theorem MemoryInv.top_le {s : HeapSt} (h : MemoryInv s) : top s ≤ memoryBound s.heapBase := by
  refine Nat.add_le_add_left (total_mono fun p => ?_) _
  unfold charge
  split
  · exact Nat.zero_le _
  · exact allocSize_mono (h.sizes p _ ‹_›) (sizeLimit_small p)

theorem MemoryInv.rewound_le {s : HeapSt} (h : MemoryInv s) : rewound s ≤ top s := by
  unfold rewound
  split
  · unfold top alignedBase
    omega
  · exact h.floor

theorem MemoryInv.fill {s t : HeapSt} (h : MemoryInv s) {p : Static} (vacant : s.held.slots p = none)
    {n : ℕ} (small : n ≤ sizeLimit p) (base : t.heapBase = s.heapBase)
    (held : t.held = s.held.give (some p) ⟨s.heapPtr, n⟩)
    (ptr : t.heapPtr ≤ s.heapPtr + allocSize n)
    (floor : t.stickyFloor = s.stickyFloor ∨
      NoPageBlocks s ∧ t.stickyFloor ≤ s.heapPtr + allocSize n) : MemoryInv t := by
  have raised : top t = top s + allocSize n := by
    rw [top, top, base, held, total_charge_give vacant, Nat.add_assoc]
  have pages : NoPageBlocks t → NoPageBlocks s := by
    intro none b hb
    exact none b (by rw [held]; exact List.mem_cons_of_mem _ hb)
  refine ⟨?_, fun none => ?_, fun q r hr => ?_⟩
  · rw [raised]
    rcases floor with same | ⟨none, sticky⟩
    · rw [same]
      exact Nat.le_add_right_of_le h.floor
    · exact Nat.le_trans sticky (Nat.add_le_add_right (h.ptr none) _)
  · rw [raised]
    exact Nat.le_trans ptr (Nat.add_le_add_right (h.ptr (pages none)) _)
  · rw [held] at hr
    obtain ⟨own, rfl⟩ | ⟨_, old⟩ := Held.give_slot hr
    · obtain rfl := Option.some.inj own
      exact small
    · exact h.sizes q r old

theorem MemoryInv.cercoAlloc {s t : HeapSt} (h : MemoryInv s) {grants n : ℕ} {p : Static}
    (vacant : s.held.slots p = none) (small : n ≤ sizeLimit p)
    (ht : cercoAlloc s grants (some p) n = some t) : MemoryInv t := by
  obtain ⟨stop, rfl⟩ := cercoAlloc_some ht
  exact h.fill vacant small rfl rfl (wrap32_le _) (.inl rfl)

theorem MemoryInv.allocSticky {s t : HeapSt} (h : MemoryInv s) {grants n : ℕ} {p : Static}
    (vacant : s.held.slots p = none) (none : NoPageBlocks s) (small : n ≤ sizeLimit p)
    (ht : allocSticky s grants (some p) n = some t) : MemoryInv t := by
  obtain ⟨u, hu, rfl⟩ := Option.map_eq_some_iff.mp ht
  obtain ⟨stop, rfl⟩ := cercoAlloc_some hu
  refine h.fill vacant small rfl rfl (wrap32_le _) (.inr ⟨none, ?_⟩)
  exact (wrap32_le _).trans (Nat.add_le_add_left (roundUp_le_allocSize n) _)

theorem MemoryInv.lazyAlloc {s : HeapSt} (h : MemoryInv s) {p : Static} {fill : Option HeapSt}
    (filled : s.held.slots p = none → ∀ t, fill = some t → MemoryInv t) :
    MemoryInv (lazyAlloc s p fill) := by
  unfold ClientHeap.lazyAlloc
  split
  · exact h
  · rename_i vacant
    cases hf : fill with
    | none => exact h
    | some t => exact filled vacant t hf

theorem MemoryInv.pageAlloc {s t : HeapSt} (h : MemoryInv s) {grants n : ℕ}
    (ht : ClientHeap.cercoAlloc s grants none n = some t) : MemoryInv t := by
  obtain ⟨stop, rfl⟩ := cercoAlloc_some ht
  exact ⟨h.floor, fun none => absurd rfl (none (.none, _) List.mem_cons_self), h.sizes⟩

theorem MemoryInv.httpStart {s : HeapSt} (h : MemoryInv s) : MemoryInv (httpStart s) := by
  unfold ClientHeap.httpStart
  split
  · exact h
  · exact ⟨h.floor, h.ptr, h.sizes⟩

theorem MemoryInv.fetchReserve {s : HeapSt} (h : MemoryInv s) {grants id : ℕ} {len : Int}
    (tidy : Outgrows s id len → NoPageBlocks s ∧ s.held.slots (.fetchBuf (slotOf id)) = none) :
    MemoryInv (fetchReserve s grants id len) := by
  unfold ClientHeap.fetchReserve
  dsimp only
  split_ifs with unused big short
  · exact h
  · exact h
  · obtain ⟨none, vacant⟩ := tidy ⟨not_not.mp unused, big, short⟩
    have small : len.toNat + 1 ≤ fetchMax + 1 := by omega
    cases ha : ClientHeap.allocSticky s grants (some (.fetchBuf (slotOf id))) (len.toNat + 1) with
    | none => exact h
    | some t =>
      have ht := h.allocSticky vacant none small ha
      exact ⟨ht.floor, ht.ptr, ht.sizes⟩
  · exact h

theorem MemoryInv.rewind {s : HeapSt} (h : MemoryInv s) : MemoryInv (heapRewind s) :=
  ⟨h.floor, fun _ => h.rewound_le, h.sizes⟩

theorem heapInit_memory (heapBase pages : ℕ) : MemoryInv (heapInit heapBase pages) := by
  refine ⟨Nat.zero_le _, fun _ => ?_, fun p r hr => by cases hr⟩
  have base : wrap32 (heapBase + 15) / 16 * 16 ≤ alignedBase heapBase :=
    Nat.mul_le_mul_right 16 (Nat.div_le_div_right (wrap32_le _))
  exact base.trans (Nat.le_add_right _ _)

theorem heapStep_memory {s t : HeapSt} {e : Event} (h : MemoryInv s) (tidy : Tidy s e)
    (hs : heapStep s e = some t) : MemoryInv t := by
  cases e with
  | alloc n grants =>
    simp only [heapStep] at hs
    split at hs
    · cases Option.some.inj hs
      cases ha : ClientHeap.cercoAlloc s grants none n with
      | none => exact h
      | some u => exact h.pageAlloc ha
    · cases hs
  | cmdBegin grants =>
    cases Option.some.inj hs
    exact h.lazyAlloc fun vacant u hu => h.cercoAlloc vacant (Nat.le_refl _) hu
  | scratchAlloc grants =>
    cases Option.some.inj hs
    exact h.lazyAlloc fun vacant u hu => h.cercoAlloc vacant (Nat.le_refl _) hu
  | scratchBase grants =>
    cases Option.some.inj hs
    exact h.lazyAlloc fun vacant u hu => h.allocSticky vacant (tidy vacant) (Nat.le_refl _) hu
  | sfBegin grants =>
    cases Option.some.inj hs
    exact h.lazyAlloc fun vacant u hu => h.allocSticky vacant (tidy vacant) (Nat.le_refl _) hu
  | httpStart =>
    cases Option.some.inj hs
    exact h.httpStart
  | fetchReserve id len grants =>
    cases Option.some.inj hs
    exact h.fetchReserve tidy
  | fetchDone id =>
    cases Option.some.inj hs
    exact ⟨h.floor, h.ptr, h.sizes⟩
  | navigate =>
    cases Option.some.inj hs
    exact h.rewind.httpStart

theorem reach_memory {s : HeapSt} (h : Reach heapSystem Tidy s) : MemoryInv s :=
  h.invariant
    (by
      rintro _ ⟨heapBase, pages, rfl⟩
      exact heapInit_memory heapBase pages)
    fun _ _ _ hi tidy hs => heapStep_memory hi tidy hs

/-- As long as no sticky allocation swallows page blocks or an older buffer, a rewind
gets back to a fixed distance from the heap base, however many pages were visited. -/
theorem client_memory_bounded {s : HeapSt} (h : Reach heapSystem Tidy s) :
    (heapRewind s).heapPtr ≤ memoryBound s.heapBase :=
  have inv := reach_memory h
  inv.rewound_le.trans inv.top_le

instance (s : HeapSt) : Decidable (NoPageBlocks s) :=
  inferInstanceAs (Decidable (∀ b ∈ s.held.blocks, b.1 ≠ none))

instance (s : HeapSt) : (e : Event) → Decidable (Tidy s e)
  | .scratchBase _ => inferInstanceAs (Decidable (_ → _))
  | .sfBegin _ => inferInstanceAs (Decidable (_ → _))
  | .fetchReserve _ _ _ => inferInstanceAs (Decidable (_ → _ ∧ _))
  | .alloc _ _ => .isTrue trivial
  | .cmdBegin _ => .isTrue trivial
  | .scratchAlloc _ => .isTrue trivial
  | .httpStart => .isTrue trivial
  | .fetchDone _ => .isTrue trivial
  | .navigate => .isTrue trivial

example : memoryBound 66560 < maxHeapPages * page := by decide

/-- A page that fetches before it allocates, and is left. -/
def thriftyRun : List Event :=
  [.scratchBase 1, .cmdBegin 0, .httpStart, .fetchReserve 0 4096 1, .fetchDone 0, .alloc 5000 1,
    .navigate]

theorem client_memory_bounded_thrifty :
    (execWhile heapSystem Tidy (heapInit 66560 2) thriftyRun).isSome ∧
      ∀ s, execWhile heapSystem Tidy (heapInit 66560 2) thriftyRun = some s →
        (heapRewind s).heapPtr ≤ memoryBound s.heapBase :=
  ⟨by decide +kernel, fun _ hs =>
    client_memory_bounded (execWhile_reach thriftyRun (.start ⟨66560, 2, rfl⟩) hs)⟩

def swallowedRun : List Event := [.scratchBase 1, .cmdBegin 0, .alloc 3000000 60, .sfBegin 1, .navigate]

theorem page_blocks_swallowed :
    ¬ ∀ s, Reach heapSystem anyStep s → (heapRewind s).heapPtr ≤ memoryBound s.heapBase := by
  intro all
  obtain ⟨s, hs⟩ : ∃ s, exec heapSystem (heapInit 66560 2) swallowedRun = some s :=
    Option.isSome_iff_exists.mp (by decide +kernel)
  have bounded := all s
    (exec_reach swallowedRun (.start ⟨66560, 2, rfl⟩) (fun _ _ _ => trivial) hs)
  have floor : (heapRewind s).heapPtr = 3197632 ∧ s.heapBase = 66560 := by
    have both : (exec heapSystem (heapInit 66560 2) swallowedRun).map
        (fun s => ((heapRewind s).heapPtr, s.heapBase)) = some (3197632, 66560) := by decide +kernel
    rw [hs] at both
    exact Prod.mk.inj (Option.some.inj both)
  rw [floor.1, floor.2] at bounded
  exact absurd bounded (by decide)

end Cerco.ClientMemory
