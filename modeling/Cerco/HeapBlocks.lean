import Cerco.ClientHeap

set_option autoImplicit false

/-!
# The blocks of the client heap

Ordinary allocations, sticky ones and rewinds in any order, with memory growth that
may fail at any page. `era` counts the rewinds; `blocks` remembers every block that
was ever returned, the newest first.
-/
namespace Cerco.HeapBlocks
open Cerco.BumpRegions Cerco.ClientHeap Cerco.TransitionRuns

structure Block where
  region : Region
  sticky : Bool
  era : ℕ
deriving DecidableEq

/-- `mapped` is the size of the memory. -/
structure Client where
  heap : HeapSt
  mapped : ℕ
  era : ℕ
  blocks : List Block

/-- How many pages the loop of `heap_grow` adds, whether it gets to the target or not. -/
def grownPages (target : ℕ) : ℕ → ℕ → ℕ
  | 0, _ => 0
  | grants + 1, pagesEnd =>
    if pagesEnd < target then grownPages target grants (pagesEnd + page) + 1 else 0

/-- The pages that `cerco_alloc(n)` adds to the memory. -/
def addedPages (s : HeapSt) (grants n : ℕ) : ℕ :=
  let target := wrap32 (s.heapPtr + allocSize n)
  if s.heapEnd < target ∧ target ≤ maxHeapPages * page then
    grownPages target grants (wrap32 (s.heapEnd + page - 1) / page * page)
  else 0

/-- `grants` is how often `memory.grow` succeeds. -/
inductive Event
  | alloc (n grants : ℕ)
  | allocSticky (n grants : ℕ)
  | rewind
deriving DecidableEq

def maxRequest : ℕ := 4 * 1024 * 1024

/-- A call that returns `result` if it succeeds. -/
def allocated (c : Client) (grants n : ℕ) (sticky : Bool) (result : Option HeapSt) : Client :=
  let mapped := c.mapped + page * addedPages c.heap grants n
  match result with
  | none => { c with mapped := mapped }
  | some t => ⟨t, mapped, c.era, ⟨⟨c.heap.heapPtr, n⟩, sticky, c.era⟩ :: c.blocks⟩

def blockStep (c : Client) : Event → Option Client
  | .alloc n grants =>
    if 1 ≤ n ∧ n ≤ maxRequest then some (allocated c grants n false (cercoAlloc c.heap grants none n)) else none
  | .allocSticky n grants =>
    if 1 ≤ n ∧ n ≤ maxRequest then some (allocated c grants n true (allocSticky c.heap grants none n)) else none
  | .rewind => some { c with heap := heapRewind c.heap, era := c.era + 1 }

/-- `cerco_heap_init` with `__heap_base` in a memory of at most the pages of the heap. -/
def blockSystem : System Client Event where
  start c := ∃ heapBase pages, heapBase ≤ pages * page ∧ pages ≤ maxHeapPages ∧
    c = ⟨heapInit heapBase pages, pages * page, 0, []⟩
  step := blockStep

/-- A later block and an earlier one may share memory only if the earlier one is ordinary and, where
both are, a rewind came between them. -/
def KeepsApart (later earlier : Block) : Prop :=
  earlier.sticky = true ∨ (later.sticky = false ∧ later.era = earlier.era) →
    later.region.Apart earlier.region

structure HeapSafe (c : Client) : Prop where
  mapped : ∀ b ∈ c.blocks, b.region.stop ≤ c.mapped
  pages : ∀ b ∈ c.blocks, b.region.stop ≤ maxHeapPages * page
  floor_le : c.heap.stickyFloor ≤ c.heap.heapPtr
  apart : c.blocks.Pairwise KeepsApart

/-- The floor does not sink, and a call that returns no block moves nothing. -/
structure StepSafe (c : Client) (e : Event) (d : Client) : Prop where
  floor_mono : c.heap.stickyFloor ≤ d.heap.stickyFloor
  failed : e ≠ .rewind → d.blocks = c.blocks →
    d.heap.heapPtr = c.heap.heapPtr ∧ d.heap.stickyFloor = c.heap.stickyFloor

structure Bounds (s : HeapSt) (mapped : ℕ) : Prop where
  base_le : s.heapBase ≤ s.heapEnd
  ptr_le : s.heapPtr ≤ s.heapEnd
  end_le : s.heapEnd ≤ maxHeapPages * page
  whole : s.heapEnd % page = 0
  end_mapped : s.heapEnd ≤ mapped
  floor_le : s.stickyFloor ≤ s.heapPtr

structure BlockInv (c : Client) : Prop where
  bounds : Bounds c.heap c.mapped
  eras : ∀ b ∈ c.blocks, b.era ≤ c.era
  ends : ∀ b ∈ c.blocks, b.region.stop ≤ c.heap.heapEnd
  sticky : ∀ b ∈ c.blocks, b.sticky = true → b.region.stop ≤ c.heap.stickyFloor
  current : ∀ b ∈ c.blocks, b.era = c.era → b.region.stop ≤ c.heap.heapPtr
  apart : c.blocks.Pairwise KeepsApart

theorem allocSize_request {n : ℕ} (lo : 1 ≤ n) (hi : n ≤ maxRequest) :
    allocSize n = (n + 15) / 16 * 16 ∧ roundUp n = (n + 15) / 16 * 16 := by
  unfold maxRequest at hi
  have up : roundUp n = (n + 15) / 16 * 16 := by
    unfold roundUp wrap32
    rw [Nat.mod_eq_of_lt (by omega)]
  refine ⟨?_, up⟩
  rw [allocSize, up, if_neg (by omega)]

theorem growLoop_some {target grants pagesEnd stop : ℕ} (h : growLoop target grants pagesEnd = some stop) :
    target ≤ stop ∧ stop = pagesEnd + page * grownPages target grants pagesEnd ∧
      (stop = pagesEnd ∨ stop < target + page) := by
  induction grants generalizing pagesEnd with
  | zero =>
    rw [growLoop] at h
    by_cases below : pagesEnd < target
    · rw [if_pos below] at h
      cases h
    · rw [if_neg below] at h
      cases h
      exact ⟨by omega, by rw [grownPages]; omega, .inl rfl⟩
  | succ grants ih =>
    rw [growLoop] at h
    by_cases below : pagesEnd < target
    · rw [if_pos below] at h
      obtain ⟨reached, sum, last⟩ := ih h
      rw [grownPages, if_pos below]
      refine ⟨reached, by rw [Nat.mul_add]; omega, ?_⟩
      obtain rfl | last := last
      · exact .inr (by omega)
      · exact .inr last
    · rw [if_neg below] at h
      cases h
      exact ⟨by omega, by rw [grownPages, if_neg below]; omega, .inl rfl⟩

theorem Bounds.fits {s : HeapSt} {mapped n : ℕ} (h : Bounds s mapped) (lo : 1 ≤ n) (hi : n ≤ maxRequest) :
    Fits s n := by
  have size := (allocSize_request lo hi).1
  have ptr_le := h.ptr_le
  have end_le := h.end_le
  unfold Fits
  unfold maxHeapPages page at end_le
  unfold maxRequest at hi
  omega

theorem heapGrow_bounds {s : HeapSt} {mapped grants n stop : ℕ} (h : Bounds s mapped) (fits : Fits s n)
    (beyond : s.heapEnd < s.heapPtr + allocSize n) (grown : heapGrow s grants (allocSize n) = some stop) :
    s.heapPtr + allocSize n ≤ stop ∧ Bounds { s with heapEnd := stop } (mapped + page * addedPages s grants n) := by
  obtain ⟨base_le, ptr_le, end_le, whole, end_mapped, floor_le⟩ := h
  have target : wrap32 (s.heapPtr + allocSize n) = s.heapPtr + allocSize n := Nat.mod_eq_of_lt fits.2
  have pagesEnd : wrap32 (s.heapEnd + page - 1) / page * page = s.heapEnd := by
    unfold wrap32
    unfold maxHeapPages page at *
    omega
  unfold heapGrow at grown
  rw [target, pagesEnd] at grown
  by_cases tooMany : maxHeapPages * page < s.heapPtr + allocSize n
  · simp only [if_pos tooMany] at grown
    cases grown
  · simp only [if_neg tooMany] at grown
    obtain ⟨reached, sum, last⟩ := growLoop_some grown
    have added : addedPages s grants n = grownPages (s.heapPtr + allocSize n) grants s.heapEnd := by
      unfold addedPages
      simp only [target, pagesEnd, if_pos (And.intro beyond (Nat.le_of_not_lt tooMany))]
    rw [← added] at sum
    have later : s.heapEnd ≤ stop := by omega
    refine ⟨reached, base_le.trans later, ptr_le.trans later, ?_, ?_, ?_, floor_le⟩
    · change stop ≤ maxHeapPages * page
      unfold maxHeapPages page at *
      omega
    · change stop % page = 0
      rw [sum, Nat.add_mul_mod_self_left, whole]
    · change stop ≤ _
      omega

theorem Bounds.bump {s : HeapSt} {mapped n : ℕ} (h : Bounds s mapped) (fits : Fits s n)
    (room : s.heapPtr + allocSize n ≤ s.heapEnd) (owner : Option Static) : Bounds (bump s owner n) mapped := by
  have ptr := bump_ptr fits owner
  refine ⟨h.base_le, ?_, h.end_le, h.whole, h.end_mapped, ?_⟩
  · rw [ptr]
    exact room
  · rw [ptr]
    exact h.floor_le.trans (Nat.le_add_right _ _)

theorem Bounds.grow {s : HeapSt} {mapped : ℕ} (h : Bounds s mapped) (more : ℕ) : Bounds s (mapped + more) :=
  ⟨h.base_le, h.ptr_le, h.end_le, h.whole, h.end_mapped.trans (Nat.le_add_right _ _), h.floor_le⟩

theorem cercoAlloc_bounds {s t : HeapSt} {mapped grants n : ℕ} {owner : Option Static} (h : Bounds s mapped)
    (lo : 1 ≤ n) (hi : n ≤ maxRequest) (ht : cercoAlloc s grants owner n = some t) :
    t.heapPtr = s.heapPtr + (n + 15) / 16 * 16 ∧ s.heapEnd ≤ t.heapEnd ∧ t.stickyFloor = s.stickyFloor ∧
      Bounds t (mapped + page * addedPages s grants n) := by
  have fits := h.fits lo hi
  have target : wrap32 (s.heapPtr + allocSize n) = s.heapPtr + allocSize n := Nat.mod_eq_of_lt fits.2
  rw [← (allocSize_request lo hi).1]
  unfold cercoAlloc at ht
  rw [target] at ht
  by_cases beyond : s.heapEnd < s.heapPtr + allocSize n
  · rw [if_pos beyond] at ht
    obtain ⟨stop, grown, rfl⟩ := Option.map_eq_some_iff.mp ht
    obtain ⟨reached, bounds⟩ := heapGrow_bounds h fits beyond grown
    exact ⟨target, beyond.le.trans reached, rfl, bounds.bump fits reached owner⟩
  · rw [if_neg beyond] at ht
    obtain rfl := Option.some.inj ht
    exact ⟨target, Nat.le_refl _, rfl, (h.bump fits (Nat.le_of_not_lt beyond) owner).grow _⟩

theorem allocSticky_bounds {s t : HeapSt} {mapped grants n : ℕ} {owner : Option Static} (h : Bounds s mapped)
    (lo : 1 ≤ n) (hi : n ≤ maxRequest) (ht : allocSticky s grants owner n = some t) :
    t.heapPtr = s.heapPtr + (n + 15) / 16 * 16 ∧ s.heapEnd ≤ t.heapEnd ∧ t.stickyFloor = t.heapPtr ∧
      Bounds t (mapped + page * addedPages s grants n) := by
  obtain ⟨u, hu, rfl⟩ := Option.map_eq_some_iff.mp ht
  obtain ⟨ptr, grown, _, bounds⟩ := cercoAlloc_bounds h lo hi hu
  have floor : wrap32 (s.heapPtr + roundUp n) = u.heapPtr := by
    have small := bounds.ptr_le.trans bounds.end_le
    unfold maxHeapPages page at small
    rw [(allocSize_request lo hi).2, ← ptr]
    exact Nat.mod_eq_of_lt (by omega)
  refine ⟨ptr, grown, floor, ?_⟩
  exact ⟨bounds.base_le, bounds.ptr_le, bounds.end_le, bounds.whole, bounds.end_mapped, Nat.le_of_eq floor⟩

theorem BlockInv.push {c : Client} (h : BlockInv c) {t : HeapSt} {mapped n : ℕ} {sticky : Bool}
    (bounds : Bounds t mapped) (ptr : t.heapPtr = c.heap.heapPtr + (n + 15) / 16 * 16)
    (grown : c.heap.heapEnd ≤ t.heapEnd) (floor : c.heap.stickyFloor ≤ t.stickyFloor)
    (own : sticky = true → t.stickyFloor = t.heapPtr) :
    BlockInv ⟨t, mapped, c.era, ⟨⟨c.heap.heapPtr, n⟩, sticky, c.era⟩ :: c.blocks⟩ := by
  have stop : c.heap.heapPtr + n ≤ t.heapPtr := by omega
  refine ⟨bounds, ?_, ?_, ?_, ?_, ?_⟩
  · rintro b (_ | ⟨_, old⟩)
    · exact Nat.le_refl _
    · exact h.eras b old
  · rintro b (_ | ⟨_, old⟩)
    · exact stop.trans bounds.ptr_le
    · exact (h.ends b old).trans grown
  · rintro b (_ | ⟨_, old⟩) hb
    · exact stop.trans (Nat.le_of_eq (own hb).symm)
    · exact (h.sticky b old hb).trans floor
  · rintro b (_ | ⟨_, old⟩) hb
    · exact stop
    · exact (h.current b old hb).trans (by change _ ≤ t.heapPtr; omega)
  · refine List.pairwise_cons.mpr ⟨fun b old cond => .inr ?_, h.apart⟩
    obtain kept | ⟨_, same⟩ := cond
    · exact (h.sticky b old kept).trans h.bounds.floor_le
    · exact h.current b old same.symm

theorem BlockInv.fail {c : Client} (h : BlockInv c) (more : ℕ) : BlockInv { c with mapped := c.mapped + more } :=
  ⟨h.bounds.grow more, h.eras, h.ends, h.sticky, h.current, h.apart⟩

theorem BlockInv.rewind {c : Client} (h : BlockInv c) :
    BlockInv { c with heap := heapRewind c.heap, era := c.era + 1 } := by
  have bounds := h.bounds
  have ptr : rewound c.heap ≤ c.heap.heapEnd ∧ c.heap.stickyFloor ≤ rewound c.heap := by
    unfold rewound
    by_cases zero : c.heap.stickyFloor = 0
    · rw [if_pos zero, zero]
      exact ⟨bounds.base_le, Nat.zero_le _⟩
    · rw [if_neg zero]
      exact ⟨bounds.floor_le.trans bounds.ptr_le, Nat.le_refl _⟩
  refine ⟨⟨bounds.base_le, ptr.1, bounds.end_le, bounds.whole, bounds.end_mapped, ptr.2⟩, ?_, h.ends, h.sticky, ?_, h.apart⟩
  · intro b hb
    exact (h.eras b hb).trans (Nat.le_succ _)
  · intro b hb same
    exact absurd (h.eras b hb) (by change b.era = c.era + 1 at same; omega)

theorem BlockInv.allocated {c : Client} (h : BlockInv c) {grants n : ℕ} {sticky : Bool} {result : Option HeapSt}
    {e : Event} (served : ∀ t, result = some t → t.heapPtr = c.heap.heapPtr + (n + 15) / 16 * 16 ∧
      c.heap.heapEnd ≤ t.heapEnd ∧ t.stickyFloor = (if sticky = true then t.heapPtr else c.heap.stickyFloor) ∧
      Bounds t (c.mapped + page * addedPages c.heap grants n)) :
    BlockInv (allocated c grants n sticky result) ∧ StepSafe c e (allocated c grants n sticky result) := by
  cases result with
  | none => exact ⟨h.fail _, Nat.le_refl _, fun _ _ => ⟨rfl, rfl⟩⟩
  | some t =>
    obtain ⟨ptr, grown, floor, bounds⟩ := served t rfl
    have low := h.bounds.floor_le
    have up : c.heap.stickyFloor ≤ t.stickyFloor := by
      rw [floor]
      split <;> omega
    have own : sticky = true → t.stickyFloor = t.heapPtr := fun kept => by rw [floor, if_pos kept]
    exact ⟨h.push bounds ptr grown up own, up, fun _ same => absurd same (List.cons_ne_self _ _)⟩

theorem BlockInv.step {c d : Client} {e : Event} (h : BlockInv c) (hs : blockStep c e = some d) :
    BlockInv d ∧ StepSafe c e d := by
  cases e with
  | alloc n grants =>
    obtain ⟨range, e⟩ := Option.ite_none_right_eq_some.mp hs
    obtain rfl := Option.some.inj e
    exact h.allocated fun t ht => cercoAlloc_bounds h.bounds range.1 range.2 ht
  | allocSticky n grants =>
    obtain ⟨range, e⟩ := Option.ite_none_right_eq_some.mp hs
    obtain rfl := Option.some.inj e
    exact h.allocated fun t ht => allocSticky_bounds h.bounds range.1 range.2 ht
  | rewind =>
    obtain rfl := Option.some.inj hs
    exact ⟨h.rewind, Nat.le_refl _, fun no => absurd rfl no⟩

theorem blockInv_start {c : Client} (h : blockSystem.start c) : BlockInv c := by
  obtain ⟨heapBase, pages, base_le, pages_le, rfl⟩ := h
  have stop : wrap32 (pages * page) = pages * page := by
    refine Nat.mod_eq_of_lt ?_
    unfold maxHeapPages page at *
    omega
  have ptr : wrap32 (heapBase + 15) / 16 * 16 ≤ pages * page := by
    unfold wrap32
    unfold maxHeapPages page at *
    omega
  refine ⟨⟨?_, ?_, ?_, ?_, ?_, Nat.zero_le _⟩, nofun, nofun, nofun, nofun, .nil⟩
  · change heapBase ≤ wrap32 (pages * page)
    rw [stop]
    exact base_le
  · change _ ≤ wrap32 (pages * page)
    rw [stop]
    exact ptr
  · change wrap32 (pages * page) ≤ _
    rw [stop]
    exact Nat.mul_le_mul_right page pages_le
  · change wrap32 (pages * page) % page = 0
    rw [stop, Nat.mul_mod_left]
  · exact Nat.le_of_eq stop

theorem reach_blockInv {c : Client} (h : Reach blockSystem anyStep c) : BlockInv c :=
  h.invariant (fun _ => blockInv_start) fun _ _ _ inv _ hs => (inv.step hs).1

/-- In every run blocks lie in the memory and in the heap, the floor does not sink and stays at or
below the pointer, sticky blocks are never handed out again, ordinary ones only behind a rewind, and a
failed call moves nothing. -/
theorem client_heap {c : Client} (h : Reach blockSystem anyStep c) :
    HeapSafe c ∧ ∀ e d, blockSystem.step c e = some d → StepSafe c e d := by
  have inv := reach_blockInv h
  refine ⟨⟨?_, ?_, inv.bounds.floor_le, inv.apart⟩, fun e d hs => (inv.step hs).2⟩
  · exact fun b hb => (inv.ends b hb).trans inv.bounds.end_mapped
  · exact fun b hb => (inv.ends b hb).trans inv.bounds.end_le

/-- A page allocates, the scratch region is made behind it, and the next page starts there. -/
def twoPages : List Event := [.alloc 40 0, .allocSticky 65536 1, .alloc 100 0, .rewind, .alloc 200 0]

theorem twoPages_safe : ∃ c, exec blockSystem ⟨heapInit 66560 2, 2 * page, 0, []⟩ twoPages = some c ∧
    (c.blocks.map fun b => b.region.base) = [132144, 132144, 66608, 66560] ∧
    HeapSafe c ∧ ∀ e d, blockSystem.step c e = some d → StepSafe c e d := by
  obtain ⟨c, hc⟩ : ∃ c, exec blockSystem ⟨heapInit 66560 2, 2 * page, 0, []⟩ twoPages = some c :=
    Option.isSome_iff_exists.mp (by decide +kernel)
  have bases : (some c).map (fun c => c.blocks.map fun b => b.region.base) =
      some [132144, 132144, 66608, 66560] := by
    rw [← hc]
    decide +kernel
  exact ⟨c, hc, Option.some.inj bases,
    client_heap (exec_reach twoPages (.start ⟨66560, 2, by decide, by decide, rfl⟩) (fun _ _ _ => trivial) hc)⟩

end Cerco.HeapBlocks
