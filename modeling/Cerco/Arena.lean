import Mathlib.Data.List.Basic

set_option autoImplicit false

/-!
# The arena allocator

Chunks are listed newest first, so the first one is `cur` and the last one is
`head`. `mem` answers the calls of malloc and `mallocs` counts them. The fields
after it are history: how often the arena was rewound, whether `arena_oom_fn`
ran, whether the source would dereference NULL or never return, and every
request made.
-/
namespace Cerco.Alloc

/-- `base` is the address behind the 24 bytes of the chunk's header. -/
structure Chunk where
  base : ℕ
  cap : ℕ
  used : ℕ
deriving DecidableEq

/-- One call of `cerco_arena_alloc`: its size and what the arena had left. -/
structure AllocCall where
  size : ℕ
  pad : ℕ
  room : ℕ
  total : ℕ
  hardCap : ℕ
deriving DecidableEq

/-- The address malloc returns for its `k`-th call, with the size asked for. -/
abbrev Malloc := ℕ → ℕ → Option ℕ

/-- malloc succeeds, with an address aligned for any object. -/
def Granted (mem : Malloc) : Prop := ∀ k n, ∃ p, mem k n = some p ∧ p % 8 = 0

structure Arena where
  chunks : List Chunk
  total : ℕ
  hardCap : ℕ
  oom : Bool
  mem : Malloc
  mallocs : ℕ
  epoch : ℕ
  policyRan : Bool
  stuck : Bool
  calls : List AllocCall

def chunkMax : ℕ := 4 * 1024 * 1024

def sizeofChunk : ℕ := 24

def Arena.zero (mem : Malloc) : Arena := ⟨[], 0, 0, false, mem, 0, 0, false, false, []⟩

def chunkNew (a : Arena) (cap : ℕ) : Option Chunk × Arena :=
  ((a.mem a.mallocs (sizeofChunk + cap)).map fun p => ⟨p + sizeofChunk, cap, 0⟩,
    { a with mallocs := a.mallocs + 1 })

/-- `cerco_arena_init` on memory that held `a`. -/
def arenaInit (a : Arena) (firstChunk hardCap : ℕ) : Arena :=
  let first := if firstChunk < 64 then 64 else firstChunk
  match chunkNew a first with
  | (some c, a) => { a with chunks := [c], total := first, hardCap := hardCap, oom := false }
  | (none, a) => { a with chunks := [], total := 0, hardCap := hardCap, oom := true }

def growCap (a : Arena) (need : ℕ) : ℕ :=
  let cap := match a.chunks with
    | c :: _ => c.cap * 2
    | [] => 8192
  let cap := if cap < need then need else cap
  if chunkMax < cap then chunkMax else cap

def arenaGrow (a : Arena) (need : ℕ) : Bool × Arena :=
  if a.hardCap ≠ 0 ∧ a.hardCap < a.total + need then (false, { a with oom := true })
  else
    match chunkNew a (growCap a need) with
    | (none, a) => (false, { a with oom := true })
    | (some c, a) =>
      -- the source stores through `a->cur`, which is NULL when there is no chunk
      (true, { a with chunks := c :: a.chunks, total := a.total + c.cap,
                      stuck := a.stuck || a.chunks.isEmpty })

def overCap (a : Arena) (need : ℕ) : Prop := a.hardCap ≠ 0 ∧ a.hardCap < a.total + need

instance (a : Arena) (need : ℕ) : Decidable (overCap a need) := inferInstanceAs (Decidable (_ ∧ _))

/-- The arena with another chunk at `p`. -/
def grown (a : Arena) (need p : ℕ) : Arena :=
  { a with
    mallocs := a.mallocs + 1
    chunks := ⟨p + sizeofChunk, growCap a need, 0⟩ :: a.chunks
    total := a.total + growCap a need
    stuck := a.stuck || a.chunks.isEmpty }

theorem arenaGrow_outcomes (a : Arena) (need : ℕ) :
    overCap a need ∧ arenaGrow a need = (false, { a with oom := true }) ∨
    (¬ overCap a need ∧ a.mem a.mallocs (sizeofChunk + growCap a need) = none ∧
      arenaGrow a need = (false, { a with mallocs := a.mallocs + 1, oom := true })) ∨
    (¬ overCap a need ∧ ∃ p, a.mem a.mallocs (sizeofChunk + growCap a need) = some p ∧
      arenaGrow a need = (true, grown a need p)) := by
  by_cases h : overCap a need
  · exact .inl ⟨h, if_pos h⟩
  · right
    have under : ¬ (a.hardCap ≠ 0 ∧ a.hardCap < a.total + need) := h
    rw [arenaGrow, if_neg under]
    cases hm : a.mem a.mallocs (sizeofChunk + growCap a need) with
    | none =>
      left
      simp only [chunkNew, hm, Option.map_none]
      exact ⟨h, trivial, trivial⟩
    | some p =>
      right
      refine ⟨h, p, rfl, ?_⟩
      simp only [chunkNew, hm, Option.map_some]
      rfl

/-- Bytes skipped to align `addr`; `align` is a power of two. -/
def padTo (addr align : ℕ) : ℕ := (addr + (align - 1)) / align * align - addr

/-- The `for (;;)` of `cerco_arena_alloc_aligned`, with the rounds left. -/
def allocLoop (size align : ℕ) : ℕ → Arena → Option ℕ × Arena
  | 0, a => (none, { a with stuck := true })
  | rounds + 1, a =>
    match a.chunks with
    | [] => (none, { a with stuck := true })
    | c :: cs =>
      let pad := padTo (c.base + c.used) align
      if pad + size ≤ c.cap - c.used then
        (some (c.base + c.used + pad), { a with chunks := { c with used := c.used + (pad + size) } :: cs })
      else
        match arenaGrow a size with
        | (true, a') => allocLoop size align rounds a'
        | (false, a') => (none, { a' with policyRan := true })

/-- Every round but the last adds a chunk, and a capped arena cannot add more
than `hardCap` of them. -/
def allocRounds (a : Arena) : ℕ := a.hardCap + 64

def callOf (a : Arena) (size align : ℕ) : AllocCall :=
  match a.chunks with
  | c :: _ => ⟨size, padTo (c.base + c.used) align, c.cap - c.used, a.total, a.hardCap⟩
  | [] => ⟨size, 0, 0, a.total, a.hardCap⟩

def arenaAllocAligned (a : Arena) (size align : ℕ) : Option ℕ × Arena :=
  let size := if size = 0 then 1 else size
  let a := { a with calls := a.calls ++ [callOf a size align] }
  if a.chunks.isEmpty then
    match arenaGrow a size with
    | (true, a') => allocLoop size align (allocRounds a) a'
    | (false, a') => (none, { a' with policyRan := true })
  else allocLoop size align (allocRounds a) a

def arenaAlloc (a : Arena) (size : ℕ) : Option ℕ × Arena := arenaAllocAligned a size 8

def arenaReset (a : Arena) : Arena :=
  match a.chunks.getLast? with
  | some h =>
    { a with chunks := [{ h with used := 0 }], total := h.cap, oom := false, epoch := a.epoch + 1 }
  | none => { a with chunks := [], total := 0, oom := false, epoch := a.epoch + 1 }

def arenaDestroy (a : Arena) : Arena :=
  { a with chunks := [], total := 0, hardCap := 0, oom := false, epoch := a.epoch + 1 }

def arenaFailed (a : Arena) : Bool := a.oom

/-- `b` is reached from `a` by allocations; an arena without chunks may be set up. -/
inductive Allocs : Arena → Arena → Prop
  | refl (a : Arena) : Allocs a a
  | alloc {a b : Arena} (h : Allocs a b) (size : ℕ) : Allocs a (arenaAlloc b size).2
  | init {a b : Arena} (h : Allocs a b) (empty : b.chunks.isEmpty = true) (first cap : ℕ) :
      Allocs a (arenaInit b first cap)

theorem Allocs.trans {a b c : Arena} (h₁ : Allocs a b) (h₂ : Allocs b c) : Allocs a c := by
  induction h₂ with
  | refl => exact h₁
  | alloc _ size ih => exact .alloc ih size
  | init _ empty first cap ih => exact .init ih empty first cap

theorem Allocs.one {a b : Arena} {size : ℕ} {p : Option ℕ} (h : arenaAlloc a size = (p, b)) :
    Allocs a b := by
  have := Allocs.alloc (.refl a) size
  rwa [h] at this

theorem arenaGrow_epoch (a : Arena) (need : ℕ) : (arenaGrow a need).2.epoch = a.epoch := by
  unfold arenaGrow chunkNew
  split
  · rfl
  · cases a.mem a.mallocs (sizeofChunk + growCap a need) <;> rfl

theorem allocLoop_epoch (size align rounds : ℕ) (a : Arena) :
    (allocLoop size align rounds a).2.epoch = a.epoch := by
  induction rounds generalizing a with
  | zero => rfl
  | succ rounds ih =>
    rw [allocLoop]
    split
    · rfl
    · dsimp only
      split
      · rfl
      · have grown := arenaGrow_epoch a size
        split
        · rename_i h
          rw [h] at grown
          exact (ih _).trans grown
        · rename_i h
          rw [h] at grown
          exact grown

theorem arenaAlloc_epoch (a : Arena) (size : ℕ) : (arenaAlloc a size).2.epoch = a.epoch := by
  unfold arenaAlloc arenaAllocAligned
  dsimp only
  split
  · split
    · rename_i h
      have grown := arenaGrow_epoch { a with calls := a.calls ++
        [callOf a (if size = 0 then 1 else size) 8] } (if size = 0 then 1 else size)
      rw [h] at grown
      exact (allocLoop_epoch _ _ _ _).trans grown
    · rename_i h
      have grown := arenaGrow_epoch { a with calls := a.calls ++
        [callOf a (if size = 0 then 1 else size) 8] } (if size = 0 then 1 else size)
      rw [h] at grown
      exact grown
  · exact allocLoop_epoch _ _ _ _

theorem arenaInit_epoch (a : Arena) (first cap : ℕ) : (arenaInit a first cap).epoch = a.epoch := by
  unfold arenaInit chunkNew
  dsimp only
  cases a.mem a.mallocs (sizeofChunk + if first < 64 then 64 else first) <;> rfl

theorem Allocs.epoch {a b : Arena} (h : Allocs a b) : b.epoch = a.epoch := by
  induction h with
  | refl => rfl
  | alloc _ size ih => rw [arenaAlloc_epoch, ih]
  | init _ _ first cap ih => rw [arenaInit_epoch, ih]

/-- No allocation so far came back empty or failed to come back. -/
def Arena.Served (a : Arena) : Prop := a.policyRan = false ∧ a.stuck = false

instance (a : Arena) : Decidable a.Served := inferInstanceAs (Decidable (_ ∧ _))

theorem arenaGrow_served {a a' : Arena} {need : ℕ} {grown : Bool}
    (h : arenaGrow a need = (grown, a')) (served : a'.Served) : a.Served := by
  unfold arenaGrow chunkNew at h
  split at h
  · obtain ⟨rfl, rfl⟩ := Prod.mk.inj h
    exact served
  · cases hm : a.mem a.mallocs (sizeofChunk + growCap a need) with
    | none =>
      rw [hm] at h
      obtain ⟨rfl, rfl⟩ := Prod.mk.inj h
      exact served
    | some p =>
      rw [hm] at h
      obtain ⟨rfl, rfl⟩ := Prod.mk.inj h
      exact ⟨served.1, (Bool.or_eq_false_iff.mp served.2).1⟩

theorem allocLoop_served {size align rounds : ℕ} {a : Arena}
    (served : (allocLoop size align rounds a).2.Served) :
    a.Served ∧ (allocLoop size align rounds a).1.isSome = true := by
  induction rounds generalizing a with
  | zero => exact Bool.noConfusion served.2
  | succ rounds ih =>
    rw [allocLoop] at served ⊢
    split at served
    · exact Bool.noConfusion served.2
    · dsimp only at served ⊢
      split at served
      · exact ⟨served, by simp [*]⟩
      · rename_i noFit
        rw [if_neg noFit]
        split at served
        · rename_i h
          obtain ⟨later, found⟩ := ih served
          exact ⟨arenaGrow_served h later, found⟩
        · exact Bool.noConfusion served.1

theorem arenaAlloc_served {a : Arena} {size : ℕ} (served : (arenaAlloc a size).2.Served) :
    a.Served ∧ (arenaAlloc a size).1.isSome = true := by
  unfold arenaAlloc arenaAllocAligned at served ⊢
  dsimp only at served ⊢
  split at served
  · rename_i empty
    rw [if_pos empty]
    split at served
    · rename_i h
      obtain ⟨later, found⟩ := allocLoop_served served
      have before := arenaGrow_served h later
      exact ⟨before, found⟩
    · exact Bool.noConfusion served.1
  · rename_i chunked
    rw [if_neg chunked]
    exact allocLoop_served served

theorem arenaInit_served {a : Arena} {first cap : ℕ} (served : (arenaInit a first cap).Served) :
    a.Served := by
  unfold arenaInit chunkNew at served
  dsimp only at served
  cases hm : a.mem a.mallocs (sizeofChunk + if first < 64 then 64 else first) <;> rw [hm] at served <;>
    exact served

theorem Allocs.served {a b : Arena} (h : Allocs a b) (served : b.Served) : a.Served := by
  induction h with
  | refl => exact served
  | alloc _ size ih => exact ih (arenaAlloc_served served).1
  | init _ _ first cap ih => exact ih (arenaInit_served served)

theorem arenaAlloc_fits {a : Arena} {c : Chunk} {cs : List Chunk} (chunk : a.chunks = c :: cs)
    {size : ℕ} (pos : size ≠ 0) (room : padTo (c.base + c.used) 8 + size ≤ c.cap - c.used) :
    (arenaAlloc a size).1.isSome = true := by
  unfold arenaAlloc arenaAllocAligned allocRounds
  dsimp only
  rw [if_neg pos, chunk, if_neg (by simp), allocLoop]
  dsimp only
  rw [if_pos room]
  rfl

end Cerco.Alloc
