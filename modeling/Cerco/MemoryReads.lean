import Cerco.ByteMemory

set_option autoImplicit false

/-!
# Computations that read a memory

A computation is a tree whose inner nodes load a block and go on with its bytes,
so what it reads is not stated beside it but read off the same tree.
-/
namespace Cerco.MemoryReads
open Cerco.ByteMemory

universe u

inductive Reading (α : Type u)
  | done (a : α)
  | read (a n : ℕ) (k : List UInt8 → Reading α)

variable {α : Type u}

def Reading.run (m : Mem) : Reading α → α
  | .done a => a
  | .read a n k => (k (m.load a n)).run m

/-- Start and length of each block that is loaded, in order. -/
def Reading.log (m : Mem) : Reading α → List (ℕ × ℕ)
  | .done _ => []
  | .read a n k => (a, n) :: (k (m.load a n)).log m

def Agree (m m' : Mem) (blocks : List (ℕ × ℕ)) : Prop :=
  ∀ b ∈ blocks, m'.load b.1 b.2 = m.load b.1 b.2

theorem Reading.run_congr {m m' : Mem} {c : Reading α} (h : Agree m m' (c.log m)) :
    c.run m' = c.run m ∧ c.log m' = c.log m := by
  induction c with
  | done a => exact ⟨rfl, rfl⟩
  | read a n k ih =>
    have here : m'.load a n = m.load a n := h (a, n) List.mem_cons_self
    have rest := ih (m.load a n) fun b hb => h b (List.mem_cons_of_mem _ hb)
    rw [Reading.run, Reading.log, here]
    exact ⟨rest.1, congrArg ((a, n) :: ·) rest.2⟩

end Cerco.MemoryReads
