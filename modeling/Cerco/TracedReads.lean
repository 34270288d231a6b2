import Mathlib.Data.List.Basic

set_option autoImplicit false

/-!
# Computations that read a store

A `Reads` asks for the value at a key and goes on from the answer. Its trace on a
store are the keys it asks for, and a store that agrees on the trace gives the
same result.
-/
namespace Cerco.TracedReads

universe u v w

inductive Reads (κ : Type u) (ν : Type v) (α : Type w)
  | done (a : α)
  | ask (k : κ) (next : ν → Reads κ ν α)

variable {κ : Type u} {ν : Type v} {α : Type w}

def Reads.run (store : κ → ν) : Reads κ ν α → α
  | .done a => a
  | .ask k next => (next (store k)).run store

def Reads.trace (store : κ → ν) : Reads κ ν α → List κ
  | .done _ => []
  | .ask k next => k :: (next (store k)).trace store

theorem Reads.run_congr {store store' : κ → ν} (q : Reads κ ν α)
    (h : ∀ k ∈ q.trace store, store' k = store k) : q.run store' = q.run store := by
  induction q with
  | done a => rfl
  | ask k next ih =>
    have first : store' k = store k := h k List.mem_cons_self
    change (next (store' k)).run store' = (next (store k)).run store
    rw [first]
    exact ih (store k) fun l hl => h l (List.mem_cons_of_mem k hl)

end Cerco.TracedReads
