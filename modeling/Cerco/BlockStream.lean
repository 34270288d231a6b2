import Mathlib.Data.List.Basic

set_option autoImplicit false

/-!
# Streams taken in whole blocks

A state is advanced by blocks of `n` elements. A stream that has been fed some
elements is described by the state after the whole blocks of them and by the
elements behind the last whole block; feeding more goes on from these two.
-/
namespace Cerco.BlockStream

universe u v
variable {α : Type u} {σ : Type v} (step : σ → List α → σ) (n : ℕ)

/-- `k` blocks from the front of the list. -/
def foldMany : ℕ → σ → List α → σ
  | 0, s, _ => s
  | k + 1, s, l => foldMany k (step s (l.take n)) (l.drop n)

def foldBlocks (s : σ) (l : List α) : σ := foldMany step n (l.length / n) s l

/-- What is behind the last whole block. -/
def rest (l : List α) : List α := l.drop (l.length / n * n)

theorem foldMany_append {k : ℕ} (s : σ) {l : List α} (m : List α) (whole : k * n ≤ l.length) :
    foldMany step n k s (l ++ m) = foldMany step n k s l := by
  induction k generalizing s l with
  | zero => rfl
  | succ k ih =>
    rw [Nat.succ_mul] at whole
    have first : n ≤ l.length := by omega
    rw [foldMany, foldMany, List.take_append_of_le_length first,
      List.drop_append_of_le_length first]
    exact ih _ (by rw [List.length_drop]; omega)

theorem foldMany_add (j k : ℕ) (s : σ) (l : List α) :
    foldMany step n (j + k) s l = foldMany step n k (foldMany step n j s l) (l.drop (j * n)) := by
  induction j generalizing s l with
  | zero => rw [Nat.zero_add, Nat.zero_mul, List.drop_zero, foldMany]
  | succ j ih =>
    rw [Nat.succ_add, foldMany, ih, foldMany, List.drop_drop, Nat.succ_mul, Nat.add_comm n]

variable {n}

theorem blocks_le (l : List α) : l.length / n * n ≤ l.length := Nat.div_mul_le_self _ _

theorem rest_length (l : List α) : (rest n l).length = l.length % n := by
  have split := Nat.div_add_mod l.length n
  rw [Nat.mul_comm] at split
  rw [rest, List.length_drop]
  omega

theorem rest_length_lt (pos : 0 < n) (l : List α) : (rest n l).length < n := by
  rw [rest_length]
  exact Nat.mod_lt _ pos

theorem blocks_append (pos : 0 < n) (l m : List α) :
    (l ++ m).length / n = l.length / n + (rest n l ++ m).length / n := by
  have split := Nat.div_add_mod l.length n
  have e : (l ++ m).length = (rest n l ++ m).length + n * (l.length / n) := by
    rw [List.length_append, List.length_append, rest_length]
    omega
  rw [e, Nat.add_mul_div_left _ _ pos, Nat.add_comm]

theorem drop_blocks (l m : List α) : (l ++ m).drop (l.length / n * n) = rest n l ++ m := by
  rw [List.drop_append_of_le_length (blocks_le l), rest]

theorem foldBlocks_append (pos : 0 < n) (s : σ) (l m : List α) :
    foldBlocks step n s (l ++ m) = foldBlocks step n (foldBlocks step n s l) (rest n l ++ m) := by
  rw [foldBlocks, blocks_append pos, foldMany_add, drop_blocks,
    foldMany_append step n s m (blocks_le l), foldBlocks, foldBlocks]

theorem rest_append (pos : 0 < n) (l m : List α) : rest n (l ++ m) = rest n (rest n l ++ m) := by
  rw [rest, blocks_append pos, Nat.add_mul, ← List.drop_drop, drop_blocks]
  rfl

theorem foldBlocks_short (s : σ) {l : List α} (short : l.length < n) :
    foldBlocks step n s l = s := by
  rw [foldBlocks, Nat.div_eq_of_lt short, foldMany]

theorem rest_short {l : List α} (short : l.length < n) : rest n l = l := by
  rw [rest, Nat.div_eq_of_lt short, Nat.zero_mul, List.drop_zero]

theorem foldBlocks_block (s : σ) {l : List α} (pos : 0 < n) (whole : l.length = n) :
    foldBlocks step n s l = step s l := by
  rw [foldBlocks, whole, Nat.div_self pos, foldMany, foldMany, ← whole, List.take_length]

theorem rest_block {l : List α} (pos : 0 < n) (whole : l.length = n) : rest n l = [] := by
  rw [rest, whole, Nat.div_self pos, Nat.one_mul, ← whole, List.drop_length]

end Cerco.BlockStream
