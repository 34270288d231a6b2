import Mathlib.Data.List.Basic
import Mathlib.Data.Nat.ModEq
import Mathlib.Logic.Function.Basic

set_option autoImplicit false

/-!
# Ring buffers over any type

Head, tail and count over a fixed number of slots. `push` has no full check:
a caller that never pushes into a full ring gets a FIFO list, a caller that
does overwrites the oldest entry.
-/
namespace Cerco.RingBuffer

universe u

structure RingQueue (α : Type u) where
  cap : ℕ
  head : ℕ
  tail : ℕ
  count : ℕ
  slots : ℕ → α

variable {α : Type u}

namespace RingQueue

def empty (cap : ℕ) (blank : α) : RingQueue α := ⟨cap, 0, 0, 0, fun _ => blank⟩

def push (r : RingQueue α) (x : α) : RingQueue α :=
  { r with
    slots := Function.update r.slots r.tail x
    tail := (r.tail + 1) % r.cap
    count := r.count + 1 }

def front (r : RingQueue α) : α := r.slots r.head

def pop (r : RingQueue α) : RingQueue α :=
  { r with head := (r.head + 1) % r.cap, count := r.count - 1 }

/-- The entry a `push` destroys: none while there is room. -/
def overwritten (r : RingQueue α) : List α :=
  if r.count < r.cap then [] else [r.slots r.tail]

/-- The entries between head and tail, oldest first. -/
def contents (r : RingQueue α) : List α :=
  (List.range r.count).map fun i => r.slots ((r.head + i) % r.cap)

/-- The indices agree with each other; nothing is said about `count ≤ cap`. -/
structure Indexed (r : RingQueue α) : Prop where
  head_mod : r.head % r.cap = r.head
  tail_eq : r.tail = (r.head + r.count) % r.cap

@[simp] theorem contents_length (r : RingQueue α) : r.contents.length = r.count := by
  simp [contents]

@[simp] theorem push_cap (r : RingQueue α) (x : α) : (r.push x).cap = r.cap := rfl
@[simp] theorem push_count (r : RingQueue α) (x : α) : (r.push x).count = r.count + 1 := rfl
@[simp] theorem pop_cap (r : RingQueue α) : r.pop.cap = r.cap := rfl
@[simp] theorem pop_count (r : RingQueue α) : r.pop.count = r.count - 1 := rfl
@[simp] theorem empty_cap (cap : ℕ) (blank : α) : (empty cap blank).cap = cap := rfl
@[simp] theorem empty_count (cap : ℕ) (blank : α) : (empty cap blank).count = 0 := rfl
@[simp] theorem empty_contents (cap : ℕ) (blank : α) : (empty cap blank).contents = [] := rfl

theorem empty_indexed (cap : ℕ) (blank : α) : (empty cap blank).Indexed :=
  ⟨Nat.zero_mod cap, by simp [empty]⟩

theorem push_indexed {r : RingQueue α} (h : r.Indexed) (x : α) : (r.push x).Indexed := by
  refine ⟨h.head_mod, ?_⟩
  change (r.tail + 1) % r.cap = (r.head + (r.count + 1)) % r.cap
  rw [h.tail_eq, Nat.mod_add_mod, Nat.add_assoc]

theorem pop_indexed {r : RingQueue α} (h : r.Indexed) (hc : 0 < r.count) : r.pop.Indexed := by
  refine ⟨Nat.mod_mod _ _, ?_⟩
  change r.tail = ((r.head + 1) % r.cap + (r.count - 1)) % r.cap
  rw [h.tail_eq, Nat.mod_add_mod]
  congr 1
  omega

theorem slot_ne {cap head i n : ℕ} (hi : i < n) (hn : n < cap) :
    (head + i) % cap ≠ (head + n) % cap := by
  intro he
  have same : i ≡ n [MOD cap] := Nat.ModEq.add_left_cancel' head he
  have := Nat.ModEq.eq_of_lt_of_lt same (hi.trans hn) hn
  omega

theorem push_contents {r : RingQueue α} (h : r.Indexed) (x : α) (room : r.count < r.cap) :
    (r.push x).contents = r.contents ++ [x] := by
  have old : ∀ i ∈ List.range r.count,
      Function.update r.slots r.tail x ((r.head + i) % r.cap) = r.slots ((r.head + i) % r.cap) := by
    intro i hi
    apply Function.update_of_ne
    rw [h.tail_eq]
    exact slot_ne (List.mem_range.mp hi) room
  have last : Function.update r.slots r.tail x ((r.head + r.count) % r.cap) = x := by
    rw [← h.tail_eq, Function.update_self]
  change (List.range (r.count + 1)).map
    (fun i => Function.update r.slots r.tail x ((r.head + i) % r.cap)) = _
  rw [List.range_succ, List.map_append, List.map_congr_left old, List.map_singleton, last]
  rfl

theorem contents_pop {r : RingQueue α} (h : r.Indexed) (hc : 0 < r.count) :
    r.contents = r.front :: r.pop.contents := by
  obtain ⟨n, hn⟩ : ∃ n, r.count = n + 1 := ⟨r.count - 1, by omega⟩
  have shift : ∀ i, ((r.head + 1) % r.cap + i) % r.cap = (r.head + (i + 1)) % r.cap := by
    intro i
    rw [Nat.mod_add_mod]
    congr 1
    omega
  change (List.range r.count).map _ =
    r.slots r.head :: (List.range (r.count - 1)).map
      (fun i => r.slots (((r.head + 1) % r.cap + i) % r.cap))
  rw [hn, Nat.add_sub_cancel, List.range_succ_eq_map, List.map_cons, List.map_map]
  congr 1
  · rw [Nat.add_zero, h.head_mod]
  · apply List.map_congr_left
    intro i _
    simp only [Function.comp, shift]

theorem mem_push {r : RingQueue α} (h : r.Indexed) {x y : α} (hy : y ∈ (r.push x).contents) :
    y = x ∨ y ∈ r.contents := by
  obtain ⟨i, hi, rfl⟩ := List.mem_map.mp hy
  have bound : i < r.count + 1 := List.mem_range.mp hi
  change Function.update r.slots r.tail x ((r.head + i) % r.cap) = x ∨
    Function.update r.slots r.tail x ((r.head + i) % r.cap) ∈ r.contents
  by_cases hs : (r.head + i) % r.cap = r.tail
  · left
    rw [hs, Function.update_self]
  · right
    rw [Function.update_of_ne hs]
    have lt : i < r.count := by
      refine lt_of_le_of_ne (Nat.le_of_lt_succ bound) fun e => hs ?_
      rw [e, h.tail_eq]
    exact List.mem_map.mpr ⟨i, List.mem_range.mpr lt, rfl⟩

theorem overwritten_eq_nil {r : RingQueue α} (room : r.count < r.cap) : r.overwritten = [] := by
  simp [overwritten, room]

end RingQueue
end Cerco.RingBuffer
