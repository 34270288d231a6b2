import Mathlib.Data.List.Basic
import Mathlib.Logic.Function.Basic
import Mathlib.Order.Nat

set_option autoImplicit false

/-!
# Regions handed out by a bump pointer

An allocator hands out what lies above its pointer. Some regions are kept in
named slots, and the list `blocks` remembers what was handed out since the last
rewind. Everything stays apart as long as all of it lies below the pointer, and a
rewind keeps that only when no slot reaches above the new pointer.
-/
namespace Cerco.BumpRegions

structure Region where
  base : ℕ
  size : ℕ
deriving DecidableEq

def Region.stop (r : Region) : ℕ := r.base + r.size

def Region.Apart (r q : Region) : Prop := r.stop ≤ q.base ∨ q.stop ≤ r.base

instance (r q : Region) : Decidable (r.Apart q) := inferInstanceAs (Decidable (_ ∨ _))

theorem Region.Apart.symm {r q : Region} (h : r.Apart q) : q.Apart r := Or.symm h

def Region.Within (r q : Region) : Prop := q.base ≤ r.base ∧ r.stop ≤ q.stop

theorem Region.Apart.within {r q r' q' : Region} (h : r.Apart q) (hr : r'.Within r)
    (hq : q'.Within q) : r'.Apart q' := by
  obtain h | h := h
  · exact .inl (hr.2.trans (h.trans hq.1))
  · exact .inr (hq.2.trans (h.trans hr.1))

universe u
variable {ι : Type u}

structure Held (ι : Type u) where
  slots : ι → Option Region
  blocks : List (Option ι × Region)

def Held.empty : Held ι := ⟨fun _ => none, []⟩

def Held.give [DecidableEq ι] (h : Held ι) (owner : Option ι) (r : Region) : Held ι :=
  { slots := match owner with
      | none => h.slots
      | some i => Function.update h.slots i (some r)
    blocks := (owner, r) :: h.blocks }

def Held.forget (h : Held ι) : Held ι := { h with blocks := [] }

/-- The slots are pairwise apart, and every block is apart from every slot, unless it is the
block of that slot. -/
structure Held.Separate (h : Held ι) : Prop where
  slots : ∀ i j r q, i ≠ j → h.slots i = some r → h.slots j = some q → r.Apart q
  blocks : ∀ i r, h.slots i = some r → ∀ b ∈ h.blocks, b = (some i, r) ∨ r.Apart b.2

structure Held.Stacked (h : Held ι) (top : ℕ) : Prop where
  separate : h.Separate
  slots_le : ∀ i r, h.slots i = some r → r.stop ≤ top
  blocks_le : ∀ b ∈ h.blocks, b.2.stop ≤ top

theorem Held.empty_stacked (top : ℕ) : (Held.empty : Held ι).Stacked top := by
  refine ⟨⟨?_, ?_⟩, ?_, ?_⟩
  · intro i j r q _ hr
    cases hr
  · intro i r hr
    cases hr
  · intro i r hr
    cases hr
  · intro b hb
    cases hb

section
variable [DecidableEq ι]

theorem Held.give_slot {h : Held ι} {owner : Option ι} {r q : Region} {i : ι}
    (hq : (h.give owner r).slots i = some q) :
    (owner = some i ∧ q = r) ∨ (owner ≠ some i ∧ h.slots i = some q) := by
  cases owner with
  | none => exact .inr ⟨by simp, hq⟩
  | some j =>
    by_cases same : i = j
    · subst same
      have e : (h.give (some i) r).slots i = some r := by
        simp [Held.give]
      rw [e] at hq
      exact .inl ⟨rfl, (Option.some.inj hq).symm⟩
    · have e : (h.give (some j) r).slots i = h.slots i := by
        simp [Held.give, same]
      rw [e] at hq
      exact .inr ⟨fun eq => same (Option.some.inj eq).symm, hq⟩

theorem Held.Stacked.give {h : Held ι} {top top' : ℕ} {r : Region} (hs : h.Stacked top)
    (above : top ≤ r.base) (below : r.stop ≤ top') (owner : Option ι) :
    (h.give owner r).Stacked top' := by
  have forward : r.base ≤ r.stop := Nat.le_add_right r.base r.size
  have grows : top ≤ top' := above.trans (forward.trans below)
  have old_apart : ∀ i q, h.slots i = some q → q.Apart r :=
    fun i q hq => .inl ((hs.slots_le i q hq).trans above)
  refine ⟨⟨?_, ?_⟩, ?_, ?_⟩
  · intro i j q p ne gq gp
    obtain ⟨oi, rfl⟩ | ⟨_, hq⟩ := give_slot gq
    · obtain ⟨oj, _⟩ | ⟨_, hp⟩ := give_slot gp
      · exact absurd (Option.some.inj (oi.symm.trans oj)) ne
      · exact (old_apart j p hp).symm
    · obtain ⟨_, rfl⟩ | ⟨_, hp⟩ := give_slot gp
      · exact old_apart i q hq
      · exact hs.separate.slots i j q p ne hq hp
  · intro i q gq b hb
    obtain ⟨oi, rfl⟩ | ⟨_, hq⟩ := give_slot gq
    · obtain rfl | hb := List.mem_cons.mp hb
      · exact .inl (by rw [oi])
      · exact .inr (.inr ((hs.blocks_le b hb).trans above))
    · obtain rfl | hb := List.mem_cons.mp hb
      · exact .inr (old_apart i q hq)
      · exact hs.separate.blocks i q hq b hb
  · intro i q gq
    obtain ⟨_, rfl⟩ | ⟨_, hq⟩ := give_slot gq
    · exact below
    · exact (hs.slots_le i q hq).trans grows
  · intro b hb
    obtain rfl | hb := List.mem_cons.mp hb
    · exact below
    · exact (hs.blocks_le b hb).trans grows

end

theorem Held.Stacked.forget {h : Held ι} {top top' : ℕ} (hs : h.Stacked top)
    (kept : ∀ i r, h.slots i = some r → r.stop ≤ top') : h.forget.Stacked top' := by
  refine ⟨⟨hs.separate.slots, ?_⟩, kept, ?_⟩
  · intro i r _ b hb
    cases hb
  · intro b hb
    cases hb

theorem Held.give_overlaps [DecidableEq ι] {h : Held ι} {i : ι} {r q : Region} (held : h.slots i = some r)
    (low : q.base < r.stop) (high : r.base < q.stop) : ¬ (h.give none q).Separate := by
  intro sep
  obtain e | e := sep.blocks i r held (none, q) List.mem_cons_self
  · exact absurd (congrArg Prod.fst e) (by simp)
  · obtain e | e := e
    · exact absurd low (Nat.not_lt.mpr e)
    · exact absurd high (Nat.not_lt.mpr e)

end Cerco.BumpRegions
