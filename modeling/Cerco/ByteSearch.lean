import Mathlib.Data.List.Basic

set_option autoImplicit false

/-!
# The first occurrence of a text

Where a needle stands first, from the splits of a text around it.
-/
namespace Cerco.ByteSearch

universe u
variable {α : Type u}

/-- `needle` stands behind `pre` and nowhere before. -/
structure FirstAt (needle s pre post : List α) : Prop where
  split : s = pre ++ needle ++ post
  first : ∀ p q, s = p ++ needle ++ q → pre.length ≤ p.length

theorem occurs_split {needle s : List α} {i : ℕ} (h : (s.drop i).take needle.length = needle) (le : i ≤ s.length) :
    s = s.take i ++ needle ++ s.drop (i + needle.length) ∧ (s.take i).length = i := by
  constructor
  · conv_lhs => rw [← List.take_append_drop i s, ← List.take_append_drop needle.length (s.drop i), h]
    rw [List.drop_drop, List.append_assoc]
  · rw [List.length_take, Nat.min_eq_left le]

theorem split_occurs {needle s p q : List α} (h : s = p ++ needle ++ q) :
    (s.drop p.length).take needle.length = needle ∧ p.length + needle.length ≤ s.length := by
  subst h
  constructor
  · rw [List.append_assoc, List.drop_left, List.take_left]
  · simp only [List.length_append]
    omega

theorem FirstAt.unique {needle s pre post pre' post' : List α} (h : FirstAt needle s pre post)
    (h' : FirstAt needle s pre' post') : pre = pre' ∧ post = post' := by
  have len : pre.length = pre'.length := Nat.le_antisymm (h.first _ _ h'.split) (h'.first _ _ h.split)
  have same := h.split.symm.trans h'.split
  rw [List.append_assoc, List.append_assoc] at same
  obtain ⟨front, back⟩ := List.append_inj same len
  exact ⟨front, List.append_cancel_left back⟩

theorem firstAt_here {needle s : List α} (h : needle <+: s) : FirstAt needle s [] (s.drop needle.length) := by
  obtain ⟨post, rfl⟩ := h
  refine ⟨?_, fun _ _ _ => Nat.zero_le _⟩
  rw [List.drop_left, List.nil_append]

theorem firstAt_later {needle s pre post : List α} {c : α} (no : ¬ needle <+: c :: s)
    (h : FirstAt needle s pre post) : FirstAt needle (c :: s) (c :: pre) post := by
  constructor
  · rw [h.split]
    rfl
  · intro p q e
    cases p with
    | nil => exact absurd ⟨q, e.symm⟩ no
    | cons d p => exact Nat.succ_le_succ (h.first p q (List.cons.inj e).2)

theorem absent_cons {needle s : List α} {c : α} (no : ¬ needle <+: c :: s)
    (h : ∀ p q, s ≠ p ++ needle ++ q) (p q : List α) : c :: s ≠ p ++ needle ++ q := by
  intro e
  cases p with
  | nil => exact no ⟨q, e.symm⟩
  | cons d p => exact h p q (List.cons.inj e).2

end Cerco.ByteSearch
