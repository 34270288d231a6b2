import Mathlib.Data.List.Basic

set_option autoImplicit false

/-!
# Words joined by a separator

The words of a list are its longest runs of elements that are kept. A pass that writes
one separator for each run of other elements joins the words.
-/
namespace Cerco.WordRuns

section
variable {α : Type} (keep : α → Bool) (sep : α)

/-- The longest runs of kept elements, in their order. -/
def words (xs : List α) : List (List α) := (xs.splitOnP fun x => !keep x).filter fun w => !w.isEmpty

def joined (ws : List (List α)) : List α := [sep].intercalate ws

def squeeze : Bool → List α → List α
  | _, [] => []
  | separated, x :: xs =>
    if keep x then x :: squeeze false xs
    else if separated then squeeze true xs
    else sep :: squeeze true xs

def trim [DecidableEq α] (xs : List α) : List α := if xs.getLast? = some sep then xs.dropLast else xs

variable {keep sep}

theorem joined_cons (w : List α) {ws : List (List α)} (more : ws ≠ []) :
    joined sep (w :: ws) = w ++ sep :: joined sep ws := by
  obtain ⟨v, ws, rfl⟩ := List.exists_cons_of_ne_nil more
  simp [joined]

theorem joined_head (x : α) (w : List α) (ws : List (List α)) :
    joined sep ((x :: w) :: ws) = x :: joined sep (w :: ws) := by
  cases ws with
  | nil => simp [joined]
  | cons v ws => rw [joined_cons _ (List.cons_ne_nil v ws), joined_cons _ (List.cons_ne_nil v ws)]; rfl

theorem split_kept {xs w : List α} (hw : w ∈ xs.splitOnP fun x => !keep x) :
    ∀ x ∈ w, keep x = true := by
  induction xs generalizing w with
  | nil =>
    rw [List.splitOnP_nil, List.mem_singleton] at hw
    subst hw
    intro x hx
    cases hx
  | cons y ys ih =>
    rw [List.splitOnP_cons_eq_if_modifyHead] at hw
    split at hw
    · obtain rfl | hw := List.mem_cons.mp hw
      · intro x hx
        cases hx
      · exact ih hw
    · rename_i kept
      obtain ⟨v, vs, e⟩ := List.exists_cons_of_ne_nil (List.splitOnP_ne_nil (fun x => !keep x) ys)
      rw [e, List.modifyHead_cons] at hw
      obtain rfl | hw := List.mem_cons.mp hw
      · intro x hx
        obtain rfl | hx := List.mem_cons.mp hx
        · simpa using kept
        · exact ih (e ▸ List.mem_cons_self) x hx
      · exact ih (e ▸ List.mem_cons_of_mem v hw)

theorem word_kept {xs w : List α} (hw : w ∈ words keep xs) : w ≠ [] ∧ ∀ x ∈ w, keep x = true := by
  obtain ⟨hw, full⟩ := List.mem_filter.mp hw
  exact ⟨by simpa using full, split_kept hw⟩

theorem words_joined (other : keep sep = false) {ws : List (List α)} (all : ∀ w ∈ ws, ∀ x ∈ w, keep x = true) :
    words keep (joined sep ws) = ws.filter fun w => !w.isEmpty := by
  induction ws with
  | nil => rfl
  | cons w ws ih =>
    have uncut : w.splitOnP (fun x => !keep x) = [w] :=
      List.splitOnP_eq_singleton fun x mem => by simp [all w List.mem_cons_self x mem]
    by_cases last : ws = []
    · subst last
      rw [joined, List.intercalate_singleton, words, uncut]
    · rw [joined_cons w last, words, List.splitOnP_append_cons w _ (by simp [other]), uncut, List.filter_append,
        ← words, ih fun v mem => all v (List.mem_cons_of_mem w mem), ← List.filter_append, List.singleton_append]

variable (keep sep) in
theorem squeeze_words (xs : List α) :
    (∃ tail, (tail = [] ∨ tail = [sep] ∧ words keep xs ≠ []) ∧
      squeeze keep sep true xs = joined sep (words keep xs) ++ tail) ∧
    ∃ w ws tail, xs.splitOnP (fun x => !keep x) = w :: ws ∧ (tail = [] ∨ tail = [sep]) ∧
      squeeze keep sep false xs = joined sep (w :: ws.filter fun w => !w.isEmpty) ++ tail := by
  induction xs with
  | nil => exact ⟨⟨[], .inl rfl, rfl⟩, [], [], [], rfl, .inl rfl, rfl⟩
  | cons x xs ih =>
    obtain ⟨⟨tail, htail, front⟩, w, ws, rest, e, hrest, back⟩ := ih
    cases kept : keep x with
    | true =>
      have split : (x :: xs).splitOnP (fun x => !keep x) = (x :: w) :: ws := by
        rw [List.splitOnP_cons_eq_if_modifyHead, e]
        simp [kept]
      have ws' : words keep (x :: xs) = (x :: w) :: ws.filter fun w => !w.isEmpty := by
        unfold words
        rw [split]
        rfl
      have out : ∀ flag, squeeze keep sep flag (x :: xs) =
          joined sep ((x :: w) :: ws.filter fun w => !w.isEmpty) ++ rest := by
        intro flag
        rw [squeeze, if_pos kept, back, joined_head]
        rfl
      refine ⟨⟨rest, ?_, ?_⟩, x :: w, ws, rest, split, hrest, out false⟩
      · exact hrest.imp id fun h => ⟨h, by rw [ws']; exact List.cons_ne_nil _ _⟩
      · rw [ws', out true]
    | false =>
      have split : (x :: xs).splitOnP (fun x => !keep x) = [] :: xs.splitOnP (fun x => !keep x) := by
        rw [List.splitOnP_cons_eq_if_modifyHead]
        simp [kept]
      have same : words keep (x :: xs) = words keep xs := by
        unfold words
        rw [split]
        rfl
      have plain : ¬ keep x = true := by simp [kept]
      refine ⟨⟨tail, ?_, ?_⟩, [], xs.splitOnP (fun x => !keep x), ?_⟩
      · rw [same]
        exact htail
      · rw [same, squeeze, if_neg plain, if_pos rfl]
        exact front
      · have out : squeeze keep sep false (x :: xs) = sep :: squeeze keep sep true xs := by
          rw [squeeze, if_neg plain, if_neg Bool.false_ne_true]
        change ∃ tail, _ ∧ _ ∧ _ = joined sep ([] :: words keep xs) ++ tail
        by_cases none : words keep xs = []
        · have empty : tail = [] := htail.resolve_right fun h => h.2 none
          refine ⟨[sep], split, .inr rfl, ?_⟩
          rw [out, front, none, empty]
          simp [joined]
        · refine ⟨tail, split, htail.imp id And.left, ?_⟩
          rw [out, front, joined_cons [] none]
          rfl

theorem joined_last {ws : List (List α)} (free : ∀ w ∈ ws, w ≠ [] ∧ sep ∉ w) :
    (joined sep ws).getLast? ≠ some sep := by
  induction ws with
  | nil => simp [joined]
  | cons w ws ih =>
    obtain ⟨full, notin⟩ := free w List.mem_cons_self
    by_cases more : ws = []
    · subst more
      intro last
      refine notin (List.mem_of_getLast? ?_)
      simpa [joined] using last
    · have rest := ih fun v hv => free v (List.mem_cons_of_mem w hv)
      have some : joined sep ws ≠ [] := by
        obtain ⟨v, vs, rfl⟩ := List.exists_cons_of_ne_nil more
        obtain ⟨y, v, rfl⟩ := List.exists_cons_of_ne_nil (free v (by simp)).1
        rw [joined_head]
        exact List.cons_ne_nil _ _
      rw [joined_cons w more, List.getLast?_append_of_ne_nil _ (List.cons_ne_nil _ _)]
      obtain ⟨y, ys, e⟩ := List.exists_cons_of_ne_nil some
      rw [e, List.getLast?_cons_cons, ← e]
      exact rest

theorem words_free (other : keep sep = false) (xs : List α) :
    ∀ w ∈ words keep xs, w ≠ [] ∧ sep ∉ w := by
  intro w hw
  obtain ⟨full, kept⟩ := word_kept hw
  refine ⟨full, fun h => ?_⟩
  rw [kept sep h] at other
  cases other

section
variable [DecidableEq α]

theorem trim_squeeze (other : keep sep = false) (xs : List α) (n : ℕ) :
    trim sep ((squeeze keep sep true xs).take n) = trim sep ((joined sep (words keep xs)).take n) := by
  obtain ⟨⟨tail, htail, e⟩, _⟩ := squeeze_words keep sep xs
  rw [e]
  obtain rfl | ⟨rfl, _⟩ := htail
  · rw [List.append_nil]
  · by_cases cut : n ≤ (joined sep (words keep xs)).length
    · rw [List.take_append_of_le_length cut]
    · have last := joined_last (words_free other xs)
      have whole : (joined sep (words keep xs) ++ [sep]).take n = joined sep (words keep xs) ++ [sep] :=
        List.take_of_length_le (by rw [List.length_append, List.length_singleton]; omega)
      rw [whole, List.take_of_length_le (by omega), trim, trim, if_neg last, List.getLast?_concat, if_pos rfl,
        List.dropLast_concat]

theorem joined_inj {ws vs : List (List α)} (hws : ∀ w ∈ ws, w ≠ [] ∧ sep ∉ w)
    (hvs : ∀ v ∈ vs, v ≠ [] ∧ sep ∉ v) (e : joined sep ws = joined sep vs) : ws = vs := by
  have some : ∀ us : List (List α), (∀ u ∈ us, u ≠ [] ∧ sep ∉ u) → joined sep us = [] → us = [] := by
    intro us hus none
    cases us with
    | nil => rfl
    | cons u us =>
      obtain ⟨y, u, rfl⟩ := List.exists_cons_of_ne_nil (hus u List.mem_cons_self).1
      rw [joined_head] at none
      cases none
  by_cases hw : ws = []
  · subst hw
    exact (some vs hvs e.symm).symm
  · have hv : vs ≠ [] := by
      rintro rfl
      exact hw (some ws hws e)
    calc ws = ([sep].intercalate ws).splitOn sep :=
          (List.splitOn_intercalate sep (fun w h => (hws w h).2) hw).symm
      _ = ([sep].intercalate vs).splitOn sep := congrArg (List.splitOn sep) e
      _ = vs := List.splitOn_intercalate sep (fun v h => (hvs v h).2) hv

end

end

end Cerco.WordRuns
