import Mathlib.Data.List.Basic

set_option autoImplicit false

/-!
# Where the steps of a run store

A block is an offset and a length. A step that appends pieces to a buffer stores
them one behind the other, and a run stores the blocks of its steps.
-/
namespace Cerco.BlockRuns

universe u v w

/-- The blocks that pieces take when they are stored one after the other from `len` on. -/
def blocksFrom {β : Type w} (len : ℕ) : List (List β) → List (ℕ × ℕ)
  | [] => []
  | p :: ps => (len, p.length) :: blocksFrom (len + p.length) ps

/-- The end of a block is at most `cap`. -/
def Within (cap : ℕ) (b : ℕ × ℕ) : Prop := b.1 + b.2 ≤ cap

theorem blocksFrom_within {β : Type w} {cap len : ℕ} (p : List β) (ps : List (List β)) :
    (∀ b ∈ blocksFrom len (p :: ps), Within cap b) ↔ len + (p :: ps).flatten.length ≤ cap := by
  induction ps generalizing len p with
  | nil =>
    simp only [blocksFrom, List.mem_singleton, forall_eq, List.flatten_cons, List.flatten_nil, List.append_nil]
    exact Iff.rfl
  | cons q ps ih =>
    rw [blocksFrom, List.forall_mem_cons, ih q]
    simp only [List.flatten_cons, List.length_append]
    change len + p.length ≤ cap ∧ _ ↔ _
    omega

variable {σ : Type u} {α : Type v}

def runBlocks (step : σ → α → σ) (blocks : σ → α → List (ℕ × ℕ)) : σ → List α → List (ℕ × ℕ)
  | _, [] => []
  | s, a :: as => blocks s a ++ runBlocks step blocks (step s a) as

/-- Every step of a run meets the condition in the state that it finds. -/
def EachStep (step : σ → α → σ) (ok : σ → α → Prop) : σ → List α → Prop
  | _, [] => True
  | s, a :: as => ok s a ∧ EachStep step ok (step s a) as

theorem runBlocks_within {step : σ → α → σ} {blocks : σ → α → List (ℕ × ℕ)} {ok : σ → α → Prop}
    {I : σ → Prop} {cap : ℕ} (keep : ∀ s a, I s → I (step s a))
    (each : ∀ s a, I s → ((∀ b ∈ blocks s a, Within cap b) ↔ ok s a)) {s : σ} (h : I s) (as : List α) :
    (∀ b ∈ runBlocks step blocks s as, Within cap b) ↔ EachStep step ok s as := by
  induction as generalizing s with
  | nil => exact ⟨fun _ => trivial, fun _ b hb => by cases hb⟩
  | cons a as ih => rw [runBlocks, List.forall_mem_append, each s a h, ih (keep s a h), EachStep]

theorem eachStep_congr {step : σ → α → σ} {ok good : σ → α → Prop} (h : ∀ s a, ok s a ↔ good s a) (s : σ)
    (as : List α) : EachStep step ok s as ↔ EachStep step good s as := by
  induction as generalizing s with
  | nil => exact Iff.rfl
  | cons a as ih => exact and_congr (h s a) (ih (step s a))

theorem EachStep.of_prefix {step : σ → α → σ} {ok : σ → α → Prop} {s : σ} {pre as : List α}
    (each : EachStep step ok s as) (h : pre <+: as) : EachStep step ok s pre := by
  induction pre generalizing s as with
  | nil => trivial
  | cons a pre ih =>
    obtain ⟨rest, rfl⟩ := h
    exact ⟨each.1, ih each.2 (List.prefix_append pre rest)⟩

theorem EachStep.invariant {step : σ → α → σ} {ok : σ → α → Prop} {I : σ → Prop}
    (keep : ∀ s a, I s → ok s a → I (step s a)) {s : σ} (h : I s) {as : List α}
    (each : EachStep step ok s as) : I (as.foldl step s) := by
  induction as generalizing s with
  | nil => exact h
  | cons a as ih => exact ih (keep s a h each.1) each.2

end Cerco.BlockRuns
