import Mathlib.Data.List.Basic
import Mathlib.Logic.Relation

set_option autoImplicit false

/-!
# Labelled runs and their invariants

A system is a start predicate and a partial step function on labels. `Reach`
collects the states of the runs whose every step meets a side condition, so an
invariant that needs an assumption about the environment is proved from the
step lemma alone.
-/
namespace Cerco.TransitionRuns

universe u v

structure System (σ : Type u) (α : Type v) where
  start : σ → Prop
  step : σ → α → Option σ

variable {σ : Type u} {α : Type v}

/-- States reached by steps that all satisfy `ok` in the state they leave. -/
inductive Reach (S : System σ α) (ok : σ → α → Prop) : σ → Prop
  | start {s : σ} : S.start s → Reach S ok s
  | step {s t : σ} {a : α} : Reach S ok s → ok s a → S.step s a = some t → Reach S ok t

def anyStep : σ → α → Prop := fun _ _ => True

theorem Reach.invariant {S : System σ α} {ok : σ → α → Prop} {I : σ → Prop}
    (base : ∀ s, S.start s → I s)
    (next : ∀ s a t, I s → ok s a → S.step s a = some t → I t)
    {s : σ} (h : Reach S ok s) : I s := by
  induction h with
  | start h0 => exact base _ h0
  | step _ hok hs ih => exact next _ _ _ ih hok hs

theorem Reach.invariant_with {S : System σ α} {ok : σ → α → Prop} {J I : σ → Prop}
    (known : ∀ s, Reach S ok s → J s)
    (base : ∀ s, S.start s → I s)
    (next : ∀ s a t, J s → I s → ok s a → S.step s a = some t → I t)
    {s : σ} (h : Reach S ok s) : I s := by
  induction h with
  | start h0 => exact base _ h0
  | step hr hok hs ih => exact next _ _ _ (known _ hr) ih hok hs

theorem Reach.mono {S : System σ α} {ok ok' : σ → α → Prop}
    (weaker : ∀ s a, ok s a → ok' s a) {s : σ} (h : Reach S ok s) : Reach S ok' s := by
  induction h with
  | start h0 => exact .start h0
  | step _ hok hs ih => exact .step ih (weaker _ _ hok) hs

def exec (S : System σ α) (s : σ) : List α → Option σ
  | [] => some s
  | a :: as => (S.step s a).bind fun t => exec S t as

theorem exec_reach {S : System σ α} {ok : σ → α → Prop} {s t : σ} (as : List α)
    (h : Reach S ok s) (hok : ∀ a ∈ as, ∀ s, ok s a) (he : exec S s as = some t) :
    Reach S ok t := by
  induction as generalizing s with
  | nil => cases he; exact h
  | cons a as ih =>
    obtain ⟨u, hu, ht⟩ := Option.bind_eq_some_iff.mp he
    exact ih (.step h (hok a List.mem_cons_self s) hu)
      (fun b hb => hok b (List.mem_cons_of_mem a hb)) ht

/-- Execute a list of labels while they meet a condition. -/
def execWhile (S : System σ α) (ok : σ → α → Prop) [∀ s a, Decidable (ok s a)] (s : σ) :
    List α → Option σ
  | [] => some s
  | a :: as => if ok s a then (S.step s a).bind fun t => execWhile S ok t as else none

theorem execWhile_reach {S : System σ α} {ok : σ → α → Prop} [∀ s a, Decidable (ok s a)] {s t : σ}
    (as : List α) (h : Reach S ok s) (he : execWhile S ok s as = some t) : Reach S ok t := by
  induction as generalizing s with
  | nil => cases he; exact h
  | cons a as ih =>
    rw [execWhile] at he
    split at he
    · obtain ⟨u, hu, ht⟩ := Option.bind_eq_some_iff.mp he
      exact ih (.step h ‹_› hu) ht
    · cases he

/-- Where every step of `S` looks through `view` like the step of `T` with the same label, so do
all runs. -/
theorem exec_view {τ : Type u} {S : System σ α} {T : System τ α} {I : σ → Prop} (view : σ → τ)
    (same : ∀ s a, I s → (S.step s a).map view = T.step (view s) a)
    (keep : ∀ s a t, I s → S.step s a = some t → I t) {s : σ} (h : I s) (as : List α) :
    (exec S s as).map view = exec T (view s) as ∧ ∀ t, exec S s as = some t → I t := by
  induction as generalizing s with
  | nil => exact ⟨rfl, fun t ht => Option.some.inj ht ▸ h⟩
  | cons a as ih =>
    have step := same s a h
    rw [exec, exec, ← step]
    cases ha : S.step s a with
    | none => exact ⟨rfl, nofun⟩
    | some u => exact ih (keep s a u h ha)

/-- `Steps ok s t`: some finite run of steps that meet `ok` leads from `s` to `t`. -/
inductive Steps (S : System σ α) (ok : σ → α → Prop) : σ → σ → Prop
  | refl (s : σ) : Steps S ok s s
  | head {s t u : σ} {a : α} : ok s a → S.step s a = some t → Steps S ok t u → Steps S ok s u

theorem Steps.of_measure {S : System σ α} {ok : σ → α → Prop} (m : σ → ℕ) (I goal : σ → Prop)
    (lower : ∀ s, I s → ¬ goal s → ∃ a t, ok s a ∧ S.step s a = some t ∧ I t ∧ m t < m s) :
    ∀ s, I s → ∃ t, Steps S ok s t ∧ I t ∧ goal t := by
  intro s
  induction hm : m s using Nat.strongRecOn generalizing s with
  | ind n ih =>
    intro hi
    by_cases hg : goal s
    · exact ⟨s, .refl s, hi, hg⟩
    · obtain ⟨a, t, hok, hs, ht, hlt⟩ := lower s hi hg
      obtain ⟨u, hu, hiu, hgu⟩ := ih (m t) (hm ▸ hlt) t rfl ht
      exact ⟨u, .head hok hs hu, hiu, hgu⟩

end Cerco.TransitionRuns
