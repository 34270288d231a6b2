import Mathlib.Data.List.Basic

set_option autoImplicit false

/-!
# Patterns over sequences of segments

A pattern is matched segment by segment; `rest` takes whatever is left. Texts
are cut at a separator, and one empty segment at the end is dropped.
-/
namespace Cerco.SegmentPattern

inductive Pat (σ : Type) where
  | lit (s : σ)
  | one
  | rest
deriving DecidableEq

section Matching
variable {σ : Type} (same : σ → σ → Prop)

inductive Matches : List (Pat σ) → List σ → Prop
  | nil : Matches [] []
  | lit {s t : σ} {ps : List (Pat σ)} {ts : List σ} :
      same s t → Matches ps ts → Matches (.lit s :: ps) (t :: ts)
  | one {t : σ} {ps : List (Pat σ)} {ts : List σ} : Matches ps ts → Matches (.one :: ps) (t :: ts)
  | rest {ts : List σ} : Matches [.rest] ts

/-- Reads the pattern left to right and stops at the first `rest`. -/
def run (same : σ → σ → Bool) : List (Pat σ) → List σ → Bool
  | [], ts => ts.isEmpty
  | .rest :: _, _ => true
  | .lit s :: ps, t :: ts => same s t && run same ps ts
  | .one :: ps, _ :: ts => run same ps ts
  | _ :: _, [] => false

/-- `rest` may only be the last segment of a pattern. -/
def RestLast (ps : List (Pat σ)) : Prop := .rest ∉ ps.dropLast

instance [DecidableEq σ] (ps : List (Pat σ)) : Decidable (RestLast ps) :=
  inferInstanceAs (Decidable (¬ _ ∈ _))

theorem RestLast.tail {p : Pat σ} {ps : List (Pat σ)} (h : RestLast (p :: ps)) : RestLast ps := by
  cases ps with
  | nil => simp [RestLast]
  | cons q qs =>
    simp only [RestLast, List.dropLast_cons_cons, List.mem_cons, not_or] at h
    exact h.2

theorem RestLast.rest_cons {ps : List (Pat σ)} (h : RestLast (.rest :: ps)) : ps = [] := by
  cases ps with
  | nil => rfl
  | cons q qs => simp [RestLast] at h

variable {same}

theorem run_iff {eqb : σ → σ → Bool} (he : ∀ s t, eqb s t = true ↔ same s t)
    {ps : List (Pat σ)} (h : RestLast ps) (ts : List σ) :
    run eqb ps ts = true ↔ Matches same ps ts := by
  induction ps generalizing ts with
  | nil =>
    cases ts with
    | nil => simp [run, Matches.nil]
    | cons t ts =>
      simp only [run, List.isEmpty_cons, Bool.false_eq_true, false_iff]
      intro hm
      cases hm
  | cons p ps ih =>
    cases p with
    | rest =>
      obtain rfl := h.rest_cons
      exact ⟨fun _ => .rest, fun _ => rfl⟩
    | lit s =>
      cases ts with
      | nil =>
        simp only [run, Bool.false_eq_true, false_iff]
        intro hm
        cases hm
      | cons t ts =>
        simp only [run, Bool.and_eq_true, he, ih h.tail ts]
        constructor
        · rintro ⟨hs, hm⟩
          exact .lit hs hm
        · intro hm
          cases hm with
          | lit hs hm => exact ⟨hs, hm⟩
    | one =>
      cases ts with
      | nil =>
        simp only [run, Bool.false_eq_true, false_iff]
        intro hm
        cases hm
      | cons t ts =>
        simp only [run, ih h.tail ts]
        constructor
        · exact .one
        · intro hm
          cases hm with
          | one hm => exact hm

end Matching

section Comparing
variable {σ : Type} {same : σ → σ → Prop}

inductive PatSame (same : σ → σ → Prop) : Pat σ → Pat σ → Prop
  | lit {s t : σ} : same s t → PatSame same (.lit s) (.lit t)
  | one : PatSame same .one .one
  | rest : PatSame same .rest .rest

/-- Nothing behind the first `rest` counts. -/
def stopAtRest : List (Pat σ) → List (Pat σ)
  | [] => []
  | .rest :: _ => [.rest]
  | .lit s :: ps => .lit s :: stopAtRest ps
  | .one :: ps => .one :: stopAtRest ps

theorem stopAtRest_length (ps : List (Pat σ)) : (stopAtRest ps).length ≤ ps.length := by
  induction ps with
  | nil => exact Nat.le_refl _
  | cons p ps ih =>
    cases p with
    | rest => exact Nat.succ_le_succ (Nat.zero_le _)
    | lit s => exact Nat.succ_le_succ ih
    | one => exact Nat.succ_le_succ ih

theorem RestLast.cons {p : Pat σ} {ps : List (Pat σ)} (hp : p ≠ .rest) (h : RestLast ps) :
    RestLast (p :: ps) := by
  cases ps with
  | nil => simp [RestLast]
  | cons q qs =>
    rw [RestLast, List.dropLast_cons_cons, List.mem_cons, not_or]
    exact ⟨Ne.symm hp, h⟩

theorem stopAtRest_restLast (ps : List (Pat σ)) : RestLast (stopAtRest ps) := by
  induction ps with
  | nil => simp [stopAtRest, RestLast]
  | cons p ps ih =>
    cases p with
    | rest => simp [stopAtRest, RestLast]
    | lit s => exact ih.cons (by simp)
    | one => exact ih.cons (by simp)

theorem run_stopAtRest (eqb : σ → σ → Bool) (ps : List (Pat σ)) (ts : List σ) :
    run eqb (stopAtRest ps) ts = run eqb ps ts := by
  induction ps generalizing ts with
  | nil => rfl
  | cons p ps ih =>
    cases p with
    | rest => cases ts <;> rfl
    | lit s =>
      cases ts with
      | nil => rfl
      | cons t ts => exact congrArg (eqb s t && ·) (ih ts)
    | one =>
      cases ts with
      | nil => rfl
      | cons t ts => exact ih ts

/-- A text for each pattern, with `d` where anything will do. -/
def sample (d : σ) : List (Pat σ) → List σ
  | [] => []
  | .rest :: _ => []
  | .lit s :: ps => s :: sample d ps
  | .one :: ps => d :: sample d ps

theorem sample_length (d : σ) (ps : List (Pat σ)) : (sample d ps).length ≤ ps.length := by
  induction ps with
  | nil => exact Nat.le_refl _
  | cons p ps ih =>
    cases p with
    | rest => exact Nat.zero_le _
    | lit s => exact Nat.succ_le_succ ih
    | one => exact Nat.succ_le_succ ih

theorem sample_matches (refl : ∀ s, same s s) (d : σ) {ps : List (Pat σ)} (h : RestLast ps) :
    Matches same ps (sample d ps) := by
  induction ps with
  | nil => exact .nil
  | cons p ps ih =>
    cases p with
    | rest =>
      obtain rfl := h.rest_cons
      exact .rest
    | lit s => exact .lit (refl s) (ih h.tail)
    | one => exact .one (ih h.tail)

theorem sample_mem {d : σ} {ps : List (Pat σ)} {t : σ} (h : t ∈ sample d ps) : t = d ∨ .lit t ∈ ps := by
  induction ps with
  | nil => cases h
  | cons p ps ih =>
    cases p with
    | rest => cases h
    | lit s =>
      rcases List.mem_cons.mp h with rfl | h
      · exact .inr List.mem_cons_self
      · exact (ih h).imp_right (List.mem_cons_of_mem _)
    | one =>
      rcases List.mem_cons.mp h with rfl | h
      · exact .inl rfl
      · exact (ih h).imp_right (List.mem_cons_of_mem _)

theorem matches_lit {s t : σ} {ps : List (Pat σ)} {ts : List σ} :
    Matches same (.lit s :: ps) (t :: ts) ↔ same s t ∧ Matches same ps ts := by
  constructor
  · intro h
    cases h with
    | lit hs h => exact ⟨hs, h⟩
  · exact fun h => .lit h.1 h.2

theorem matches_one {t : σ} {ps : List (Pat σ)} {ts : List σ} :
    Matches same (.one :: ps) (t :: ts) ↔ Matches same ps ts := by
  constructor
  · intro h
    cases h with
    | one h => exact h
  · exact .one

theorem matches_nil {ps : List (Pat σ)} (h : Matches same ps []) : ps = [] ∨ ps = [.rest] := by
  cases h with
  | nil => exact .inl rfl
  | rest => exact .inr rfl

/-- Two patterns that match the same texts are the same. Texts of good segments that are at
most one longer than the first pattern are enough. -/
theorem same_patterns {good : σ → Prop} (refl : ∀ s, same s s)
    (symm : ∀ {s t}, same s t → same t s) {d : σ} (hd : good d)
    (rich : ∀ s, ∃ t, good t ∧ ¬ same s t) {ps qs : List (Pat σ)} (hp : RestLast ps)
    (hq : RestLast qs) (lits : ∀ s, .lit s ∈ ps → good s)
    (h : ∀ ts, (∀ t ∈ ts, good t) → ts.length ≤ ps.length + 1 →
      (Matches same ps ts ↔ Matches same qs ts)) : List.Forall₂ (PatSame same) ps qs := by
  induction ps generalizing qs with
  | nil =>
    have single := h [d] (by simpa using hd) (Nat.le_refl _)
    rcases matches_nil ((h [] (by simp) (Nat.zero_le _)).mp .nil) with rfl | rfl
    · exact .nil
    · cases single.mpr .rest
  | cons p ps ih =>
    have tailLits : ∀ s, .lit s ∈ ps → good s := fun s hs => lits s (List.mem_cons_of_mem p hs)
    have goodSample : ∀ t ∈ sample d ps, good t := by
      intro t ht
      rcases sample_mem ht with rfl | ht
      · exact hd
      · exact tailLits t ht
    have short := sample_length d ps
    have inner : Matches same ps (sample d ps) := sample_matches refl d hp.tail
    have goodCons : ∀ t, good t → ∀ ts, (∀ u ∈ ts, good u) → ∀ u ∈ t :: ts, good u := by
      intro t ht ts hts u hu
      rcases List.mem_cons.mp hu with rfl | hu
      · exact ht
      · exact hts u hu
    cases p with
    | rest =>
      obtain rfl := hp.rest_cons
      rcases matches_nil ((h [] (by simp) (Nat.zero_le _)).mp .rest) with rfl | rfl
      · cases (h [d] (by simpa using hd) (by simp)).mp .rest
      · exact List.Forall₂.cons .rest .nil
    | lit s =>
      have hs := lits s List.mem_cons_self
      have own := (h (s :: sample d ps) (goodCons s hs _ goodSample) (by simp; omega)).mp
        (.lit (refl s) inner)
      obtain ⟨t, ht, other⟩ := rich s
      cases own with
      | rest =>
        cases (h [] (by simp) (Nat.zero_le _)).mpr .rest
      | one m =>
        have wrong := (h (t :: sample d ps) (goodCons t ht _ goodSample) (by simp; omega)).mpr (.one m)
        exact absurd (matches_lit.mp wrong).1 other
      | lit hus _ =>
        refine .cons (.lit (symm hus)) (ih hp.tail hq.tail tailLits fun ts hts len => ?_)
        have both := h (s :: ts) (goodCons s hs ts hts) (by simpa using len)
        rw [matches_lit, matches_lit] at both
        exact ⟨fun m => (both.mp ⟨refl s, m⟩).2, fun m => (both.mpr ⟨hus, m⟩).2⟩
    | one =>
      have own := (h (d :: sample d ps) (goodCons d hd _ goodSample) (by simp; omega)).mp (.one inner)
      cases own with
      | rest => cases (h [] (by simp) (Nat.zero_le _)).mpr .rest
      | lit hud m =>
        rename_i u _
        obtain ⟨t, ht, other⟩ := rich u
        have wrong := (h (t :: sample d ps) (goodCons t ht _ goodSample) (by simp; omega)).mp (.one inner)
        exact absurd (matches_lit.mp wrong).1 other
      | one _ =>
        refine .cons .one (ih hp.tail hq.tail tailLits fun ts hts len => ?_)
        have both := h (d :: ts) (goodCons d hd ts hts) (by simpa using len)
        rw [matches_one, matches_one] at both
        exact both

end Comparing

section Splitting
variable {α : Type} [DecidableEq α]

def dropTrailing (l : List (List α)) : List (List α) :=
  if l.getLast? = some [] then l.dropLast else l

/-- The segments of `p` between the separators. -/
def cut (sep : α) (p : List α) : List (List α) := dropTrailing (p.splitOn sep)

theorem cut_nil (sep : α) : cut sep [] = [] := by
  rw [cut, List.splitOn_eq_singleton (by simp)]
  simp [dropTrailing]

theorem cut_of_notMem {sep : α} {p : List α} (hne : p ≠ []) (h : sep ∉ p) : cut sep p = [p] := by
  rw [cut, List.splitOn_eq_singleton h]
  simp [dropTrailing, hne]

theorem dropTrailing_cons {s : List α} {l : List (List α)} (h : l ≠ []) :
    dropTrailing (s :: l) = s :: dropTrailing l := by
  cases l with
  | nil => exact absurd rfl h
  | cons t l =>
    simp only [dropTrailing, List.getLast?_cons_cons, List.dropLast_cons_cons]
    split <;> rfl

theorem cut_cons {sep : α} {s : List α} (h : sep ∉ s) (p : List α) :
    cut sep (s ++ sep :: p) = s :: cut sep p := by
  rw [cut, List.splitOn_append_cons_self_of_not_mem h,
    dropTrailing_cons (List.splitOn_ne_nil sep p), cut]

end Splitting

end Cerco.SegmentPattern
