import Mathlib.Data.List.Basic

set_option autoImplicit false

/-!
# Push parsers that hand out spans

A machine looks at one byte at a time and reports where spans start and end,
marks in between, and failures. It is run buffer by buffer: the part of an open
span that lies in the buffer is handed out when the buffer ends, and the rest of
the span comes with the next buffer.
-/
namespace Cerco.SpanParser

inductive Report (κ μ ε : Type)
  | enter (k : κ)
  | leave
  | mark (m : μ)
  | fail (e : ε)

inductive Event (α κ μ ε : Type)
  | span (k : κ) (data : List α)
  | mark (m : μ)
  | fail (e : ε)
deriving DecidableEq

section Reports
variable {κ μ ε : Type}

/-- The span open after the reports; between `enter` and `leave` there is
nothing else, and nothing follows a failure. -/
inductive Consecutive : Option κ → List (Report κ μ ε) → Option κ → Prop
  | nil (o : Option κ) : Consecutive o [] o
  | enter {k : κ} {rs : List (Report κ μ ε)} {o : Option κ} :
      Consecutive (some k) rs o → Consecutive none (.enter k :: rs) o
  | leave {k : κ} {rs : List (Report κ μ ε)} {o : Option κ} :
      Consecutive none rs o → Consecutive (some k) (.leave :: rs) o
  | mark {m : μ} {rs : List (Report κ μ ε)} {o : Option κ} :
      Consecutive none rs o → Consecutive none (.mark m :: rs) o
  | fail {e : ε} {p o : Option κ} : Consecutive p [.fail e] o

end Reports

/-- Reports made in front of a byte, reports made behind it, and the next state.
`opened` is the span that is open in a state. -/
structure Machine (σ α κ μ ε : Type) where
  start : σ
  opened : σ → Option κ
  step : σ → α → List (Report κ μ ε) × List (Report κ μ ε) × σ
  opened_start : opened start = none
  consecutive : ∀ s b, ∃ o, Consecutive (opened s) (step s b).1 o ∧
    Consecutive o (step s b).2.1 (opened (step s b).2.2)

variable {σ α κ μ ε : Type}

abbrev Held (α κ : Type) := Option (κ × List α)

/-- The events of some reports at one position; `false` after a failure. -/
def emit : List (Report κ μ ε) → ℕ → Held α κ →
    List (ℕ × Event α κ μ ε) × Held α κ × Bool
  | [], _, o => ([], o, true)
  | .enter k :: rs, p, _ => emit rs p (some (k, []))
  | .leave :: rs, p, some (k, d) =>
    let r := emit rs p none
    ((p, .span k d) :: r.1, r.2)
  | .leave :: rs, p, none => emit rs p none
  | .mark m :: rs, p, o =>
    let r := emit rs p o
    ((p, .mark m) :: r.1, r.2)
  | .fail e :: _, p, o => ([(p, .fail e)], o, false)

def hold (o : Held α κ) (b : α) : Held α κ := o.map fun x => (x.1, x.2 ++ [b])

structure Fed (σ α κ μ ε : Type) where
  events : List (ℕ × Event α κ μ ε)
  state : σ
  held : Held α κ
  going : Bool

/-- Run over the bytes of a buffer, the first of which is at position `p`. -/
def Machine.feed (M : Machine σ α κ μ ε) : σ → Held α κ → ℕ → List α → Fed σ α κ μ ε
  | s, o, _, [] => ⟨[], s, o, true⟩
  | s, o, p, b :: bs =>
    let r := M.step s b
    match emit r.1 p o with
    | (es, o, false) => ⟨es, s, o, false⟩
    | (es, o, true) =>
      match emit r.2.1 (p + 1) (hold o b) with
      | (es', o, false) => ⟨es ++ es', r.2.2, o, false⟩
      | (es', o, true) =>
        let f := M.feed r.2.2 o (p + 1) bs
        { f with events := es ++ (es' ++ f.events) }

def flush (o : Held α κ) (p : ℕ) : List (ℕ × Event α κ μ ε) :=
  match o with
  | some (k, d) => [(p, .span k d)]
  | none => []

def Machine.buffer (M : Machine σ α κ μ ε) (s : σ) (bs : List α) :
    List (ℕ × Event α κ μ ε) × σ × Bool :=
  let f := M.feed s ((M.opened s).map fun k => (k, [])) 0 bs
  (if f.going then f.events ++ flush f.held bs.length else f.events, f.state, f.going)

theorem emit_pos (rs : List (Report κ μ ε)) (p : ℕ) (o : Held α κ) :
    ∀ x ∈ (emit rs p o).1, x.1 = p := by
  induction rs generalizing o with
  | nil => intro x hx; cases hx
  | cons r rs ih =>
    cases r with
    | enter k => exact ih (some (k, []))
    | leave =>
      cases o with
      | none => exact ih none
      | some kd =>
        intro x hx
        obtain rfl | hx := List.mem_cons.mp hx
        · rfl
        · exact ih none x hx
    | mark m =>
      intro x hx
      obtain rfl | hx := List.mem_cons.mp hx
      · rfl
      · exact ih o x hx
    | fail e =>
      intro x hx
      obtain rfl := List.mem_singleton.mp hx
      rfl

theorem Machine.feed_pos (M : Machine σ α κ μ ε) (s : σ) (o : Held α κ) (p : ℕ) (bs : List α) :
    ∀ x ∈ (M.feed s o p bs).events, x.1 ≤ p + bs.length := by
  induction bs generalizing s o p with
  | nil => intro x hx; cases hx
  | cons b bs ih =>
    have before := emit_pos (α := α) (M.step s b).1 p o
    intro x hx
    rw [Machine.feed] at hx
    split at hx
    · rename_i es o' h
      rw [h] at before
      have := before x hx
      omega
    · rename_i es o' h
      rw [h] at before
      have behind := emit_pos (M.step s b).2.1 (p + 1) (hold o' b)
      split at hx
      · rename_i es' o'' h'
        rw [h'] at behind
        obtain hx | hx := List.mem_append.mp hx
        · have := before x hx
          omega
        · have := behind x hx
          simp only [List.length_cons]
          omega
      · rename_i es' o'' h'
        rw [h'] at behind
        obtain hx | hx := List.mem_append.mp hx
        · have := before x hx
          omega
        · obtain hx | hx := List.mem_append.mp hx
          · have := behind x hx
            simp only [List.length_cons]
            omega
          · have := ih _ o'' (p + 1) x hx
            simp only [List.length_cons]
            omega

theorem Machine.buffer_pos (M : Machine σ α κ μ ε) (s : σ) (bs : List α) :
    ∀ x ∈ (M.buffer s bs).1, x.1 ≤ bs.length := by
  intro x hx
  have fed := M.feed_pos s ((M.opened s).map fun k => (k, [])) 0 bs
  unfold Machine.buffer at hx
  dsimp only at hx
  split at hx
  · obtain hx | hx := List.mem_append.mp hx
    · have := fed x hx
      omega
    · unfold flush at hx
      split at hx
      · obtain rfl := List.mem_singleton.mp hx
        exact Nat.le_refl _
      · cases hx
  · have := fed x hx
    omega

def reportMarks : List (Report κ μ ε) → List μ × Bool
  | [] => ([], true)
  | .enter _ :: rs | .leave :: rs => reportMarks rs
  | .mark m :: rs => (m :: (reportMarks rs).1, (reportMarks rs).2)
  | .fail _ :: _ => ([], false)

/-- The marks, the state behind the bytes and whether the machine goes on. -/
def Machine.run (M : Machine σ α κ μ ε) : σ → List α → List μ × σ × Bool
  | s, [] => ([], s, true)
  | s, b :: bs =>
    let r := M.step s b
    match reportMarks r.1 with
    | (ms, false) => (ms, s, false)
    | (ms, true) =>
      match reportMarks r.2.1 with
      | (ms', false) => (ms ++ ms', r.2.2, false)
      | (ms', true) =>
        let f := M.run r.2.2 bs
        (ms ++ (ms' ++ f.1), f.2)

def eventMarks (es : List (ℕ × Event α κ μ ε)) : List μ :=
  es.filterMap fun e =>
    match e.2 with
    | .mark m => some m
    | _ => none

@[simp] theorem eventMarks_nil : eventMarks ([] : List (ℕ × Event α κ μ ε)) = [] := rfl

@[simp] theorem eventMarks_append (es fs : List (ℕ × Event α κ μ ε)) :
    eventMarks (es ++ fs) = eventMarks es ++ eventMarks fs :=
  List.filterMap_append

theorem emit_marks (rs : List (Report κ μ ε)) (p : ℕ) (o : Held α κ) :
    (eventMarks (emit rs p o).1, (emit rs p o).2.2) = reportMarks rs := by
  induction rs generalizing o with
  | nil => rfl
  | cons r rs ih =>
    cases r with
    | enter k => exact ih (some (k, []))
    | leave =>
      cases o with
      | none => exact ih none
      | some kd => exact ih none
    | mark m =>
      obtain ⟨marks, going⟩ := Prod.mk.inj (ih o)
      exact Prod.ext (congrArg (m :: ·) marks) going
    | fail e => rfl

theorem Machine.feed_run (M : Machine σ α κ μ ε) (s : σ) (o : Held α κ) (p : ℕ) (bs : List α) :
    (eventMarks (M.feed s o p bs).events, (M.feed s o p bs).state, (M.feed s o p bs).going) =
      M.run s bs := by
  induction bs generalizing s o p with
  | nil => rfl
  | cons b bs ih =>
    have before := emit_marks (α := α) (M.step s b).1 p o
    rw [Machine.feed, Machine.run, ← before]
    split
    · rename_i es o' h
      rw [h]
    · rename_i es o' h
      rw [h]
      have behind := emit_marks (M.step s b).2.1 (p + 1) (hold o' b)
      dsimp only
      rw [← behind]
      split
      · rename_i es' o'' h'
        rw [h', eventMarks_append]
      · rename_i es' o'' h'
        rw [h']
        dsimp only
        rw [← ih (M.step s b).2.2 o'' (p + 1), eventMarks_append, eventMarks_append]

theorem flush_marks (o : Held α κ) (p : ℕ) :
    eventMarks (flush o p : List (ℕ × Event α κ μ ε)) = [] := by
  cases o <;> rfl

theorem Machine.buffer_run (M : Machine σ α κ μ ε) (s : σ) (bs : List α) :
    (eventMarks (M.buffer s bs).1, (M.buffer s bs).2) = M.run s bs := by
  have fed := M.feed_run s ((M.opened s).map fun k => (k, [])) 0 bs
  rw [← fed]
  unfold Machine.buffer
  dsimp only
  split
  · rw [eventMarks_append, flush_marks, List.append_nil]
  · rfl

theorem Machine.run_append (M : Machine σ α κ μ ε) {s t : σ} {as : List α} {ms : List μ}
    (h : M.run s as = (ms, t, true)) (bs : List α) :
    M.run s (as ++ bs) = (ms ++ (M.run t bs).1, (M.run t bs).2) := by
  induction as generalizing s ms with
  | nil =>
    cases h
    rfl
  | cons a as ih =>
    rw [Machine.run] at h
    rw [List.cons_append, Machine.run]
    split at h
    · cases h
    · split at h
      · cases h
      · obtain ⟨rfl, rest⟩ := Prod.mk.inj h
        dsimp only
        rw [ih (Prod.ext rfl rest)]
        simp only [List.append_assoc]

theorem Machine.feed_fail (M : Machine σ α κ μ ε) (s : σ) (o : Held α κ) (p : ℕ) (bs : List α)
    (h : (M.feed s o p bs).going = false) :
    ∃ q e, (q, .fail e) ∈ (M.feed s o p bs).events := by
  have failed : ∀ (rs : List (Report κ μ ε)) (o : Held α κ) (p : ℕ), (emit rs p o).2.2 = false →
      ∃ e, (p, .fail e) ∈ (emit rs p o).1 := by
    intro rs
    induction rs with
    | nil =>
      intro o p h
      cases h
    | cons r rs ih =>
      intro o p h
      cases r with
      | enter k => exact ih (some (k, [])) p h
      | leave =>
        cases o with
        | none => exact ih none p h
        | some kd =>
          obtain ⟨e, he⟩ := ih none p h
          exact ⟨e, List.mem_cons_of_mem _ he⟩
      | mark m =>
        obtain ⟨e, he⟩ := ih o p h
        exact ⟨e, List.mem_cons_of_mem _ he⟩
      | fail e => exact ⟨e, List.mem_singleton_self _⟩
  induction bs generalizing s o p with
  | nil => cases h
  | cons b bs ih =>
    have before := failed (M.step s b).1 o p
    rw [Machine.feed] at h ⊢
    split at h <;> rename_i es o' h₁
    · rw [h₁] at before
      obtain ⟨e, he⟩ := before rfl
      exact ⟨p, e, he⟩
    · have behind := failed (M.step s b).2.1 (hold o' b) (p + 1)
      dsimp only
      split at h <;> rename_i es' o'' h₂
      · rw [h₂] at behind
        obtain ⟨e, he⟩ := behind rfl
        exact ⟨p + 1, e, List.mem_append_right _ he⟩
      · obtain ⟨q, e, he⟩ := ih _ o'' (p + 1) h
        exact ⟨q, e, List.mem_append_right _ (List.mem_append_right _ he)⟩

theorem Machine.buffer_fail (M : Machine σ α κ μ ε) (s : σ) (bs : List α)
    (h : (M.buffer s bs).2.2 = false) : ∃ q e, (q, .fail e) ∈ (M.buffer s bs).1 := by
  have stopped : (M.feed s ((M.opened s).map fun k => (k, [])) 0 bs).going = false := h
  obtain ⟨q, e, he⟩ := M.feed_fail s _ 0 bs stopped
  refine ⟨q, e, ?_⟩
  unfold Machine.buffer
  dsimp only
  rw [stopped]
  exact he

end Cerco.SpanParser
