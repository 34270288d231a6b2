import Mathlib.Data.List.Basic

set_option autoImplicit false

/-!
# Escaping by a table

A table replaces some characters by a mark and a text. When the texts hold no
escaped character and none is a prefix of another, what was written can be read
back.
-/
namespace Cerco.Escaping

structure EscapeTable (α : Type) [DecidableEq α] where
  mark : α
  rows : List (α × List α)
  covered : mark ∈ rows.map Prod.fst
  plain : ∀ e ∈ rows, ∀ c ∈ e.2, c ∉ rows.map Prod.fst
  apart : ∀ e ∈ rows, ∀ f ∈ rows, e.2 <+: f.2 → e = f

variable {α : Type} [DecidableEq α] (t : EscapeTable α)

def EscapeTable.row (c : α) : Option (α × List α) := t.rows.find? fun e => decide (e.1 = c)

def EscapeTable.encodeOne (c : α) : List α :=
  match t.row c with
  | some e => t.mark :: e.2
  | none => [c]

def EscapeTable.encode (s : List α) : List α := s.flatMap t.encodeOne

/-- The row whose text stands at the front of `s`. -/
def EscapeTable.rowAt (s : List α) : Option (α × List α) := t.rows.find? fun e => e.2.isPrefixOf s

/-- Reads on after skipping `k` characters. -/
def EscapeTable.decodeFrom : ℕ → List α → List α
  | _, [] => []
  | k + 1, _ :: rest => decodeFrom k rest
  | 0, c :: rest =>
    if c = t.mark then
      match t.rowAt rest with
      | some e => e.1 :: decodeFrom e.2.length rest
      | none => c :: decodeFrom 0 rest
    else c :: decodeFrom 0 rest

def EscapeTable.decode (s : List α) : List α := t.decodeFrom 0 s

theorem row_mem {c : α} {e : α × List α} (h : t.row c = some e) : e ∈ t.rows ∧ e.1 = c :=
  ⟨List.mem_of_find?_eq_some h, by simpa using List.find?_some h⟩

theorem row_none {c : α} : t.row c = none ↔ c ∉ t.rows.map Prod.fst := by
  simp only [EscapeTable.row, List.find?_eq_none, decide_eq_true_eq, List.mem_map, not_exists, not_and]

theorem row_mark : t.row t.mark ≠ none := fun h => (row_none t).mp h t.covered

theorem mem_encodeOne {c x : α} (h : x ∈ t.encodeOne c) : x = t.mark ∨ x ∉ t.rows.map Prod.fst := by
  unfold EscapeTable.encodeOne at h
  cases found : t.row c with
  | none =>
    rw [found] at h
    rw [List.mem_singleton.mp h]
    exact .inr ((row_none t).mp found)
  | some e =>
    rw [found] at h
    rcases List.mem_cons.mp h with rfl | inText
    · exact .inl rfl
    · exact .inr (t.plain e (row_mem t found).1 x inText)

theorem row_unique {e f : α × List α} (he : e ∈ t.rows) (hf : f ∈ t.rows) {s : List α}
    (h : e.2 <+: s) (h' : f.2 <+: s) : e = f := by
  rcases Nat.le_total e.2.length f.2.length with le | le
  · exact t.apart e he f hf (List.prefix_of_prefix_length_le h h' le)
  · exact (t.apart f hf e he (List.prefix_of_prefix_length_le h' h le)).symm

theorem rowAt_append {e : α × List α} (he : e ∈ t.rows) (rest : List α) :
    t.rowAt (e.2 ++ rest) = some e := by
  unfold EscapeTable.rowAt
  cases found : t.rows.find? fun f => f.2.isPrefixOf (e.2 ++ rest) with
  | none =>
    have off := List.find?_eq_none.mp found e he
    exact absurd (List.isPrefixOf_iff_prefix.mpr (List.prefix_append e.2 rest)) off
  | some f =>
    have holds : f.2.isPrefixOf (e.2 ++ rest) = true := by simpa using List.find?_some found
    have front := List.isPrefixOf_iff_prefix.mp holds
    rw [row_unique t he (List.mem_of_find?_eq_some found) (List.prefix_append e.2 rest) front]

theorem encode_cons (c : α) (s : List α) : t.encode (c :: s) = t.encodeOne c ++ t.encode s := rfl

theorem encode_append (s u : List α) : t.encode (s ++ u) = t.encode s ++ t.encode u :=
  List.flatMap_append

theorem mem_encode {s : List α} {x : α} (h : x ∈ t.encode s) :
    x = t.mark ∨ x ∉ t.rows.map Prod.fst :=
  have ⟨_, _, hx⟩ := List.mem_flatMap.mp h
  mem_encodeOne t hx

theorem mark_encode {s pre post : List α} (h : t.encode s = pre ++ t.mark :: post) :
    ∃ e ∈ t.rows, e.2 <+: post := by
  induction s generalizing pre with
  | nil => cases pre <;> cases h
  | cons c s ih =>
    rw [encode_cons] at h
    cases found : t.row c with
    | none =>
      rw [EscapeTable.encodeOne, found] at h
      cases pre with
      | nil =>
        obtain ⟨rfl, _⟩ := List.cons.inj h
        exact absurd found (row_mark t)
      | cons x pre => exact ih (List.cons.inj h).2
    | some e =>
      have inRows := (row_mem t found).1
      rw [EscapeTable.encodeOne, found] at h
      cases pre with
      | nil => exact ⟨e, inRows, t.encode s, (List.cons.inj h).2⟩
      | cons x pre =>
        -- the mark stands behind the text, which holds none
        rcases List.append_eq_append_iff.mp (List.cons.inj h).2 with ⟨mid, _, later⟩ | ⟨mid, split, later⟩
        · exact ih later
        · cases mid with
          | nil => exact @ih [] later.symm
          | cons y mid =>
            obtain ⟨rfl, _⟩ := List.cons.inj later
            exact absurd t.covered (t.plain e inRows _ (by rw [split]; simp))

theorem decodeFrom_skip (s u : List α) : t.decodeFrom s.length (s ++ u) = t.decodeFrom 0 u := by
  induction s with
  | nil => rfl
  | cons c s ih => exact ih

theorem decode_encode (s : List α) : t.decode (t.encode s) = s := by
  induction s with
  | nil => rfl
  | cons c s ih =>
    rw [encode_cons]
    cases found : t.row c with
    | none =>
      have other : c ≠ t.mark := fun e => row_mark t (e ▸ found)
      rw [EscapeTable.encodeOne, found]
      change t.decodeFrom 0 (c :: t.encode s) = c :: s
      rw [EscapeTable.decodeFrom, if_neg other]
      exact congrArg _ ih
    | some e =>
      obtain ⟨inRows, rfl⟩ := row_mem t found
      rw [EscapeTable.encodeOne, found]
      change t.decodeFrom 0 (t.mark :: (e.2 ++ t.encode s)) = e.1 :: s
      rw [EscapeTable.decodeFrom, if_pos rfl, rowAt_append t inRows]
      exact congrArg _ ((decodeFrom_skip t e.2 _).trans ih)

end Cerco.Escaping
