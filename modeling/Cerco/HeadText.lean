import Mathlib.Data.List.Infix

set_option autoImplicit false

/-!
# Text in lines

A head is lines that end at CRLF, and an empty one behind the last. `wireLines` cuts a text that was meant as
one line: what a reader takes for lines are its parts.
-/
namespace Cerco.HeadText

def crlf : List UInt8 := [13, 10]

def cutLine : List UInt8 → Option (List UInt8 × List UInt8)
  | 13 :: 10 :: rest => some ([], rest)
  | c :: rest => (cutLine rest).map fun cut => (c :: cut.1, cut.2)
  | [] => none

def headLines : ℕ → List UInt8 → Option (List (List UInt8) × List UInt8)
  | 0, _ => none
  | n + 1, b =>
    match cutLine b with
    | none => none
    | some ([], rest) => some ([], rest)
    | some (line, rest) => (headLines n rest).map fun t => (line :: t.1, t.2)

def wireLines : List UInt8 → List (List UInt8)
  | 13 :: 10 :: rest => [] :: wireLines rest
  | c :: rest => (wireLines rest).modifyHead (c :: ·)
  | [] => [[]]

theorem cutLine_crlf {line : List UInt8} (h : ¬ crlf <:+: line) (rest : List UInt8) :
    cutLine (line ++ crlf ++ rest) = some (line, rest) := by
  induction line with
  | nil => rfl
  | cons c line ih =>
    have tail : ¬ crlf <:+: line := fun hi => h (hi.trans (List.suffix_cons c line).isInfix)
    have not_end : ∀ r, c = 13 → line ++ crlf ++ rest = 10 :: r → False := by
      rintro r rfl e
      cases line with
      | nil => cases e
      | cons d line =>
        injection e with hd _
        exact h ⟨[], line, by rw [hd]; rfl⟩
    change cutLine (c :: (line ++ crlf ++ rest)) = _
    rw [cutLine.eq_2 _ _ not_end, ih tail]
    rfl

theorem cutLine_some {b line rest : List UInt8} (h : cutLine b = some (line, rest)) :
    b = line ++ crlf ++ rest ∧ ¬ crlf <:+: line := by
  induction b using cutLine.induct generalizing line rest with
  | case1 tail =>
    rw [cutLine] at h
    cases h
    exact ⟨rfl, by simp [crlf]⟩
  | case2 c tail not_end ih =>
    rw [cutLine.eq_2 _ _ not_end] at h
    obtain ⟨cut, hcut, same⟩ := Option.map_eq_some_iff.mp h
    obtain ⟨shape, free⟩ := ih (show cutLine tail = some (cut.1, cut.2) from hcut)
    cases same
    refine ⟨by rw [shape]; rfl, fun hi => ?_⟩
    obtain hp | hi := List.infix_cons_iff.mp hi
    · obtain ⟨t, ht⟩ := hp
      injection ht with hc hl
      rw [← hl] at shape
      exact not_end _ hc.symm shape
    · exact free hi
  | case3 => cases h

theorem headLines_lines {lines : List (List UInt8)} (free : ∀ l ∈ lines, l ≠ [] ∧ ¬ crlf <:+: l)
    (body : List UInt8) {n : ℕ} (hn : lines.length < n) :
    headLines n (lines.flatMap (· ++ crlf) ++ crlf ++ body) = some (lines, body) := by
  induction lines generalizing n with
  | nil =>
    obtain ⟨n, rfl⟩ : ∃ m, n = m + 1 := ⟨n - 1, by simp only [List.length_nil] at hn; omega⟩
    rfl
  | cons line lines ih =>
    obtain ⟨n, rfl⟩ : ∃ m, n = m + 1 := ⟨n - 1, by simp only [List.length_cons] at hn; omega⟩
    obtain ⟨ne, here⟩ := free line List.mem_cons_self
    have rest := ih (fun l hl => free l (List.mem_cons_of_mem line hl)) (n := n) (by simpa using hn)
    have shape : (line :: lines).flatMap (· ++ crlf) ++ crlf ++ body =
        line ++ crlf ++ (lines.flatMap (· ++ crlf) ++ crlf ++ body) := by
      simp [List.append_assoc]
    rw [shape, headLines, cutLine_crlf here]
    cases line with
    | nil => exact absurd rfl ne
    | cons c line =>
      dsimp only
      rw [rest]
      rfl

theorem headLines_free {n : ℕ} {b body : List UInt8} {lines : List (List UInt8)}
    (h : headLines n b = some (lines, body)) : ∀ l ∈ lines, ¬ crlf <:+: l := by
  induction n generalizing b lines with
  | zero => cases h
  | succ n ih =>
    rw [headLines] at h
    split at h
    · cases h
    · cases h
      simp
    · rename_i line rest _ hcut
      obtain ⟨t, ht, same⟩ := Option.map_eq_some_iff.mp h
      cases same
      rintro l (_ | ⟨_, hl⟩)
      · exact (cutLine_some hcut).2
      · exact ih ht l hl

theorem crlf_free_append {a b : List UInt8} (ha : ¬ crlf <:+: a) (hb : ¬ crlf <:+: b)
    (seam : b.head? ≠ some 10) : ¬ crlf <:+: a ++ b := by
  induction a with
  | nil => exact hb
  | cons c a ih =>
    intro h
    obtain hp | hi := List.infix_cons_iff.mp h
    · obtain ⟨t, ht⟩ := hp
      injection ht with hc ht
      cases a with
      | nil =>
        change 10 :: t = b at ht
        exact seam (by rw [← ht]; rfl)
      | cons d a =>
        injection ht with hd _
        exact ha ⟨[], a, by rw [← hc, ← hd]; rfl⟩
    · exact ih (fun hi => ha (hi.trans (List.suffix_cons c a).isInfix)) hi

theorem crlf_free_of_not_mem {s : List UInt8} (h : 13 ∉ s) : ¬ crlf <:+: s := fun hi =>
  h (hi.subset List.mem_cons_self)

theorem crlf_free_start {a b : List UInt8} (ha : 13 ∉ a) (hb : ¬ crlf <:+: b) : ¬ crlf <:+: a ++ b := by
  induction a with
  | nil => exact hb
  | cons c a ih =>
    simp only [List.mem_cons, not_or] at ha
    intro h
    obtain hp | hi := List.infix_cons_iff.mp h
    · exact ha.1 (List.cons_prefix_cons.mp hp).1
    · exact ih ha.2 hi

theorem wireLines_flatMap (b : List UInt8) : (wireLines b).flatMap (· ++ crlf) = b ++ crlf := by
  induction b using wireLines.induct with
  | case1 rest ih =>
    rw [wireLines, List.flatMap_cons, ih]
    rfl
  | case2 c rest not_end ih =>
    rw [wireLines.eq_2 _ _ not_end]
    cases hw : wireLines rest with
    | nil =>
      rw [hw] at ih
      exact absurd ih.symm (List.append_ne_nil_of_right_ne_nil rest (by decide))
    | cons l ls =>
      rw [hw, List.flatMap_cons] at ih
      rw [List.modifyHead_cons, List.flatMap_cons, List.cons_append, List.cons_append, List.cons_append, ih]
  | case3 => rfl

theorem wireLines_all (ls : List (List UInt8)) :
    (ls.flatMap wireLines).flatMap (· ++ crlf) = ls.flatMap (· ++ crlf) := by
  rw [List.flatMap_assoc]
  exact congrArg (ls.flatMap ·) (funext wireLines_flatMap)

theorem wireLines_one {b : List UInt8} (h : ¬ crlf <:+: b) : wireLines b = [b] := by
  induction b using wireLines.induct with
  | case1 rest => exact absurd (List.prefix_append crlf rest).isInfix h
  | case2 c rest not_end ih =>
    rw [wireLines.eq_2 _ _ not_end, ih fun hi => h (hi.trans (List.suffix_cons c rest).isInfix)]
    rfl
  | case3 => rfl

theorem wireLines_free {b l : List UInt8} (hl : l ∈ wireLines b) : ¬ crlf <:+: l := by
  induction b using wireLines.induct generalizing l with
  | case1 rest ih =>
    rw [wireLines] at hl
    obtain rfl | hl := List.mem_cons.mp hl
    · decide
    · exact ih hl
  | case2 c rest not_end ih =>
    have joined := wireLines_flatMap rest
    rw [wireLines.eq_2 _ _ not_end] at hl
    cases hw : wireLines rest with
    | nil =>
      rw [hw] at hl
      cases hl
    | cons k ks =>
      rw [hw] at hl joined ih
      obtain rfl | hl := List.mem_cons.mp hl
      · intro hi
        obtain ⟨t, ht⟩ | hi := List.infix_cons_iff.mp hi
        · injection ht with hc hk
          rw [← hk] at joined
          cases rest with
          | nil => cases joined
          | cons d rest =>
            injection joined with hd _
            exact not_end rest hc.symm (by rw [← hd])
        · exact ih List.mem_cons_self hi
      · exact ih (List.mem_cons_of_mem k hl)
  | case3 =>
    obtain rfl := List.mem_singleton.mp hl
    decide

theorem headLines_long {lines : List (List UInt8)} {body : List UInt8} :
    lines.length < (lines.flatMap (· ++ crlf) ++ crlf ++ body).length := by
  induction lines with
  | nil =>
    simp only [List.flatMap_nil, List.nil_append, List.length_append, List.length_nil]
    exact Nat.lt_of_lt_of_le Nat.two_pos (Nat.le_add_right _ _)
  | cons line lines ih =>
    simp only [List.flatMap_cons, List.length_append, List.length_cons] at ih ⊢
    have two : crlf.length = 2 := rfl
    omega

theorem headLines_early {lines : List (List UInt8)} (free : ∀ l ∈ lines, ¬ crlf <:+: l) (early : [] ∈ lines)
    (body : List UInt8) {n : ℕ} (hn : lines.length < n) : ∃ front rest,
      headLines n (lines.flatMap (· ++ crlf) ++ crlf ++ body) = some (front, rest) ∧ body.length < rest.length := by
  obtain ⟨front, back, rfl, first⟩ := List.eq_append_cons_of_mem early
  have cut : (front ++ [] :: back).flatMap (· ++ crlf) ++ crlf ++ body =
      front.flatMap (· ++ crlf) ++ crlf ++ (back.flatMap (· ++ crlf) ++ crlf ++ body) := by
    simp only [List.flatMap_append, List.flatMap_cons, List.nil_append, List.append_assoc]
  have short : front.length < n := by
    rw [List.length_append] at hn
    omega
  refine ⟨front, back.flatMap (· ++ crlf) ++ crlf ++ body, ?_, ?_⟩
  · rw [cut]
    refine headLines_lines (fun l hl => ⟨?_, free l (List.mem_append_left _ hl)⟩) _ short
    rintro rfl
    exact first hl
  · have two : crlf.length = 2 := rfl
    simp only [List.length_append, two]
    omega

end Cerco.HeadText
