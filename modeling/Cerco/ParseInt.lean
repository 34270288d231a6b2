import Cerco.EnvConfig
import Cerco.SfIds
import Cerco.SignedArith

set_option autoImplicit false

/-!
# Reading a long long

`cerco_parse_i64` with every operation on signed numbers checked. The guard in front of
`v * 10 + d` divides what is left behind the digit.
-/
namespace Cerco.ParseInt
open Cerco.CString Cerco.EnvConfig Cerco.SfIds Cerco.SignedArith
open Cerco.PrintfText (decimalValue isDigit)

/-- The loop; `some none` is its `return 0`. -/
def parseLoop : Bytes → ℤ → Option (Option ℤ)
  | [], v => some (some v)
  | c :: s, v =>
    if c < 48 ∨ 57 < c then some none
    else
      (signed 31 ((c.toNat : ℤ) - 48)).bind fun d =>
        (signed 63 (int64Max - d)).bind fun left =>
          (signed 63 (left.tdiv 10)).bind fun most =>
            if most < v then some none
            else (signed 63 (v * 10)).bind fun tens => (signed 63 (tens + d)).bind fun v => parseLoop s v

/-- What `cerco_parse_i64` returns and what `*out` holds then; NULL is `none`. -/
def cercoParseI64 (s : Option Bytes) (out : ℤ) : Option (Bool × ℤ) :=
  match s with
  | none => some (false, out)
  | some [] => some (false, out)
  | some (c :: s) =>
    let neg := decide (c = 45)
    let digits := if neg then s else c :: s
    if digits = [] then some (false, out)
    else
      (parseLoop digits 0).bind fun
        | none => some (false, out)
        | some v => (signed 63 (if neg then -v else v)).bind fun z => some (true, z)

/-- An optional minus sign and digits for a number of at most `2 ^ 63 - 1`. -/
def Numeral (s : Bytes) (z : ℤ) : Prop :=
  ∃ (neg : Bool) (digits : Bytes), s = (if neg = true then [45] else []) ++ digits ∧ Digits digits ∧
    decimalValue digits ≤ 2 ^ 63 - 1 ∧ z = if neg = true then -(decimalValue digits : ℤ) else decimalValue digits

def continued (n : ℕ) (s : Bytes) : ℕ := s.foldl (fun n c => n * 10 + (c.toNat - 48)) n

theorem le_continued (n : ℕ) (s : Bytes) : n ≤ continued n s := by
  induction s generalizing n with
  | nil => exact Nat.le_refl n
  | cons c s ih =>
    have rest := ih (n * 10 + (c.toNat - 48))
    change n ≤ continued (n * 10 + (c.toNat - 48)) s
    omega

theorem digit_value {c : UInt8} (h : ¬ (c < 48 ∨ 57 < c)) : 48 ≤ c.toNat ∧ c.toNat ≤ 57 := by
  rw [not_or, UInt8.not_lt, UInt8.not_lt] at h
  exact ⟨UInt8.le_iff_toNat_le.mp h.1, UInt8.le_iff_toNat_le.mp h.2⟩

theorem isDigit_iff (c : UInt8) : isDigit c = true ↔ ¬ (c < 48 ∨ 57 < c) := by
  rw [isDigit, Bool.and_eq_true, decide_eq_true_eq, decide_eq_true_eq, not_or, UInt8.not_lt, UInt8.not_lt]

theorem guard_iff (n d : ℕ) : (int64Max - d) / 10 < n ↔ 2 ^ 63 - 1 < n * 10 + d := by
  unfold int64Max
  omega

theorem parseDigits_continued {s : Bytes} {n : ℕ} (start : n ≤ 2 ^ 63 - 1) (v : ℤ) :
    parseDigits s n = some v ↔ s.all isDigit = true ∧ continued n s ≤ 2 ^ 63 - 1 ∧ v = continued n s := by
  induction s generalizing n with
  | nil =>
    constructor
    · intro h
      exact ⟨rfl, start, (Option.some.inj h).symm⟩
    · rintro ⟨_, _, rfl⟩
      rfl
  | cons c s ih =>
    rw [parseDigits, List.all_cons, Bool.and_eq_true, isDigit_iff]
    by_cases other : c < 48 ∨ 57 < c
    · rw [if_pos other]
      exact iff_of_false (Option.some_ne_none v).symm fun h => h.1.1 other
    · have digit := digit_value other
      have value : (c.toNat : ℤ) - 48 = (c.toNat - 48 : ℕ) := by omega
      rw [if_neg other]
      dsimp only
      rw [value]
      by_cases full : 2 ^ 63 - 1 < n * 10 + (c.toNat - 48)
      · have more : n * 10 + (c.toNat - 48) ≤ continued n (c :: s) := le_continued _ s
        rw [if_pos ((guard_iff n _).mpr full)]
        exact iff_of_false (Option.some_ne_none v).symm fun h => absurd h.2.1 (by omega)
      · have next : (n : ℤ) * 10 + (c.toNat - 48 : ℕ) = (n * 10 + (c.toNat - 48) : ℕ) := by push_cast; rfl
        rw [if_neg (mt (guard_iff n _).mp full), next, ih (by omega), and_iff_right other]
        rfl

theorem parseLoop_checked {s : Bytes} {v : ℤ} (start : 0 ≤ v ∧ v ≤ int64Max) :
    parseLoop s v = some (parseDigits s v) := by
  induction s generalizing v with
  | nil => rfl
  | cons c s ih =>
    rw [parseLoop, parseDigits]
    by_cases other : c < 48 ∨ 57 < c
    · rw [if_pos other, if_pos other]
    · have digit := digit_value other
      unfold int64Max at start ⊢
      rw [if_neg other, if_neg other, signed_bind ⟨by omega, by omega⟩, signed_bind ⟨by omega, by omega⟩,
        Int.tdiv_eq_ediv_of_nonneg (by omega), signed_bind ⟨by omega, by omega⟩]
      dsimp only
      by_cases full : (9223372036854775807 - ((c.toNat : ℤ) - 48)) / 10 < v
      · rw [if_pos full, if_pos full]
      · rw [if_neg full, if_neg full, signed_bind ⟨by omega, by omega⟩, signed_bind ⟨by omega, by omega⟩]
        exact ih ⟨by omega, by unfold int64Max; omega⟩

theorem cercoParseI64_checked (s : Bytes) (out : ℤ) :
    cercoParseI64 (some s) out = some ((parseI64 s).elim (false, out) fun z => (true, z)) := by
  cases s with
  | nil => rfl
  | cons c s =>
    rw [cercoParseI64, parseI64]
    generalize (if decide (c = 45) = true then s else c :: s) = digits
    by_cases empty : digits = []
    · rw [if_pos empty, if_pos empty]
      rfl
    · rw [if_neg empty, if_neg empty, parseLoop_checked (by decide), Option.bind_some]
      cases found : parseDigits digits 0 with
      | none => rfl
      | some v =>
        have bounds := parseDigits_bounds (by decide) found
        unfold int64Max at bounds
        dsimp only
        rw [signed_bind ⟨by split <;> omega, by split <;> omega⟩]
        rfl

theorem digits_iff (d : Bytes) : Digits d ↔ d ≠ [] ∧ d.all isDigit = true := by
  have digit (c : UInt8) : isDigit c = true ↔ 48 ≤ c ∧ c ≤ 57 := by
    rw [isDigit, Bool.and_eq_true, decide_eq_true_eq, decide_eq_true_eq]
  constructor
  · intro h
    exact ⟨h.some, List.all_eq_true.mpr fun c hc => (digit c).mpr (h.digits c hc)⟩
  · rintro ⟨some, all⟩
    exact ⟨some, fun c hc => (digit c).mp (List.all_eq_true.mp all c hc)⟩

theorem parseDigits_numeral {d : Bytes} (some : d ≠ []) (v : ℤ) :
    parseDigits d 0 = .some v ↔ Digits d ∧ decimalValue d ≤ 2 ^ 63 - 1 ∧ v = decimalValue d := by
  have read : parseDigits d 0 = .some v ↔ d.all isDigit = true ∧ decimalValue d ≤ 2 ^ 63 - 1 ∧ v = decimalValue d :=
    parseDigits_continued (Nat.zero_le _) v
  rw [read, digits_iff, and_iff_right some]

theorem parseI64_numeral (s : Bytes) (z : ℤ) : parseI64 s = some z ↔ Numeral s z := by
  constructor
  · intro h
    cases s with
    | nil => cases h
    | cons c s =>
      by_cases minus : c = 45
      · subst minus
        change (if s = [] then none else (parseDigits s 0).map fun v => -v) = some z at h
        obtain ⟨some, h⟩ := Option.ite_none_left_eq_some.mp h
        obtain ⟨v, read, rfl⟩ := Option.map_eq_some_iff.mp h
        obtain ⟨digits, bound, rfl⟩ := (parseDigits_numeral some v).mp read
        exact ⟨true, s, rfl, digits, bound, rfl⟩
      · rw [parseI64, decide_eq_false minus] at h
        change (if c :: s = [] then none else (parseDigits (c :: s) 0).map fun v => v) = some z at h
        obtain ⟨some, h⟩ := Option.ite_none_left_eq_some.mp h
        obtain ⟨v, read, rfl⟩ := Option.map_eq_some_iff.mp h
        obtain ⟨digits, bound, rfl⟩ := (parseDigits_numeral some v).mp read
        exact ⟨false, c :: s, rfl, digits, bound, rfl⟩
  · rintro ⟨neg, d, rfl, digits, bound, rfl⟩
    have read := (parseDigits_numeral digits.some _).mpr ⟨digits, bound, rfl⟩
    cases neg with
    | true =>
      change (if d = [] then none else (parseDigits d 0).map fun v => -v) = _
      rw [if_neg digits.some, read]
      rfl
    | false =>
      obtain ⟨c, s, rfl⟩ := List.exists_cons_of_ne_nil digits.some
      have other : decide (c = 45) = false := by
        have low := (digits.digits c List.mem_cons_self).1
        rw [decide_eq_false_iff_not]
        rintro rfl
        exact absurd low (by decide)
      change parseI64 (c :: s) = _
      rw [parseI64, other, if_neg Bool.false_ne_true, if_neg digits.some, read]
      rfl

/-- `cerco_parse_i64` never overflows, returns 1 with the number for exactly the numerals up to
`2 ^ 63 - 1` with or without a minus sign, and leaves `*out` alone for all other strings. -/
theorem parse_i64_exact (s : Bytes) (out : ℤ) :
    (cercoParseI64 (some s) out).isSome = true ∧
      (∀ z, cercoParseI64 (some s) out = some (true, z) ↔ Numeral s z) ∧
      ((∀ z, ¬ Numeral s z) → cercoParseI64 (some s) out = some (false, out)) := by
  rw [cercoParseI64_checked]
  refine ⟨rfl, fun z => ?_, fun none => ?_⟩
  · rw [← parseI64_numeral]
    cases parseI64 s with
    | none => simp
    | some x => simp
  · cases found : parseI64 s with
    | none => rfl
    | some x => exact absurd ((parseI64_numeral s x).mp found) (none x)

example : cercoParseI64 (some (ascii "-0009223372036854775807")) 3 = some (true, -9223372036854775807) := by decide

example : cercoParseI64 (some (ascii "9223372036854775808")) 3 = some (false, 3) := by decide

end Cerco.ParseInt
