import Mathlib.Data.List.Basic

set_option autoImplicit false

/-!
# Percent-encoded text

What a text with escapes stands for, which texts are well formed, and the encodings
of a given text. With `plus` a plus sign stands for a space.
-/
namespace Cerco.PercentText

def lowerDigits : List UInt8 := [48, 49, 50, 51, 52, 53, 54, 55, 56, 57, 97, 98, 99, 100, 101, 102]

def upperDigits : List UInt8 := [48, 49, 50, 51, 52, 53, 54, 55, 56, 57, 65, 66, 67, 68, 69, 70]

def digitValue (c : UInt8) : Option ℕ := (lowerDigits.idxOf? c).or (upperDigits.idxOf? c)

def escapedByte (h l : UInt8) : UInt8 :=
  UInt8.ofNat ((digitValue h).getD 0 * 16 + (digitValue l).getD 0)

def EscapeFirst (w : List UInt8) : Prop :=
  ∃ h l rest, w = h :: l :: rest ∧ (digitValue h).isSome = true ∧ (digitValue l).isSome = true

/-- Every percent sign is followed by two digits. -/
def WellFormed (w : List UInt8) : Prop := ∀ pre post, w = pre ++ 37 :: post → EscapeFirst post

/-- What the text stands for; a malformed end stands for nothing. -/
def decode (plus : Bool) : List UInt8 → List UInt8
  | [] => []
  | c :: w =>
    if c = 37 then
      match w with
      | h :: l :: rest => escapedByte h l :: decode plus rest
      | _ => []
    else (if c = 43 ∧ plus = true then 32 else c) :: decode plus w

theorem wellFormed_nil : WellFormed [] := by
  intro pre post h
  cases pre <;> cases h

theorem wellFormed_plain {c : UInt8} (h : c ≠ 37) (w : List UInt8) : WellFormed (c :: w) ↔ WellFormed w := by
  constructor
  · intro good pre post e
    exact good (c :: pre) post (by rw [e, List.cons_append])
  · intro good pre post e
    cases pre with
    | nil =>
      cases e
      exact absurd rfl h
    | cons d pre => exact good pre post (List.cons.inj e).2

theorem digit_not_mark {c : UInt8} (h : (digitValue c).isSome = true) : c ≠ 37 := by
  rintro rfl
  exact absurd h (by decide)

theorem wellFormed_escape (h l : UInt8) (w : List UInt8) : WellFormed (37 :: h :: l :: w) ↔
    ((digitValue h).isSome = true ∧ (digitValue l).isSome = true) ∧ WellFormed w := by
  constructor
  · intro good
    obtain ⟨_, _, _, e, digits⟩ := good [] (h :: l :: w) rfl
    cases e
    have tail := good
    refine ⟨digits, fun pre post e => tail (37 :: h :: l :: pre) post ?_⟩
    rw [e]
    rfl
  · rintro ⟨digits, good⟩ pre post e
    obtain ⟨high, low⟩ := digits
    cases pre with
    | nil =>
      cases e
      exact ⟨h, l, w, rfl, high, low⟩
    | cons a pre =>
      have e := (List.cons.inj e).2
      have inner := (wellFormed_plain (digit_not_mark high) _).mpr
        ((wellFormed_plain (digit_not_mark low) w).mpr good)
      exact inner pre post e

theorem wellFormed_short {w : List UInt8} (h : w.length < 2) : ¬ WellFormed (37 :: w) := by
  intro good
  obtain ⟨a, b, rest, rfl, _⟩ := good [] w rfl
  simp only [List.length_cons] at h
  omega

def check : List UInt8 → Bool
  | [] => true
  | c :: w =>
    if c = 37 then
      match w with
      | h :: l :: rest => (digitValue h).isSome && (digitValue l).isSome && check rest
      | _ => false
    else check w

theorem check_iff (w : List UInt8) : check w = true ↔ WellFormed w := by
  induction w using check.induct with
  | case1 => exact iff_of_true rfl wellFormed_nil
  | case2 h l rest ih =>
    rw [check, if_pos rfl, wellFormed_escape, ← ih, Bool.and_eq_true, Bool.and_eq_true]
  | case3 w short =>
    have few : w.length < 2 := by
      match w with
      | [] => exact Nat.zero_lt_two
      | [_] => exact Nat.one_lt_two
      | a :: b :: rest => exact absurd rfl (short a b rest)
    refine iff_of_false ?_ (wellFormed_short few)
    match w with
    | [] => decide
    | [_] => simp [check]
    | a :: b :: rest => exact absurd rfl (short a b rest)
  | case4 c w h ih =>
    rw [wellFormed_plain h, ← ih, check.eq_def]
    dsimp only
    rw [if_neg h]

instance (w : List UInt8) : Decidable (WellFormed w) := decidable_of_iff _ (check_iff w)

theorem decode_plain {plus : Bool} {c : UInt8} (h : c ≠ 37) (w : List UInt8) :
    decode plus (c :: w) = (if c = 43 ∧ plus = true then 32 else c) :: decode plus w := by
  rw [decode.eq_def]
  dsimp only
  rw [if_neg h]

theorem decode_escape (plus : Bool) (h l : UInt8) (w : List UInt8) :
    decode plus (37 :: h :: l :: w) = escapedByte h l :: decode plus w := by
  rw [decode, if_pos rfl]

theorem decode_append {plus : Bool} {v : List UInt8} (hv : WellFormed v) (w : List UInt8) :
    decode plus (v ++ w) = decode plus v ++ decode plus w := by
  induction v using check.induct with
  | case1 => rfl
  | case2 h l rest ih =>
    have := ih ((wellFormed_escape h l rest).mp hv).2
    rw [List.cons_append, List.cons_append, List.cons_append, decode_escape, this, decode_escape,
      List.cons_append]
  | case3 v short =>
    refine absurd hv (wellFormed_short ?_)
    match v with
    | [] => exact Nat.zero_lt_two
    | [_] => exact Nat.one_lt_two
    | a :: b :: rest => exact absurd rfl (short a b rest)
  | case4 c v h ih =>
    rw [List.cons_append, decode_plain h, ih ((wellFormed_plain h v).mp hv), decode_plain h, List.cons_append]

/-- `w` encodes `x`: a byte is escaped, with digits of either case, or stands for itself;
a percent sign is escaped, and so is a plus sign where it would stand for a space. -/
inductive Encoding (plus : Bool) : List UInt8 → List UInt8 → Prop
  | nil : Encoding plus [] []
  | plain {c : UInt8} {x w : List UInt8} (mark : c ≠ 37) (space : plus = true → c ≠ 43)
      (rest : Encoding plus x w) : Encoding plus (c :: x) (c :: w)
  | escaped {c h l : UInt8} {x w : List UInt8} (high : digitValue h = some (c.toNat / 16))
      (low : digitValue l = some (c.toNat % 16)) (rest : Encoding plus x w) :
      Encoding plus (c :: x) (37 :: h :: l :: w)

theorem Encoding.wellFormed {plus : Bool} {x w : List UInt8} (e : Encoding plus x w) : WellFormed w := by
  induction e with
  | nil => exact wellFormed_nil
  | plain mark _ _ ih => exact (wellFormed_plain mark _).mpr ih
  | escaped high low _ ih =>
    exact (wellFormed_escape _ _ _).mpr ⟨⟨by rw [high]; rfl, by rw [low]; rfl⟩, ih⟩

theorem Encoding.decode {plus : Bool} {x w : List UInt8} (e : Encoding plus x w) :
    PercentText.decode plus w = x := by
  induction e with
  | nil => rfl
  | @plain c x w mark space _ ih =>
    have stays : ¬ (c = 43 ∧ plus = true) := fun h => space h.2 h.1
    rw [decode_plain mark, if_neg stays, ih]
  | @escaped c h l x w high low _ ih =>
    have whole : c.toNat / 16 * 16 + c.toNat % 16 = c.toNat := by omega
    rw [decode_escape, ih, escapedByte, high, low, Option.getD_some, Option.getD_some, whole,
      UInt8.ofNat_toNat]

end Cerco.PercentText
