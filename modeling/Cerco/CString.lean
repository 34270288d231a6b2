import Mathlib.Data.List.Infix
import Mathlib.Data.List.TakeWhile

set_option autoImplicit false

/-!
# Byte strings as the C code sees them

A `Bytes` value is the memory of a string without its terminator. Where the
source relies on the terminator, `cstr` cuts at the first NUL.
-/
namespace Cerco.CString

abbrev Bytes := List UInt8

def ascii (s : String) : Bytes := s.toList.map fun c => UInt8.ofNat c.toNat

def slash : UInt8 := 47

/-- The C string that starts at the first byte. -/
def cstr (b : Bytes) : Bytes := b.takeWhile (· ≠ 0)

theorem cstr_of_nulFree {s : Bytes} (h : 0 ∉ s) : cstr s = s :=
  List.takeWhile_eq_self_iff.mpr fun c hc => by
    have : c ≠ 0 := fun e => h (e ▸ hc)
    simp [this]

/-- Text that stands for itself between the quotes of a C string literal: no quote, no backslash, no line break
and no start of a trigraph. -/
def Verbatim (text : Bytes) : Prop :=
  (∀ c ∈ text, c ≠ 34 ∧ c ≠ 92 ∧ c ≠ 10 ∧ c ≠ 13) ∧ ¬ ascii "??" <:+: text

instance (text : Bytes) : Decidable (Verbatim text) :=
  @instDecidableAnd _ _ (List.decidableBAll _ text) inferInstance

theorem Verbatim.inside {a b : Bytes} (h : Verbatim b) (sub : a <:+: b) : Verbatim a :=
  ⟨fun c hc => h.1 c (sub.subset hc), fun hi => h.2 (hi.trans sub)⟩

theorem Verbatim.glue {a b : Bytes} (ha : Verbatim a) (hb : Verbatim b) {c : UInt8}
    (mark : c ≠ 34 ∧ c ≠ 92 ∧ c ≠ 10 ∧ c ≠ 13 ∧ c ≠ 63) : Verbatim (a ++ c :: b) := by
  refine ⟨fun d hd => ?_, fun hi => ?_⟩
  · obtain hd | hd := List.mem_append.mp hd
    · exact ha.1 d hd
    · obtain rfl | hd := List.mem_cons.mp hd
      · exact ⟨mark.1, mark.2.1, mark.2.2.1, mark.2.2.2.1⟩
      · exact hb.1 d hd
  · have pair : ascii "??" = [63, 63] := by decide
    have none_ := ha.2
    clear ha
    rw [pair] at hi none_
    induction a with
    | nil =>
      obtain ⟨t, ht⟩ | hi := List.infix_cons_iff.mp hi
      · injection ht with first _
        exact mark.2.2.2.2 first.symm
      · exact hb.2 (pair ▸ hi)
    | cons d a ih =>
      obtain ⟨t, ht⟩ | hi := List.infix_cons_iff.mp hi
      · injection ht with first rest
        cases a with
        | nil =>
          injection rest with second _
          exact mark.2.2.2.2 second.symm
        | cons e a =>
          injection rest with second _
          exact none_ ⟨[], a, by rw [← first, ← second]; rfl⟩
      · exact ih hi fun inside => none_ (inside.trans (List.suffix_cons d a).isInfix)

def toLower (c : UInt8) : UInt8 := if 65 ≤ c ∧ c ≤ 90 then c + 32 else c

def strcaseeq : Bytes → Bytes → Bool
  | a :: as, b :: bs => if toLower a ≠ toLower b then false else strcaseeq as bs
  | [], [] => true
  | _, _ => false

/-- Compares `n` bytes; the terminator is the byte after the last one. -/
def strncaseeq : Bytes → Bytes → ℕ → Bool
  | _, _, 0 => true
  | a, b, n + 1 =>
    if toLower (a.headD 0) ≠ toLower (b.headD 0) then false else strncaseeq a.tail b.tail n

/-- `strchr` for a byte that is present: the text before it and after it. -/
def strchr (c : UInt8) : Bytes → Option (Bytes × Bytes)
  | [] => none
  | b :: bs => if b = c then some ([], bs) else (strchr c bs).map fun x => (b :: x.1, x.2)

theorem strcaseeq_iff (a b : Bytes) : strcaseeq a b = true ↔ a.map toLower = b.map toLower := by
  induction a generalizing b with
  | nil => cases b <;> simp [strcaseeq]
  | cons x a ih =>
    cases b with
    | nil => simp [strcaseeq]
    | cons y b =>
      by_cases h : toLower x = toLower y
      · simp [strcaseeq, h, ih]
      · simp [strcaseeq, h]

theorem strchr_none {c : UInt8} {b : Bytes} : strchr c b = none ↔ c ∉ b := by
  induction b with
  | nil => simp [strchr]
  | cons x b ih =>
    by_cases h : x = c
    · simp [strchr, h]
    · simp [strchr, h, ih, Ne.symm h]

theorem strchr_some {c : UInt8} {b pre post : Bytes} :
    strchr c b = some (pre, post) ↔ b = pre ++ c :: post ∧ c ∉ pre := by
  induction b generalizing pre with
  | nil => simp [strchr]
  | cons x b ih =>
    by_cases h : x = c
    · subst h
      cases pre with
      | nil => simp [strchr]
      | cons y pre =>
        simp only [strchr, ↓reduceIte, List.cons_append, List.cons.injEq, List.mem_cons, not_or]
        constructor
        · intro e
          cases e
        · rintro ⟨⟨rfl, _⟩, hne, _⟩
          exact absurd rfl hne
    · simp only [strchr, h, ↓reduceIte, Option.map_eq_some_iff, Prod.mk.injEq]
      constructor
      · rintro ⟨⟨p, q⟩, hp, rfl, rfl⟩
        obtain ⟨rfl, hc⟩ := ih.mp hp
        exact ⟨rfl, by simp [Ne.symm h, hc]⟩
      · rintro ⟨e, hc⟩
        cases pre with
        | nil =>
          cases e
          exact absurd rfl h
        | cons y pre =>
          simp only [List.cons_append, List.cons.injEq] at e
          simp only [List.mem_cons, not_or] at hc
          obtain ⟨rfl, rfl⟩ := e
          exact ⟨(pre, post), ih.mpr ⟨rfl, hc.2⟩, rfl, rfl⟩

end Cerco.CString
