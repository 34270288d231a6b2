import Cerco.SfIds
import Mathlib.Data.Int.Notation

set_option autoImplicit false

/-!
# Numbers as the client prints them

The digits go into `tmp` from the last one on, and are copied out backwards.
-/
namespace Cerco.ClientDigits
open Cerco.CString Cerco.Dispatch Cerco.Response Cerco.SfIds
open Cerco.PrintfText (decimalValue)

/-- `while (u) { tmp[i++] = '0' + u % 10; u /= 10; }`, for at most `fuel` digits. -/
def digitLoop : ℕ → ℕ → Bytes
  | 0, _ => []
  | fuel + 1, u => if u = 0 then [] else UInt8.ofNat (48 + u % 10) :: digitLoop fuel (u / 10)

/-- `tmp` of `sf_url_for` and `cerco_i32_to_str`. -/
def tmpDigits (u : ℕ) : Bytes := if u = 0 then [48] else digitLoop 10 u

/-- `cerco_i32_to_str`, without the NUL. -/
def i32ToStr (v : ℤ) : Bytes := (if v < 0 then [45] else []) ++ (tmpDigits v.natAbs).reverse

def signedDecimal (v : ℤ) : Bytes := (if v < 0 then ascii "-" else []) ++ decimal v.natAbs

theorem decimal_digit {n : ℕ} (h : n < 10) : decimal n = [UInt8.ofNat (48 + n)] := by
  rw [decimal, Nat.toDigits_of_lt_base h]
  revert n
  decide

theorem decimal_step {n : ℕ} (h : 10 ≤ n) :
    decimal n = decimal (n / 10) ++ [UInt8.ofNat (48 + n % 10)] := by
  have last := decimal_digit (Nat.mod_lt n (by decide : 10 > 0))
  rw [decimal, Nat.toDigits_of_lt_base (Nat.mod_lt n (by decide))] at last
  rw [decimal, Nat.toDigits_of_base_le (by decide) h, List.map_append, last]
  rfl

theorem decimal_ne_nil (n : ℕ) : decimal n ≠ [] := by
  rw [decimal, ne_eq, List.map_eq_nil_iff]
  exact Nat.toDigits_ne_nil

theorem decimal_digits (n : ℕ) : Digits (decimal n) := by
  refine ⟨decimal_ne_nil n, ?_⟩
  induction n using Nat.strong_induction_on with
  | _ n ih =>
    have digit : ∀ k < 10, (48 : UInt8) ≤ UInt8.ofNat (48 + k) ∧ UInt8.ofNat (48 + k) ≤ 57 := by decide
    by_cases small : n < 10
    · rw [decimal_digit small]
      intro c hc
      rw [List.mem_singleton.mp hc]
      exact digit n small
    · rw [decimal_step (by omega)]
      intro c hc
      obtain front | last := List.mem_append.mp hc
      · exact ih (n / 10) (by omega) c front
      · rw [List.mem_singleton.mp last]
        exact digit _ (Nat.mod_lt n (by decide))

theorem decimalValue_decimal (n : ℕ) : decimalValue (decimal n) = n := by
  induction n using Nat.strong_induction_on with
  | _ n ih =>
    have digit : ∀ k < 10, (UInt8.ofNat (48 + k)).toNat - 48 = k := by decide
    by_cases small : n < 10
    · rw [decimal_digit small]
      change 0 * 10 + ((UInt8.ofNat (48 + n)).toNat - 48) = n
      rw [digit n small]
      omega
    · have front := ih (n / 10) (by omega)
      rw [decimal_step (by omega), decimalValue, List.foldl_append]
      change decimalValue (decimal (n / 10)) * 10 + ((UInt8.ofNat (48 + n % 10)).toNat - 48) = n
      rw [front, digit _ (Nat.mod_lt n (by decide))]
      omega

theorem decimal_length_le {n k : ℕ} (h : 0 < k) : (decimal n).length ≤ k ↔ n < 10 ^ k := by
  rw [decimal, List.length_map]
  exact Nat.length_toDigits_le_iff (by decide) h

theorem decimal_length_word {n : ℕ} (h : n < 2 ^ 32) : (decimal n).length ≤ 10 :=
  (decimal_length_le (by decide)).mpr (by omega)

theorem digitLoop_decimal {fuel u : ℕ} (pos : 0 < u) (h : u < 10 ^ fuel) :
    (digitLoop fuel u).reverse = decimal u := by
  induction fuel generalizing u with
  | zero =>
    rw [Nat.pow_zero] at h
    omega
  | succ fuel ih =>
    rw [digitLoop, if_neg (by omega), List.reverse_cons]
    by_cases small : u < 10
    · have stop : digitLoop fuel 0 = [] := by
        cases fuel with
        | zero => rfl
        | succ fuel => exact if_pos rfl
      rw [Nat.div_eq_of_lt small, stop, Nat.mod_eq_of_lt small, decimal_digit small]
      rfl
    · have last := decimal_step (Nat.le_of_not_lt small)
      rw [Nat.pow_succ] at h
      rw [ih (by omega) (by omega), last]

theorem tmpDigits_decimal {u : ℕ} (h : u < 2 ^ 32) : (tmpDigits u).reverse = decimal u := by
  rw [tmpDigits]
  split
  · rename_i zero
    rw [zero]
    rfl
  · exact digitLoop_decimal (by omega) (by omega)

theorem i32ToStr_decimal {v : ℤ} (lo : -2 ^ 31 ≤ v) (hi : v < 2 ^ 31) : i32ToStr v = signedDecimal v := by
  rw [i32ToStr, signedDecimal, tmpDigits_decimal (by omega)]
  rfl

theorem sfIdLoop_decimal {id : ℕ} (h : id < 2 ^ 32) : sfIdLoop (decimal id) 0 = (id, []) := by
  rw [sfIdLoop_value (decimal_digits id), decimalValue_decimal, Nat.mod_eq_of_lt h]

example : i32ToStr (-2147483648) = ascii "-2147483648" := by decide

end Cerco.ClientDigits
