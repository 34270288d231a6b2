import Mathlib.Algebra.Group.Nat.Defs
import Mathlib.Data.List.Basic

set_option autoImplicit false

/-!
# Little-endian bytes

`lePut n v` are the low `n` bytes of `v`, `leGet` reads them back.
-/
namespace Cerco.LittleEndian

def lePut : ℕ → ℕ → List UInt8
  | 0, _ => []
  | n + 1, v => UInt8.ofNat v :: lePut n (v / 256)

def leGet : List UInt8 → ℕ
  | [] => 0
  | b :: bs => b.toNat + 256 * leGet bs

@[simp] theorem lePut_length (n v : ℕ) : (lePut n v).length = n := by
  induction n generalizing v with
  | zero => rfl
  | succ n ih => simp [lePut, ih]

theorem leGet_lePut (n v : ℕ) : leGet (lePut n v) = v % 256 ^ n := by
  induction n generalizing v with
  | zero => simp [lePut, leGet, Nat.mod_one]
  | succ n ih =>
    have hb : (UInt8.ofNat v).toNat = v % 256 := by simp
    rw [lePut, leGet, hb, ih, Nat.pow_succ, Nat.mul_comm (256 ^ n) 256, Nat.mod_mul]

theorem leGet_lePut_of_lt {n v : ℕ} (h : v < 256 ^ n) : leGet (lePut n v) = v := by
  rw [leGet_lePut, Nat.mod_eq_of_lt h]

theorem lePut_leGet (bs : List UInt8) : lePut bs.length (leGet bs) = bs := by
  induction bs with
  | nil => rfl
  | cons b bs ih =>
    have small := b.toNat_lt
    have quot : (b.toNat + 256 * leGet bs) / 256 = leGet bs := by omega
    have low : UInt8.ofNat (b.toNat + 256 * leGet bs) = b := by
      apply UInt8.toNat_inj.mp
      rw [UInt8.toNat_ofNat']
      omega
    rw [List.length_cons, lePut, leGet, quot, ih, low]

theorem leGet_lt (bs : List UInt8) : leGet bs < 256 ^ bs.length := by
  induction bs with
  | nil => exact Nat.one_pos
  | cons b bs ih =>
    have small := b.toNat_lt
    rw [leGet, List.length_cons, Nat.pow_succ]
    omega

end Cerco.LittleEndian
