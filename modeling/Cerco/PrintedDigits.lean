import Cerco.ByteMemory
import Cerco.ClientDigits
import Cerco.SignedArith

set_option autoImplicit false

/-!
# Digits in scratch arrays

`sb_putu` fills its array from the right, two digits at a time as long as it can;
`cerco_i32_to_str` fills it from the left and copies it out backwards.
-/
namespace Cerco.PrintedDigits
open Cerco.ByteMemory Cerco.CString Cerco.ClientDigits Cerco.SignedArith
open Cerco.Response (decimal)

/-- A store into an array of `size` bytes; there is none outside of it. -/
def store (size : ℕ) (tmp : Mem) (i : ℤ) (c : UInt8) : Option Mem :=
  if 0 ≤ i ∧ i < size then some (tmp.set i.toNat c) else none

def digitPairs : Bytes :=
  ascii "000102030405060708091011121314151617181920212223242526272829" ++
    ascii "303132333435363738394041424344454647484950515253545556575859" ++
    ascii "606162636465666768697071727374757677787980818283848586878889" ++
    ascii "90919293949596979899"

/-- `'0' + d` -/
def digitChar (d : ℕ) : UInt8 := UInt8.ofNat (48 + d)

/-- `while (v >= 100)` -/
def pairLoop (v : ℕ) (tmp : Mem) (i : ℤ) : Option (ℕ × Mem × ℤ) :=
  if 100 ≤ v then
    digitPairs[v % 100 * 2]?.bind fun high =>
      (store 24 tmp (i - 1) high).bind fun tmp =>
        digitPairs[v % 100 * 2 + 1]?.bind fun low =>
          (store 24 tmp i low).bind fun tmp => pairLoop (v / 100) tmp (i - 2)
  else some (v, tmp, i)
termination_by v
decreasing_by omega

/-- `while (v >= 10)` -/
def singleLoop (v : ℕ) (tmp : Mem) (i : ℤ) : Option (ℕ × Mem × ℤ) :=
  if 10 ≤ v then (store 24 tmp i (digitChar (v % 10))).bind fun tmp => singleLoop (v / 10) tmp (i - 1)
  else some (v, tmp, i)
termination_by v
decreasing_by omega

/-- The text that `sb_putu` puts; `tmp` is the array as it was found. -/
def putuText (tmp : Mem) (v : UInt64) : Option Bytes :=
  (store 24 tmp 23 0).bind fun tmp =>
    (pairLoop v.toNat tmp 22).bind fun (v, tmp, i) =>
      (singleLoop v tmp i).bind fun (v, tmp, i) =>
        (store 24 tmp i (digitChar v)).map fun tmp => tmp.load (i - 1 + 1).toNat (22 - (i - 1)).toNat

/-- `(unsigned long long)(-(v + 1)) + 1` -/
def negated (v : ℤ) : Option UInt64 :=
  (signed 63 (v + 1)).bind fun next => (signed 63 (-next)).map fun flipped => UInt64.ofNat flipped.toNat + 1

/-- `while (u) { tmp[i++] = '0' + u % 10; u /= 10; }` -/
def fillLoop (u : ℕ) (tmp : Mem) (i : ℕ) : Option (Mem × ℕ) :=
  if u = 0 then some (tmp, i)
  else (store 12 tmp i (digitChar (u % 10))).bind fun tmp => fillLoop (u / 10) tmp (i + 1)
termination_by u
decreasing_by omega

/-- The digits of `u` in `tmp`, from the last one on. -/
def fillDigits (u : ℕ) (tmp : Mem) : Option (Mem × ℕ) :=
  if u = 0 then (store 12 tmp 0 48).bind fun tmp => fillLoop u tmp 1 else fillLoop u tmp 0

/-- `while (i) buf[o++] = tmp[--i];` -/
def copyLoop (tmp : Mem) (buf : ℕ) : ℕ → Mem → ℕ → Mem × ℕ
  | 0, m, o => (m, o)
  | i + 1, m, o => copyLoop tmp buf i (m.set (buf + o) (tmp i)) (o + 1)

/-- `cerco_i32_to_str`: the memory it leaves and what it returns. -/
def cercoI32ToStr (tmp m : Mem) (buf : ℕ) (v : Int32) : Option (Mem × ℕ) :=
  (if v.toInt < 0 then signed 63 (-v.toInt) else some v.toInt).bind fun z =>
    let u := (z % 2 ^ 32).toNat
    (fillDigits u tmp).map fun (tmp, i) =>
      let start := if v.toInt < 0 then (m.set buf 45, 1) else (m, 0)
      let copied := copyLoop tmp buf i start.1 start.2
      (copied.1.set (buf + copied.2) 0, copied.2)

theorem store_inside {size : ℕ} {tmp : Mem} {i : ℤ} {c : UInt8} (lo : 0 ≤ i) (hi : i < size) :
    store size tmp i c = some (tmp.set i.toNat c) := if_pos ⟨lo, hi⟩

theorem pairs_getElem (f g : ℕ → UInt8) (l : List ℕ) (i : ℕ) :
    (l.flatMap fun r => [f r, g r])[i * 2]? = l[i]?.map f ∧
      (l.flatMap fun r => [f r, g r])[i * 2 + 1]? = l[i]?.map g := by
  induction l generalizing i with
  | nil => exact ⟨rfl, rfl⟩
  | cons r l ih =>
    cases i with
    | zero => exact ⟨rfl, rfl⟩
    | succ i =>
      have double : (i + 1) * 2 = i * 2 + 1 + 1 := by omega
      rw [double]
      exact ih i

theorem digitPairs_eq : digitPairs = (List.range 100).flatMap fun r => [digitChar (r / 10), digitChar (r % 10)] := by
  decide +kernel

theorem digitPairs_value {r : ℕ} (h : r < 100) : digitPairs[r * 2]? = some (digitChar (r / 10)) ∧
    digitPairs[r * 2 + 1]? = some (digitChar (r % 10)) := by
  obtain ⟨high, low⟩ := pairs_getElem (fun r => digitChar (r / 10)) (fun r => digitChar (r % 10)) (List.range 100) r
  rw [digitPairs_eq, high, low, List.getElem?_range h]
  exact ⟨rfl, rfl⟩

theorem decimal_single {n : ℕ} (h : n < 10) : decimal n = [digitChar n] := decimal_digit h

theorem decimal_last {n : ℕ} (h : 10 ≤ n) : decimal n = decimal (n / 10) ++ [digitChar (n % 10)] := decimal_step h

theorem decimal_pair {n : ℕ} (h : 100 ≤ n) :
    decimal n = decimal (n / 100) ++ [digitChar (n % 100 / 10), digitChar (n % 100 % 10)] := by
  have tens : n / 10 / 10 = n / 100 := Nat.div_div_eq_div_mul n 10 10
  have high : n / 10 % 10 = n % 100 / 10 := by omega
  have low : n % 10 = n % 100 % 10 := by omega
  rw [decimal_last (by omega), decimal_last (n := n / 10) (by omega), tens, high, low, List.append_assoc]
  rfl

/-- `v` is what is left to print of `all`; the other digits stand behind `i`. -/
def Printed (all : Bytes) (v : ℕ) (tmp : Mem) (i : ℤ) : Prop :=
  ∃ k : ℕ, i = 22 - k ∧ (decimal v).length + k ≤ 20 ∧ decimal v ++ tmp.load (23 - k) k = all

theorem pairLoop_printed {all : Bytes} {v : ℕ} {tmp : Mem} {i : ℤ} (h : Printed all v tmp i) :
    ∃ w t j, pairLoop v tmp i = some (w, t, j) ∧ Printed all w t j := by
  induction v using Nat.strong_induction_on generalizing tmp i with
  | _ v ih =>
    rw [pairLoop]
    by_cases more : 100 ≤ v
    · obtain ⟨k, rfl, room, digits⟩ := h
      have split := decimal_pair more
      obtain ⟨high, low⟩ := digitPairs_value (Nat.mod_lt v (by decide : 100 > 0))
      rw [split, List.length_append, List.length_cons, List.length_singleton] at room
      rw [if_pos more, high, Option.bind_some, store_inside (by omega) (by omega), Option.bind_some, low,
        Option.bind_some, store_inside (by omega) (by omega), Option.bind_some]
      refine ih (v / 100) (by omega) ⟨k + 2, by omega, by omega, ?_⟩
      have first : (22 - (k : ℤ) - 1).toNat = 23 - (k + 2) := by omega
      have second : (22 - (k : ℤ)).toNat = 23 - (k + 2) + 1 := by omega
      have place : 23 - (k + 2) + 2 = 23 - k := by omega
      have printed := load_write_front tmp (23 - (k + 2)) k [digitChar (v % 100 / 10), digitChar (v % 100 % 10)]
      rw [List.length_cons, List.length_singleton, Nat.add_comm _ k, place] at printed
      rw [first, second, ← digits, split, List.append_assoc, ← printed]
      rfl
    · rw [if_neg more]
      exact ⟨v, tmp, i, rfl, h⟩

theorem singleLoop_printed {all : Bytes} {v : ℕ} {tmp : Mem} {i : ℤ} (h : Printed all v tmp i) :
    ∃ w t j, singleLoop v tmp i = some (w, t, j) ∧ w < 10 ∧ Printed all w t j := by
  induction v using Nat.strong_induction_on generalizing tmp i with
  | _ v ih =>
    rw [singleLoop]
    by_cases more : 10 ≤ v
    · obtain ⟨k, rfl, room, digits⟩ := h
      have split := decimal_last more
      have some := List.length_pos_iff.mpr (decimal_ne_nil (v / 10))
      rw [split, List.length_append, List.length_singleton] at room
      rw [if_pos more, store_inside (by omega) (by omega), Option.bind_some]
      refine ih (v / 10) (by omega) ⟨k + 1, by omega, by omega, ?_⟩
      have first : (22 - (k : ℤ)).toNat = 23 - (k + 1) := by omega
      have place : 23 - (k + 1) + 1 = 23 - k := by omega
      have printed := load_write_front tmp (23 - (k + 1)) k [digitChar (v % 10)]
      rw [List.length_singleton, Nat.add_comm _ k, place] at printed
      rw [first, ← digits, split, List.append_assoc, ← printed]
      rfl
    · rw [if_neg more]
      exact ⟨v, tmp, i, rfl, by omega, h⟩

theorem putuText_decimal (tmp : Mem) (v : UInt64) : putuText tmp v = some (decimal v.toNat) := by
  have short : (decimal v.toNat).length ≤ 20 := by
    have word := v.toNat_lt
    exact (decimal_length_le (by decide)).mpr (by omega)
  have start : Printed (decimal v.toNat) v.toNat (tmp.set 23 0) 22 :=
    ⟨0, rfl, short, List.append_nil _⟩
  obtain ⟨w, t, j, pairs, rest⟩ := pairLoop_printed start
  obtain ⟨d, t, j, singles, small, k, rfl, room, digits⟩ := singleLoop_printed rest
  have one := decimal_single small
  rw [one, List.length_singleton] at room
  have printed := load_write_front t (22 - k) k [digitChar d]
  have place : 22 - k + 1 = 23 - k := by omega
  rw [List.length_singleton, place] at printed
  have first : (22 - (k : ℤ)).toNat = 22 - k := by omega
  have front : (22 - (k : ℤ) - 1 + 1).toNat = 22 - k := by omega
  have count : (22 - (22 - (k : ℤ) - 1)).toNat = 1 + k := by omega
  unfold putuText
  rw [store_inside (by decide) (by decide), Option.bind_some]
  change ((pairLoop v.toNat (tmp.set 23 0) 22).bind _) = _
  rw [pairs, Option.bind_some]
  dsimp only
  rw [singles, Option.bind_some]
  dsimp only
  rw [store_inside (by omega) (by omega), Option.map_some, first, front, count, ← digits, one, ← printed]
  rfl

theorem negated_natAbs {v : ℤ} (neg : v < 0) (lo : -2 ^ 63 ≤ v) : ∃ u, negated v = some u ∧ u.toNat = v.natAbs := by
  refine ⟨UInt64.ofNat (-(v + 1)).toNat + 1, ?_, ?_⟩
  · rw [negated, signed_bind ⟨by omega, by omega⟩, signed_some ⟨by omega, by omega⟩]
    rfl
  · have low : (UInt64.ofNat (-(v + 1)).toNat).toNat = (-(v + 1)).toNat := UInt64.toNat_ofNat_of_lt' (by
      change _ < 2 ^ 64
      omega)
    rw [UInt64.toNat_add, low]
    change ((-(v + 1)).toNat + 1) % 2 ^ 64 = _
    omega

def leftDigits (u : ℕ) : Bytes := if u = 0 then [] else decimal u

theorem leftDigits_last {u : ℕ} (some : u ≠ 0) : leftDigits u = leftDigits (u / 10) ++ [digitChar (u % 10)] := by
  unfold leftDigits
  rw [if_neg some]
  by_cases small : u < 10
  · rw [if_pos (Nat.div_eq_of_lt small), Nat.mod_eq_of_lt small]
    exact decimal_single small
  · rw [if_neg (by omega)]
    exact decimal_last (by omega)

theorem load_set_last (m : Mem) (a k : ℕ) (c : UInt8) : (m.set (a + k) c).load a (k + 1) = m.load a k ++ [c] :=
  load_write_behind m a k [c]

theorem fillLoop_filled {all : Bytes} {u i : ℕ} {tmp : Mem} (short : all.length ≤ 12)
    (h : leftDigits u ++ (tmp.load 0 i).reverse = all) :
    ∃ t j, fillLoop u tmp i = some (t, j) ∧ (t.load 0 j).reverse = all := by
  induction u using Nat.strong_induction_on generalizing tmp i with
  | _ u ih =>
    rw [fillLoop]
    by_cases zero : u = 0
    · rw [if_pos zero]
      rw [leftDigits, if_pos zero, List.nil_append] at h
      exact ⟨tmp, i, rfl, h⟩
    · have split := leftDigits_last zero
      have room : i < 12 := by
        rw [← h, split] at short
        simp only [List.length_append, List.length_singleton, List.length_reverse, load_length] at short
        omega
      rw [if_neg zero, store_inside (by omega) (by omega), Option.bind_some]
      refine ih (u / 10) (by omega) ?_
      have next := load_set_last tmp 0 i (digitChar (u % 10))
      rw [Nat.zero_add] at next
      rw [Int.toNat_natCast, next, List.reverse_append, ← h, split, List.append_assoc]
      rfl

theorem fillDigits_decimal {u : ℕ} (tmp : Mem) (short : (decimal u).length ≤ 12) :
    ∃ t j, fillDigits u tmp = some (t, j) ∧ (t.load 0 j).reverse = decimal u := by
  unfold fillDigits
  by_cases zero : u = 0
  · rw [if_pos zero, store_inside (by decide) (by decide), Option.bind_some]
    refine fillLoop_filled short ?_
    rw [leftDigits, if_pos zero, zero]
    rfl
  · rw [if_neg zero]
    refine fillLoop_filled short ?_
    rw [leftDigits, if_neg zero]
    exact List.append_nil _

theorem copyLoop_write (tmp : Mem) (buf i : ℕ) (m : Mem) (o : ℕ) :
    copyLoop tmp buf i m o = (m.write (buf + o) (tmp.load 0 i).reverse, o + i) := by
  induction i generalizing m o with
  | zero => rfl
  | succ i ih =>
    have last := load_append tmp 0 i 1
    rw [Nat.zero_add] at last
    rw [copyLoop, ih, last, List.reverse_append, Nat.add_assoc o 1 i, Nat.add_comm 1 i]
    rfl

theorem signedDecimal_length (v : Int32) : (signedDecimal v.toInt).length + 1 ≤ 12 := by
  have lo := v.le_toInt
  have hi := v.toInt_lt
  have digits : (decimal v.toInt.natAbs).length ≤ 10 := decimal_length_word (by omega)
  rw [signedDecimal, List.length_append]
  split
  · change 1 + _ + 1 ≤ 12
    omega
  · change 0 + _ + 1 ≤ 12
    omega

theorem cercoI32ToStr_decimal (tmp m : Mem) (buf : ℕ) (v : Int32) :
    cercoI32ToStr tmp m buf v =
      some (m.write buf (signedDecimal v.toInt ++ [0]), (signedDecimal v.toInt).length) := by
  have lo := v.le_toInt
  have hi := v.toInt_lt
  have word : (if v.toInt < 0 then signed 63 (-v.toInt) else some v.toInt) = some (v.toInt.natAbs : ℤ) := by
    by_cases neg : v.toInt < 0
    · rw [if_pos neg, signed_some ⟨by omega, by omega⟩]
      exact congrArg some (by omega)
    · rw [if_neg neg]
      exact congrArg some (by omega)
  have u : ((v.toInt.natAbs : ℤ) % 2 ^ 32).toNat = v.toInt.natAbs := by omega
  have ten := decimal_length_word (n := v.toInt.natAbs) (by omega)
  obtain ⟨t, j, filled, digits⟩ := fillDigits_decimal tmp (u := v.toInt.natAbs) (by omega)
  have count : j = (decimal v.toInt.natAbs).length := by rw [← digits, List.length_reverse, load_length]
  unfold cercoI32ToStr
  rw [word, Option.bind_some]
  dsimp only
  rw [u, filled, Option.map_some]
  dsimp only
  rw [copyLoop_write, digits, count, signedDecimal]
  by_cases neg : v.toInt < 0
  · rw [if_pos neg, if_pos neg, write_append, List.length_append]
    rfl
  · rw [if_neg neg, if_neg neg, List.nil_append, write_append, Nat.zero_add]
    rfl

theorem cercoI32ToStr_text (tmp m : Mem) (buf : ℕ) (v : Int32) :
    cercoI32ToStr tmp m buf v = some (m.write buf (i32ToStr v.toInt ++ [0]), (i32ToStr v.toInt).length) := by
  rw [cercoI32ToStr_decimal, i32ToStr_decimal v.le_toInt v.toInt_lt]

end Cerco.PrintedDigits
