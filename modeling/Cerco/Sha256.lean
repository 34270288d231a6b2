import Cerco.BlockStream
import Mathlib.Algebra.Group.Nat.Defs

set_option autoImplicit false

/-!
# SHA-256

`c.block` is filled from the front and its bytes behind `c.used` are left over
from earlier blocks.
-/
namespace Cerco.Sha256
open Cerco.BlockStream

abbrev Bytes := List UInt8

/-- The eight words `a` to `h`. -/
abbrev State := Vector UInt32 8

def roundConst : Array UInt32 := #[
  0x428a2f98, 0x71374491, 0xb5c0fbcf, 0xe9b5dba5, 0x3956c25b, 0x59f111f1, 0x923f82a4, 0xab1c5ed5,
  0xd807aa98, 0x12835b01, 0x243185be, 0x550c7dc3, 0x72be5d74, 0x80deb1fe, 0x9bdc06a7, 0xc19bf174,
  0xe49b69c1, 0xefbe4786, 0x0fc19dc6, 0x240ca1cc, 0x2de92c6f, 0x4a7484aa, 0x5cb0a9dc, 0x76f988da,
  0x983e5152, 0xa831c66d, 0xb00327c8, 0xbf597fc7, 0xc6e00bf3, 0xd5a79147, 0x06ca6351, 0x14292967,
  0x27b70a85, 0x2e1b2138, 0x4d2c6dfc, 0x53380d13, 0x650a7354, 0x766a0abb, 0x81c2c92e, 0x92722c85,
  0xa2bfe8a1, 0xa81a664b, 0xc24b8b70, 0xc76c51a3, 0xd192e819, 0xd6990624, 0xf40e3585, 0x106aa070,
  0x19a4c116, 0x1e376c08, 0x2748774c, 0x34b0bcb5, 0x391c0cb3, 0x4ed8aa4a, 0x5b9cca4f, 0x682e6ff3,
  0x748f82ee, 0x78a5636f, 0x84c87814, 0x8cc70208, 0x90befffa, 0xa4506ceb, 0xbef9a3f7, 0xc67178f2]

def rotr (x : UInt32) (n : UInt32) : UInt32 := (x >>> n) ||| (x <<< (32 - n))

/-- Four bytes from `i`, the first one highest. -/
def bigEndian32 (p : Bytes) (i : ℕ) : UInt32 :=
  ((p.getD i 0).toUInt32 <<< 24) ||| ((p.getD (i + 1) 0).toUInt32 <<< 16) |||
    ((p.getD (i + 2) 0).toUInt32 <<< 8) ||| (p.getD (i + 3) 0).toUInt32

/-- The first 16 entries of `w` are the block. -/
def scheduleInit (p : Bytes) : Array UInt32 := (Array.range 16).map fun i => bigEndian32 p (i * 4)

def scheduleNext (w : Array UInt32) (i : ℕ) : UInt32 :=
  let s0 := rotr (w.getD (i - 15) 0) 7 ^^^ rotr (w.getD (i - 15) 0) 18 ^^^ (w.getD (i - 15) 0 >>> 3)
  let s1 := rotr (w.getD (i - 2) 0) 17 ^^^ rotr (w.getD (i - 2) 0) 19 ^^^ (w.getD (i - 2) 0 >>> 10)
  w.getD (i - 16) 0 + s0 + w.getD (i - 7) 0 + s1

def schedule (p : Bytes) : Array UInt32 :=
  (List.range 48).foldl (fun w i => w.push (scheduleNext w (16 + i))) (scheduleInit p)

def shaRound (w : Array UInt32) (s : State) (i : ℕ) : State :=
  let a := s[0]; let b := s[1]; let cc := s[2]; let d := s[3]
  let e := s[4]; let f := s[5]; let g := s[6]; let h := s[7]
  let S1 := rotr e 6 ^^^ rotr e 11 ^^^ rotr e 25
  let ch := (e &&& f) ^^^ (~~~e &&& g)
  let t1 := h + S1 + ch + roundConst.getD i 0 + w.getD i 0
  let S0 := rotr a 2 ^^^ rotr a 13 ^^^ rotr a 22
  let maj := (a &&& b) ^^^ (a &&& cc) ^^^ (b &&& cc)
  let t2 := S0 + maj
  #v[t1 + t2, a, b, cc, d + t1, e, f, g]

/-- `p` points at 64 bytes at least. -/
def shaBlock (s : State) (p : Bytes) : State :=
  Vector.zipWith (· + ·) s ((List.range 64).foldl (shaRound (schedule p)) s)

def sha256Iv : State := #v[
  0x6a09e667, 0xbb67ae85, 0x3c6ef372, 0xa54ff53a, 0x510e527f, 0x9b05688c, 0x1f83d9ab, 0x5be0cd19]

structure Sha256Ctx where
  state : State
  bits : UInt64
  block : Vector UInt8 64
  used : ℕ

/-- `cerco_sha256_init` on memory that held `c`. -/
def sha256Init (c : Sha256Ctx) : Sha256Ctx := { c with state := sha256Iv, bits := 0, used := 0 }

/-- `memcpy(block + at, p, len)` for all of `p`. -/
def blockPut (block : Vector UInt8 64) (start : ℕ) (p : Bytes) : Vector UInt8 64 :=
  Vector.ofFn fun i => if start ≤ i ∧ i < start + p.length then p.getD (i - start) 0 else block[i]

/-- The part of `cerco_sha256_update` under `if (c->used)`, with the bytes it leaves. -/
def topUp (c : Sha256Ctx) (p : Bytes) : Sha256Ctx × Bytes :=
  if c.used = 0 then (c, p)
  else
    let take := min (64 - c.used) p.length
    let block := blockPut c.block c.used (p.take take)
    if c.used + take = 64 then
      ({ c with block := block, state := shaBlock c.state block.toList, used := 0 }, p.drop take)
    else ({ c with block := block, used := c.used + take }, p.drop take)

/-- `while (len >= 64)`. -/
def wholeBlocks (s : State) (p : Bytes) : State × Bytes :=
  if 64 ≤ p.length then wholeBlocks (shaBlock s p) (p.drop 64) else (s, p)
termination_by p.length
decreasing_by rw [List.length_drop]; omega

def sha256Update (c : Sha256Ctx) (data : Bytes) : Sha256Ctx :=
  let c := { c with bits := c.bits + UInt64.ofNat data.length * 8 }
  let (c, p) := topUp c data
  let (state, p) := wholeBlocks c.state p
  if p.length = 0 then { c with state := state }
  else { c with state := state, block := blockPut c.block 0 p, used := p.length }

/-- `while (c->used != 56)`, with the rounds left. -/
def padLoop : ℕ → Sha256Ctx → Option Sha256Ctx
  | 0, _ => none
  | rounds + 1, c => if c.used = 56 then some c else padLoop rounds (sha256Update c [0])

/-- `tail` of `cerco_sha256_final`. -/
def bitsTail (bits : UInt64) : Bytes :=
  (List.range 8).map fun i => (bits >>> UInt64.ofNat (56 - i * 8)).toUInt8

def digestOf (s : State) : Bytes :=
  s.toList.flatMap fun (x : UInt32) => [(x >>> 24).toUInt8, (x >>> 16).toUInt8, (x >>> 8).toUInt8, x.toUInt8]

/-- The loop adds a byte a round, so it takes at most 64. -/
def sha256Final (c : Sha256Ctx) : Option Bytes :=
  (padLoop 65 (sha256Update c [0x80])).map fun padded =>
    digestOf (shaBlock padded.state (blockPut padded.block 56 (bitsTail c.bits)).toList)

/-- `c` is the memory of the local context. -/
def sha256 (c : Sha256Ctx) (data : Bytes) : Option Bytes :=
  sha256Final (sha256Update (sha256Init c) data)

def hexDigit (d : UInt8) : UInt8 := if d < 10 then 48 + d else 87 + d

def hexText (d : Bytes) : Bytes := d.flatMap fun (b : UInt8) => [hexDigit (b >>> 4), hexDigit (b &&& 0xf)]

def bigEndian64 (n : ℕ) : Bytes := (List.range 8).map fun i => UInt8.ofNat (n / 2 ^ (56 - i * 8))

def padZeros (len : ℕ) : ℕ := (55 + 64 - len % 64) % 64

def padded (m : Bytes) : Bytes :=
  m ++ [0x80] ++ List.replicate (padZeros m.length) 0 ++ bigEndian64 (8 * m.length)

/-- The padded message folded block by block. -/
def digest (m : Bytes) : Bytes := digestOf (foldBlocks shaBlock 64 sha256Iv (padded m))

theorem padded_whole (m : Bytes) : 64 ∣ (padded m).length := by
  simp only [padded, padZeros, bigEndian64, List.length_append, List.length_replicate,
    List.length_map, List.length_range, List.length_cons, List.length_nil]
  omega

theorem bigEndian32_take {p : Bytes} {i : ℕ} (low : i + 3 < 64) :
    bigEndian32 (p.take 64) i = bigEndian32 p i := by
  have same : ∀ j, j < 64 → (p.take 64).getD j 0 = p.getD j 0 := by
    intro j hj
    rw [List.getD_eq_getElem?_getD, List.getD_eq_getElem?_getD, List.getElem?_take_of_lt hj]
  unfold bigEndian32
  rw [same i (by omega), same (i + 1) (by omega), same (i + 2) (by omega), same (i + 3) low]

theorem scheduleInit_take (p : Bytes) : scheduleInit (p.take 64) = scheduleInit p := by
  refine Array.map_congr_left fun i hi => bigEndian32_take ?_
  have := Array.mem_range.mp hi
  omega

theorem shaBlock_take (s : State) (p : Bytes) : shaBlock s (p.take 64) = shaBlock s p := by
  unfold shaBlock schedule
  rw [scheduleInit_take]

theorem blockPut_take (block : Vector UInt8 64) (start : ℕ) {p : Bytes}
    (fits : start + p.length ≤ 64) :
    (blockPut block start p).toList.take (start + p.length) = block.toList.take start ++ p := by
  refine List.ext_getElem ?_ ?_
  · simp
    omega
  · intro i h₁ h₂
    have inside : i < start + p.length := by
      rw [List.length_take] at h₁
      omega
    simp only [blockPut, List.getElem_take, Vector.getElem_toList, Vector.getElem_ofFn]
    by_cases old : i < start
    · rw [List.getElem_append_left (by simp; omega), if_neg (by omega)]
      simp
    · have len : (block.toList.take start).length = start := by simp; omega
      rw [List.getElem_append_right (by omega), if_pos ⟨by omega, inside⟩]
      simp only [len]
      exact (List.getElem_eq_getD 0).symm

structure Holds (c : Sha256Ctx) (m : Bytes) : Prop where
  state : c.state = foldBlocks shaBlock 64 sha256Iv m
  used : c.used = (rest 64 m).length
  block : c.block.toList.take c.used = rest 64 m

theorem Holds.used_lt {c : Sha256Ctx} {m : Bytes} (h : Holds c m) : c.used < 64 := by
  rw [h.used]
  exact rest_length_lt (by omega) m

theorem Holds.short {c : Sha256Ctx} {m p : Bytes} (h : Holds c m) (short : c.used + p.length < 64) :
    Holds { c with block := blockPut c.block c.used p, used := c.used + p.length } (m ++ p) := by
  have open_block : (rest 64 m ++ p).length < 64 := by
    rw [List.length_append, ← h.used]
    exact short
  have kept : rest 64 (m ++ p) = rest 64 m ++ p := by
    rw [rest_append (by omega), rest_short open_block]
  refine ⟨?_, ?_, ?_⟩
  · rw [foldBlocks_append shaBlock (by omega), foldBlocks_short shaBlock _ open_block]
    exact h.state
  · rw [kept, List.length_append, ← h.used]
  · rw [kept, ← h.block]
    exact blockPut_take c.block c.used (by omega)

theorem Holds.complete {c : Sha256Ctx} {m p : Bytes} (h : Holds c m)
    (whole : c.used + p.length = 64) :
    Holds { c with
      block := blockPut c.block c.used p
      state := shaBlock c.state (blockPut c.block c.used p).toList, used := 0 } (m ++ p) := by
  have filled : (blockPut c.block c.used p).toList = rest 64 m ++ p := by
    have taken := blockPut_take c.block c.used (p := p) (by omega)
    rw [h.block, whole] at taken
    rw [← taken, List.take_of_length_le (by simp)]
  have length : (rest 64 m ++ p).length = 64 := by
    rw [List.length_append, ← h.used]
    exact whole
  have nothing : rest 64 (m ++ p) = [] := by
    rw [rest_append (by omega), rest_block (by omega) length]
  refine ⟨?_, ?_, ?_⟩
  · dsimp only
    rw [foldBlocks_append shaBlock (by omega), foldBlocks_block shaBlock _ (by omega) length,
      ← h.state, filled]
  · rw [nothing]
    rfl
  · rw [nothing]
    rfl

theorem topUp_holds {c : Sha256Ctx} {m : Bytes} (h : Holds c m) (p : Bytes) :
    ∃ k, (topUp c p).2 = p.drop k ∧ Holds (topUp c p).1 (m ++ p.take k) ∧
      ((topUp c p).1.used = 0 ∨ p.drop k = []) := by
  have bound := h.used_lt
  unfold topUp
  split
  · rename_i empty
    exact ⟨0, rfl, by simpa using h, .inl empty⟩
  · dsimp only
    have len : (p.take (min (64 - c.used) p.length)).length = min (64 - c.used) p.length := by
      rw [List.length_take]
      omega
    refine ⟨min (64 - c.used) p.length, ?_⟩
    split
    · rename_i whole
      exact ⟨rfl, h.complete (by rw [len]; exact whole), .inl rfl⟩
    · rename_i partly
      have held := h.short (p := p.take (min (64 - c.used) p.length)) (by rw [len]; omega)
      rw [len] at held
      exact ⟨rfl, held, .inr (List.drop_eq_nil_of_le (by omega))⟩

theorem wholeBlocks_eq (s : State) (p : Bytes) :
    wholeBlocks s p = (foldBlocks shaBlock 64 s p, rest 64 p) := by
  induction s, p using wholeBlocks.induct with
  | case1 s p long ih =>
    have first : (p.take 64).length = 64 := by
      rw [List.length_take]
      omega
    rw [wholeBlocks, if_pos long, ih, ← shaBlock_take s p]
    conv => rhs; rw [← List.take_append_drop 64 p]
    rw [foldBlocks_append shaBlock (by omega), foldBlocks_block shaBlock _ (by omega) first,
      rest_append (by omega), rest_block (by omega) first, List.nil_append]
  | case2 s p short =>
    rw [wholeBlocks, if_neg short, foldBlocks_short shaBlock s (by omega), rest_short (by omega)]

theorem sha256Update_holds {c : Sha256Ctx} {m : Bytes} (h : Holds c m) (p : Bytes) :
    Holds (sha256Update c p) (m ++ p) := by
  have counted : Holds { c with bits := c.bits + UInt64.ofNat p.length * 8 } m :=
    ⟨h.state, h.used, h.block⟩
  obtain ⟨k, left, topped, done⟩ := topUp_holds counted p
  have split : m ++ p = (m ++ p.take k) ++ p.drop k := by
    rw [List.append_assoc, List.take_append_drop]
  unfold sha256Update
  dsimp only
  rw [wholeBlocks_eq, left, split]
  generalize topUp { c with bits := c.bits + UInt64.ofNat p.length * 8 } p = r at topped done ⊢
  generalize m ++ p.take k = m₁ at topped ⊢
  generalize p.drop k = q at done ⊢
  obtain empty | rfl := done
  · have nothing : rest 64 m₁ = [] := List.eq_nil_of_length_eq_zero (topped.used.symm.trans empty)
    have state : foldBlocks shaBlock 64 r.1.state q = foldBlocks shaBlock 64 sha256Iv (m₁ ++ q) := by
      rw [foldBlocks_append shaBlock (by omega), nothing, topped.state, List.nil_append]
    have behind : rest 64 (m₁ ++ q) = rest 64 q := by
      rw [rest_append (by omega), nothing, List.nil_append]
    split
    · rename_i zero
      have none_left : rest 64 q = [] := List.eq_nil_of_length_eq_zero zero
      refine ⟨state, ?_, ?_⟩
      · rw [behind, none_left]
        exact empty
      · rw [behind, none_left]
        dsimp only
        rw [empty, List.take_zero]
    · refine ⟨state, by rw [behind], ?_⟩
      have taken := blockPut_take r.1.block 0 (p := rest 64 q)
        (by have := rest_length_lt (n := 64) (by omega) q; omega)
      rw [Nat.zero_add, List.take_zero, List.nil_append] at taken
      rw [behind]
      exact taken
  · have none_left : rest 64 ([] : Bytes) = [] := rest_short (by simp)
    rw [none_left, List.append_nil, foldBlocks_short shaBlock _ (by simp)]
    exact topped

theorem sha256Init_holds (c : Sha256Ctx) : Holds (sha256Init c) [] := by
  have nothing : rest 64 ([] : Bytes) = [] := rest_short (by simp)
  refine ⟨(foldBlocks_short shaBlock _ (by simp)).symm, ?_, ?_⟩
  · rw [nothing]
    rfl
  · rw [nothing]
    rfl

theorem topUp_bits (c : Sha256Ctx) (p : Bytes) : (topUp c p).1.bits = c.bits := by
  unfold topUp
  split
  · rfl
  · dsimp only
    split <;> rfl

theorem sha256Update_bits (c : Sha256Ctx) (p : Bytes) :
    (sha256Update c p).bits = c.bits + UInt64.ofNat p.length * 8 := by
  have kept := topUp_bits { c with bits := c.bits + UInt64.ofNat p.length * 8 } p
  unfold sha256Update
  dsimp only
  split <;> exact kept

theorem updates_hold {c : Sha256Ctx} {m : Bytes} (ps : List Bytes) (h : Holds c m)
    (counted : c.bits = UInt64.ofNat (8 * m.length)) :
    Holds (ps.foldl sha256Update c) (m ++ ps.flatten) ∧
      (ps.foldl sha256Update c).bits = UInt64.ofNat (8 * (m ++ ps.flatten).length) := by
  induction ps generalizing c m with
  | nil =>
    rw [List.flatten_nil, List.append_nil]
    exact ⟨h, counted⟩
  | cons p ps ih =>
    rw [List.foldl_cons, List.flatten_cons, ← List.append_assoc]
    refine ih (sha256Update_holds h p) ?_
    rw [sha256Update_bits, counted, List.length_append, Nat.mul_add, UInt64.ofNat_add,
      Nat.mul_comm 8 p.length, UInt64.ofNat_mul p.length 8]
    rfl

theorem bitsTail_eq {n : ℕ} (small : n < 2 ^ 64) : bitsTail (UInt64.ofNat n) = bigEndian64 n := by
  refine List.map_congr_left fun i hi => ?_
  have low : 56 - i * 8 < 64 := by omega
  apply UInt8.toNat_inj.mp
  rw [UInt64.toNat_toUInt8, UInt64.toNat_shiftRight, UInt64.toNat_ofNat_of_lt' small,
    UInt64.toNat_ofNat_of_lt' (by simp only [UInt64.size]; omega), Nat.mod_eq_of_lt low, Nat.shiftRight_eq_div_pow,
    UInt8.toNat_ofNat']

theorem padLoop_holds {c : Sha256Ctx} {m : Bytes} (zeros rounds : ℕ) (h : Holds c m)
    (missing : (m.length + zeros) % 64 = 56) (least : zeros < 64) (enough : zeros < rounds) :
    ∃ c', padLoop rounds c = some c' ∧ Holds c' (m ++ List.replicate zeros 0) ∧ c'.used = 56 := by
  have used : c.used = m.length % 64 := h.used.trans (rest_length m)
  induction zeros generalizing c m rounds with
  | zero =>
    obtain ⟨rounds, rfl⟩ := Nat.exists_eq_succ_of_ne_zero (Nat.ne_of_gt enough)
    have full : c.used = 56 := used.trans missing
    exact ⟨c, if_pos full, by simpa using h, full⟩
  | succ zeros ih =>
    obtain ⟨rounds, rfl⟩ := Nat.exists_eq_succ_of_ne_zero (Nat.ne_of_gt (Nat.zero_lt_of_lt enough))
    have fed := sha256Update_holds h [0]
    have grown : (m ++ [0]).length = m.length + 1 := by simp
    obtain ⟨c', e, held, full⟩ := ih rounds fed (by rw [grown]; omega) (by omega) (by omega)
      (fed.used.trans (rest_length _))
    refine ⟨c', ?_, ?_, full⟩
    · rw [padLoop, if_neg (by omega)]
      exact e
    · rw [List.replicate_succ, List.append_cons]
      exact held

theorem sha256Final_holds {c : Sha256Ctx} {m : Bytes} (h : Holds c m)
    (counted : c.bits = UInt64.ofNat (8 * m.length)) (short : m.length < 2 ^ 61) :
    sha256Final c = some (digest m) := by
  have marked := sha256Update_holds h [0x80]
  obtain ⟨c', e, held, full⟩ := padLoop_holds (padZeros m.length) 65 marked
    (by simp [padZeros]; omega) (by unfold padZeros; omega) (by unfold padZeros; omega)
  have tail : bitsTail c.bits = bigEndian64 (8 * m.length) := by
    rw [counted]
    exact bitsTail_eq (by omega)
  have last := (held.complete (p := bigEndian64 (8 * m.length))
    (by rw [full]; simp [bigEndian64])).state
  rw [full] at last
  rw [sha256Final, e, Option.map_some, tail]
  exact congrArg (fun s => some (digestOf s)) last

/-- Every way of feeding a message gives the digest of the message. -/
theorem sha256_streaming (c c' : Sha256Ctx) (ps : List Bytes)
    (short : ps.flatten.length < 2 ^ 61) :
    sha256Final (ps.foldl sha256Update (sha256Init c)) = some (digest ps.flatten) ∧
      sha256 c' ps.flatten = some (digest ps.flatten) := by
  obtain ⟨pieces, counted⟩ := updates_hold ps (sha256Init_holds c) rfl
  obtain ⟨whole, counted'⟩ := updates_hold [ps.flatten] (sha256Init_holds c') rfl
  rw [List.nil_append] at pieces counted whole counted'
  rw [List.flatten_singleton] at whole counted'
  exact ⟨sha256Final_holds pieces counted short, sha256Final_holds whole counted' short⟩

def blankCtx : Sha256Ctx := ⟨sha256Iv, 0, Vector.replicate 64 0, 0⟩

theorem sha256_abc :
    sha256Final ([[0x61], [], [0x62, 0x63]].foldl sha256Update (sha256Init blankCtx)) =
        some (digest [0x61, 0x62, 0x63]) ∧
      sha256 blankCtx [0x61, 0x62, 0x63] = some (digest [0x61, 0x62, 0x63]) :=
  sha256_streaming blankCtx blankCtx [[0x61], [], [0x62, 0x63]] (by decide)

example : digest [0x61, 0x62, 0x63] = [
    0xba, 0x78, 0x16, 0xbf, 0x8f, 0x01, 0xcf, 0xea, 0x41, 0x41, 0x40, 0xde, 0x5d, 0xae, 0x22, 0x23,
    0xb0, 0x03, 0x61, 0xa3, 0x96, 0x17, 0x7a, 0x9c, 0xb4, 0x10, 0xff, 0x61, 0xf2, 0x00, 0x15, 0xad] := by
  decide +kernel

end Cerco.Sha256
