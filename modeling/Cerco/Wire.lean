import Cerco.CString
import Cerco.LittleEndian

set_option autoImplicit false

/-!
# The wire reader of the server functions

A reader walks over a buffer it does not own; pointers into the buffer are
offsets. A decoded value keeps the union `as` as its 64 bits.
-/
namespace Cerco.Wire
open Cerco.CString Cerco.LittleEndian

def wtI32 : UInt8 := 0
def wtI64 : UInt8 := 1
def wtF64 : UInt8 := 2
def wtBool : UInt8 := 3
def wtStr : UInt8 := 4
def wtBytes : UInt8 := 5

structure WReader where
  p : Bytes
  pos : ℕ
  err : Bool
deriving DecidableEq

structure WVal where
  type : UInt8
  as : ℕ
  data : Option ℕ
  len : ℕ
deriving DecidableEq

def WVal.asI32 (v : WVal) : ℕ := v.as % 2 ^ 32
def WVal.asB (v : WVal) : ℕ := v.as % 256

def wreaderInit (data : Bytes) : WReader := ⟨data, 0, false⟩

/-- The offset of the next `n` bytes, if there are so many. -/
def rTake (r : WReader) (n : ℕ) : Option ℕ × WReader :=
  if r.err = true ∨ r.p.length - r.pos < n then (none, { r with err := true })
  else (some r.pos, { r with pos := r.pos + n })

def rU8 (r : WReader) : UInt8 × WReader :=
  match rTake r 1 with
  | (some off, r) => ((r.p.drop off).headD 0, r)
  | (none, r) => (0, r)

def rU32 (r : WReader) : ℕ × WReader :=
  match rTake r 4 with
  | (some off, r) => (leGet ((r.p.drop off).take 4), r)
  | (none, r) => (0, r)

def rU64 (r : WReader) : ℕ × WReader :=
  match rTake r 8 with
  | (some off, r) => (leGet ((r.p.drop off).take 8), r)
  | (none, r) => (0, r)

/-- `cerco_r_val`; the value is written even where the read fails. -/
def rVal (r : WReader) : Bool × WVal × WReader :=
  let (t, r) := rU8 r
  if r.err then (false, ⟨0, 0, none, 0⟩, r)
  else if t = wtI32 ∨ t = wtBool then
    let (v, r) := rU32 r
    (!r.err, ⟨t, v, none, 0⟩, r)
  else if t = wtI64 ∨ t = wtF64 then
    let (v, r) := rU64 r
    (!r.err, ⟨t, v, none, 0⟩, r)
  else if t = wtStr ∨ t = wtBytes then
    let (len, r) := rU32 r
    match rTake r len with
    | (some off, r) => (true, ⟨t, 0, some off, len⟩, r)
    | (none, r) => (false, ⟨t, 0, none, 0⟩, r)
  else (false, ⟨t, 0, none, 0⟩, { r with err := true })

/-- The reader stands in front of `here`. -/
structure At (r : WReader) (here : Bytes) : Prop where
  ok : r.err = false
  rest : r.p.drop r.pos = here
  inside : r.pos ≤ r.p.length

def WReader.skip (r : WReader) (n : ℕ) : WReader := { r with pos := r.pos + n }

theorem skip_skip (r : WReader) (m n : ℕ) : (r.skip m).skip n = r.skip (m + n) := by
  simp [WReader.skip, Nat.add_assoc]

theorem At.err_skip {r : WReader} {here : Bytes} (h : At r here) (n : ℕ) :
    (r.skip n).err = false := h.ok

theorem At.room {r : WReader} {here : Bytes} (h : At r here) :
    r.p.length - r.pos = here.length := by
  rw [← h.rest, List.length_drop]

theorem At.skip {r : WReader} {a b : Bytes} (h : At r (a ++ b)) : At (r.skip a.length) b := by
  have hl := h.room
  rw [List.length_append] at hl
  have hi := h.inside
  refine ⟨h.ok, ?_, ?_⟩
  · change r.p.drop (r.pos + a.length) = b
    rw [← List.drop_drop, h.rest, List.drop_left]
  · change r.pos + a.length ≤ r.p.length
    omega

theorem rTake_at {r : WReader} {a b : Bytes} (h : At r (a ++ b)) :
    rTake r a.length = (some r.pos, r.skip a.length) := by
  have hl := h.room
  rw [List.length_append] at hl
  have hn : ¬ (r.err = true ∨ r.p.length - r.pos < a.length) := by
    rw [h.ok]
    simp only [Bool.false_eq_true, false_or]
    omega
  rw [rTake, if_neg hn]
  rfl

theorem rU8_at {r : WReader} {c : UInt8} {b : Bytes} (h : At r (c :: b)) :
    rU8 r = (c, r.skip 1) := by
  have ht : rTake r 1 = (some r.pos, r.skip 1) := rTake_at (a := [c]) h
  have hd : (r.skip 1).p.drop r.pos = c :: b := h.rest
  simp only [rU8, ht, hd, List.headD_cons]

theorem rU32_at {r : WReader} {v : ℕ} {b : Bytes} (hv : v < 256 ^ 4)
    (h : At r (lePut 4 v ++ b)) : rU32 r = (v, r.skip 4) := by
  have ht := rTake_at h
  rw [lePut_length] at ht
  have hd : (r.skip 4).p.drop r.pos = lePut 4 v ++ b := h.rest
  have hk : (lePut 4 v ++ b).take 4 = lePut 4 v := by
    rw [List.take_append_of_le_length (by simp), List.take_of_length_le (by simp)]
  simp only [rU32, ht, hd, hk, leGet_lePut_of_lt hv]

theorem rU64_at {r : WReader} {v : ℕ} {b : Bytes} (hv : v < 256 ^ 8)
    (h : At r (lePut 8 v ++ b)) : rU64 r = (v, r.skip 8) := by
  have ht := rTake_at h
  rw [lePut_length] at ht
  have hd : (r.skip 8).p.drop r.pos = lePut 8 v ++ b := h.rest
  have hk : (lePut 8 v ++ b).take 8 = lePut 8 v := by
    rw [List.take_append_of_le_length (by simp), List.take_of_length_le (by simp)]
  simp only [rU64, ht, hd, hk, leGet_lePut_of_lt hv]

end Cerco.Wire
