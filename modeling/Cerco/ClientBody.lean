import Cerco.ByteMemory
import Cerco.ServerFunctions
import Mathlib.Data.Int.Notation

set_option autoImplicit false

/-!
# The request body as the client writes it

The calls store into `sf_body` byte by byte, and the header is put in front
afterwards by moving everything up. Addresses are offsets from `sf_body`.
-/
namespace Cerco.ClientBody
open Cerco.ByteMemory Cerco.CString Cerco.LittleEndian Cerco.Wire
open Cerco.ServerFunctions (ClientArg CStr sfBodyMax encoded encodedAll encodedAll_cons valOf valsOf
  rVal_encoded sfStub sfStub_fits Fits)

structure SfBuf where
  mem : Mem
  len : ℕ
  id : UInt32
  nargs : UInt32

def sfBegin (m : Mem) (id nargs : UInt32) : SfBuf := ⟨m, 0, id, nargs⟩

def putU32 (v : ℕ) : Bytes :=
  [UInt8.ofNat v, UInt8.ofNat (v >>> 8), UInt8.ofNat (v >>> 16), UInt8.ofNat (v >>> 24)]

/-- The loop over `u >> (i * 8)`. -/
def putU64 (u : ℕ) : Bytes := (List.range 8).map fun i => UInt8.ofNat (u >>> (i * 8))

def SfBuf.put (b : SfBuf) (bs : Bytes) : SfBuf :=
  { b with mem := b.mem.write b.len bs, len := b.len + bs.length }

-- `sf_reserve` returns either way, so these four store even where the buffer ends
def sfArgI32 (b : SfBuf) (v : UInt32) : SfBuf := (b.put [wtI32]).put (putU32 v.toNat)
def sfArgBool (b : SfBuf) (v : UInt32) : SfBuf :=
  (b.put [wtBool]).put (putU32 (if v ≠ 0 then 1 else 0))
def sfArgI64 (b : SfBuf) (v : UInt64) : SfBuf := (b.put [wtI64]).put (putU64 v.toNat)
def sfArgF64 (b : SfBuf) (v : UInt64) : SfBuf := (b.put [wtF64]).put (putU64 v.toNat)

def sfArgBlock (b : SfBuf) (t : UInt8) (d : Bytes) : SfBuf :=
  if sfBodyMax < b.len + 5 + d.length then { b with len := sfBodyMax + 1 }
  else ((b.put [t]).put (putU32 d.length)).put d

def cstrBytes (s : Option CStr) : Bytes := (s.map (·.1)).getD []

def sfArgStr (b : SfBuf) (s : Option CStr) : SfBuf := sfArgBlock b wtStr (cstrBytes s)

/-- `d` are the bytes behind the pointer. -/
def sfArgBytes (b : SfBuf) (d : Bytes) (len : ℤ) : SfBuf := sfArgBlock b wtBytes (d.take len.toNat)

inductive ArgCall
  | i32 (v : UInt32)
  | bool (v : UInt32)
  | i64 (v : UInt64)
  | f64 (v : UInt64)
  | str (s : Option CStr)
  | bytes (d : Bytes) (len : ℤ) (room : len ≤ d.length)

def ArgCall.run (b : SfBuf) : ArgCall → SfBuf
  | .i32 v => sfArgI32 b v
  | .bool v => sfArgBool b v
  | .i64 v => sfArgI64 b v
  | .f64 v => sfArgF64 b v
  | .str s => sfArgStr b s
  | .bytes d len _ => sfArgBytes b d len

/-- `sf_pending`; a slot is free when its callback is NULL. -/
structure Pending where
  cb : Option ℕ
  user : ℕ
  wantType : UInt8
deriving DecidableEq

def freeSlot (pending : List Pending) : Option ℕ := pending.findIdx? fun p => p.cb.isNone

def frameHeader (b : SfBuf) : SfBuf :=
  { b with mem := (b.mem.move 4 0 b.len).write 0 (putU32 b.nargs.toNat), len := b.len + 4 }

/-- `cerco_sf_submit_raw`: the slot and the frame, if the call is not rejected. -/
def sfSubmitRaw (pending : List Pending) (b : SfBuf) (cb : Option ℕ) (user : ℕ) (want : UInt8) :
    Option (ℕ × SfBuf × List Pending) :=
  match freeSlot pending with
  | none => none
  | some slot =>
    if sfBodyMax < b.len + 4 then none
    else some (slot, frameHeader b, pending.set slot ⟨cb, user, want⟩)

/-- What `cerco_http_post` is given. -/
def SfBuf.frame (b : SfBuf) : Bytes := b.mem.load 0 b.len

theorem putU32_eq (v : ℕ) : putU32 v = lePut 4 v := by
  simp only [putU32, lePut, Nat.shiftRight_eq_div_pow, Nat.div_div_eq_div_mul, Nat.reducePow,
    Nat.reduceMul]

theorem putU64_eq (u : ℕ) : putU64 u = lePut 8 u := by
  have eight : List.range 8 = [0, 1, 2, 3, 4, 5, 6, 7] := rfl
  simp only [putU64, eight, List.map_cons, List.map_nil, lePut, Nat.shiftRight_eq_div_pow,
    Nat.div_div_eq_div_mul, Nat.reducePow, Nat.reduceMul, Nat.zero_mul, Nat.pow_zero, Nat.div_one]

theorem put_frame (b : SfBuf) (bs : Bytes) : (b.put bs).frame = b.frame ++ bs := by
  have behind := load_write_behind b.mem 0 b.len bs
  rw [Nat.zero_add] at behind
  exact behind

/-- The argument that a call passes on. -/
def ArgCall.arg : ArgCall → ClientArg
  | .i32 v => .i32 v
  | .bool v => .bool (if v ≠ 0 then 1 else 0)
  | .i64 v => .i64 v
  | .f64 v => .f64 v
  | .str none => .str ⟨[], List.not_mem_nil⟩
  | .str (some s) => .str s
  | .bytes d len _ => .bytes (d.take len.toNat)

/-- The buffer holds `bs`, and submits under this count. -/
structure Holds (b : SfBuf) (bs : Bytes) (nargs : UInt32) : Prop where
  frame : b.frame = bs
  nargs : b.nargs = nargs

theorem Holds.len {b : SfBuf} {bs : Bytes} {nargs : UInt32} (h : Holds b bs nargs) :
    b.len = bs.length := by
  rw [← h.frame]
  exact (load_length _ _ _).symm

theorem Holds.put {b : SfBuf} {bs : Bytes} {nargs : UInt32} (h : Holds b bs nargs) (more : Bytes) :
    Holds (b.put more) (bs ++ more) nargs :=
  ⟨by rw [put_frame, h.frame], h.nargs⟩

theorem Holds.block {b : SfBuf} {bs : Bytes} {nargs : UInt32} (h : Holds b bs nargs) {t : UInt8}
    {d : Bytes} (room : bs.length + 5 + d.length ≤ sfBodyMax) :
    Holds (sfArgBlock b t d) (bs ++ t :: (lePut 4 d.length ++ d)) nargs := by
  rw [sfArgBlock, if_neg (by rw [h.len]; omega), putU32_eq]
  have stored := ((h.put [t]).put (lePut 4 d.length)).put d
  rwa [List.append_assoc, List.append_assoc] at stored

theorem Holds.run {b : SfBuf} {bs : Bytes} {nargs : UInt32} (h : Holds b bs nargs) (call : ArgCall)
    (room : bs.length + (encoded call.arg).length ≤ sfBodyMax) :
    Holds (call.run b) (bs ++ encoded call.arg) nargs := by
  have word : ∀ t v, Holds ((b.put [t]).put (putU32 v)) (bs ++ t :: lePut 4 v) nargs := by
    intro t v
    have stored := (h.put [t]).put (lePut 4 v)
    rw [List.append_assoc] at stored
    rwa [putU32_eq]
  have long : ∀ t u, Holds ((b.put [t]).put (putU64 u)) (bs ++ t :: lePut 8 u) nargs := by
    intro t u
    have stored := (h.put [t]).put (lePut 8 u)
    rw [List.append_assoc] at stored
    rwa [putU64_eq]
  have block : ∀ t d, (encoded call.arg).length = 5 + d.length →
      Holds (sfArgBlock b t d) (bs ++ t :: (lePut 4 d.length ++ d)) nargs := by
    intro t d size
    exact h.block (by omega)
  cases call with
  | i32 v => exact word wtI32 v.toNat
  | bool v =>
    have bit : (if (if v ≠ 0 then (1 : UInt8) else 0) ≠ 0 then 1 else 0) = if v ≠ 0 then 1 else 0 := by
      split <;> rfl
    change Holds _ (bs ++ wtBool :: lePut 4 (if (if v ≠ 0 then (1 : UInt8) else 0) ≠ 0 then 1 else 0)) _
    rw [bit]
    exact word wtBool _
  | i64 v => exact long wtI64 v.toNat
  | f64 v => exact long wtF64 v.toNat
  | str s =>
    cases s with
    | none => exact block wtStr [] (by simp [ArgCall.arg, encoded])
    | some s => exact block wtStr s.1 (by simp [ArgCall.arg, encoded]; omega)
  | bytes d len _ => exact block wtBytes (d.take len.toNat) (by simp [ArgCall.arg, encoded]; omega)

theorem Holds.runAll {b : SfBuf} {bs : Bytes} {nargs : UInt32} (h : Holds b bs nargs)
    (calls : List ArgCall)
    (room : bs.length + (encodedAll (calls.map ArgCall.arg)).length ≤ sfBodyMax) :
    Holds (calls.foldl ArgCall.run b) (bs ++ encodedAll (calls.map ArgCall.arg)) nargs := by
  induction calls generalizing b bs with
  | nil =>
    change Holds b (bs ++ []) nargs
    rwa [List.append_nil]
  | cons call calls ih =>
    rw [List.map_cons, encodedAll_cons, List.length_append] at room
    have rest := ih (h.run call (by omega)) (by rw [List.length_append]; omega)
    rwa [List.append_assoc] at rest

theorem Holds.header {b : SfBuf} {bs : Bytes} {nargs : UInt32} (h : Holds b bs nargs) :
    (frameHeader b).frame = lePut 4 nargs.toNat ++ bs := by
  have four : (lePut 4 nargs.toNat).length = 4 := lePut_length 4 _
  have front : ((b.mem.move 4 0 b.len).write 0 (lePut 4 nargs.toNat)).load 0 4 = lePut 4 nargs.toNat := by
    have stored := load_write (b.mem.move 4 0 b.len) 0 (lePut 4 nargs.toNat)
    rwa [four] at stored
  have back : ((b.mem.move 4 0 b.len).write 0 (lePut 4 nargs.toNat)).load 4 b.len = bs := by
    rw [← h.frame]
    refine (load_congr fun x lo _ => write_outside _ _ (.inr ?_)).trans
      (load_move_up b.mem (Nat.zero_le 4) b.len)
    rw [four]
    omega
  change Mem.load _ 0 (b.len + 4) = _
  rw [frameHeader, putU32_eq, h.nargs, Nat.add_comm b.len 4, load_append, front, Nat.zero_add, back]

/-- `n` calls of `cerco_r_val`. -/
def rVals : ℕ → WReader → Option (List WVal) × WReader
  | 0, r => (some [], r)
  | n + 1, r =>
    match rVal r with
    | (false, _, r) => (none, r)
    | (true, v, r) =>
      match rVals n r with
      | (some vs, r) => (some (v :: vs), r)
      | (none, r) => (none, r)

/-- Tag, bits and bytes of a decoded value, whose pointer goes into `body`. -/
def shown (body : Bytes) (v : WVal) : UInt8 × ℕ × Bytes :=
  (v.type, v.as, match v.data with
    | some off => (body.drop off).take v.len
    | none => [])

/-- Tag, bits and bytes of an argument. -/
def argShown : ClientArg → UInt8 × ℕ × Bytes
  | .i32 v => (wtI32, v.toNat, [])
  | .i64 v => (wtI64, v.toNat, [])
  | .f64 v => (wtF64, v.toNat, [])
  | .bool v => (wtBool, if v ≠ 0 then 1 else 0, [])
  | .str s => (wtStr, 0, s.1)
  | .bytes d => (wtBytes, 0, d)

theorem rVals_encoded {args : List ClientArg} {r : WReader} {rest : Bytes}
    (hlen : (encodedAll args).length < 256 ^ 4) (h : At r (encodedAll args ++ rest)) :
    rVals args.length r = (some (valsOf r.pos args), r.skip (encodedAll args).length) := by
  induction args generalizing r with
  | nil => rfl
  | cons a args ih =>
    rw [encodedAll_cons, List.append_assoc] at h
    rw [encodedAll_cons, List.length_append] at hlen
    have tail := ih (by omega) h.skip
    rw [List.length_cons, rVals, rVal_encoded (by omega) h]
    dsimp only
    rw [tail, skip_skip, encodedAll_cons, List.length_append]
    rfl

theorem block_bytes {body : Bytes} {off : ℕ} {t : UInt8} {d rest : Bytes}
    (h : body.drop off = (t :: (lePut 4 d.length ++ d)) ++ rest) :
    (body.drop (off + 5)).take d.length = d := by
  have five : (t :: lePut 4 d.length).length = 5 := by simp
  have shape : body.drop off = (t :: lePut 4 d.length) ++ (d ++ rest) := by
    rw [h, List.cons_append, List.append_assoc]
    rfl
  rw [← List.drop_drop, shape, ← five, List.drop_left]
  exact List.take_left

theorem valsOf_shown {body : Bytes} {args : List ClientArg} {off : ℕ} {rest : Bytes}
    (h : body.drop off = encodedAll args ++ rest) :
    (valsOf off args).map (shown body) = args.map argShown := by
  induction args generalizing off with
  | nil => rfl
  | cons a args ih =>
    rw [encodedAll_cons, List.append_assoc] at h
    have tail : body.drop (off + (encoded a).length) = encodedAll args ++ rest := by
      rw [← List.drop_drop, h, List.drop_left]
    have head : shown body (valOf off a) = argShown a := by
      cases a with
      | i32 v => rfl
      | i64 v => rfl
      | f64 v => rfl
      | bool v => rfl
      | str s => exact congrArg (fun d => (wtStr, 0, d)) (block_bytes h)
      | bytes d => exact congrArg (fun d => (wtBytes, 0, d)) (block_bytes h)
    rw [valsOf, List.map_cons, List.map_cons, head, ih tail]

theorem encodedAll_count (args : List ClientArg) : 5 * args.length ≤ (encodedAll args).length := by
  induction args with
  | nil => exact Nat.le_refl _
  | cons a args ih =>
    have head : 5 ≤ (encoded a).length := by
      cases a <;> simp [encoded]
    rw [encodedAll_cons, List.length_append, List.length_cons]
    omega

/-- What the server decodes from the frame is what the client put into it. -/
theorem sfSubmitRaw_decodes (m : Mem) (id : UInt32) (calls : List ArgCall)
    (fits : (encodedAll (calls.map ArgCall.arg)).length ≤ sfBodyMax - 4) (pending : List Pending)
    (free : ∃ p ∈ pending, p.cb = none) (cb : Option ℕ) (user : ℕ) (want : UInt8) :
    ∃ slot b pend r vs, sfSubmitRaw pending
        (calls.foldl ArgCall.run (sfBegin m id (UInt32.ofNat calls.length))) cb user want =
          some (slot, b, pend) ∧
      rU32 (wreaderInit b.frame) = (calls.length, (wreaderInit b.frame).skip 4) ∧
      rVals calls.length ((wreaderInit b.frame).skip 4) = (some vs, r) ∧
      vs.map (shown b.frame) = calls.map (fun c => argShown c.arg) ∧
      r.err = false ∧ r.pos = b.frame.length := by
  have max : sfBodyMax = 32768 := rfl
  have count := encodedAll_count (calls.map ArgCall.arg)
  rw [List.length_map] at count
  have nargs : (UInt32.ofNat calls.length).toNat = calls.length := by
    rw [UInt32.toNat_ofNat']
    exact Nat.mod_eq_of_lt (by omega)
  have start : Holds (sfBegin m id (UInt32.ofNat calls.length)) [] (UInt32.ofNat calls.length) :=
    ⟨rfl, rfl⟩
  have written := start.runAll calls (by rw [List.length_nil]; omega)
  rw [List.nil_append] at written
  have header := written.header
  rw [nargs] at header
  have len := written.len
  generalize calls.foldl ArgCall.run (sfBegin m id (UInt32.ofNat calls.length)) = b at *
  obtain ⟨slot, hslot⟩ : ∃ slot, freeSlot pending = some slot := by
    cases hf : freeSlot pending with
    | some slot => exact ⟨slot, rfl⟩
    | none =>
      obtain ⟨p, hp, hcb⟩ := free
      have taken := List.findIdx?_eq_none_iff.mp hf p hp
      rw [hcb] at taken
      cases taken
  have front : At (wreaderInit (frameHeader b).frame) (lePut 4 calls.length ++
      (encodedAll (calls.map ArgCall.arg) ++ [])) := by
    rw [List.append_nil, ← header]
    exact ⟨rfl, rfl, Nat.zero_le _⟩
  have back := front.skip
  rw [lePut_length] at back
  have read := rVals_encoded (by omega) back
  rw [List.length_map] at read
  refine ⟨slot, frameHeader b, pending.set slot ⟨cb, user, want⟩, _, _, ?_, rU32_at (by omega) front, read, ?_, front.ok, ?_⟩
  · rw [sfSubmitRaw, hslot]
    exact if_neg (by omega)
  · exact (valsOf_shown back.rest).trans List.map_map
  · rw [skip_skip, header, List.length_append, lePut_length]
    exact Nat.zero_add _

theorem frameHeader_sfStub (m : Mem) (id : UInt32) (calls : List ArgCall)
    (fits : Fits (calls.map ArgCall.arg)) (few : calls.length < 2 ^ 32) :
    sfStub (calls.map ArgCall.arg) = some (frameHeader (calls.foldl ArgCall.run
      (sfBegin m id (UInt32.ofNat calls.length)))).frame := by
  have start : Holds (sfBegin m id (UInt32.ofNat calls.length)) [] (UInt32.ofNat calls.length) :=
    ⟨rfl, rfl⟩
  have written := start.runAll calls (by unfold Fits at fits; rw [List.length_nil]; omega)
  rw [sfStub_fits fits, written.header, UInt32.toNat_ofNat', Nat.mod_eq_of_lt few, List.length_map,
    List.nil_append]

def greetCalls : List ArgCall :=
  [.str (some ⟨ascii "eve", by decide⟩), .bytes [1, 2, 3] (-1) (by decide), .bool 7]

theorem sfSubmitRaw_decodes_greet : ∃ slot b pend r vs, sfSubmitRaw [⟨none, 0, 0⟩]
      (greetCalls.foldl ArgCall.run (sfBegin (fun _ => 0) 3 (UInt32.ofNat greetCalls.length)))
        (some 9) 5 wtStr = some (slot, b, pend) ∧
    rU32 (wreaderInit b.frame) = (greetCalls.length, (wreaderInit b.frame).skip 4) ∧
    rVals greetCalls.length ((wreaderInit b.frame).skip 4) = (some vs, r) ∧
    vs.map (shown b.frame) = greetCalls.map (fun c => argShown c.arg) ∧
    r.err = false ∧ r.pos = b.frame.length :=
  sfSubmitRaw_decodes (fun _ => 0) 3 greetCalls (by decide) [⟨none, 0, 0⟩]
    ⟨_, List.mem_cons_self, rfl⟩ (some 9) 5 wtStr

end Cerco.ClientBody

