import Cerco.ClientBody
import Mathlib.Algebra.Group.Int.Defs

set_option autoImplicit false

/-!
# The reply of a server function

`sf_run` encodes what the function returned or its failure, and
`sf_done_common` hands it to the callback. The callback is a wasm function, and
calling it through another signature than its own traps. Numbers are their bits.
-/
namespace Cerco.ClientReply
open Cerco.ByteMemory Cerco.CString Cerco.LittleEndian Cerco.Wire Cerco.ClientBody
open Cerco.ServerFunctions (SfType CStr)

structure WWriter where
  buf : Bytes
  cap : ℕ
  err : Bool

/-- `w_take` and the stores behind it. -/
def wTake (w : WWriter) (bs : Bytes) : WWriter :=
  if w.err = true ∨ w.cap - w.buf.length < bs.length then { w with err := true }
  else { w with buf := w.buf ++ bs }

def wU8 (w : WWriter) (v : UInt8) : WWriter := wTake w [v]
def wU32 (w : WWriter) (v : ℕ) : WWriter := wTake w (putU32 v)
def wU64 (w : WWriter) (v : ℕ) : WWriter := wTake w (putU64 v)

/-- A value to be written; `as` are the bits of the union. -/
structure WIn where
  type : UInt8
  as : ℕ
  bytes : Bytes

def wVal (w : WWriter) (v : WIn) : WWriter :=
  let w := wU8 w v.type
  if v.type = wtI32 then wU32 w (v.as % 2 ^ 32)
  else if v.type = wtBool then wU32 w (if v.as % 256 ≠ 0 then 1 else 0)
  else if v.type = wtI64 ∨ v.type = wtF64 then wU64 w v.as
  else if v.type = wtStr ∨ v.type = wtBytes then
    let w := wU32 w v.bytes.length
    if v.bytes.length ≠ 0 then wTake w v.bytes else w
  else { w with err := true }

def wvalSize (v : WIn) : ℕ :=
  if v.type = wtI32 ∨ v.type = wtBool then 5
  else if v.type = wtI64 ∨ v.type = wtF64 then 9
  else if v.type = wtStr ∨ v.type = wtBytes then 5 + v.bytes.length
  else 1

inductive SfResult
  | i32 (v : UInt32)
  | i64 (v : UInt64)
  | f64 (v : UInt64)
  | bool (v : UInt8)
  | str (s : Option CStr)
  | bytes (d : Bytes)

def SfResult.type : SfResult → SfType
  | .i32 _ => .i32
  | .i64 _ => .i64
  | .f64 _ => .f64
  | .bool _ => .bool
  | .str _ => .str
  | .bytes _ => .bytes

/-- A call ends with a value of its declared type, or after `cerco_sf_fail`. -/
inductive SfOutcome
  | value (v : SfResult)
  | failed (ret : SfType) (message : Option CStr)

def SfOutcome.ret : SfOutcome → SfType
  | .value v => v.type
  | .failed ret _ => ret

def tag : SfType → UInt8
  | .i32 => wtI32
  | .i64 => wtI64
  | .f64 => wtF64
  | .bool => wtBool
  | .str => wtStr
  | .bytes => wtBytes

/-- The switch over `ret_type`. -/
def retVal : SfResult → WIn
  | .i32 v => ⟨wtI32, v.toNat, []⟩
  | .i64 v => ⟨wtI64, v.toNat, []⟩
  | .f64 v => ⟨wtF64, v.toNat, []⟩
  | .bool v => ⟨wtBool, if v ≠ 0 then 1 else 0, []⟩
  | .str s => ⟨wtStr, 0, cstrBytes s⟩
  | .bytes d => ⟨wtBytes, 0, d⟩

def failText (message : Option CStr) : Bytes := (message.map (·.1)).getD (ascii "error")

/-- What `sf_run` puts into the response, if it can encode it. -/
def sfFrame : SfOutcome → Option Bytes
  | .failed _ message =>
    some ([1] ++ (putU32 (failText message).length ++ failText message))
  | .value v =>
    let w := wVal ⟨[], wvalSize (retVal v), false⟩ (retVal v)
    if w.err then none else some ([0] ++ (putU32 0 ++ (putU32 1 ++ w.buf)))

/-- The parameters of a callback in wasm: three words, a long or a double and two
words, or four words. -/
inductive WasmSig
  | words
  | long
  | double
  | block
deriving DecidableEq

/-- The callback type that the stub of a function declares. -/
def cbSig : SfType → WasmSig
  | .i32 | .bool | .str => .words
  | .i64 => .long
  | .f64 => .double
  | .bytes => .block

/-- A call of the callback; pointers are offsets into the response. -/
inductive CbCall
  | i32 (result : ℕ) (error : Option Bytes)
  | i64 (result : ℕ) (error : Option Bytes)
  | f64 (result : ℕ) (error : Option Bytes)
  | str (off : ℕ) (error : Option Bytes)
  | bytes (off len : ℕ) (error : Option Bytes)
deriving DecidableEq

def CbCall.sig : CbCall → WasmSig
  | .i32 _ _ | .str _ _ => .words
  | .i64 _ _ => .long
  | .f64 _ _ => .double
  | .bytes _ _ _ => .block

def CbCall.error : CbCall → Option Bytes
  | .i32 _ e | .i64 _ e | .f64 _ e | .str _ e | .bytes _ _ e => e

inductive Delivery
  | nothing
  | trap
  | call (c : CbCall)
deriving DecidableEq

def invoke (sig : WasmSig) (c : CbCall) : Delivery := if c.sig = sig then .call c else .trap

/-- Errors go through the `i32` type. -/
def sfError (sig : WasmSig) (message : Bytes) : Delivery := invoke sig (.i32 0 (some message))

def scratchSize : ℕ := 65536

/-- `cerco_scratch_alloc` has room for `n` bytes more. -/
def scratchFits (off n : ℕ) : Bool := off + (n + 7) / 8 * 8 ≤ scratchSize

/-- The switch over the type of the value at `v`. -/
def sfDecode (sig : WasmSig) (m : Mem) (vtype : UInt8) (v : ℕ) : Delivery :=
  if vtype = wtI32 ∨ vtype = wtBool then invoke sig (.i32 (leGet (m.load v 4)) none)
  else if vtype = wtI64 then invoke sig (.i64 (leGet (m.load v 8)) none)
  else if vtype = wtF64 then invoke sig (.f64 (leGet (m.load v 8)) none)
  else if vtype = wtStr then invoke sig (.str (v + 4) none)
  else if vtype = wtBytes then invoke sig (.bytes (v + 4) (leGet (m.load v 4)) none)
  else sfError sig (ascii "type mismatch")

/-- `sf_done_common` for a pending call whose callback has signature `sig`; `data`
is the memory behind the pointer and `off` is `scratch_off`. -/
def sfDoneCommon (p : Pending) (sig : WasmSig) (off : ℕ) (status : Int) (data : Option Mem)
    (len : Int) : Delivery :=
  if p.cb.isNone then .nothing
  else
    match data with
    | none => sfError sig (ascii "network error")
    | some m =>
      if status ≠ 200 ∨ len < 9 then sfError sig (ascii "network error")
      else
        let errLen := leGet (m.load 1 4)
        if len.toNat < errLen then sfError sig (ascii "bad response")
        else if m 0 ≠ 0 then
          if scratchFits off (errLen + 1) then sfError sig (cstr (m.load 5 errLen))
          else sfError sig (ascii "error")
        else if len.toNat < 5 + errLen + 4 then sfError sig (ascii "bad response")
        else if leGet (m.load (5 + errLen) 4) < 1 ∨ len.toNat ≤ 9 + errLen then
          sfError sig (ascii "bad response")
        else
          let vtype := m (9 + errLen)
          if vtype ≠ p.wantType ∧ ¬ (p.wantType = wtBool ∧ vtype = wtI32) ∧
              ¬ (p.wantType = wtI32 ∧ vtype = wtBool) then sfError sig (ascii "type mismatch")
          else sfDecode sig m vtype (10 + errLen)

/-- The cast of a length to `int32_t`. -/
def asInt32 (n : ℕ) : Int := if n % 2 ^ 32 < 2 ^ 31 then (n % 2 ^ 32 : ℕ) else (n % 2 ^ 32 : ℕ) - 2 ^ 32

/-- A fetch buffer with this body: the terminator stands behind it, and the body lies
in the client's 32-bit address space. -/
structure Fetched (m : Mem) (frame : Bytes) : Prop where
  body : m.load 0 frame.length = frame
  terminated : m frame.length = 0
  addressable : frame.length < 2 ^ 32

/-- The callback gets what the function returned, or the message of its failure. -/
def Arrives (m : Mem) : SfOutcome → Delivery → Prop
  | .value (.i32 v), d => d = .call (.i32 v.toNat none)
  | .value (.i64 v), d => d = .call (.i64 v.toNat none)
  | .value (.f64 v), d => d = .call (.f64 v.toNat none)
  | .value (.bool v), d => d = .call (.i32 (if v ≠ 0 then 1 else 0) none)
  | .value (.str s), d => ∃ off, d = .call (.str off none) ∧
      m.load off (cstrBytes s).length = cstrBytes s ∧ m (off + (cstrBytes s).length) = 0
  | .value (.bytes x), d => ∃ off, d = .call (.bytes off x.length none) ∧ m.load off x.length = x
  | .failed _ message, d => ∃ c, d = .call c ∧ c.error = some (failText message)

/-- When it does: the frame's length is an `int32_t`, and a failure has a callback that
takes words, a message of four bytes and room for its copy, if the message is not the
text that stands in for it. -/
def Deliverable (off : ℕ) : SfOutcome → Prop
  | .value (.str s) => 14 + (cstrBytes s).length < 2 ^ 31
  | .value (.bytes x) => 14 + x.length < 2 ^ 31
  | .value _ => True
  | .failed ret message => cbSig ret = .words ∧ 4 ≤ (failText message).length ∧
      (scratchFits off ((failText message).length + 1) = true ∨ failText message = ascii "error")

def payload : SfResult → Bytes
  | .i32 v => lePut 4 v.toNat
  | .i64 v => lePut 8 v.toNat
  | .f64 v => lePut 8 v.toNat
  | .bool v => lePut 4 (if v ≠ 0 then 1 else 0)
  | .str s => lePut 4 (cstrBytes s).length ++ cstrBytes s
  | .bytes d => lePut 4 d.length ++ d

theorem wTake_room {buf bs : Bytes} {cap : ℕ} (room : buf.length + bs.length ≤ cap) :
    wTake ⟨buf, cap, false⟩ bs = ⟨buf ++ bs, cap, false⟩ := by
  rw [wTake, if_neg (by simp only [Bool.false_eq_true, false_or]; omega)]

theorem wU8_first {cap : ℕ} (t : UInt8) (room : 1 ≤ cap) :
    wU8 ⟨[], cap, false⟩ t = ⟨[t], cap, false⟩ :=
  @wTake_room [] [t] cap (by simpa using room)

theorem wVal_retVal (v : SfResult) : wVal ⟨[], wvalSize (retVal v), false⟩ (retVal v) =
    ⟨tag v.type :: payload v, wvalSize (retVal v), false⟩ := by
  have block : ∀ (t : UInt8) (d : Bytes), (if d.length ≠ 0 then
      wTake (wU32 (wU8 ⟨[], 5 + d.length, false⟩ t) d.length) d
      else wU32 (wU8 ⟨[], 5 + d.length, false⟩ t) d.length) =
      ⟨t :: (lePut 4 d.length ++ d), 5 + d.length, false⟩ := by
    intro t d
    have head : wU32 (wU8 ⟨[], 5 + d.length, false⟩ t) d.length =
        ⟨t :: lePut 4 d.length, 5 + d.length, false⟩ := by
      rw [wU32, wU8_first t (by omega), putU32_eq]
      exact wTake_room (by simp only [List.length_cons, List.length_nil, lePut_length]; omega)
    rw [head]
    split
    · exact wTake_room (by simp only [List.length_cons, lePut_length]; omega)
    · rename_i none
      rw [List.eq_nil_of_length_eq_zero (not_not.mp none), List.append_nil]
  have fixed : ∀ (t : UInt8) (bs : Bytes) (n : ℕ), n = bs.length + 1 →
      wTake (wU8 ⟨[], n, false⟩ t) bs = ⟨t :: bs, n, false⟩ := by
    rintro t bs n rfl
    rw [wU8_first t (by omega)]
    exact wTake_room (by simp only [List.length_cons, List.length_nil]; omega)
  cases v with
  | i32 v =>
    have word : v.toNat % 2 ^ 32 = v.toNat := Nat.mod_eq_of_lt v.toNat_lt
    change wTake (wU8 ⟨[], 5, false⟩ wtI32) (putU32 (v.toNat % 2 ^ 32)) = _
    rw [word, putU32_eq]
    exact fixed wtI32 _ 5 (by rw [lePut_length])
  | i64 v =>
    change wTake (wU8 ⟨[], 9, false⟩ wtI64) (putU64 v.toNat) = _
    rw [putU64_eq]
    exact fixed wtI64 _ 9 (by rw [lePut_length])
  | f64 v =>
    change wTake (wU8 ⟨[], 9, false⟩ wtF64) (putU64 v.toNat) = _
    rw [putU64_eq]
    exact fixed wtF64 _ 9 (by rw [lePut_length])
  | bool v =>
    have bit : ∀ n, n = 0 ∨ n = 1 →
        wVal ⟨[], 5, false⟩ ⟨wtBool, n, []⟩ = ⟨wtBool :: lePut 4 n, 5, false⟩ := by
      rintro n (rfl | rfl) <;> rfl
    exact bit _ (by split <;> simp)
  | str s => exact block wtStr (cstrBytes s)
  | bytes d => exact block wtBytes d

theorem sfFrame_value (v : SfResult) :
    sfFrame (.value v) = some ([0] ++ (lePut 4 0 ++ (lePut 4 1 ++ (tag v.type :: payload v)))) := by
  simp only [sfFrame, wVal_retVal, putU32_eq, Bool.false_eq_true, ↓reduceIte]

theorem sfFrame_failed (ret : SfType) (message : Option CStr) :
    sfFrame (.failed ret message) =
      some ([1] ++ (lePut 4 (failText message).length ++ failText message)) := by
  simp only [sfFrame, putU32_eq]

theorem load_cut {m : Mem} {p : ℕ} {a b : Bytes} (h : m.load p (a ++ b).length = a ++ b) :
    m.load p a.length = a ∧ m.load (p + a.length) b.length = b := by
  rw [List.length_append, load_append] at h
  exact List.append_inj h (load_length m p a.length)

theorem asInt32_small {n : ℕ} (h : n < 2 ^ 31) : asInt32 n = n := by
  rw [asInt32, Nat.mod_eq_of_lt (by omega), if_pos h]

theorem asInt32_large {n : ℕ} (lo : 2 ^ 31 ≤ n) (hi : n < 2 ^ 32) : asInt32 n < 9 := by
  rw [asInt32, Nat.mod_eq_of_lt hi, if_neg (by omega)]
  omega

theorem load_one (m : Mem) (p : ℕ) {b : UInt8} (h : m.load p 1 = [b]) : m p = b := by
  injection h

structure ValueFrame (m : Mem) (t : UInt8) (pl : Bytes) : Prop where
  status : m 0 = 0
  errLen : leGet (m.load 1 4) = 0
  vcount : leGet (m.load 5 4) = 1
  vtype : m 9 = t
  payload : m.load 10 pl.length = pl

theorem valueFrame {m : Mem} {t : UInt8} {pl : Bytes}
    (h : Fetched m ([0] ++ (lePut 4 0 ++ (lePut 4 1 ++ (t :: pl))))) : ValueFrame m t pl := by
  obtain ⟨status, rest⟩ := load_cut h.body
  obtain ⟨errLen, rest⟩ := load_cut rest
  obtain ⟨vcount, rest⟩ := load_cut rest
  obtain ⟨vtype, payload⟩ := load_cut (a := [t]) rest
  simp only [lePut_length, List.length_singleton, Nat.zero_add, Nat.reduceAdd] at errLen vcount vtype payload
  exact ⟨load_one m 0 status, by rw [errLen]; rfl, by rw [vcount]; rfl, load_one m 9 vtype, payload⟩

theorem sfDoneCommon_value {m : Mem} {t : UInt8} {pl : Bytes} (h : ValueFrame m t pl) (cb user off : ℕ)
    (sig : WasmSig) {len : ℕ} (lo : 10 ≤ len) (hi : len < 2 ^ 31) :
    sfDoneCommon ⟨some cb, user, t⟩ sig off 200 (some m) (asInt32 len) = sfDecode sig m t 10 := by
  have long : ¬ (False ∨ (len : Int) < 9) := by simp only [false_or]; omega
  have inside : ¬ ((1 : ℕ) < 1 ∨ len ≤ 9 + 0) := by omega
  rw [asInt32_small hi]
  simp only [sfDoneCommon, Option.isNone_some, Bool.false_eq_true, ↓reduceIte, if_neg long,
    Int.toNat_natCast, h.errLen, Nat.not_lt_zero, h.status, ne_eq, not_true_eq_false, Nat.add_zero,
    if_neg (show ¬ len < 5 + 4 by omega), h.vcount, if_neg inside, h.vtype, false_and]

theorem sfDoneCommon_negative (m : Mem) (p : Pending) (cb : p.cb.isNone = false) (sig : WasmSig)
    (off : ℕ) {len : Int} (h : len < 9) :
    sfDoneCommon p sig off 200 (some m) len = sfError sig (ascii "network error") := by
  simp only [sfDoneCommon, cb, Bool.false_eq_true, ↓reduceIte, if_pos (Or.inr h)]

theorem sfError_cases (sig : WasmSig) (message : Bytes) :
    sfError sig message = .trap ∧ sig ≠ .words ∨
    sfError sig message = .call (.i32 0 (some message)) ∧ sig = .words := by
  unfold sfError invoke
  by_cases h : WasmSig.words = sig
  · exact .inr ⟨if_pos h, h.symm⟩
  · exact .inl ⟨if_neg h, Ne.symm h⟩

theorem Arrives.no_error {m : Mem} {v : SfResult} {d : Delivery} (h : Arrives m (.value v) d) :
    ∃ c, d = .call c ∧ c.error = none := by
  cases v with
  | i32 v => exact ⟨_, h, rfl⟩
  | i64 v => exact ⟨_, h, rfl⟩
  | f64 v => exact ⟨_, h, rfl⟩
  | bool v => exact ⟨_, h, rfl⟩
  | str s =>
    obtain ⟨off, h, _⟩ := h
    exact ⟨_, h, rfl⟩
  | bytes x =>
    obtain ⟨off, h, _⟩ := h
    exact ⟨_, h, rfl⟩

theorem arrives_value_error (m : Mem) (v : SfResult) (sig : WasmSig) (message : Bytes) :
    ¬ Arrives m (.value v) (sfError sig message) := by
  intro h
  obtain ⟨c, hc, none⟩ := h.no_error
  obtain ⟨e, _⟩ | ⟨e, _⟩ := sfError_cases sig message
  · rw [e] at hc
    cases hc
  · rw [e] at hc
    cases hc
    cases none

/-- A failure arrives as an error exactly when the callback takes words and the text is
its message. -/
theorem arrives_failed_error (m : Mem) (ret : SfType) (message : Option CStr) (text : Bytes) :
    Arrives m (.failed ret message) (sfError (cbSig ret) text) ↔
      cbSig ret = .words ∧ text = failText message := by
  constructor
  · rintro ⟨c, hc, he⟩
    obtain ⟨e, _⟩ | ⟨e, words⟩ := sfError_cases (cbSig ret) text
    · rw [e] at hc
      cases hc
    · rw [e] at hc
      cases hc
      exact ⟨words, Option.some.inj he⟩
  · rintro ⟨words, rfl⟩
    obtain ⟨_, other⟩ | ⟨e, _⟩ := sfError_cases (cbSig ret) (failText message)
    · exact absurd words other
    · exact ⟨_, e, rfl⟩

theorem payload_length (v : SfResult) (off : ℕ) :
    10 + (payload v).length < 2 ^ 31 ↔ Deliverable off (.value v) := by
  cases v <;> simp [payload, Deliverable]
  all_goals omega

theorem value_arrives {m : Mem} {v : SfResult}
    (hm : Fetched m ([0] ++ (lePut 4 0 ++ (lePut 4 1 ++ (tag v.type :: payload v))))) :
    Arrives m (.value v) (sfDecode (cbSig v.type) m (tag v.type) 10) := by
  have frame := valueFrame hm
  have body := frame.payload
  have ends := hm.terminated
  have word : ∀ n, n < 256 ^ 4 → payload v = lePut 4 n → leGet (m.load 10 4) = n := by
    intro n hn e
    rw [e, lePut_length] at body
    rw [body, leGet_lePut_of_lt hn]
  have long : ∀ n, n < 256 ^ 8 → payload v = lePut 8 n → leGet (m.load 10 8) = n := by
    intro n hn e
    rw [e, lePut_length] at body
    rw [body, leGet_lePut_of_lt hn]
  have block : ∀ d, payload v = lePut 4 d.length ++ d →
      leGet (m.load 10 4) = d.length ∧ m.load 14 d.length = d ∧ m (14 + d.length) = 0 := by
    intro d e
    have small := hm.addressable
    rw [e] at body small ends
    obtain ⟨size, bytes⟩ := load_cut body
    rw [lePut_length] at size bytes
    simp only [lePut_length, List.length_append, List.length_nil, List.length_cons] at small ends
    refine ⟨?_, bytes, ?_⟩
    · rw [size, leGet_lePut_of_lt (by omega)]
    · rw [← ends]
      congr 1
      omega
  cases v with
  | i32 v =>
    change Delivery.call (.i32 (leGet (m.load 10 4)) none) = _
    rw [word v.toNat v.toNat_lt rfl]
  | i64 v =>
    change Delivery.call (.i64 (leGet (m.load 10 8)) none) = _
    rw [long v.toNat v.toNat_lt rfl]
  | f64 v =>
    change Delivery.call (.f64 (leGet (m.load 10 8)) none) = _
    rw [long v.toNat v.toNat_lt rfl]
  | bool v =>
    change Delivery.call (.i32 (leGet (m.load 10 4)) none) = _
    rw [word _ (by split <;> decide) rfl]
  | str s =>
    obtain ⟨_, bytes, terminated⟩ := block (cstrBytes s) rfl
    exact ⟨14, rfl, bytes, terminated⟩
  | bytes d =>
    obtain ⟨size, bytes, _⟩ := block d rfl
    refine ⟨14, ?_, bytes⟩
    change Delivery.call (.bytes 14 (leGet (m.load 10 4)) none) = _
    rw [size]

theorem value_iff {m : Mem} {v : SfResult} {frame : Bytes}
    (hf : frame = [0] ++ (lePut 4 0 ++ (lePut 4 1 ++ (tag v.type :: payload v)))) (hm : Fetched m frame)
    (cb user off : ℕ) :
    Arrives m (.value v) (sfDoneCommon ⟨some cb, user, tag v.type⟩ (cbSig v.type) off 200 (some m)
      (asInt32 frame.length)) ↔ Deliverable off (.value v) := by
  have len : frame.length = 10 + (payload v).length := by
    rw [hf]
    simp only [List.length_append, List.length_cons, List.length_nil, lePut_length]
    omega
  have size : frame.length < 2 ^ 31 ↔ Deliverable off (.value v) := by
    rw [len]
    exact payload_length v off
  rw [← size]
  constructor
  · intro h
    by_contra large
    have negative := asInt32_large (Nat.le_of_not_lt large) hm.addressable
    rw [sfDoneCommon_negative m _ rfl _ off negative] at h
    exact arrives_value_error m v _ _ h
  · intro small
    rw [hf] at hm
    rw [sfDoneCommon_value (valueFrame hm) cb user off _ (by omega) small]
    exact value_arrives hm

theorem sfDoneCommon_failed {m : Mem} {ret : SfType} {message : Option CStr} {frame : Bytes}
    (hf : frame = [1] ++ (lePut 4 (failText message).length ++ failText message))
    (hm : Fetched m frame) (cb user off : ℕ) :
    sfDoneCommon ⟨some cb, user, tag ret⟩ (cbSig ret) off 200 (some m) (asInt32 frame.length) =
      sfError (cbSig ret) (if frame.length < 9 ∨ 2 ^ 31 ≤ frame.length then ascii "network error"
        else if scratchFits off ((failText message).length + 1) then failText message
        else ascii "error") := by
  have len : frame.length = 5 + (failText message).length := by
    rw [hf]
    simp only [List.length_append, List.length_cons, List.length_nil, lePut_length]
    omega
  have small := hm.addressable
  by_cases large : 2 ^ 31 ≤ frame.length
  · rw [sfDoneCommon_negative m _ rfl _ off (asInt32_large large small), if_pos (Or.inr large)]
  · rw [asInt32_small (by omega)]
    by_cases short : frame.length < 9
    · rw [sfDoneCommon_negative m _ rfl _ off (by omega), if_pos (Or.inl short)]
    · have body := hm.body
      rw [hf] at body
      obtain ⟨status, rest⟩ := load_cut body
      obtain ⟨errLen, text⟩ := load_cut rest
      rw [lePut_length] at errLen text
      have st : m 0 = 1 := load_one m 0 status
      have size : leGet (m.load 1 4) = (failText message).length := by
        change leGet (m.load (0 + 1) 4) = _
        rw [show (0 : ℕ) + 1 = 0 + [(1 : UInt8)].length from rfl, errLen,
          leGet_lePut_of_lt (by omega)]
      have bytes : m.load 5 (failText message).length = failText message := text
      have nulFree : cstr (failText message) = failText message := by
        refine cstr_of_nulFree ?_
        cases message with
        | none => decide
        | some s => exact s.2
      have flag : ((1 : UInt8) = 0) = False := eq_false (by decide)
      have long : ¬ (False ∨ (frame.length : Int) < 9) := by
        simp only [false_or]
        omega
      simp only [sfDoneCommon, Option.isNone_some, Bool.false_eq_true, ↓reduceIte, ne_eq,
        not_true_eq_false, if_neg long, Int.toNat_natCast, size, st, flag, not_false_eq_true,
        if_neg (show ¬ frame.length < (failText message).length by omega), bytes, nulFree,
        if_neg (show ¬ (frame.length < 9 ∨ 2 ^ 31 ≤ frame.length) by omega)]
      exact (apply_ite (sfError (cbSig ret)) _ _ _).symm

theorem failed_iff {m : Mem} {ret : SfType} {message : Option CStr} {frame : Bytes}
    (hf : frame = [1] ++ (lePut 4 (failText message).length ++ failText message))
    (hm : Fetched m frame) (cb user off : ℕ) :
    Arrives m (.failed ret message) (sfDoneCommon ⟨some cb, user, tag ret⟩ (cbSig ret) off 200 (some m)
      (asInt32 frame.length)) ↔ Deliverable off (.failed ret message) := by
  have len : frame.length = 5 + (failText message).length := by
    rw [hf]
    simp only [List.length_append, List.length_cons, List.length_nil, lePut_length]
    omega
  have network : (ascii "network error").length = 13 := rfl
  have error : (ascii "error").length = 5 := rfl
  rw [sfDoneCommon_failed hf hm, arrives_failed_error]
  refine and_congr_right fun _ => ?_
  constructor
  · intro h
    split at h
    · rename_i bad
      have := congrArg List.length h
      omega
    · rename_i good
      refine ⟨by omega, ?_⟩
      split at h
      · rename_i fits
        exact .inl fits
      · exact .inr h.symm
  · rintro ⟨four, copied⟩
    have small : (failText message).length < 2 ^ 17 := by
      obtain fits | same := copied
      · have room := of_decide_eq_true fits
        unfold scratchSize at room
        omega
      · rw [same, error]
        decide
    rw [if_neg (by omega)]
    obtain fits | same := copied
    · exact if_pos fits
    · split
      · rfl
      · exact same.symm

/-- Which outcomes of a server function reach the callback as they are. -/
theorem sf_result_arrives (o : SfOutcome) : ∃ frame, sfFrame o = some frame ∧
    ∀ m, Fetched m frame → ∀ cb user off : ℕ,
      (Arrives m o (sfDoneCommon ⟨some cb, user, tag o.ret⟩ (cbSig o.ret) off 200 (some m)
        (asInt32 frame.length)) ↔ Deliverable off o) := by
  cases o with
  | value v =>
    exact ⟨_, sfFrame_value v, fun m hm cb user off => value_iff rfl hm cb user off⟩
  | failed ret message =>
    exact ⟨_, sfFrame_failed ret message, fun m hm cb user off => failed_iff rfl hm cb user off⟩

/-- The buffer as the host fills it. -/
def fetchBuffer (frame : Bytes) : Mem := fun i => frame.getD i 0

theorem fetchBuffer_fetched {frame : Bytes} (h : frame.length < 2 ^ 32) :
    Fetched (fetchBuffer frame) frame := by
  have load : ∀ a b : Bytes, (fetchBuffer (a ++ b)).load a.length b.length = b := by
    intro a b
    induction b generalizing a with
    | nil => rfl
    | cons c b ih =>
      have tail := ih (a ++ [c])
      rw [List.append_assoc, List.length_append] at tail
      rw [List.length_cons, Mem.load]
      refine congrArg₂ List.cons ?_ tail
      simp [fetchBuffer]
  refine ⟨load [] frame, ?_, h⟩
  simp [fetchBuffer]

def greeting : SfOutcome := .value (.str (some ⟨ascii "hi ada", by decide⟩))

theorem sf_result_arrives_greeting : ∃ frame, sfFrame greeting = some frame ∧
    Arrives (fetchBuffer frame) greeting (sfDoneCommon ⟨some 7, 0, tag greeting.ret⟩
      (cbSig greeting.ret) 0 200 (some (fetchBuffer frame)) (asInt32 frame.length)) := by
  obtain ⟨frame, hf, arrives⟩ := sf_result_arrives greeting
  have len : frame.length < 2 ^ 32 := by
    cases hf
    decide
  have short : Deliverable 0 greeting := by
    change 14 + 6 < 2 ^ 31
    decide
  exact ⟨frame, hf, (arrives _ (fetchBuffer_fetched len) 7 0 0).mpr short⟩

def tersely : SfOutcome := .failed .i32 (some ⟨ascii "no", by decide⟩)

/-- A message of two bytes arrives as another one, and an `int64_t` callback gets none. -/
theorem short_message_lost : sfFrame tersely = some (1 :: 2 :: 0 :: 0 :: 0 :: ascii "no") ∧
    sfDoneCommon ⟨some 7, 0, wtI32⟩ (cbSig .i32) 0 200
        (some (fetchBuffer (1 :: 2 :: 0 :: 0 :: 0 :: ascii "no"))) (asInt32 7) =
      .call (.i32 0 (some (ascii "network error"))) ∧
    sfFrame (.failed .i64 none) = some (1 :: 5 :: 0 :: 0 :: 0 :: ascii "error") ∧
    sfDoneCommon ⟨some 7, 0, wtI64⟩ (cbSig .i64) 0 200
      (some (fetchBuffer (1 :: 5 :: 0 :: 0 :: 0 :: ascii "error"))) (asInt32 10) = .trap := by
  refine ⟨rfl, ?_, rfl, ?_⟩ <;> decide

end Cerco.ClientReply
