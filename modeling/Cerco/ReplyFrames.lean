import Cerco.ClientReply
import Cerco.MemoryReads

set_option autoImplicit false

/-!
# What the client reads of a response

`sf_done_common` again, as a computation that reads the response. The host puts a
NUL behind the body, so of a response of `len` bytes `len + 1` may be read.
-/
namespace Cerco.ReplyFrames
open Cerco.ByteMemory Cerco.CString Cerco.LittleEndian Cerco.MemoryReads Cerco.Wire
open Cerco.ClientBody Cerco.ClientReply
open Cerco.ServerFunctions (SfType)

/-- The switch over the type of the value at `v`. -/
def decodeReads (sig : WasmSig) (vtype : UInt8) (v : ℕ) : Reading Delivery :=
  if vtype = wtI32 ∨ vtype = wtBool then .read v 4 fun b => .done (invoke sig (.i32 (leGet b) none))
  else if vtype = wtI64 then .read v 8 fun b => .done (invoke sig (.i64 (leGet b) none))
  else if vtype = wtF64 then .read v 8 fun b => .done (invoke sig (.f64 (leGet b) none))
  else if vtype = wtStr then .read v 4 fun _ => .done (invoke sig (.str (v + 4) none))
  else if vtype = wtBytes then .read v 4 fun b => .done (invoke sig (.bytes (v + 4) (leGet b) none))
  else .done (sfError sig (ascii "type mismatch"))

/-- Neither the expected tag nor widened to it. -/
abbrev Mismatched (want got : UInt8) : Prop :=
  got ≠ want ∧ ¬ (want = wtBool ∧ got = wtI32) ∧ ¬ (want = wtI32 ∧ got = wtBool)

def taggedReads (want : UInt8) (sig : WasmSig) (errLen : ℕ) (vtype : UInt8) : Reading Delivery :=
  if Mismatched want vtype then .done (sfError sig (ascii "type mismatch"))
  else decodeReads sig vtype (10 + errLen)

def countedReads (want : UInt8) (sig : WasmSig) (len errLen vcount : ℕ) : Reading Delivery :=
  if vcount < 1 ∨ len ≤ 9 + errLen then .done (sfError sig (ascii "bad response"))
  else .read (9 + errLen) 1 fun t => taggedReads want sig errLen (t.headD 0)

def valuesReads (want : UInt8) (sig : WasmSig) (len errLen : ℕ) : Reading Delivery :=
  if len < 5 + errLen + 4 then .done (sfError sig (ascii "bad response"))
  else .read (5 + errLen) 4 fun count => countedReads want sig len errLen (leGet count)

def messageReads (sig : WasmSig) (off errLen : ℕ) : Reading Delivery :=
  if scratchFits off (errLen + 1) then .read 5 errLen fun text => .done (sfError sig (cstr text))
  else .done (sfError sig (ascii "error"))

def framedReads (want : UInt8) (sig : WasmSig) (off len : ℕ) (st : UInt8) (errLen : ℕ) : Reading Delivery :=
  if len < errLen then .done (sfError sig (ascii "bad response"))
  else if st ≠ 0 then messageReads sig off errLen
  else valuesReads want sig len errLen

/-- `sf_done_common` for a response that is not NULL. -/
def doneReads (p : Pending) (sig : WasmSig) (off : ℕ) (status len : Int) : Reading Delivery :=
  if p.cb.isNone then .done .nothing
  else if status ≠ 200 ∨ len < 9 then .done (sfError sig (ascii "network error"))
  else .read 0 1 fun st => .read 1 4 fun e =>
    framedReads p.wantType sig off len.toNat (st.headD 0) (leGet e)

theorem decodeReads_run (sig : WasmSig) (vtype : UInt8) (v : ℕ) (m : Mem) :
    (decodeReads sig vtype v).run m = sfDecode sig m vtype v := by
  unfold decodeReads
  simp only [apply_ite (Reading.run m)]
  rfl

theorem messageReads_run (sig : WasmSig) (off errLen : ℕ) (m : Mem) :
    (messageReads sig off errLen).run m =
      if scratchFits off (errLen + 1) then sfError sig (cstr (m.load 5 errLen))
      else sfError sig (ascii "error") := by
  unfold messageReads
  rw [apply_ite (Reading.run m)]
  rfl

theorem valuesReads_run (want : UInt8) (sig : WasmSig) (len errLen : ℕ) (m : Mem) :
    (valuesReads want sig len errLen).run m =
      if len < 5 + errLen + 4 then sfError sig (ascii "bad response")
      else if leGet (m.load (5 + errLen) 4) < 1 ∨ len ≤ 9 + errLen then
        sfError sig (ascii "bad response")
      else if Mismatched want (m (9 + errLen)) then sfError sig (ascii "type mismatch")
      else sfDecode sig m (m (9 + errLen)) (10 + errLen) := by
  rw [← decodeReads_run]
  unfold valuesReads
  rw [apply_ite (Reading.run m), Reading.run, Reading.run]
  unfold countedReads
  rw [apply_ite (Reading.run m), Reading.run, Reading.run]
  unfold taggedReads
  rw [apply_ite (Reading.run m)]
  rfl

/-- The decoder as it stands in the source, and the one that notes its reads, are the same. -/
theorem doneReads_run (p : Pending) (sig : WasmSig) (off : ℕ) (status : Int) (m : Mem) (len : Int) :
    (doneReads p sig off status len).run m = sfDoneCommon p sig off status (some m) len := by
  unfold doneReads
  rw [apply_ite (Reading.run m), apply_ite (Reading.run m)]
  simp only [Reading.run]
  unfold framedReads
  rw [apply_ite (Reading.run m), apply_ite (Reading.run m), messageReads_run, valuesReads_run]
  rfl

def errLen (m : Mem) : ℕ := leGet (m.load 1 4)
def vcount (m : Mem) : ℕ := leGet (m.load (5 + errLen m) 4)
def vtype (m : Mem) : UInt8 := m (9 + errLen m)

/-- The response is a failure whose message is copied. -/
structure Copied (off : ℕ) (status : Int) (m : Mem) (len : Int) : Prop where
  status : status = 200
  long : 9 ≤ len
  errLen : errLen m ≤ len.toNat
  failed : m 0 ≠ 0
  room : scratchFits off (ReplyFrames.errLen m + 1) = true

/-- The response is a success, and the tag of its value is accepted for this type. -/
structure Valued (want : UInt8) (status : Int) (m : Mem) (len : Int) : Prop where
  status : status = 200
  long : 9 ≤ len
  ok : m 0 = 0
  count : 1 ≤ vcount m
  tagged : 10 + errLen m ≤ len.toNat
  type : ¬ Mismatched want (vtype m)

def Inside (len : Int) (b : ℕ × ℕ) : Prop := b.1 + b.2 ≤ len.toNat + 1

/-- A response that is long enough: its message is copied, its value decoded, or an error
reported after reads inside it. -/
theorem framedReads_cases (want : UInt8) (sig : WasmSig) (off : ℕ) (m : Mem) {len : Int} (long : 9 ≤ len) :
    (Copied off 200 m len ∧ ¬ Valued want 200 m len ∧
      (framedReads want sig off len.toNat (m 0) (errLen m)).log m = [(5, errLen m)] ∧
      ∃ text, (framedReads want sig off len.toNat (m 0) (errLen m)).run m = sfError sig text) ∨
    (¬ Copied off 200 m len ∧ Valued want 200 m len ∧
      (framedReads want sig off len.toNat (m 0) (errLen m)).log m =
        (5 + errLen m, 4) :: (9 + errLen m, 1) :: (decodeReads sig (vtype m) (10 + errLen m)).log m ∧
      (framedReads want sig off len.toNat (m 0) (errLen m)).run m =
        sfDecode sig m (vtype m) (10 + errLen m)) ∨
    (¬ Copied off 200 m len ∧ ¬ Valued want 200 m len ∧
      (∀ b ∈ (framedReads want sig off len.toNat (m 0) (errLen m)).log m, Inside len b) ∧
      ∃ text, (framedReads want sig off len.toNat (m 0) (errLen m)).run m = sfError sig text) := by
  unfold framedReads
  by_cases big : len.toNat < errLen m
  · rw [if_pos big]
    refine .inr (.inr ⟨?_, ?_, ?_, _, rfl⟩)
    · intro h
      exact absurd h.errLen (by omega)
    · intro h
      exact absurd h.tagged (by omega)
    · intro b hb
      cases hb
  rw [if_neg big]
  by_cases failed : m 0 ≠ 0
  · rw [if_pos failed, messageReads]
    have plain : ¬ Valued want 200 m len := fun h => failed h.ok
    by_cases room : scratchFits off (errLen m + 1) = true
    · rw [if_pos room]
      exact .inl ⟨⟨rfl, long, by omega, failed, room⟩, plain, rfl, _, rfl⟩
    · rw [if_neg room]
      refine .inr (.inr ⟨fun h => room h.room, plain, ?_, _, rfl⟩)
      intro b hb
      cases hb
  rw [if_neg failed, valuesReads]
  have ok : m 0 = 0 := not_not.mp failed
  have plain : ¬ Copied off 200 m len := fun h => failed h.failed
  by_cases short : len.toNat < 5 + errLen m + 4
  · rw [if_pos short]
    refine .inr (.inr ⟨plain, fun h => absurd h.tagged (by omega), ?_, _, rfl⟩)
    intro b hb
    cases hb
  rw [if_neg short]
  have counted : Inside len (5 + errLen m, 4) := by
    unfold Inside
    dsimp only
    omega
  have log : Reading.log m (.read (5 + errLen m) 4 fun count =>
      countedReads want sig len.toNat (errLen m) (leGet count)) =
    (5 + errLen m, 4) :: (countedReads want sig len.toNat (errLen m) (vcount m)).log m := rfl
  have run : Reading.run m (.read (5 + errLen m) 4 fun count =>
      countedReads want sig len.toNat (errLen m) (leGet count)) =
    (countedReads want sig len.toNat (errLen m) (vcount m)).run m := rfl
  rw [log, run, countedReads]
  by_cases empty : vcount m < 1 ∨ len.toNat ≤ 9 + errLen m
  · rw [if_pos empty]
    refine .inr (.inr ⟨plain, ?_, ?_, _, rfl⟩)
    · intro h
      have count := h.count
      have tagged := h.tagged
      omega
    · intro b hb
      rwa [List.mem_singleton.mp hb]
  rw [if_neg empty]
  have log : Reading.log m (.read (9 + errLen m) 1 fun t => taggedReads want sig (errLen m) (t.headD 0)) =
    (9 + errLen m, 1) :: (taggedReads want sig (errLen m) (vtype m)).log m := rfl
  have run : Reading.run m (.read (9 + errLen m) 1 fun t => taggedReads want sig (errLen m) (t.headD 0)) =
    (taggedReads want sig (errLen m) (vtype m)).run m := rfl
  rw [log, run, taggedReads]
  by_cases other : Mismatched want (vtype m)
  · rw [if_pos other]
    refine .inr (.inr ⟨plain, fun h => h.type other, ?_, _, rfl⟩)
    intro b hb
    obtain rfl | hb := List.mem_cons.mp hb
    · exact counted
    · rw [List.mem_singleton.mp hb]
      unfold Inside
      dsimp only
      omega
  · rw [if_neg other, decodeReads_run]
    exact .inr (.inl ⟨plain, ⟨rfl, long, ok, by omega, by omega, other⟩, rfl, rfl⟩)

theorem doneReads_cases (cb user : ℕ) (want : UInt8) (sig : WasmSig) (off : ℕ) (status : Int) (m : Mem)
    (len : Int) :
    (Copied off status m len ∧ ¬ Valued want status m len ∧
      (doneReads ⟨some cb, user, want⟩ sig off status len).log m = [(0, 1), (1, 4), (5, errLen m)] ∧
      ∃ text, sfDoneCommon ⟨some cb, user, want⟩ sig off status (some m) len = sfError sig text) ∨
    (¬ Copied off status m len ∧ Valued want status m len ∧
      (doneReads ⟨some cb, user, want⟩ sig off status len).log m =
        (0, 1) :: (1, 4) :: (5 + errLen m, 4) :: (9 + errLen m, 1) ::
          (decodeReads sig (vtype m) (10 + errLen m)).log m ∧
      sfDoneCommon ⟨some cb, user, want⟩ sig off status (some m) len =
        sfDecode sig m (vtype m) (10 + errLen m)) ∨
    (¬ Copied off status m len ∧ ¬ Valued want status m len ∧
      (∀ b ∈ (doneReads ⟨some cb, user, want⟩ sig off status len).log m, Inside len b) ∧
      ∃ text, sfDoneCommon ⟨some cb, user, want⟩ sig off status (some m) len = sfError sig text) := by
  rw [← doneReads_run, doneReads]
  dsimp only [Option.isNone_some]
  rw [if_neg (by decide)]
  by_cases bad : status ≠ 200 ∨ len < 9
  · rw [if_pos bad]
    have plain : ∀ {P : Prop}, status = 200 → 9 ≤ len → P := by
      intro P same long
      exact absurd bad (by omega)
    refine .inr (.inr ⟨fun h => plain h.status h.long, fun h => plain h.status h.long, ?_, _, rfl⟩)
    intro b hb
    cases hb
  rw [if_neg bad]
  obtain ⟨rfl, long⟩ : status = 200 ∧ 9 ≤ len := by omega
  have log : Reading.log m (.read 0 1 fun st => .read 1 4 fun e =>
      framedReads want sig off len.toNat (st.headD 0) (leGet e)) =
    (0, 1) :: (1, 4) :: (framedReads want sig off len.toNat (m 0) (errLen m)).log m := rfl
  have run : Reading.run m (.read 0 1 fun st => .read 1 4 fun e =>
      framedReads want sig off len.toNat (st.headD 0) (leGet e)) =
    (framedReads want sig off len.toNat (m 0) (errLen m)).run m := rfl
  rw [log, run]
  obtain ⟨copied, plain, reads, text⟩ | ⟨plain, valued, reads, value⟩ | ⟨fine, plain, reads, text⟩ :=
    framedReads_cases want sig off m long
  · exact .inl ⟨copied, plain, by rw [reads], text⟩
  · exact .inr (.inl ⟨plain, valued, by rw [reads], value⟩)
  · refine .inr (.inr ⟨fine, plain, ?_, text⟩)
    intro b hb
    obtain rfl | hb := List.mem_cons.mp hb
    · exact Nat.succ_le_succ (Nat.zero_le _)
    · obtain rfl | hb := List.mem_cons.mp hb
      · unfold Inside
        dsimp only
        omega
      · exact reads b hb

theorem accepted_tag {ret : SfType} {t : UInt8} (h : ¬ Mismatched (tag ret) t) :
    t = tag ret ∨ (t = wtI32 ∧ ret = .bool) ∨ (t = wtBool ∧ ret = .i32) := by
  by_cases same : t = tag ret
  · exact .inl same
  · by_cases wide : tag ret = wtBool ∧ t = wtI32
    · refine .inr (.inl ⟨wide.2, ?_⟩)
      obtain ⟨e, _⟩ := wide
      cases ret with
      | bool => rfl
      | i32 | i64 | f64 | str | bytes => cases e
    · by_cases narrow : tag ret = wtI32 ∧ t = wtBool
      · refine .inr (.inr ⟨narrow.2, ?_⟩)
        obtain ⟨e, _⟩ := narrow
        cases ret with
        | i32 => rfl
        | bool | i64 | f64 | str | bytes => cases e
      · exact absurd ⟨same, wide, narrow⟩ h

theorem sfDecode_call {ret : SfType} {t : UInt8} (h : ¬ Mismatched (tag ret) t) (m : Mem) (v : ℕ) :
    ∃ c, sfDecode (cbSig ret) m t v = .call c ∧ c.sig = cbSig ret := by
  obtain rfl | ⟨rfl, rfl⟩ | ⟨rfl, rfl⟩ := accepted_tag h
  · cases ret <;> exact ⟨_, rfl, rfl⟩
  · exact ⟨_, rfl, rfl⟩
  · exact ⟨_, rfl, rfl⟩

/-- The callback is called, and through its own wasm signature. -/
def CalledAs (ret : SfType) (d : Delivery) : Prop := ∃ c, d = .call c ∧ c.sig = cbSig ret

theorem sfError_calledAs (ret : SfType) (text : Bytes) :
    CalledAs ret (sfError (cbSig ret) text) ↔ cbSig ret = .words := by
  obtain ⟨trap, other⟩ | ⟨call, words⟩ := sfError_cases (cbSig ret) text
  · rw [trap]
    refine ⟨?_, fun words => absurd words other⟩
    rintro ⟨c, e, _⟩
    cases e
  · rw [call]
    exact ⟨fun _ => words, fun _ => ⟨_, rfl, words.symm⟩⟩

/-- The response, if there is one, is a success with a value of the declared type. -/
def Answers (ret : SfType) (status : Int) (data : Option Mem) (len : Int) : Prop :=
  ∃ m, data = some m ∧ Valued (tag ret) status m len

/-- Every other outcome goes through the `i32` type, so the callback is called as it is
declared exactly for the types that share its signature and for a value. -/
theorem callback_type_iff (ret : SfType) (cb user off : ℕ) (status : Int) (data : Option Mem) (len : Int) :
    (CalledAs ret (sfDoneCommon ⟨some cb, user, tag ret⟩ (cbSig ret) off status data len) ↔
      cbSig ret = .words ∨ Answers ret status data len) ∧
    (¬ CalledAs ret (sfDoneCommon ⟨some cb, user, tag ret⟩ (cbSig ret) off status data len) →
      sfDoneCommon ⟨some cb, user, tag ret⟩ (cbSig ret) off status data len = .trap) := by
  have fault : ∀ text, ¬ CalledAs ret (sfError (cbSig ret) text) → sfError (cbSig ret) text = .trap := by
    intro text h
    obtain ⟨trap, _⟩ | ⟨_, words⟩ := sfError_cases (cbSig ret) text
    · exact trap
    · exact absurd ((sfError_calledAs ret text).mpr words) h
  cases data with
  | none =>
    have error : sfDoneCommon ⟨some cb, user, tag ret⟩ (cbSig ret) off status none len =
      sfError (cbSig ret) (ascii "network error") := rfl
    rw [error, sfError_calledAs]
    refine ⟨⟨.inl, ?_⟩, fun h => fault _ fun called => h ((sfError_calledAs ret _).mp called)⟩
    rintro (words | ⟨m, e, _⟩)
    · exact words
    · cases e
  | some m =>
    have answers : Answers ret status (some m) len ↔ Valued (tag ret) status m len :=
      ⟨fun ⟨n, e, valued⟩ => Option.some.inj e ▸ valued, fun valued => ⟨m, rfl, valued⟩⟩
    rw [answers]
    have failed : ∀ text, ¬ Valued (tag ret) status m len →
        (CalledAs ret (sfError (cbSig ret) text) ↔ cbSig ret = .words ∨ Valued (tag ret) status m len) := by
      intro text plain
      rw [sfError_calledAs, or_iff_left plain]
    obtain ⟨_, plain, _, text, e⟩ | ⟨_, valued, _, e⟩ | ⟨_, plain, _, text, e⟩ :=
      doneReads_cases cb user (tag ret) (cbSig ret) off status m len
    · rw [e]
      exact ⟨failed text plain, fault text⟩
    · have called := sfDecode_call valued.type m (10 + errLen m)
      rw [e]
      exact ⟨⟨fun _ => .inr valued, fun _ => called⟩, fun h => absurd called h⟩
    · rw [e]
      exact ⟨failed text plain, fault text⟩

/-- An `int64_t` callback is not told of a failed request, but called through the wrong type. -/
theorem long_callback_traps : sfDoneCommon ⟨some 7, 0, wtI64⟩ (cbSig .i64) 0 0 none 0 = .trap ∧
    ¬ CalledAs .i64 (sfDoneCommon ⟨some 7, 0, wtI64⟩ (cbSig .i64) 0 0 none 0) := by
  refine ⟨rfl, ?_⟩
  rintro ⟨c, e, _⟩
  cases e

/-- The blocks of the response that a callback gets: a string has at least its terminator. -/
def handedOut : Delivery → List (ℕ × ℕ)
  | .call (.str off _) => [(off, 1)]
  | .call (.bytes off len _) => [(off, len)]
  | _ => []

/-- Where the value ends, or its string may begin to end. -/
def valueEnd (m : Mem) : ℕ :=
  if vtype m = wtI32 ∨ vtype m = wtBool then 14 + errLen m
  else if vtype m = wtI64 ∨ vtype m = wtF64 then 18 + errLen m
  else if vtype m = wtStr then 15 + errLen m
  else if vtype m = wtBytes then 14 + errLen m + leGet (m.load (10 + errLen m) 4)
  else 10 + errLen m

/-- Neither the decoder nor what it hands to the callback leaves the response. -/
structure Bounded (ret : SfType) (cb user off : ℕ) (status : Int) (m : Mem) (len : Int) : Prop where
  reads : ∀ b ∈ (doneReads ⟨some cb, user, tag ret⟩ (cbSig ret) off status len).log m, Inside len b
  handed : ∀ b ∈ handedOut (sfDoneCommon ⟨some cb, user, tag ret⟩ (cbSig ret) off status (some m) len),
    Inside len b

theorem handedOut_error (sig : WasmSig) (text : Bytes) : handedOut (sfError sig text) = [] := by
  obtain ⟨e, _⟩ | ⟨e, _⟩ := sfError_cases sig text <;> rw [e] <;> rfl

theorem value_inside {ret : SfType} {m : Mem} (h : ¬ Mismatched (tag ret) (vtype m)) (len : Int) :
    ((∀ b ∈ (decodeReads (cbSig ret) (vtype m) (10 + errLen m)).log m, Inside len b) ∧
      ∀ b ∈ handedOut (sfDecode (cbSig ret) m (vtype m) (10 + errLen m)), Inside len b) ↔
    valueEnd m ≤ len.toNat + 1 := by
  have none : ∀ b ∈ ([] : List (ℕ × ℕ)), Inside len b := by
    intro b hb
    cases hb
  have one : ∀ a n, (∀ b ∈ [(a, n)], Inside len b) ↔ a + n ≤ len.toNat + 1 := by
    intro a n
    simp only [List.mem_singleton, forall_eq]
    exact Iff.rfl
  have number : ∀ n, ((∀ b ∈ [(10 + errLen m, n)], Inside len b) ∧ ∀ b ∈ ([] : List (ℕ × ℕ)), Inside len b) ↔
      10 + n + errLen m ≤ len.toNat + 1 := by
    intro n
    rw [one, and_iff_left none, Nat.add_right_comm]
  have block : ∀ n, ((∀ b ∈ [(10 + errLen m, 4)], Inside len b) ∧
      ∀ b ∈ [(10 + errLen m + 4, n)], Inside len b) ↔ 14 + errLen m + n ≤ len.toNat + 1 := by
    intro n
    rw [one, one]
    omega
  unfold valueEnd
  obtain e | ⟨e, rfl⟩ | ⟨e, rfl⟩ := accepted_tag h
  · rw [e]
    cases ret with
    | i32 | bool => exact number 4
    | i64 | f64 => exact number 8
    | str =>
      have text := block 1
      rw [Nat.add_right_comm 14] at text
      exact text
    | bytes => exact block _
  · rw [e]
    exact number 4
  · rw [e]
    exact number 4

/-- A copied message and a decoded value have to lie inside the response; everything else
stays inside by itself. -/
theorem reply_bounded_iff (ret : SfType) (cb user off : ℕ) (status : Int) (m : Mem) (len : Int) :
    Bounded ret cb user off status m len ↔
      (Copied off status m len → 5 + errLen m ≤ len.toNat + 1) ∧
      (Valued (tag ret) status m len → valueEnd m ≤ len.toNat + 1) := by
  have silent : ∀ {text}, sfDoneCommon ⟨some cb, user, tag ret⟩ (cbSig ret) off status (some m) len =
      sfError (cbSig ret) text →
      ∀ b ∈ handedOut (sfDoneCommon ⟨some cb, user, tag ret⟩ (cbSig ret) off status (some m) len),
        Inside len b := by
    intro text e b hb
    rw [e, handedOut_error] at hb
    cases hb
  obtain ⟨copied, plain, log, text, e⟩ | ⟨plain, valued, log, e⟩ | ⟨fine, plain, inside, text, e⟩ :=
    doneReads_cases cb user (tag ret) (cbSig ret) off status m len
  · constructor
    · intro h
      refine ⟨fun _ => h.reads (5, errLen m) ?_, fun valued => absurd valued plain⟩
      rw [log]
      exact List.mem_of_elem_eq_true (by simp)
    · rintro ⟨inside, _⟩
      refine ⟨?_, silent e⟩
      have long := copied.long
      rw [log]
      intro b hb
      simp only [List.mem_cons, List.not_mem_nil, or_false] at hb
      unfold Inside
      obtain rfl | rfl | rfl := hb
      · dsimp only
        omega
      · dsimp only
        omega
      · exact inside copied
  · rw [← value_inside valued.type len]
    have tagged := valued.tagged
    constructor
    · intro h
      refine ⟨fun copied => absurd copied plain, fun _ => ⟨?_, ?_⟩⟩
      · intro b hb
        refine h.reads b ?_
        rw [log]
        simp only [List.mem_cons]
        exact .inr (.inr (.inr (.inr hb)))
      · have handed := h.handed
        rwa [e] at handed
    · rintro ⟨_, inside⟩
      refine ⟨?_, ?_⟩
      · rw [log]
        intro b hb
        simp only [List.mem_cons] at hb
        have front : ∀ a n, a + n ≤ 10 + errLen m → Inside len (a, n) :=
          fun a n le => (le.trans tagged).trans (Nat.le_succ _)
        obtain rfl | rfl | rfl | rfl | hb := hb
        · exact front 0 1 (by omega)
        · exact front 1 4 (by omega)
        · exact front _ 4 (by omega)
        · exact front _ 1 (by omega)
        · exact (inside valued).1 b hb
      · rw [e]
        exact (inside valued).2
  · exact ⟨fun _ => ⟨fun copied => absurd copied fine, fun valued => absurd valued plain⟩,
      fun _ => ⟨inside, silent e⟩⟩

theorem reply_reads_cover {p : Pending} {sig : WasmSig} {off : ℕ} {status : Int} {m m' : Mem} {len : Int}
    (h : Agree m m' ((doneReads p sig off status len).log m)) :
    sfDoneCommon p sig off status (some m') len = sfDoneCommon p sig off status (some m) len := by
  rw [← doneReads_run, ← doneReads_run]
  exact (Reading.run_congr h).1

/-- A success frame of ten bytes that ends with the tag of a `bytes` value. -/
def cutFrame : Bytes := [0] ++ (lePut 4 0 ++ (lePut 4 1 ++ [wtBytes]))

/-- The length of the bytes is read behind the response. -/
theorem cut_frame_read_past : cutFrame.length = 10 ∧
    (10, 4) ∈ (doneReads ⟨some 7, 0, wtBytes⟩ (cbSig .bytes) 0 200 10).log (fetchBuffer cutFrame) ∧
    ¬ Bounded .bytes 7 0 0 200 (fetchBuffer cutFrame) 10 := by
  have read : (10, 4) ∈ (doneReads ⟨some 7, 0, wtBytes⟩ (cbSig .bytes) 0 200 10).log (fetchBuffer cutFrame) := by
    decide
  refine ⟨by decide, read, fun h => ?_⟩
  exact absurd (h.reads (10, 4) read) (by unfold Inside; decide)

end Cerco.ReplyFrames
