import Cerco.BlockRuns
import Cerco.ClientBody

set_option autoImplicit false

/-!
# The bounds of the request body

Any sequence of the builder's calls, as pages and generated stubs may make them. `need`
and `posted` are history: what the frame since `cerco_sf_begin` takes if everything
is put into it, and what was handed to `cerco_http_post`.
-/
namespace Cerco.SfBodyBounds
open Cerco.BlockRuns Cerco.ByteMemory Cerco.CString Cerco.ClientBody Cerco.Wire
open Cerco.ServerFunctions (sfBodyMax)

structure BodySt where
  buf : SfBuf
  need : ℕ
  posted : List Bytes

/-- `pending` is the table that a submission finds. -/
inductive BodyOp
  | start (id nargs : UInt32)
  | arg (call : ArgCall)
  | submit (pending : List Pending) (cb : Option ℕ) (user : ℕ) (want : UInt8)

def argSize : ArgCall → ℕ
  | .i32 _ | .bool _ => 5
  | .i64 _ | .f64 _ => 9
  | .str s => 5 + (cstrBytes s).length
  | .bytes d len _ => 5 + (d.take len.toNat).length

def BodyOp.run (s : BodySt) : BodyOp → BodySt
  | .start id nargs => { s with buf := sfBegin s.buf.mem id nargs, need := 0 }
  | .arg call => { s with buf := call.run s.buf, need := s.need + argSize call }
  | .submit pending cb user want =>
    match sfSubmitRaw pending s.buf cb user want with
    | none => s
    | some (_, b, _) => ⟨b, s.need + 4, s.posted ++ [b.frame]⟩

/-- The static buffer before the first call. -/
def bodyStart (m : Mem) : BodySt := ⟨⟨m, 0, 0, 0⟩, 0, []⟩

def blockParts (b : SfBuf) (t : UInt8) (d : Bytes) : List Bytes :=
  if sfBodyMax < b.len + 5 + d.length then [] else [[t], putU32 d.length, d]

def argParts (b : SfBuf) : ArgCall → List Bytes
  | .i32 v => [[wtI32], putU32 v.toNat]
  | .bool v => [[wtBool], putU32 (if v ≠ 0 then 1 else 0)]
  | .i64 v => [[wtI64], putU64 v.toNat]
  | .f64 v => [[wtF64], putU64 v.toNat]
  | .str s => blockParts b wtStr (cstrBytes s)
  | .bytes d len _ => blockParts b wtBytes (d.take len.toNat)

def opBlocks (s : BodySt) : BodyOp → List (ℕ × ℕ)
  | .start _ _ => []
  | .arg call => blocksFrom s.buf.len (argParts s.buf call)
  | .submit pending cb user want =>
    match sfSubmitRaw pending s.buf cb user want with
    | none => []
    | some _ => [(4, s.buf.len), (0, 4)]

def Poisons (b : SfBuf) : ArgCall → Prop
  | .str s => sfBodyMax < b.len + 5 + (cstrBytes s).length
  | .bytes d len _ => sfBodyMax < b.len + 5 + (d.take len.toNat).length
  | _ => False

theorem run_parts (b : SfBuf) (call : ArgCall) :
    (Poisons b call ∧ argParts b call = [] ∧ call.run b = { b with len := sfBodyMax + 1 }) ∨
    (¬ Poisons b call ∧ call.run b = (argParts b call).foldl SfBuf.put b ∧
      (argParts b call).flatten.length = argSize call) := by
  have block : ∀ t d, sfBodyMax < b.len + 5 + d.length ∧ blockParts b t d = [] ∧
      sfArgBlock b t d = { b with len := sfBodyMax + 1 } ∨
      ¬ sfBodyMax < b.len + 5 + d.length ∧ sfArgBlock b t d = (blockParts b t d).foldl SfBuf.put b ∧
        (blockParts b t d).flatten.length = 5 + d.length := by
    intro t d
    unfold blockParts sfArgBlock
    by_cases big : sfBodyMax < b.len + 5 + d.length
    · rw [if_pos big, if_pos big]
      exact .inl ⟨big, rfl, rfl⟩
    · rw [if_neg big, if_neg big]
      refine .inr ⟨big, rfl, ?_⟩
      simp [putU32]
      omega
  cases call with
  | i32 v => exact .inr ⟨id, rfl, rfl⟩
  | bool v => exact .inr ⟨id, rfl, rfl⟩
  | i64 v => exact .inr ⟨id, rfl, rfl⟩
  | f64 v => exact .inr ⟨id, rfl, rfl⟩
  | str s => exact block wtStr (cstrBytes s)
  | bytes d len _ => exact block wtBytes (d.take len.toNat)

def Beside (x : ℕ) (b : ℕ × ℕ) : Prop := x < b.1 ∨ b.1 + b.2 ≤ x

theorem foldl_put_outside (b : SfBuf) (ps : List Bytes) {x : ℕ} (h : ∀ k ∈ blocksFrom b.len ps, Beside x k) :
    (ps.foldl SfBuf.put b).mem x = b.mem x := by
  induction ps generalizing b with
  | nil => rfl
  | cons p ps ih =>
    rw [blocksFrom, List.forall_mem_cons] at h
    rw [List.foldl_cons, ih (b.put p) h.2]
    exact write_outside b.mem p h.1

theorem frameHeader_outside (b : SfBuf) {x : ℕ} (moved : Beside x (4, b.len)) (header : Beside x (0, 4)) :
    (frameHeader b).mem x = b.mem x := by
  have four : (putU32 b.nargs.toNat).length = 4 := rfl
  change ((b.mem.move 4 0 b.len).write 0 (putU32 b.nargs.toNat)) x = _
  rw [write_outside _ _ (by rw [four]; exact header), Mem.move, if_neg (by omega)]
  exact copyDown_outside b.mem moved

theorem submit_cases (s : BodySt) (pending : List Pending) (cb : Option ℕ) (user : ℕ) (want : UInt8) :
    (BodyOp.run s (.submit pending cb user want) = s ∧ opBlocks s (.submit pending cb user want) = []) ∨
    (s.buf.len + 4 ≤ sfBodyMax ∧
      BodyOp.run s (.submit pending cb user want) =
        ⟨frameHeader s.buf, s.need + 4, s.posted ++ [(frameHeader s.buf).frame]⟩ ∧
      opBlocks s (.submit pending cb user want) = [(4, s.buf.len), (0, 4)]) := by
  simp only [BodyOp.run, opBlocks, sfSubmitRaw]
  cases freeSlot pending with
  | none => exact .inl ⟨rfl, rfl⟩
  | some slot =>
    dsimp only
    by_cases big : sfBodyMax < s.buf.len + 4
    · rw [if_pos big]
      exact .inl ⟨rfl, rfl⟩
    · rw [if_neg big]
      exact .inr ⟨Nat.le_of_not_lt big, rfl, rfl⟩

theorem run_outside (s : BodySt) (op : BodyOp) {x : ℕ} (h : ∀ k ∈ opBlocks s op, Beside x k) :
    (op.run s).buf.mem x = s.buf.mem x := by
  cases op with
  | start id nargs => rfl
  | arg call =>
    change (call.run s.buf).mem x = _
    obtain ⟨_, _, e⟩ | ⟨_, e, _⟩ := run_parts s.buf call
    · rw [e]
    · rw [e]
      exact foldl_put_outside s.buf _ h
  | submit pending cb user want =>
    obtain ⟨e, _⟩ | ⟨_, e, blocks⟩ := submit_cases s pending cb user want
    · rw [e]
    · rw [blocks] at h
      rw [e]
      exact frameHeader_outside s.buf (h _ List.mem_cons_self) (h _ (List.mem_cons_of_mem _ List.mem_cons_self))

def Tracked (s : BodySt) : Prop := s.buf.len = s.need ∨ sfBodyMax < s.buf.len ∧ sfBodyMax < s.need

theorem put_len (b : SfBuf) (ps : List Bytes) : (ps.foldl SfBuf.put b).len = b.len + ps.flatten.length := by
  induction ps generalizing b with
  | nil => rfl
  | cons p ps ih =>
    rw [List.foldl_cons, ih, List.flatten_cons, List.length_append]
    exact Nat.add_assoc _ _ _

theorem Tracked.run {s : BodySt} (h : Tracked s) (op : BodyOp) : Tracked (op.run s) := by
  cases op with
  | start id nargs => exact .inl rfl
  | arg call =>
    unfold Tracked
    change (call.run s.buf).len = s.need + argSize call ∨
      sfBodyMax < (call.run s.buf).len ∧ sfBodyMax < s.need + argSize call
    obtain ⟨big, _, e⟩ | ⟨_, e, size⟩ := run_parts s.buf call
    · rw [e]
      refine .inr ⟨Nat.lt_succ_self _, ?_⟩
      have grown : s.buf.len ≤ s.need ∨ sfBodyMax < s.need := h.imp le_of_eq And.right
      cases call with
      | str t =>
        change sfBodyMax < s.buf.len + 5 + _ at big
        change sfBodyMax < s.need + (5 + _)
        omega
      | bytes d len room =>
        change sfBodyMax < s.buf.len + 5 + _ at big
        change sfBodyMax < s.need + (5 + _)
        omega
      | i32 | bool | i64 | f64 => cases big
    · rw [e, put_len, size]
      unfold Tracked at h
      omega
  | submit pending cb user want =>
    obtain ⟨e, _⟩ | ⟨room, e, _⟩ := submit_cases s pending cb user want
    · rwa [e]
    · rw [e]
      obtain same | ⟨big, _⟩ := h
      · exact .inl (congrArg (· + 4) same)
      · omega

theorem tracked_runs (m : Mem) (ops : List BodyOp) : Tracked (ops.foldl BodyOp.run (bodyStart m)) :=
  List.foldlRecOn ops BodyOp.run (motive := Tracked) (.inl rfl) fun _ h op _ => h.run op

def Scalar : ArgCall → Prop
  | .i32 _ | .bool _ | .i64 _ | .f64 _ => True
  | _ => False

/-- A number ends within the buffer, with everything in front of it. -/
def Roomy (s : BodySt) : BodyOp → Prop
  | .arg call => Scalar call → s.need + argSize call ≤ sfBodyMax
  | _ => True

theorem opBlocks_within {s : BodySt} (h : Tracked s) (op : BodyOp) :
    (∀ b ∈ opBlocks s op, Within sfBodyMax b) ↔ Roomy s op := by
  cases op with
  | start id nargs =>
    refine ⟨fun _ => trivial, fun _ b hb => ?_⟩
    cases hb
  | arg call =>
    have number : ∀ p q : Bytes, (∀ b ∈ blocksFrom s.buf.len [p, q], Within sfBodyMax b) ↔
        s.need + (p.length + q.length) ≤ sfBodyMax := by
      intro p q
      rw [blocksFrom_within]
      simp only [List.flatten_cons, List.flatten_nil, List.append_nil, List.length_append]
      unfold Tracked at h
      omega
    have block : ∀ t d, ∀ b ∈ blocksFrom s.buf.len (blockParts s.buf t d), Within sfBodyMax b := by
      intro t d
      unfold blockParts
      by_cases big : sfBodyMax < s.buf.len + 5 + d.length
      · rw [if_pos big]
        intro b hb
        cases hb
      · rw [if_neg big, blocksFrom_within]
        simp [putU32]
        omega
    cases call with
    | i32 v => exact (number _ _).trans ⟨fun le _ => le, fun room => room trivial⟩
    | bool v => exact (number _ _).trans ⟨fun le _ => le, fun room => room trivial⟩
    | i64 v => exact (number _ _).trans ⟨fun le _ => le, fun room => room trivial⟩
    | f64 v => exact (number _ _).trans ⟨fun le _ => le, fun room => room trivial⟩
    | str t => exact ⟨fun _ scalar => scalar.elim, fun _ => block wtStr (cstrBytes t)⟩
    | bytes d len _ => exact ⟨fun _ scalar => scalar.elim, fun _ => block wtBytes (d.take len.toNat)⟩
  | submit pending cb user want =>
    refine ⟨fun _ => trivial, fun _ => ?_⟩
    obtain ⟨_, blocks⟩ | ⟨room, _, blocks⟩ := submit_cases s pending cb user want
    · rw [blocks]
      intro b hb
      cases hb
    · rw [blocks]
      intro b hb
      unfold Within
      simp only [List.mem_cons, List.not_mem_nil, or_false] at hb
      obtain rfl | rfl := hb
      · dsimp only
        omega
      · decide

/-- Every store goes into `sf_body`, and a call that does not fit is not posted. -/
structure Contained (m : Mem) (ops : List BodyOp) : Prop where
  stores : ∀ b ∈ runBlocks BodyOp.run opBlocks (bodyStart m) ops, Within sfBodyMax b
  rejected : ∀ pre pending cb user want, pre ++ [.submit pending cb user want] <+: ops →
    sfBodyMax < (pre.foldl BodyOp.run (bodyStart m)).need + 4 →
    BodyOp.run (pre.foldl BodyOp.run (bodyStart m)) (.submit pending cb user want) =
      pre.foldl BodyOp.run (bodyStart m)

theorem Tracked.rejects {s : BodySt} (h : Tracked s) (big : sfBodyMax < s.need + 4) (pending : List Pending)
    (cb : Option ℕ) (user : ℕ) (want : UInt8) : BodyOp.run s (.submit pending cb user want) = s := by
  obtain ⟨e, _⟩ | ⟨room, _⟩ := submit_cases s pending cb user want
  · exact e
  · unfold Tracked at h
    omega

theorem stores_within (m : Mem) (ops : List BodyOp) :
    (∀ b ∈ runBlocks BodyOp.run opBlocks (bodyStart m) ops, Within sfBodyMax b) ↔
      EachStep BodyOp.run Roomy (bodyStart m) ops :=
  runBlocks_within (I := Tracked) (fun _ op h => h.run op) (fun _ op h => opBlocks_within h op)
    (tracked_runs m []) ops

/-- A string or a block that does not fit is dropped, a number is stored all the same; so the
calls stay inside the buffer exactly when each number ends within 32 KiB of arguments. -/
theorem body_contained_iff (m : Mem) (ops : List BodyOp) :
    Contained m ops ↔ EachStep BodyOp.run Roomy (bodyStart m) ops := by
  have within := stores_within m ops
  refine ⟨fun h => within.mp h.stores, fun h => ⟨within.mpr h, ?_⟩⟩
  exact fun pre pending cb user want _ big => (tracked_runs m pre).rejects big pending cb user want

/-- A block of `n` bytes, and a number behind it. -/
def blockThenNumber (n : ℕ) : List BodyOp :=
  [.start 1 2, .arg (.bytes (List.replicate n 0) n (by simp)), .arg (.i32 7)]

theorem blockThenNumber_room {m : Mem} {n : ℕ}
    (h : EachStep BodyOp.run Roomy (bodyStart m) (blockThenNumber n)) : 5 + n + 5 ≤ sfBodyMax := by
  have room := h.2.2.1 trivial
  have taken : ((List.replicate n (0 : UInt8)).take (n : ℤ).toNat).length = n := by simp
  change 0 + (5 + ((List.replicate n (0 : UInt8)).take (n : ℤ).toNat).length) + 5 ≤ sfBodyMax at room
  rw [taken] at room
  omega

/-- The block fills the buffer, and the number is stored behind it. -/
theorem number_overflows : ¬ ∀ (m : Mem) (ops : List BodyOp), Contained m ops := by
  intro all
  have within := stores_within (fun _ => 0) (blockThenNumber 32763)
  have room := blockThenNumber_room (within.mp (all (fun _ => 0) (blockThenNumber 32763)).stores)
  exact absurd room (by decide)

end Cerco.SfBodyBounds
