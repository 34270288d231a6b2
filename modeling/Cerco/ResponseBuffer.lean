import Cerco.HtmlEscape

set_option autoImplicit false

/-!
# The response buffer on memory

The buffer grows in the arena: a larger block is asked for and what was written is
copied. Every store of bytes is logged with the block that held the buffer then.
-/
namespace Cerco.ResponseBuffer
open Cerco.Alloc Cerco.ByteMemory Cerco.CString Cerco.HtmlEscape Cerco.Request

/-- `count` bytes from `start` on, while the buffer was the block of `cap` bytes at `base`. -/
structure Store where
  start : ℕ
  count : ℕ
  base : ℕ
  cap : ℕ
deriving DecidableEq

def Store.Inside (w : Store) : Prop := w.count = 0 ∨ w.base ≤ w.start ∧ w.start + w.count ≤ w.base + w.cap

instance (w : Store) : Decidable w.Inside := inferInstanceAs (Decidable (_ ∨ _))

/-- A `cerco_wbuf` with its arena and the memory; a NULL `data` is `none`. -/
structure BufState where
  arena : Arena
  mem : Mem
  data : Option ℕ
  len : ℕ
  cap : ℕ
  log : List Store

def wbufInitAt (a : Arena) (m : Mem) : BufState := ⟨a, m, none, 0, 0, []⟩

def BufState.base (s : BufState) : ℕ := s.data.getD 0

/-- The capacity that `wbuf_grow` asks for. -/
def newCap (s : BufState) (need : ℕ) : ℕ :=
  doubleTo 64 (if s.cap ≠ 0 then s.cap * 2 else 4096) (s.len + need)

def wbufGrowAt (s : BufState) (need : ℕ) : BufState :=
  if s.len + need ≤ s.cap then s
  else
    match arenaAlloc s.arena (newCap s need) with
    | (none, a) => { s with arena := a }
    | (some nd, a) =>
      { arena := a
        mem := s.mem.write nd (s.mem.load s.base s.len)
        data := some nd
        len := s.len
        cap := newCap s need
        log := s.log ++ [⟨nd, s.len, nd, newCap s need⟩] }

/-- The copy of `text` and `extra` behind what is there; `text` counts as written. -/
def putBytes (s : BufState) (text extra : Bytes) : BufState :=
  { s with
    mem := s.mem.write (s.base + s.len) (text ++ extra)
    len := s.len + text.length
    log := s.log ++ [⟨s.base + s.len, (text ++ extra).length, s.base, s.cap⟩] }

def wbufPutnAt (s : BufState) (text : Bytes) : BufState :=
  let s := wbufGrowAt s text.length
  if s.cap < s.len + text.length then s else putBytes s text []

/-- `wbuf_printf` when the formatted text is `text`; vsnprintf returns an int, and it stores a NUL. -/
def wbufPrintf (s : BufState) (text : Bytes) : BufState :=
  if 2 ^ 31 ≤ text.length then s
  else
    let s := wbufGrowAt s text.length
    if s.len + text.length ≤ s.cap then putBytes s text [0] else s

def wbufResetAt (s : BufState) : BufState := { s with data := none, len := 0, cap := 0 }

structure Object where
  bytes : Bytes
  small : bytes.length < 2 ^ 63

inductive BufOp
  | putn (text : Object)
  | puts (text : Object)
  | putc (c : UInt8)
  | printf (text : Object)
  | reset

def BufOp.step (s : BufState) : BufOp → BufState
  | .putn text => wbufPutnAt s text.bytes
  | .puts text => wbufPutnAt s (cstr text.bytes)
  | .putc c => wbufPutnAt s [c]
  | .printf text => wbufPrintf s text.bytes
  | .reset => wbufResetAt s

def runOps (s : BufState) (ops : List BufOp) : BufState := ops.foldl BufOp.step s

def BufState.content (s : BufState) : Bytes := s.mem.load s.base s.len

def BufOp.put (text : Bytes) : BufOp → Bytes
  | .putn t => text ++ t.bytes
  | .puts t => text ++ cstr t.bytes
  | .putc c => text ++ [c]
  | .printf t => if 2 ^ 31 ≤ t.bytes.length then text else text ++ t.bytes
  | .reset => []

def putAll (ops : List BufOp) : Bytes := ops.foldl BufOp.put []

/-- The buffer is kept throughout: after each operation the length is within the capacity and the content is
what was put, unless the arena failed; and no byte was stored outside the block of its time. -/
structure Kept (a : Arena) (m : Mem) (ops : List BufOp) : Prop where
  states : ∀ pre, pre <+: ops →
    (runOps (wbufInitAt a m) pre).len ≤ (runOps (wbufInitAt a m) pre).cap ∧
    ((runOps (wbufInitAt a m) pre).arena.Served → (runOps (wbufInitAt a m) pre).content = putAll pre)
  inside : ∀ w ∈ (runOps (wbufInitAt a m) ops).log, w.Inside

/-- The capacity for `need` more bytes, if the arena has them. -/
def capFor (s : BufState) (need : ℕ) : ℕ :=
  if s.len + need ≤ s.cap then s.cap
  else if (arenaAlloc s.arena (newCap s need)).1.isSome then newCap s need
  else s.cap

/-- A formatted text does not fill the buffer to the last byte. -/
def BufOp.Roomy (s : BufState) : BufOp → Prop
  | .printf text => text.bytes.length < 2 ^ 31 → s.len + text.bytes.length ≠ capFor s text.bytes.length
  | _ => True

/-- Each operation is, at the state it starts from. -/
def AllRoomy : BufState → List BufOp → Prop
  | _, [] => True
  | s, op :: ops => op.Roomy s ∧ AllRoomy (op.step s) ops

theorem wbufGrowAt_cases (s : BufState) (need : ℕ) :
    (s.len + need ≤ s.cap ∧ wbufGrowAt s need = s) ∨
    (s.cap < s.len + need ∧ (arenaAlloc s.arena (newCap s need)).1 = none ∧
      wbufGrowAt s need = { s with arena := (arenaAlloc s.arena (newCap s need)).2 }) ∨
    (s.cap < s.len + need ∧ ∃ nd, (arenaAlloc s.arena (newCap s need)).1 = some nd ∧
      wbufGrowAt s need = ⟨(arenaAlloc s.arena (newCap s need)).2, s.mem.write nd (s.mem.load s.base s.len),
        some nd, s.len, newCap s need, s.log ++ [⟨nd, s.len, nd, newCap s need⟩]⟩) := by
  unfold wbufGrowAt
  by_cases fits : s.len + need ≤ s.cap
  · exact .inl ⟨fits, if_pos fits⟩
  · rw [if_neg fits]
    right
    cases hm : arenaAlloc s.arena (newCap s need) with
    | mk p a =>
      cases p with
      | none => exact .inl ⟨Nat.lt_of_not_le fits, rfl, rfl⟩
      | some nd => exact .inr ⟨Nat.lt_of_not_le fits, nd, rfl, rfl⟩

theorem doubleTo_le (k cap need : ℕ) : cap ≤ doubleTo k cap need := by
  induction k generalizing cap with
  | zero => exact Nat.le_refl cap
  | succ k ih =>
    rw [doubleTo]
    split
    · exact Nat.le_trans (by omega) (ih (cap * 2))
    · exact Nat.le_refl cap

theorem newCap_cap (s : BufState) (need : ℕ) : s.cap ≤ newCap s need := by
  refine Nat.le_trans ?_ (doubleTo_le 64 _ _)
  split <;> omega

structure Grown (s t : BufState) (need : ℕ) : Prop where
  len : t.len = s.len
  cap : t.cap = capFor s need
  fits : t.len ≤ t.cap
  content : t.content = s.content
  log : ∃ new, t.log = s.log ++ new ∧ ∀ w ∈ new, w.Inside

theorem wbufGrowAt_grown {s : BufState} (fits : s.len ≤ s.cap) (need : ℕ) : Grown s (wbufGrowAt s need) need := by
  obtain ⟨room, e⟩ | ⟨full, failed, e⟩ | ⟨full, nd, found, e⟩ := wbufGrowAt_cases s need <;> rw [e]
  · exact ⟨rfl, (if_pos room).symm, fits, rfl, [], (List.append_nil _).symm, fun w hw => (by cases hw)⟩
  · refine ⟨rfl, ?_, fits, rfl, [], (List.append_nil _).symm, fun w hw => (by cases hw)⟩
    rw [capFor, if_neg (by omega), failed]
    rfl
  · refine ⟨rfl, ?_, Nat.le_trans fits (newCap_cap s need), ?_, _, rfl, fun w hw => ?_⟩
    · rw [capFor, if_neg (by omega), found]
      rfl
    · have copied := load_write s.mem nd (s.mem.load s.base s.len)
      rw [load_length] at copied
      exact copied
    · rw [List.mem_singleton.mp hw]
      exact .inr ⟨Nat.le_refl nd, Nat.add_le_add_left (Nat.le_trans fits (newCap_cap s need)) nd⟩

/-- One operation keeps the length within the capacity, and its stores are inside exactly when it is roomy. -/
structure Stepped (s t : BufState) (roomy : Prop) : Prop where
  fits : t.len ≤ t.cap
  log : ∃ new, t.log = s.log ++ new ∧ ((∀ w ∈ new, w.Inside) ↔ roomy)

theorem Grown.stepped {s t : BufState} {need : ℕ} (h : Grown s t need) {text extra : Bytes} {roomy : Prop}
    (cut : t.len + text.length ≤ t.cap)
    (last : t.len + (text ++ extra).length ≤ t.cap ∨ (text ++ extra).length = 0 ↔ roomy) :
    Stepped s (putBytes t text extra) roomy := by
  obtain ⟨new, log, inside⟩ := h.log
  refine ⟨cut, new ++ [⟨t.base + t.len, (text ++ extra).length, t.base, t.cap⟩], ?_, ?_⟩
  · rw [putBytes, log, List.append_assoc]
  · rw [← last]
    constructor
    · intro all
      obtain none | ⟨_, most⟩ := all _ (List.mem_append_right _ List.mem_cons_self)
      · exact .inr none
      · exact .inl (by dsimp only at most; omega)
    · intro room w hw
      obtain hw | hw := List.mem_append.mp hw
      · exact inside w hw
      · rw [List.mem_singleton.mp hw]
        obtain room | none := room
        · exact .inr ⟨Nat.le_add_right _ _, by dsimp only; omega⟩
        · exact .inl none

theorem Grown.dropped {s t : BufState} {need : ℕ} (h : Grown s t need) {roomy : Prop} (yes : roomy) :
    Stepped s t roomy := by
  obtain ⟨new, log, inside⟩ := h.log
  exact ⟨h.fits, new, log, iff_of_true inside yes⟩

theorem wbufPutnAt_stepped {s : BufState} (fits : s.len ≤ s.cap) (text : Bytes) :
    Stepped s (wbufPutnAt s text) True := by
  have grown := wbufGrowAt_grown fits text.length
  unfold wbufPutnAt
  dsimp only
  split
  · exact grown.dropped trivial
  · rename_i room
    refine grown.stepped (by omega) (iff_true_intro (.inl ?_))
    rw [List.append_nil]
    omega

theorem wbufPrintf_stepped {s : BufState} (fits : s.len ≤ s.cap) (text : Object) :
    Stepped s (wbufPrintf s text.bytes) ((BufOp.printf text).Roomy s) := by
  have grown := wbufGrowAt_grown fits text.bytes.length
  unfold wbufPrintf
  split
  · rename_i long
    exact ⟨fits, [], (List.append_nil _).symm,
      iff_of_true (fun w hw => (by cases hw)) fun short => absurd long (by omega)⟩
  · rename_i short
    have len := grown.len
    have cap := grown.cap
    dsimp only
    split
    · rename_i room
      refine grown.stepped room ?_
      change _ ↔ (text.bytes.length < 2 ^ 31 → s.len + text.bytes.length ≠ capFor s text.bytes.length)
      rw [List.length_append, ← cap, ← len]
      simp only [List.length_singleton]
      omega
    · rename_i full
      refine grown.dropped fun _ => ?_
      rw [← cap, ← len]
      omega

theorem step_stepped {s : BufState} (fits : s.len ≤ s.cap) (op : BufOp) : Stepped s (op.step s) (op.Roomy s) := by
  cases op with
  | putn text => exact wbufPutnAt_stepped fits text.bytes
  | puts text => exact wbufPutnAt_stepped fits (cstr text.bytes)
  | putc c => exact wbufPutnAt_stepped fits [c]
  | printf text => exact wbufPrintf_stepped fits text
  | reset => exact ⟨Nat.le_refl 0, [], (List.append_nil _).symm, iff_of_true (fun w hw => (by cases hw)) trivial⟩

theorem runOps_fits {s : BufState} (fits : s.len ≤ s.cap) (ops : List BufOp) :
    (runOps s ops).len ≤ (runOps s ops).cap := by
  induction ops generalizing s with
  | nil => exact fits
  | cons op ops ih => exact ih (step_stepped fits op).fits

theorem runOps_inside {s : BufState} (fits : s.len ≤ s.cap) (ops : List BufOp) :
    (∀ w ∈ (runOps s ops).log, w.Inside) ↔ (∀ w ∈ s.log, w.Inside) ∧ AllRoomy s ops := by
  induction ops generalizing s with
  | nil => exact ⟨fun h => ⟨h, trivial⟩, fun h => h.1⟩
  | cons op ops ih =>
    have step := step_stepped fits op
    obtain ⟨new, log, roomy⟩ := step.log
    change (∀ w ∈ (runOps (op.step s) ops).log, w.Inside) ↔ _ ∧ op.Roomy s ∧ AllRoomy (op.step s) ops
    rw [ih step.fits, log, ← roomy, ← and_assoc]
    simp only [List.forall_mem_append]

def BufState.abs (s : BufState) : Wbuf := ⟨s.content, s.cap⟩

theorem content_length (s : BufState) : s.content.length = s.len := load_length _ _ _

theorem putBytes_content (s : BufState) (text extra : Bytes) :
    (putBytes s text extra).content = s.content ++ text := by
  have first : (s.mem.write (s.base + s.len) (text ++ extra)).load s.base (s.len + text.length) =
      (s.mem.write (s.base + s.len) text).load s.base (s.len + text.length) := by
    refine load_congr fun x _ hi => ?_
    rw [write_append, write_outside _ extra (.inl (by omega))]
  exact first.trans (load_write_behind s.mem s.base s.len text)

theorem wbufGrowAt_abs (s : BufState) (need : ℕ) :
    wbufGrow s.arena s.abs need = ((wbufGrowAt s need).arena, (wbufGrowAt s need).abs) := by
  have cap : doubleTo 64 (if s.abs.cap ≠ 0 then s.abs.cap * 2 else 4096) (s.abs.data.length + need) =
      newCap s need := by
    rw [newCap, BufState.abs, content_length]
  unfold wbufGrow
  dsimp only
  rw [cap]
  obtain ⟨room, e⟩ | ⟨full, failed, e⟩ | ⟨full, nd, found, e⟩ := wbufGrowAt_cases s need <;> rw [e]
  · rw [if_pos]
    rw [BufState.abs, content_length]
    exact room
  · rw [if_neg (by rw [BufState.abs, content_length]; exact Nat.not_le.mpr full)]
    cases hm : arenaAlloc s.arena (newCap s need) with
    | mk p a =>
      rw [hm] at failed
      obtain rfl : p = none := failed
      rfl
  · rw [if_neg (by rw [BufState.abs, content_length]; exact Nat.not_le.mpr full)]
    cases hm : arenaAlloc s.arena (newCap s need) with
    | mk p a =>
      rw [hm] at found
      obtain rfl : p = some nd := found
      have copied := load_write s.mem nd (s.mem.load s.base s.len)
      rw [load_length] at copied
      exact congrArg (fun d => (a, (⟨d, newCap s need⟩ : Wbuf))) copied.symm

/-- The same for the two ways to write; the terminator of the second is not part of the content. -/
theorem put_abs (s : BufState) (text extra : Bytes) :
    wbufPutn s.arena s.abs text =
      if (wbufGrowAt s text.length).cap < (wbufGrowAt s text.length).len + text.length then
        ((wbufGrowAt s text.length).arena, (wbufGrowAt s text.length).abs)
      else ((putBytes (wbufGrowAt s text.length) text extra).arena,
        (putBytes (wbufGrowAt s text.length) text extra).abs) := by
  have longer := putBytes_content (wbufGrowAt s text.length) text extra
  unfold wbufPutn
  rw [wbufGrowAt_abs]
  generalize wbufGrowAt s text.length = t at longer
  dsimp only
  have same : t.abs.data.length = t.len := content_length t
  have cap : t.abs.cap = t.cap := rfl
  rw [same, cap]
  by_cases full : t.cap < t.len + text.length
  · rw [if_pos full, if_pos full]
  · rw [if_neg full, if_neg full]
    exact congrArg (fun d => (t.arena, (⟨d, t.cap⟩ : Wbuf))) longer.symm

/-- Putting `text`, or nothing when it is too long for vsnprintf or the operation is a reset. -/
theorem step_abs (s : BufState) (op : BufOp) :
    (op.step s).arena = s.arena ∧ (op.step s).content = op.put s.content ∨
    ∃ text : Bytes, text.length < 2 ^ 63 ∧ op.put s.content = s.content ++ text ∧
      ((op.step s).arena, (op.step s).abs) = wbufPutn s.arena s.abs text := by
  have plain : ∀ text, ((wbufPutnAt s text).arena, (wbufPutnAt s text).abs) = wbufPutn s.arena s.abs text := by
    intro text
    rw [put_abs s text []]
    unfold wbufPutnAt
    dsimp only
    split <;> rfl
  cases op with
  | putn text => exact .inr ⟨text.bytes, text.small, rfl, plain text.bytes⟩
  | puts text =>
    have short : (cstr text.bytes).length ≤ text.bytes.length := (List.takeWhile_prefix _).length_le
    exact .inr ⟨cstr text.bytes, Nat.lt_of_le_of_lt short text.small, rfl, plain _⟩
  | putc c => exact .inr ⟨[c], by rw [List.length_singleton]; decide, rfl, plain [c]⟩
  | printf text =>
    by_cases long : 2 ^ 31 ≤ text.bytes.length
    · exact .inl ⟨congrArg BufState.arena (if_pos long),
        (congrArg BufState.content (if_pos long)).trans (if_pos long).symm⟩
    · refine .inr ⟨text.bytes, text.small, if_neg long, ?_⟩
      rw [put_abs s text.bytes [0]]
      change ((wbufPrintf s text.bytes).arena, (wbufPrintf s text.bytes).abs) = _
      unfold wbufPrintf
      rw [if_neg long]
      dsimp only
      by_cases full : (wbufGrowAt s text.bytes.length).cap < (wbufGrowAt s text.bytes.length).len + text.bytes.length
      · rw [if_pos full, if_neg (Nat.not_le.mpr full)]
      · rw [if_neg full, if_pos (Nat.le_of_not_lt full)]
  | reset => exact .inl ⟨rfl, rfl⟩

/-- No chunk is larger than an object can be. -/
def Sized (a : Arena) : Prop := ∀ c ∈ a.chunks, c.cap < 2 ^ 63

instance (a : Arena) : Decidable (Sized a) := inferInstanceAs (Decidable (∀ c ∈ a.chunks, c.cap < 2 ^ 63))

theorem growCap_le (a : Arena) (need : ℕ) : growCap a need ≤ chunkMax := by
  have clamp : ∀ cap, (if chunkMax < cap then chunkMax else cap) ≤ chunkMax := by
    intro cap
    split
    · exact Nat.le_refl _
    · exact Nat.le_of_not_lt ‹_›
  exact clamp _

theorem arenaGrow_sized {a : Arena} (sized : Sized a) (need : ℕ) : Sized (arenaGrow a need).2 := by
  obtain ⟨_, e⟩ | ⟨_, _, e⟩ | ⟨_, p, _, e⟩ := arenaGrow_outcomes a need <;> rw [e]
  · exact sized
  · exact sized
  · intro c hc
    obtain rfl | hc := List.mem_cons.mp hc
    · exact Nat.lt_of_le_of_lt (growCap_le a need) (by decide)
    · exact sized c hc

theorem allocLoop_sized (size align rounds : ℕ) {a : Arena} (sized : Sized a) :
    Sized (allocLoop size align rounds a).2 ∧
      ((allocLoop size align rounds a).1.isSome = true → size < 2 ^ 63) := by
  induction rounds generalizing a with
  | zero => exact ⟨sized, fun h => (by cases h)⟩
  | succ rounds ih =>
    rw [allocLoop]
    cases hc : a.chunks with
    | nil => exact ⟨fun c h => (by cases h), fun h => (by cases h)⟩
    | cons c cs =>
      have here := sized c (by rw [hc]; exact List.mem_cons_self)
      have others : ∀ d ∈ cs, d.cap < 2 ^ 63 := fun d hd => sized d (by rw [hc]; exact List.mem_cons_of_mem c hd)
      dsimp only
      split
      · rename_i fits
        refine ⟨fun d hd => ?_, fun _ => by omega⟩
        obtain rfl | hd := List.mem_cons.mp hd
        · exact here
        · exact others d hd
      · have grown := arenaGrow_sized sized size
        split
        · rename_i h
          rw [h] at grown
          exact ih grown
        · rename_i h
          rw [h] at grown
          exact ⟨fun d hd => grown d hd, fun h => (by cases h)⟩

theorem arenaAlloc_sized {a : Arena} (sized : Sized a) (size : ℕ) :
    Sized (arenaAlloc a size).2 ∧ ((arenaAlloc a size).1.isSome = true → size < 2 ^ 63) := by
  unfold arenaAlloc arenaAllocAligned
  dsimp only
  have noted : Sized { a with calls := a.calls ++ [callOf a (if size = 0 then 1 else size) 8] } := sized
  have bound : ∀ b : Bool, (b = true → (if size = 0 then 1 else size) < 2 ^ 63) → b = true → size < 2 ^ 63 := by
    intro b h hb
    have := h hb
    split at this <;> omega
  split
  · have grown := arenaGrow_sized noted (if size = 0 then 1 else size)
    split
    · rename_i h
      rw [h] at grown
      have run := allocLoop_sized (if size = 0 then 1 else size) 8
        (allocRounds { a with calls := a.calls ++ [callOf a (if size = 0 then 1 else size) 8] }) grown
      exact ⟨run.1, bound _ run.2⟩
    · rename_i h
      rw [h] at grown
      exact ⟨fun d hd => grown d hd, fun h => (by cases h)⟩
  · have run := allocLoop_sized (if size = 0 then 1 else size) 8
      (allocRounds { a with calls := a.calls ++ [callOf a (if size = 0 then 1 else size) 8] }) noted
    exact ⟨run.1, bound _ run.2⟩

structure Small (s : BufState) : Prop where
  arena : Sized s.arena
  cap : s.cap < 2 ^ 63

theorem wbufGrowAt_small {s : BufState} (h : Small s) (need : ℕ) : Small (wbufGrowAt s need) := by
  have alloc := arenaAlloc_sized h.arena (newCap s need)
  obtain ⟨_, e⟩ | ⟨_, _, e⟩ | ⟨_, nd, found, e⟩ := wbufGrowAt_cases s need <;> rw [e]
  · exact h
  · exact ⟨alloc.1, h.cap⟩
  · exact ⟨alloc.1, alloc.2 (by rw [found]; rfl)⟩

theorem step_small {s : BufState} (h : Small s) (op : BufOp) : Small (op.step s) := by
  have plain : ∀ text, Small (wbufPutnAt s text) := by
    intro text
    have grown := wbufGrowAt_small h text.length
    unfold wbufPutnAt
    dsimp only
    split
    · exact grown
    · exact ⟨grown.arena, grown.cap⟩
  cases op with
  | putn text => exact plain text.bytes
  | puts text => exact plain (cstr text.bytes)
  | putc c => exact plain [c]
  | printf text =>
    have grown := wbufGrowAt_small h text.bytes.length
    change Small (wbufPrintf s text.bytes)
    unfold wbufPrintf
    split
    · exact h
    · dsimp only
      split
      · exact ⟨grown.arena, grown.cap⟩
      · exact grown
  | reset => exact ⟨h.arena, Nat.two_pow_pos 63⟩

theorem step_content {s : BufState} (fits : s.len ≤ s.cap) (small : Small s) (op : BufOp)
    (served : (op.step s).arena.Served) : s.arena.Served ∧ (op.step s).content = op.put s.content := by
  obtain ⟨arena, content⟩ | ⟨text, short, put, run⟩ := step_abs s op
  · rw [arena] at served
    exact ⟨served, content⟩
  · have writes := wbufPutn_writes text
    obtain ⟨arena, after⟩ := Prod.mk.inj run
    rw [arena] at served
    have room : s.abs.data.length + text.length < 2 ^ 64 := by
      have len : s.abs.data.length = s.len := content_length s
      have := small.cap
      omega
    refine ⟨writes.served _ _ served, ?_⟩
    rw [put]
    exact (congrArg Wbuf.data after).trans (writes.data _ _ served room)

theorem runOps_content {s : BufState} (fits : s.len ≤ s.cap) (small : Small s) (ops : List BufOp)
    (served : (runOps s ops).arena.Served) : s.arena.Served ∧ (runOps s ops).content = ops.foldl BufOp.put s.content := by
  induction ops generalizing s with
  | nil => exact ⟨served, rfl⟩
  | cons op ops ih =>
    obtain ⟨before, rest⟩ := ih (step_stepped fits op).fits (step_small small op) served
    obtain ⟨first, put⟩ := step_content fits small op before
    refine ⟨first, rest.trans ?_⟩
    rw [put]
    rfl

/-- When a sequence of operations keeps to its buffer. -/
theorem response_buffer (a : Arena) (m : Mem) (ops : List BufOp) (sized : Sized a) :
    Kept a m ops ↔ AllRoomy (wbufInitAt a m) ops := by
  have fits : (wbufInitAt a m).len ≤ (wbufInitAt a m).cap := Nat.le_refl 0
  have small : Small (wbufInitAt a m) := ⟨sized, Nat.two_pow_pos 63⟩
  constructor
  · intro kept
    exact ((runOps_inside fits ops).mp kept.inside).2
  · intro roomy
    refine ⟨fun pre _ => ⟨runOps_fits fits pre, fun served => (runOps_content fits small pre served).2⟩, ?_⟩
    exact (runOps_inside fits ops).mpr ⟨fun w hw => (by cases hw), roomy⟩

def pageChunk : Arena := arenaInit (Arena.zero fun _ _ => some 4096) 16384 0

def greeting : List BufOp := [.puts ⟨ascii "hello ", by decide⟩, .printf ⟨ascii "ada", by decide⟩]

theorem response_buffer_greeting : Kept pageChunk (fun _ => 0) greeting :=
  (response_buffer pageChunk (fun _ => 0) greeting (by decide)).mpr
    ⟨trivial, fun _ => by decide, trivial⟩

def pageText : Object := ⟨List.replicate 4096 120, by rw [List.length_replicate]; decide⟩

/-- A formatted text as long as the first block: its NUL is stored behind the block. -/
theorem exact_fit_overruns : ¬ Kept pageChunk (fun _ => 0) [.printf pageText] := by
  intro kept
  have roomy := ((runOps_inside (s := wbufInitAt pageChunk fun _ => 0) (Nat.le_refl 0) _).mp kept.inside).2.1
  have len : pageText.bytes.length = 4096 := List.length_replicate
  refine roomy (by rw [len]; decide) ?_
  rw [len]
  decide

end Cerco.ResponseBuffer
