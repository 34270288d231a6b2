import Cerco.PrintedDigits
import Mathlib.Data.List.Induction

set_option autoImplicit false

/-!
# The growable buffer

`sb_grow` doubles the capacity until the text and its NUL fit; all six writers go
through it. The buffer is a block of its own, of which offsets are counted from 0.
-/
namespace Cerco.StringBuffer
open Cerco.ByteMemory Cerco.CString Cerco.ClientDigits Cerco.PrintedDigits
open Cerco.Response (decimal)

/-- What the machine decides: the block that the `k`-th call of `realloc` returns for a size (with
whatever lies behind the bytes that are kept), and what `tmp` of `sb_putu` holds at first. -/
structure Machine where
  realloc : ℕ → ℕ → Option Mem
  tmp : Mem

/-- `count` bytes from `start` on, while the block had `cap` bytes. -/
structure Store where
  start : ℕ
  count : ℕ
  cap : ℕ
deriving DecidableEq

/-- A `cerco_sb`, with the calls of `realloc` and the stores so far. -/
structure Sb where
  buf : Option Mem
  len : ℕ
  cap : ℕ
  oom : Bool
  calls : ℕ
  log : List Store

def sbInit : Sb := ⟨none, 0, 0, false, 0, []⟩

/-- `while (cap < target) cap *= 2;`, for so many tests; after 64 rounds the capacity is 0. -/
def doubleLoop : ℕ → ℕ → ℕ → Option ℕ
  | 0, _, _ => none
  | tests + 1, cap, target => if cap < target then doubleLoop tests (cap * 2 % 2 ^ 64) target else some cap

section
variable (mach : Machine)

/-- `realloc(b->buf, cap)` -/
def Sb.moved (b : Sb) (cap : ℕ) : Option Mem :=
  (mach.realloc b.calls cap).map fun fresh x =>
    if x < min b.cap cap then (b.buf.getD fresh) x else fresh x

/-- `sb_grow`; `none` if its loop does not end. -/
def sbGrow (b : Sb) (need : ℕ) : Option (Bool × Sb) :=
  let target := (b.len + need) % 2 ^ 64
  if target ≤ b.cap then some (true, b)
  else
    (doubleLoop 65 (if b.cap ≠ 0 then b.cap else 256) target).map fun cap =>
      match b.moved mach cap with
      | none => (false, { b with oom := true, calls := b.calls + 1 })
      | some block => (true, { b with buf := some block, cap := cap, calls := b.calls + 1 })

/-- `text` and a NUL behind what is there. -/
def Sb.append (b : Sb) (text : Bytes) : Sb :=
  { b with
    buf := b.buf.map fun block => block.write b.len (text ++ [0])
    len := b.len + text.length
    log := b.log ++ [⟨b.len, text.length, b.cap⟩, ⟨b.len + text.length, 1, b.cap⟩] }

def sbPutn (b : Sb) (text : Bytes) : Option Sb :=
  (sbGrow mach b ((text.length + 1) % 2 ^ 64)).map fun (ok, b) => if ok then b.append text else b

/-- `s` may be NULL. -/
def sbPuts (b : Sb) (s : Option Bytes) : Option Sb :=
  match s with
  | some s => sbPutn mach b (cstr s)
  | none => some b

def sbPutc (b : Sb) (c : UInt8) : Option Sb :=
  (sbGrow mach b 2).map fun (ok, b) => if ok then b.append [c] else b

/-- `sb_printf` when the formatted text is `text`, or vsnprintf fails; it returns an int. -/
def sbPrintf (b : Sb) (text : Option Bytes) : Option Sb :=
  match text with
  | none => some b
  | some text =>
    if 2 ^ 31 ≤ text.length then some b
    else (sbGrow mach b (text.length + 1)).map fun (ok, b) => if ok then b.append text else b

def sbPutu (b : Sb) (v : UInt64) : Option Sb := (putuText mach.tmp v).bind (sbPutn mach b)

def sbPuti (b : Sb) (v : Int64) : Option Sb :=
  if v.toInt < 0 then (sbPutc mach b 45).bind fun b => (negated v.toInt).bind (sbPutu mach b)
  else sbPutu mach b v.toUInt64

def sbReserve (b : Sb) (extra : UInt64) : Option Sb := (sbGrow mach b extra.toNat).map Prod.snd

def sbReset (b : Sb) : Sb :=
  match b.buf with
  | none => { b with len := 0 }
  | some block => { b with buf := some (block.set 0 0), len := 0, log := b.log ++ [⟨0, 1, b.cap⟩] }

def sbRelease (b : Sb) : Sb := { b with buf := none, len := 0, cap := 0 }

def sbFree (b : Sb) : Sb := { sbRelease b with oom := false }

inductive SbOp
  | putn (text : Bytes)
  | puts (s : Option Bytes)
  | putc (c : UInt8)
  | printf (text : Option Bytes)
  | putu (v : UInt64)
  | puti (v : Int64)
  | reserve (extra : UInt64)
  | reset
  | release
  | free

def SbOp.step (b : Sb) : SbOp → Option Sb
  | .putn text => sbPutn mach b text
  | .puts s => sbPuts mach b s
  | .putc c => sbPutc mach b c
  | .printf text => sbPrintf mach b text
  | .putu v => sbPutu mach b v
  | .puti v => sbPuti mach b v
  | .reserve extra => sbReserve mach b extra
  | .reset => some (sbReset b)
  | .release => some (sbRelease b)
  | .free => some (sbFree b)

def runOps (b : Sb) (ops : List SbOp) : Option Sb := ops.foldlM (SbOp.step mach) b

end

def Sb.content (b : Sb) : Bytes := (b.buf.getD fun _ => 0).load 0 b.len

/-- What an operation puts, if it puts anything. -/
def SbOp.text : SbOp → Option Bytes
  | .putn text => some text
  | .puts s => s.map cstr
  | .putc c => some [c]
  | .printf text => text.filter fun text => text.length < 2 ^ 31
  | .putu v => some (decimal v.toNat)
  | .puti v => some (signedDecimal v.toInt)
  | _ => none

/-- What was put since the last reset, `none` if nothing was since the last release. -/
def SbOp.put (before : Option Bytes) (op : SbOp) : Option Bytes :=
  match op with
  | .reset => before.map fun _ => []
  | .release => none
  | .free => none
  | op =>
    match op.text with
    | none => before
    | some text => some (before.getD [] ++ text)

def putAll (ops : List SbOp) : Option Bytes := ops.foldl SbOp.put none

def SbOp.reserved : SbOp → ℕ
  | .reserve extra => extra.toNat
  | _ => 0

/-- The text stays below `2 ^ 62` bytes, and the buffer is asked for no more than `2 ^ 63`. -/
def SbOp.Small (before : Bytes) (op : SbOp) : Prop :=
  ((op.put (some before)).getD []).length < 2 ^ 62 ∧ (before.length + op.reserved) % 2 ^ 64 ≤ 2 ^ 63

instance (before : Bytes) (op : SbOp) : Decidable (op.Small before) := inferInstanceAs (Decidable (_ ∧ _))

/-- Every call of `realloc` succeeds. -/
def Serves (mach : Machine) : Prop := ∀ k n, (mach.realloc k n).isSome = true

/-- The buffer behind operations that put `put`. -/
structure Kept (b : Sb) (put : Option Bytes) : Prop where
  content : b.content = put.getD []
  room : put.isSome = true → b.len < b.cap
  terminated : put.isSome = true → ∃ block, b.buf = some block ∧ block b.len = 0
  inside : ∀ w ∈ b.log, w.start + w.count ≤ w.cap

theorem doubleLoop_none {tests cap target : ℕ} :
    doubleLoop tests cap target = none ↔ ∀ i < tests, (fun c => c * 2 % 2 ^ 64)^[i] cap < target := by
  induction tests generalizing cap with
  | zero => exact iff_of_true rfl fun i hi => absurd hi (Nat.not_lt_zero i)
  | succ tests ih =>
    rw [doubleLoop]
    by_cases more : cap < target
    · rw [if_pos more, ih]
      constructor
      · rintro rest (_ | i) hi
        · exact more
        · exact rest i (Nat.lt_of_succ_lt_succ hi)
      · exact fun all i hi => all (i + 1) (Nat.succ_lt_succ hi)
    · rw [if_neg more]
      exact iff_of_false nofun fun all => more (all 0 (Nat.succ_pos tests))

theorem doubled_value (cap i : ℕ) : (fun c => c * 2 % 2 ^ 64)^[i + 1] cap = cap * 2 ^ (i + 1) % 2 ^ 64 := by
  induction i with
  | zero => rfl
  | succ i ih =>
    rw [Function.iterate_succ_apply', ih, Nat.mod_mul_mod, Nat.pow_succ 2 (i + 1), Nat.mul_assoc]

theorem doubleLoop_never {cap target : ℕ} (h : doubleLoop 65 cap target = none) (tests : ℕ) :
    doubleLoop tests cap target = none := by
  have all := doubleLoop_none.mp h
  refine doubleLoop_none.mpr fun i _ => ?_
  by_cases few : i < 65
  · exact all i few
  · obtain ⟨j, rfl⟩ : ∃ j, i = 64 + j + 1 := ⟨i - 65, by omega⟩
    have zero : cap * 2 ^ (64 + j + 1) % 2 ^ 64 = 0 := by
      rw [Nat.add_assoc, Nat.pow_add, Nat.mul_left_comm]
      exact Nat.mul_mod_right _ _
    have pos := all 64 (by decide)
    rw [doubled_value, zero]
    exact Nat.lt_of_le_of_lt (Nat.zero_le _) pos

theorem doubleLoop_ends (tests : ℕ) {j target : ℕ} (low : j ≤ 55) (enough : 55 - j < tests) (small : target ≤ 2 ^ 63) :
    ∃ k ≤ 55, doubleLoop tests (2 ^ (8 + j)) target = some (2 ^ (8 + k)) ∧ target ≤ 2 ^ (8 + k) := by
  induction tests generalizing j with
  | zero => omega
  | succ tests ih =>
    rw [doubleLoop]
    by_cases more : 2 ^ (8 + j) < target
    · have next : j < 55 := by
        by_contra last
        obtain rfl : j = 55 := by omega
        exact absurd more (by omega)
      have double : 2 ^ (8 + j) * 2 % 2 ^ 64 = 2 ^ (8 + (j + 1)) := by
        rw [← Nat.pow_succ]
        exact Nat.mod_eq_of_lt (Nat.pow_lt_pow_right (by decide) (by omega))
      rw [if_pos more, double]
      exact ih (by omega) (by omega)
    · rw [if_neg more]
      exact ⟨j, low, rfl, Nat.le_of_not_lt more⟩

/-- No block, or one of which the text leaves a byte; the stores so far were inside. -/
structure Sound (b : Sb) : Prop where
  block : b.buf = none ∧ b.len = 0 ∧ b.cap = 0 ∨
    b.buf.isSome = true ∧ b.len < b.cap ∧ ∃ k ≤ 55, b.cap = 2 ^ (8 + k)
  inside : ∀ w ∈ b.log, w.start + w.count ≤ w.cap

def Terminated (b : Sb) : Prop := ∃ block, b.buf = some block ∧ block b.len = 0

theorem Sound.len_le {b : Sb} (h : Sound b) : b.len ≤ b.cap := by
  obtain ⟨_, len, cap⟩ | ⟨_, room, _⟩ := h.block
  · omega
  · omega

structure Grown (b t : Sb) (target : ℕ) : Prop where
  sound : Sound t
  len : t.len = b.len
  content : t.content = b.content
  room : target ≤ t.cap
  terminated : Terminated b → Terminated t

section
variable {mach : Machine}

theorem sbGrow_grown (serves : Serves mach) {b : Sb} (sound : Sound b) (need : ℕ)
    (small : (b.len + need) % 2 ^ 64 ≤ 2 ^ 63) :
    ∃ t, sbGrow mach b need = some (true, t) ∧ Grown b t ((b.len + need) % 2 ^ 64) := by
  unfold sbGrow
  dsimp only
  by_cases fits : (b.len + need) % 2 ^ 64 ≤ b.cap
  · rw [if_pos fits]
    exact ⟨b, rfl, sound, rfl, rfl, fits, id⟩
  · rw [if_neg fits]
    obtain ⟨j, low, start⟩ : ∃ j ≤ 55, (if b.cap ≠ 0 then b.cap else 256) = 2 ^ (8 + j) := by
      obtain ⟨_, _, cap⟩ | ⟨_, _, k, few, cap⟩ := sound.block
      · exact ⟨0, by omega, by rw [cap]; rfl⟩
      · exact ⟨k, few, by rw [if_pos (by omega), cap]⟩
    obtain ⟨k, few, ends, room⟩ := doubleLoop_ends 65 low (by omega) small
    obtain ⟨fresh, served⟩ := Option.isSome_iff_exists.mp (serves b.calls (2 ^ (8 + k)))
    have len_le := sound.len_le
    rw [start, ends, Option.map_some, Sb.moved, served, Option.map_some]
    refine ⟨_, rfl, ⟨.inr ⟨rfl, ?_, k, few, rfl⟩, sound.inside⟩, rfl, ?_, room, ?_⟩
    · change b.len < 2 ^ (8 + k)
      omega
    · unfold Sb.content
      refine load_congr fun x _ below => ?_
      change x < 0 + b.len at below
      obtain ⟨_, len, _⟩ | ⟨some, shorter, _⟩ := sound.block
      · omega
      · obtain ⟨block, buf⟩ := Option.isSome_iff_exists.mp some
        rw [buf]
        exact if_pos (by omega)
    · rintro ⟨block, buf, nul⟩
      refine ⟨_, rfl, ?_⟩
      obtain ⟨none, _⟩ | ⟨_, shorter, _⟩ := sound.block
      · rw [none] at buf
        cases buf
      · rw [buf]
        have kept : b.len < min b.cap (2 ^ (8 + k)) := by omega
        exact (if_pos kept).trans nul

structure Puts (b t : Sb) (text : Bytes) : Prop where
  sound : Sound t
  terminated : Terminated t
  content : t.content = b.content ++ text

theorem content_length (b : Sb) : b.content.length = b.len := load_length _ _ _

theorem Puts.len {b t : Sb} {text : Bytes} (h : Puts b t text) : t.len = b.len + text.length := by
  rw [← content_length, h.content, List.length_append, content_length]

theorem Grown.append {b t : Sb} {target : ℕ} (h : Grown b t target) {text : Bytes}
    (fits : b.len + text.length + 1 ≤ target) : Puts b (t.append text) text := by
  have room := h.room
  have len := h.len
  obtain ⟨_, _, cap⟩ | ⟨some, _, k, few, cap⟩ := h.sound.block
  · omega
  · obtain ⟨block, buf⟩ := Option.isSome_iff_exists.mp some
    have written : (t.append text).buf = .some (block.write t.len (text ++ [0])) := by
      rw [Sb.append, buf]
      rfl
    refine ⟨⟨.inr ⟨by rw [written]; rfl, ?_, k, few, cap⟩, ?_⟩, ⟨_, written, ?_⟩, ?_⟩
    · change t.len + text.length < t.cap
      omega
    · intro w hw
      obtain old | new := List.mem_append.mp hw
      · exact h.sound.inside w old
      · obtain rfl | hw := List.mem_cons.mp new
        · change t.len + text.length ≤ t.cap
          omega
        · rw [List.mem_singleton.mp hw]
          change t.len + text.length + 1 ≤ t.cap
          omega
    · change block.write t.len (text ++ [0]) (t.len + text.length) = 0
      rw [write_append]
      exact if_pos rfl
    · have before := h.content
      rw [← before, Sb.content, written, Sb.content, buf]
      change (block.write t.len (text ++ [0])).load 0 (t.len + text.length) = block.load 0 t.len ++ text
      have behind := load_write_behind block 0 t.len text
      rw [Nat.zero_add] at behind
      rw [← behind, write_append]
      exact load_congr fun x _ below => write_outside _ [0] (.inl (by omega))

theorem grown_append (serves : Serves mach) {b : Sb} (sound : Sound b) (text : Bytes)
    (small : b.len + text.length + 1 ≤ 2 ^ 63) {need : ℕ} (asks : need = text.length + 1) :
    ∃ t, ((sbGrow mach b need).map fun (ok, b) => if ok then b.append text else b) = some t ∧ Puts b t text := by
  have whole : (b.len + need) % 2 ^ 64 = b.len + text.length + 1 := by
    rw [asks, ← Nat.add_assoc]
    exact Nat.mod_eq_of_lt (by omega)
  obtain ⟨t, grow, grown⟩ := sbGrow_grown serves sound need (by rw [whole]; exact small)
  rw [whole] at grown
  rw [grow]
  exact ⟨t.append text, rfl, grown.append (Nat.le_refl _)⟩

theorem sbPutn_puts (serves : Serves mach) {b : Sb} (sound : Sound b) {text : Bytes}
    (small : b.len + text.length + 1 ≤ 2 ^ 63) : ∃ t, sbPutn mach b text = some t ∧ Puts b t text :=
  grown_append serves sound text small (Nat.mod_eq_of_lt (by omega))

theorem sbPutc_puts (serves : Serves mach) {b : Sb} (sound : Sound b) {c : UInt8} (small : b.len + 2 ≤ 2 ^ 63) :
    ∃ t, sbPutc mach b c = some t ∧ Puts b t [c] :=
  grown_append serves sound [c] small rfl

theorem sbPutu_puts (serves : Serves mach) {b : Sb} (sound : Sound b) (v : UInt64) (small : b.len + 21 ≤ 2 ^ 63) :
    ∃ t, sbPutu mach b v = some t ∧ Puts b t (decimal v.toNat) := by
  have word := v.toNat_lt
  have short : (decimal v.toNat).length ≤ 20 := (decimal_length_le (by decide)).mpr (by omega)
  rw [sbPutu, putuText_decimal, Option.bind_some]
  exact sbPutn_puts serves sound (by omega)

theorem sbPuti_puts (serves : Serves mach) {b : Sb} (sound : Sound b) (v : Int64) (small : b.len + 22 ≤ 2 ^ 63) :
    ∃ t, sbPuti mach b v = some t ∧ Puts b t (signedDecimal v.toInt) := by
  unfold sbPuti signedDecimal
  by_cases neg : v.toInt < 0
  · rw [if_pos neg, if_pos neg]
    obtain ⟨t, minus, put⟩ := sbPutc_puts serves sound (c := 45) (by omega)
    have len := put.len
    rw [List.length_singleton] at len
    obtain ⟨u, flipped, value⟩ := negated_natAbs neg v.le_toInt
    obtain ⟨d, digits, rest⟩ := sbPutu_puts serves put.sound u (by omega)
    rw [minus, Option.bind_some, flipped, Option.bind_some, digits, ← value]
    refine ⟨d, rfl, rest.sound, rest.terminated, ?_⟩
    rw [rest.content, put.content, List.append_assoc]
    rfl
  · rw [if_neg neg, if_neg neg, List.nil_append]
    have value : v.toUInt64.toNat = v.toInt.natAbs := by
      have bits : v.toInt = if 2 * v.toUInt64.toNat < 2 ^ 64 then (v.toUInt64.toNat : ℤ)
          else (v.toUInt64.toNat : ℤ) - (2 ^ 64 : ℕ) := BitVec.toInt_eq_toNat_cond v.toBitVec
      have word := v.toUInt64.toNat_lt
      split at bits <;> omega
    rw [← value]
    exact sbPutu_puts serves sound _ (by omega)

theorem Sound.short {b : Sb} (h : Sound b) (object : b.cap < 2 ^ 63) : b.len < 2 ^ 62 := by
  obtain ⟨_, len, _⟩ | ⟨_, room, k, few, cap⟩ := h.block
  · omega
  · rw [cap] at object room
    have bits : 8 + k < 63 := (Nat.pow_lt_pow_iff_right (by decide)).mp object
    exact Nat.lt_of_lt_of_le room (Nat.pow_le_pow_right (by decide) (by omega))

/-- `sb_putu` and `sb_puti` append the numeral of every number to every buffer, and `cerco_i32_to_str`
writes it; none of them stores outside of its array. -/
theorem decimal_printing_exact (serves : Serves mach) {b : Sb} (sound : Sound b) (object : b.cap < 2 ^ 63) :
    (∀ v : UInt64, ∃ t, sbPutu mach b v = some t ∧ t.content = b.content ++ decimal v.toNat) ∧
      (∀ v : Int64, ∃ t, sbPuti mach b v = some t ∧ t.content = b.content ++ signedDecimal v.toInt) ∧
      ∀ (tmp m : Mem) (buf : ℕ) (v : Int32),
        cercoI32ToStr tmp m buf v =
          some (m.write buf (signedDecimal v.toInt ++ [0]), (signedDecimal v.toInt).length) ∧
        (signedDecimal v.toInt).length + 1 ≤ 12 := by
  have short := sound.short object
  refine ⟨fun v => ?_, fun v => ?_, fun tmp m buf v => ⟨cercoI32ToStr_decimal tmp m buf v, signedDecimal_length v⟩⟩
  · obtain ⟨t, done, puts⟩ := sbPutu_puts serves sound v (by omega)
    exact ⟨t, done, puts.content⟩
  · obtain ⟨t, done, puts⟩ := sbPuti_puts serves sound v (by omega)
    exact ⟨t, done, puts.content⟩

/-- A machine with bytes of 255 wherever nothing was written. -/
def staleMachine : Machine := ⟨fun _ _ => some fun _ => 255, fun _ => 255⟩

theorem staleMachine_serves : Serves staleMachine := fun _ _ => rfl

theorem extremes_printed :
    (∃ t, sbPutu staleMachine sbInit 18446744073709551615 = some t ∧ t.content = ascii "18446744073709551615") ∧
      (∃ t, sbPuti staleMachine sbInit Int64.minValue = some t ∧ t.content = ascii "-9223372036854775808") ∧
      (cercoI32ToStr (fun _ => 255) (fun _ => 0) 1024 Int32.minValue).map Prod.snd = some 11 := by
  have sound : Sound sbInit := ⟨.inl ⟨rfl, rfl, rfl⟩, nofun⟩
  obtain ⟨unsigned, signed, word⟩ := decimal_printing_exact staleMachine_serves sound (by decide)
  obtain ⟨u, printed, text⟩ := unsigned 18446744073709551615
  obtain ⟨i, negative, minus⟩ := signed Int64.minValue
  refine ⟨⟨u, printed, text.trans (by decide)⟩, ⟨i, negative, minus.trans (by decide)⟩, ?_⟩
  rw [(word _ _ _ _).1]
  decide

structure Holds (b : Sb) (put : Option Bytes) : Prop where
  sound : Sound b
  content : b.content = put.getD []
  terminated : put.isSome = true → Terminated b

theorem Puts.holds {b t : Sb} {text : Bytes} (h : Puts b t text) {put : Option Bytes} (before : Holds b put) :
    Holds t (some (put.getD [] ++ text)) :=
  ⟨h.sound, by rw [h.content, before.content]; rfl, fun _ => h.terminated⟩

theorem Holds.kept {b : Sb} {put : Option Bytes} (h : Holds b put) : Kept b put := by
  refine ⟨h.content, fun some => ?_, h.terminated, h.sound.inside⟩
  obtain ⟨block, buf, _⟩ := h.terminated some
  obtain ⟨none, _⟩ | ⟨_, room, _⟩ := h.sound.block
  · rw [buf] at none
    cases none
  · exact room

end

end Cerco.StringBuffer
