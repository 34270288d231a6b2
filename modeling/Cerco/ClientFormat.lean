import Cerco.ByteMemory
import Cerco.ClientDigits

set_option autoImplicit false

/-!
# The formatter of the client

`cerco_format` builds a text in a buffer of fixed size and cuts it where the buffer
ends. The format and its string arguments lie outside of the buffer.
-/
namespace Cerco.ClientFormat
open Cerco.ByteMemory Cerco.CString Cerco.ClientDigits

inductive FormatArg
  | str (s : Option Bytes)
  | int (v : Int32)
deriving DecidableEq

/-- `if (!s) s = "(null)"` -/
def strText (s : Option Bytes) : Bytes := s.getD (ascii "(null)")

structure Out where
  mem : Mem
  o : ℕ

section
variable (buf cap : ℕ)

/-- `buf[o++] = c` -/
def Out.put (t : Out) (c : UInt8) : Out := ⟨t.mem.set (buf + t.o) c, t.o + 1⟩

/-- The loop of `%s`; the one of `%d` is the same over `tmp`. -/
def Out.putText (t : Out) : Bytes → Out
  | [] => t
  | c :: s => if t.o + 1 < cap then (t.put buf c).putText s else t

/-- The branches behind a `%`; an argument of another type is undefined behaviour. -/
def verb (x : UInt8) (args : List FormatArg) (t : Out) : Option (List FormatArg × Out) :=
  if x = 115 then
    match args with
    | .str s :: args => some (args, t.putText buf cap (strText s))
    | _ => none
  else if x = 100 ∨ x = 105 then
    match args with
    | .int v :: args => some (args, t.putText buf cap (i32ToStr v.toInt))
    | _ => none
  else if x = 37 then some (args, t.put buf 37)
  else if t.o + 1 + 1 < cap then some (args, (t.put buf 37).put buf x)
  else some (args, t.put buf 37)

def formatLoop : Bytes → List FormatArg → Out → Option Out
  | [], _, t => some t
  | c :: p, args, t =>
    if t.o + 1 < cap then
      if c ≠ 37 then formatLoop p args (t.put buf c)
      else
        match p with
        | [] => some t
        | x :: p =>
          match verb buf cap x args t with
          | none => none
          | some (args, t) => formatLoop p args t
    else some t

end

/-- `cerco_format`: the memory it leaves and what it returns. -/
def cercoFormat (m : Mem) (buf : ℕ) (cap : ℤ) (fmt : Bytes) (args : List FormatArg) : Option (Mem × ℕ) :=
  if buf = 0 ∨ cap ≤ 0 then some (m, 0)
  else (formatLoop buf cap.toNat fmt args ⟨m, 0⟩).map fun t => (t.mem.set (buf + t.o) 0, t.o)

/-- The whole text of a format with arguments that match its verbs. -/
inductive Expands : Bytes → List FormatArg → Bytes → Prop
  | done (args : List FormatArg) : Expands [] args []
  | literal {c : UInt8} {p text : Bytes} {args : List FormatArg} (plain : c ≠ 37)
      (rest : Expands p args text) : Expands (c :: p) args (c :: text)
  | str {p text : Bytes} {args : List FormatArg} (s : Option Bytes)
      (rest : Expands p args text) : Expands (37 :: 115 :: p) (.str s :: args) (strText s ++ text)
  | int {x : UInt8} {p text : Bytes} {args : List FormatArg} (v : Int32) (known : x = 100 ∨ x = 105)
      (rest : Expands p args text) :
      Expands (37 :: x :: p) (.int v :: args) (signedDecimal v.toInt ++ text)
  | percent {p text : Bytes} {args : List FormatArg}
      (rest : Expands p args text) : Expands (37 :: 37 :: p) args (37 :: text)
  | unknown {x : UInt8} {p text : Bytes} {args : List FormatArg} (other : x ∉ ascii "sdi%")
      (rest : Expands p args text) : Expands (37 :: x :: p) args (37 :: x :: text)
  | trailing (args : List FormatArg) : Expands [37] args []

section
variable (buf cap : ℕ)

def Out.emit (t : Out) (s : Bytes) : Out :=
  ⟨t.mem.write (buf + t.o) (s.take (cap - 1 - t.o)), t.o + (s.take (cap - 1 - t.o)).length⟩

theorem emit_nil (t : Out) : t.emit buf cap [] = t := by
  rw [Out.emit, List.take_nil]
  rfl

theorem emit_full {t : Out} (full : ¬ t.o + 1 < cap) (s : Bytes) : t.emit buf cap s = t := by
  have none : cap - 1 - t.o = 0 := by omega
  rw [Out.emit, none, List.take_zero]
  rfl

theorem emit_append (t : Out) (s u : Bytes) :
    (t.emit buf cap s).emit buf cap u = t.emit buf cap (s ++ u) := by
  have left : cap - 1 - (t.o + (s.take (cap - 1 - t.o)).length) = cap - 1 - t.o - s.length := by
    rw [List.length_take]
    omega
  unfold Out.emit
  rw [left, List.take_append, write_append, List.length_append, Nat.add_assoc, Nat.add_assoc]

theorem put_emit {t : Out} (room : t.o + 1 < cap) (c : UInt8) : t.put buf c = t.emit buf cap [c] := by
  have one : cap - 1 - t.o = (cap - 1 - t.o - 1) + 1 := by omega
  rw [Out.emit, one, List.take_succ_cons, List.take_nil]
  rfl

theorem putText_emit (t : Out) (s : Bytes) : t.putText buf cap s = t.emit buf cap s := by
  induction s generalizing t with
  | nil => exact (emit_nil buf cap t).symm
  | cons c s ih =>
    rw [Out.putText]
    by_cases room : t.o + 1 < cap
    · rw [if_pos room, ih, put_emit buf cap room, emit_append, List.singleton_append]
    · rw [if_neg room, emit_full buf cap room]

theorem verb_str (t : Out) (s : Option Bytes) (args : List FormatArg) :
    verb buf cap 115 (.str s :: args) t = some (args, t.emit buf cap (strText s)) := by
  rw [verb, if_pos rfl, putText_emit]

theorem verb_int (t : Out) (v : Int32) {x : UInt8} (known : x = 100 ∨ x = 105) (args : List FormatArg) :
    verb buf cap x (.int v :: args) t = some (args, t.emit buf cap (signedDecimal v.toInt)) := by
  have other : x ≠ 115 := by
    rintro rfl
    revert known
    decide
  rw [verb, if_neg other, if_pos known, putText_emit, i32ToStr_decimal v.le_toInt v.toInt_lt]

theorem verb_percent {t : Out} (room : t.o + 1 < cap) (args : List FormatArg) :
    verb buf cap 37 args t = some (args, t.emit buf cap [37]) := by
  rw [← put_emit buf cap room]
  rfl

theorem verb_unknown {t : Out} (room : t.o + 1 < cap) {x : UInt8} (other : x ∉ ascii "sdi%")
    (args : List FormatArg) : verb buf cap x args t = some (args, t.emit buf cap [37, x]) := by
  have differs : ∀ y ∈ ascii "sdi%", x ≠ y := fun y hy e => other (e ▸ hy)
  have number : ¬ (x = 100 ∨ x = 105) := by
    rintro (e | e)
    · exact differs 100 (by decide) e
    · exact differs 105 (by decide) e
  unfold verb
  rw [if_neg (differs 115 (by decide)), if_neg number, if_neg (differs 37 (by decide)), ← List.singleton_append, ← emit_append, ← put_emit buf cap room]
  by_cases more : t.o + 1 + 1 < cap
  · rw [if_pos more]
    exact congrArg (fun u => some (args, u)) (put_emit buf cap more x)
  · rw [if_neg more]
    exact congrArg (fun u => some (args, u)) (emit_full buf cap more [x]).symm

theorem formatLoop_full {t : Out} (full : ¬ t.o + 1 < cap) (fmt : Bytes) (args : List FormatArg) :
    formatLoop buf cap fmt args t = some t := by
  cases fmt with
  | nil => rfl
  | cons c p =>
    rw [formatLoop.eq_def]
    exact if_neg full

theorem formatLoop_literal {t : Out} (room : t.o + 1 < cap) {c : UInt8} (plain : c ≠ 37) (p : Bytes)
    (args : List FormatArg) : formatLoop buf cap (c :: p) args t = formatLoop buf cap p args (t.put buf c) := by
  rw [formatLoop.eq_def]
  exact (if_pos room).trans (if_pos plain)

theorem formatLoop_verb {t u : Out} (room : t.o + 1 < cap) {x : UInt8} {args left : List FormatArg}
    (h : verb buf cap x args t = some (left, u)) (p : Bytes) :
    formatLoop buf cap (37 :: x :: p) args t = formatLoop buf cap p left u := by
  rw [formatLoop, if_pos room, if_neg (not_not.mpr rfl)]
  simp only [h]

theorem emit_or_full {t : Out} {fmt text : Bytes} {args : List FormatArg}
    (h : t.o + 1 < cap → formatLoop buf cap fmt args t = some (t.emit buf cap text)) :
    formatLoop buf cap fmt args t = some (t.emit buf cap text) := by
  by_cases room : t.o + 1 < cap
  · exact h room
  · rw [formatLoop_full buf cap room, emit_full buf cap room]

theorem formatLoop_emit {fmt text : Bytes} {args : List FormatArg} (h : Expands fmt args text) (t : Out) :
    formatLoop buf cap fmt args t = some (t.emit buf cap text) := by
  refine emit_or_full buf cap fun room => ?_
  induction h generalizing t with
  | done args =>
    rw [emit_nil]
    rfl
  | literal plain rest ih =>
    rw [formatLoop_literal buf cap room plain, put_emit buf cap room]
    exact (emit_or_full buf cap (ih _)).trans (congrArg some (emit_append buf cap t [_] _))
  | str s rest ih =>
    rw [formatLoop_verb buf cap room (verb_str buf cap t s _)]
    exact (emit_or_full buf cap (ih _)).trans (congrArg some (emit_append buf cap t _ _))
  | int v known rest ih =>
    rw [formatLoop_verb buf cap room (verb_int buf cap t v known _)]
    exact (emit_or_full buf cap (ih _)).trans (congrArg some (emit_append buf cap t _ _))
  | percent rest ih =>
    rw [formatLoop_verb buf cap room (verb_percent buf cap room _)]
    exact (emit_or_full buf cap (ih _)).trans (congrArg some (emit_append buf cap t [37] _))
  | unknown other rest ih =>
    rw [formatLoop_verb buf cap room (verb_unknown buf cap room other _)]
    exact (emit_or_full buf cap (ih _)).trans (congrArg some (emit_append buf cap t [37, _] _))
  | trailing args =>
    rw [emit_nil]
    exact (if_pos room).trans (if_neg (not_not.mpr rfl))

end

/-- The buffer gets the longest front of the expansion that leaves room for the NUL, whose length
is returned, and nothing outside of the buffer changes. -/
theorem format_prefix {fmt text : Bytes} {args : List FormatArg} (h : Expands fmt args text) {buf : ℕ}
    (hbuf : buf ≠ 0) {cap : ℤ} (pos : 0 < cap) (m : Mem) :
    ∃ cut after, cut = text.take (cap.toNat - 1) ∧
      cercoFormat m buf cap fmt args = some (after, cut.length) ∧
      after.load buf (cut.length + 1) = cut ++ [0] ∧ cut.length < cap ∧
      ∀ a, a < buf ∨ buf + cut.length + 1 ≤ a → after a = m a := by
  have run : cercoFormat m buf cap fmt args =
      some (m.write buf (text.take (cap.toNat - 1) ++ [0]), (text.take (cap.toNat - 1)).length) := by
    have none : ¬ (buf = 0 ∨ cap ≤ 0) := by omega
    rw [cercoFormat, if_neg none, formatLoop_emit buf cap.toNat h, write_append]
    simp only [Out.emit, Option.map_some, Nat.zero_add, Nat.add_zero, Nat.sub_zero]
    rfl
  have len : (text.take (cap.toNat - 1) ++ [0]).length = (text.take (cap.toNat - 1)).length + 1 := by
    rw [List.length_append, List.length_singleton]
  refine ⟨_, _, rfl, run, ?_, ?_, ?_⟩
  · rw [← len]
    exact load_write m buf _
  · rw [List.length_take]
    omega
  · intro a outside
    exact write_outside m _ (by rw [len]; omega)

def labelArgs : List FormatArg := [.str (some (ascii "hp")), .int (-35)]

theorem label_expands : Expands (ascii "%s: %d%%") labelArgs (ascii "hp: -35%") := by
  have text : ascii "hp: -35%" =
      strText (some (ascii "hp")) ++ (58 :: 32 :: (signedDecimal (-35 : Int32).toInt ++ (37 :: []))) := by
    decide +kernel
  rw [text]
  refine .str _ (.literal (by decide) (.literal (by decide) (.int (-35) (.inl rfl) (.percent (.done [])))))

/-- The number is cut behind its sign. -/
theorem label_prefix : ∃ cut after, cut = (ascii "hp: -35%").take ((6 : ℤ).toNat - 1) ∧
    cercoFormat (fun _ => 0) 1024 6 (ascii "%s: %d%%") labelArgs = some (after, cut.length) ∧
    after.load 1024 (cut.length + 1) = cut ++ [0] ∧ cut.length < (6 : ℤ) ∧
    ∀ a, a < 1024 ∨ 1024 + cut.length + 1 ≤ a → after a = (fun _ => 0 : Mem) a :=
  format_prefix label_expands (by decide) (by decide) _

end Cerco.ClientFormat
