import Cerco.ClientBody

set_option autoImplicit false

/-!
# The DOM command stream

The client appends commands to `cmd_buf` and hands batches of them to the host,
which decodes them without any framing. A text is a list of Unicode scalars.
-/
namespace Cerco.DomStream
open Cerco.ByteMemory Cerco.CString Cerco.LittleEndian
open Cerco.ClientBody (putU32 putU32_eq)

def utf8 (t : List Char) : Bytes := t.flatMap String.utf8EncodeChar

def DomText : Type := { t : List Char // '\x00' ∉ t }

/-- The bytes that `strlen` counts; a NULL pointer has none. -/
def textBytes : Option DomText → Bytes
  | none => []
  | some t => cstr (utf8 t.1)

/-- What a `const char *` leads to, as far as `strlen` counts. -/
class CText (τ : Type) where
  bytes : τ → Bytes

instance : CText (Option DomText) := ⟨textBytes⟩
instance : CText Bytes := ⟨cstr⟩

def textChars (s : Option DomText) : List Char := (s.map (·.1)).getD []

inductive Field
  | u32 (v : ℕ)
  | str (t : List Char)
deriving DecidableEq

/-- What the host does with a command; the numbers are `u32`. -/
inductive Cmd
  | create (id : ℕ) (tag : List Char) (parent : ℕ)
  | setText (id : ℕ) (t : List Char)
  | setAttr (id : ℕ) (k v : List Char)
  | removeAttr (id : ℕ) (k : List Char)
  | appendChild (parent child : ℕ)
  | removeNode (id : ℕ)
  | setClass (id : ℕ) (c : List Char)
  | addClass (id : ℕ) (c : List Char)
  | removeClass (id : ℕ) (c : List Char)
  | addEvent (id : ℕ) (type : List Char) (slot : ℕ)
  | setValue (id : ℕ) (v : List Char)
  | setInnerHtml (id : ℕ) (html : List Char)
deriving DecidableEq

def cmdBufSize : ℕ := 32768
def maxEventSlots : ℕ := 512

/-- The statics of `dom.c` behind the stream; `slots` are `g_slots` up to
`g_slot_count`, and `sent` is what the host was handed. -/
structure DomSt where
  mem : Mem
  len : ℕ
  nextId : UInt32
  slots : List (ℕ × ℕ)
  sent : List Bytes

def DomSt.put (s : DomSt) (bs : Bytes) : DomSt :=
  { s with mem := s.mem.write s.len bs, len := s.len + bs.length }

def cmdBegin (s : DomSt) (op : UInt8) : DomSt := s.put [op]
def cmdPutU32 (s : DomSt) (v : ℕ) : DomSt := s.put (putU32 v)

def cmdPutStr (s : DomSt) (text : Bytes) : DomSt :=
  let s := cmdPutU32 s text.length
  if text.length ≠ 0 then s.put text else s

def domFlush (s : DomSt) : DomSt :=
  if s.len ≠ 0 then { s with sent := s.sent ++ [s.mem.load 0 s.len], len := 0 } else s

def cmdEnd (s : DomSt) : DomSt :=
  if cmdBufSize - cmdBufSize / 4 < s.len then domFlush s else s

/-- An operation, with arguments of type `τ` where the client passes a string. -/
inductive DomOp (τ : Type)
  | setText (node : UInt32) (s : τ)
  | setAttr (node : UInt32) (k v : τ)
  | removeAttr (node : UInt32) (k : τ)
  | setClass (node : UInt32) (cls : τ)
  | addClass (node : UInt32) (cls : τ)
  | removeClass (node : UInt32) (cls : τ)
  | create (tag : τ) (parent : UInt32)
  | remove (node : UInt32)
  | setValue (node : UInt32) (v : τ)
  | setInnerHtml (node : UInt32) (html : τ)
  | on (node : UInt32) (event : τ) (fn user : ℕ)
  | flush

abbrev TextOp := DomOp (Option DomText)

def textOp (s : DomSt) (op : UInt8) (node : UInt32) (text : Bytes) : DomSt :=
  cmdEnd (cmdPutStr (cmdPutU32 (cmdBegin s op) node.toNat) text)

def cercoCreate (s : DomSt) (tag : Bytes) (parent : UInt32) : DomSt :=
  let id := s.nextId
  cmdEnd (cmdPutU32 (cmdPutStr (cmdPutU32 (cmdBegin { s with nextId := id + 1 } 1) id.toNat) tag)
    parent.toNat)

def cercoOn (s : DomSt) (node : UInt32) (event : Bytes) (fn user : ℕ) : DomSt :=
  if maxEventSlots ≤ s.slots.length then s
  else
    let slot := s.slots.length
    cmdEnd (cmdPutU32 (cmdPutStr (cmdPutU32 (cmdBegin { s with slots := s.slots ++ [(fn, user)] } 10)
      node.toNat) event) slot)

def DomOp.run {τ : Type} [CText τ] (s : DomSt) : DomOp τ → DomSt
  | .setText node t => textOp s 2 node (CText.bytes t)
  | .setAttr node k v =>
    cmdEnd (cmdPutStr (cmdPutStr (cmdPutU32 (cmdBegin s 3) node.toNat) (CText.bytes k)) (CText.bytes v))
  | .removeAttr node k => textOp s 4 node (CText.bytes k)
  | .remove node => cmdEnd (cmdPutU32 (cmdBegin s 6) node.toNat)
  | .setClass node cls => textOp s 7 node (CText.bytes cls)
  | .addClass node cls => textOp s 8 node (CText.bytes cls)
  | .removeClass node cls => textOp s 9 node (CText.bytes cls)
  | .setValue node v => textOp s 11 node (CText.bytes v)
  | .setInnerHtml node html => textOp s 12 node (CText.bytes html)
  | .create tag parent => cercoCreate s (CText.bytes tag) parent
  | .on node event fn user => cercoOn s node (CText.bytes event) fn user
  | .flush => domFlush s

/-- An empty buffer, and no event slot taken. -/
def domStart (m : Mem) : DomSt := ⟨m, 0, UInt32.ofNat (1 <<< 20), [], []⟩

/-- `view.getUint32(pos, true)`; beyond the end it throws. -/
def hostU32 (b : Bytes) : Option (ℕ × Bytes) :=
  if b.length < 4 then none else some (leGet (b.take 4), b.drop 4)

/-- `str()`; `subarray` stops at the end. -/
def hostStr (dec : Bytes → List Char) (b : Bytes) : Option (List Char × Bytes) :=
  match hostU32 b with
  | none => none
  | some (len, b) => some (dec (b.take len), b.drop len)

def hostFields (dec : Bytes → List Char) : List Bool → Bytes → Option (List Field × Bytes)
  | [], b => some ([], b)
  | true :: shape, b =>
    match hostStr dec b with
    | none => none
    | some (t, b) => (hostFields dec shape b).map fun r => (.str t :: r.1, r.2)
  | false :: shape, b =>
    match hostU32 b with
    | none => none
    | some (v, b) => (hostFields dec shape b).map fun r => (.u32 v :: r.1, r.2)

/-- The calls of `u32()` and `str()` in each case, strings being `true`. -/
def hostShape : UInt8 → List Bool
  | 1 => [false, true, false]
  | 2 | 4 | 7 | 8 | 9 | 11 | 12 => [false, true]
  | 3 => [false, true, true]
  | 5 => [false, false]
  | 6 => [false]
  | 10 => [false, true, false]
  | _ => []

def hostCmd : UInt8 → List Field → Option Cmd
  | 1, [.u32 id, .str tag, .u32 parent] => some (.create id tag parent)
  | 2, [.u32 id, .str t] => some (.setText id t)
  | 3, [.u32 id, .str k, .str v] => some (.setAttr id k v)
  | 4, [.u32 id, .str k] => some (.removeAttr id k)
  | 5, [.u32 parent, .u32 child] => some (.appendChild parent child)
  | 6, [.u32 id] => some (.removeNode id)
  | 7, [.u32 id, .str c] => some (.setClass id c)
  | 8, [.u32 id, .str c] => some (.addClass id c)
  | 9, [.u32 id, .str c] => some (.removeClass id c)
  | 10, [.u32 id, .str type, .u32 slot] => some (.addEvent id type slot)
  | 11, [.u32 id, .str v] => some (.setValue id v)
  | 12, [.u32 id, .str html] => some (.setInnerHtml id html)
  | _, _ => none

/-- `processCommand` on the bytes from `pos` on: the command and what is left. -/
def processCommand (dec : Bytes → List Char) : Bytes → Option (Option Cmd × Bytes)
  | [] => none
  | op :: b => (hostFields dec (hostShape op) b).map fun r => (hostCmd op r.1, r.2)

/-- The loop of `domFlush`; a command takes at least one byte. -/
def hostFlush (dec : Bytes → List Char) : ℕ → Bytes → Option (List Cmd)
  | 0, _ => some []
  | _, [] => some []
  | n + 1, b =>
    match processCommand dec b with
    | none => none
    | some (c, rest) => (hostFlush dec n rest).map fun cs => c.toList ++ cs

def hostDecode (dec : Bytes → List Char) (sent : List Bytes) : Option (List Cmd) :=
  (sent.mapM fun b => hostFlush dec b.length b).map List.flatten

/-- The command of an operation; `cerco_on` has none when the slots are used up. -/
def opCmd (s : DomSt) : TextOp → Option Cmd
  | .setText node t => some (.setText node.toNat (textChars t))
  | .setAttr node k v => some (.setAttr node.toNat (textChars k) (textChars v))
  | .removeAttr node k => some (.removeAttr node.toNat (textChars k))
  | .setClass node cls => some (.setClass node.toNat (textChars cls))
  | .addClass node cls => some (.addClass node.toNat (textChars cls))
  | .removeClass node cls => some (.removeClass node.toNat (textChars cls))
  | .create tag parent => some (.create s.nextId.toNat (textChars tag) parent.toNat)
  | .remove node => some (.removeNode node.toNat)
  | .setValue node v => some (.setValue node.toNat (textChars v))
  | .setInnerHtml node html => some (.setInnerHtml node.toNat (textChars html))
  | .on node event _ _ =>
    if maxEventSlots ≤ s.slots.length then none
    else some (.addEvent node.toNat (textChars event) s.slots.length)
  | .flush => none

def opCmds : DomSt → List TextOp → List Cmd
  | _, [] => []
  | s, op :: ops => (opCmd s op).toList ++ opCmds (op.run s) ops

/-- Opcode and arguments, in the order of the comments in `dom.c`. -/
def Cmd.parts : Cmd → UInt8 × List Field
  | .create id tag parent => (1, [.u32 id, .str tag, .u32 parent])
  | .setText id t => (2, [.u32 id, .str t])
  | .setAttr id k v => (3, [.u32 id, .str k, .str v])
  | .removeAttr id k => (4, [.u32 id, .str k])
  | .appendChild parent child => (5, [.u32 parent, .u32 child])
  | .removeNode id => (6, [.u32 id])
  | .setClass id c => (7, [.u32 id, .str c])
  | .addClass id c => (8, [.u32 id, .str c])
  | .removeClass id c => (9, [.u32 id, .str c])
  | .addEvent id type slot => (10, [.u32 id, .str type, .u32 slot])
  | .setValue id v => (11, [.u32 id, .str v])
  | .setInnerHtml id html => (12, [.u32 id, .str html])

def Field.bytes : Field → Bytes
  | .u32 v => lePut 4 v
  | .str t => lePut 4 (utf8 t).length ++ utf8 t

def Cmd.bytes (c : Cmd) : Bytes := c.parts.1 :: c.parts.2.flatMap Field.bytes

/-- The strings of a command, each changed by `f`. -/
def Field.mapText (f : List Char → List Char) : Field → Field
  | .u32 v => .u32 v
  | .str t => .str (f t)

def Cmd.mapText (f : List Char → List Char) : Cmd → Cmd
  | .create id tag parent => .create id (f tag) parent
  | .setText id t => .setText id (f t)
  | .setAttr id k v => .setAttr id (f k) (f v)
  | .removeAttr id k => .removeAttr id (f k)
  | .appendChild parent child => .appendChild parent child
  | .removeNode id => .removeNode id
  | .setClass id c => .setClass id (f c)
  | .addClass id c => .addClass id (f c)
  | .removeClass id c => .removeClass id (f c)
  | .addEvent id type slot => .addEvent id (f type) slot
  | .setValue id v => .setValue id (f v)
  | .setInnerHtml id html => .setInnerHtml id (f html)

/-- A decoder drops a byte-order mark in front. -/
def stripBom : List Char → List Char
  | '\uFEFF' :: t => t
  | t => t

theorem utf8EncodeChar_nulFree {c : Char} (h : c ≠ '\x00') : 0 ∉ String.utf8EncodeChar c := by
  have lead : ∀ a b n : ℕ, 0 < n → a % b + n < 256 → (0 : UInt8) ≠ UInt8.ofNat (a % b + n) := by
    intro a b n pos fits e
    have size := congrArg UInt8.toNat e
    rw [UInt8.toNat_ofNat', Nat.mod_eq_of_lt fits] at size
    change 0 = _ at size
    omega
  have pos : c.val.toNat ≠ 0 := by
    intro e
    refine h (Char.ext (UInt32.toNat_inj.mp ?_))
    rw [e]
    rfl
  unfold String.utf8EncodeChar
  dsimp only
  split
  · rename_i small
    intro hm
    have size := congrArg UInt8.toNat (List.mem_singleton.mp hm)
    rw [UInt8.toNat_ofNat', Nat.mod_eq_of_lt (by omega)] at size
    exact pos size.symm
  · split
    · simp only [List.mem_cons, List.not_mem_nil, or_false, not_or]
      exact ⟨lead _ _ _ (by omega) (by omega), lead _ _ _ (by omega) (by omega)⟩
    · split
      · simp only [List.mem_cons, List.not_mem_nil, or_false, not_or]
        exact ⟨lead _ _ _ (by omega) (by omega), lead _ _ _ (by omega) (by omega),
          lead _ _ _ (by omega) (by omega)⟩
      · simp only [List.mem_cons, List.not_mem_nil, or_false, not_or]
        exact ⟨lead _ _ _ (by omega) (by omega), lead _ _ _ (by omega) (by omega),
          lead _ _ _ (by omega) (by omega), lead _ _ _ (by omega) (by omega)⟩

theorem utf8_nulFree {t : List Char} (h : '\x00' ∉ t) : 0 ∉ utf8 t := by
  intro hm
  obtain ⟨c, hc, hb⟩ := List.mem_flatMap.mp hm
  exact utf8EncodeChar_nulFree (fun e => h (e ▸ hc)) hb

theorem textBytes_eq (s : Option DomText) : textBytes s = utf8 (textChars s) := by
  cases s with
  | none => rfl
  | some t => exact cstr_of_nulFree (utf8_nulFree t.2)

theorem put_put (s : DomSt) (bs cs : Bytes) : (s.put bs).put cs = s.put (bs ++ cs) := by
  simp only [DomSt.put, write_append, List.length_append, Nat.add_assoc]

theorem cmdPutU32_eq (s : DomSt) (v : ℕ) : cmdPutU32 s v = s.put (Field.u32 v).bytes := by
  rw [cmdPutU32, putU32_eq]
  rfl

theorem cmdPutStr_eq (s : DomSt) (t : Option DomText) :
    cmdPutStr s (CText.bytes t) = s.put (Field.str (textChars t)).bytes := by
  unfold cmdPutStr
  dsimp only
  rw [cmdPutU32_eq, show CText.bytes t = utf8 (textChars t) from textBytes_eq t]
  split
  · rw [put_put]
    rfl
  · rename_i empty
    have none := List.eq_nil_of_length_eq_zero (not_not.mp empty)
    simp only [Field.bytes, none, List.length_nil, List.append_nil]

structure SameStream (s t : DomSt) : Prop where
  mem : s.mem = t.mem
  len : s.len = t.len
  sent : s.sent = t.sent

theorem textOp_eq (s : DomSt) (op : UInt8) (node : UInt32) (t : Option DomText) :
    textOp s op node (CText.bytes t) = cmdEnd (s.put (op ::
      [Field.u32 node.toNat, Field.str (textChars t)].flatMap Field.bytes)) := by
  simp only [textOp, cmdBegin, cmdPutU32_eq, cmdPutStr_eq, put_put, List.flatMap_cons,
    List.flatMap_nil, List.append_nil, List.cons_append, List.nil_append]

theorem run_some {s : DomSt} {op : TextOp} {c : Cmd} (h : opCmd s op = some c) :
    ∃ base, SameStream base s ∧ op.run s = cmdEnd (base.put c.bytes) := by
  cases op with
  | setText node t | removeAttr node t | setClass node t | addClass node t | removeClass node t
  | setValue node t | setInnerHtml node t =>
    cases h
    exact ⟨s, ⟨rfl, rfl, rfl⟩, textOp_eq s _ node t⟩
  | setAttr node k v =>
    cases h
    refine ⟨s, ⟨rfl, rfl, rfl⟩, ?_⟩
    simp only [DomOp.run, cmdBegin, cmdPutU32_eq, cmdPutStr_eq, put_put, Cmd.bytes, Cmd.parts,
      List.flatMap_cons, List.flatMap_nil, List.append_nil, List.append_assoc, List.cons_append, List.nil_append]
  | remove node =>
    cases h
    refine ⟨s, ⟨rfl, rfl, rfl⟩, ?_⟩
    simp only [DomOp.run, cmdBegin, cmdPutU32_eq, put_put, Cmd.bytes, Cmd.parts,
      List.flatMap_cons, List.flatMap_nil, List.append_nil, List.singleton_append]
  | create tag parent =>
    cases h
    refine ⟨{ s with nextId := s.nextId + 1 }, ⟨rfl, rfl, rfl⟩, ?_⟩
    simp only [DomOp.run, cercoCreate, cmdBegin, cmdPutU32_eq, cmdPutStr_eq, put_put, Cmd.bytes, Cmd.parts,
      List.flatMap_cons, List.flatMap_nil, List.append_nil, List.append_assoc, List.cons_append, List.nil_append]
  | on node event fn user =>
    simp only [opCmd] at h
    split at h
    · cases h
    · rename_i free
      cases h
      refine ⟨{ s with slots := s.slots ++ [(fn, user)] }, ⟨rfl, rfl, rfl⟩, ?_⟩
      simp only [DomOp.run, cercoOn, if_neg free, cmdBegin, cmdPutU32_eq, cmdPutStr_eq, put_put, Cmd.bytes,
        Cmd.parts, List.flatMap_cons, List.flatMap_nil, List.append_nil, List.append_assoc,
        List.cons_append, List.nil_append]
  | flush => cases h

theorem run_none {s : DomSt} {op : TextOp} (h : opCmd s op = none) :
    op.run s = s ∨ op.run s = domFlush s := by
  cases op with
  | on node event fn user =>
    simp only [opCmd] at h
    split at h
    · rename_i full
      exact .inl (if_pos full)
    · cases h
  | flush => exact .inr rfl
  | setText | setAttr | removeAttr | setClass | addClass | removeClass | create | remove | setValue
  | setInnerHtml => cases h

def Field.isStr : Field → Bool
  | .u32 _ => false
  | .str _ => true

/-- The numbers and the lengths are `u32`. -/
def Field.Sized : Field → Prop
  | .u32 v => v < 2 ^ 32
  | .str t => (utf8 t).length < 2 ^ 32

def Cmd.Sized (c : Cmd) : Prop := ∀ f ∈ c.parts.2, f.Sized

/-- What a decoder has to do with the texts that a client sends. -/
def TextDecodes (dec : Bytes → List Char) : Prop := ∀ t, dec (utf8 t) = stripBom t

theorem hostU32_lePut {v : ℕ} (h : v < 2 ^ 32) (rest : Bytes) :
    hostU32 (lePut 4 v ++ rest) = some (v, rest) := by
  have four := lePut_length 4 v
  have long : ¬ (lePut 4 v ++ rest).length < 4 := by
    rw [List.length_append, four]
    omega
  have value : leGet (lePut 4 v) = v := leGet_lePut_of_lt (by omega)
  rw [hostU32, if_neg long, List.take_left' four, List.drop_left' four, value]

theorem hostFields_bytes {dec : Bytes → List Char} (hdec : TextDecodes dec) {fs : List Field}
    (sized : ∀ f ∈ fs, f.Sized) (rest : Bytes) :
    hostFields dec (fs.map Field.isStr) (fs.flatMap Field.bytes ++ rest) =
      some (fs.map (Field.mapText stripBom), rest) := by
  induction fs with
  | nil => rfl
  | cons f fs ih =>
    have here := sized f List.mem_cons_self
    have tail := ih fun g hg => sized g (List.mem_cons_of_mem f hg)
    cases f with
    | u32 v =>
      rw [List.flatMap_cons, List.append_assoc, List.map_cons]
      change hostFields dec (false :: _) (lePut 4 v ++ _) = _
      rw [hostFields, hostU32_lePut here]
      dsimp only
      rw [tail]
      rfl
    | str t =>
      rw [List.flatMap_cons, List.append_assoc, List.map_cons]
      change hostFields dec (true :: _) ((lePut 4 (utf8 t).length ++ utf8 t) ++ _) = _
      rw [hostFields, hostStr, List.append_assoc, hostU32_lePut here]
      dsimp only
      rw [List.take_left, List.drop_left, tail, hdec]
      rfl

theorem hostShape_parts (c : Cmd) : hostShape c.parts.1 = c.parts.2.map Field.isStr := by
  cases c <;> rfl

theorem hostCmd_parts (c : Cmd) (f : List Char → List Char) :
    hostCmd c.parts.1 (c.parts.2.map (Field.mapText f)) = some (c.mapText f) := by
  cases c <;> rfl

theorem processCommand_bytes {dec : Bytes → List Char} (hdec : TextDecodes dec) {c : Cmd}
    (sized : c.Sized) (rest : Bytes) :
    processCommand dec (c.bytes ++ rest) = some (some (c.mapText stripBom), rest) := by
  rw [Cmd.bytes, List.cons_append, processCommand, hostShape_parts, hostFields_bytes hdec sized,
    Option.map_some, hostCmd_parts]

def encAll (cs : List Cmd) : Bytes := cs.flatMap Cmd.bytes

theorem hostFlush_encAll {dec : Bytes → List Char} (hdec : TextDecodes dec) {cs : List Cmd}
    (sized : ∀ c ∈ cs, c.Sized) {n : ℕ} (hn : (encAll cs).length ≤ n) :
    hostFlush dec n (encAll cs) = some (cs.map (Cmd.mapText stripBom)) := by
  induction cs generalizing n with
  | nil => cases n <;> rfl
  | cons c cs ih =>
    have shape : encAll (c :: cs) = c.bytes ++ encAll cs := rfl
    have len : c.bytes.length = (c.parts.2.flatMap Field.bytes).length + 1 := List.length_cons
    rw [shape, List.length_append] at hn
    obtain ⟨n, rfl⟩ : ∃ k, n = k + 1 := ⟨n - 1, by omega⟩
    have tail := ih (fun d hd => sized d (List.mem_cons_of_mem c hd)) (n := n) (by omega)
    have step := processCommand_bytes hdec (sized c List.mem_cons_self) (encAll cs)
    rw [shape]
    change (match processCommand dec (c.bytes ++ encAll cs) with
      | none => none
      | some (d, rest) => (hostFlush dec n rest).map fun ds => d.toList ++ ds) = _
    rw [step]
    dsimp only
    rw [tail]
    rfl

/-- What was sent is whole batches of commands, and the buffer holds the next one. -/
structure Stream (s : DomSt) (done : List (List Cmd)) (pending : List Cmd) : Prop where
  sent : s.sent = done.map encAll
  buffer : s.mem.load 0 s.len = encAll pending
  bound : s.len ≤ cmdBufSize - cmdBufSize / 4
  sized : ∀ c ∈ done.flatten ++ pending, c.Sized

theorem Stream.flush {s : DomSt} {done : List (List Cmd)} {pending : List Cmd}
    (sent : s.sent = done.map encAll) (buffer : s.mem.load 0 s.len = encAll pending)
    (sized : ∀ c ∈ done.flatten ++ pending, c.Sized) (some : s.len ≠ 0) :
    Stream (domFlush s) (done ++ [pending]) [] := by
  rw [domFlush, if_pos some]
  refine ⟨?_, rfl, Nat.zero_le _, ?_⟩
  · change s.sent ++ [s.mem.load 0 s.len] = _
    rw [sent, buffer, List.map_append]
    rfl
  · rw [List.flatten_append, List.append_nil]
    simpa using sized

theorem Stream.step {s : DomSt} {done : List (List Cmd)} {pending : List Cmd}
    (h : Stream s done pending) {op : TextOp} (sized : ∀ c, opCmd s op = some c → c.Sized) :
    ∃ done' pending', Stream (op.run s) done' pending' ∧
      done'.flatten ++ pending' = done.flatten ++ pending ++ (opCmd s op).toList := by
  cases hc : opCmd s op with
  | none =>
    rw [Option.toList_none, List.append_nil]
    obtain e | e := run_none hc
    · exact ⟨done, pending, by rwa [e], rfl⟩
    · by_cases empty : s.len = 0
      · refine ⟨done, pending, ?_, rfl⟩
        rwa [e, domFlush, if_neg (not_not.mpr empty)]
      · refine ⟨done ++ [pending], [], ?_, by simp⟩
        rw [e]
        exact Stream.flush h.sent h.buffer h.sized empty
  | some c =>
    obtain ⟨base, same, e⟩ := run_some hc
    have sent : (base.put c.bytes).sent = done.map encAll := same.sent.trans h.sent
    have buffer : (base.put c.bytes).mem.load 0 (base.put c.bytes).len = encAll (pending ++ [c]) := by
      have behind := load_write_behind s.mem 0 s.len c.bytes
      rw [Nat.zero_add, h.buffer] at behind
      change (base.mem.write base.len c.bytes).load 0 (base.len + c.bytes.length) = _
      rw [same.mem, same.len, behind]
      simp [encAll]
    have all : ∀ d ∈ done.flatten ++ (pending ++ [c]), d.Sized := by
      intro d hd
      rw [← List.append_assoc] at hd
      obtain hd | hd := List.mem_append.mp hd
      · exact h.sized d hd
      · rw [List.mem_singleton.mp hd]
        exact sized c hc
    rw [e, cmdEnd, Option.toList_some]
    split
    · rename_i full
      refine ⟨done ++ [pending ++ [c]], [], Stream.flush sent buffer all ?_, by simp⟩
      have size : cmdBufSize = 32768 := rfl
      omega
    · rename_i room
      exact ⟨done, pending ++ [c], ⟨sent, buffer, Nat.le_of_not_lt room, all⟩, by simp⟩

theorem Stream.run {s : DomSt} {done : List (List Cmd)} {pending : List Cmd}
    (h : Stream s done pending) {ops : List TextOp} (sized : ∀ c ∈ opCmds s ops, c.Sized) :
    ∃ done' pending', Stream (ops.foldl DomOp.run s) done' pending' ∧
      done'.flatten ++ pending' = done.flatten ++ pending ++ opCmds s ops := by
  induction ops generalizing s done pending with
  | nil => exact ⟨done, pending, h, by simp [opCmds]⟩
  | cons op ops ih =>
    obtain ⟨done₁, pending₁, h₁, e₁⟩ := @Stream.step _ _ _ h op fun c hc =>
      sized c (List.mem_append_left _ (by rw [hc]; exact List.mem_singleton_self c))
    obtain ⟨done₂, pending₂, h₂, e₂⟩ := ih h₁ fun c hc => sized c (List.mem_append_right _ hc)
    refine ⟨done₂, pending₂, h₂, ?_⟩
    rw [e₂, e₁, opCmds, List.append_assoc]

theorem Stream.decodes {s : DomSt} {done : List (List Cmd)} {pending : List Cmd}
    (h : Stream s done pending) {dec : Bytes → List Char} (hdec : TextDecodes dec) :
    hostDecode dec (domFlush s).sent =
      some ((done.flatten ++ pending).map (Cmd.mapText stripBom)) ∧
    ∀ b ∈ (domFlush s).sent, ∃ cs, b = encAll cs := by
  have batches : ∀ bs : List (List Cmd), (∀ c ∈ bs.flatten, c.Sized) →
      hostDecode dec (bs.map encAll) = some (bs.flatten.map (Cmd.mapText stripBom)) := by
    intro bs sized
    have each : (bs.map encAll).mapM (fun b => hostFlush dec b.length b) =
        some (bs.map fun cs => cs.map (Cmd.mapText stripBom)) := by
      induction bs with
      | nil => rfl
      | cons cs bs ih =>
        rw [List.flatten_cons] at sized
        rw [List.map_cons, List.mapM_cons,
          hostFlush_encAll hdec (fun c hc => sized c (List.mem_append_left _ hc)) (Nat.le_refl _),
          ih fun c hc => sized c (List.mem_append_right _ hc)]
        rfl
    rw [hostDecode, each, Option.map_some, List.map_flatten]
  by_cases empty : s.len = 0
  · have none : pending = [] := by
      have buffer := h.buffer
      rw [empty] at buffer
      cases pending with
      | nil => rfl
      | cons c cs => cases buffer
    rw [domFlush, if_neg (not_not.mpr empty), h.sent]
    constructor
    · rw [batches done fun c hc => h.sized c (List.mem_append_left _ hc), none, List.append_nil]
    · intro b hb
      obtain ⟨cs, _, rfl⟩ := List.mem_map.mp hb
      exact ⟨cs, rfl⟩
  · have flushed := Stream.flush h.sent h.buffer h.sized empty
    have flat : (done ++ [pending]).flatten = done.flatten ++ pending := by simp
    rw [flushed.sent]
    constructor
    · rw [batches (done ++ [pending]) (by rw [flat]; exact h.sized), flat]
    · intro b hb
      obtain ⟨cs, _, rfl⟩ := List.mem_map.mp hb
      exact ⟨cs, rfl⟩

/-- A decoder of well-formed UTF-8. -/
def textDecode (b : Bytes) : List Char :=
  if h : b.toByteArray.IsValidUTF8 then stripBom (String.ofByteArray b.toByteArray h).toList else []

theorem textDecode_decodes : TextDecodes textDecode := by
  intro t
  have valid : (utf8 t).toByteArray.IsValidUTF8 := ⟨t, rfl⟩
  rw [textDecode, dif_pos valid]
  exact congrArg stripBom (@String.toList_ofList t)

end Cerco.DomStream
