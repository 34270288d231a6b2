import Cerco.BlockRuns
import Cerco.ClientDigits
import Cerco.DomStream

set_option autoImplicit false

/-!
# Signals and what is bound to them

A set runs the subscribers of a signal. Each of them appends a command to the
buffer, and the host is handed the buffer when it is three quarters full and at
the end of the call.
-/
namespace Cerco.SignalBindings
open Cerco.BlockRuns Cerco.ByteMemory Cerco.CString Cerco.ClientDigits Cerco.LittleEndian
open Cerco.DomStream (Cmd DomSt Field TextDecodes cmdBegin cmdBufSize cmdPutU32 cmdPutU32_eq domStart hostCmd
  hostFields hostShape hostStr hostU32_lePut processCommand put_put stripBom textDecode
  textDecode_decodes utf8)
open Cerco.ServerFunctions (CStr)

/-- `TextDecoder` and the elements in `registry`, which these calls leave alone. -/
structure Browser where
  dec : Bytes → List Char
  reg : ℕ → Option ℕ

/-- Text and classes of each element. An element inside one that is given a text is detached,
and keeps its own. -/
structure Host where
  text : ℕ → List Char
  classes : ℕ → List (List Char)

def Host.setText (h : Host) (e : ℕ) (t : List Char) : Host :=
  { h with text := fun x => if x = e then t else h.text x }

def Host.setClasses (h : Host) (e : ℕ) (cs : List (List Char)) : Host :=
  { h with classes := fun x => if x = e then cs else h.classes x }

def asciiWhitespace : List Char := ['\t', '\n', '\x0c', '\r', ' ']

/-- `classList` throws on any other text. -/
def classToken (c : List Char) : Bool := !c.isEmpty && c.all fun x => !asciiWhitespace.contains x

def Host.addClass (h : Host) (e : ℕ) (c : List Char) : Host :=
  h.setClasses e (if c ∈ h.classes e then h.classes e else h.classes e ++ [c])

def Host.removeClass (h : Host) (e : ℕ) (c : List Char) : Host :=
  h.setClasses e ((h.classes e).filter (· ≠ c))

/-- The cases of `processCommand` for the commands of bindings, which send no others; without a
result the host throws. -/
def hostApply (w : Browser) (h : Host) : Option Cmd → Option Host
  | some (.setText id t) =>
    match w.reg id with
    | none => some h
    | some e => some (h.setText e t)
  | some (.addClass id c) =>
    match w.reg id with
    | none => some h
    | some e => if classToken c then some (h.addClass e c) else none
  | some (.removeClass id c) =>
    match w.reg id with
    | none => some h
    | some e => if classToken c then some (h.removeClass e c) else none
  | _ => some h

/-- `domFlush`, command by command: how far it came, and whether it returned. -/
def hostBatch (w : Browser) : ℕ → Bytes → Host → Host × Bool
  | 0, _, h => (h, true)
  | _, [], h => (h, true)
  | n + 1, b, h =>
    match processCommand w.dec b with
    | none => (h, false)
    | some (c, rest) =>
      match hostApply w h c with
      | none => (h, false)
      | some h => hostBatch w n rest h

/-- `cerco_sub`, with the function that it calls. -/
inductive Sub
  | text (node : UInt32)
  | cls (node : UInt32) (name : CStr)

/-- The newest subscriber is first. -/
structure Sig where
  value : Int32
  subs : List Sub

structure BindSt where
  dom : DomSt
  sigs : List Sig
  host : Host

abbrev Call := Except BindSt BindSt

/-- `host_dom_flush` and `cmd_len = 0` behind it. -/
def handOver (w : Browser) (s : BindSt) : Call :=
  let batch := s.dom.mem.load 0 s.dom.len
  let sent := s.dom.sent ++ [batch]
  match hostBatch w batch.length batch s.host with
  | (host, true) => .ok { s with dom := { s.dom with sent, len := 0 }, host }
  | (host, false) => .error { s with dom := { s.dom with sent }, host }

def cercoDomFlush (w : Browser) (s : BindSt) : Call := if s.dom.len ≠ 0 then handOver w s else .ok s

def cmdEnd (w : Browser) (s : BindSt) : Call :=
  if cmdBufSize - cmdBufSize / 4 < s.dom.len then handOver w s else .ok s

/-- `cmd_put_str` on the bytes of any C string. -/
def cmdPutStr (s : DomSt) (b : Bytes) : DomSt :=
  let s := cmdPutU32 s b.length
  if b.length ≠ 0 then s.put b else s

/-- `cerco_set_text`, `cerco_add_class` and `cerco_remove_class` -/
def nodeOp (w : Browser) (s : BindSt) (op : UInt8) (node : UInt32) (b : Bytes) : Call :=
  cmdEnd w { s with dom := cmdPutStr (cmdPutU32 (cmdBegin s.dom op) node.toNat) b }

def bindTextRun (w : Browser) (v : Int32) (node : UInt32) (s : BindSt) : Call :=
  nodeOp w s 2 node (i32ToStr v.toInt)

def bindClassRun (w : Browser) (v : Int32) (node : UInt32) (name : CStr) (s : BindSt) : Call :=
  if v ≠ 0 then nodeOp w s 8 node name.1 else nodeOp w s 9 node name.1

def Sub.run (w : Browser) (v : Int32) (s : BindSt) : Sub → Call
  | .text node => bindTextRun w v node s
  | .cls node name => bindClassRun w v node name s

def cercoSignalNew (s : BindSt) (v : Int32) : BindSt := { s with sigs := s.sigs ++ [⟨v, []⟩] }

/-- `sub->next = s->subs; s->subs = sub` -/
def BindSt.link (s : BindSt) (i : ℕ) (g : Sig) (sub : Sub) : BindSt :=
  { s with sigs := s.sigs.set i { g with subs := sub :: g.subs } }

def cercoBindText (w : Browser) (s : BindSt) (node : UInt32) (i : ℕ) : Call :=
  match s.sigs[i]? with
  | none => .ok s
  | some g => bindTextRun w g.value node (s.link i g (.text node)) >>= cercoDomFlush w

def cercoBindClass (w : Browser) (s : BindSt) (node : UInt32) (i : ℕ) (name : CStr) : Call :=
  match s.sigs[i]? with
  | none => .ok s
  | some g => bindClassRun w g.value node name (s.link i g (.cls node name)) >>= cercoDomFlush w

def cercoSignalSet (w : Browser) (s : BindSt) (i : ℕ) (v : Int32) : Call :=
  match s.sigs[i]? with
  | none => .ok s
  | some g =>
    if g.value = v then .ok s
    else
      g.subs.foldlM (Sub.run w v) { s with sigs := s.sigs.set i { g with value := v } } >>= cercoDomFlush w

inductive BindOp
  | signalNew (v : Int32)
  | bindText (node : UInt32) (i : ℕ)
  | bindClass (node : UInt32) (i : ℕ) (name : CStr)
  | signalSet (i : ℕ) (v : Int32)

def BindOp.call (w : Browser) (s : BindSt) : BindOp → Call
  | .signalNew v => .ok (cercoSignalNew s v)
  | .bindText node i => cercoBindText w s node i
  | .bindClass node i name => cercoBindClass w s node i name
  | .signalSet i v => cercoSignalSet w s i v

def BindOp.run (w : Browser) (s : BindSt) (op : BindOp) : BindSt :=
  match op.call w s with
  | .ok t => t
  | .error t => t

/-- No signal yet, and nothing in the buffer. -/
def bindStart (m : Mem) (h : Host) : BindSt := ⟨domStart m, [], h⟩

def decText (v : ℤ) : List Char := (if v < 0 then ['-'] else []) ++ Nat.toDigits 10 v.natAbs

theorem utf8_ascii {t : List Char} (h : ∀ c ∈ t, c.toNat < 128) :
    utf8 t = t.map fun c => UInt8.ofNat c.toNat := by
  induction t with
  | nil => rfl
  | cons c t ih =>
    have small : c.val.toNat ≤ 127 := Nat.le_of_lt_succ (h c List.mem_cons_self)
    have one : String.utf8EncodeChar c = [UInt8.ofNat c.toNat] := by
      unfold String.utf8EncodeChar
      exact if_pos small
    change String.utf8EncodeChar c ++ utf8 t = _
    rw [one, ih fun d hd => h d (List.mem_cons_of_mem c hd)]
    rfl

theorem stripBom_ascii {t : List Char} (h : ∀ c ∈ t, c.toNat < 128) : stripBom t = t := by
  unfold stripBom
  split
  · exact absurd (h _ List.mem_cons_self) (by decide)
  · rfl

theorem decText_ascii (v : ℤ) : ∀ c ∈ decText v, c.toNat < 128 := by
  intro c hc
  obtain sign | digit := List.mem_append.mp hc
  · split at sign
    · rw [List.mem_singleton.mp sign]
      decide
    · cases sign
  · have digit := Nat.isDigit_of_mem_toDigits (by decide) (by decide) digit
    simp only [Char.isDigit, Bool.and_eq_true, decide_eq_true_eq] at digit
    exact Nat.lt_of_le_of_lt (UInt32.le_iff_toNat_le.mp digit.2) (by decide)

theorem dec_i32ToStr {w : Browser} (hdec : TextDecodes w.dec) (v : Int32) :
    w.dec (i32ToStr v.toInt) = decText v.toInt := by
  have ascii := decText_ascii v.toInt
  have bytes : i32ToStr v.toInt = utf8 (decText v.toInt) := by
    rw [i32ToStr_decimal v.le_toInt v.toInt_lt, utf8_ascii ascii, signedDecimal, decText, List.map_append]
    refine congrArg (· ++ _) ?_
    split <;> rfl
  rw [bytes, hdec, stripBom_ascii ascii]

inductive Target
  | text (e : ℕ)
  | cls (e : ℕ) (c : List Char)
deriving DecidableEq

def target (w : Browser) : Sub → Option Target
  | .text node => (w.reg node.toNat).map .text
  | .cls node name => (w.reg node.toNat).map fun e => .cls e (w.dec name.1)

/-- A text is the value in decimal, and a class is there when the value is not zero. -/
def Shows (h : Host) (v : Int32) : Target → Prop
  | .text e => h.text e = decText v.toInt
  | .cls e c => c ∈ h.classes e ↔ v ≠ 0

def Host.show (h : Host) (v : Int32) : Target → Host
  | .text e => h.setText e (decText v.toInt)
  | .cls e c => if v ≠ 0 then h.addClass e c else h.removeClass e c

theorem mem_setClasses (h : Host) (e : ℕ) (cs : List (List Char)) (e' : ℕ) (c : List Char) :
    c ∈ (h.setClasses e cs).classes e' ↔ if e' = e then c ∈ cs else c ∈ h.classes e' := by
  change c ∈ (if e' = e then cs else h.classes e') ↔ _
  split <;> exact Iff.rfl

theorem mem_addClass (h : Host) (e : ℕ) (c : List Char) (e' : ℕ) (c' : List Char) :
    c' ∈ (h.addClass e c).classes e' ↔ c' ∈ h.classes e' ∨ e' = e ∧ c' = c := by
  rw [Host.addClass, mem_setClasses]
  by_cases he : e' = e
  · rw [if_pos he, he]
    split
    · rename_i present
      exact ⟨.inl, fun has => has.elim id fun same => same.2 ▸ present⟩
    · rw [List.mem_append, List.mem_singleton]
      simp
  · rw [if_neg he]
    exact ⟨.inl, fun has => has.resolve_right fun same => he same.1⟩

theorem mem_removeClass (h : Host) (e : ℕ) (c : List Char) (e' : ℕ) (c' : List Char) :
    c' ∈ (h.removeClass e c).classes e' ↔ c' ∈ h.classes e' ∧ ¬ (e' = e ∧ c' = c) := by
  rw [Host.removeClass, mem_setClasses]
  by_cases he : e' = e
  · rw [if_pos he, he, List.mem_filter]
    simp
  · rw [if_neg he]
    exact ⟨fun has => ⟨has, fun same => he same.1⟩, fun has => has.1⟩

theorem show_same (h : Host) (v : Int32) (t : Target) : Shows (h.show v t) v t := by
  cases t with
  | text e => exact if_pos rfl
  | cls e c =>
    change c ∈ (if v ≠ 0 then h.addClass e c else h.removeClass e c).classes e ↔ v ≠ 0
    by_cases on : v ≠ 0
    · rw [if_pos on, mem_addClass]
      exact iff_of_true (.inr ⟨rfl, rfl⟩) on
    · rw [if_neg on, mem_removeClass]
      exact iff_of_false (fun has => has.2 ⟨rfl, rfl⟩) on

theorem show_other (h : Host) (v : Int32) {t t' : Target} (other : t' ≠ t) (v' : Int32) :
    Shows (h.show v t) v' t' ↔ Shows h v' t' := by
  cases t with
  | text e =>
    cases t' with
    | text e' =>
      have apart : e' ≠ e := fun same => other (congrArg Target.text same)
      change (if e' = e then _ else h.text e') = _ ↔ _
      rw [if_neg apart]
      exact Iff.rfl
    | cls e' c' => exact Iff.rfl
  | cls e c =>
    cases t' with
    | text e' =>
      change (if v ≠ 0 then h.addClass e c else h.removeClass e c).text e' = _ ↔ _
      split <;> exact Iff.rfl
    | cls e' c' =>
      have apart : ¬ (e' = e ∧ c' = c) := fun same => other (by rw [same.1, same.2])
      have kept : c' ∈ (if v ≠ 0 then h.addClass e c else h.removeClass e c).classes e' ↔ c' ∈ h.classes e' := by
        split
        · rw [mem_addClass]
          exact or_iff_left apart
        · rw [mem_removeClass]
          exact and_iff_left apart
      exact iff_congr kept Iff.rfl

def effect (w : Browser) (h : Host) (v : Int32) (sub : Sub) : Host := (target w sub).elim h (h.show v)

theorem effect_same {w : Browser} {h : Host} {v : Int32} {sub : Sub} {t : Target} (ht : target w sub = some t) :
    Shows (effect w h v sub) v t := by
  rw [effect, ht]
  exact show_same h v t

theorem effect_other {w : Browser} {h : Host} {v v' : Int32} {sub : Sub} {t : Target}
    (ht : target w sub ≠ some t) : Shows (effect w h v sub) v' t ↔ Shows h v' t := by
  rw [effect]
  cases hs : target w sub with
  | none => exact Iff.rfl
  | some u => exact show_other h v (fun same => ht (by rw [hs, same])) v'

theorem effects_same {w : Browser} {v : Int32} {subs : List Sub} {h : Host} {t : Target}
    (ht : Shows h v t ∨ ∃ sub ∈ subs, target w sub = some t) :
    Shows (subs.foldl (fun h sub => effect w h v sub) h) v t := by
  induction subs generalizing h with
  | nil =>
    obtain shown | ⟨sub, none, _⟩ := ht
    · exact shown
    · cases none
  | cons sub subs ih =>
    refine ih ?_
    by_cases here : target w sub = some t
    · exact .inl (effect_same here)
    · obtain shown | ⟨other, hother, e⟩ := ht
      · exact .inl ((effect_other here).mpr shown)
      · obtain rfl | rest := List.mem_cons.mp hother
        · exact absurd e here
        · exact .inr ⟨other, rest, e⟩

theorem effects_other {w : Browser} {v v' : Int32} {subs : List Sub} {h : Host} {t : Target}
    (ht : ∀ sub ∈ subs, target w sub ≠ some t) :
    Shows (subs.foldl (fun h sub => effect w h v sub) h) v' t ↔ Shows h v' t := by
  induction subs generalizing h with
  | nil => exact Iff.rfl
  | cons sub subs ih =>
    rw [List.foldl_cons, ih fun other hother => ht other (List.mem_cons_of_mem sub hother)]
    exact effect_other (ht sub List.mem_cons_self)

def frame (op : UInt8) (node : UInt32) (b : Bytes) : Bytes :=
  op :: (lePut 4 node.toNat ++ (lePut 4 b.length ++ b))

def Sub.bytes (v : Int32) : Sub → Bytes
  | .text node => frame 2 node (i32ToStr v.toInt)
  | .cls node name => frame (if v ≠ 0 then 8 else 9) node name.1

/-- A class name that fits, and that `classList` takes. -/
def Sub.Good (w : Browser) : Sub → Prop
  | .text _ => True
  | .cls node name => name.1.length ≤ 4096 ∧ ∀ e, w.reg node.toNat = some e → classToken (w.dec name.1) = true

theorem bytes_pos (v : Int32) (sub : Sub) : 0 < (sub.bytes v).length := by
  cases sub <;> exact Nat.succ_pos _

theorem cmdPutStr_eq (s : DomSt) (b : Bytes) : cmdPutStr s b = s.put (lePut 4 b.length ++ b) := by
  unfold cmdPutStr
  dsimp only
  rw [cmdPutU32_eq]
  split
  · exact put_put s _ b
  · rename_i empty
    rw [List.eq_nil_of_length_eq_zero (not_not.mp empty), List.append_nil]
    rfl

theorem nodeOp_eq (w : Browser) (s : BindSt) (op : UInt8) (node : UInt32) (b : Bytes) :
    nodeOp w s op node b = cmdEnd w { s with dom := s.dom.put (frame op node b) } := by
  rw [nodeOp, cmdBegin, cmdPutU32_eq, cmdPutStr_eq, put_put, put_put]
  rfl

theorem run_eq (w : Browser) (v : Int32) (s : BindSt) (sub : Sub) :
    sub.run w v s = cmdEnd w { s with dom := s.dom.put (sub.bytes v) } := by
  cases sub with
  | text node => exact nodeOp_eq w s 2 node _
  | cls node name =>
    change bindClassRun w v node name s = cmdEnd w { s with dom := s.dom.put (frame _ node name.1) }
    unfold bindClassRun
    split <;> exact nodeOp_eq w s _ node name.1

theorem processCommand_frame (dec : Bytes → List Char) {op : UInt8} (shape : hostShape op = [false, true])
    (node : UInt32) {b : Bytes} (short : b.length < 2 ^ 32) (rest : Bytes) :
    processCommand dec (frame op node b ++ rest) =
      some (hostCmd op [.u32 node.toNat, .str (dec b)], rest) := by
  rw [frame, List.cons_append, processCommand, shape, List.append_assoc, hostFields, hostU32_lePut node.toNat_lt]
  dsimp only
  rw [hostFields, hostStr, List.append_assoc, hostU32_lePut short]
  dsimp only
  rw [List.take_left, List.drop_left]
  rfl

theorem i32ToStr_short (v : Int32) : (i32ToStr v.toInt).length < 2 ^ 32 := by
  have lo := v.le_toInt
  have hi := v.toInt_lt
  have digits := @decimal_length_word v.toInt.natAbs (by omega)
  rw [i32ToStr_decimal lo hi, signedDecimal, List.length_append]
  split
  · change 1 + _ < _
    omega
  · change 0 + _ < _
    omega

theorem host_sub {w : Browser} (hdec : TextDecodes w.dec) (h : Host) (v : Int32) {sub : Sub} (good : sub.Good w)
    (rest : Bytes) : ∃ c, processCommand w.dec (sub.bytes v ++ rest) = some (c, rest) ∧
      hostApply w h c = some (effect w h v sub) := by
  cases sub with
  | text node =>
    refine ⟨_, processCommand_frame w.dec rfl node (i32ToStr_short v) rest, ?_⟩
    rw [dec_i32ToStr hdec]
    change hostApply w h (some (.setText node.toNat (decText v.toInt))) = _
    simp only [hostApply, effect, target]
    cases w.reg node.toNat <;> rfl
  | cls node name =>
    obtain ⟨short, token⟩ := good
    have small : name.1.length < 2 ^ 32 := by omega
    unfold effect target Sub.bytes
    by_cases on : v ≠ 0
    · rw [if_pos on]
      refine ⟨_, processCommand_frame w.dec rfl node small rest, ?_⟩
      change hostApply w h (some (.addClass node.toNat (w.dec name.1))) = _
      simp only [hostApply]
      cases hr : w.reg node.toNat with
      | none => rfl
      | some e =>
        dsimp only
        rw [if_pos (token e hr)]
        exact congrArg some (if_pos on).symm
    · rw [if_neg on]
      refine ⟨_, processCommand_frame w.dec rfl node small rest, ?_⟩
      change hostApply w h (some (.removeClass node.toNat (w.dec name.1))) = _
      simp only [hostApply]
      cases hr : w.reg node.toNat with
      | none => rfl
      | some e =>
        dsimp only
        rw [if_pos (token e hr)]
        exact congrArg some (if_neg on).symm

abbrev Jobs := List (Int32 × Sub)

def Jobs.bytes (jobs : Jobs) : Bytes := jobs.flatMap fun j => j.2.bytes j.1

def Jobs.effect (w : Browser) (jobs : Jobs) (h : Host) : Host :=
  jobs.foldl (fun h j => SignalBindings.effect w h j.1 j.2) h

theorem hostBatch_jobs {w : Browser} (hdec : TextDecodes w.dec) {jobs : Jobs} (good : ∀ j ∈ jobs, j.2.Good w)
    (h : Host) {n : ℕ} (hn : jobs.bytes.length ≤ n) : hostBatch w n jobs.bytes h = (jobs.effect w h, true) := by
  induction jobs generalizing h n with
  | nil => cases n <;> rfl
  | cons j jobs ih =>
    have shape : Jobs.bytes (j :: jobs) = j.2.bytes j.1 ++ Jobs.bytes jobs := rfl
    have some := bytes_pos j.1 j.2
    obtain ⟨c, read, done⟩ := host_sub hdec h j.1 (good j List.mem_cons_self) (Jobs.bytes jobs)
    rw [shape, List.length_append] at hn
    obtain ⟨n, rfl⟩ : ∃ k, n = k + 1 := ⟨n - 1, by omega⟩
    have tail := ih (fun k hk => good k (List.mem_cons_of_mem j hk)) (SignalBindings.effect w h j.1 j.2)
      (n := n) (by omega)
    rw [shape]
    cases hb : j.2.bytes j.1 ++ Jobs.bytes jobs with
    | nil =>
      have len := congrArg List.length hb
      rw [List.length_append, List.length_nil] at len
      omega
    | cons b bs =>
      rw [hb] at read
      rw [hostBatch, read]
      · dsimp only
        rw [done]
        exact tail
      · exact List.cons_ne_nil b bs

structure Settles (w : Browser) (s : BindSt) (sigs : List Sig) (H : Host) : Prop where
  sigs : s.sigs = sigs
  queue : ∃ jobs : Jobs, s.dom.mem.load 0 s.dom.len = jobs.bytes ∧ (∀ j ∈ jobs, j.2.Good w) ∧
    jobs.effect w s.host = H

structure Settled (s : BindSt) (sigs : List Sig) (H : Host) : Prop where
  sigs : s.sigs = sigs
  host : s.host = H
  flushed : s.dom.len = 0

theorem Settled.settles {s : BindSt} {sigs : List Sig} {H : Host} (w : Browser) (h : Settled s sigs H) :
    Settles w s sigs H :=
  ⟨h.sigs, [], by rw [h.flushed]; rfl, List.forall_mem_nil _, h.host⟩

variable {w : Browser} {s : BindSt} {sigs : List Sig} {H : Host}

theorem Settles.handOver (h : Settles w s sigs H) (hdec : TextDecodes w.dec) :
    ∃ t, handOver w s = .ok t ∧ Settled t sigs H := by
  obtain ⟨jobs, buffer, good, eventual⟩ := h.queue
  unfold SignalBindings.handOver
  dsimp only
  rw [buffer, hostBatch_jobs hdec good s.host (Nat.le_refl _)]
  exact ⟨_, rfl, h.sigs, eventual, rfl⟩

theorem Settles.flush (h : Settles w s sigs H) (hdec : TextDecodes w.dec) :
    ∃ t, cercoDomFlush w s = .ok t ∧ Settled t sigs H := by
  unfold cercoDomFlush
  split
  · exact h.handOver hdec
  · rename_i empty
    have none : s.dom.len = 0 := not_not.mp empty
    obtain ⟨jobs, buffer, _, eventual⟩ := h.queue
    rw [none] at buffer
    have idle : jobs = [] := by
      cases jobs with
      | nil => rfl
      | cons j jobs =>
        have some := bytes_pos j.1 j.2
        have len : 0 = (j.2.bytes j.1 ++ Jobs.bytes jobs).length := congrArg List.length buffer
        rw [List.length_append] at len
        omega
    rw [idle] at eventual
    exact ⟨s, rfl, h.sigs, eventual, none⟩

theorem Settles.run (h : Settles w s sigs H) (hdec : TextDecodes w.dec) (v : Int32) {sub : Sub}
    (good : sub.Good w) : ∃ t, sub.run w v s = .ok t ∧ Settles w t sigs (effect w H v sub) := by
  obtain ⟨jobs, buffer, all, eventual⟩ := h.queue
  have put : Settles w { s with dom := s.dom.put (sub.bytes v) } sigs (effect w H v sub) := by
    refine ⟨h.sigs, jobs ++ [(v, sub)], ?_, ?_, ?_⟩
    · have behind := load_write_behind s.dom.mem 0 s.dom.len (sub.bytes v)
      rw [Nat.zero_add, buffer] at behind
      refine behind.trans ?_
      simp [Jobs.bytes]
    · intro j hj
      obtain old | new := List.mem_append.mp hj
      · exact all j old
      · rw [List.mem_singleton.mp new]
        exact good
    · change Jobs.effect w (jobs ++ [(v, sub)]) s.host = _
      rw [Jobs.effect, List.foldl_append, ← eventual]
      rfl
  rw [run_eq, cmdEnd]
  -- the early flush of `cmd_end`, or the command stays in the buffer
  split
  · obtain ⟨t, e, settled⟩ := put.handOver hdec
    exact ⟨t, e, settled.settles w⟩
  · exact ⟨_, rfl, put⟩

theorem Settles.runAll (h : Settles w s sigs H) (hdec : TextDecodes w.dec) (v : Int32) {subs : List Sub}
    (good : ∀ sub ∈ subs, sub.Good w) : ∃ t, subs.foldlM (Sub.run w v) s = .ok t ∧
      Settles w t sigs (subs.foldl (fun h sub => effect w h v sub) H) := by
  induction subs generalizing s H with
  | nil => exact ⟨s, rfl, h⟩
  | cons sub subs ih =>
    obtain ⟨t, here, next⟩ := h.run hdec v (good sub List.mem_cons_self)
    obtain ⟨u, rest, settles⟩ := ih next fun other hother => good other (List.mem_cons_of_mem sub hother)
    refine ⟨u, ?_, settles⟩
    rw [List.foldlM_cons, here]
    exact rest

/-- A subscriber of the signal `i`, which is `g`, writes to `t`. -/
def Bound (w : Browser) (s : BindSt) (i : ℕ) (g : Sig) (t : Target) : Prop :=
  s.sigs[i]? = some g ∧ ∃ sub ∈ g.subs, target w sub = some t

/-- Whatever is bound shows the value of its signal. -/
def Tracks (w : Browser) (s : BindSt) : Prop := ∀ i g t, Bound w s i g t → Shows s.host g.value t

def Free (w : Browser) (s : BindSt) (sub : Sub) : Prop := ∀ i g t, Bound w s i g t → target w sub ≠ some t

/-- A binding has its target for itself, and a class name that `classList` takes. -/
def Proper (w : Browser) (s : BindSt) : BindOp → Prop
  | .signalNew _ | .signalSet _ _ => True
  | .bindText node i => s.sigs[i]? = none ∨ Free w s (.text node)
  | .bindClass node i name =>
    s.sigs[i]? = none ∨ Free w s (.cls node name) ∧ Sub.Good w (.cls node name)

structure Synced (w : Browser) (s : BindSt) : Prop where
  flushed : s.dom.len = 0
  tracks : Tracks w s
  good : ∀ (i : ℕ) (g : Sig), s.sigs[i]? = some g → ∀ sub ∈ g.subs, Sub.Good w sub
  apart : ∀ i j g g' t, Bound w s i g t → Bound w s j g' t → i = j

theorem set_cases {sigs : List Sig} {i j : ℕ} {a b : Sig} (h : (sigs.set i a)[j]? = some b) :
    j = i ∧ b = a ∨ j ≠ i ∧ sigs[j]? = some b := by
  by_cases same : j = i
  · subst same
    rw [List.getElem?_set_self'] at h
    obtain ⟨_, _, e⟩ := Option.map_eq_some_iff.mp h
    exact .inl ⟨rfl, e.symm⟩
  · rw [List.getElem?_set_ne (Ne.symm same)] at h
    exact .inr ⟨same, h⟩

/-- With one signal replaced, what is bound to it is given and the rest is as before. -/
structure Replaced (w : Browser) (s t : BindSt) (i : ℕ) (g new : Sig) : Prop where
  was : s.sigs[i]? = some g
  sigs : t.sigs = s.sigs.set i new
  flushed : t.dom.len = 0
  good : ∀ sub ∈ new.subs, sub.Good w
  /-- What the signal is bound to shows its value, and nothing else was bound to it. -/
  mine : ∀ u, (∃ sub ∈ new.subs, target w sub = some u) →
    Shows t.host new.value u ∧ ∀ j g', j ≠ i → ¬ Bound w s j g' u
  others : ∀ j g' u, j ≠ i → Bound w s j g' u → Shows t.host g'.value u

theorem Replaced.inv {t : BindSt} {i : ℕ} {g new : Sig} (r : Replaced w s t i g new) (h : Synced w s) : Synced w t := by
  -- what is bound afterwards is bound to the new signal, or was bound to another one before
  have cases : ∀ j g' u, Bound w t j g' u →
      j = i ∧ g' = new ∧ (∃ sub ∈ new.subs, target w sub = some u) ∨ j ≠ i ∧ Bound w s j g' u := by
    rintro j g' u ⟨hj, writes⟩
    rw [r.sigs] at hj
    obtain ⟨same, rfl⟩ | ⟨other, hj⟩ := set_cases hj
    · exact .inl ⟨same, rfl, writes⟩
    · exact .inr ⟨other, hj, writes⟩
  refine ⟨r.flushed, fun j g' u bound => ?_, fun j g' hj => ?_, fun j k g' g'' u first second => ?_⟩
  · obtain ⟨_, rfl, writes⟩ | ⟨other, bound⟩ := cases j g' u bound
    · exact (r.mine u writes).1
    · exact r.others j g' u other bound
  · rw [r.sigs] at hj
    obtain ⟨_, rfl⟩ | ⟨_, hj⟩ := set_cases hj
    · exact r.good
    · exact h.good j g' hj
  · obtain ⟨hj, _, writes⟩ | ⟨hj, bound⟩ := cases j g' u first
    · obtain ⟨hk, _, _⟩ | ⟨hk, bound'⟩ := cases k g'' u second
      · rw [hj, hk]
      · exact absurd bound' ((r.mine u writes).2 k g'' hk)
    · obtain ⟨_, _, writes⟩ | ⟨_, bound'⟩ := cases k g'' u second
      · exact absurd bound ((r.mine u writes).2 j g' hj)
      · exact h.apart j k g' g'' u bound bound'

theorem bind_settled (flushed : s.dom.len = 0) (hdec : TextDecodes w.dec) (i : ℕ) (g : Sig) {sub : Sub}
    (good : sub.Good w) : ∃ t, (sub.run w g.value (s.link i g sub) >>= cercoDomFlush w) = .ok t ∧
      Settled t (s.link i g sub).sigs (effect w s.host g.value sub) := by
  have start : Settles w (s.link i g sub) (s.link i g sub).sigs s.host := Settled.settles w ⟨rfl, rfl, flushed⟩
  obtain ⟨t, ran, queued⟩ := start.run hdec g.value good
  obtain ⟨u, sent, settled⟩ := queued.flush hdec
  exact ⟨u, by rw [ran]; exact sent, settled⟩

theorem bindClass_settled (flushed : s.dom.len = 0) (hdec : TextDecodes w.dec) {i : ℕ} {g : Sig}
    (hi : s.sigs[i]? = some g) {node : UInt32} {name : CStr} (good : Sub.Good w (.cls node name)) :
    Settled (BindOp.run w s (.bindClass node i name)) (s.link i g (.cls node name)).sigs
      (effect w s.host g.value (.cls node name)) := by
  obtain ⟨t, ran, settled⟩ := bind_settled flushed hdec i g good
  have call : (BindOp.bindClass node i name).call w s = .ok t := by
    change cercoBindClass w s node i name = _
    unfold cercoBindClass
    rw [hi]
    exact ran
  rwa [BindOp.run, call]

theorem Synced.bind (h : Synced w s) (hdec : TextDecodes w.dec) {i : ℕ} {g : Sig}
    (hi : s.sigs[i]? = some g) (sub : Sub) (free : Free w s sub) (good : sub.Good w) :
    ∃ t, (sub.run w g.value (s.link i g sub) >>= cercoDomFlush w) = .ok t ∧ Synced w t := by
  obtain ⟨u, ran, settled⟩ := bind_settled h.flushed hdec i g good
  refine ⟨u, ran, Replaced.inv (s := s) (g := g) ⟨hi, settled.sigs, settled.flushed, ?_, ?_, ?_⟩ h⟩
  · intro other hother
    obtain rfl | old := List.mem_cons.mp hother
    · exact good
    · exact h.good i g hi other old
  · rintro x ⟨other, hother, e⟩
    rw [settled.host]
    obtain rfl | old := List.mem_cons.mp hother
    · exact ⟨effect_same e, fun j g' _ bound => free j g' x bound e⟩
    · have bound : Bound w s i g x := ⟨hi, other, old, e⟩
      exact ⟨(effect_other (free i g x bound)).mpr (h.tracks i g x bound),
        fun j g' hj taken => hj (h.apart j i g' g x taken bound)⟩
  · intro j g' x _ bound
    rw [settled.host]
    exact (effect_other (free j g' x bound)).mpr (h.tracks j g' x bound)

theorem Synced.set (h : Synced w s) (hdec : TextDecodes w.dec) {i : ℕ} {g : Sig} (hi : s.sigs[i]? = some g)
    (v : Int32) :
    ∃ t, (g.subs.foldlM (Sub.run w v) { s with sigs := s.sigs.set i { g with value := v } } >>=
      cercoDomFlush w) = .ok t ∧ Synced w t := by
  have start : Settles w { s with sigs := s.sigs.set i { g with value := v } }
      (s.sigs.set i { g with value := v }) s.host := Settled.settles w ⟨rfl, rfl, h.flushed⟩
  obtain ⟨t, ran, queued⟩ := start.runAll hdec v (h.good i g hi)
  obtain ⟨u, flushed, settled⟩ := queued.flush hdec
  refine ⟨u, by rw [ran]; exact flushed, Replaced.inv (s := s) (g := g)
    ⟨hi, settled.sigs, settled.flushed, h.good i g hi, ?_, ?_⟩ h⟩
  · rintro x ⟨sub, hsub, e⟩
    rw [settled.host]
    exact ⟨effects_same (.inr ⟨sub, hsub, e⟩),
      fun j g' hj taken => hj (h.apart j i g' g x taken ⟨hi, sub, hsub, e⟩)⟩
  · intro j g' x hj bound
    rw [settled.host]
    refine (effects_other fun sub hsub e => ?_).mpr (h.tracks j g' x bound)
    exact hj (h.apart j i g' g x bound ⟨hi, sub, hsub, e⟩)

theorem Synced.signalNew (h : Synced w s) (v : Int32) : Synced w (cercoSignalNew s v) := by
  have old : ∀ (i : ℕ) (g : Sig), (cercoSignalNew s v).sigs[i]? = some g →
      s.sigs[i]? = some g ∨ g.subs = [] := by
    intro i g hi
    change (s.sigs ++ [⟨v, []⟩])[i]? = some g at hi
    rw [List.getElem?_append] at hi
    split at hi
    · exact .inl hi
    · have new := List.mem_of_getElem? hi
      rw [List.mem_singleton.mp new]
      exact .inr rfl
  have bound : ∀ i g t, Bound w (cercoSignalNew s v) i g t → Bound w s i g t := by
    rintro i g t ⟨hi, sub, hsub, e⟩
    obtain was | none := old i g hi
    · exact ⟨was, sub, hsub, e⟩
    · rw [none] at hsub
      cases hsub
  refine ⟨h.flushed, fun i g t b => h.tracks i g t (bound i g t b), fun i g hi sub hsub => ?_, ?_⟩
  · obtain was | none := old i g hi
    · exact h.good i g was sub hsub
    · rw [none] at hsub
      cases hsub
  · exact fun i j g g' t first second => h.apart i j g g' t (bound i g t first) (bound j g' t second)

theorem Synced.call (h : Synced w s) (hdec : TextDecodes w.dec) (op : BindOp) (proper : Proper w s op) :
    ∃ t, op.call w s = .ok t ∧ Synced w t := by
  cases op with
  | signalNew v => exact ⟨_, rfl, h.signalNew v⟩
  | bindText node i =>
    change ∃ t, cercoBindText w s node i = .ok t ∧ _
    unfold cercoBindText
    cases hi : s.sigs[i]? with
    | none => exact ⟨s, rfl, h⟩
    | some g =>
      obtain none | free := proper
      · rw [hi] at none
        cases none
      · dsimp only
        exact h.bind hdec hi (.text node) free trivial
  | bindClass node i name =>
    change ∃ t, cercoBindClass w s node i name = .ok t ∧ _
    unfold cercoBindClass
    cases hi : s.sigs[i]? with
    | none => exact ⟨s, rfl, h⟩
    | some g =>
      obtain none | ⟨free, good⟩ := proper
      · rw [hi] at none
        cases none
      · dsimp only
        exact h.bind hdec hi (.cls node name) free good
  | signalSet i v =>
    change ∃ t, cercoSignalSet w s i v = .ok t ∧ _
    unfold cercoSignalSet
    cases hi : s.sigs[i]? with
    | none => exact ⟨s, rfl, h⟩
    | some g =>
      dsimp only
      split
      · exact ⟨s, rfl, h⟩
      · exact h.set hdec hi v

theorem bindStart_inv (w : Browser) (m : Mem) (h : Host) : Synced w (bindStart m h) :=
  ⟨rfl, fun i g t b => (by cases b.1), fun i g hi => (by cases hi), fun i j g g' t b => (by cases b.1)⟩

/-- After every call of a run whose bindings are proper, the page shows the signals and nothing is
left in the buffer; to set a signal to its value does nothing. -/
theorem bindings_track {w : Browser} (hdec : TextDecodes w.dec) (m : Mem) (h : Host) (ops : List BindOp)
    (proper : EachStep (BindOp.run w) (Proper w) (bindStart m h) ops) :
    (∀ pre, pre <+: ops → Tracks w (pre.foldl (BindOp.run w) (bindStart m h)) ∧
      (pre.foldl (BindOp.run w) (bindStart m h)).dom.len = 0) ∧
    ∀ (s : BindSt) (i : ℕ) (g : Sig), s.sigs[i]? = some g → BindOp.run w s (.signalSet i g.value) = s := by
  constructor
  · intro pre hpre
    have inv : Synced w (pre.foldl (BindOp.run w) (bindStart m h)) := by
      refine (proper.of_prefix hpre).invariant (I := Synced w) (fun s op inv ok => ?_) (bindStart_inv w m h)
      obtain ⟨t, e, next⟩ := inv.call hdec op ok
      rw [BindOp.run, e]
      exact next
    exact ⟨inv.tracks, inv.flushed⟩
  · intro s i g hi
    have same : (BindOp.signalSet i g.value).call w s = .ok s := by
      change cercoSignalSet w s i g.value = .ok s
      unfold cercoSignalSet
      rw [hi]
      exact if_pos rfl
    rw [BindOp.run, same]

/-- Elements are registered from id 10 on. -/
def page : Browser := ⟨textDecode, fun id => if id < 10 then none else some id⟩

def blank : BindSt := bindStart (fun _ => 0) ⟨fun _ => [], fun _ => []⟩

def onClass : CStr := ⟨ascii "on", by decide⟩

theorem dec_onClass : page.dec onClass.1 = ['o', 'n'] := textDecode_decodes ['o', 'n']

theorem free_of_unbound {sub : Sub} (h : ∀ (i : ℕ) (g : Sig), s.sigs[i]? = some g → g.subs = []) : Free w s sub := by
  rintro i g t ⟨hi, other, hother, _⟩
  rw [h i g hi] at hother
  cases hother

theorem bindings_track_on :
    (∀ pre, pre <+: [.signalNew 3, .bindClass 12 0 onClass, .signalSet 0 0] →
      Tracks page (pre.foldl (BindOp.run page) blank) ∧ (pre.foldl (BindOp.run page) blank).dom.len = 0) ∧
    ∀ (s : BindSt) (i : ℕ) (g : Sig), s.sigs[i]? = some g → BindOp.run page s (.signalSet i g.value) = s := by
  refine bindings_track textDecode_decodes (fun _ => 0) _ _ ⟨trivial, .inr ⟨free_of_unbound ?_, ?_⟩, trivial, trivial⟩
  · intro i g hi
    rw [List.mem_singleton.mp (List.mem_of_getElem? hi : g ∈ [⟨3, []⟩])]
  · refine ⟨by decide, fun e _ => ?_⟩
    rw [dec_onClass]
    rfl

/-- One text binding for an element, and one class binding for an element and a name of at most 4096 bytes. -/
def Once (w : Browser) (s : BindSt) : BindOp → Prop
  | .signalNew _ | .signalSet _ _ => True
  | .bindText node _ => ∀ g ∈ s.sigs, ∀ n, .text n ∈ g.subs → w.reg n.toNat ≠ w.reg node.toNat
  | .bindClass node _ name => name.1.length ≤ 4096 ∧
      ∀ g ∈ s.sigs, ∀ n, .cls n name ∈ g.subs → w.reg n.toNat ≠ w.reg node.toNat

theorem refused_class {i : ℕ} {g : Sig} (hi : s.sigs[i]? = some g) (flushed : s.dom.len = 0) {node : UInt32}
    {name : CStr} {e : ℕ} (hr : w.reg node.toNat = some e) (short : name.1.length ≤ 4096)
    (bad : classToken (w.dec name.1) = false) :
    (BindOp.run w s (.bindClass node i name)).host = s.host ∧
      (BindOp.run w s (.bindClass node i name)).sigs = (s.link i g (.cls node name)).sigs := by
  let sub : Sub := .cls node name
  let d : DomSt := s.dom.put (sub.bytes g.value)
  have len : d.len = 9 + name.1.length := by
    change s.dom.len + (frame _ node name.1).length = _
    simp only [flushed, frame, List.length_cons, List.length_append, lePut_length]
    omega
  let t : BindSt := ⟨d, (s.link i g sub).sigs, s.host⟩
  -- one command is far from three quarters of the buffer, so the host sees it in the last flush
  have queued : sub.run w g.value (s.link i g sub) = .ok t := by
    have size : cmdBufSize = 32768 := rfl
    rw [run_eq, cmdEnd]
    exact if_neg (by change ¬ _ < d.len; omega)
  have batch : d.mem.load 0 d.len = frame (if g.value ≠ 0 then 8 else 9) node name.1 := by
    have behind := load_write_behind s.dom.mem 0 s.dom.len (sub.bytes g.value)
    rw [Nat.zero_add, flushed] at behind
    change (s.dom.mem.write s.dom.len (sub.bytes g.value)).load 0 (s.dom.len + (sub.bytes g.value).length) = _
    rw [flushed]
    exact behind
  have thrown : ∀ op : UInt8, op = 8 ∨ op = 9 → ∀ n, hostBatch w (n + 1) (frame op node name.1) s.host = (s.host, false) := by
    intro op hop n
    have read := @processCommand_frame w.dec op (by obtain rfl | rfl := hop <;> rfl) node name.1 (by omega) []
    rw [List.append_nil] at read
    have refused : hostApply w s.host (hostCmd op [.u32 node.toNat, .str (w.dec name.1)]) = none := by
      obtain rfl | rfl := hop
      · change hostApply w s.host (some (.addClass node.toNat (w.dec name.1))) = none
        simp [hostApply, hr, bad]
      · change hostApply w s.host (some (.removeClass node.toNat (w.dec name.1))) = none
        simp [hostApply, hr, bad]
    rw [hostBatch, read]
    · dsimp only
      rw [refused]
    · exact List.cons_ne_nil _ _
  have ran : hostBatch w (d.mem.load 0 d.len).length (d.mem.load 0 d.len) s.host = (s.host, false) := by
    rw [load_length, batch, len, Nat.add_comm]
    exact thrown _ (by split <;> simp) _
  have stops : cercoDomFlush w t = .error ⟨{ d with sent := d.sent ++ [d.mem.load 0 d.len] }, t.sigs, s.host⟩ := by
    rw [cercoDomFlush, if_pos (by change d.len ≠ 0; omega), handOver]
    dsimp only [t]
    rw [ran]
  have call : (BindOp.bindClass node i name).call w s =
      .error ⟨{ d with sent := d.sent ++ [d.mem.load 0 d.len] }, t.sigs, s.host⟩ := by
    change cercoBindClass w s node i name = _
    unfold cercoBindClass
    rw [hi]
    change (sub.run w g.value (s.link i g sub) >>= cercoDomFlush w) = _
    rw [queued]
    exact stops
  rw [BindOp.run, call]
  exact ⟨rfl, rfl⟩

def spacedName : CStr := ⟨ascii "a b", by decide⟩
def plainName : CStr := ⟨ascii "a", by decide⟩
def markedName : CStr := ⟨utf8 ['\uFEFF', 'a'], by decide⟩

theorem dec_spaced : page.dec spacedName.1 = ['a', ' ', 'b'] := textDecode_decodes ['a', ' ', 'b']
theorem dec_plain : page.dec plainName.1 = ['a'] := textDecode_decodes ['a']
theorem dec_marked : page.dec markedName.1 = ['a'] := textDecode_decodes ['\uFEFF', 'a']

def spacedRun : List BindOp := [.signalNew 1, .bindClass 12 0 spacedName]
def markedRun : List BindOp :=
  [.signalNew 1, .signalNew 0, .bindClass 12 0 markedName, .bindClass 12 1 plainName]

theorem run_signalNew (w : Browser) (s : BindSt) (v : Int32) : BindOp.run w s (.signalNew v) = cercoSignalNew s v := rfl

theorem spaced_fails : ¬ Tracks page (spacedRun.foldl (BindOp.run page) blank) := by
  have bad : classToken (page.dec spacedName.1) = false := by
    rw [dec_spaced]
    rfl
  have hi : (cercoSignalNew blank 1).sigs[0]? = some ⟨1, []⟩ := rfl
  have hr : page.reg (12 : UInt32).toNat = some 12 := rfl
  obtain ⟨host, sigs⟩ := refused_class hi rfl hr (by decide) bad
  rw [spacedRun, List.foldl_cons, List.foldl_cons, List.foldl_nil, run_signalNew]
  intro tracks
  have bound : Bound page (BindOp.run page (cercoSignalNew blank 1) (.bindClass 12 0 spacedName)) 0
      ⟨1, [.cls 12 spacedName]⟩ (.cls 12 (page.dec spacedName.1)) :=
    ⟨by rw [sigs]; rfl, _, List.mem_singleton_self _, rfl⟩
  have there := (tracks _ _ _ bound).mpr (by decide)
  rw [host] at there
  cases there

def marked : BindSt := BindOp.run page (cercoSignalNew (cercoSignalNew blank 1) 0) (.bindClass 12 0 markedName)

theorem marked_settled : Settled marked [⟨1, [.cls 12 markedName]⟩, ⟨0, []⟩]
    (effect page blank.host 1 (.cls 12 markedName)) := by
  have hi : (cercoSignalNew (cercoSignalNew blank 1) 0).sigs[0]? = some ⟨1, []⟩ := rfl
  refine bindClass_settled rfl textDecode_decodes hi ⟨by decide, fun e _ => ?_⟩
  rw [dec_marked]
  rfl

theorem marked_fails : ¬ Tracks page (markedRun.foldl (BindOp.run page) blank) := by
  have sigs := marked_settled.sigs
  have hi : marked.sigs[1]? = some ⟨0, []⟩ := by rw [sigs]; rfl
  have good : Sub.Good page (.cls 12 plainName) := by
    refine ⟨by decide, fun e _ => ?_⟩
    rw [dec_plain]
    rfl
  have settled := bindClass_settled marked_settled.flushed textDecode_decodes hi good
  rw [markedRun, List.foldl_cons, List.foldl_cons, List.foldl_cons, List.foldl_cons, List.foldl_nil,
    run_signalNew, run_signalNew]
  intro tracks
  have bound : Bound page (BindOp.run page marked (.bindClass 12 1 plainName)) 0
      ⟨1, [.cls 12 markedName]⟩ (.cls 12 (page.dec markedName.1)) := by
    refine ⟨?_, _, List.mem_singleton_self _, rfl⟩
    rw [settled.sigs, BindSt.link, sigs]
    rfl
  have there := (tracks _ _ _ bound).mpr (by decide)
  have gone : Shows (BindOp.run page marked (.bindClass 12 1 plainName)).host 0 (.cls 12 (page.dec plainName.1)) := by
    rw [settled.host]
    exact effect_same rfl
  rw [dec_marked] at there
  rw [dec_plain] at gone
  exact gone.mp there rfl

/-- A name with a space in it is refused, and a byte-order mark in front of a name is dropped. -/
theorem class_names_fail :
    (EachStep (BindOp.run page) (Once page) blank spacedRun ∧
      ¬ Tracks page (spacedRun.foldl (BindOp.run page) blank)) ∧
    (EachStep (BindOp.run page) (Once page) blank markedRun ∧
      ¬ Tracks page (markedRun.foldl (BindOp.run page) blank)) := by
  refine ⟨⟨⟨trivial, ⟨by decide, ?_⟩, trivial⟩, spaced_fails⟩,
    ⟨trivial, trivial, ⟨by decide, ?_⟩, ⟨by decide, ?_⟩, trivial⟩, marked_fails⟩
  · intro g hg n hn
    rw [List.mem_singleton.mp (hg : g ∈ [⟨1, []⟩])] at hn
    cases hn
  · intro g hg n hn
    have none : g.subs = [] := by
      change g ∈ [(⟨1, []⟩ : Sig), ⟨0, []⟩] at hg
      obtain rfl | rfl : g = ⟨1, []⟩ ∨ g = ⟨0, []⟩ := by simpa using hg
      · rfl
      · rfl
    rw [none] at hn
    cases hn
  · intro g hg n hn
    change g ∈ marked.sigs at hg
    rw [marked_settled.sigs] at hg
    obtain rfl | rfl : g = ⟨1, [.cls 12 markedName]⟩ ∨ g = ⟨0, []⟩ := by simpa using hg
    · cases List.mem_singleton.mp hn
    · cases hn

end Cerco.SignalBindings
