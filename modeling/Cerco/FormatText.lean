import Cerco.HtmlEscape
import Cerco.PrintfText

set_option autoImplicit false

/-!
# Formatted text

`cerco_textf` copies a format to the page and gives each argument to the writer of
its verb: strings are escaped, everything else goes through snprintf. The calls of
the writers are logged.
-/
namespace Cerco.FormatText
open Cerco.Alloc Cerco.CString Cerco.HtmlEscape Cerco.PrintfText Cerco.Request

/-- What `va_arg` returns; `long`, `long long` and `size_t` are one size. -/
inductive VaArg
  | int (v : BitVec 32)
  | long (v : BitVec 64)
  | double (bits : BitVec 64)
  | str (s : Option Bytes)
deriving DecidableEq

/-- A write to the page: a byte of the format, a string through `wbuf_escape`, or text as it is. -/
inductive Put
  | literal (c : UInt8)
  | escaped (s : Bytes)
  | plain (s : Bytes)
deriving DecidableEq

def Put.run : Put → Arena → Wbuf → Arena × Wbuf
  | .literal c, a, b => wbufPutn a b [c]
  | .escaped s, a, b => wbufEscape a b s
  | .plain s, a, b => wbufPutn a b s

structure Out where
  arena : Arena
  buf : Wbuf
  log : List Put

def Out.put (o : Out) (p : Put) : Out :=
  ⟨(p.run o.arena o.buf).1, (p.run o.arena o.buf).2, o.log ++ [p]⟩

def conversions : Bytes := ascii "diouxXeEfgGcs"

/-- `ch == 'l' || ch == 'z' || ch == 'h'` -/
def isLengthByte (ch : UInt8) : Bool := ch = 108 || ch = 122 || ch = 104

/-- The loop that copies a specification to `spec[40]`: the specification, `lenmod` and what is left. -/
def scanSpec : Bytes → Bytes → UInt8 → Option (Bytes × UInt8 × UInt8 × Bytes)
  | [], _, _ => none
  | ch :: p, spec, lenmod =>
    if spec.length < 38 then
      if ch ∈ conversions then some (spec ++ [ch], ch, lenmod, p)
      else scanSpec p (spec ++ [ch]) (if isLengthByte ch then ch else lenmod)
    else none

variable (loc : CLocale)

/-- `snprintf` to `tmp[160]`, and the write of what it stored. -/
def Out.putFormatted (o : Out) (spec : Bytes) (v : BitVec 64) : Out :=
  match formatted loc spec v with
  | none => o
  | some text => if 0 < text.length then o.put (.plain (text.take 159)) else o

/-- The branch of the conversion `c`; an argument of another type is undefined behaviour. -/
def putArgument (spec : Bytes) (c lenmod : UInt8) (args : List VaArg) (o : Out) : Option (List VaArg × Out) :=
  if c = 115 then
    match args with
    | .str (some s) :: args => some (args, o.put (.escaped (cstr s)))
    | .str none :: args => some (args, o.put (.plain (ascii "(null)")))
    | _ => none
  else if c = 102 ∨ c = 103 ∨ c = 101 ∨ c = 71 ∨ c = 69 then
    match args with
    | .double bits :: args => some (args, o.putFormatted loc spec bits)
    | _ => none
  else if lenmod = 108 ∨ lenmod = 122 then
    match args with
    | .long v :: args => some (args, o.putFormatted loc spec v)
    | _ => none
  else
    match args with
    | .int v :: args => some (args, o.putFormatted loc spec (v.setWidth 64))
    | _ => none

def textfLoop : ℕ → Bytes → List VaArg → Out → Out
  | 0, _, _, o => o
  | _ + 1, [], _, o => o
  | n + 1, c :: p, args, o =>
    if c = 37 then
      if p.head? = some 37 then textfLoop n p.tail args (o.put (.literal 37))
      else
        match scanSpec p [37] 0 with
        | none => o
        | some (spec, conv, lenmod, rest) =>
          match putArgument loc spec conv lenmod args o with
          | none => o
          | some (args, o) => textfLoop n rest args o
    else textfLoop n p args (o.put (.literal c))

/-- `cerco_textf` on the response buffer. -/
def textf (fmt : Bytes) (args : List VaArg) (a : Arena) (b : Wbuf) : Out :=
  textfLoop loc (cstr fmt).length (cstr fmt) args ⟨a, b, []⟩

def VaArg.Suits (s : Spec) : VaArg → Prop
  | .str _ => s.verb = .s
  | .double _ => s.verb.floating = true
  | .long _ => s.verb ≠ .s ∧ s.verb.floating = false ∧ s.length.long = true
  | .int _ => s.verb ≠ .s ∧ s.verb.floating = false ∧ s.length.long = false

/-- A piece of a format, a conversion with its argument. -/
inductive Item
  | literal (c : UInt8) (other : c ≠ 0 ∧ c ≠ 37)
  | percent
  | verb (s : Spec) (ok : s.WellFormed) (v : VaArg) (suits : v.Suits s)

def Item.bytes : Item → Bytes
  | .literal c _ => [c]
  | .percent => [37, 37]
  | .verb s _ _ _ => s.bytes

def Item.args : Item → List VaArg
  | .verb _ _ v _ => [v]
  | _ => []

def formatOf (items : List Item) : Bytes := items.flatMap Item.bytes

def argsOf (items : List Item) : List VaArg := items.flatMap Item.args

def entityTexts : List Bytes := [ascii "&amp;", ascii "&lt;", ascii "&gt;", ascii "&quot;", ascii "&#39;"]

structure Safe (t : Bytes) : Prop where
  special : ∀ c ∈ t, c ∉ ascii "<>\"'"
  amp : ∀ pre post, t = pre ++ 38 :: post → ∃ e ∈ entityTexts, e <+: 38 :: post

def Put.text : Put → Bytes
  | .literal c => [c]
  | .escaped s => escape s
  | .plain s => s

def Put.isLiteral : Put → Bool
  | .literal _ => true
  | _ => false

/-- The writes belong to the items in order: each literal byte was written, and a verb wrote nothing or
something safe. -/
inductive Laid : List Item → List Put → Prop
  | nil : Laid [] []
  | literal {items : List Item} {log : List Put} (c : UInt8) (other : c ≠ 0 ∧ c ≠ 37) (rest : Laid items log) :
      Laid (.literal c other :: items) (.literal c :: log)
  | percent {items : List Item} {log : List Put} (rest : Laid items log) :
      Laid (.percent :: items) (.literal 37 :: log)
  | silent {items : List Item} {log : List Put} (s : Spec) (ok : s.WellFormed) (v : VaArg) (suits : v.Suits s)
      (rest : Laid items log) : Laid (.verb s ok v suits :: items) log
  | argument {items : List Item} {log : List Put} (s : Spec) (ok : s.WellFormed) (v : VaArg) (suits : v.Suits s)
      (p : Put) (other : p.isLiteral = false) (safe : Safe p.text) (rest : Laid items log) :
      Laid (.verb s ok v suits :: items) (p :: log)

/-- A call writes what its pieces put, and every piece is literal text of the format or free of markup. -/
structure Contained (items : List Item) (a : Arena) (b : Wbuf) : Prop where
  written : (textf loc (formatOf items) (argsOf items) a b).arena.Served →
    b.data.length + ((textf loc (formatOf items) (argsOf items) a b).log.flatMap Put.text).length < 2 ^ 64 →
    (textf loc (formatOf items) (argsOf items) a b).buf.data =
      b.data ++ (textf loc (formatOf items) (argsOf items) a b).log.flatMap Put.text
  laid : Laid items (textf loc (formatOf items) (argsOf items) a b).log

/-- `%c` prints one of the five characters, and snprintf does not give up or cut it off. -/
structure PrintsMarkup (s : Spec) (v : BitVec 64) : Prop where
  verb : s.verb = .c
  width : s.minWidth < 2 ^ 31
  precision : s.prec.getD 0 < 2 ^ 31
  kept : s.has 45 = true ∨ s.minWidth ≤ 159
  markup : ∃ c, s.charText loc v = some [c] ∧ (rep c).isSome = true

def VaArg.bits : VaArg → BitVec 64
  | .int v => v.setWidth 64
  | .long v => v
  | .double bits => bits
  | .str _ => 0

def Item.isVerb : Item → Bool
  | .verb _ _ _ _ => true
  | _ => false

/-- No `%c` prints one of the five characters, up to the first specification that is too long for `spec[40]`;
behind that one no literal text is left. -/
def Harmless : List Item → Prop
  | [] => True
  | .literal _ _ :: items => Harmless items
  | .percent :: items => Harmless items
  | .verb s _ v _ :: items =>
    if 38 < s.bytes.length then ∀ i ∈ items, i.isVerb = true
    else ¬ PrintsMarkup loc s v.bits ∧ Harmless items

theorem flag_passes {c : UInt8} (h : isFlag c = true ∨ isDigit c = true ∨ c = 46) :
    c ∉ conversions ∧ isLengthByte c = false ∧ c ≠ 37 ∧ c ≠ 0 := by
  have other : ∀ d, isFlag d = false → isDigit d = false → d ≠ 46 → c ≠ d := by
    rintro d noFlag noDigit noPoint rfl
    obtain h | h | h := h
    · exact Bool.noConfusion (noFlag.symm.trans h)
    · exact Bool.noConfusion (noDigit.symm.trans h)
    · exact noPoint h
  refine ⟨fun mem => ?_, ?_, other 37 rfl rfl (by decide), other 0 rfl rfl (by decide)⟩
  · have none : conversions.all (fun d => !isFlag d && !isDigit d && d ≠ 46) = true := by decide
    have here := List.all_eq_true.mp none c mem
    simp only [Bool.and_eq_true, Bool.not_eq_true', decide_eq_true_eq] at here
    exact other c here.1.1 here.1.2 here.2 rfl
  · unfold isLengthByte
    rw [decide_eq_false (other 108 rfl rfl (by decide)), decide_eq_false (other 122 rfl rfl (by decide)),
      decide_eq_false (other 104 rfl rfl (by decide))]
    rfl

def specFront (s : Spec) : Bytes := s.flags ++ (s.width ++ (s.precisionBytes ++ s.length.bytes))

theorem tail_front (s : Spec) : s.tail = specFront s ++ [s.verb.byte] := by
  simp only [Spec.tail, specFront, List.append_assoc]

def lengthByte : Length → UInt8
  | .default => 0
  | .h | .hh => 104
  | .l | .ll => 108
  | .z => 122

def nextLenmod (lenmod ch : UInt8) : UInt8 := if isLengthByte ch then ch else lenmod

theorem flags_lenmod {t : Bytes} (h : ∀ c ∈ t, isFlag c = true ∨ isDigit c = true ∨ c = 46) (m : UInt8) :
    t.foldl nextLenmod m = m := by
  induction t with
  | nil => rfl
  | cons c t ih =>
    have keep : nextLenmod m c = m := by
      unfold nextLenmod
      rw [(flag_passes (h c List.mem_cons_self)).2.1, if_neg Bool.false_ne_true]
    rw [List.foldl_cons, keep]
    exact ih fun d hd => h d (List.mem_cons_of_mem c hd)

theorem numbers_pass {s : Spec} (ok : s.WellFormed) :
    ∀ c ∈ s.flags ++ (s.width ++ s.precisionBytes), isFlag c = true ∨ isDigit c = true ∨ c = 46 := by
  intro c hc
  obtain hc | hc := List.mem_append.mp hc
  · exact .inl (ok.flags c hc)
  obtain hc | hc := List.mem_append.mp hc
  · exact .inr (.inl (ok.width c hc))
  · unfold Spec.precisionBytes at hc
    cases hp : s.precision with
    | none =>
      rw [hp] at hc
      cases hc
    | some p =>
      rw [hp] at hc
      obtain rfl | hc := List.mem_cons.mp hc
      · exact .inr (.inr rfl)
      · exact .inr (.inl (ok.precision p hp c hc))

theorem front_split (s : Spec) : specFront s = s.flags ++ (s.width ++ s.precisionBytes) ++ s.length.bytes := by
  simp only [specFront, List.append_assoc]

theorem length_passes (len : Length) : ∀ c ∈ len.bytes, c ∉ conversions ∧ c ≠ 37 ∧ c ≠ 0 := by
  have all : len.bytes.all (fun c => c ∉ conversions ∧ c ≠ 37 ∧ c ≠ 0) = true := by cases len <;> decide
  exact fun c hc => of_decide_eq_true (List.all_eq_true.mp all c hc)

theorem front_passes {s : Spec} (ok : s.WellFormed) :
    ∀ c ∈ specFront s, c ∉ conversions ∧ c ≠ 37 ∧ c ≠ 0 := by
  intro c hc
  rw [front_split] at hc
  obtain hc | hc := List.mem_append.mp hc
  · obtain ⟨conv, _, percent, nul⟩ := flag_passes (numbers_pass ok c hc)
    exact ⟨conv, percent, nul⟩
  · exact length_passes s.length c hc

theorem front_lenmod {s : Spec} (ok : s.WellFormed) : (specFront s).foldl nextLenmod 0 = lengthByte s.length := by
  rw [front_split, List.foldl_append, flags_lenmod (numbers_pass ok)]
  cases s.length <;> rfl

theorem verb_byte (v : Verb) : v.byte ∈ conversions ∧ v.byte ≠ 37 ∧ v.byte ≠ 0 := by cases v <;> decide

theorem scanSpec_to {pre : Bytes} (pass : ∀ c ∈ pre, c ∉ conversions) {v : UInt8} (conv : v ∈ conversions)
    (rest acc : Bytes) (m : UInt8) :
    scanSpec (pre ++ v :: rest) acc m =
      if acc.length + pre.length < 38 then some (acc ++ pre ++ [v], v, pre.foldl nextLenmod m, rest)
      else none := by
  induction pre generalizing acc m with
  | nil =>
    rw [List.nil_append, scanSpec, if_pos conv, List.append_nil]
    rfl
  | cons c pre ih =>
    have step := ih (fun d hd => pass d (List.mem_cons_of_mem c hd)) (acc ++ [c]) (nextLenmod m c)
    rw [List.length_append, List.length_singleton, Nat.add_assoc, Nat.add_comm 1] at step
    rw [List.cons_append, scanSpec, if_neg (pass c List.mem_cons_self), List.length_cons]
    by_cases room : acc.length < 38
    · rw [if_pos room]
      change scanSpec (pre ++ v :: rest) (acc ++ [c]) (nextLenmod m c) = _
      rw [step, List.append_assoc acc [c] pre]
      rfl
    · rw [if_neg room, if_neg (by omega)]

theorem scanSpec_bytes {s : Spec} (ok : s.WellFormed) (rest : Bytes) :
    scanSpec (s.tail ++ rest) [37] 0 =
      if 38 < s.bytes.length then none else some (s.bytes, s.verb.byte, lengthByte s.length, rest) := by
  have scanned := scanSpec_to (fun c hc => (front_passes ok c hc).1) (verb_byte s.verb).1 rest [37] 0
  have len : s.bytes.length = (specFront s).length + 2 := by
    rw [Spec.bytes, tail_front, List.length_cons, List.length_append, List.length_singleton]
  rw [tail_front, List.append_assoc, List.singleton_append, scanned, front_lenmod ok, len,
    List.length_singleton]
  by_cases long : 38 < (specFront s).length + 2
  · rw [if_pos long, if_neg (by omega)]
  · rw [if_neg long, if_pos (by omega), Spec.bytes, tail_front]
    rfl

def verbPuts (s : Spec) (v : VaArg) : List Put :=
  match v with
  | .str (some t) => [.escaped (cstr t)]
  | .str none => [.plain (ascii "(null)")]
  | v =>
    match formatted loc s.bytes v.bits with
    | none => []
    | some text => if 0 < text.length then [.plain (text.take 159)] else []

def logOf : List Item → List Put
  | [] => []
  | .literal c _ :: items => .literal c :: logOf items
  | .percent :: items => .literal 37 :: logOf items
  | .verb s _ v _ :: items => if 38 < s.bytes.length then [] else verbPuts loc s v ++ logOf items

theorem putFormatted_eq (o : Out) (s : Spec) (v : BitVec 64) :
    o.putFormatted loc s.bytes v = (match formatted loc s.bytes v with
      | none => ([] : List Put)
      | some text => if 0 < text.length then [.plain (text.take 159)] else []).foldl Out.put o := by
  unfold Out.putFormatted
  cases formatted loc s.bytes v with
  | none => rfl
  | some text =>
    dsimp only
    by_cases some_ : 0 < text.length
    · rw [if_pos some_, if_pos some_]
      rfl
    · rw [if_neg some_, if_neg some_]
      rfl

theorem floating_byte (v : Verb) : v.floating = true ↔
    v.byte = 102 ∨ v.byte = 103 ∨ v.byte = 101 ∨ v.byte = 71 ∨ v.byte = 69 := by
  cases v <;> decide

theorem string_byte (v : Verb) : v = .s ↔ v.byte = 115 := by cases v <;> decide

theorem long_byte (len : Length) : len.long = true ↔ lengthByte len = 108 ∨ lengthByte len = 122 := by
  cases len <;> decide

theorem putArgument_eq {s : Spec} {v : VaArg} (suits : v.Suits s) (args : List VaArg) (o : Out) :
    putArgument loc s.bytes s.verb.byte (lengthByte s.length) (v :: args) o =
      some (args, (verbPuts loc s v).foldl Out.put o) := by
  unfold putArgument
  cases v with
  | str t =>
    rw [if_pos ((string_byte s.verb).mp suits)]
    cases t <;> rfl
  | double bits =>
    have string : s.verb ≠ .s := fun h => by rw [VaArg.Suits, h] at suits; cases suits
    rw [if_neg (fun h => string ((string_byte s.verb).mpr h)), if_pos ((floating_byte s.verb).mp suits)]
    exact congrArg (fun o => some (args, o)) (putFormatted_eq loc o s bits)
  | long v =>
    obtain ⟨string, noFloat, long⟩ := suits
    have fixed : ¬ (s.verb.byte = 102 ∨ s.verb.byte = 103 ∨ s.verb.byte = 101 ∨ s.verb.byte = 71 ∨
        s.verb.byte = 69) := fun h => by
      rw [(floating_byte s.verb).mpr h] at noFloat
      cases noFloat
    rw [if_neg (fun h => string ((string_byte s.verb).mpr h)), if_neg fixed,
      if_pos ((long_byte s.length).mp long)]
    exact congrArg (fun o => some (args, o)) (putFormatted_eq loc o s v)
  | int v =>
    obtain ⟨string, noFloat, short⟩ := suits
    have fixed : ¬ (s.verb.byte = 102 ∨ s.verb.byte = 103 ∨ s.verb.byte = 101 ∨ s.verb.byte = 71 ∨
        s.verb.byte = 69) := fun h => by
      rw [(floating_byte s.verb).mpr h] at noFloat
      cases noFloat
    have noLong : ¬ (lengthByte s.length = 108 ∨ lengthByte s.length = 122) := fun h => by
      rw [(long_byte s.length).mpr h] at short
      cases short
    rw [if_neg (fun h => string ((string_byte s.verb).mpr h)), if_neg fixed, if_neg noLong]
    exact congrArg (fun o => some (args, o)) (putFormatted_eq loc o s (v.setWidth 64))

theorem tail_head {s : Spec} (ok : s.WellFormed) (rest : Bytes) : (s.tail ++ rest).head? ≠ some 37 := by
  rw [tail_front, List.append_assoc]
  cases hf : specFront s with
  | nil => exact fun h => (verb_byte s.verb).2.1 (Option.some.inj h)
  | cons c t =>
    have other := (front_passes ok c (by rw [hf]; exact List.mem_cons_self)).2.1
    exact fun h => other (Option.some.inj h)

theorem textfLoop_eq (items : List Item) {n : ℕ} (rounds : (formatOf items).length ≤ n) (o : Out) :
    textfLoop loc n (formatOf items) (argsOf items) o = (logOf loc items).foldl Out.put o := by
  induction items generalizing n o with
  | nil => cases n <;> rfl
  | cons i items ih =>
    have cut : formatOf (i :: items) = i.bytes ++ formatOf items := List.flatMap_cons
    have args : argsOf (i :: items) = i.args ++ argsOf items := List.flatMap_cons
    rw [cut, List.length_append] at rounds
    rw [cut, args]
    cases n with
    | zero =>
      cases i <;> exact absurd rounds (by simp [Item.bytes, Spec.bytes])
    | succ n =>
      cases i with
      | literal c other =>
        change textfLoop loc (n + 1) (c :: formatOf items) (argsOf items) o = _
        rw [textfLoop, if_neg other.2]
        exact ih (by simp only [Item.bytes, List.length_singleton] at rounds; omega) _
      | percent =>
        change textfLoop loc (n + 1) (37 :: 37 :: formatOf items) (argsOf items) o = _
        have escaped : (37 :: formatOf items).head? = some 37 := rfl
        rw [textfLoop, if_pos rfl, if_pos escaped]
        exact ih (by simp only [Item.bytes, List.length_cons, List.length_nil] at rounds; omega) _
      | verb s ok v suits =>
        change textfLoop loc (n + 1) (37 :: (s.tail ++ formatOf items)) (v :: argsOf items) o = _
        rw [textfLoop, if_pos rfl, if_neg (tail_head ok _), scanSpec_bytes ok, logOf]
        by_cases long : 38 < s.bytes.length
        · rw [if_pos long, if_pos long]
          rfl
        · rw [if_neg long, if_neg long, List.foldl_append]
          dsimp only
          rw [putArgument_eq loc suits]
          have pos : 1 ≤ s.bytes.length := Nat.succ_pos _
          exact ih (by simp only [Item.bytes] at rounds; omega) _

theorem formatOf_nulFree (items : List Item) : 0 ∉ formatOf items := by
  intro h
  obtain ⟨i, _, h⟩ := List.mem_flatMap.mp h
  cases i with
  | literal c other => exact other.1 (List.mem_singleton.mp h).symm
  | percent => exact absurd h (by decide)
  | verb s ok v suits =>
    obtain h | h := List.mem_cons.mp h
    · exact absurd h (by decide)
    rw [tail_front] at h
    obtain h | h := List.mem_append.mp h
    · exact (front_passes ok 0 h).2.2 rfl
    · exact (verb_byte s.verb).2.2 (List.mem_singleton.mp h).symm

theorem textf_eq (items : List Item) (a : Arena) (b : Wbuf) :
    textf loc (formatOf items) (argsOf items) a b = (logOf loc items).foldl Out.put ⟨a, b, []⟩ := by
  unfold textf
  rw [cstr_of_nulFree (formatOf_nulFree items)]
  exact textfLoop_eq loc items (Nat.le_refl _) _

theorem put_writes (p : Put) : Writes p.run p.text := by
  cases p with
  | literal c => exact wbufPutn_writes [c]
  | escaped s => exact wbufEscape_writes s
  | plain s => exact wbufPutn_writes s

theorem puts_log (log : List Put) (o : Out) : (log.foldl Out.put o).log = o.log ++ log := by
  induction log generalizing o with
  | nil => exact (List.append_nil _).symm
  | cons p log ih =>
    rw [List.foldl_cons, ih]
    exact List.append_assoc _ _ _

theorem puts_written (log : List Put) (o : Out) (served : (log.foldl Out.put o).arena.Served) :
    o.arena.Served ∧ (o.buf.data.length + (log.flatMap Put.text).length < 2 ^ 64 →
      (log.foldl Out.put o).buf.data = o.buf.data ++ log.flatMap Put.text) := by
  induction log generalizing o with
  | nil => exact ⟨served, fun _ => (List.append_nil _).symm⟩
  | cons p log ih =>
    obtain ⟨first, rest⟩ := ih (o.put p) served
    refine ⟨(put_writes p).served _ _ first, fun small => ?_⟩
    rw [List.flatMap_cons, List.length_append] at small
    have here : (o.put p).buf.data = o.buf.data ++ p.text := (put_writes p).data _ _ first (by omega)
    rw [List.foldl_cons, rest (by rw [here, List.length_append]; omega), here, List.flatMap_cons,
      List.append_assoc]

theorem safe_plain {t : Bytes} (h : ∀ c ∈ t, rep c = none) : Safe t := by
  have same := escape_plain h
  exact ⟨fun c hc => escape_special (by rw [same]; exact hc),
    fun pre post e => escape_amp (by rw [same]; exact e)⟩

theorem safe_escape (s : Bytes) : Safe (escape s) :=
  ⟨fun _ hc => escape_special hc, fun _ _ e => escape_amp e⟩

theorem numeric_plain {c : UInt8} (h : isNumeric c = true) : rep c = none := by
  have other : ∀ d, isNumeric d = false → c ≠ d := by
    rintro d no rfl
    rw [h] at no
    cases no
  unfold rep
  rw [if_neg (other 38 rfl), if_neg (other 60 rfl), if_neg (other 62 rfl), if_neg (other 34 rfl),
    if_neg (other 39 rfl)]

theorem wide_plain {c : UInt8} (h : 128 ≤ c) : rep c = none := by
  have other : ∀ d : UInt8, d < 128 → c ≠ d := by
    rintro d less rfl
    exact absurd h (UInt8.not_le.mpr less)
  unfold rep
  rw [if_neg (other 38 (by decide)), if_neg (other 60 (by decide)), if_neg (other 62 (by decide)),
    if_neg (other 34 (by decide)), if_neg (other 39 (by decide))]

theorem blanks_markup {c : UInt8} (markup : (rep c).isSome = true) (n : ℕ) {t : Bytes} (mem : c ∈ t)
    (behind : c = 38 → ∃ pre, t = pre ++ 38 :: List.replicate n 32) : ¬ Safe t := by
  intro safe
  by_cases amp : c = 38
  · obtain ⟨pre, split⟩ := behind amp
    obtain ⟨e, known, front⟩ := safe.amp pre _ split
    have texts : ∀ e ∈ entityTexts, e = 38 :: e.tail ∧ ∃ d ∈ e.tail, d ≠ 32 := by decide
    obtain ⟨begins, d, hd, other⟩ := texts e known
    rw [begins] at front
    exact other (List.eq_of_mem_replicate ((List.cons_prefix_cons.mp front).2.subset hd))
  · refine safe.special c mem ?_
    unfold rep at markup
    rw [if_neg amp] at markup
    by_cases lt : c = 60
    · subst lt; decide
    by_cases gt : c = 62
    · subst gt; decide
    by_cases quot : c = 34
    · subst quot; decide
    by_cases apos : c = 39
    · subst apos; decide
    rw [if_neg lt, if_neg gt, if_neg quot, if_neg apos] at markup
    cases markup

theorem formatted_bytes {s : Spec} (ok : s.WellFormed) (v : BitVec 64) :
    formatted loc s.bytes v = if 2 ^ 31 ≤ s.minWidth ∨ 2 ^ 31 ≤ s.prec.getD 0 then none
      else (s.text loc v).filter fun text => decide (text.length < 2 ^ 31) := by
  unfold formatted
  rw [parseSpec_bytes ok]

theorem charText_cases {s : Spec} {v : BitVec 64} {body : Bytes} (h : s.charText loc v = some body) :
    (∀ c ∈ body, rep c = none) ∨ ∃ c, body = [c] ∧ (rep c).isSome = true := by
  have single : ∀ c : UInt8, (∀ d ∈ [c], rep d = none) ∨ ∃ d, [c] = [d] ∧ (rep d).isSome = true := by
    intro c
    cases found : rep c with
    | none => exact .inl fun d hd => by rw [List.mem_singleton.mp hd, found]
    | some text => exact .inr ⟨c, rfl, by rw [found]; rfl⟩
  unfold Spec.charText at h
  by_cases long : s.length.long = true
  · rw [if_pos long] at h
    by_cases portable : (v.setWidth 32).toNat < 128
    · rw [loc.portable _ portable] at h
      cases h
      exact single _
    · exact .inl fun c hc => wide_plain (loc.beyond _ body (Nat.le_of_not_lt portable) h c hc)
  · rw [if_neg long] at h
    cases h
    exact single _

theorem padded_char (s : Spec) (body : Bytes) : s.padded false [] body =
    if s.has 45 then body ++ List.replicate (s.minWidth - body.length) 32
    else List.replicate (s.minWidth - body.length) 32 ++ body := by
  unfold Spec.padded
  simp only [List.length_nil, Nat.zero_add, List.nil_append, Bool.and_false, Bool.false_eq_true, if_false,
    List.append_nil]

theorem blank_plain (n : ℕ) : ∀ c ∈ List.replicate n (32 : UInt8), rep c = none := by
  intro c hc
  rw [List.eq_of_mem_replicate hc]
  rfl

theorem formatted_safe {s : Spec} (ok : s.WellFormed) {v : BitVec 64} (no : ¬ PrintsMarkup loc s v) {text : Bytes}
    (h : formatted loc s.bytes v = some text) : Safe (text.take 159) := by
  rw [formatted_bytes loc ok] at h
  split at h
  · cases h
  rename_i small
  push Not at small
  have h := (Option.filter_eq_some_iff.mp h).1
  by_cases char : s.verb = .c
  · unfold Spec.text at h
    rw [char] at h
    obtain ⟨body, found, rfl⟩ := Option.map_eq_some_iff.mp h
    rw [padded_char]
    obtain plain | ⟨c, rfl, markup⟩ := charText_cases loc found
    · refine safe_plain fun c hc => ?_
      have hc := List.mem_of_mem_take hc
      split at hc
      · obtain hc | hc := List.mem_append.mp hc
        · exact plain c hc
        · exact blank_plain _ c hc
      · obtain hc | hc := List.mem_append.mp hc
        · exact blank_plain _ c hc
        · exact plain c hc
    · have cutOff : ¬ (s.has 45 = true ∨ s.minWidth ≤ 159) :=
        fun kept => no ⟨char, small.1, small.2, kept, c, found, markup⟩
      push Not at cutOff
      rw [if_neg cutOff.1, List.take_append_of_le_length (by rw [List.length_replicate, List.length_singleton]; omega)]
      exact safe_plain fun d hd => blank_plain _ d (List.mem_of_mem_take hd)
  · have numeric := Spec.text_numeric char h
    exact safe_plain fun c hc => numeric_plain (numeric c (List.mem_of_mem_take hc))

theorem formatted_markup {s : Spec} (ok : s.WellFormed) {v : BitVec 64} (yes : PrintsMarkup loc s v) :
    ∃ text, formatted loc s.bytes v = some text ∧ 0 < text.length ∧ ¬ Safe (text.take 159) := by
  obtain ⟨char, width, precision, kept, c, found, markup⟩ := yes
  have len : (s.padded false [] [c]).length = max s.minWidth 1 := by
    rw [padded_char]
    split <;> simp only [List.length_append, List.length_replicate, List.length_singleton] <;> omega
  refine ⟨s.padded false [] [c], ?_, by rw [len]; omega, ?_⟩
  · rw [formatted_bytes loc ok, if_neg (by omega), Spec.text, char, found]
    exact Option.filter_eq_some_iff.mpr ⟨rfl, decide_eq_true (by rw [len]; omega)⟩
  · rw [padded_char]
    by_cases left : s.has 45 = true
    · rw [if_pos left, List.singleton_append, List.take_succ_cons, List.take_replicate]
      exact blanks_markup markup _ List.mem_cons_self fun amp => ⟨[], by rw [amp]; rfl⟩
    · have short := kept.resolve_left left
      rw [if_neg left, List.take_of_length_le (by
        rw [List.length_append, List.length_replicate, List.length_singleton]
        omega)]
      exact blanks_markup markup 0 (List.mem_append_right _ List.mem_cons_self) fun amp => ⟨_, by rw [amp]; rfl⟩

theorem verbPuts_other {s : Spec} {v : VaArg} {p : Put} (h : p ∈ verbPuts loc s v) : p.isLiteral = false := by
  unfold verbPuts at h
  split at h
  · rw [List.mem_singleton.mp h]
    rfl
  · rw [List.mem_singleton.mp h]
    rfl
  · split at h
    · cases h
    · split at h
      · rw [List.mem_singleton.mp h]
        rfl
      · cases h

theorem verbPuts_cases {s : Spec} (ok : s.WellFormed) {v : VaArg} (no : ¬ PrintsMarkup loc s v.bits) :
    verbPuts loc s v = [] ∨ ∃ p, verbPuts loc s v = [p] ∧ p.isLiteral = false ∧ Safe p.text := by
  have numbers : ∀ bits, ¬ PrintsMarkup loc s bits → ∀ log, (match formatted loc s.bytes bits with
      | none => ([] : List Put)
      | some text => if 0 < text.length then [.plain (text.take 159)] else []) = log →
      log = [] ∨ ∃ p, log = [p] ∧ p.isLiteral = false ∧ Safe p.text := by
    rintro bits no log rfl
    cases found : formatted loc s.bytes bits with
    | none => exact .inl rfl
    | some text =>
      dsimp only
      by_cases some_ : 0 < text.length
      · rw [if_pos some_]
        exact .inr ⟨_, rfl, rfl, formatted_safe loc ok no found⟩
      · rw [if_neg some_]
        exact .inl rfl
  cases v with
  | str t =>
    cases t with
    | none =>
      have plain : (ascii "(null)").all (fun c => (rep c).isNone) = true := by decide
      exact .inr ⟨_, rfl, rfl, safe_plain fun c hc => Option.isNone_iff_eq_none.mp (List.all_eq_true.mp plain c hc)⟩
    | some t => exact .inr ⟨_, rfl, rfl, safe_escape _⟩
  | int v => exact numbers _ no _ rfl
  | long v => exact numbers _ no _ rfl
  | double v => exact numbers _ no _ rfl

theorem verbPuts_markup {s : Spec} (ok : s.WellFormed) {v : VaArg} (suits : v.Suits s)
    (yes : PrintsMarkup loc s v.bits) : ∃ p ∈ verbPuts loc s v, ¬ Safe p.text := by
  obtain ⟨text, found, pos, leaks⟩ := formatted_markup loc ok yes
  refine ⟨.plain (text.take 159), ?_, leaks⟩
  unfold verbPuts
  cases v with
  | str t => exact absurd (yes.verb.symm.trans suits) (by decide)
  | int v | long v | double v =>
    dsimp only
    rw [found]
    dsimp only
    rw [if_pos pos]
    exact List.mem_singleton.mpr rfl

theorem Laid.safe {items : List Item} {log : List Put} (h : Laid items log) :
    ∀ p ∈ log, p.isLiteral = false → Safe p.text := by
  induction h with
  | nil => exact fun p hp => (by cases hp)
  | literal c other rest ih | percent rest ih =>
    intro p hp noLiteral
    obtain rfl | hp := List.mem_cons.mp hp
    · cases noLiteral
    · exact ih p hp noLiteral
  | silent s ok v suits rest ih => exact ih
  | argument s ok v suits q other safe rest ih =>
    intro p hp noLiteral
    obtain rfl | hp := List.mem_cons.mp hp
    · exact safe
    · exact ih p hp noLiteral

theorem Laid.count {items : List Item} {log : List Put} (h : Laid items log) :
    log.countP Put.isLiteral = items.countP fun i => !i.isVerb := by
  induction h with
  | nil => rfl
  | literal c other rest ih | percent rest ih =>
    rw [List.countP_cons_of_pos rfl, List.countP_cons_of_pos rfl, ih]
  | silent s ok v suits rest ih => rw [List.countP_cons_of_neg (by exact Bool.false_ne_true), ih]
  | argument s ok v suits q other safe rest ih =>
    rw [List.countP_cons_of_neg (by rw [other]; exact Bool.false_ne_true),
      List.countP_cons_of_neg (by exact Bool.false_ne_true), ih]

theorem laid_harmless (items : List Item) (safe : ∀ p ∈ logOf loc items, p.isLiteral = false → Safe p.text)
    (count : (logOf loc items).countP Put.isLiteral = items.countP fun i => !i.isVerb) :
    Harmless loc items := by
  induction items with
  | nil => trivial
  | cons i items ih =>
    cases i with
    | literal c other =>
      rw [logOf, List.countP_cons_of_pos rfl, List.countP_cons_of_pos rfl] at count
      exact ih (fun p hp => safe p (List.mem_cons_of_mem _ hp)) (Nat.succ.inj count)
    | percent =>
      rw [logOf, List.countP_cons_of_pos rfl, List.countP_cons_of_pos rfl] at count
      exact ih (fun p hp => safe p (List.mem_cons_of_mem _ hp)) (Nat.succ.inj count)
    | verb s ok v suits =>
      rw [logOf] at safe count
      rw [List.countP_cons_of_neg (by exact Bool.false_ne_true)] at count
      rw [Harmless]
      by_cases long : 38 < s.bytes.length
      · rw [if_pos long] at count ⊢
        intro i hi
        have none := List.countP_eq_zero.mp count.symm i hi
        simpa using none
      · rw [if_neg long] at safe count ⊢
        have noLiterals : (verbPuts loc s v).countP Put.isLiteral = 0 :=
          List.countP_eq_zero.mpr fun p hp => by rw [verbPuts_other loc hp]; exact Bool.false_ne_true
        rw [List.countP_append, noLiterals, Nat.zero_add] at count
        refine ⟨fun yes => ?_, ih (fun p hp => safe p (List.mem_append_right _ hp)) count⟩
        obtain ⟨p, hp, leaks⟩ := verbPuts_markup loc ok suits yes
        exact leaks (safe p (List.mem_append_left _ hp) (verbPuts_other loc hp))

theorem silent_verbs {items : List Item} (h : ∀ i ∈ items, i.isVerb = true) : Laid items [] := by
  induction items with
  | nil => exact .nil
  | cons i items ih =>
    have rest := ih fun j hj => h j (List.mem_cons_of_mem i hj)
    have verb := h i List.mem_cons_self
    cases i with
    | literal c other => cases verb
    | percent => cases verb
    | verb s ok v suits => exact .silent s ok v suits rest

theorem harmless_laid (items : List Item) (h : Harmless loc items) : Laid items (logOf loc items) := by
  induction items with
  | nil => exact .nil
  | cons i items ih =>
    cases i with
    | literal c other => exact .literal c other (ih h)
    | percent => exact .percent (ih h)
    | verb s ok v suits =>
      rw [Harmless] at h
      rw [logOf]
      by_cases long : 38 < s.bytes.length
      · rw [if_pos long] at h ⊢
        exact .silent s ok v suits (silent_verbs h)
      · rw [if_neg long] at h ⊢
        have rest := ih h.2
        obtain none | ⟨p, one, other, safe⟩ := verbPuts_cases loc ok h.1
        · rw [none]
          exact .silent s ok v suits rest
        · rw [one]
          exact .argument s ok v suits p other safe rest

/-- When formatted text is free of markup from arguments and keeps its literal text. -/
theorem textf_contained (items : List Item) (a : Arena) (b : Wbuf) :
    Contained loc items a b ↔ Harmless loc items := by
  have log : (textf loc (formatOf items) (argsOf items) a b).log = logOf loc items := by
    rw [textf_eq, puts_log]
    rfl
  constructor
  · intro h
    have laid := h.laid
    rw [log] at laid
    exact laid_harmless loc items laid.safe laid.count
  · intro h
    refine ⟨?_, by rw [log]; exact harmless_laid loc items h⟩
    rw [log, textf_eq]
    exact fun served small => (puts_written _ _ served).2 small

/-- `%c` without flags. -/
def charSpec : Spec := ⟨[], [], none, .default, .c⟩

theorem charSpec_wellFormed : charSpec.WellFormed :=
  ⟨fun c h => (by cases h), fun c h => (by cases h), by decide, fun p h => (by cases h)⟩

/-- `%c` with `<` -/
def bracketItem : Item := .verb charSpec charSpec_wellFormed (.int 60) ⟨by decide, rfl, rfl⟩

theorem percent_c_unescaped : ¬ Contained posix [bracketItem] pageArena wbufInit := by
  intro h
  have safe := h.laid.safe (.plain [60])
  rw [textf_eq, puts_log] at safe
  have written : Put.plain [60] ∈ logOf posix [bracketItem] := by decide
  exact (safe written rfl).special 60 (by decide) (by decide)

end Cerco.FormatText
