import Mathlib.Algebra.Group.Nat.Defs
import Mathlib.Data.List.TakeWhile

set_option autoImplicit false

/-!
# One conversion of printf

A conversion specification, its parser, and the text of an integer, a character or
a floating value. The characters beyond ASCII are those of the locale.
-/
namespace Cerco.PrintfText

inductive Length
  | default | h | hh | l | ll | z
deriving DecidableEq

def Length.bytes : Length → List UInt8
  | .default => []
  | .h => [104]
  | .hh => [104, 104]
  | .l => [108]
  | .ll => [108, 108]
  | .z => [122]

def Length.long : Length → Bool
  | .l | .ll | .z => true
  | _ => false

inductive Verb
  | d | i | u | x | upperX | o | c | s | f | e | g | upperE | upperG
deriving DecidableEq

def Verb.byte : Verb → UInt8
  | .d => 100
  | .i => 105
  | .u => 117
  | .x => 120
  | .upperX => 88
  | .o => 111
  | .c => 99
  | .s => 115
  | .f => 102
  | .e => 101
  | .g => 103
  | .upperE => 69
  | .upperG => 71

def verbs : List Verb := [.d, .i, .o, .u, .x, .upperX, .e, .upperE, .f, .g, .upperG, .c, .s]

def Verb.floating : Verb → Bool
  | .f | .e | .g | .upperE | .upperG => true
  | _ => false

structure Spec where
  flags : List UInt8
  width : List UInt8
  precision : Option (List UInt8)
  length : Length
  verb : Verb
deriving DecidableEq

/-- `-`, `+`, space, `#`, `0` and the apostrophe, which groups digits in some locales. -/
def isFlag (c : UInt8) : Bool := c = 45 || c = 43 || c = 32 || c = 35 || c = 48 || c = 39

def isDigit (c : UInt8) : Bool := 48 ≤ c && c ≤ 57

structure Spec.WellFormed (s : Spec) : Prop where
  flags : ∀ c ∈ s.flags, isFlag c = true
  width : ∀ c ∈ s.width, isDigit c = true
  noFlag : s.width.head? ≠ some 48
  precision : ∀ p ∈ s.precision, ∀ c ∈ p, isDigit c = true

def Spec.precisionBytes (s : Spec) : List UInt8 :=
  match s.precision with
  | some p => 46 :: p
  | none => []

/-- A specification without its percent sign. -/
def Spec.tail (s : Spec) : List UInt8 :=
  s.flags ++ (s.width ++ (s.precisionBytes ++ (s.length.bytes ++ [s.verb.byte])))

def Spec.bytes (s : Spec) : List UInt8 := 37 :: s.tail

def parseLength : List UInt8 → Length × List UInt8
  | 104 :: 104 :: rest => (.hh, rest)
  | 104 :: rest => (.h, rest)
  | 108 :: 108 :: rest => (.ll, rest)
  | 108 :: rest => (.l, rest)
  | 122 :: rest => (.z, rest)
  | rest => (.default, rest)

def parsePrecision : List UInt8 → Option (List UInt8) × List UInt8
  | 46 :: rest => (some (rest.takeWhile isDigit), rest.dropWhile isDigit)
  | rest => (none, rest)

def parseVerb : List UInt8 → Option Verb
  | [c] => verbs.find? fun v => v.byte = c
  | _ => none

def parseTail (text : List UInt8) : Option Spec :=
  let afterFlags := text.dropWhile isFlag
  let precision := parsePrecision (afterFlags.dropWhile isDigit)
  let length := parseLength precision.2
  (parseVerb length.2).map fun verb =>
    ⟨text.takeWhile isFlag, afterFlags.takeWhile isDigit, precision.1, length.1, verb⟩

def parseSpec : List UInt8 → Option Spec
  | 37 :: text => parseTail text
  | _ => none

def decimalValue (ds : List UInt8) : ℕ := ds.foldl (fun n c => n * 10 + (c.toNat - 48)) 0

def digitByte (upper : Bool) (d : ℕ) : UInt8 :=
  if d < 10 then UInt8.ofNat (48 + d) else UInt8.ofNat ((if upper then 55 else 87) + d)

/-- The digits of `n`, most significant first, in front of `acc`. -/
def radixFrom (upper : Bool) (base : ℕ) : ℕ → ℕ → List UInt8 → List UInt8
  | 0, _, acc => acc
  | k + 1, n, acc =>
    if n < base then digitByte upper (n % base) :: acc
    else radixFrom upper base k (n / base) (digitByte upper (n % base) :: acc)

def radix (upper : Bool) (base n : ℕ) : List UInt8 := radixFrom upper base (n.log2 + 1) n []

def decimal (n : ℕ) : List UInt8 := radix false 10 n

/-- `ds` with at least `n` digits. -/
def zeroPadded (n : ℕ) (ds : List UInt8) : List UInt8 := List.replicate (n - ds.length) 48 ++ ds

namespace Spec

def has (s : Spec) (flag : UInt8) : Bool := s.flags.contains flag

def minWidth (s : Spec) : ℕ := decimalValue s.width

def prec (s : Spec) : Option ℕ := s.precision.map decimalValue

/-- `lead` is the sign or the prefix, which zeros come behind. -/
def padded (s : Spec) (zeros : Bool) (lead body : List UInt8) : List UInt8 :=
  let n := s.minWidth - (lead.length + body.length)
  if s.has 45 then lead ++ body ++ List.replicate n 32
  else if s.has 48 && zeros then lead ++ List.replicate n 48 ++ body
  else List.replicate n 32 ++ lead ++ body

def sign (s : Spec) (negative : Bool) : List UInt8 :=
  if negative then [45] else if s.has 43 then [43] else if s.has 32 then [32] else []

def signed (s : Spec) (v : BitVec 64) : ℤ :=
  match s.length with
  | .default => (v.setWidth 32).toInt
  | .h => (v.setWidth 16).toInt
  | .hh => (v.setWidth 8).toInt
  | _ => v.toInt

def unsigned (s : Spec) (v : BitVec 64) : ℕ :=
  match s.length with
  | .default => (v.setWidth 32).toNat
  | .h => (v.setWidth 16).toNat
  | .hh => (v.setWidth 8).toNat
  | _ => v.toNat

def digits (s : Spec) (upper : Bool) (base n : ℕ) : List UInt8 :=
  if s.prec = some 0 ∧ n = 0 then [] else zeroPadded (s.prec.getD 1) (radix upper base n)

def signedText (s : Spec) (v : BitVec 64) : List UInt8 :=
  s.padded s.precision.isNone (s.sign (s.signed v < 0)) (s.digits false 10 (s.signed v).natAbs)

def unsignedText (s : Spec) (v : BitVec 64) : List UInt8 :=
  s.padded s.precision.isNone [] (s.digits false 10 (s.unsigned v))

def octalText (s : Spec) (v : BitVec 64) : List UInt8 :=
  let ds := s.digits false 8 (s.unsigned v)
  s.padded s.precision.isNone [] (if s.has 35 ∧ ds.head? ≠ some 48 then 48 :: ds else ds)

def hexText (s : Spec) (upper : Bool) (v : BitVec 64) : List UInt8 :=
  s.padded s.precision.isNone
    (if s.has 35 ∧ s.unsigned v ≠ 0 then [48, if upper then 88 else 120] else [])
    (s.digits upper 16 (s.unsigned v))

end Spec

/-- `n / d`, to nearest and ties to even. -/
def divNearest (n d : ℕ) : ℕ :=
  if d < 2 * (n % d) ∨ (d = 2 * (n % d) ∧ n / d % 2 = 1) then n / d + 1 else n / d

def magnitude (bits : BitVec 64) : ℕ × ℕ :=
  let e := bits.toNat / 2 ^ 52 % 2 ^ 11
  let m := bits.toNat % 2 ^ 52 + if e = 0 then 0 else 2 ^ 52
  (m * 2 ^ (max e 1 - 1075), 2 ^ (1075 - max e 1))

/-- The digits before and after the point with `p` of them after it. -/
def fixedDigits (p : ℕ) (v : ℕ × ℕ) : List UInt8 × List UInt8 :=
  (zeroPadded (p + 1) (decimal (divNearest (v.1 * 10 ^ p) v.2))).splitAt
    ((zeroPadded (p + 1) (decimal (divNearest (v.1 * 10 ^ p) v.2))).length - p)

def firstExponent (v : ℕ × ℕ) : ℤ :=
  if v.1 = 0 then 0
  else if v.2 ≤ v.1 then (decimal (v.1 / v.2)).length - 1
  else -(decimal ((v.2 - 1) / v.1)).length

/-- `p + 1` digits as one number, and the exponent of the first of them. -/
def scaled (p : ℕ) (v : ℕ × ℕ) : ℕ × ℤ :=
  let x := firstExponent v
  let q := if x ≤ p then divNearest (v.1 * 10 ^ (p - x).toNat) v.2
    else divNearest v.1 (v.2 * 10 ^ (x - p).toNat)
  if 10 ^ (p + 1) ≤ q then (q / 10, x + 1) else (q, x)

def exponentText (upper : Bool) (x : ℤ) : List UInt8 :=
  [if upper then 69 else 101, if x < 0 then 45 else 43] ++ zeroPadded 2 (decimal x.natAbs)

def strip (ds : List UInt8) : List UInt8 := (ds.reverse.dropWhile (· = 48)).reverse

namespace Spec

/-- A point that nothing comes behind is written with the flag `#` only. -/
def pointed (s : Spec) (parts : List UInt8 × List UInt8) : List UInt8 :=
  parts.1 ++ (if parts.2 ≠ [] ∨ s.has 35 then [46] else []) ++ parts.2

def fixedText (s : Spec) (p : ℕ) (v : ℕ × ℕ) : List UInt8 := s.pointed (fixedDigits p v)

def scientificText (s : Spec) (upper : Bool) (p : ℕ) (v : ℕ × ℕ) : List UInt8 :=
  s.pointed ((zeroPadded (p + 1) (decimal (scaled p v).1)).splitAt 1) ++ exponentText upper (scaled p v).2

def generalText (s : Spec) (upper : Bool) (p : ℕ) (v : ℕ × ℕ) : List UInt8 :=
  let p := max p 1
  let x := (scaled (p - 1) v).2
  let trim := fun parts : List UInt8 × List UInt8 => if s.has 35 then parts else (parts.1, strip parts.2)
  if -4 ≤ x ∧ x < p then s.pointed (trim (fixedDigits (p - 1 - x).toNat v))
  else
    s.pointed (trim ((zeroPadded p (decimal (scaled (p - 1) v).1)).splitAt 1)) ++ exponentText upper x

def finiteText (s : Spec) (v : ℕ × ℕ) : List UInt8 :=
  match s.verb with
  | .e => s.scientificText false (s.prec.getD 6) v
  | .upperE => s.scientificText true (s.prec.getD 6) v
  | .g => s.generalText false (s.prec.getD 6) v
  | .upperG => s.generalText true (s.prec.getD 6) v
  | _ => s.fixedText (s.prec.getD 6) v

/-- `inf` and `nan`, in the case of the verb. -/
def specialText (s : Spec) (infinite : Bool) : List UInt8 :=
  match infinite, decide (s.verb = .upperE ∨ s.verb = .upperG) with
  | true, false => [105, 110, 102]
  | true, true => [73, 78, 70]
  | false, false => [110, 97, 110]
  | false, true => [78, 65, 78]

def doubleText (s : Spec) (bits : BitVec 64) : List UInt8 :=
  if bits.toNat / 2 ^ 52 % 2 ^ 11 = 2047 then
    s.padded false (s.sign bits.msb) (s.specialText (bits.toNat % 2 ^ 52 = 0))
  else s.padded true (s.sign bits.msb) (s.finiteText (magnitude bits))

end Spec

structure CLocale where
  wcrtomb : BitVec 32 → Option (List UInt8)
  portable : ∀ w, w.toNat < 128 → wcrtomb w = some [UInt8.ofNat w.toNat]
  beyond : ∀ w text, 128 ≤ w.toNat → wcrtomb w = some text → ∀ c ∈ text, 128 ≤ c

/-- The locale a program starts in. -/
def posix : CLocale where
  wcrtomb w := if w.toNat < 128 then some [UInt8.ofNat w.toNat] else none
  portable w h := if_pos h
  beyond w text h e := by
    rw [if_neg (Nat.not_lt.mpr h)] at e
    cases e

/-- The character that `%c` prints. -/
def Spec.charText (loc : CLocale) (s : Spec) (v : BitVec 64) : Option (List UInt8) :=
  if s.length.long then loc.wcrtomb (v.setWidth 32) else some [UInt8.ofNat (v.setWidth 8).toNat]

/-- The text of an argument; `v` are the bits of an int, a long or a double. -/
def Spec.text (loc : CLocale) (s : Spec) (v : BitVec 64) : Option (List UInt8) :=
  match s.verb with
  | .d | .i => some (s.signedText v)
  | .u => some (s.unsignedText v)
  | .o => some (s.octalText v)
  | .x => some (s.hexText false v)
  | .upperX => some (s.hexText true v)
  | .c => (s.charText loc v).map (s.padded false [])
  | .s => none
  | _ => some (s.doubleText v)

/-- The length of the result has to fit an int, and so has each number of the specification. -/
def formatted (loc : CLocale) (spec : List UInt8) (v : BitVec 64) : Option (List UInt8) :=
  match parseSpec spec with
  | none => none
  | some s =>
    if 2 ^ 31 ≤ s.minWidth ∨ 2 ^ 31 ≤ s.prec.getD 0 then none
    else (s.text loc v).filter fun text => decide (text.length < 2 ^ 31)

theorem takeWhile_stop {p : UInt8 → Bool} {pre rest : List UInt8} (all : ∀ c ∈ pre, p c = true)
    (stop : ∀ c ∈ rest.head?, p c = false) :
    (pre ++ rest).takeWhile p = pre ∧ (pre ++ rest).dropWhile p = rest := by
  rw [List.takeWhile_append_of_pos all, List.dropWhile_append_of_pos all]
  cases rest with
  | nil => exact ⟨List.append_nil pre, rfl⟩
  | cons c rest =>
    have miss := stop c rfl
    rw [List.takeWhile_cons_of_neg (by rw [miss]; exact Bool.false_ne_true), List.append_nil,
      List.dropWhile_cons_of_neg (by rw [miss]; exact Bool.false_ne_true)]
    exact ⟨rfl, rfl⟩

theorem parseLength_bytes (len : Length) (v : Verb) :
    parseLength (len.bytes ++ [v.byte]) = (len, [v.byte]) := by
  cases len <;> cases v <;> rfl

theorem parseVerb_byte (v : Verb) : parseVerb [v.byte] = some v := by cases v <;> rfl

theorem ending_head (len : Length) (v : Verb) :
    ∀ c ∈ (len.bytes ++ [v.byte]).head?, isFlag c = false ∧ isDigit c = false ∧ c ≠ 46 := by
  intro c hc
  cases len <;> cases v <;> cases hc <;> decide

theorem parsePrecision_bytes {s : Spec} (ok : s.WellFormed) :
    parsePrecision (s.precisionBytes ++ (s.length.bytes ++ [s.verb.byte])) =
      (s.precision, s.length.bytes ++ [s.verb.byte]) := by
  have ending := ending_head s.length s.verb
  unfold Spec.precisionBytes
  cases hp : s.precision with
  | some p =>
    obtain ⟨front, back⟩ := takeWhile_stop (ok.precision p hp) fun c hc => (ending c hc).2.1
    change (some ((p ++ (s.length.bytes ++ [s.verb.byte])).takeWhile isDigit),
      (p ++ (s.length.bytes ++ [s.verb.byte])).dropWhile isDigit) = _
    rw [front, back]
  | none =>
    rw [List.nil_append]
    cases hs : s.length.bytes ++ [s.verb.byte] with
    | nil => rfl
    | cons c rest =>
      rw [hs] at ending
      have other := (ending c rfl).2.2
      unfold parsePrecision
      split
      · rename_i e
        exact absurd (List.cons.inj e).1 other
      · rfl

theorem precision_head (s : Spec) : ∀ c ∈ (s.precisionBytes ++ (s.length.bytes ++ [s.verb.byte])).head?,
    isFlag c = false ∧ isDigit c = false := by
  intro c hc
  unfold Spec.precisionBytes at hc
  cases hp : s.precision with
  | some p =>
    rw [hp] at hc
    cases hc
    exact ⟨rfl, rfl⟩
  | none =>
    rw [hp] at hc
    exact ⟨(ending_head s.length s.verb c hc).1, (ending_head s.length s.verb c hc).2.1⟩

theorem digit_noFlag {c : UInt8} (digit : isDigit c = true) (zero : c ≠ 48) : isFlag c = false := by
  have other : ∀ d, isDigit d = false → c ≠ d := by
    rintro d no rfl
    rw [digit] at no
    cases no
  unfold isFlag
  rw [decide_eq_false (other 45 rfl), decide_eq_false (other 43 rfl), decide_eq_false (other 32 rfl),
    decide_eq_false (other 35 rfl), decide_eq_false zero, decide_eq_false (other 39 rfl)]
  rfl

theorem width_head {s : Spec} (ok : s.WellFormed) :
    ∀ c ∈ (s.width ++ (s.precisionBytes ++ (s.length.bytes ++ [s.verb.byte]))).head?, isFlag c = false := by
  intro c hc
  cases hw : s.width with
  | nil =>
    rw [hw] at hc
    exact (precision_head s c hc).1
  | cons d w =>
    rw [hw] at hc
    cases hc
    have digit := ok.width c (by rw [hw]; exact List.mem_cons_self)
    have zero : c ≠ 48 := fun e => ok.noFlag (by rw [hw, e]; rfl)
    exact digit_noFlag digit zero

theorem parseSpec_bytes {s : Spec} (ok : s.WellFormed) : parseSpec s.bytes = some s := by
  obtain ⟨flags, afterFlags⟩ := takeWhile_stop ok.flags (width_head ok)
  obtain ⟨width, afterWidth⟩ := takeWhile_stop ok.width fun c hc => (precision_head s c hc).2
  change parseTail s.tail = some s
  unfold parseTail Spec.tail
  dsimp only
  rw [flags, afterFlags, width, afterWidth, parsePrecision_bytes ok]
  dsimp only
  rw [parseLength_bytes]
  dsimp only
  rw [parseVerb_byte]
  rfl

def isNumeric (c : UInt8) : Bool :=
  c = 32 || c = 43 || c = 45 || c = 46 || isDigit c || (65 ≤ c && c ≤ 90) || (97 ≤ c && c ≤ 122)

def NumericText (t : List UInt8) : Prop := ∀ c ∈ t, isNumeric c = true

instance (t : List UInt8) : Decidable (NumericText t) := List.decidableBAll (fun c => isNumeric c = true) t

@[simp] theorem numericText_nil : NumericText [] := fun c h => (by cases h)

@[simp] theorem numericText_cons {c : UInt8} {t : List UInt8} :
    NumericText (c :: t) ↔ isNumeric c = true ∧ NumericText t := List.forall_mem_cons

@[simp] theorem numericText_append {t u : List UInt8} :
    NumericText (t ++ u) ↔ NumericText t ∧ NumericText u := List.forall_mem_append

theorem numericText_replicate {c : UInt8} (h : isNumeric c = true) (n : ℕ) :
    NumericText (List.replicate n c) := by
  intro d hd
  rw [List.eq_of_mem_replicate hd]
  exact h

theorem NumericText.sub {t u : List UInt8} (h : NumericText t) (sub : u ⊆ t) : NumericText u :=
  fun c hc => h c (sub hc)

theorem numericText_digit (upper : Bool) {d : ℕ} (h : d < 16) : isNumeric (digitByte upper d) = true := by
  have all : ∀ u : Bool, ∀ d < 16, isNumeric (digitByte u d) = true := by decide
  exact all upper d h

theorem numericText_radixFrom (upper : Bool) {base : ℕ} (pos : 0 < base) (le : base ≤ 16) (k n : ℕ)
    {acc : List UInt8} (h : NumericText acc) : NumericText (radixFrom upper base k n acc) := by
  induction k generalizing n acc with
  | zero => exact h
  | succ k ih =>
    have digit := numericText_digit upper (Nat.lt_of_lt_of_le (Nat.mod_lt n pos) le)
    rw [radixFrom]
    by_cases last : n < base
    · rw [if_pos last]
      exact numericText_cons.mpr ⟨digit, h⟩
    · rw [if_neg last]
      exact ih (n / base) (numericText_cons.mpr ⟨digit, h⟩)

theorem numericText_radix (upper : Bool) {base : ℕ} (pos : 0 < base) (le : base ≤ 16) (n : ℕ) :
    NumericText (radix upper base n) := numericText_radixFrom upper pos le _ n numericText_nil

theorem numericText_zeroPadded (n : ℕ) {ds : List UInt8} (h : NumericText ds) : NumericText (zeroPadded n ds) :=
  numericText_append.mpr ⟨numericText_replicate rfl _, h⟩

theorem numericText_decimal (p n : ℕ) : NumericText (zeroPadded p (decimal n)) :=
  numericText_zeroPadded p (numericText_radix false (by decide) (by decide) n)

namespace Spec

theorem padded_numeric (s : Spec) (zeros : Bool) {lead body : List UInt8} (front : NumericText lead)
    (back : NumericText body) : NumericText (s.padded zeros lead body) := by
  have blanks := fun n => @numericText_replicate 32 rfl n
  have noughts := fun n => @numericText_replicate 48 rfl n
  unfold padded
  dsimp only
  by_cases left : s.has 45 = true
  · rw [if_pos left]
    exact numericText_append.mpr ⟨numericText_append.mpr ⟨front, back⟩, blanks _⟩
  · rw [if_neg left]
    by_cases zero : (s.has 48 && zeros) = true
    · rw [if_pos zero]
      exact numericText_append.mpr ⟨numericText_append.mpr ⟨front, noughts _⟩, back⟩
    · rw [if_neg zero]
      exact numericText_append.mpr ⟨numericText_append.mpr ⟨blanks _, front⟩, back⟩

theorem sign_numeric (s : Spec) (negative : Bool) : NumericText (s.sign negative) := by
  unfold sign
  cases negative <;> cases s.has 43 <;> cases s.has 32 <;> decide

theorem digits_numeric (s : Spec) (upper : Bool) {base : ℕ} (pos : 0 < base) (le : base ≤ 16) (n : ℕ) :
    NumericText (s.digits upper base n) := by
  unfold digits
  by_cases none : s.prec = some 0 ∧ n = 0
  · rw [if_pos none]
    exact numericText_nil
  · rw [if_neg none]
    exact numericText_zeroPadded _ (numericText_radix upper pos le n)

theorem signedText_numeric (s : Spec) (v : BitVec 64) : NumericText (s.signedText v) :=
  s.padded_numeric _ (s.sign_numeric _) (s.digits_numeric false (by decide) (by decide) _)

theorem unsignedText_numeric (s : Spec) (v : BitVec 64) : NumericText (s.unsignedText v) :=
  s.padded_numeric _ numericText_nil (s.digits_numeric false (by decide) (by decide) _)

theorem octalText_numeric (s : Spec) (v : BitVec 64) : NumericText (s.octalText v) := by
  have ds := @digits_numeric s false 8 (by decide) (by decide) (s.unsigned v)
  refine s.padded_numeric _ numericText_nil ?_
  by_cases zero : s.has 35 = true ∧ (s.digits false 8 (s.unsigned v)).head? ≠ some 48
  · rw [if_pos zero]
    exact numericText_cons.mpr ⟨rfl, ds⟩
  · rw [if_neg zero]
    exact ds

theorem hexText_numeric (s : Spec) (upper : Bool) (v : BitVec 64) : NumericText (s.hexText upper v) := by
  refine s.padded_numeric _ ?_ (s.digits_numeric upper (by decide) (by decide) _)
  by_cases zero : s.has 35 = true ∧ s.unsigned v ≠ 0
  · rw [if_pos zero]
    cases upper <;> decide
  · rw [if_neg zero]
    exact numericText_nil

def NumericParts (parts : List UInt8 × List UInt8) : Prop := NumericText parts.1 ∧ NumericText parts.2

theorem splitAt_numeric {t : List UInt8} (h : NumericText t) (n : ℕ) : NumericParts (t.splitAt n) := by
  rw [List.splitAt_eq]
  exact ⟨h.sub (List.take_subset n t), h.sub (List.drop_subset n t)⟩

theorem pointed_numeric (s : Spec) {parts : List UInt8 × List UInt8} (h : NumericParts parts) :
    NumericText (s.pointed parts) := by
  refine numericText_append.mpr ⟨numericText_append.mpr ⟨h.1, ?_⟩, h.2⟩
  by_cases point : parts.2 ≠ [] ∨ s.has 35 = true
  · rw [if_pos point]
    decide
  · rw [if_neg point]
    exact numericText_nil

theorem fixedDigits_numeric (p : ℕ) (v : ℕ × ℕ) : NumericParts (fixedDigits p v) :=
  splitAt_numeric (numericText_decimal _ _) _

theorem exponentText_numeric (upper : Bool) (x : ℤ) : NumericText (exponentText upper x) := by
  refine numericText_append.mpr ⟨?_, numericText_decimal _ _⟩
  by_cases neg : x < 0
  · rw [if_pos neg]
    cases upper <;> decide
  · rw [if_neg neg]
    cases upper <;> decide

theorem scientificText_numeric (s : Spec) (upper : Bool) (p : ℕ) (v : ℕ × ℕ) :
    NumericText (s.scientificText upper p v) :=
  numericText_append.mpr
    ⟨s.pointed_numeric (splitAt_numeric (numericText_decimal _ _) _), exponentText_numeric upper _⟩

theorem generalText_numeric (s : Spec) (upper : Bool) (p : ℕ) (v : ℕ × ℕ) :
    NumericText (s.generalText upper p v) := by
  have trimmed : ∀ parts, NumericParts parts →
      NumericParts (if s.has 35 = true then parts else (parts.1, strip parts.2)) := by
    intro parts h
    by_cases alt : s.has 35 = true
    · rw [if_pos alt]
      exact h
    · rw [if_neg alt]
      refine ⟨h.1, h.2.sub fun c hc => ?_⟩
      exact List.mem_reverse.mp (List.dropWhile_subset _ (List.mem_reverse.mp hc))
  unfold generalText
  dsimp only
  by_cases fixed : -4 ≤ (scaled (max p 1 - 1) v).2 ∧ (scaled (max p 1 - 1) v).2 < (max p 1 : ℕ)
  · rw [if_pos fixed]
    exact s.pointed_numeric (trimmed _ (fixedDigits_numeric _ v))
  · rw [if_neg fixed]
    exact numericText_append.mpr
      ⟨s.pointed_numeric (trimmed _ (splitAt_numeric (numericText_decimal _ _) _)),
        exponentText_numeric upper _⟩

theorem finiteText_numeric (s : Spec) (v : ℕ × ℕ) : NumericText (s.finiteText v) := by
  have fixed := s.pointed_numeric (fixedDigits_numeric (s.prec.getD 6) v)
  unfold finiteText
  cases s.verb with
  | e => exact s.scientificText_numeric false _ v
  | upperE => exact s.scientificText_numeric true _ v
  | g => exact s.generalText_numeric false _ v
  | upperG => exact s.generalText_numeric true _ v
  | d | i | u | x | upperX | o | c | s | f => exact fixed

theorem doubleText_numeric (s : Spec) (bits : BitVec 64) : NumericText (s.doubleText bits) := by
  have special : ∀ infinite, NumericText (s.specialText infinite) := by
    intro infinite
    unfold specialText
    cases infinite <;> cases decide (s.verb = .upperE ∨ s.verb = .upperG) <;> decide
  unfold doubleText
  by_cases out : bits.toNat / 2 ^ 52 % 2 ^ 11 = 2047
  · rw [if_pos out]
    exact s.padded_numeric _ (s.sign_numeric _) (special _)
  · rw [if_neg out]
    exact s.padded_numeric _ (s.sign_numeric _) (s.finiteText_numeric _)

theorem text_numeric {loc : CLocale} {s : Spec} {v : BitVec 64} {t : List UInt8} (number : s.verb ≠ .c)
    (h : s.text loc v = some t) : NumericText t := by
  unfold text at h
  cases hv : s.verb with
  | c => exact absurd hv number
  | s =>
    rw [hv] at h
    cases h
  | d | i =>
    rw [hv] at h
    exact Option.some.inj h ▸ s.signedText_numeric v
  | u =>
    rw [hv] at h
    exact Option.some.inj h ▸ s.unsignedText_numeric v
  | o =>
    rw [hv] at h
    exact Option.some.inj h ▸ s.octalText_numeric v
  | x =>
    rw [hv] at h
    exact Option.some.inj h ▸ s.hexText_numeric false v
  | upperX =>
    rw [hv] at h
    exact Option.some.inj h ▸ s.hexText_numeric true v
  | f | e | g | upperE | upperG =>
    rw [hv] at h
    exact Option.some.inj h ▸ s.doubleText_numeric v

end Spec

end Cerco.PrintfText
