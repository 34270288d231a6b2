import Cerco.ByteSearch
import Cerco.JsonText
import Cerco.UrlDecode

set_option autoImplicit false

/-!
# String fields of a JSON body

`cerco_json_string` looks for the name of a field with strstr and decodes the string
behind it. A list of bytes is the memory from an address on; a read behind the list
is the outcome `over`.
-/
namespace Cerco.JsonString
open Cerco.Alloc Cerco.ByteSearch Cerco.CString Cerco.JsonText Cerco.PercentText Cerco.Request

inductive Search
  | over
  | missing
  | found (pre post : Bytes)

/-- `strstr`, with the text before and behind what it found. -/
def strstr (needle : Bytes) : Bytes → Search
  | [] => if needle = [] then .found [] [] else .over
  | c :: t =>
    if needle.isPrefixOf (c :: t) then .found [] ((c :: t).drop needle.length)
    else if c = 0 then .missing
    else
      match strstr needle t with
      | .found pre post => .found (c :: pre) post
      | other => other

def isBlank (c : UInt8) : Bool := c = 32 || c = 9

def skipBlanks (q : Bytes) : Bytes := q.dropWhile isBlank

inductive Header
  | over
  | other
  | opens (text : Bytes)

def header (q : Bytes) : Header :=
  match skipBlanks q with
  | [] => .over
  | c :: q =>
    if c ≠ 58 then .other
    else
      match skipBlanks q with
      | [] => .over
      | c :: q => if c ≠ 34 then .other else .opens q

def hexDigit (h : UInt8) : Option ℕ :=
  if 48 ≤ h ∧ h ≤ 57 then some (h.toNat - 48)
  else if 97 ≤ h ∧ h ≤ 102 then some (h.toNat - 97 + 10)
  else if 65 ≤ h ∧ h ≤ 70 then some (h.toNat - 65 + 10)
  else none

inductive Digits
  | over
  | bad
  | code (cp : ℕ) (q : Bytes)

def hexLoop : ℕ → ℕ → Bytes → Digits
  | 0, cp, q => .code cp q
  | _ + 1, _, [] => .over
  | i + 1, cp, h :: q =>
    if h = 0 then .code cp (h :: q)
    else
      match hexDigit h with
      | some d => hexLoop i (cp * 16 + d) q
      | none => .bad

def utf8 (cp : ℕ) : Bytes :=
  if cp < 0x80 then [UInt8.ofNat cp]
  else if cp < 0x800 then [UInt8.ofNat (0xC0 + cp / 64), UInt8.ofNat (0x80 + cp % 64)]
  else
    [UInt8.ofNat (0xE0 + cp / 4096), UInt8.ofNat (0x80 + cp / 64 % 64), UInt8.ofNat (0x80 + cp % 64)]

def simpleEscape (c : UInt8) : Option UInt8 :=
  if c = 110 then some 10
  else if c = 116 then some 9
  else if c = 114 then some 13
  else if c = 34 then some 34
  else if c = 92 then some 92
  else if c = 47 then some 47
  else none

inductive Decoded
  | over
  | bad
  | text (sb : Bytes)

/-- The loop over a string; each round takes a byte, so there are at most as many as bytes. -/
def stringLoop : ℕ → Bytes → Bytes → Decoded
  | 0, _, _ => .over
  | _ + 1, [], _ => .over
  | n + 1, c :: q, sb =>
    if c = 0 then .bad
    else if c = 34 then .text sb
    else if c = 92 then
      match q with
      | [] => .over
      | e :: q =>
        if e = 0 then stringLoop n (e :: q) (sb ++ [92])
        else
          match simpleEscape e with
          | some d => stringLoop n q (sb ++ [d])
          | none =>
            if e = 117 then
              match hexLoop 4 0 q with
              | .over => .over
              | .bad => .bad
              | .code cp q => stringLoop n q (sb ++ utf8 cp)
            else .bad
    else stringLoop n q (sb ++ [c])

inductive Outcome
  | running
  | over
  | null
  | text (sb : Bytes)
deriving DecidableEq

/-- The loop over the occurrences, at `p` with `prev` before it; `prev` is `none` at the start of the body. -/
def searchLoop (field : Bytes) : ℕ → Option UInt8 → Bytes → Outcome
  | 0, _, _ => .running
  | n + 1, prev, p =>
    match strstr field p with
    | .over => .over
    | .missing => .null
    | .found pre post =>
      if pre.getLast?.or prev = some 34 then searchLoop field n ((pre ++ field).getLast?.or prev) post
      else
        match header post with
        | .over => .over
        | .other => searchLoop field n ((pre ++ field).getLast?.or prev) post
        | .opens q =>
          match stringLoop q.length q [] with
          | .over => .over
          | .bad => .null
          | .text sb => .text sb

/-- `cerco_json_string` before the copy, with the memory that is behind the body. -/
def jsonOutcome (n : ℕ) (r : Req) (behind field : Bytes) : Outcome :=
  match r.body with
  | none => .null
  | some body => searchLoop (cstr field) n none (body ++ behind)

def copyOut (a : Arena) (sb : Bytes) : Option Bytes × Arena := if sb = [] then (some [], a) else arenaStrndup a sb

/-- `cerco_json_string`, if it returns within `n` rounds and does not run out of the memory. -/
def cercoJsonString (n : ℕ) (a : Arena) (r : Req) (behind field : Bytes) : Option (Option Bytes × Arena) :=
  match jsonOutcome n r behind field with
  | .null => some (none, a)
  | .text sb => some (copyOut a sb)
  | _ => none

/-- The bytes of the body are enough, however long it runs. -/
def StaysInside (r : Req) (field : Bytes) : Prop := ∀ n, jsonOutcome n r [] field ≠ .over

def posted (r : Req) (o : FlatObject) : Req := { r with body := some o.bytes }

/-- The member's value, or NULL, where `behind` stands behind the body up to a NUL. -/
def Answers (r : Req) (o : FlatObject) (behind field : Bytes) : Prop :=
  ∃ n, match o.lookup (cstr field) with
    | none => jsonOutcome n (posted r o) (behind ++ [0]) field = .null ∧
        ∀ a, cercoJsonString n a (posted r o) (behind ++ [0]) field = some (none, a)
    | some v => ∃ sb, jsonOutcome n (posted r o) (behind ++ [0]) field = .text sb ∧ cstr sb = v ∧
        ∀ a, (copyOut a sb).2.Served →
          cercoJsonString n a (posted r o) (behind ++ [0]) field = some (some sb, (copyOut a sb).2)

/-- A colon and a quote behind blanks, and then `text`. -/
def Opens (post text : Bytes) : Prop :=
  ∃ b b', (∀ c ∈ b, isBlank c = true) ∧ (∀ c ∈ b', isBlank c = true) ∧ post = b ++ 58 :: (b' ++ 34 :: text)

/-- The first of the occurrences, from left to right without overlaps, that no quote stands before and that
is followed by blanks, a colon, blanks and a quote. -/
inductive Hit (field : Bytes) : Option UInt8 → Bytes → Bytes → Prop
  | here {prev : Option UInt8} {t pre post text : Bytes} (first : FirstAt field t pre post)
      (free : pre.getLast?.or prev ≠ some 34) (opens : Opens post text) : Hit field prev t text
  | later {prev : Option UInt8} {t pre post text : Bytes} (first : FirstAt field t pre post)
      (passed : pre.getLast?.or prev = some 34 ∨ ∀ u, ¬ Opens post u)
      (rest : Hit field ((pre ++ field).getLast?.or prev) post text) : Hit field prev t text

/-- A string up to its quote and what it decodes to, or `none` where an escape is not accepted. -/
inductive StringText : Bytes → Option Bytes → Prop
  | close (more : Bytes) : StringText (34 :: more) (some [])
  | plain {q : Bytes} {v : Option Bytes} (c : UInt8) (ok : c ≠ 34 ∧ c ≠ 92) (rest : StringText q v) :
      StringText (c :: q) (v.map fun v => c :: v)
  | simple {q : Bytes} {v : Option Bytes} (e d : UInt8) (known : simpleEscape e = some d)
      (rest : StringText q v) : StringText (92 :: e :: q) (v.map fun v => d :: v)
  | unicode {q : Bytes} {v : Option Bytes} (digits : Bytes) (four : digits.length = 4)
      (hex : ∀ c ∈ digits, (digitValue c).isSome = true) (rest : StringText q v) :
      StringText (92 :: 117 :: (digits ++ q)) (v.map fun v => utf8 (hexValue digits) ++ v)
  | badEscape (e : UInt8) (more : Bytes) (unknown : simpleEscape e = none) (other : e ≠ 117) :
      StringText (92 :: e :: more) none
  | badDigit (digits : Bytes) (h : UInt8) (more : Bytes) (few : digits.length < 4)
      (hex : ∀ c ∈ digits, (digitValue c).isSome = true) (bad : digitValue h = none) :
      StringText (92 :: 117 :: (digits ++ h :: more)) none

def Rejects (post : Bytes) : Prop :=
  ∃ b c rest, (∀ c ∈ b, isBlank c = true) ∧ isBlank c = false ∧ post = b ++ c :: rest ∧
    (c ≠ 58 ∨ ∃ b' d more, (∀ c ∈ b', isBlank c = true) ∧ isBlank d = false ∧ d ≠ 34 ∧ rest = b' ++ d :: more)

/-- What follows the text considered: nothing, or its terminator. -/
def Ends (z : Bytes) : Prop := ∀ c ∈ z.head?, c = 0

theorem skipBlanks_stop {b : Bytes} (blank : ∀ c ∈ b, isBlank c = true) {c : UInt8} (other : isBlank c = false)
    (q : Bytes) : skipBlanks (b ++ c :: q) = c :: q := by
  unfold skipBlanks
  rw [List.dropWhile_append_of_pos blank, List.dropWhile_cons_of_neg (by rw [other]; exact Bool.false_ne_true)]

theorem skipBlanks_end {b z : Bytes} (blank : ∀ c ∈ b, isBlank c = true) (ends : Ends z) :
    skipBlanks (b ++ z) = z := by
  cases z with
  | nil =>
    rw [List.append_nil]
    exact List.dropWhile_eq_nil_iff.mpr blank
  | cons c w =>
    have nul : c = 0 := ends c rfl
    rw [nul]
    exact skipBlanks_stop blank rfl w

theorem blanks_cases (q : Bytes) : (∀ c ∈ q, isBlank c = true) ∨
    ∃ b c rest, (∀ c ∈ b, isBlank c = true) ∧ isBlank c = false ∧ q = b ++ c :: rest := by
  induction q with
  | nil => exact .inl fun c h => (by cases h)
  | cons c q ih =>
    by_cases blank : isBlank c = true
    · obtain all | ⟨b, d, rest, front, other, rfl⟩ := ih
      · exact .inl (List.forall_mem_cons.mpr ⟨blank, all⟩)
      · exact .inr ⟨c :: b, d, rest, List.forall_mem_cons.mpr ⟨blank, front⟩, other, rfl⟩
    · exact .inr ⟨[], c, q, fun c h => (by cases h), Bool.eq_false_iff.mpr blank, rfl⟩

theorem opens_header {post text : Bytes} (h : Opens post text) (z : Bytes) :
    header (post ++ z) = .opens (text ++ z) := by
  obtain ⟨b, b', blank, blank', rfl⟩ := h
  unfold header
  rw [List.append_assoc, List.cons_append, skipBlanks_stop blank rfl]
  dsimp only
  rw [if_neg (fun h => h rfl), List.append_assoc, List.cons_append, skipBlanks_stop blank' rfl]
  dsimp only
  rw [if_neg (fun h => h rfl)]

theorem Opens.unique {post text text' : Bytes} (h : Opens post text) (h' : Opens post text') : text = text' := by
  have one := opens_header h []
  have two := opens_header h' []
  rw [one, List.append_nil, List.append_nil] at two
  exact Header.opens.inj two

theorem opens_quote {post text : Bytes} (h : Opens post text) : 34 ∈ post := by
  obtain ⟨b, b', _, _, rfl⟩ := h
  exact List.mem_append_right _ (List.mem_cons_of_mem _ (List.mem_append_right _ List.mem_cons_self))

theorem rejects_header {post : Bytes} (h : Rejects post) (z : Bytes) : header (post ++ z) = .other := by
  obtain ⟨b, c, rest, blank, other, rfl, no⟩ := h
  unfold header
  rw [List.append_assoc, List.cons_append, skipBlanks_stop blank other]
  dsimp only
  by_cases colon : c = 58
  · obtain ⟨b', d, more, blank', other', noQuote, rfl⟩ := no.resolve_left fun h => h colon
    rw [if_neg (fun h => h colon), List.append_assoc, List.cons_append, skipBlanks_stop blank' other']
    exact if_pos noQuote
  · rw [if_pos colon]

def Undecided (post : Bytes) : Prop := (∀ u, ¬ Opens post u) ∧ ¬ Rejects post ∧ 34 ∉ post

theorem blank_undecided {post : Bytes} (blank : ∀ c ∈ post, isBlank c = true) : Undecided post := by
  have noQuote : 34 ∉ post := fun h => absurd (blank 34 h) (by decide)
  refine ⟨fun u h => noQuote (opens_quote h), fun ⟨b, c, rest, _, other, split, _⟩ => ?_, noQuote⟩
  have here := blank c (by rw [split]; exact List.mem_append_right _ List.mem_cons_self)
  rw [other] at here
  cases here

theorem colon_undecided {b rest : Bytes} (blank : ∀ c ∈ b, isBlank c = true) (all : ∀ c ∈ rest, isBlank c = true) :
    Undecided (b ++ 58 :: rest) := by
  have noQuote : 34 ∉ b ++ 58 :: rest := by
    intro h
    obtain h | h := List.mem_append.mp h
    · exact absurd (blank 34 h) (by decide)
    obtain h | h := List.mem_cons.mp h
    · cases h
    · exact absurd (all 34 h) (by decide)
  refine ⟨fun u h => noQuote (opens_quote h), fun rejects => ?_, noQuote⟩
  have other := rejects_header rejects []
  unfold header at other
  rw [List.append_nil, skipBlanks_stop blank rfl] at other
  dsimp only at other
  have nothing : skipBlanks rest = [] := List.dropWhile_eq_nil_iff.mpr all
  rw [if_neg (fun h => h rfl), nothing] at other
  cases other

theorem undecided_header {post z : Bytes} (ends : Ends z) (h : (∀ c ∈ post, isBlank c = true) ∨
    ∃ b rest, (∀ c ∈ b, isBlank c = true) ∧ (∀ c ∈ rest, isBlank c = true) ∧ post = b ++ 58 :: rest) :
    header (post ++ z) = if z = [] then .over else .other := by
  have tail : z ≠ [] → ∃ w, z = 0 :: w := by
    intro some_
    obtain ⟨c, w, rfl⟩ := List.exists_cons_of_ne_nil some_
    exact ⟨w, by rw [ends c rfl]⟩
  unfold header
  obtain all | ⟨b, rest, blank, all, rfl⟩ := h
  · rw [skipBlanks_end all ends]
    by_cases none : z = []
    · rw [none, if_pos rfl]
    · obtain ⟨w, rfl⟩ := tail none
      rfl
  · rw [List.append_assoc, List.cons_append, skipBlanks_stop blank rfl]
    dsimp only
    rw [if_neg (fun h => h rfl), skipBlanks_end all ends]
    by_cases none : z = []
    · rw [none, if_pos rfl]
    · obtain ⟨w, rfl⟩ := tail none
      rfl

theorem header_cases (post : Bytes) {z : Bytes} (ends : Ends z) :
    (∃ text, Opens post text ∧ header (post ++ z) = .opens (text ++ z)) ∨
    (Rejects post ∧ (∀ u, ¬ Opens post u) ∧ header (post ++ z) = .other) ∨
    (Undecided post ∧ header (post ++ z) = if z = [] then .over else .other) := by
  have rejected : Rejects post → Rejects post ∧ (∀ u, ¬ Opens post u) ∧ header (post ++ z) = .other := by
    intro rejects
    refine ⟨rejects, fun u opens => ?_, rejects_header rejects z⟩
    have one := opens_header opens []
    rw [rejects_header rejects []] at one
    cases one
  obtain all | ⟨b, c, rest, blank, other, rfl⟩ := blanks_cases post
  · exact .inr (.inr ⟨blank_undecided all, undecided_header ends (.inl all)⟩)
  by_cases colon : c = 58
  · subst colon
    obtain all | ⟨b', d, more, blank', other', rfl⟩ := blanks_cases rest
    · exact .inr (.inr ⟨colon_undecided blank all, undecided_header ends (.inr ⟨b, rest, blank, all, rfl⟩)⟩)
    by_cases quote : d = 34
    · subst quote
      have opens : Opens (b ++ 58 :: (b' ++ 34 :: more)) more := ⟨b, b', blank, blank', rfl⟩
      exact .inl ⟨more, opens, opens_header opens z⟩
    · exact .inr (.inl (rejected ⟨b, 58, _, blank, other, rfl, .inr ⟨b', d, more, blank', other', quote, rfl⟩⟩))
  · exact .inr (.inl (rejected ⟨b, c, rest, blank, other, rfl, .inl colon⟩))

theorem prefix_of_append {f u z : Bytes} (nulFree : 0 ∉ f) (ends : Ends z) (h : f <+: u ++ z) : f <+: u := by
  obtain ⟨w, hw⟩ := h
  obtain ⟨gap, back, front⟩ | ⟨gap, front, back⟩ := List.append_eq_append_iff.mp hw
  · exact ⟨gap, back.symm⟩
  · cases gap with
    | nil => exact ⟨[], by rw [front, List.append_nil, List.append_nil]⟩
    | cons c gap =>
      have nul : c = 0 := ends c (by rw [back]; rfl)
      exact absurd (by rw [front, nul]; exact List.mem_append_right _ List.mem_cons_self) nulFree

theorem strstr_cases {f u z : Bytes} (some_ : f ≠ []) (nulFree : 0 ∉ f) (text : 0 ∉ u) (ends : Ends z) :
    (∃ pre post, FirstAt f u pre post ∧ strstr f (u ++ z) = .found pre (post ++ z)) ∨
    ((∀ p q, u ≠ p ++ f ++ q) ∧ strstr f (u ++ z) = if z = [] then .over else .missing) := by
  induction u with
  | nil =>
    refine .inr ⟨fun p q h => ?_, ?_⟩
    · have len := congrArg List.length h
      simp only [List.length_append, List.length_nil] at len
      exact some_ (List.length_eq_zero_iff.mp (by omega))
    · cases z with
      | nil => exact if_neg some_
      | cons c w =>
        have nul : c = 0 := ends c rfl
        have noPrefix : ¬ f.isPrefixOf (c :: w) = true := by
          intro h
          have here := prefix_of_append (u := []) nulFree ends (List.isPrefixOf_iff_prefix.mp h)
          exact some_ (List.prefix_nil.mp here)
        rw [List.nil_append, strstr, if_neg noPrefix, if_pos nul, if_neg (List.cons_ne_nil c w)]
  | cons c u ih =>
    simp only [List.mem_cons, not_or] at text
    by_cases here : f <+: c :: u
    · refine .inl ⟨[], _, firstAt_here here, ?_⟩
      have whole : f.isPrefixOf (c :: (u ++ z)) = true :=
        List.isPrefixOf_iff_prefix.mpr (here.trans (List.prefix_append (c :: u) z))
      rw [List.cons_append, strstr, if_pos whole, ← List.cons_append,
        List.drop_append_of_le_length here.length_le]
    · have noPrefix : ¬ f.isPrefixOf (c :: (u ++ z)) = true := fun h =>
        here (prefix_of_append nulFree ends (List.isPrefixOf_iff_prefix.mp h))
      have step : strstr f (c :: u ++ z) = match strstr f (u ++ z) with
          | .found pre post => .found (c :: pre) post
          | other => other := by
        rw [List.cons_append, strstr, if_neg noPrefix, if_neg (Ne.symm text.1)]
      rw [step]
      obtain ⟨pre, post, first, found⟩ | ⟨absent, missing⟩ := ih text.2
      · exact .inl ⟨c :: pre, post, firstAt_later here first, by rw [found]⟩
      · refine .inr ⟨absent_cons here absent, ?_⟩
        rw [missing]
        by_cases none : z = []
        · rw [if_pos none]
        · rw [if_neg none]

theorem hexDigit_value (c : UInt8) : hexDigit c = digitValue c := UrlDecode.hexval_digit c

theorem hexLoop_cases (i cp : ℕ) {q z : Bytes} (text : 0 ∉ q) (ends : Ends z) :
    (∃ ds rest, q = ds ++ rest ∧ ds.length = i ∧ (∀ c ∈ ds, (digitValue c).isSome = true) ∧
      hexLoop i cp (q ++ z) = .code (ds.foldl (fun n c => n * 16 + (digitValue c).getD 0) cp) (rest ++ z)) ∨
    (∃ ds h more, q = ds ++ h :: more ∧ ds.length < i ∧ (∀ c ∈ ds, (digitValue c).isSome = true) ∧
      digitValue h = none ∧ hexLoop i cp (q ++ z) = .bad) ∨
    (q.length < i ∧ (∀ c ∈ q, (digitValue c).isSome = true) ∧
      (z = [] ∧ hexLoop i cp (q ++ z) = .over ∨ ∃ w n, z = 0 :: w ∧ hexLoop i cp (q ++ z) = .code n z)) := by
  induction i generalizing cp q with
  | zero => exact .inl ⟨[], q, rfl, rfl, fun c h => (by cases h), rfl⟩
  | succ i ih =>
    cases q with
    | nil =>
      refine .inr (.inr ⟨Nat.succ_pos i, fun c h => (by cases h), ?_⟩)
      cases z with
      | nil => exact .inl ⟨rfl, rfl⟩
      | cons c w =>
        have nul : c = 0 := ends c rfl
        exact .inr ⟨w, cp, by rw [nul], by rw [List.nil_append, hexLoop, if_pos nul]⟩
    | cons c q =>
      simp only [List.mem_cons, not_or] at text
      rw [List.cons_append, hexLoop, if_neg (Ne.symm text.1), hexDigit_value]
      cases value : digitValue c with
      | none =>
        exact .inr (.inl ⟨[], c, q, rfl, Nat.succ_pos i, fun c h => (by cases h), value, rfl⟩)
      | some d =>
        have hex : (digitValue c).isSome = true := by rw [value]; rfl
        dsimp only
        obtain ⟨ds, rest, rfl, len, all, run⟩ | ⟨ds, h, more, rfl, len, all, bad, run⟩ | ⟨len, all, run⟩ :=
          ih (cp * 16 + d) text.2
        · refine .inl ⟨c :: ds, rest, rfl, congrArg Nat.succ len, List.forall_mem_cons.mpr ⟨hex, all⟩, ?_⟩
          rw [run, List.foldl_cons, value]
          rfl
        · exact .inr (.inl ⟨c :: ds, h, more, rfl, Nat.succ_lt_succ len, List.forall_mem_cons.mpr ⟨hex, all⟩,
            bad, run⟩)
        · exact .inr (.inr ⟨Nat.succ_lt_succ len, List.forall_mem_cons.mpr ⟨hex, all⟩, run⟩)

theorem stringText_nil {w : Option Bytes} : ¬ StringText [] w := by
  intro h
  cases h

theorem stringText_mark {w : Option Bytes} : ¬ StringText [92] w := by
  intro h
  generalize ht : [(92 : UInt8)] = t at h
  cases h with
  | close more => cases ht
  | plain c ok rest => exact ok.2 (List.cons.inj ht).1.symm
  | simple e d known rest => cases ht
  | unicode digits four hex rest => cases ht
  | badEscape e more unknown other => cases ht
  | badDigit digits h more few hex bad => cases ht

theorem stringText_close {q : Bytes} {w : Option Bytes} (h : StringText (34 :: q) w) : w = some [] := by
  generalize ht : 34 :: q = t at h
  cases h with
  | close more => rfl
  | plain c ok rest => exact absurd (List.cons.inj ht).1.symm ok.1
  | simple e d known rest => cases (List.cons.inj ht).1
  | unicode digits four hex rest => cases (List.cons.inj ht).1
  | badEscape e more unknown other => cases (List.cons.inj ht).1
  | badDigit digits h more few hex bad => cases (List.cons.inj ht).1

theorem stringText_plain {c : UInt8} (ok : c ≠ 34 ∧ c ≠ 92) {q : Bytes} {w : Option Bytes}
    (h : StringText (c :: q) w) : ∃ v, StringText q v ∧ w = v.map fun v => c :: v := by
  generalize ht : c :: q = t at h
  cases h with
  | close more => exact absurd (List.cons.inj ht).1 ok.1
  | plain d _ rest =>
    obtain ⟨rfl, rfl⟩ := List.cons.inj ht
    exact ⟨_, rest, rfl⟩
  | simple e d known rest => exact absurd (List.cons.inj ht).1 ok.2
  | unicode digits four hex rest => exact absurd (List.cons.inj ht).1 ok.2
  | badEscape e more unknown other => exact absurd (List.cons.inj ht).1 ok.2
  | badDigit digits h more few hex bad => exact absurd (List.cons.inj ht).1 ok.2

theorem stringText_simple {e d : UInt8} (known : simpleEscape e = some d) {q : Bytes} {w : Option Bytes}
    (h : StringText (92 :: e :: q) w) : ∃ v, StringText q v ∧ w = v.map fun v => d :: v := by
  have noCode : e ≠ 117 := by
    rintro rfl
    cases known
  generalize ht : 92 :: e :: q = t at h
  cases h with
  | close more => cases (List.cons.inj ht).1
  | plain d ok rest => exact absurd (List.cons.inj ht).1.symm ok.2
  | simple e' d' known' rest =>
    obtain ⟨rfl, rfl⟩ := List.cons.inj (List.cons.inj ht).2
    obtain rfl := Option.some.inj (known.symm.trans known')
    exact ⟨_, rest, rfl⟩
  | unicode digits four hex rest => exact absurd (List.cons.inj (List.cons.inj ht).2).1 noCode
  | badEscape e' more unknown other =>
    rw [← (List.cons.inj (List.cons.inj ht).2).1, known] at unknown
    cases unknown
  | badDigit digits h more few hex bad => exact absurd (List.cons.inj (List.cons.inj ht).2).1 noCode

theorem stringText_bad {e : UInt8} (unknown : simpleEscape e = none) (other : e ≠ 117) {q : Bytes}
    {w : Option Bytes} (h : StringText (92 :: e :: q) w) : w = none := by
  generalize ht : 92 :: e :: q = t at h
  cases h with
  | close more => cases (List.cons.inj ht).1
  | plain d ok rest => exact absurd (List.cons.inj ht).1.symm ok.2
  | simple e' d known rest =>
    rw [← (List.cons.inj (List.cons.inj ht).2).1, unknown] at known
    cases known
  | unicode digits four hex rest => exact absurd (List.cons.inj (List.cons.inj ht).2).1 other
  | badEscape e' more unknown other => rfl
  | badDigit digits h more few hex bad => rfl

theorem stringText_code {q : Bytes} {w : Option Bytes} (h : StringText (92 :: 117 :: q) w) :
    (∃ ds rest v, q = ds ++ rest ∧ ds.length = 4 ∧ (∀ c ∈ ds, (digitValue c).isSome = true) ∧
      StringText rest v ∧ w = v.map fun v => utf8 (hexValue ds) ++ v) ∨
    ∃ ds c more, q = ds ++ c :: more ∧ ds.length < 4 ∧ digitValue c = none ∧ w = none := by
  generalize ht : 92 :: 117 :: q = t at h
  cases h with
  | close more => cases (List.cons.inj ht).1
  | plain d ok rest => exact absurd (List.cons.inj ht).1.symm ok.2
  | simple e d known rest =>
    rw [← (List.cons.inj (List.cons.inj ht).2).1] at known
    cases known
  | unicode digits four hex rest =>
    exact .inl ⟨digits, _, _, (List.cons.inj (List.cons.inj ht).2).2, four, hex, rest, rfl⟩
  | badEscape e more unknown other => exact absurd (List.cons.inj (List.cons.inj ht).2).1.symm other
  | badDigit digits c more few hex bad =>
    exact .inr ⟨digits, c, more, (List.cons.inj (List.cons.inj ht).2).2, few, bad, rfl⟩

theorem digit_inside {ds rest front more : Bytes} {c : UInt8} (hex : ∀ d ∈ ds, (digitValue d).isSome = true)
    (split : ds ++ rest = front ++ c :: more) (few : front.length < ds.length) : digitValue c ≠ none := by
  intro bad
  obtain ⟨gap, longer, back⟩ | ⟨gap, front_eq, back⟩ := List.append_eq_append_iff.mp split
  · rw [longer, List.length_append] at few
    omega
  · cases gap with
    | nil =>
      rw [front_eq, List.append_nil] at few
      exact absurd few (Nat.lt_irrefl _)
    | cons d gap =>
      have digit := hex d (by rw [front_eq]; exact List.mem_append_right _ List.mem_cons_self)
      rw [← (List.cons.inj back).1, bad] at digit
      cases digit

theorem stringText_unicode {ds rest : Bytes} (four : ds.length = 4) (hex : ∀ c ∈ ds, (digitValue c).isSome = true)
    {w : Option Bytes} (h : StringText (92 :: 117 :: (ds ++ rest)) w) :
    ∃ v, StringText rest v ∧ w = v.map fun v => utf8 (hexValue ds) ++ v := by
  obtain ⟨ds', rest', v, split, four', _, inner, value⟩ | ⟨front, c, more, split, few, bad, _⟩ :=
    stringText_code h
  · obtain ⟨rfl, rfl⟩ := List.append_inj split (four.trans four'.symm)
    exact ⟨v, inner, value⟩
  · exact absurd bad (digit_inside hex split (by omega))

theorem stringText_short {q : Bytes} (short : q.length < 4) (hex : ∀ c ∈ q, (digitValue c).isSome = true)
    {w : Option Bytes} : ¬ StringText (92 :: 117 :: q) w := by
  intro h
  obtain ⟨ds', rest', v, rfl, four', _⟩ | ⟨front, c, more, rfl, few, bad, _⟩ := stringText_code h
  · rw [List.length_append] at short
    omega
  · have digit := hex c (List.mem_append_right _ List.mem_cons_self)
    rw [bad] at digit
    cases digit

theorem stringText_badDigit {ds more : Bytes} {h : UInt8} (few : ds.length < 4) (bad : digitValue h = none)
    {w : Option Bytes} (text : StringText (92 :: 117 :: (ds ++ h :: more)) w) : w = none := by
  obtain ⟨ds', rest', v, split, four, hex, _⟩ | ⟨_, _, _, _, _, _, value⟩ := stringText_code text
  · exact absurd bad (digit_inside hex split.symm (by omega))
  · exact value

def openEnd (z : Bytes) : Decoded := if z = [] then .over else .bad

def decodedAs (sb : Bytes) : Option Bytes → Decoded
  | some v => .text (sb ++ v)
  | none => .bad

theorem decodedAs_map (sb u : Bytes) (v : Option Bytes) :
    decodedAs (sb ++ u) v = decodedAs sb (v.map fun v => u ++ v) := by
  cases v with
  | none => rfl
  | some v => exact congrArg Decoded.text (List.append_assoc sb u v)

theorem stringLoop_end {z : Bytes} (ends : Ends z) {n : ℕ} (fuel : z.length ≤ n) (sb : Bytes) :
    stringLoop n z sb = openEnd z := by
  cases z with
  | nil => cases n <;> rfl
  | cons c w =>
    have nul : c = 0 := ends c rfl
    cases n with
    | zero => exact absurd fuel (Nat.not_succ_le_zero _)
    | succ n =>
      rw [stringLoop.eq_def, openEnd, if_neg (List.cons_ne_nil c w)]
      exact if_pos nul

theorem stringLoop_cases (n : ℕ) {q z sb : Bytes} (fuel : (q ++ z).length ≤ n) (text : 0 ∉ q) (ends : Ends z) :
    (∃ v, (∀ w, StringText q w ↔ w = v) ∧ stringLoop n (q ++ z) sb = decodedAs sb v) ∨
    ((∀ v, ¬ StringText q v) ∧ stringLoop n (q ++ z) sb = openEnd z) := by
  induction n generalizing q sb with
  | zero =>
    rw [List.length_append] at fuel
    have nothing : q = [] := List.length_eq_zero_iff.mp (by omega)
    subst nothing
    exact .inr ⟨fun v => stringText_nil, stringLoop_end ends (by omega) sb⟩
  | succ n ih =>
    cases q with
    | nil => exact .inr ⟨fun v => stringText_nil, stringLoop_end ends fuel sb⟩
    | cons c q =>
      simp only [List.mem_cons, not_or] at text
      rw [List.cons_append, List.length_cons] at fuel
      have fuel := Nat.le_of_succ_le_succ fuel
      rw [List.cons_append, stringLoop.eq_def]
      dsimp only
      rw [if_neg (Ne.symm text.1)]
      by_cases quote : c = 34
      · rw [if_pos quote, quote]
        exact .inl ⟨some [], fun w => ⟨stringText_close, fun e => e ▸ .close q⟩,
          congrArg Decoded.text (List.append_nil sb).symm⟩
      rw [if_neg quote]
      by_cases mark : c = 92
      · rw [if_pos mark, mark]
        cases q with
        | nil =>
          refine .inr ⟨fun v => stringText_mark, ?_⟩
          cases z with
          | nil => rfl
          | cons d w =>
            have nul : d = 0 := ends d rfl
            subst nul
            exact stringLoop_end ends fuel _
        | cons e q =>
          simp only [List.mem_cons, not_or] at text
          rw [List.cons_append, List.length_cons] at fuel
          have shorter : (q ++ z).length ≤ n := Nat.le_of_succ_le fuel
          rw [List.cons_append]
          dsimp only
          rw [if_neg (Ne.symm text.2.1)]
          cases known : simpleEscape e with
          | some d =>
            dsimp only
            obtain ⟨v, only, run⟩ | ⟨no, run⟩ := @ih q (sb ++ [d]) shorter text.2.2
            · refine .inl ⟨_, fun w => ⟨fun h => ?_, fun e' => ?_⟩, run.trans (decodedAs_map sb [d] v)⟩
              · obtain ⟨v', inner, value⟩ := stringText_simple known h
                rw [value, (only v').mp inner]
                rfl
              · exact e' ▸ .simple e d known ((only v).mpr rfl)
            · refine .inr ⟨fun w h => ?_, run⟩
              obtain ⟨v, inner, _⟩ := stringText_simple known h
              exact no v inner
          | none =>
            dsimp only
            by_cases code : e = 117
            · subst code
              rw [if_pos rfl]
              obtain ⟨ds, rest, rfl, four, hex, digits⟩ | ⟨ds, h, more, rfl, few, hex, bad, digits⟩ |
                ⟨short, hex, digits⟩ := hexLoop_cases 4 0 text.2.2 ends
              · rw [digits]
                dsimp only
                have room : (rest ++ z).length ≤ n := by
                  rw [List.append_assoc, List.length_append] at shorter
                  omega
                have inside : 0 ∉ rest := fun h => text.2.2 (List.mem_append_right _ h)
                obtain ⟨v, only, run⟩ | ⟨no, run⟩ := @ih rest (sb ++ utf8 (hexValue ds)) room inside
                · refine .inl ⟨_, fun w => ⟨fun h => ?_, fun e' => ?_⟩, run.trans (decodedAs_map sb _ v)⟩
                  · obtain ⟨v', inner, value⟩ := stringText_unicode four hex h
                    rw [value, (only v').mp inner]
                  · exact e' ▸ .unicode ds four hex ((only v).mpr rfl)
                · refine .inr ⟨fun w h => ?_, run⟩
                  obtain ⟨v, inner, _⟩ := stringText_unicode four hex h
                  exact no v inner
              · rw [digits]
                exact .inl ⟨none, fun w => ⟨stringText_badDigit few bad,
                  fun e' => e' ▸ .badDigit ds h more few hex bad⟩, rfl⟩
              · refine .inr ⟨fun v => stringText_short short hex, ?_⟩
                obtain ⟨none, run⟩ | ⟨w, m, rfl, run⟩ := digits
                · rw [run, none]
                  rfl
                · rw [run]
                  rw [List.length_append] at shorter
                  exact stringLoop_end ends (by omega) _
            · rw [if_neg code]
              exact .inl ⟨none, fun w => ⟨stringText_bad known code, fun e' => e' ▸ .badEscape e q known code⟩,
                rfl⟩
      · rw [if_neg mark]
        obtain ⟨v, only, run⟩ | ⟨no, run⟩ := @ih q (sb ++ [c]) fuel text.2
        · refine .inl ⟨_, fun w => ⟨fun h => ?_, fun e' => ?_⟩, run.trans (decodedAs_map sb [c] v)⟩
          · obtain ⟨v', inner, value⟩ := stringText_plain ⟨quote, mark⟩ h
            rw [value, (only v').mp inner]
            rfl
          · exact e' ▸ .plain c ⟨quote, mark⟩ ((only v).mpr rfl)
        · refine .inr ⟨fun w h => ?_, run⟩
          obtain ⟨v, inner, _⟩ := stringText_plain ⟨quote, mark⟩ h
          exact no v inner

theorem Hit.invert {field : Bytes} {prev : Option UInt8} {t text pre post : Bytes} (h : Hit field prev t text)
    (first : FirstAt field t pre post) :
    (pre.getLast?.or prev ≠ some 34 ∧ Opens post text) ∨
    (pre.getLast?.or prev = some 34 ∨ ∀ u, ¬ Opens post u) ∧
      Hit field ((pre ++ field).getLast?.or prev) post text := by
  cases h with
  | here first' free opens =>
    obtain ⟨rfl, rfl⟩ := first.unique first'
    exact .inl ⟨free, opens⟩
  | later first' passed rest =>
    obtain ⟨rfl, rfl⟩ := first.unique first'
    exact .inr ⟨passed, rest⟩

theorem Hit.occurs {field : Bytes} {prev : Option UInt8} {t text : Bytes} (h : Hit field prev t text) :
    ∃ p q, t = p ++ field ++ q := by
  cases h with
  | here first free opens => exact ⟨_, _, first.split⟩
  | later first passed rest => exact ⟨_, _, first.split⟩

theorem Hit.quote {field : Bytes} {prev : Option UInt8} {t text : Bytes} (h : Hit field prev t text) : 34 ∈ t := by
  induction h with
  | here first free opens =>
    rw [first.split]
    exact List.mem_append_right _ (opens_quote opens)
  | later first passed rest ih =>
    rw [first.split]
    exact List.mem_append_right _ ih

def outcomeOf : Option Bytes → Outcome
  | some v => .text v
  | none => .null

def openSearch (z : Bytes) : Outcome := if z = [] then .over else .null

theorem string_outcome {text z : Bytes} (nulFree : 0 ∉ text) (ends : Ends z) :
    (∃ v, (∀ w, StringText text w ↔ w = v) ∧ (match stringLoop (text ++ z).length (text ++ z) [] with
      | .over => Outcome.over
      | .bad => .null
      | .text sb => .text sb) = outcomeOf v) ∨
    ((∀ v, ¬ StringText text v) ∧ (match stringLoop (text ++ z).length (text ++ z) [] with
      | .over => Outcome.over
      | .bad => .null
      | .text sb => .text sb) = openSearch z) := by
  obtain ⟨v, only, run⟩ | ⟨no, run⟩ := @stringLoop_cases _ text z [] (Nat.le_refl _) nulFree ends
  · rw [run]
    refine .inl ⟨v, only, ?_⟩
    cases v <;> rfl
  · rw [run]
    refine .inr ⟨no, ?_⟩
    unfold openEnd openSearch
    by_cases none : z = []
    · rw [if_pos none, if_pos none]
    · rw [if_neg none, if_neg none]

theorem searchLoop_cases {field : Bytes} (some_ : field ≠ []) (nulFree : 0 ∉ field) (n : ℕ)
    (prev : Option UInt8) {t z : Bytes} (text : 0 ∉ t) (ends : Ends z) :
    (searchLoop field n prev (t ++ z) = .running ∧ n ≤ t.length) ∨
    (∃ u v, (∀ u', Hit field prev t u' ↔ u' = u) ∧ (∀ w, StringText u w ↔ w = v) ∧
      searchLoop field n prev (t ++ z) = outcomeOf v) ∨
    ((∀ u v, Hit field prev t u → ¬ StringText u v) ∧ searchLoop field n prev (t ++ z) = openSearch z) := by
  induction n generalizing prev t with
  | zero => exact .inl ⟨rfl, Nat.zero_le _⟩
  | succ n ih =>
    rw [searchLoop]
    obtain ⟨pre, post, first, found⟩ | ⟨absent, missing⟩ := strstr_cases some_ nulFree text ends
    · rw [found]
      dsimp only
      have inside : 0 ∉ post := fun h => text (by rw [first.split]; exact List.mem_append_right _ h)
      have shorter : post.length < t.length := by
        have pos := List.length_pos_iff.mpr some_
        rw [first.split, List.length_append, List.length_append]
        omega
      -- an occurrence that is passed over leaves the verdict to the rest of the text
      have next : (pre.getLast?.or prev = some 34 ∨ ∀ u, ¬ Opens post u) →
          (searchLoop field n ((pre ++ field).getLast?.or prev) (post ++ z) = .running ∧ n + 1 ≤ t.length) ∨
          (∃ u v, (∀ u', Hit field prev t u' ↔ u' = u) ∧ (∀ w, StringText u w ↔ w = v) ∧
            searchLoop field n ((pre ++ field).getLast?.or prev) (post ++ z) = outcomeOf v) ∨
          ((∀ u v, Hit field prev t u → ¬ StringText u v) ∧
            searchLoop field n ((pre ++ field).getLast?.or prev) (post ++ z) = openSearch z) := by
        intro passed
        have onward : ∀ u, Hit field prev t u → Hit field ((pre ++ field).getLast?.or prev) post u := by
          intro u hit
          obtain ⟨free, opens⟩ | ⟨_, rest⟩ := hit.invert first
          · obtain quote | closed := passed
            · exact absurd quote free
            · exact absurd opens (closed u)
          · exact rest
        obtain ⟨run, le⟩ | ⟨u, v, only, inner, run⟩ | ⟨no, run⟩ :=
          ih ((pre ++ field).getLast?.or prev) inside
        · exact .inl ⟨run, by omega⟩
        · exact .inr (.inl ⟨u, v, fun u' => ⟨fun hit => (only u').mp (onward u' hit),
            fun e => .later first passed ((only u').mpr e)⟩, inner, run⟩)
        · exact .inr (.inr ⟨fun u v hit => no u v (onward u hit), run⟩)
      by_cases quote : pre.getLast?.or prev = some 34
      · rw [if_pos quote]
        exact next (.inl quote)
      · rw [if_neg quote]
        obtain ⟨u, opens, head⟩ | ⟨_, closed, head⟩ | ⟨undecided, head⟩ := header_cases post ends
        · rw [head]
          dsimp only
          have free : 0 ∉ u := by
            obtain ⟨b, b', _, _, rfl⟩ := opens
            exact fun h => inside (List.mem_append_right _
              (List.mem_cons_of_mem _ (List.mem_append_right _ (List.mem_cons_of_mem _ h))))
          have only : ∀ u', Hit field prev t u' ↔ u' = u := by
            refine fun u' => ⟨fun hit => ?_, fun e => e ▸ .here first quote opens⟩
            obtain ⟨_, opens'⟩ | ⟨passed, _⟩ := hit.invert first
            · exact opens'.unique opens
            · exact absurd opens (passed.resolve_left quote u)
          obtain ⟨v, inner, run⟩ | ⟨no, run⟩ := string_outcome free ends
          · exact .inr (.inl ⟨u, v, only, inner, run⟩)
          · exact .inr (.inr ⟨fun u' v hit => (only u').mp hit ▸ no v, run⟩)
        · rw [head]
          exact next (.inr closed)
        · by_cases none : z = []
          · rw [head, if_pos none]
            refine .inr (.inr ⟨fun u v hit => ?_, by rw [openSearch, if_pos none]⟩)
            obtain ⟨_, opens⟩ | ⟨_, rest⟩ := hit.invert first
            · exact absurd opens (undecided.1 u)
            · exact absurd rest.quote undecided.2.2
          · rw [head, if_neg none]
            exact next (.inr undecided.1)
    · refine .inr (.inr ⟨fun u v hit => ?_, ?_⟩)
      · obtain ⟨p, q, split⟩ := hit.occurs
        exact absurd split (absent p q)
      · rw [missing, openSearch]
        by_cases none : z = []
        · rw [if_pos none, if_pos none]
        · rw [if_neg none, if_neg none]

theorem strstr_empty (p : Bytes) : strstr [] p = .found [] p := by cases p <;> rfl

theorem emptyHit {t text : Bytes} (h : Hit [] none t text) : Opens t text := by
  generalize hf : ([] : Bytes) = field at h
  generalize hp : (none : Option UInt8) = prev at h
  induction h with
  | here first free opens =>
    subst hf
    obtain ⟨-, rfl⟩ := (firstAt_here List.nil_prefix).unique first
    exact opens
  | later first passed rest ih =>
    subst hf hp
    obtain ⟨rfl, rfl⟩ := (firstAt_here List.nil_prefix).unique first
    exact ih rfl

theorem emptySearch_succ (n : ℕ) (p : Bytes) : searchLoop [] (n + 1) none p =
    match header p with
    | .over => .over
    | .other => searchLoop [] n none p
    | .opens q =>
      match stringLoop q.length q [] with
      | .over => .over
      | .bad => .null
      | .text sb => .text sb := by
  rw [searchLoop, strstr_empty]
  rfl

theorem emptySearch_running {p : Bytes} (other : header p = .other) (n : ℕ) :
    searchLoop [] n none p = .running := by
  induction n with
  | zero => rfl
  | succ n ih =>
    rw [emptySearch_succ, other]
    exact ih

theorem outcomeOf_inside (v : Option Bytes) : outcomeOf v ≠ .over := by
  cases v <;> exact fun h => (by cases h)

/-- What is known of a body without a NUL. -/
def Settled (body field : Bytes) : Prop :=
  (field = [] ∧ Rejects body) ∨ ∃ u v, Hit field none body u ∧ StringText u v

theorem emptySearch_inside {t z : Bytes} (text : 0 ∉ t) (ends : Ends z) :
    (∀ n, searchLoop [] n none (t ++ z) ≠ .over) ↔ z ≠ [] ∨ Settled t [] := by
  have step := fun n => emptySearch_succ n (t ++ z)
  obtain ⟨u, opens, head⟩ | ⟨rejects, _, head⟩ | ⟨undecided, head⟩ := header_cases t ends
  · have free : 0 ∉ u := by
      obtain ⟨b, b', _, _, rfl⟩ := opens
      exact fun h => text (List.mem_append_right _
        (List.mem_cons_of_mem _ (List.mem_append_right _ (List.mem_cons_of_mem _ h))))
    have hit : Hit [] none t u := .here (firstAt_here List.nil_prefix) (fun h => (by cases h)) opens
    obtain ⟨v, only, run⟩ | ⟨no, run⟩ := string_outcome free ends
    · refine ⟨fun _ => .inr (.inr ⟨u, v, hit, (only v).mpr rfl⟩), fun _ n => ?_⟩
      cases n with
      | zero => exact fun h => (by cases h)
      | succ n =>
        rw [step, head]
        dsimp only
        rw [run]
        exact outcomeOf_inside v
    · have open_ : ∀ n, searchLoop [] (n + 1) none (t ++ z) = openSearch z := fun n => by
        rw [step, head]
        exact run
      constructor
      · intro inside
        by_contra neither
        push Not at neither
        exact inside 1 (by rw [open_, openSearch, if_pos neither.1])
      · rintro (some_ | ⟨_, rejects⟩ | ⟨u', v, hit', inner⟩) n
        · cases n with
          | zero => exact fun h => (by cases h)
          | succ n =>
            rw [open_, openSearch, if_neg some_]
            exact fun h => (by cases h)
        · have other := rejects_header rejects z
          rw [head] at other
          cases other
        · rw [(emptyHit hit').unique opens] at inner
          exact absurd inner (no v)
  · have run := emptySearch_running head
    exact ⟨fun _ => .inr (.inl ⟨rfl, rejects⟩), fun _ n => by rw [run n]; exact fun h => (by cases h)⟩
  · by_cases none : z = []
    · rw [if_pos none] at head
      constructor
      · intro inside
        exact absurd (by rw [step, head]) (inside 1)
      · rintro (some_ | ⟨_, rejects⟩ | ⟨u', v, hit', inner⟩)
        · exact absurd none some_
        · exact absurd rejects undecided.2.1
        · exact absurd (emptyHit hit') (undecided.1 u')
    · rw [if_neg none] at head
      have run := emptySearch_running head
      exact ⟨fun _ => .inl none, fun _ n => by rw [run n]; exact fun h => (by cases h)⟩

theorem search_inside {field : Bytes} (nulFree : 0 ∉ field) {t z : Bytes} (text : 0 ∉ t) (ends : Ends z) :
    (∀ n, searchLoop field n none (t ++ z) ≠ .over) ↔ z ≠ [] ∨ Settled t field := by
  by_cases empty : field = []
  · rw [empty]
    exact emptySearch_inside text ends
  have cases_ := fun n => searchLoop_cases empty nulFree n none text ends
  constructor
  · intro inside
    obtain ⟨_, le⟩ | ⟨u, v, hit, inner, _⟩ | ⟨_, run⟩ := cases_ (t.length + 1)
    · exact absurd le (Nat.not_succ_le_self _)
    · exact .inr (.inr ⟨u, v, (hit u).mpr rfl, (inner v).mpr rfl⟩)
    · refine .inl fun none => inside (t.length + 1) ?_
      rw [run, openSearch, if_pos none]
  · intro settled n
    obtain ⟨run, _⟩ | ⟨_, v, _, _, run⟩ | ⟨no, run⟩ := cases_ n
    · rw [run]
      exact fun h => (by cases h)
    · rw [run]
      exact outcomeOf_inside v
    · rw [run, openSearch]
      obtain some_ | ⟨none, _⟩ | ⟨u, v, hit, inner⟩ := settled
      · rw [if_neg some_]
        exact fun h => (by cases h)
      · exact absurd none empty
      · exact absurd inner (no u v hit)

theorem cstr_split (b : Bytes) : ∃ z, b = cstr b ++ z ∧ Ends z ∧ 0 ∉ cstr b ∧ (z ≠ [] ↔ 0 ∈ b) := by
  have text : 0 ∉ cstr b := fun h => by
    have := List.mem_takeWhile_imp h
    simp at this
  refine ⟨b.dropWhile (· ≠ 0), List.takeWhile_append_dropWhile.symm, ?_, text, ?_⟩
  · intro c hc
    have first := List.head?_dropWhile_not (fun c : UInt8 => decide (c ≠ 0)) b
    rw [hc] at first
    simpa using first
  · constructor
    · intro some_
      by_contra nulFree
      refine some_ (List.dropWhile_eq_nil_iff.mpr fun c hc => ?_)
      simp only [ne_eq, decide_not, Bool.not_eq_eq_eq_not, Bool.not_true, decide_eq_false_iff_not]
      rintro rfl
      exact nulFree hc
    · intro nul none
      have all := List.dropWhile_eq_nil_iff.mp none 0 nul
      simp at all

/-- When the body's own bytes are enough: it has a NUL, or a string opens and ends in it before anything else
is read, or the field is empty and no string opens. -/
theorem reads_inside (r : Req) (field : Bytes) : StaysInside r field ↔
    ∀ body, r.body = some body → 0 ∈ body ∨ Settled body (cstr field) := by
  have nulFree : 0 ∉ cstr field := (cstr_split field).choose_spec.2.2.1
  unfold StaysInside jsonOutcome
  cases hb : r.body with
  | none => exact ⟨fun _ body h => (by cases h), fun _ _ h => (by cases h)⟩
  | some body =>
    dsimp only
    obtain ⟨z, split, ends, text, some_⟩ := cstr_split body
    have inside := search_inside nulFree text ends
    rw [← split, some_] at inside
    rw [List.append_nil, inside]
    have whole : 0 ∉ body → cstr body = body := cstr_of_nulFree
    constructor
    · rintro (nul | settled) _ h
      · exact .inl (Option.some.inj h ▸ nul)
      · obtain rfl := Option.some.inj h
        by_cases nul : 0 ∈ body
        · exact .inl nul
        · exact .inr (whole nul ▸ settled)
    · intro h
      obtain nul | settled := h body rfl
      · exact .inl nul
      · by_cases nul : 0 ∈ body
        · exact .inl nul
        · exact .inr ((whole nul).symm ▸ settled)

/-- A body without a NUL in which the field does not occur is read behind its end. -/
theorem missing_field_overread :
    ¬ StaysInside { reqSetup 0 with body := some (ascii "[]") } (ascii "a") := by
  intro inside
  exact inside 1 (by decide)

/-- An occurrence of the field that no quote stands before opens a string. -/
def FreeOpening (field t : Bytes) : Prop :=
  ∃ p q u, t = p ++ field ++ q ∧ p.getLast? ≠ some 34 ∧ Opens q u

def Coincides (o : FlatObject) (behind field : Bytes) : Prop :=
  field ≠ [] ∧
    match o.lookup field with
    | none => ∀ u v, Hit field none (o.bytes ++ behind) u → ¬ StringText u (some v)
    | some w => ∃ u v, Hit field none (o.bytes ++ behind) u ∧ StringText u (some v) ∧ cstr v = w

theorem Hit.free {field : Bytes} {prev : Option UInt8} {t u : Bytes} (h : Hit field prev t u) :
    ∃ p q, t = p ++ field ++ q ∧ p.getLast?.or prev ≠ some 34 ∧ Opens q u := by
  induction h with
  | here first free opens => exact ⟨_, _, first.split, free, opens⟩
  | @later prev t pre post text first passed rest ih =>
    obtain ⟨p, q, split, free, opens⟩ := ih
    refine ⟨pre ++ field ++ p, q, ?_, ?_, opens⟩
    · rw [first.split, split]
      simp only [List.append_assoc]
    · rwa [List.getLast?_append, Option.or_assoc]

theorem closed_noHit {field t : Bytes} (closed : ¬ FreeOpening field t) (u : Bytes) : ¬ Hit field none t u := by
  intro hit
  obtain ⟨p, q, split, free, opens⟩ := hit.free
  rw [Option.or_none] at free
  exact closed ⟨p, q, u, split, free, opens⟩

theorem blank_space {b : Bytes} (blank : ∀ c ∈ b, isBlank c = true) : ∀ c ∈ b, isSpace c = true := by
  intro c h
  have here := blank c h
  simp only [isBlank, isSpace, Bool.or_eq_true, decide_eq_true_eq] at here ⊢
  exact .inl (.inl here)

theorem lastMark_unique {x y sp sp' : Bytes} {c d : UInt8} (space : ∀ a ∈ sp, isSpace a = true)
    (space' : ∀ a ∈ sp', isSpace a = true) (mark : isSpace c = false) (mark' : isSpace d = false)
    (same : x ++ c :: sp = y ++ d :: sp') : x = y ∧ c = d := by
  obtain ⟨gap, rfl, back⟩ | ⟨gap, rfl, back⟩ := List.append_eq_append_iff.mp same
  · cases gap with
    | nil => exact ⟨(List.append_nil x).symm, (List.cons.inj back).1⟩
    | cons a gap =>
      obtain ⟨rfl, rfl⟩ := List.cons.inj back
      rw [space d (List.mem_append_right _ List.mem_cons_self)] at mark'
      cases mark'
  · cases gap with
    | nil => exact ⟨List.append_nil y, (List.cons.inj back).1.symm⟩
    | cons a gap =>
      obtain ⟨rfl, rfl⟩ := List.cons.inj back
      rw [space' c (List.mem_append_right _ List.mem_cons_self)] at mark
      cases mark

theorem behind_quote {x y tail rest : Bytes} (free : 34 ∉ tail) (same : x ++ 34 :: rest = y ++ tail) :
    ∃ front, y = x ++ 34 :: front ∧ rest = front ++ tail := by
  obtain ⟨gap, rfl, back⟩ | ⟨gap, rfl, back⟩ := List.append_eq_append_iff.mp same
  · cases gap with
    | nil => exact absurd (by rw [show tail = 34 :: rest from back.symm]; exact List.mem_cons_self) free
    | cons a gap =>
      obtain ⟨rfl, rfl⟩ := List.cons.inj back
      exact ⟨gap, rfl, rfl⟩
  · exact absurd (by rw [back]; exact List.mem_append_right _ List.mem_cons_self) free

/-- Where a field that is not blank opens a string in an object, a string of the object has just ended. -/
theorem opening_ends (o : FlatObject) {field behind p q u : Bytes} (noQuote : 34 ∉ field)
    (shown : ∃ c ∈ field, isSpace c = false) (free : 34 ∉ behind)
    (split : o.bytes ++ behind = p ++ field ++ q) (opens : Opens q u) :
    Led u ∧ ∃ x s b b', o.Writes s ∧ (∀ c ∈ b, isBlank c = true) ∧ (∀ c ∈ b', isBlank c = true) ∧
      x ++ 34 :: s = p ++ (field ++ b ++ 58 :: b') := by
  obtain ⟨b, b', blank, blank', rfl⟩ := opens
  have quote := o.quotes free (p ++ (field ++ b ++ 58 :: b')) u
    (by rw [split]; simp only [List.append_assoc, List.cons_append])
  have space' := blank_space blank'
  have regroup : p ++ (field ++ b ++ 58 :: b') = (p ++ (field ++ b)) ++ 58 :: b' := (List.append_assoc _ _ _).symm
  rw [List.nil_append, List.append_nil] at quote
  generalize front_eq : p ++ (field ++ b ++ 58 :: b') = front at quote
  rw [regroup] at front_eq
  cases quote with
  | escaped x _ => cases (lastMark_unique space' (by simp) rfl rfl front_eq).2
  | name x c sp mark _ =>
    obtain rfl | rfl := mark <;> cases (lastMark_unique space' sp.2 rfl rfl front_eq).2
  | value x sp sp' _ =>
    have same : (p ++ (field ++ b)) ++ 58 :: b' = (x ++ 34 :: sp.1) ++ 58 :: sp'.1 := by
      rw [front_eq, List.append_assoc]
      rfl
    have before := (lastMark_unique space' sp'.2 rfl rfl same).1
    have clear : 34 ∉ field ++ b := fun h =>
      (List.mem_append.mp h).elim noQuote fun h => absurd (blank 34 h) (by decide)
    obtain ⟨_, _, run⟩ := behind_quote clear before.symm
    obtain ⟨c, inside, other⟩ := shown
    rw [sp.2 c (by rw [run]; exact List.mem_append_right _ (List.mem_append_left _ inside))] at other
    cases other
  | closes x s _ written led => exact ⟨led, x, s, b, b', written, blank, blank', by rw [regroup, front_eq]⟩

/-- The string ends in the field and a colon, among blanks, and has something before them. -/
def EndsIn (field s : Bytes) : Prop :=
  ∃ pre b b', pre ≠ [] ∧ (∀ c ∈ b, isBlank c = true) ∧ (∀ c ∈ b', isBlank c = true) ∧
    s = pre ++ (field ++ b ++ 58 :: b')

theorem ordinary_closed (o : FlatObject) {field behind : Bytes} (noQuote : 34 ∉ field)
    (shown : ∃ c ∈ field, isSpace c = false) (free : 34 ∉ behind) (ordinary : ∀ s, o.Writes s → ¬ EndsIn field s) :
    ¬ FreeOpening field (o.bytes ++ behind) := by
  rintro ⟨p, q, u, split, before, opens⟩
  obtain ⟨_, x, s, b, b', written, blank, blank', same⟩ := opening_ends o noQuote shown free split opens
  have clear : 34 ∉ field ++ b ++ 58 :: b' := by
    simp only [List.mem_append, List.mem_cons, not_or]
    exact ⟨⟨noQuote, fun h => absurd (blank 34 h) (by decide)⟩, by decide, fun h => absurd (blank' 34 h) (by decide)⟩
  obtain ⟨pre, rfl, rfl⟩ := behind_quote clear same
  refine ordinary _ written ⟨pre, b, b', ?_, blank, blank', rfl⟩
  rintro rfl
  exact before List.getLast?_concat

theorem led_decoded {u v : Bytes} (led : Led u) (text : StringText u (some v)) : Led v := by
  obtain ⟨sp, c, rest, space, mark, rfl⟩ := led
  have step : ∀ {d : UInt8} {q w : Bytes}, d ≠ 34 ∧ d ≠ 92 → StringText (d :: q) (some w) →
      ∃ w', StringText q (some w') ∧ w = d :: w' := by
    intro d q w ok text
    obtain ⟨w', inner, value⟩ := stringText_plain ok text
    cases w' with
    | none => cases value
    | some w' => exact ⟨w', inner, Option.some.inj value⟩
  induction sp generalizing v with
  | nil =>
    have ok : c ≠ 34 ∧ c ≠ 92 := by obtain rfl | rfl | rfl := mark <;> decide
    obtain ⟨w, _, rfl⟩ := step ok text
    exact ⟨[], c, w, fun d h => (by cases h), mark, rfl⟩
  | cons d sp ih =>
    have here := space d List.mem_cons_self
    have ok : d ≠ 34 ∧ d ≠ 92 := by
      constructor <;> rintro rfl <;> cases here
    obtain ⟨w, inner, rfl⟩ := step ok text
    obtain ⟨sp', c', rest', space', mark', rfl⟩ := ih (fun a h => space a (List.mem_cons_of_mem _ h)) inner
    exact ⟨d :: sp', c', rest', List.forall_mem_cons.mpr ⟨here, space'⟩, mark', rfl⟩

theorem led_cstr {v : Bytes} (led : Led v) : Led (cstr v) := by
  obtain ⟨sp, c, rest, space, mark, rfl⟩ := led
  have pos : c ≠ 0 := by obtain rfl | rfl | rfl := mark <;> decide
  refine ⟨sp, c, cstr rest, space, mark, ?_⟩
  unfold cstr
  rw [List.takeWhile_append_of_pos fun d h => decide_eq_true (space_pos (space d h))]
  exact congrArg (sp ++ ·) (List.takeWhile_cons_of_pos (p := fun d : UInt8 => decide (d ≠ 0)) (decide_eq_true pos))

theorem lookup_plain {o : FlatObject} {field w : Bytes} (h : o.lookup field = some w) : 34 ∉ field := by
  obtain ⟨m, found, -⟩ := Option.map_eq_some_iff.mp h
  have name : m.name = field := by simpa using List.find?_some found
  exact name ▸ m.name_noQuote

theorem object_rejects (o : FlatObject) : Rejects o.bytes := by
  unfold FlatObject.bytes
  obtain all | ⟨b, c, rest, blank, other, split⟩ := blanks_cases o.lead.1
  · exact ⟨o.lead.1, 123, _, all, rfl, rfl, .inl (by decide)⟩
  · refine ⟨b, c, _, blank, other, by rw [split, List.append_assoc, List.cons_append], .inl ?_⟩
    have space := o.lead.2 c (by rw [split]; exact List.mem_append_right _ List.mem_cons_self)
    rintro rfl
    cases space

theorem terminated_split (body behind : Bytes) (nulFree : 0 ∉ body) :
    ∃ z, body ++ (behind ++ [0]) = (body ++ cstr behind) ++ z ∧ Ends z ∧ z ≠ [] ∧ 0 ∉ body ++ cstr behind := by
  obtain ⟨z, split, ends, text, _⟩ := cstr_split behind
  refine ⟨z ++ [0], ?_, ?_, List.append_ne_nil_of_right_ne_nil z (List.cons_ne_nil 0 []), ?_⟩
  · conv_lhs => rw [split]
    simp only [List.append_assoc]
  · cases z with
    | nil => exact fun c h => (Option.some.inj h).symm
    | cons d z => exact fun c h => ends c h
  · exact fun h => (List.mem_append.mp h).elim nulFree text

theorem copyOut_served {a : Arena} {sb : Bytes} (served : (copyOut a sb).2.Served) : (copyOut a sb).1 = some sb := by
  unfold copyOut at served ⊢
  by_cases empty : sb = []
  · rw [if_pos empty, empty]
  · rw [if_neg empty] at served ⊢
    unfold arenaStrndup at served ⊢
    split at served
    · rfl
    · rename_i failed
      have lost := @arenaAlloc_served a (sb.length + 1) (by rw [failed]; exact served)
      rw [failed] at lost
      exact Bool.noConfusion lost.2

/-- The empty name keeps the loop running. -/
theorem jsonOutcome_empty (r : Req) (o : FlatObject) (behind : Bytes) {field : Bytes} (empty : cstr field = [])
    (n : ℕ) : jsonOutcome n (posted r o) (behind ++ [0]) field = .running := by
  obtain ⟨z, split, _⟩ := terminated_split o.bytes behind o.nulFree
  change searchLoop (cstr field) n none (o.bytes ++ (behind ++ [0])) = .running
  rw [split, empty, List.append_assoc]
  exact emptySearch_running (rejects_header (object_rejects o) _) n

theorem jsonOutcome_cases (r : Req) (o : FlatObject) (behind : Bytes) {field : Bytes} (shown : cstr field ≠ [])
    (n : ℕ) :
    (jsonOutcome n (posted r o) (behind ++ [0]) field = .running ∧ n ≤ (o.bytes ++ cstr behind).length) ∨
    (∃ u v, (∀ u', Hit (cstr field) none (o.bytes ++ cstr behind) u' ↔ u' = u) ∧
      (∀ w, StringText u w ↔ w = v) ∧ jsonOutcome n (posted r o) (behind ++ [0]) field = outcomeOf v) ∨
    ((∀ u v, Hit (cstr field) none (o.bytes ++ cstr behind) u → ¬ StringText u v) ∧
      jsonOutcome n (posted r o) (behind ++ [0]) field = .null) := by
  obtain ⟨_, _, _, nulFree, _⟩ := cstr_split field
  obtain ⟨z, split, ends, some_, text⟩ := terminated_split o.bytes behind o.nulFree
  have null : openSearch z = .null := if_neg some_
  have out : jsonOutcome n (posted r o) (behind ++ [0]) field =
      searchLoop (cstr field) n none ((o.bytes ++ cstr behind) ++ z) := by
    rw [← split]
    rfl
  rw [out, ← null]
  exact searchLoop_cases shown nulFree n none text ends

theorem null_coincides (r : Req) (o : FlatObject) (behind : Bytes) {field : Bytes} :
    (∃ n, jsonOutcome n (posted r o) (behind ++ [0]) field = .null) ↔ cstr field ≠ [] ∧
      ∀ u v, Hit (cstr field) none (o.bytes ++ cstr behind) u → ¬ StringText u (some v) := by
  by_cases empty : cstr field = []
  · refine ⟨fun ⟨n, h⟩ => ?_, fun h => absurd empty h.1⟩
    rw [jsonOutcome_empty r o behind empty] at h
    cases h
  constructor
  · rintro ⟨n, h⟩
    refine ⟨empty, fun u' v' hit' text' => ?_⟩
    obtain ⟨run, _⟩ | ⟨u, v, hit, text, run⟩ | ⟨no, _⟩ := jsonOutcome_cases r o behind empty n
    · rw [run] at h
      cases h
    · rw [(hit u').mp hit'] at text'
      rw [run, ← (text _).mp text'] at h
      cases h
    · exact no u' _ hit' text'
  · rintro ⟨_, none_⟩
    refine ⟨(o.bytes ++ cstr behind).length + 1, ?_⟩
    obtain ⟨_, le⟩ | ⟨u, v, hit, text, run⟩ | ⟨_, run⟩ :=
      jsonOutcome_cases r o behind empty ((o.bytes ++ cstr behind).length + 1)
    · exact absurd le (Nat.not_succ_le_self _)
    · rw [run]
      cases v with
      | none => rfl
      | some v => exact absurd ((text _).mpr rfl) (none_ u v ((hit u).mpr rfl))
    · exact run

theorem text_coincides (r : Req) (o : FlatObject) (behind : Bytes) {field v : Bytes} :
    (∃ n, jsonOutcome n (posted r o) (behind ++ [0]) field = .text v) ↔ cstr field ≠ [] ∧
      ∃ u, Hit (cstr field) none (o.bytes ++ cstr behind) u ∧ StringText u (some v) := by
  by_cases empty : cstr field = []
  · refine ⟨fun ⟨n, h⟩ => ?_, fun h => absurd empty h.1⟩
    rw [jsonOutcome_empty r o behind empty] at h
    cases h
  constructor
  · rintro ⟨n, h⟩
    refine ⟨empty, ?_⟩
    obtain ⟨run, _⟩ | ⟨u, w, hit, text, run⟩ | ⟨_, run⟩ := jsonOutcome_cases r o behind empty n
    · rw [run] at h
      cases h
    · rw [run] at h
      cases w with
      | none => cases h
      | some w =>
        cases h
        exact ⟨u, (hit u).mpr rfl, (text _).mpr rfl⟩
    · rw [run] at h
      cases h
  · rintro ⟨_, u', hit', text'⟩
    refine ⟨(o.bytes ++ cstr behind).length + 1, ?_⟩
    obtain ⟨_, le⟩ | ⟨u, w, hit, text, run⟩ | ⟨no, _⟩ :=
      jsonOutcome_cases r o behind empty ((o.bytes ++ cstr behind).length + 1)
    · exact absurd le (Nat.not_succ_le_self _)
    · rw [(hit u').mp hit'] at text'
      rw [run, ← (text _).mp text']
      rfl
    · exact absurd text' (no u' _ hit')

theorem answers_coincide (r : Req) (o : FlatObject) (behind field : Bytes) :
    Answers r o behind field ↔ Coincides o (cstr behind) (cstr field) := by
  unfold Answers Coincides
  cases o.lookup (cstr field) with
  | none =>
    refine Iff.trans ?_ (null_coincides r o behind)
    exact ⟨fun ⟨n, h⟩ => ⟨n, h.1⟩, fun ⟨n, h⟩ => ⟨n, h, fun a => by rw [cercoJsonString, h]⟩⟩
  | some w =>
    constructor
    · rintro ⟨n, v, h, same, _⟩
      obtain ⟨shown, u, hit, text⟩ := (text_coincides r o behind).mp ⟨n, h⟩
      exact ⟨shown, u, v, hit, text, same⟩
    · rintro ⟨shown, u, v, hit, text, same⟩
      obtain ⟨n, h⟩ := (text_coincides r o behind).mpr ⟨shown, u, hit, text⟩
      refine ⟨n, v, h, same, fun a served => ?_⟩
      rw [cercoJsonString, h, ← copyOut_served served]

theorem closed_answers (r : Req) (o : FlatObject) (behind field : Bytes)
    (closed : ¬ FreeOpening (cstr field) (o.bytes ++ cstr behind)) :
    Answers r o behind field ↔ cstr field ≠ [] ∧ o.lookup (cstr field) = none := by
  rw [answers_coincide]
  refine and_congr_right fun _ => ?_
  cases found : o.lookup (cstr field) with
  | none => exact ⟨fun _ => rfl, fun _ u v hit => absurd hit (closed_noHit closed u)⟩
  | some w => exact ⟨fun ⟨u, _, hit, _⟩ => absurd hit (closed_noHit closed u), fun h => by cases h⟩

/-- A field without a quote, in an object none of whose strings ends in it and a colon: the answer is right
where there is no such member. -/
theorem ordinary_answers (r : Req) (o : FlatObject) {behind field : Bytes} (noQuote : 34 ∉ cstr field)
    (shown : ∃ c ∈ cstr field, isSpace c = false) (free : 34 ∉ cstr behind)
    (ordinary : ∀ s, o.Writes s → ¬ EndsIn (cstr field) s) :
    Answers r o behind field ↔ o.lookup (cstr field) = none := by
  rw [closed_answers r o behind field (ordinary_closed o noQuote shown free ordinary)]
  refine and_iff_right fun empty => ?_
  obtain ⟨c, inside, _⟩ := shown
  rw [empty] at inside
  cases inside

/-- When the field of a posted object is answered: where it only opens a string behind a quote, as a name does,
when it is no member's name; and a member is not, unless its value begins like the text between two strings. -/
theorem json_string_answers (r : Req) (o : FlatObject) (behind field : Bytes) :
    (¬ FreeOpening (cstr field) (o.bytes ++ cstr behind) →
      (Answers r o behind field ↔ cstr field ≠ [] ∧ o.lookup (cstr field) = none)) ∧
    ∀ w, o.lookup (cstr field) = some w → (∃ c ∈ cstr field, isSpace c = false) → 34 ∉ cstr behind → ¬ Led w →
      ¬ Answers r o behind field := by
  refine ⟨closed_answers r o behind field, fun w found shown free plain answers => plain ?_⟩
  obtain ⟨_, here⟩ := (answers_coincide r o behind field).mp answers
  rw [found] at here
  obtain ⟨u, v, hit, text, rfl⟩ := here
  obtain ⟨p, q, split, _, opens⟩ := hit.free
  exact led_cstr (led_decoded (opening_ends o (lookup_plain found) shown free split opens).1 text)

def adaMember : Member :=
  ⟨ascii "name", List.all_eq_true.mp (by decide), [.plain 97 rfl, .plain 100 rfl, .plain 97 rfl], noSpace,
    noSpace, noSpace, noSpace⟩

def adaObject : FlatObject := ⟨noSpace, noSpace, [adaMember], noSpace⟩

/-- The field of an ordinary object is not found: a quote stands before its name. -/
theorem ada_not_found : ¬ Answers (reqSetup 0) adaObject [] (ascii "name") := by
  rintro ⟨n, h⟩
  obtain ⟨sb, h, _⟩ := h
  have two : ∀ n, jsonOutcome (n + 2) (posted (reqSetup 0) adaObject) ([] ++ [0]) (ascii "name") = .null :=
    fun n => rfl
  cases n with
  | zero => cases h
  | succ n =>
    cases n with
    | zero => cases h
    | succ n =>
      rw [two] at h
      cases h

end Cerco.JsonString
