import Cerco.PercentText

set_option autoImplicit false

/-!
# Flat JSON objects

Objects whose members are strings, with whitespace wherever the grammar allows it,
and the value that belongs to a name.
-/
namespace Cerco.JsonText
open Cerco.PercentText

def isSpace (c : UInt8) : Bool := c = 32 || c = 9 || c = 10 || c = 13

abbrev Space := { w : List UInt8 // ∀ c ∈ w, isSpace c = true }

def noSpace : Space := ⟨[], fun c h => (by cases h)⟩

def isPlain (c : UInt8) : Bool := 32 ≤ c && c ≠ 34 && c ≠ 92

def escapeValue (c : UInt8) : Option UInt8 :=
  if c = 34 ∨ c = 92 ∨ c = 47 then some c
  else if c = 98 then some 8
  else if c = 102 then some 12
  else if c = 110 then some 10
  else if c = 114 then some 13
  else if c = 116 then some 9
  else none

def hexValue (digits : List UInt8) : ℕ := digits.foldl (fun n c => n * 16 + (digitValue c).getD 0) 0

structure CodePoint where
  digits : List UInt8
  four : digits.length = 4
  hex : ∀ c ∈ digits, (digitValue c).isSome = true
  scalar : (hexValue digits).isValidChar
  used : hexValue digits ≠ 0

inductive StringChar
  | plain (c : UInt8) (ok : isPlain c = true)
  | escape (c v : UInt8) (known : escapeValue c = some v)
  | unicode (u : CodePoint)

def StringChar.bytes : StringChar → List UInt8
  | .plain c _ => [c]
  | .escape c _ _ => [92, c]
  | .unicode u => 92 :: 117 :: u.digits

def StringChar.value : StringChar → List UInt8
  | .plain c _ => [c]
  | .escape _ v _ => [v]
  | .unicode u => String.utf8EncodeChar (Char.ofNat (hexValue u.digits))

structure Member where
  name : List UInt8
  plain : ∀ c ∈ name, isPlain c = true
  value : List StringChar
  beforeName : Space
  behindName : Space
  beforeValue : Space
  behindValue : Space

def quoted (text : List UInt8) : List UInt8 := 34 :: (text ++ [34])

def Member.bytes (m : Member) : List UInt8 :=
  m.beforeName.1 ++ quoted m.name ++ m.behindName.1 ++ [58] ++ m.beforeValue.1 ++
    quoted (m.value.flatMap StringChar.bytes) ++ m.behindValue.1

structure FlatObject where
  lead : Space
  inner : Space
  members : List Member
  trail : Space

def commaSeparated : List Member → List UInt8
  | [] => []
  | [m] => m.bytes
  | m :: ms => m.bytes ++ 44 :: commaSeparated ms

/-- `inner` is what an empty object has between its braces. -/
def FlatObject.bytes (o : FlatObject) : List UInt8 :=
  o.lead.1 ++ 123 :: ((if o.members.isEmpty then o.inner.1 else commaSeparated o.members) ++ 125 :: o.trail.1)

/-- The value of the first member with the name. -/
def FlatObject.lookup (o : FlatObject) (name : List UInt8) : Option (List UInt8) :=
  (o.members.find? fun m => m.name = name).map fun m => m.value.flatMap StringChar.value

theorem digit_pos {c : UInt8} (h : (digitValue c).isSome = true) : c ≠ 0 := by
  rintro rfl
  exact absurd h (by decide)

theorem space_pos {c : UInt8} (h : isSpace c = true) : c ≠ 0 := by
  rintro rfl
  cases h

theorem plain_pos {c : UInt8} (h : isPlain c = true) : c ≠ 0 := by
  rintro rfl
  cases h

theorem escape_pos {c v : UInt8} (h : escapeValue c = some v) : c ≠ 0 := by
  rintro rfl
  cases h

theorem space_nulFree (w : Space) : 0 ∉ w.1 := fun h => space_pos (w.2 0 h) rfl

theorem StringChar.nulFree (s : StringChar) : 0 ∉ s.bytes := by
  cases s with
  | plain c ok => exact fun h => plain_pos ok (List.mem_singleton.mp h).symm
  | escape c v known =>
    intro h
    obtain h | h := List.mem_cons.mp h
    · cases h
    · exact escape_pos known (List.mem_singleton.mp h).symm
  | unicode u =>
    intro h
    obtain h | h := List.mem_cons.mp h
    · cases h
    obtain h | h := List.mem_cons.mp h
    · cases h
    · exact digit_pos (u.hex 0 h) rfl

theorem Member.nulFree (m : Member) : 0 ∉ m.bytes := by
  have value : 0 ∉ m.value.flatMap StringChar.bytes := by
    intro h
    obtain ⟨s, _, h⟩ := List.mem_flatMap.mp h
    exact s.nulFree h
  have name : 0 ∉ m.name := fun h => plain_pos (m.plain 0 h) rfl
  have before := space_nulFree m.beforeName
  have behind := space_nulFree m.behindName
  have front := space_nulFree m.beforeValue
  have back := space_nulFree m.behindValue
  unfold bytes quoted
  simp only [List.mem_append, List.mem_cons, List.not_mem_nil, or_false, not_or]
  exact ⟨⟨⟨⟨⟨⟨before, by decide, name, by decide⟩, behind⟩, by decide⟩, front⟩, by decide, value, by decide⟩,
    back⟩

theorem commaSeparated_nulFree (ms : List Member) : 0 ∉ commaSeparated ms := by
  induction ms with
  | nil => exact List.not_mem_nil
  | cons m ms ih =>
    cases ms with
    | nil => exact m.nulFree
    | cons n ms =>
      intro h
      obtain h | h := List.mem_append.mp h
      · exact m.nulFree h
      obtain h | h := List.mem_cons.mp h
      · cases h
      · exact ih h

theorem FlatObject.nulFree (o : FlatObject) : 0 ∉ o.bytes := by
  have middle : 0 ∉ (if o.members.isEmpty then o.inner.1 else commaSeparated o.members) := by
    by_cases empty : o.members.isEmpty = true
    · rw [if_pos empty]
      exact space_nulFree o.inner
    · rw [if_neg empty]
      exact commaSeparated_nulFree o.members
  unfold bytes
  simp only [List.mem_append, List.mem_cons, not_or]
  exact ⟨space_nulFree o.lead, by decide, middle, by decide, space_nulFree o.trail⟩

/-- A colon, a comma or a brace behind whitespace. -/
def Led (u : List UInt8) : Prop :=
  ∃ sp c rest, (∀ d ∈ sp, isSpace d = true) ∧ (c = 58 ∨ c = 44 ∨ c = 125) ∧ u = sp ++ c :: rest

/-- The names and the values of an object, as they are written. -/
def FlatObject.Writes (o : FlatObject) (s : List UInt8) : Prop :=
  ∃ m ∈ o.members, s = m.name ∨ s = m.value.flatMap StringChar.bytes

/-- What stands before a quote and behind it, where `Writes` says which strings are written. -/
inductive QuoteAt (Writes : List UInt8 → Prop) : List UInt8 → List UInt8 → Prop
  | escaped (x u : List UInt8) : QuoteAt Writes (x ++ [92]) u
  | name (x : List UInt8) (c : UInt8) (sp : Space) (mark : c = 123 ∨ c = 44) (u : List UInt8) :
      QuoteAt Writes (x ++ c :: sp.1) u
  | value (x : List UInt8) (sp sp' : Space) (u : List UInt8) : QuoteAt Writes (x ++ 34 :: (sp.1 ++ 58 :: sp'.1)) u
  | closes (x s u : List UInt8) (written : Writes s) (led : Led u) : QuoteAt Writes (x ++ 34 :: s) u

/-- All quotes of `t`, which stands between `x` and `z`. -/
def Quotes (Writes : List UInt8 → Prop) (x t z : List UInt8) : Prop :=
  ∀ front u, t = front ++ 34 :: u → QuoteAt Writes (x ++ front) (u ++ z)

section Quotes
variable {Writes : List UInt8 → Prop} {x t t' z : List UInt8}

theorem quotes_none (free : 34 ∉ t) : Quotes Writes x t z := by
  rintro front u rfl
  exact absurd (List.mem_append_right front List.mem_cons_self) free

theorem Quotes.append (h : Quotes Writes x t (t' ++ z)) (h' : Quotes Writes (x ++ t) t' z) :
    Quotes Writes x (t ++ t') z := by
  intro front u split
  obtain ⟨gap, rfl, back⟩ | ⟨gap, rfl, back⟩ := List.append_eq_append_iff.mp split
  · rw [← List.append_assoc]
    exact h' gap u back
  · cases gap with
    | nil =>
      rw [List.append_nil] at h'
      have here := h' [] u back.symm
      rwa [List.append_nil] at here
    | cons c gap =>
      obtain ⟨rfl, tail⟩ := List.cons.inj back
      rw [show u = gap ++ t' from tail, List.append_assoc]
      exact h front gap rfl

theorem quotes_quoted {s : List UInt8} (begins : ∀ u, QuoteAt Writes x u)
    (inside : ∀ f u, s = f ++ 34 :: u → ∃ f', f = f' ++ [92]) (written : Writes s) (led : Led z) :
    Quotes Writes x (quoted s) z := by
  intro front u split
  cases front with
  | nil =>
    rw [List.append_nil]
    exact begins _
  | cons c front =>
    obtain ⟨rfl, tail⟩ := List.cons.inj split
    obtain rfl | ⟨more, d, rfl⟩ := u.eq_nil_or_concat
    · obtain ⟨rfl, -⟩ := List.append_inj' tail rfl
      exact .closes x s z written led
    · rw [List.concat_eq_append] at tail
      have whole : s ++ [34] = (front ++ 34 :: more) ++ [d] := by
        rw [List.append_assoc]
        exact tail
      obtain ⟨f', rfl⟩ := inside front more (List.append_inj' whole rfl).1
      have here : QuoteAt Writes ((x ++ 34 :: f') ++ [92]) (more.concat d ++ z) := .escaped _ _
      rwa [List.append_assoc, List.cons_append] at here

end Quotes

theorem space_noQuote (w : Space) : 34 ∉ w.1 := fun h => by cases w.2 34 h

/-- A quote stands in a character of a string only behind a backslash. -/
theorem StringChar.escaped (s : StringChar) {f u : List UInt8} (split : s.bytes = f ++ 34 :: u) :
    ∃ f', f = f' ++ [92] := by
  cases s with
  | plain c ok =>
    cases f with
    | nil =>
      obtain ⟨rfl, -⟩ := List.cons.inj split
      cases ok
    | cons d f =>
      have len := congrArg List.length split
      simp [StringChar.bytes] at len
  | escape c v known =>
    cases f with
    | nil => cases (List.cons.inj split).1
    | cons d f =>
      obtain ⟨rfl, rest⟩ := List.cons.inj split
      cases f with
      | nil => exact ⟨[], rfl⟩
      | cons e f =>
        have len := congrArg List.length rest
        simp at len
  | unicode p =>
    have here : 34 ∈ StringChar.bytes (.unicode p) := by
      rw [split]
      exact List.mem_append_right _ List.mem_cons_self
    obtain h | h := List.mem_cons.mp here
    · cases h
    obtain h | h := List.mem_cons.mp h
    · cases h
    · exact absurd (p.hex 34 h) (by decide)

theorem value_escaped (value : List StringChar) (f u : List UInt8)
    (split : value.flatMap StringChar.bytes = f ++ 34 :: u) : ∃ f', f = f' ++ [92] := by
  induction value generalizing f with
  | nil =>
    have len := congrArg List.length split
    simp at len
  | cons s value ih =>
    rw [List.flatMap_cons] at split
    obtain ⟨gap, rfl, back⟩ | ⟨gap, whole, back⟩ := List.append_eq_append_iff.mp split
    · obtain ⟨f', rfl⟩ := ih gap back
      exact ⟨s.bytes ++ f', (List.append_assoc _ _ _).symm⟩
    cases gap with
    | nil =>
      obtain ⟨f', no⟩ := ih [] back.symm
      cases f' <;> cases no
    | cons c gap =>
      obtain ⟨rfl, -⟩ := List.cons.inj back
      exact s.escaped whole

theorem Member.name_noQuote (m : Member) : 34 ∉ m.name := fun h => by cases m.plain 34 h

theorem Member.quotes {Writes : List UInt8 → Prop} (m : Member) (name : Writes m.name)
    (value : Writes (m.value.flatMap StringChar.bytes)) (x : List UInt8) {c : UInt8} (mark : c = 123 ∨ c = 44)
    {d : UInt8} (stop : d = 44 ∨ d = 125) (z : List UInt8) : Quotes Writes (x ++ [c]) m.bytes (d :: z) := by
  have inName : ∀ f u, m.name = f ++ 34 :: u → ∃ f', f = f' ++ [92] := fun f u split =>
    absurd (by rw [split]; exact List.mem_append_right _ List.mem_cons_self) m.name_noQuote
  have colon : ∀ rest, Led (m.behindName.1 ++ [58] ++ rest) := fun rest =>
    ⟨m.behindName.1, 58, rest, m.behindName.2, .inl rfl, by rw [List.append_assoc]; rfl⟩
  have stops : Led (m.behindValue.1 ++ d :: z) := ⟨m.behindValue.1, d, z, m.behindValue.2, .inr stop, rfl⟩
  unfold bytes
  refine .append (.append (.append (.append (.append (.append (quotes_none (space_noQuote _)) ?_)
    (quotes_none (space_noQuote _))) (quotes_none (by decide))) (quotes_none (space_noQuote _))) ?_)
    (quotes_none (space_noQuote _))
  · refine quotes_quoted (fun u => ?_) inName name ?_
    · rw [List.append_assoc]
      exact .name x c m.beforeName mark u
    · have here := colon (m.beforeValue.1 ++ (quoted (m.value.flatMap StringChar.bytes) ++
        (m.behindValue.1 ++ d :: z)))
      simpa only [List.append_assoc] using here
  · refine quotes_quoted (fun u => ?_) (value_escaped m.value) value stops
    have here : QuoteAt Writes ((x ++ [c] ++ m.beforeName.1 ++ 34 :: m.name) ++
        34 :: (m.behindName.1 ++ 58 :: m.beforeValue.1)) u := .value _ m.behindName m.beforeValue u
    simpa only [quoted, List.append_assoc, List.cons_append, List.nil_append] using here

theorem commaSeparated_quotes {Writes : List UInt8 → Prop} (ms : List Member)
    (written : ∀ m ∈ ms, Writes m.name ∧ Writes (m.value.flatMap StringChar.bytes)) (x : List UInt8) {c : UInt8}
    (mark : c = 123 ∨ c = 44) (z : List UInt8) : Quotes Writes (x ++ [c]) (commaSeparated ms) (125 :: z) := by
  induction ms generalizing x c with
  | nil => exact quotes_none List.not_mem_nil
  | cons m ms ih =>
    have first := written m List.mem_cons_self
    cases ms with
    | nil => exact m.quotes first.1 first.2 x mark (.inr rfl) z
    | cons n ms =>
      refine .append (m.quotes first.1 first.2 x mark (.inl rfl) _) ?_
      refine .append (t := [44]) (quotes_none (by decide)) ?_
      exact ih (fun m h => written m (List.mem_cons_of_mem _ h)) _ (.inr rfl)

/-- Every quote of an object is escaped, opens a name or a value or closes one, also where further text
without a quote stands behind the object. -/
theorem FlatObject.quotes (o : FlatObject) {z : List UInt8} (free : 34 ∉ z) :
    Quotes o.Writes [] (o.bytes ++ z) [] := by
  have middle : Quotes o.Writes (o.lead.1 ++ [123])
      (if o.members.isEmpty then o.inner.1 else commaSeparated o.members) (125 :: (o.trail.1 ++ (z ++ []))) := by
    by_cases empty : o.members.isEmpty = true
    · rw [if_pos empty]
      exact quotes_none (space_noQuote _)
    · rw [if_neg empty]
      exact commaSeparated_quotes o.members (fun m h => ⟨⟨m, h, .inl rfl⟩, m, h, .inr rfl⟩) _ (.inl rfl) _
  unfold bytes
  refine .append (.append (quotes_none (space_noQuote _)) ?_) (quotes_none free)
  refine .append (t := [123]) (quotes_none (by decide)) (.append ?_ ?_)
  · simpa only [List.append_assoc, List.cons_append, List.nil_append] using middle
  · exact .append (t := [125]) (quotes_none (by decide)) (quotes_none (space_noQuote _))

end Cerco.JsonText
