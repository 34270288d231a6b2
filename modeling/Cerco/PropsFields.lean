import Cerco.ByteSearch
import Cerco.ClientDigits
import Cerco.HydrateProps

set_option autoImplicit false

/-!
# Fields of the props

A component reads its props with `cerco_json_int` and `cerco_json_str`. Both find the
quoted key with its colon and read what follows, whatever the rest of the text is.
-/
namespace Cerco.PropsFields
open Cerco.ByteSearch Cerco.CString Cerco.HydrateProps
open Cerco.ClientFetch (strstr)
open Cerco.PrintfText (decimalValue)

def quotedKey (key : Bytes) : Bytes := ascii "\"" ++ key ++ ascii "\":"

def escaped (v : Bytes) : Bytes := v.flatMap fun c => if c = 34 ∨ c = 92 then [92, c] else [c]

/-- The text has one member of this name, a string; around it stands whatever else the object has. -/
structure StringMember (json key v : Bytes) : Prop where
  split : ∃ pre sp post, json = pre ++ quotedKey key ++ (sp ++ (34 :: (escaped v ++ 34 :: post))) ∧
    sp.all (· == 32) = true
  alone : ∀ p q p' q', json = p ++ quotedKey key ++ q → json = p' ++ quotedKey key ++ q' → p = p'
  short : key.length ≤ 123

/-- What the copy loop comes to: the escaped text up to its first quote. -/
def beforeQuote (v : Bytes) : Bytes := (escaped v).takeWhile (· != 34)

def Clean (v : Bytes) : Prop := 34 ∉ v ∧ 92 ∉ v

/-- The literal behind the key: an integer that is not the front of another number. -/
structure IntMember (json key : Bytes) (n : ℤ) : Prop where
  split : ∃ pre post sp neg digits rest, FirstAt (quotedKey key) json pre post ∧
    post = sp ++ ((if neg = true then [45] else []) ++ (digits ++ rest)) ∧ sp.all (· == 32) = true ∧
    digits ≠ [] ∧ digits.all isDigit = true ∧
    (∀ c ∈ rest.head?, isDigit c = false ∧ c ≠ 46 ∧ c ≠ 69 ∧ c ≠ 101) ∧
    n = if neg = true then -(decimalValue digits : ℤ) else decimalValue digits

def afterSign : Bytes → Bytes
  | 45 :: t => t
  | t => t

def unsigned (s : Bytes) : Bytes := afterSign (s.dropWhile (· == 32))

theorem strstr_found {needle s pre post : Bytes} (h : strstr needle s = some (pre, post)) :
    FirstAt needle s pre post := by
  induction s generalizing pre post with
  | nil =>
    rw [strstr] at h
    by_cases empty : needle = []
    · rw [if_pos empty] at h
      cases h
      rw [empty]
      exact firstAt_here List.nil_prefix
    · rw [if_neg empty] at h
      cases h
  | cons c s ih =>
    rw [strstr] at h
    by_cases here : needle.isPrefixOf (c :: s) = true
    · rw [if_pos here] at h
      cases h
      exact firstAt_here (List.isPrefixOf_iff_prefix.mp here)
    · rw [if_neg here] at h
      obtain ⟨cut, found, e⟩ := Option.map_eq_some_iff.mp h
      cases e
      exact firstAt_later (fun h => here (List.isPrefixOf_iff_prefix.mpr h)) (ih found)

theorem strstr_absent {needle s : Bytes} (h : strstr needle s = none) (p q : Bytes) : s ≠ p ++ needle ++ q := by
  induction s generalizing p q with
  | nil =>
    intro e
    have nil := List.append_eq_nil_iff.mp (List.append_eq_nil_iff.mp e.symm).1
    rw [strstr, if_pos nil.2] at h
    cases h
  | cons c s ih =>
    rw [strstr] at h
    by_cases here : needle.isPrefixOf (c :: s) = true
    · rw [if_pos here] at h
      cases h
    · rw [if_neg here, Option.map_eq_none_iff] at h
      exact absent_cons (fun h => here (List.isPrefixOf_iff_prefix.mpr h)) (ih h) p q

theorem strstr_firstAt {needle s pre post : Bytes} :
    strstr needle s = some (pre, post) ↔ FirstAt needle s pre post := by
  constructor
  · exact strstr_found
  · intro h
    cases found : strstr needle s with
    | none => exact absurd h.split (strstr_absent found pre post)
    | some cut =>
      obtain ⟨front, rest⟩ := cut
      obtain ⟨rfl, rfl⟩ := (strstr_found found).unique h
      rfl

theorem keyPattern_short {key : Bytes} (h : key.length ≤ 123) : keyPattern key = some (quotedKey key) :=
  if_neg (by omega)

theorem jsonField_firstAt {json key pre post : Bytes} (short : key.length ≤ 123)
    (h : FirstAt (quotedKey key) json pre post) : jsonField json key = some (post.dropWhile (· == 32)) := by
  rw [jsonField, keyPattern_short short]
  change Option.map _ (strstr (quotedKey key) json) = _
  rw [strstr_firstAt.mpr h]
  rfl

theorem skip_spaces {sp t : Bytes} (h : sp.all (· == 32) = true) :
    (sp ++ t).dropWhile (· == 32) = t.dropWhile (· == 32) := by
  induction sp with
  | nil => rfl
  | cons c sp ih =>
    rw [List.all_cons, Bool.and_eq_true] at h
    rw [List.cons_append, List.dropWhile_cons, if_pos h.1, ih h.2]

theorem escaped_length (v : Bytes) :
    (escaped v).length = v.length + v.countP fun c => c = 34 ∨ c = 92 := by
  induction v with
  | nil => rfl
  | cons c v ih =>
    rw [escaped, List.flatMap_cons, List.length_append, List.length_cons, List.countP_cons, ← escaped, ih]
    by_cases special : c = 34 ∨ c = 92
    · simp only [if_pos special, decide_eq_true_eq, List.length_cons, List.length_nil]
      omega
    · simp only [if_neg special, decide_eq_true_eq, List.length_cons, List.length_nil]
      omega

theorem escaped_clean {v : Bytes} (h : Clean v) : escaped v = v := by
  have same : ∀ c ∈ v, (if c = 34 ∨ c = 92 then [92, c] else [c]) = [c] := by
    intro c hc
    refine if_neg ?_
    rintro (rfl | rfl)
    · exact h.1 hc
    · exact h.2 hc
  rw [escaped, List.flatMap_congr same, List.flatMap_singleton']

theorem quote_escaped {v : Bytes} (h : 34 ∉ v) : 34 ∉ escaped v := by
  intro mem
  obtain ⟨c, hc, at_c⟩ := List.mem_flatMap.mp mem
  have other : c ≠ 34 := fun e => h (e ▸ hc)
  split at at_c
  · rcases List.mem_cons.mp at_c with e | e
    · exact absurd e (by decide)
    · exact other (List.mem_singleton.mp e).symm
  · exact other (List.mem_singleton.mp at_c).symm

theorem takeWhile_noQuote {t : Bytes} (h : 34 ∉ t) : t.takeWhile (· != 34) = t := by
  rw [List.takeWhile_eq_self_iff]
  intro c hc
  exact bne_iff_ne.mpr fun e => h (e ▸ hc)

theorem beforeQuote_free (v : Bytes) : 34 ∉ beforeQuote v := by
  intro h
  exact absurd (List.mem_takeWhile_imp h) (by decide)

theorem beforeQuote_eq (v : Bytes) : beforeQuote v = v ↔ Clean v := by
  constructor
  · intro same
    have quote : 34 ∉ v := same ▸ beforeQuote_free v
    refine ⟨quote, fun slash => ?_⟩
    rw [beforeQuote, takeWhile_noQuote (quote_escaped quote)] at same
    have count := escaped_length v
    rw [same] at count
    have pos : 0 < v.countP fun c => c = 34 ∨ c = 92 :=
      List.countP_pos_iff.mpr ⟨92, slash, by decide⟩
    omega
  · intro clean
    rw [beforeQuote, escaped_clean clean, takeWhile_noQuote clean.1]

theorem escaped_split (v post : Bytes) : ∃ rest, escaped v ++ 34 :: post = beforeQuote v ++ 34 :: rest := by
  have parts := List.takeWhile_append_dropWhile (p := (· != 34)) (l := escaped v)
  cases tail : (escaped v).dropWhile (· != 34) with
  | nil =>
    rw [tail, List.append_nil] at parts
    exact ⟨post, by rw [beforeQuote, parts]⟩
  | cons c s =>
    have stop := List.head_dropWhile_not (· != 34) (l := escaped v) (by rw [tail]; exact List.cons_ne_nil c s)
    simp only [tail, List.head_cons, bne_eq_false_iff_eq] at stop
    refine ⟨s ++ 34 :: post, ?_⟩
    conv_lhs => rw [← parts, tail, stop, List.append_assoc]
    rfl

theorem jsonChars_text {cap : ℕ} {t : Bytes} (free : 34 ∉ t) (rest buf : Bytes) (room : buf.length < cap) :
    jsonChars cap buf (t ++ 34 :: rest) = if buf.length + t.length < cap then some (buf ++ t) else none := by
  induction t generalizing buf with
  | nil =>
    rw [List.nil_append, jsonChars, if_pos rfl, List.length_nil, if_pos (by omega), List.append_nil]
  | cons c t ih =>
    have other : c ≠ 34 := fun e => free (List.mem_cons.mpr (.inl e.symm))
    rw [List.cons_append, jsonChars, if_neg other, List.length_cons]
    by_cases full : cap ≤ buf.length + 1
    · rw [if_pos full, if_neg (by omega)]
    · have grown : (buf ++ [c]).length = buf.length + 1 := by
        rw [List.length_append, List.length_singleton]
      rw [if_neg full, ih (fun h => free (List.mem_cons_of_mem c h)) _ (by omega), grown,
        List.append_assoc, List.singleton_append]
      have sum : buf.length + 1 + t.length = buf.length + (t.length + 1) := by omega
      rw [sum]

theorem cercoJsonStr_member {json key v : Bytes} (h : StringMember json key v) (cap : ℕ) :
    cercoJsonStr json key cap =
      if (beforeQuote v).length < cap then some (beforeQuote v) else none := by
  obtain ⟨pre, sp, post, split, spaces⟩ := h.split
  have first : FirstAt (quotedKey key) json pre (sp ++ (34 :: (escaped v ++ 34 :: post))) := by
    refine ⟨split, fun p q e => ?_⟩
    rw [h.alone pre _ p q split e]
  have field : jsonField json key = some (34 :: (escaped v ++ 34 :: post)) := by
    rw [jsonField_firstAt h.short first, skip_spaces spaces]
    rfl
  by_cases none : cap < 1
  · rw [cercoJsonStr, if_pos none, if_neg (by omega)]
  · obtain ⟨rest, cut⟩ := escaped_split v post
    rw [cercoJsonStr, if_neg none, field]
    change jsonChars cap [] (escaped v ++ 34 :: post) = _
    rw [cut, jsonChars_text (beforeQuote_free v) rest [] (by rw [List.length_nil]; omega), List.length_nil,
      Nat.zero_add, List.nil_append]

/-- A string member is read back as far as it fits exactly if it has no quote and no backslash, or
the buffer is too small for the value and for what the scan stops behind. -/
theorem string_props_round_trip {json key v : Bytes} (h : StringMember json key v) (cap : ℕ) :
    (cercoJsonStr json key cap = if v.length < cap then some v else none) ↔
      Clean v ∨ (cap ≤ v.length ∧ cap ≤ (beforeQuote v).length) := by
  rw [cercoJsonStr_member h]
  constructor
  · intro same
    by_cases fits : v.length < cap
    · rw [if_pos fits] at same
      split at same
      · exact .inl ((beforeQuote_eq v).mp (Option.some.inj same))
      · cases same
    · rw [if_neg fits] at same
      split at same
      · cases same
      · exact .inr ⟨by omega, by omega⟩
  · rintro (clean | ⟨small, scanned⟩)
    · rw [(beforeQuote_eq v).mpr clean]
    · rw [if_neg (by omega), if_neg (by omega)]

theorem alone_at {json needle : Bytes} (k : ℕ)
    (h : (List.range (json.length + 1)).all fun i => (json.drop i).take needle.length != needle || i == k)
    (p q p' q' : Bytes) (e : json = p ++ needle ++ q) (e' : json = p' ++ needle ++ q') : p = p' := by
  have position : ∀ p q : Bytes, json = p ++ needle ++ q → p.length = k := by
    intro p q e
    obtain ⟨occurs, inside⟩ := split_occurs e
    have one := List.all_eq_true.mp h p.length (List.mem_range.mpr (by omega))
    rw [occurs] at one
    simpa using one
  have len : p.length = p'.length := (position p q e).trans (position p' q' e').symm
  have same := e.symm.trans e'
  rw [List.append_assoc, List.append_assoc] at same
  exact (List.append_inj same len).1

def quotedProps : Bytes := ascii "\x7b\"label\":\"say \\\"hi\\\"\"\x7d"

theorem quotedProps_member : StringMember quotedProps (ascii "label") (ascii "say \"hi\"") where
  split := ⟨ascii "\x7b", [], ascii "\x7d", by decide, rfl⟩
  alone := alone_at 1 (by decide)
  short := by decide

/-- The value ends at its first quote, with the backslash in front of it. -/
theorem quote_ends_value :
    StringMember quotedProps (ascii "label") (ascii "say \"hi\"") ∧
      cercoJsonStr quotedProps (ascii "label") 64 = some (ascii "say \\") ∧
      ¬ (cercoJsonStr quotedProps (ascii "label") 64 =
        if (ascii "say \"hi\"").length < 64 then some (ascii "say \"hi\"") else none) :=
  ⟨quotedProps_member, by decide, by decide⟩

def plainProps : Bytes := ascii "\x7b\"id\":25,\"name\":\"pikachu\"\x7d"

theorem plain_string_round_trip :
    (cercoJsonStr plainProps (ascii "name") 8 =
      if (ascii "pikachu").length < 8 then some (ascii "pikachu") else none) ↔
      Clean (ascii "pikachu") ∨ (8 ≤ (ascii "pikachu").length ∧ 8 ≤ (beforeQuote (ascii "pikachu")).length) :=
  string_props_round_trip
    { split := ⟨ascii "\x7b\"id\":25,", [], ascii "\x7d", by decide, rfl⟩
      alone := alone_at 9 (by decide)
      short := by decide } 8

theorem afterSign_plain {s : Bytes} (h : s.head? ≠ some 45) : afterSign s = s := by
  unfold afterSign
  split
  · exact absurd rfl h
  · rfl

theorem IntMember.field {json key : Bytes} {n : ℤ} (h : IntMember json key n) :
    ∃ pre post neg digits rest, FirstAt (quotedKey key) json pre post ∧
      post.dropWhile (· == 32) = (if neg = true then [45] else []) ++ (digits ++ rest) ∧
      unsigned post = digits ++ rest ∧ digits ≠ [] ∧ digits.all isDigit = true ∧
      (∀ c ∈ rest.head?, isDigit c = false) ∧
      n = if neg = true then -(decimalValue digits : ℤ) else decimalValue digits := by
  obtain ⟨pre, post, sp, neg, digits, rest, first, split, spaces, some_digit, all, stop, value⟩ := h.split
  refine ⟨pre, post, neg, digits, rest, first, ?_⟩
  obtain ⟨d, ds, rfl⟩ := List.exists_cons_of_ne_nil some_digit
  have digit : isDigit d = true := List.all_eq_true.mp all d List.mem_cons_self
  have blank : ¬ (d == 32) = true := by
    intro e
    rw [eq_of_beq e] at digit
    exact absurd digit (by decide)
  have skipped : post.dropWhile (· == 32) = (if neg = true then [45] else []) ++ (d :: ds ++ rest) := by
    rw [split, skip_spaces spaces]
    cases neg with
    | false => exact List.dropWhile_cons_of_neg blank
    | true => rfl
  refine ⟨skipped, ?_, some_digit, all, fun c hc => (stop c hc).1, value⟩
  rw [unsigned, skipped]
  cases neg with
  | false =>
    refine afterSign_plain fun minus => ?_
    rw [Option.some.inj (show some d = some 45 from minus)] at digit
    exact absurd digit (by decide)
  | true => rfl

end Cerco.PropsFields
