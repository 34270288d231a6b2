import Cerco.Request
import Mathlib.Algebra.Group.Int.Defs
import Mathlib.Algebra.Group.Nat.Defs
import Mathlib.Data.List.GetD
import Mathlib.Data.List.TakeWhile

set_option autoImplicit false

/-!
# Cookie lookup

`cerco_cookie` goes over the Cookie header item by item and looks for `=` and `;`
in everything that is left.
-/
namespace Cerco.Cookies
open Cerco.Alloc Cerco.CString Cerco.Request

def isBlank (c : UInt8) : Bool := c == 32 || c == 9

/-- `(int)n` for a size_t. -/
def asInt (n : ℕ) : ℤ := if n % 2 ^ 32 < 2 ^ 31 then (n % 2 ^ 32 : ℕ) else (n % 2 ^ 32 : ℕ) - 2 ^ 32

/-- The value of an item, from what stands behind its `=`. -/
def itemValue (post : Bytes) (vlen : ℕ) : Bytes :=
  if 2 ≤ vlen ∧ post.getD 0 0 = 34 ∧ post.getD (vlen - 1) 0 = 34 then (post.drop 1).take (vlen - 2)
  else post.take vlen

/-- The loop of `cerco_cookie` on what is left of the header, with the rounds left. -/
def cookieLoop (a : Arena) (name : Bytes) : ℕ → Bytes → Option Bytes × Arena
  | 0, _ => (none, a)
  | n + 1, p =>
    if p = [] then (none, a)
    else
      let p := p.dropWhile isBlank
      let semi := match strchr 59 p with
        | some (pre, _) => pre.length
        | none => p.length
      let rest := match strchr 59 p with
        | some (_, post) => post
        | none => []
      match strchr 61 p with
      | some (key, post) =>
        if key.length < semi ∧ asInt key.length < 256 ∧ strncaseeq p name key.length = true ∧
            name.length = key.length then
          let value := itemValue post (semi - (key.length + 1))
          match arenaAlloc a (value.length + 1) with
          | (none, a) => (none, a)
          | (some _, a) => (some value, a)
        else cookieLoop a name n rest
      | none => cookieLoop a name n rest

/-- `cerco_cookie`; the value is a copy in the arena. -/
def cercoCookie (a : Arena) (r : Req) (name : Bytes) : Option Bytes × Arena :=
  match reqHeader r (ascii "cookie") with
  | none => (none, a)
  | some hv => cookieLoop a (cstr name) (cstr hv).length (cstr hv)

inductive CookieItem
  | pair (name value : Bytes)
  | bare (text : Bytes)
deriving DecidableEq

def CookieItem.text : CookieItem → Bytes
  | .pair name value => name ++ 61 :: value
  | .bare text => text

/-- A pair as a client may send it, or an item without `=`. -/
def CookieItem.Valid : CookieItem → Prop
  | .pair name value => (1 ≤ name.length ∧ name.length ≤ 255) ∧ name ∩ [0, 61, 59, 32, 9] = [] ∧
      value ∩ [0, 59] = []
  | .bare text => text ∩ [0, 61, 59] = []

instance (i : CookieItem) : Decidable i.Valid :=
  match i with
  | .pair _ _ => inferInstanceAs (Decidable (_ ∧ _ ∧ _))
  | .bare _ => inferInstanceAs (Decidable (_ = _))

/-- `n1=v1; n2=v2; ...` -/
def cookieText : List CookieItem → Bytes
  | [] => []
  | [i] => i.text
  | i :: j :: items => i.text ++ 59 :: 32 :: cookieText (j :: items)

def unquote : Bytes → Bytes
  | [] => []
  | c :: v => if c = 34 ∧ v.getLast? = some 34 then v.dropLast else c :: v

/-- The value of the first pair with this name. -/
def cookieValue (name : Bytes) : List CookieItem → Option Bytes
  | [] => none
  | .pair key value :: items =>
    if strcaseeq key name then some (unquote value) else cookieValue name items
  | .bare _ :: items => cookieValue name items

theorem not_mem_of_inter {s bad : Bytes} (h : s ∩ bad = []) {c : UInt8} (hc : c ∈ bad) : c ∉ s := by
  intro hs
  have both := List.mem_inter_iff.mpr ⟨hs, hc⟩
  rw [h] at both
  cases both

/-- The end of the header, or the `;` in front of the next item. -/
def ItemEnd (tail : Bytes) : Prop := tail = [] ∨ ∃ rest, tail = 59 :: rest

theorem semi_cut {s tail : Bytes} (free : 59 ∉ s) (ends : ItemEnd tail) :
    (match strchr 59 (s ++ tail) with
      | some (pre, _) => pre.length
      | none => (s ++ tail).length) = s.length ∧
    (match strchr 59 (s ++ tail) with
      | some (_, post) => post
      | none => []) = tail.drop 1 := by
  obtain rfl | ⟨rest, rfl⟩ := ends
  · rw [List.append_nil, strchr_none.mpr free]
    exact ⟨rfl, rfl⟩
  · rw [strchr_some.mpr ⟨rfl, free⟩]
    exact ⟨rfl, rfl⟩

theorem strncaseeq_name (key name rest : Bytes) (nulFree : 0 ∉ key) :
    (strncaseeq (key ++ rest) name key.length = true ∧ name.length = key.length) ↔ strcaseeq key name = true := by
  induction key generalizing name with
  | nil =>
    cases name with
    | nil => exact iff_of_true ⟨rfl, rfl⟩ rfl
    | cons d name => exact iff_of_false (fun h => (by cases h.2)) (fun h => (by cases h))
  | cons c key ih =>
    cases name with
    | nil => exact iff_of_false (fun h => (by cases h.2)) (fun h => (by cases h))
    | cons d name =>
      have step := ih name fun h => nulFree (List.mem_cons_of_mem c h)
      rw [List.cons_append, List.length_cons, strncaseeq, strcaseeq, List.headD_cons, List.headD_cons,
        List.tail_cons, List.tail_cons, List.length_cons, Nat.add_right_cancel_iff]
      by_cases same : toLower c = toLower d
      · rw [if_neg (not_not.mpr same), if_neg (not_not.mpr same)]
        exact step
      · rw [if_pos same, if_pos same]
        exact iff_of_false (fun h => (by cases h.1)) (fun h => (by cases h))

theorem itemValue_eq (value tail : Bytes) : itemValue (value ++ tail) value.length = unquote value := by
  unfold itemValue
  cases value with
  | nil => simp [unquote]
  | cons c v =>
    rw [unquote]
    obtain rfl | ⟨v, d, rfl⟩ := v.eq_nil_or_concat'
    · simp
    · have last : ((c :: (v ++ [d])) ++ tail).getD ((c :: (v ++ [d])).length - 1) 0 = d := by simp
      rw [last, List.getLast?_concat, List.dropLast_concat]
      by_cases quoted : c = 34 ∧ d = 34
      · rw [if_pos ⟨by simp, quoted⟩, if_pos ⟨quoted.1, congrArg some quoted.2⟩]
        simp
      · rw [if_neg fun h => quoted h.2, if_neg fun h => quoted ⟨h.1, Option.some.inj h.2⟩]
        exact List.take_left

def handOut (a : Arena) (value : Bytes) : Option Bytes × Arena :=
  match arenaAlloc a (value.length + 1) with
  | (none, a) => (none, a)
  | (some _, a) => (some value, a)

theorem asInt_small {n : ℕ} (h : n ≤ 255) : asInt n < 256 := by
  unfold asInt
  split <;> omega

theorem cookieLoop_pair {key value tail : Bytes} (valid : (CookieItem.pair key value).Valid) (ends : ItemEnd tail)
    (a : Arena) (name : Bytes) (n : ℕ) {lead : Bytes} (blank : ∀ c ∈ lead, isBlank c = true) :
    cookieLoop a name (n + 1) (lead ++ (key ++ 61 :: (value ++ tail))) =
      if strcaseeq key name = true then handOut a (unquote value) else cookieLoop a name n (tail.drop 1) := by
  obtain ⟨⟨some_, short⟩, plainKey, plainValue⟩ := valid
  have whole : (key ++ 61 :: value) ++ tail = key ++ 61 :: (value ++ tail) := by
    rw [List.append_assoc, List.cons_append]
  have skipped : (lead ++ (key ++ 61 :: (value ++ tail))).dropWhile isBlank = key ++ 61 :: (value ++ tail) := by
    rw [List.dropWhile_append_of_pos blank]
    cases key with
    | nil => exact absurd some_ (by decide)
    | cons c key =>
      refine List.dropWhile_cons_of_neg fun h => ?_
      have first : c ≠ 32 ∧ c ≠ 9 := by
        constructor <;> (rintro rfl; exact not_mem_of_inter plainKey (by decide) List.mem_cons_self)
      simp [isBlank, first] at h
  have noSemi : 59 ∉ key ++ 61 :: value := by
    intro h
    obtain h | h := List.mem_append.mp h
    · exact not_mem_of_inter plainKey (by decide) h
    · obtain h | h := List.mem_cons.mp h
      · cases h
      · exact not_mem_of_inter plainValue (by decide) h
  obtain ⟨semi, rest⟩ := semi_cut noSemi ends
  rw [whole] at semi rest
  have mark : strchr 61 (key ++ 61 :: (value ++ tail)) = some (key, value ++ tail) :=
    strchr_some.mpr ⟨rfl, not_mem_of_inter plainKey (by decide)⟩
  have more : lead ++ (key ++ 61 :: (value ++ tail)) ≠ [] := by simp
  rw [cookieLoop, if_neg more]
  simp only [skipped, semi, rest, mark]
  have room : key.length < (key ++ 61 :: value).length := by
    rw [List.length_append, List.length_cons]
    omega
  have len : (key ++ 61 :: value).length - (key.length + 1) = value.length := by
    rw [List.length_append, List.length_cons]
    omega
  have names := strncaseeq_name key name (61 :: (value ++ tail)) (not_mem_of_inter plainKey (by decide))
  rw [len, itemValue_eq]
  by_cases same : strcaseeq key name = true
  · rw [if_pos same, if_pos ⟨room, asInt_small short, names.mpr same⟩]
    rfl
  · rw [if_neg same, if_neg fun h => same (names.mp h.2.2)]

theorem cookieLoop_bare {text tail : Bytes} (valid : (CookieItem.bare text).Valid) (ends : ItemEnd tail)
    (a : Arena) (name : Bytes) (n : ℕ) {lead : Bytes} (blank : ∀ c ∈ lead, isBlank c = true)
    (more : lead ++ (text ++ tail) ≠ []) :
    cookieLoop a name (n + 1) (lead ++ (text ++ tail)) = cookieLoop a name n (tail.drop 1) := by
  have valid : text ∩ [0, 61, 59] = [] := valid
  obtain ⟨body, skipped, inside⟩ : ∃ body, (lead ++ (text ++ tail)).dropWhile isBlank = body ++ tail ∧ body ⊆ text := by
    rw [List.dropWhile_append_of_pos blank]
    by_cases all : ∀ c ∈ text, isBlank c = true
    · refine ⟨[], ?_, List.nil_subset text⟩
      rw [List.dropWhile_append_of_pos all, List.nil_append]
      obtain rfl | ⟨rest, rfl⟩ := ends
      · rfl
      · exact List.dropWhile_cons_of_neg (by decide)
    · refine ⟨text.dropWhile isBlank, ?_, (List.dropWhile_suffix _).subset⟩
      rw [List.dropWhile_append, if_neg]
      intro h
      exact all (List.dropWhile_eq_nil_iff.mp (List.isEmpty_iff.mp h))
  have noSemi : 59 ∉ body := fun h => not_mem_of_inter valid (by decide) (inside h)
  obtain ⟨semi, rest⟩ := semi_cut noSemi ends
  rw [cookieLoop, if_neg more]
  simp only [skipped, semi, rest]
  cases mark : strchr 61 (body ++ tail) with
  | none => rfl
  | some at61 =>
    obtain ⟨key, post⟩ := at61
    obtain ⟨split, _⟩ := strchr_some.mp mark
    dsimp only
    refine if_neg fun h => ?_
    -- an `=` in front of the `;` would be one of the item
    have front : body.take (key.length + 1) = key ++ [61] := by
      have := congrArg (List.take (key.length + 1)) split
      rw [List.take_append_of_le_length (by omega)] at this
      rw [this, List.take_length_add_append]
      rfl
    have held : (61 : UInt8) ∈ body := List.mem_of_mem_take (front ▸ List.mem_append_right _ List.mem_cons_self)
    exact not_mem_of_inter valid (by decide) (inside held)

theorem cookieText_cons (i : CookieItem) (items : List CookieItem) :
    ∃ tail, cookieText (i :: items) = i.text ++ tail ∧ ItemEnd tail ∧
      (tail.drop 1 = cookieText items ∧ items = [] ∨ tail.drop 1 = [32] ++ cookieText items ∧ items ≠ []) := by
  cases items with
  | nil => exact ⟨[], (List.append_nil _).symm, .inl rfl, .inl ⟨rfl, rfl⟩⟩
  | cons j items => exact ⟨59 :: 32 :: cookieText (j :: items), rfl, .inr ⟨_, rfl⟩, .inr ⟨rfl, by simp⟩⟩

theorem cookieLoop_nil (a : Arena) (name : Bytes) (n : ℕ) : cookieLoop a name n [] = (none, a) := by
  cases n <;> rfl

theorem cookieLoop_items (a : Arena) (name : Bytes) {items : List CookieItem} (valid : ∀ i ∈ items, i.Valid)
    {lead : Bytes} (blank : ∀ c ∈ lead, isBlank c = true) (some_ : lead ≠ [] → items ≠ []) {n : ℕ}
    (rounds : (lead ++ cookieText items).length ≤ n) :
    cookieLoop a name n (lead ++ cookieText items) =
      match cookieValue name items with
      | some value => handOut a value
      | none => (none, a) := by
  induction items generalizing lead n with
  | nil =>
    have none : lead = [] := by
      by_contra h
      exact some_ h rfl
    rw [none]
    exact cookieLoop_nil a name n
  | cons i items ih =>
    obtain ⟨tail, text, ends, next⟩ := cookieText_cons i items
    have here := valid i List.mem_cons_self
    have others : ∀ j ∈ items, j.Valid := fun j hj => valid j (List.mem_cons_of_mem i hj)
    rw [text] at rounds ⊢
    by_cases more : lead ++ (i.text ++ tail) = []
    · -- the header ends with an empty item
      rw [more, cookieLoop_nil]
      have last : items = [] := by
        obtain ⟨_, e⟩ | ⟨e, _⟩ := next
        · exact e
        · have := (List.append_eq_nil_iff.mp (List.append_eq_nil_iff.mp more).2).2
          rw [this] at e
          cases e
      subst last
      cases i with
      | pair key value =>
        have := (List.append_eq_nil_iff.mp (List.append_eq_nil_iff.mp more).2).1
        simp [CookieItem.text] at this
      | bare text => rfl
    · obtain ⟨n, rfl⟩ : ∃ k, n = k + 1 := ⟨n - 1, by have := List.length_pos_iff.mpr more; omega⟩
      have left : (tail.drop 1).length ≤ n := by
        have := List.length_pos_iff.mpr more
        rw [List.length_append, List.length_append] at rounds
        rw [List.length_append, List.length_append] at this
        rw [List.length_drop]
        omega
      have go : cookieLoop a name n (tail.drop 1) = match cookieValue name items with
          | some value => handOut a value
          | none => (none, a) := by
        obtain ⟨e, rfl⟩ | ⟨e, many⟩ := next
        · rw [e]
          exact cookieLoop_nil a name n
        · rw [e] at left ⊢
          have blank : ∀ c ∈ [(32 : UInt8)], isBlank c = true := fun c h => by rw [List.mem_singleton.mp h]; rfl
          exact ih others blank (fun _ => many) left
      cases i with
      | pair key value =>
        rw [show CookieItem.text (.pair key value) ++ tail = key ++ 61 :: (value ++ tail) by
          rw [CookieItem.text, List.append_assoc, List.cons_append],
          cookieLoop_pair here ends a name n blank, go, cookieValue]
        by_cases same : strcaseeq key name = true
        · rw [if_pos same, if_pos same]
        · rw [if_neg same, if_neg same]
      | bare text =>
        exact (cookieLoop_bare here ends a name n blank more).trans go

theorem cookieText_nulFree {items : List CookieItem} (valid : ∀ i ∈ items, i.Valid) : 0 ∉ cookieText items := by
  have one : ∀ i : CookieItem, i.Valid → 0 ∉ i.text := by
    intro i h
    cases i with
    | pair name value =>
      obtain ⟨_, plainName, plainValue⟩ := h
      have hn := not_mem_of_inter plainName (c := 0) (by decide)
      have hv := not_mem_of_inter plainValue (c := 0) (by decide)
      simp [CookieItem.text, hn, hv]
    | bare text => exact not_mem_of_inter (show text ∩ [0, 61, 59] = [] from h) (by decide)
  induction items with
  | nil => exact List.not_mem_nil
  | cons i items ih =>
    have here := one i (valid i List.mem_cons_self)
    have others := ih fun j hj => valid j (List.mem_cons_of_mem i hj)
    cases items with
    | nil => exact here
    | cons j items =>
      rw [cookieText]
      simp only [List.mem_append, List.mem_cons, not_or]
      exact ⟨here, by decide, by decide, others⟩

/-- What cerco_cookie returns for a header with these items: the value of the first pair with the name, in
a copy for which the arena is asked. -/
theorem cookie_lookup (a : Arena) (r : Req) (items : List CookieItem) (name : Bytes)
    (valid : ∀ i ∈ items, i.Valid) (sent : reqHeader r (ascii "cookie") = some (cookieText items)) :
    (cercoCookie a r name).1 = (cookieValue (cstr name) items).bind (fun value =>
      (arenaAlloc a (value.length + 1)).1.map fun _ => value) ∧
    ((cercoCookie a r name).2.Served → (cercoCookie a r name).1 = cookieValue (cstr name) items) := by
  have found : cercoCookie a r name = match cookieValue (cstr name) items with
      | some value => handOut a value
      | none => (none, a) := by
    unfold cercoCookie
    rw [sent]
    dsimp only
    rw [cstr_of_nulFree (cookieText_nulFree valid)]
    have noBlank : ∀ c ∈ ([] : Bytes), isBlank c = true := fun c h => (by cases h)
    exact cookieLoop_items a (cstr name) valid noBlank (fun h => absurd rfl h) (Nat.le_refl _)
  rw [found]
  cases cookieValue (cstr name) items with
  | none => exact ⟨rfl, fun _ => rfl⟩
  | some value =>
    dsimp only [handOut, Option.bind_some]
    generalize hm : arenaAlloc a (value.length + 1) = made
    obtain ⟨_ | p, b⟩ := made
    · refine ⟨rfl, fun served => ?_⟩
      have lost := @arenaAlloc_served a (value.length + 1) (by rw [hm]; exact served)
      rw [hm] at lost
      exact Bool.noConfusion lost.2
    · exact ⟨rfl, fun _ => rfl⟩

def sessionItems : List CookieItem :=
  [.pair (ascii "theme") (ascii "a=b"), .bare (ascii "flag"), .pair (ascii "SID") (ascii "\"31f\""),
    .pair (ascii "sid") (ascii "old")]

def sessionReq : Req := { reqSetup 0 with headers := [(ascii "Cookie", cookieText sessionItems)] }

def sessionArena : Arena := arenaInit (Arena.zero fun _ _ => some 4096) 8192 0

theorem cookie_lookup_session : (cercoCookie sessionArena sessionReq (ascii "sid")).1 = some (ascii "31f") :=
  (cookie_lookup sessionArena sessionReq sessionItems (ascii "sid") (by decide) (by decide)).2 (by decide)

end Cerco.Cookies
