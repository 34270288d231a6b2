import Cerco.QueryString

set_option autoImplicit false

/-!
# Form fields

`form_parse` walks over an urlencoded body once and keeps the pairs in the
arena. Names and values go through two buffers on the stack; the walk ends at
the first pair that does not fit them.
-/
namespace Cerco.FormFields
open Cerco.Alloc Cerco.CString Cerco.Request Cerco.QueryString

/-- A `cerco_form_kv`; the pointers are NULL when the arena has no room. -/
structure FormKv where
  name : Option Bytes
  value : Option Bytes
deriving DecidableEq

def sizeofFormKv : ℕ := 24

def formContentType : Bytes := ascii "application/x-www-form-urlencoded"

/-- The loop of `form_parse`, which splits as `cerco_query_next` does but does not
stop at a NUL. A pair takes at least one byte of the body. -/
def formLoop : ℕ → Bytes → Arena → List FormKv → Arena × List FormKv
  | 0, _, a, form => (a, form)
  | n + 1, b, a, form =>
    match queryNext kbufRoom vbufRoom b with
    | .pair key value rest =>
      match arenaAlloc a sizeofFormKv with
      | (none, a) => (a, form)
      | (some _, a) =>
        match arenaStrdup a key with
        | (name, a) =>
          match arenaStrdup a value with
          | (value, a) => formLoop n rest a (form ++ [⟨name, value⟩])
    | _ => (a, form)

/-- `form_parse`; `form` is the list behind `r->form`. -/
def formParse (a : Arena) (r : Req) (form : List FormKv) : Arena × List FormKv :=
  if form ≠ [] then (a, form)
  else
    match reqHeader r (ascii "content-type") with
    | none => (a, form)
    | some ct =>
      if strncaseeq ct formContentType 33 = false then (a, form)
      else
        match r.body with
        | none => (a, form)
        | some b => formLoop b.length b a form

/-- The search of `cerco_form`; a NULL name is dereferenced, which is `none`. -/
def formFind (name : Bytes) : List FormKv → Option (Option Bytes)
  | [] => some none
  | kv :: form =>
    match kv.name with
    | none => none
    | some key => if strcaseeq key name then some kv.value else formFind name form

def cercoForm (a : Arena) (r : Req) (form : List FormKv) (name : Bytes) :
    Option (Option Bytes) × Arena × List FormKv :=
  match formParse a r form with
  | (a, form) => (formFind name form, a, form)

/-- The answers to a handler that asks for these names one after the other. -/
def formAnswers (r : Req) : Arena → List FormKv → List Bytes → List (Option (Option Bytes))
  | _, _, [] => []
  | a, form, name :: names =>
    match cercoForm a r form name with
    | (answer, a, form) => answer :: formAnswers r a form names

/-- `w` is an urlencoding of `s`: a byte stands for itself, a plus for a space, or an
escape for the byte it names. -/
inductive UrlText : Bytes → Bytes → Prop
  | nil : UrlText [] []
  | plain {c : UInt8} {s w : Bytes} (h : c ∉ ascii "%&+=") (rest : UrlText s w) :
      UrlText (c :: s) (c :: w)
  | space {s w : Bytes} (rest : UrlText s w) : UrlText (32 :: s) (43 :: w)
  | escape {x y : UInt8} {hi lo : ℕ} {s w : Bytes} (hx : hexval x = some hi) (hy : hexval y = some lo)
      (rest : UrlText s w) : UrlText (UInt8.ofNat (hi * 16 + lo) :: s) (37 :: x :: y :: w)

/-- `b` is an urlencoded body with these fields. -/
inductive UrlBody : List (Bytes × Bytes) → Bytes → Prop
  | nil : UrlBody [] []
  | last {k v kw vw : Bytes} (hk : UrlText k kw) (hv : UrlText v vw) :
      UrlBody [(k, v)] (kw ++ 61 :: vw)
  | more {k v kw vw b : Bytes} {p : Bytes × Bytes} {ps : List (Bytes × Bytes)} (hk : UrlText k kw)
      (hv : UrlText v vw) (rest : UrlBody (p :: ps) b) :
      UrlBody ((k, v) :: p :: ps) (kw ++ 61 :: (vw ++ 38 :: b))

theorem urlDecode_escape_byte (room : ℕ) {x y : UInt8} {hi lo : ℕ} (hx : hexval x = some hi)
    (hy : hexval y = some lo) (w : Bytes) : urlDecode true (room + 1) (37 :: x :: y :: w) =
      (urlDecode true room w).map (UInt8.ofNat (hi * 16 + lo) :: ·) := by
  rw [urlDecode, if_pos rfl]
  simp only [hx, hy]

theorem urlDecode_space (room : ℕ) (w : Bytes) :
    urlDecode true (room + 1) (43 :: w) = (urlDecode true room w).map (32 :: ·) := by
  cases w with
  | nil => rfl
  | cons d w => cases w <;> rfl

theorem UrlText.decode {s w : Bytes} (h : UrlText s w) (room : ℕ) :
    urlDecode true room w = if s.length ≤ room then some s else none := by
  induction h generalizing room with
  | nil => cases room <;> rfl
  | @plain c s w hc _ ih =>
    cases room with
    | zero => rfl
    | succ room =>
      have ne : c ≠ 37 ∧ c ≠ 43 := by
        constructor <;> (rintro rfl; exact hc (by decide))
      rw [urlDecode_plain true ne.1 fun _ => ne.2, ih]
      simp only [List.length_cons, Nat.add_le_add_iff_right]
      split <;> rfl
  | @space s w _ ih =>
    cases room with
    | zero => rfl
    | succ room =>
      rw [urlDecode_space, ih]
      simp only [List.length_cons, Nat.add_le_add_iff_right]
      split <;> rfl
  | @escape x y hi lo s w hx hy _ ih =>
    cases room with
    | zero => rfl
    | succ room =>
      rw [urlDecode_escape_byte room hx hy, ih]
      simp only [List.length_cons, Nat.add_le_add_iff_right]
      split <;> rfl

theorem hexval_delimiter {x : UInt8} {n : ℕ} (h : hexval x = some n) : x ≠ 61 ∧ x ≠ 38 := by
  constructor <;> (rintro rfl; cases h)

theorem UrlText.whole {s w : Bytes} (h : UrlText s w) : 61 ∉ w ∧ 38 ∉ w := by
  induction h with
  | nil => simp
  | @plain c s w hc _ ih =>
    have ne : 61 ≠ c ∧ 38 ≠ c := by
      constructor <;> (rintro rfl; exact hc (by decide))
    simp [ih, ne]
  | space _ ih => simp [ih]
  | escape hx hy _ ih =>
    simp [ih, Ne.symm (hexval_delimiter hx).1, Ne.symm (hexval_delimiter hx).2,
      Ne.symm (hexval_delimiter hy).1, Ne.symm (hexval_delimiter hy).2]

def FitsBuffers (p : Bytes × Bytes) : Prop := p.1.length ≤ kbufRoom ∧ p.2.length ≤ vbufRoom

instance (p : Bytes × Bytes) : Decidable (FitsBuffers p) := inferInstanceAs (Decidable (_ ∧ _))

/-- The end of a body, or the `&` in front of the next pair. -/
def FieldEnd (tail : Bytes) : Prop := tail = [] ∨ ∃ b, tail = 38 :: b

theorem value_stop {vw tail : Bytes} (hv : 38 ∉ vw) (ht : FieldEnd tail) :
    (vw ++ tail).takeWhile (fun b => !isValueEnd b) = vw ∧
      (vw ++ tail).dropWhile (fun b => !isValueEnd b) = tail := by
  have whole := (value_whole_iff vw).mpr hv
  rcases ht with rfl | ⟨b, rfl⟩
  · rw [List.append_nil]
    exact ⟨whole, List.dropWhile_eq_nil_iff.mpr (List.takeWhile_eq_self_iff.mp whole)⟩
  · have stop := takeWhile_stop (p := fun b => !isValueEnd b) vw (c := 38) (by decide) b
    exact ⟨stop.1.trans whole, stop.2 whole⟩

theorem queryNext_field {k v kw vw tail : Bytes} (hk : UrlText k kw) (hv : UrlText v vw)
    (ht : FieldEnd tail) : queryNext kbufRoom vbufRoom (kw ++ 61 :: (vw ++ tail)) =
      if FitsBuffers (k, v) then .pair k v (skipAmp tail) else .reject := by
  have keyWhole := (key_whole_iff kw).mpr ⟨hk.whole.2, hk.whole.1⟩
  obtain ⟨taken, dropped⟩ := takeWhile_stop (p := fun b => !isKeyEnd b) kw (c := 61) (by decide)
    (vw ++ tail)
  obtain ⟨valueTaken, valueDropped⟩ := value_stop hv.whole.2 ht
  have shape : ∃ c cs, kw ++ 61 :: (vw ++ tail) = c :: cs := by
    cases kw with
    | nil => exact ⟨61, _, rfl⟩
    | cons c cs => exact ⟨c, _, rfl⟩
  obtain ⟨c, cs, eq⟩ := shape
  rw [eq] at taken dropped ⊢
  simp only [queryNext, taken, keyWhole, dropped keyWhole, hk.decode, valueTaken, valueDropped,
    hv.decode, FitsBuffers]
  by_cases kfits : k.length ≤ kbufRoom
  · by_cases vfits : v.length ≤ vbufRoom
    · simp only [kfits, vfits, and_self, ↓reduceIte]
    · simp only [kfits, vfits, and_false, ↓reduceIte]
  · simp only [kfits, false_and, ↓reduceIte]

def kept (ps : List (Bytes × Bytes)) : List (Bytes × Bytes) := ps.takeWhile fun p => FitsBuffers p

/-- The allocations for a list of pairs. -/
def copyAll : Arena → List (Bytes × Bytes) → Arena
  | a, [] => a
  | a, p :: ps => copyAll (arenaStrdup (arenaStrdup (arenaAlloc a sizeofFormKv).2 p.1).2 p.2).2 ps

def kvOf (p : Bytes × Bytes) : FormKv := ⟨some p.1, some p.2⟩

theorem copyAll_served {a : Arena} {ps : List (Bytes × Bytes)} (served : (copyAll a ps).Served) :
    a.Served := by
  induction ps generalizing a with
  | nil => exact served
  | cons p ps ih =>
    exact (arenaAlloc_served (arenaStrdup_served (arenaStrdup_served (ih served)).1).1).1

theorem kept_cons (p : Bytes × Bytes) (ps : List (Bytes × Bytes)) :
    kept (p :: ps) = if FitsBuffers p then p :: kept ps else [] := by
  unfold kept
  rw [List.takeWhile_cons]
  by_cases fits : FitsBuffers p <;> simp [fits]

theorem formLoop_field {k v kw vw tail : Bytes} (hk : UrlText k kw) (hv : UrlText v vw)
    (ht : FieldEnd tail) (nulFree : 0 ∉ k ∧ 0 ∉ v) {a a' : Arena}
    (copied : (arenaStrdup (arenaStrdup (arenaAlloc a sizeofFormKv).2 k).2 v).2 = a')
    (served : a'.Served) (n : ℕ) (form : List FormKv) :
    formLoop (n + 1) (kw ++ 61 :: (vw ++ tail)) a form =
      if FitsBuffers (k, v) then formLoop n (skipAmp tail) a' (form ++ [kvOf (k, v)])
      else (a, form) := by
  subst copied
  obtain ⟨served, value⟩ := arenaStrdup_served served
  obtain ⟨served, name⟩ := arenaStrdup_served served
  obtain ⟨_, found⟩ := arenaAlloc_served served
  rw [cstr_of_nulFree nulFree.1] at name
  rw [cstr_of_nulFree nulFree.2] at value
  rw [formLoop, queryNext_field hk hv ht]
  by_cases fits : FitsBuffers (k, v)
  · rw [if_pos fits, if_pos fits]
    obtain ⟨p, at'⟩ := Option.isSome_iff_exists.mp found
    have split : arenaAlloc a sizeofFormKv = (some p, (arenaAlloc a sizeofFormKv).2) :=
      Prod.ext at' rfl
    dsimp only
    rw [split]
    dsimp only
    rw [name, value]
    rfl
  · rw [if_neg fits, if_neg fits]

theorem formLoop_kept {ps : List (Bytes × Bytes)} {b : Bytes} (h : UrlBody ps b)
    (nulFree : ∀ p ∈ ps, 0 ∉ p.1 ∧ 0 ∉ p.2) {n : ℕ} (enough : ps.length ≤ n) {a : Arena}
    (served : (copyAll a ps).Served) (form : List FormKv) :
    formLoop n b a form = (copyAll a (kept ps), form ++ (kept ps).map kvOf) := by
  induction h generalizing n a form with
  | nil =>
    have nothing : (a, form) = (copyAll a (kept []), form ++ (kept []).map kvOf) := by
      rw [show kept [] = [] from rfl, List.map_nil, List.append_nil]
      rfl
    cases n <;> exact nothing
  | @last k v kw vw hk hv =>
    obtain ⟨n, rfl⟩ : ∃ m, n = m + 1 := ⟨n - 1, by simp only [List.length_singleton] at enough; omega⟩
    have round := formLoop_field hk hv (.inl rfl) (nulFree _ List.mem_cons_self) rfl
      (@copyAll_served _ [] served) n form
    rw [List.append_nil] at round
    rw [round, kept_cons]
    by_cases fits : FitsBuffers (k, v)
    · rw [if_pos fits, if_pos fits]
      cases n <;> rfl
    · rw [if_neg fits, if_neg fits, List.map_nil, List.append_nil]
      rfl
  | @more k v kw vw b p ps hk hv rest ih =>
    obtain ⟨n, rfl⟩ : ∃ m, n = m + 1 := ⟨n - 1, by simp only [List.length_cons] at enough; omega⟩
    rw [copyAll] at served
    have round := formLoop_field hk hv (.inr ⟨b, rfl⟩) (nulFree _ List.mem_cons_self) rfl
      (copyAll_served served) n form
    rw [round, kept_cons]
    by_cases fits : FitsBuffers (k, v)
    · have tail := ih (fun q hq => nulFree q (List.mem_cons_of_mem _ hq))
        (Nat.le_of_succ_le_succ enough) served (form ++ [kvOf (k, v)])
      rw [if_pos fits, if_pos fits]
      change formLoop n b _ _ = _
      rw [tail, List.map_cons, List.append_assoc]
      rfl
    · rw [if_neg fits, if_neg fits, List.map_nil, List.append_nil]
      rfl

theorem UrlBody.length_le {ps : List (Bytes × Bytes)} {b : Bytes} (h : UrlBody ps b) :
    ps.length ≤ b.length := by
  induction h with
  | nil => exact Nat.le_refl 0
  | last =>
    simp only [List.length_append, List.length_cons, List.length_nil]
    omega
  | more _ _ _ ih =>
    simp only [List.length_cons, List.length_append] at ih ⊢
    omega

/-- Every field from the first that is too long on has the name of a kept one. -/
def Shadowed (ps : List (Bytes × Bytes)) : Prop :=
  ∀ p ∈ ps.dropWhile (fun p => FitsBuffers p), ∃ q ∈ kept ps, strcaseeq q.1 p.1 = true

theorem kept_append (ps : List (Bytes × Bytes)) :
    kept ps ++ ps.dropWhile (fun p => FitsBuffers p) = ps := List.takeWhile_append_dropWhile

theorem lookupPair_append (name : Bytes) (ps qs : List (Bytes × Bytes)) :
    lookupPair name (ps ++ qs) = (lookupPair name ps).or (lookupPair name qs) := by
  unfold lookupPair
  rw [List.find?_append]
  cases ps.find? fun p => strcaseeq p.1 name <;> rfl

theorem lookupPair_none {name : Bytes} {ps : List (Bytes × Bytes)} :
    lookupPair name ps = none ↔ ∀ p ∈ ps, strcaseeq p.1 name ≠ true := by
  rw [lookupPair, Option.map_eq_none_iff, List.find?_eq_none]

theorem lookup_kept (ps : List (Bytes × Bytes)) :
    (∀ name, lookupPair name (kept ps) = lookupPair name ps) ↔ Shadowed ps := by
  constructor
  · intro same p hp
    have inAll : p ∈ ps := (List.dropWhile_suffix _).subset hp
    have found : lookupPair p.1 (kept ps) ≠ none := by
      rw [same]
      exact fun none => lookupPair_none.mp none p inAll ((strcaseeq_iff _ _).mpr rfl)
    by_contra noneKept
    exact found (lookupPair_none.mpr fun q hq he => noneKept ⟨q, hq, he⟩)
  · intro shadowed name
    conv_rhs => rw [← kept_append ps, lookupPair_append]
    cases early : lookupPair name (kept ps) with
    | some value => rfl
    | none =>
      have late : lookupPair name (ps.dropWhile fun p => FitsBuffers p) = none := by
        refine lookupPair_none.mpr fun p hp he => ?_
        obtain ⟨q, hq, hqp⟩ := shadowed p hp
        refine lookupPair_none.mp early q hq ((strcaseeq_iff _ _).mpr ?_)
        exact ((strcaseeq_iff _ _).mp hqp).trans ((strcaseeq_iff _ _).mp he)
      rw [late]
      rfl

theorem formFind_kvOf (name : Bytes) (ps : List (Bytes × Bytes)) :
    formFind name (ps.map kvOf) = some (lookupPair name ps) := by
  induction ps with
  | nil => rfl
  | cons p ps ih =>
    rw [List.map_cons, formFind, lookupPair, List.find?_cons]
    change (if strcaseeq p.1 name then some (some p.2) else formFind name (ps.map kvOf)) = _
    cases same : strcaseeq p.1 name with
    | true => rfl
    | false => exact ih

/-- The request carries these fields. -/
structure Posted (r : Req) (ps : List (Bytes × Bytes)) : Prop where
  contentType : ∃ ct, reqHeader r (ascii "content-type") = some ct ∧
    strncaseeq ct formContentType 33 = true
  body : UrlBody ps (r.body.getD [])
  nulFree : ∀ p ∈ ps, 0 ∉ p.1 ∧ 0 ∉ p.2

theorem formParse_kept {r : Req} {ps : List (Bytes × Bytes)} (posted : Posted r ps) {a : Arena}
    (fits : (copyAll a ps).Served) :
    formParse a r [] = (copyAll a (kept ps), (kept ps).map kvOf) := by
  obtain ⟨ct, header, isForm⟩ := posted.contentType
  have walk := formLoop_kept posted.body posted.nulFree posted.body.length_le fits []
  unfold formParse
  rw [if_neg (by simp), header]
  dsimp only
  rw [if_neg (by simp [isForm])]
  cases hb : r.body with
  | none =>
    rw [hb] at walk
    exact walk
  | some b =>
    rw [hb] at walk
    exact walk

theorem formParse_again {r : Req} {ps : List (Bytes × Bytes)} (posted : Posted r ps) {a : Arena}
    (fits : (copyAll a ps).Served) : formParse (copyAll a (kept ps)) r ((kept ps).map kvOf) =
      (copyAll a (kept ps), (kept ps).map kvOf) := by
  cases none : kept ps with
  | nil =>
    have again := formParse_kept posted fits
    rw [none] at again
    exact again
  | cons p rest => exact if_pos (List.cons_ne_nil _ _)

theorem formAnswers_kept {r : Req} {ps : List (Bytes × Bytes)} (posted : Posted r ps) {a : Arena}
    (fits : (copyAll a ps).Served) (names : List Bytes) {a' : Arena} {form : List FormKv}
    (parsed : formParse a' r form = (copyAll a (kept ps), (kept ps).map kvOf)) :
    formAnswers r a' form names = names.map fun name => some (lookupPair name (kept ps)) := by
  induction names generalizing a' form with
  | nil => rfl
  | cons name names ih =>
    rw [formAnswers, cercoForm, parsed]
    dsimp only
    rw [formFind_kvOf, ih (formParse_again posted fits)]
    rfl

/-- A handler that asks for any names gets the first field with each name. -/
def FormRoundTrips (a : Arena) (r : Req) (ps : List (Bytes × Bytes)) : Prop :=
  ∀ names, formAnswers r a [] names = names.map fun name => some (lookupPair name ps)

theorem FormRoundTrips.kept {r : Req} {ps : List (Bytes × Bytes)} (posted : Posted r ps) {a : Arena}
    (fits : (copyAll a ps).Served) :
    FormRoundTrips a r ps ↔ ∀ name, lookupPair name (kept ps) = lookupPair name ps := by
  have answers : ∀ names, formAnswers r a [] names = _ := fun names =>
    formAnswers_kept posted fits names (formParse_kept posted fits)
  constructor
  · intro all name
    have one := all [name]
    rw [answers] at one
    simpa using one
  · intro same names
    rw [answers]
    exact List.map_congr_left fun name _ => congrArg some (same name)

/-- The fields come back exactly when none is hidden behind one that is too long. -/
theorem form_round_trip {a : Arena} {r : Req} {ps : List (Bytes × Bytes)} (posted : Posted r ps)
    (fits : (copyAll a ps).Served) : FormRoundTrips a r ps ↔ Shadowed ps :=
  (FormRoundTrips.kept posted fits).trans (lookup_kept ps)

def formArena : Arena := arenaInit (Arena.zero fun _ _ => some 4096) 65536 0

def postOf (body : Bytes) : Req :=
  { reqSetup 0 with headers := [(ascii "Content-Type", formContentType)], body := some body }

theorem form_round_trip_field :
    formAnswers (postOf (ascii "field=a%20c&to=b+d")) formArena [] [ascii "FIELD", ascii "to", ascii "x"] =
      [some (some (ascii "a c")), some (some (ascii "b d")), some none] := by
  have value : UrlText (ascii "a c") (ascii "a%20c") :=
    .plain (by decide) (.escape (show hexval 50 = some 2 from rfl) (show hexval 48 = some 0 from rfl)
      (.plain (by decide) .nil))
  have key : UrlText (ascii "field") (ascii "field") :=
    .plain (by decide) (.plain (by decide) (.plain (by decide) (.plain (by decide)
      (.plain (by decide) .nil))))
  have second : UrlText (ascii "b d") (ascii "b+d") := .plain (by decide) (.space (.plain (by decide) .nil))
  have target : UrlText (ascii "to") (ascii "to") := .plain (by decide) (.plain (by decide) .nil)
  have posted : Posted (postOf (ascii "field=a%20c&to=b+d"))
      [(ascii "field", ascii "a c"), (ascii "to", ascii "b d")] :=
    ⟨⟨formContentType, by decide, by decide⟩, .more key value (.last target second), by decide⟩
  exact (form_round_trip posted (a := formArena) (by decide)).mpr (by unfold Shadowed; decide) _

def longName : Bytes := List.replicate 256 97

def longFirst : List (Bytes × Bytes) := [(longName, []), (ascii "b", ascii "c")]

theorem urlText_replicate (n : ℕ) : UrlText (List.replicate n 97) (List.replicate n 97) := by
  induction n with
  | zero => exact .nil
  | succ n ih => exact .plain (by decide) ih

theorem long_name_hides : ¬ ∀ (a : Arena) (r : Req) (ps : List (Bytes × Bytes)),
    Posted r ps → (copyAll a ps).Served → FormRoundTrips a r ps := by
  intro all
  have second : UrlBody [(ascii "b", ascii "c")] (ascii "b=c") :=
    .last (.plain (by decide) .nil) (.plain (by decide) .nil)
  have posted : Posted (postOf (longName ++ 61 :: ([] ++ 38 :: ascii "b=c"))) longFirst :=
    ⟨⟨formContentType, by decide, by decide⟩, .more (urlText_replicate 256) .nil second,
      by decide +kernel⟩
  have fits : (copyAll formArena longFirst).Served := by decide +kernel
  have shadowed := (lookup_kept longFirst).mp
    ((FormRoundTrips.kept posted fits).mp (all formArena _ longFirst posted fits))
  revert shadowed
  unfold Shadowed
  decide +kernel

end Cerco.FormFields
