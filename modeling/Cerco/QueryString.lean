import Cerco.Request
import Mathlib.Data.List.TakeWhile

set_option autoImplicit false

/-!
# The query string, from the target to a parameter

`req_target_path` stores the query string already decoded, and `cerco_query_get`
splits what is stored and decodes the pieces again.
-/
namespace Cerco.QueryString
open Cerco.Alloc Cerco.CString Cerco.Request

def isKeyEnd (c : UInt8) : Bool := c == 61 || c == 38

def isValueEnd (c : UInt8) : Bool := c == 38

inductive QueryStep
  | done
  | reject
  | pair (key value rest : Bytes)
deriving DecidableEq

/-- `if (q[p] == '&') p++` -/
def skipAmp : Bytes → Bytes
  | [] => []
  | c :: rest => if c = 38 then rest else c :: rest

/-- `cerco_query_next` on what is left of the string; `kroom` and `vroom` are the
sizes of the two buffers less the terminator. -/
def queryNext (kroom vroom : ℕ) (q : Bytes) : QueryStep :=
  match q with
  | [] => .done
  | c :: cs =>
    match urlDecode true kroom ((c :: cs).takeWhile fun b => !isKeyEnd b) with
    | none => .reject
    | some key =>
      match (c :: cs).dropWhile fun b => !isKeyEnd b with
      | 61 :: rest =>
        match urlDecode true vroom (rest.takeWhile fun b => !isValueEnd b) with
        | none => .reject
        | some value => .pair key value (skipAmp (rest.dropWhile fun b => !isValueEnd b))
      | rest => .pair key [] (skipAmp rest)

def kbufRoom : ℕ := 255
def vbufRoom : ℕ := 2047

/-- The loop of `cerco_query_get`; a pair takes at least one byte of the string. -/
def queryLoop (name : Bytes) : ℕ → Bytes → Option Bytes
  | 0, _ => none
  | n + 1, q =>
    match queryNext kbufRoom vbufRoom q with
    | .pair key value rest =>
      if strcaseeq (cstr key) name then some value else queryLoop name n rest
    | _ => none

def cercoQuery (a : Arena) (r : Req) : Bytes × Arena × Req :=
  match r.query with
  | some q => (cstr q, a, r)
  | none =>
    match reqTargetPath a r with
    | (_, a, r) => (cstr (r.query.getD []), a, r)

def queryGet (a : Arena) (r : Req) (name : Bytes) : Option Bytes × Arena × Req :=
  match cercoQuery a r with
  | (q, a, r) =>
    match queryLoop name q.length q with
    | none => (none, a, r)
    | some value =>
      match arenaStrdup a value with
      | (v, a) => (v, a, r)

/-- All pairs that the walker sees, if it meets no bad escape. -/
def queryPairs : ℕ → Bytes → Option (List (Bytes × Bytes))
  | 0, q => if q = [] then some [] else none
  | n + 1, q =>
    match queryNext kbufRoom vbufRoom q with
    | .done => some []
    | .reject => none
    | .pair key value rest => (queryPairs n rest).map ((key, value) :: ·)

/-- `[A-Za-z0-9_.~-]` -/
def unreserved (c : UInt8) : Bool :=
  (65 ≤ c && c ≤ 90) || (97 ≤ c && c ≤ 122) || (48 ≤ c && c ≤ 57) || c == 95 || c == 46 ||
    c == 126 || c == 45

def hexDigit (n : ℕ) : UInt8 := if n < 10 then UInt8.ofNat (48 + n) else UInt8.ofNat (55 + n)

def percentByte (c : UInt8) : Bytes :=
  if unreserved c then [c] else [37, hexDigit (c.toNat / 16), hexDigit (c.toNat % 16)]

def percentEncode (s : Bytes) : Bytes := s.flatMap percentByte

/-- A pair with each text passed through `f`. -/
def pairText (f : Bytes → Bytes) (p : Bytes × Bytes) : Bytes := f p.1 ++ 61 :: f p.2

def joinRest (f : Bytes → Bytes) (ps : List (Bytes × Bytes)) : Bytes :=
  ps.flatMap fun p => 38 :: pairText f p

/-- The pairs joined with `&`. -/
def joinPairs (f : Bytes → Bytes) : List (Bytes × Bytes) → Bytes
  | [] => []
  | p :: ps => pairText f p ++ joinRest f ps

theorem hexval_hexDigit : ∀ n < 16, hexval (hexDigit n) = some n := by decide

theorem urlDecode_plain (plus : Bool) {c : UInt8} (h : c ≠ 37) (hp : plus = true → c ≠ 43) (room : ℕ)
    (rest : Bytes) : urlDecode plus (room + 1) (c :: rest) = (urlDecode plus room rest).map (c :: ·) := by
  have not_space : ¬ (c = 43 ∧ plus = true) := fun e => hp e.2 e.1
  cases rest with
  | nil => rw [urlDecode.eq_def]; simp only [if_neg h, if_neg not_space]
  | cons d rest => cases rest <;> (rw [urlDecode.eq_def]; simp only [if_neg h, if_neg not_space])

theorem urlDecode_percentByte (plus : Bool) (c : UInt8) (room : ℕ) (rest : Bytes) :
    urlDecode plus (room + 1) (percentByte c ++ rest) = (urlDecode plus room rest).map (c :: ·) := by
  unfold percentByte
  by_cases h : unreserved c = true
  · have plain : c ≠ 37 ∧ c ≠ 43 := by
      constructor <;> rintro rfl <;> exact absurd h (by decide)
    rw [if_pos h, List.singleton_append, urlDecode_plain plus plain.1 fun _ => plain.2]
  · have hi := hexval_hexDigit (c.toNat / 16) (by have := c.toNat_lt; omega)
    have lo := hexval_hexDigit (c.toNat % 16) (by omega)
    have whole : UInt8.ofNat (c.toNat / 16 * 16 + c.toNat % 16) = c := by
      rw [show c.toNat / 16 * 16 + c.toNat % 16 = c.toNat by omega]
      exact UInt8.ofNat_toNat
    rw [if_neg h]
    simp only [List.cons_append, List.nil_append]
    rw [urlDecode, if_pos rfl]
    simp only [hi, lo, whole]

theorem urlDecode_percentEncode (plus : Bool) (s : Bytes) (room : ℕ) (rest : Bytes) :
    urlDecode plus (s.length + room) (percentEncode s ++ rest) =
      (urlDecode plus room rest).map (s ++ ·) := by
  induction s with
  | nil =>
    rw [List.length_nil, Nat.zero_add]
    change _ = Option.map (fun x => [] ++ x) _
    simp [percentEncode]
  | cons c s ih =>
    have split : percentEncode (c :: s) = percentByte c ++ percentEncode s := rfl
    rw [split, List.append_assoc, List.length_cons, show s.length + 1 + room = s.length + room + 1 by
      omega, urlDecode_percentByte, ih, Option.map_map]
    rfl

theorem urlDecode_pairText (plus : Bool) (p : Bytes × Bytes) (room : ℕ) (rest : Bytes) :
    urlDecode plus ((pairText id p).length + room) (pairText percentEncode p ++ rest) =
      (urlDecode plus room rest).map (pairText id p ++ ·) := by
  have len : (pairText id p).length + room = p.1.length + (p.2.length + room + 1) := by
    simp only [pairText, id, List.length_append, List.length_cons]
    omega
  have shape : pairText percentEncode p ++ rest =
      percentEncode p.1 ++ (61 :: (percentEncode p.2 ++ rest)) := by
    simp [pairText]
  rw [len, shape, urlDecode_percentEncode, urlDecode_plain plus (by decide) fun _ => by decide,
    urlDecode_percentEncode, Option.map_map, Option.map_map]
  congr 1
  funext s
  simp [pairText]

theorem urlDecode_joinRest (plus : Bool) (ps : List (Bytes × Bytes)) (room : ℕ) :
    urlDecode plus ((joinRest id ps).length + room) (joinRest percentEncode ps) =
      some (joinRest id ps) := by
  induction ps generalizing room with
  | nil =>
    change urlDecode plus (0 + room) [] = some []
    cases room <;> rfl
  | cons p ps ih =>
    have len : (joinRest id (p :: ps)).length + room =
        (pairText id p).length + ((joinRest id ps).length + room) + 1 := by
      simp only [joinRest, List.flatMap_cons, List.length_append, List.length_cons]
      omega
    have shape : joinRest percentEncode (p :: ps) =
        38 :: (pairText percentEncode p ++ joinRest percentEncode ps) := rfl
    rw [len, shape, urlDecode_plain plus (by decide) fun _ => by decide, urlDecode_pairText, ih]
    rfl

theorem urlDecode_joinPairs (plus : Bool) (ps : List (Bytes × Bytes)) (room : ℕ) :
    urlDecode plus ((joinPairs id ps).length + room) (joinPairs percentEncode ps) =
      some (joinPairs id ps) := by
  cases ps with
  | nil =>
    change urlDecode plus (0 + room) [] = some []
    cases room <;> rfl
  | cons p ps =>
    have len : (joinPairs id (p :: ps)).length + room =
        (pairText id p).length + ((joinRest id ps).length + room) := by
      simp only [joinPairs, List.length_append]
      omega
    rw [len, joinPairs, urlDecode_pairText, urlDecode_joinRest]
    rfl

theorem urlDecode_count {plus : Bool} {room : ℕ} {s d : Bytes} (h : urlDecode plus room s = some d) :
    d.length + 2 * s.count 37 = s.length := by
  induction room, s using urlDecode.induct plus generalizing d with
  | case1 room => cases room <;> (cases h; rfl)
  | case2 c rest => cases h
  | case3 room x l rest hi lo el eh ih =>
    have digit : hexval 37 = none := by decide
    have hx : x ≠ 37 := fun e => by rw [e, digit] at eh; cases eh
    have hl : l ≠ 37 := fun e => by rw [e, digit] at el; cases el
    simp only [urlDecode, ↓reduceIte, el, eh, Option.map_eq_some_iff] at h
    obtain ⟨e, he, rfl⟩ := h
    have tail := ih he
    rw [List.count_cons_self, List.count_cons_of_ne hx, List.count_cons_of_ne hl]
    simp only [List.length_cons]
    omega
  | case4 room x l rest bad =>
    simp only [urlDecode, ↓reduceIte] at h
    cases h
  | case5 room rest short =>
    rw [urlDecode.eq_def] at h
    simp only [↓reduceIte] at h
    cases h
  | case6 room c rest hc hp ih =>
    rw [urlDecode.eq_def] at h
    simp only [if_neg hc, if_pos hp, Option.map_eq_some_iff] at h
    obtain ⟨e, he, rfl⟩ := h
    have tail := ih he
    rw [List.count_cons_of_ne hc, List.length_cons, List.length_cons]
    omega
  | case7 room c rest hc hp ih =>
    rw [urlDecode.eq_def] at h
    simp only [if_neg hc, if_neg hp, Option.map_eq_some_iff] at h
    obtain ⟨e, he, rfl⟩ := h
    have tail := ih he
    rw [List.count_cons_of_ne hc, List.length_cons, List.length_cons]
    omega

theorem urlDecode_length {plus : Bool} {room : ℕ} {s d : Bytes} (h : urlDecode plus room s = some d) :
    d.length ≤ s.length := by
  have count := urlDecode_count h
  omega

theorem urlDecode_no_escape {plus : Bool} (space : plus = true) {room : ℕ} {s d : Bytes}
    (h : urlDecode plus room s = some d) (h37 : 37 ∉ s) : d = s.map fun c => if c = 43 then 32 else c := by
  induction room, s using urlDecode.induct plus generalizing d with
  | case1 room => cases room <;> (cases h; rfl)
  | case2 c rest => cases h
  | case3 room x l rest hi lo el eh ih => exact absurd List.mem_cons_self h37
  | case4 room x l rest bad => exact absurd List.mem_cons_self h37
  | case5 room rest short => exact absurd List.mem_cons_self h37
  | case6 room c rest hc hp ih =>
    rw [urlDecode.eq_def] at h
    simp only [if_neg hc, if_pos hp, Option.map_eq_some_iff] at h
    obtain ⟨e, he, rfl⟩ := h
    rw [List.map_cons, if_pos hp.1, ← ih he fun hm => h37 (List.mem_cons_of_mem c hm)]
  | case7 room c rest hc hp ih =>
    rw [urlDecode.eq_def] at h
    simp only [if_neg hc, if_neg hp, Option.map_eq_some_iff] at h
    obtain ⟨e, he, rfl⟩ := h
    rw [List.map_cons, if_neg fun e => hp ⟨e, space⟩,
      ← ih he fun hm => h37 (List.mem_cons_of_mem c hm)]

theorem urlDecode_fixed {plus : Bool} (space : plus = true) {room : ℕ} {s : Bytes}
    (h : urlDecode plus room s = some s) : 37 ∉ s ∧ 43 ∉ s := by
  have count := urlDecode_count h
  have h37 : 37 ∉ s := by
    rw [← List.count_eq_zero]
    omega
  have same := urlDecode_no_escape space h h37
  refine ⟨h37, fun hm => ?_⟩
  rw [same] at hm
  obtain ⟨c, _, e⟩ := List.mem_map.mp hm
  split at e
  · cases e
  · rename_i other
    exact other e

theorem urlDecode_clean {s : Bytes} (h37 : 37 ∉ s) (h43 : 43 ∉ s) {room : ℕ} (hr : s.length ≤ room) :
    urlDecode true room s = some s := by
  induction s generalizing room with
  | nil => cases room <;> rfl
  | cons c s ih =>
    simp only [List.mem_cons, not_or] at h37 h43
    obtain ⟨room, rfl⟩ : ∃ n, room = n + 1 := ⟨room - 1, by simp only [List.length_cons] at hr; omega⟩
    rw [urlDecode_plain true (Ne.symm h37.1) fun _ => Ne.symm h43.1,
      ih h37.2 h43.2 (by simpa using hr)]
    rfl

/-- Nothing in the pair means anything to a second decoding. -/
def CleanPair (p : Bytes × Bytes) : Prop :=
  (37 ∉ p.1 ∧ 38 ∉ p.1 ∧ 43 ∉ p.1 ∧ 61 ∉ p.1) ∧ 37 ∉ p.2 ∧ 38 ∉ p.2 ∧ 43 ∉ p.2

instance (p : Bytes × Bytes) : Decidable (CleanPair p) := inferInstanceAs (Decidable (_ ∧ _))

theorem takeWhile_stop {α : Type} {p : α → Bool} (s : List α) {c : α} (hc : p c = false) (r : List α) :
    (s ++ c :: r).takeWhile p = s.takeWhile p ∧
      (s.takeWhile p = s → (s ++ c :: r).dropWhile p = c :: r) := by
  induction s with
  | nil => simp [hc]
  | cons b s ih =>
    by_cases hb : p b = true
    · simp only [List.cons_append, List.takeWhile_cons_of_pos hb, List.dropWhile_cons_of_pos hb, ih.1,
        List.cons.injEq, true_and]
      exact ih.2
    · simp only [List.cons_append, List.takeWhile_cons_of_neg hb, true_and]
      intro h
      cases h

theorem joinRest_stop (s : Bytes) (ps : List (Bytes × Bytes)) :
    (s ++ joinRest id ps).takeWhile (fun b => !isValueEnd b) = s.takeWhile (fun b => !isValueEnd b) ∧
      (s.takeWhile (fun b => !isValueEnd b) = s →
        skipAmp ((s ++ joinRest id ps).dropWhile fun b => !isValueEnd b) = joinPairs id ps) := by
  cases ps with
  | nil =>
    change (s ++ []).takeWhile _ = _ ∧ (_ → skipAmp ((s ++ []).dropWhile _) = [])
    rw [List.append_nil]
    refine ⟨rfl, fun h => ?_⟩
    rw [List.dropWhile_eq_nil_iff.mpr (List.takeWhile_eq_self_iff.mp h)]
    rfl
  | cons p ps =>
    have stop := takeWhile_stop (p := fun b => !isValueEnd b) s (c := 38) (by decide)
      (pairText id p ++ joinRest id ps)
    refine ⟨stop.1, fun h => ?_⟩
    change skipAmp ((s ++ 38 :: (pairText id p ++ joinRest id ps)).dropWhile _) = _
    rw [stop.2 h]
    rfl

theorem queryNext_pairText {kroom vroom : ℕ} {p : Bytes × Bytes} (ps : List (Bytes × Bytes)) :
    (p.1.takeWhile (fun b => !isKeyEnd b) = p.1 →
      queryNext kroom vroom (pairText id p ++ joinRest id ps) =
        match urlDecode true kroom p.1 with
        | none => .reject
        | some key =>
          match urlDecode true vroom (p.2.takeWhile fun b => !isValueEnd b) with
          | none => .reject
          | some value => .pair key value (skipAmp ((p.2 ++ joinRest id ps).dropWhile
              fun b => !isValueEnd b))) ∧
    ∀ key value rest, queryNext kroom vroom (pairText id p ++ joinRest id ps) = .pair key value rest →
      urlDecode true kroom (p.1.takeWhile fun b => !isKeyEnd b) = some key := by
  have shape : pairText id p ++ joinRest id ps = p.1 ++ 61 :: (p.2 ++ joinRest id ps) := by
    simp [pairText]
  obtain ⟨taken, dropped⟩ := takeWhile_stop (p := fun b => !isKeyEnd b) p.1 (c := 61) (by decide)
    (p.2 ++ joinRest id ps)
  rw [shape]
  generalize hq : p.1 ++ 61 :: (p.2 ++ joinRest id ps) = q at taken dropped ⊢
  cases q with
  | nil => simp at hq
  | cons c cs =>
    constructor
    · intro whole
      simp only [queryNext, taken, whole, dropped whole, (joinRest_stop p.2 ps).1]
    · intro key value rest h
      simp only [queryNext, taken] at h
      split at h
      · cases h
      · rename_i k hk
        split at h
        · split at h
          · cases h
          · cases h
            exact hk
        · cases h
          exact hk

theorem key_whole_iff (k : Bytes) : k.takeWhile (fun b => !isKeyEnd b) = k ↔ 38 ∉ k ∧ 61 ∉ k := by
  rw [List.takeWhile_eq_self_iff]
  constructor
  · intro h
    exact ⟨fun hm => absurd (h 38 hm) (by decide), fun hm => absurd (h 61 hm) (by decide)⟩
  · intro h c hc
    have ne : c ≠ 38 ∧ c ≠ 61 := ⟨fun e => h.1 (e ▸ hc), fun e => h.2 (e ▸ hc)⟩
    simp [isKeyEnd, ne]

theorem value_whole_iff (v : Bytes) : v.takeWhile (fun b => !isValueEnd b) = v ↔ 38 ∉ v := by
  rw [List.takeWhile_eq_self_iff]
  constructor
  · intro h hm
    exact absurd (h 38 hm) (by decide)
  · intro h c hc
    have ne : c ≠ 38 := fun e => h (e ▸ hc)
    simp [isValueEnd, ne]

theorem takeWhile_decodes {p : UInt8 → Bool} {room : ℕ} {s : Bytes}
    (h : urlDecode true room (s.takeWhile p) = some s) : s.takeWhile p = s :=
  (List.takeWhile_prefix p).eq_of_length_le (urlDecode_length h)

theorem queryNext_iff {p : Bytes × Bytes} (ps : List (Bytes × Bytes)) (hk : p.1.length ≤ kbufRoom)
    (hv : p.2.length ≤ vbufRoom) (rest : Bytes) :
    queryNext kbufRoom vbufRoom (pairText id p ++ joinRest id ps) = .pair p.1 p.2 rest ↔
      CleanPair p ∧ rest = joinPairs id ps := by
  obtain ⟨value, stop⟩ := joinRest_stop p.2 ps
  obtain ⟨walked, read⟩ := @queryNext_pairText kbufRoom vbufRoom p ps
  constructor
  · intro h
    have key_whole := takeWhile_decodes (read _ _ _ h)
    have key := read _ _ _ h
    rw [key_whole] at key
    rw [walked key_whole, key] at h
    dsimp only at h
    split at h
    · cases h
    · rename_i v hv
      injection h with _ ev er
      rw [ev] at hv
      have value_whole := takeWhile_decodes hv
      rw [value_whole] at hv
      obtain ⟨k37, k43⟩ := urlDecode_fixed rfl key
      obtain ⟨v37, v43⟩ := urlDecode_fixed rfl hv
      obtain ⟨k38, k61⟩ := (key_whole_iff _).mp key_whole
      exact ⟨⟨⟨k37, k38, k43, k61⟩, v37, (value_whole_iff _).mp value_whole, v43⟩,
        er.symm.trans (stop value_whole)⟩
  · rintro ⟨⟨⟨k37, k38, k43, k61⟩, v37, v38, v43⟩, rfl⟩
    have value_whole := (value_whole_iff p.2).mpr v38
    rw [walked ((key_whole_iff _).mpr ⟨k38, k61⟩), urlDecode_clean k37 k43 hk]
    dsimp only
    rw [value_whole, urlDecode_clean v37 v43 hv, stop value_whole]

theorem queryPairs_iff {ps : List (Bytes × Bytes)} (short : ∀ p ∈ ps, p.1.length ≤ kbufRoom ∧
    p.2.length ≤ vbufRoom) {n : ℕ} (hn : ps.length ≤ n) :
    queryPairs n (joinPairs id ps) = some ps ↔ ∀ p ∈ ps, CleanPair p := by
  induction ps generalizing n with
  | nil =>
    cases n <;> simp [queryPairs, joinPairs, queryNext]
  | cons p ps ih =>
    obtain ⟨n, rfl⟩ : ∃ m, n = m + 1 := ⟨n - 1, by simp only [List.length_cons] at hn; omega⟩
    have size := short p List.mem_cons_self
    have tail := ih (fun q hq => short q (List.mem_cons_of_mem p hq)) (n := n) (by simpa using hn)
    have head := queryNext_iff (p := p) ps size.1 size.2
    rw [List.forall_mem_cons]
    constructor
    · intro h
      rw [queryPairs] at h
      split at h
      · simp at h
      · cases h
      · rename_i key value rest e
        obtain ⟨qs, hqs, same⟩ := Option.map_eq_some_iff.mp h
        injection same with hp hps
        subst hps
        have split_pair : key = p.1 ∧ value = p.2 := by rw [← hp]; exact ⟨rfl, rfl⟩
        rw [split_pair.1, split_pair.2] at e
        obtain ⟨clean, rfl⟩ := (head rest).mp e
        exact ⟨clean, tail.mp hqs⟩
    · rintro ⟨clean, cleans⟩
      rw [queryPairs, joinPairs, (head _).mpr ⟨clean, rfl⟩]
      dsimp only
      rw [tail.mpr cleans]
      rfl

/-- The value of the first pair with this key. -/
def lookupPair (name : Bytes) (ps : List (Bytes × Bytes)) : Option Bytes :=
  (ps.find? fun p => strcaseeq p.1 name).map (·.2)

theorem queryLoop_clean {ps : List (Bytes × Bytes)} (short : ∀ p ∈ ps, p.1.length ≤ kbufRoom ∧
    p.2.length ≤ vbufRoom) (nulFree : ∀ p ∈ ps, 0 ∉ p.1) (clean : ∀ p ∈ ps, CleanPair p)
    (name : Bytes) {n : ℕ} (hn : ps.length ≤ n) :
    queryLoop name n (joinPairs id ps) = lookupPair name ps := by
  induction ps generalizing n with
  | nil => cases n <;> rfl
  | cons p ps ih =>
    obtain ⟨n, rfl⟩ : ∃ m, n = m + 1 := ⟨n - 1, by simp only [List.length_cons] at hn; omega⟩
    have size := short p List.mem_cons_self
    have tail := ih (fun q hq => short q (List.mem_cons_of_mem p hq))
      (fun q hq => nulFree q (List.mem_cons_of_mem p hq))
      (fun q hq => clean q (List.mem_cons_of_mem p hq)) (n := n) (by simpa using hn)
    rw [queryLoop, joinPairs, (queryNext_iff ps size.1 size.2 _).mpr
      ⟨clean p List.mem_cons_self, rfl⟩]
    dsimp only
    rw [cstr_of_nulFree (nulFree p List.mem_cons_self), tail]
    unfold lookupPair
    rw [List.find?_cons]
    by_cases h : strcaseeq p.1 name = true
    · rw [if_pos h, h]
      rfl
    · rw [if_neg h, Bool.eq_false_iff.mpr h]

theorem joinRest_length (ps : List (Bytes × Bytes)) : ps.length ≤ (joinRest id ps).length := by
  induction ps with
  | nil => exact Nat.le_refl _
  | cons p ps ih =>
    simp only [joinRest, List.flatMap_cons, List.length_append, List.length_cons] at ih ⊢
    omega

theorem joinPairs_length (ps : List (Bytes × Bytes)) : ps.length ≤ (joinPairs id ps).length := by
  cases ps with
  | nil => exact Nat.le_refl _
  | cons p ps =>
    have rest := joinRest_length ps
    simp only [joinPairs, pairText, List.length_append, List.length_cons]
    omega

theorem urlDecode_escape {plus : Bool} {room : ℕ} {s d : Bytes} (h : urlDecode plus room s = some d)
    (h37 : 37 ∈ s) : d.length + 2 ≤ s.length := by
  have count := urlDecode_count h
  have some : 0 < s.count 37 := List.count_pos_iff.mpr h37
  omega

theorem urlDecode_escaped {room : ℕ} {s d : Bytes} (h : urlDecode true room s = some d) {c : UInt8}
    (hc : c ∈ d) (h32 : c ≠ 32) (odd : c ∉ s ∨ c = 37 ∨ c = 43) : 37 ∈ s := by
  by_contra h37
  rw [urlDecode_no_escape rfl h h37] at hc
  obtain ⟨b, hb, e⟩ := List.mem_map.mp hc
  split at e
  · exact h32 e.symm
  · rename_i plus
    subst e
    obtain odd | rfl | rfl := odd
    · exact odd hb
    · exact h37 hb
    · exact plus rfl

/-- A part of the string between two `&` and the pair it stands for. -/
structure Piece (w key value : Bytes) : Prop where
  whole : 38 ∉ w
  read : ∃ kr, 61 ∉ kr ∧ urlDecode true kbufRoom kr = some key ∧
    ((∃ vr, w = kr ++ 61 :: vr ∧ urlDecode true vbufRoom vr = some value) ∨ w = kr ∧ value = [])

theorem skipAmp_suffix (s : Bytes) : ∃ t, s = t ++ skipAmp s := by
  unfold skipAmp
  split
  · exact ⟨[], rfl⟩
  · rename_i c rest
    split
    · exact ⟨[c], rfl⟩
    · exact ⟨[], rfl⟩

theorem queryNext_piece {q key value rest : Bytes}
    (h : queryNext kbufRoom vbufRoom q = .pair key value rest) :
    ∃ w t, q = w ++ t ∧ Piece w key value ∧ ∃ u, t = u ++ rest := by
  cases q with
  | nil => cases h
  | cons c cs =>
    simp only [queryNext] at h
    generalize c :: cs = q at h ⊢
    have cut := List.takeWhile_append_dropWhile (p := fun b => !isKeyEnd b) (l := q)
    have clean : ∀ b ∈ q.takeWhile fun b => !isKeyEnd b, b ≠ 38 ∧ b ≠ 61 := by
      intro b hb
      have := List.mem_takeWhile_imp hb
      simpa [isKeyEnd, and_comm] using this
    have k38 : 38 ∉ q.takeWhile fun b => !isKeyEnd b := fun hm => (clean _ hm).1 rfl
    have k61 : 61 ∉ q.takeWhile fun b => !isKeyEnd b := fun hm => (clean _ hm).2 rfl
    generalize q.takeWhile (fun b => !isKeyEnd b) = kr at h cut k38 k61
    generalize q.dropWhile (fun b => !isKeyEnd b) = tail at h cut
    split at h
    · cases h
    · rename_i k hk
      split at h
      · rename_i vs
        have vcut := List.takeWhile_append_dropWhile (p := fun b => !isValueEnd b) (l := vs)
        have v38 : 38 ∉ vs.takeWhile fun b => !isValueEnd b := fun hm =>
          absurd (List.mem_takeWhile_imp hm) (by decide)
        generalize vs.takeWhile (fun b => !isValueEnd b) = vr at h vcut v38
        generalize vs.dropWhile (fun b => !isValueEnd b) = left at h vcut
        split at h
        · cases h
        · rename_i v hv
          cases h
          refine ⟨kr ++ 61 :: vr, left, ?_, ⟨?_, kr, k61, hk, .inl ⟨vr, rfl, hv⟩⟩,
            skipAmp_suffix left⟩
          · rw [← cut, ← vcut, List.append_assoc]
            rfl
          · simp [k38, v38]
      · cases h
        exact ⟨kr, tail, cut.symm, ⟨k38, kr, k61, hk, .inr ⟨rfl, rfl⟩⟩, skipAmp_suffix tail⟩

theorem queryLoop_piece {name : Bytes} {n : ℕ} {q value : Bytes}
    (h : queryLoop name n q = some value) :
    ∃ w key, w <:+: q ∧ Piece w key value ∧ strcaseeq (cstr key) name = true := by
  induction n generalizing q with
  | zero => cases h
  | succ n ih =>
    rw [queryLoop] at h
    split at h
    · rename_i key v rest e
      obtain ⟨w, t, hq, piece, u, ht⟩ := queryNext_piece e
      split at h
      · rename_i same
        cases h
        exact ⟨w, key, ⟨[], t, by rw [List.nil_append, hq]⟩, piece, same⟩
      · obtain ⟨w', key', within, found⟩ := ih h
        refine ⟨w', key', within.trans ⟨w ++ u, [], ?_⟩, found⟩
        rw [hq, ht]
        simp
    · cases h

theorem infix_amp {w a b : Bytes} (h38 : 38 ∉ w) (h : w <:+: a ++ 38 :: b) : w <:+: a ∨ w <:+: b := by
  obtain ⟨s, t, e⟩ := h
  rw [List.append_assoc] at e
  obtain ⟨u, hs, ht⟩ | ⟨u, hs, ht⟩ := List.append_eq_append_iff.mp e
  · obtain ⟨x, hx, hy⟩ | ⟨x, hx, hy⟩ := List.append_eq_append_iff.mp ht
    · exact .inl ⟨s, x, by rw [hs, hx, List.append_assoc]⟩
    · cases x with
      | nil => exact .inl ⟨s, [], by rw [hs, hx, List.append_nil, List.append_nil]⟩
      | cons c x =>
        injection hy with hc _
        exact absurd (hx ▸ List.mem_append_right u (hc ▸ List.mem_cons_self)) h38
  · cases u with
    | nil =>
      cases w with
      | nil => exact .inl List.nil_infix
      | cons c w =>
        injection ht with hc _
        exact absurd (hc ▸ List.mem_cons_self) h38
    | cons c u =>
      injection ht with _ hb
      refine .inr ⟨u, t, ?_⟩
      rw [hb, List.append_assoc]
      rfl

theorem infix_joinRest {w : Bytes} (h38 : 38 ∉ w) {a : Bytes}
    {ps : List (Bytes × Bytes)} (h : w <:+: a ++ joinRest id ps) :
    w <:+: a ∨ ∃ p ∈ ps, w <:+: pairText id p := by
  induction ps generalizing a with
  | nil => exact .inl (by simpa [joinRest] using h)
  | cons p ps ih =>
    change w <:+: a ++ 38 :: (pairText id p ++ joinRest id ps) at h
    obtain h | h := infix_amp h38 h
    · exact .inl h
    · obtain h | ⟨q, hq, h⟩ := ih h
      · exact .inr ⟨p, List.mem_cons_self, h⟩
      · exact .inr ⟨q, List.mem_cons_of_mem p hq, h⟩

theorem infix_joinPairs {w : Bytes} (h38 : 38 ∉ w) (hw : w ≠ []) {ps : List (Bytes × Bytes)}
    (h : w <:+: joinPairs id ps) : ∃ p ∈ ps, w <:+: pairText id p := by
  cases ps with
  | nil => exact absurd (List.eq_nil_of_infix_nil h) hw
  | cons p ps =>
    obtain h | ⟨q, hq, h⟩ := infix_joinRest h38 h
    · exact ⟨p, List.mem_cons_self, h⟩
    · exact ⟨q, List.mem_cons_of_mem p hq, h⟩

theorem toLower_special {c d : UInt8} (special : c = 37 ∨ c = 38 ∨ c = 43 ∨ c = 61)
    (h : toLower d = toLower c) : d = c := by
  have fixed : toLower c = c := by
    obtain rfl | rfl | rfl | rfl := special <;> rfl
  have low : c.toNat < 97 := by
    obtain rfl | rfl | rfl | rfl := special <;> decide
  rw [fixed] at h
  unfold toLower at h
  split at h
  · rename_i upper
    have size := congrArg UInt8.toNat h
    have hi := UInt8.le_iff_toNat_le.mp upper.1
    have lo := UInt8.le_iff_toNat_le.mp upper.2
    rw [UInt8.toNat_add] at size
    change 65 ≤ d.toNat at hi
    change d.toNat ≤ 90 at lo
    change (d.toNat + 32) % 256 = _ at size
    omega
  · exact h

theorem strcaseeq_special {k name : Bytes} (same : strcaseeq (cstr k) name = true) {c : UInt8}
    (hc : c ∈ name) (special : c = 37 ∨ c = 38 ∨ c = 43 ∨ c = 61) : c ∈ k := by
  have low : toLower c ∈ (cstr k).map toLower := by
    rw [(strcaseeq_iff _ _).mp same]
    exact List.mem_map_of_mem hc
  obtain ⟨d, hd, e⟩ := List.mem_map.mp low
  rw [← toLower_special special e]
  exact (List.takeWhile_prefix _).subset hd

theorem cstr_length (k : Bytes) : (cstr k).length ≤ k.length := (List.takeWhile_prefix _).length_le

theorem strcaseeq_length {a b : Bytes} (same : strcaseeq a b = true) : a.length = b.length := by
  have := congrArg List.length ((strcaseeq_iff a b).mp same)
  simpa using this

theorem not_cleanPair {p : Bytes × Bytes} (h : ¬ CleanPair p) :
    (∃ c ∈ p.1, c = 37 ∨ c = 38 ∨ c = 43 ∨ c = 61) ∨ ∃ c ∈ p.2, c = 37 ∨ c = 38 ∨ c = 43 := by
  by_contra none
  simp only [not_or, not_exists, not_and] at none
  refine h ⟨⟨?_, ?_, ?_, ?_⟩, ?_, ?_, ?_⟩ <;> intro hm
  · exact (none.1 37 hm).1 rfl
  · exact (none.1 38 hm).2.1 rfl
  · exact (none.1 43 hm).2.2.1 rfl
  · exact (none.1 61 hm).2.2.2 rfl
  · exact (none.2 37 hm).1 rfl
  · exact (none.2 38 hm).2.1 rfl
  · exact (none.2 43 hm).2.2 rfl

/-- A part that yields a pair which is not clean holds an escape, and is longer than
the pair written out. -/
theorem Piece.longer {w key value : Bytes} (piece : Piece w key value) {p : Bytes × Bytes}
    (same : strcaseeq (cstr key) p.1 = true) (hv : cstr value = p.2) (dirty : ¬ CleanPair p) :
    37 ∈ w ∧ (pairText id p).length < w.length := by
  obtain ⟨whole, kr, k61, hk, shape⟩ := piece
  have klen : p.1.length ≤ key.length := by
    rw [← strcaseeq_length same]
    exact cstr_length key
  have vlen : p.2.length ≤ value.length := by
    rw [← hv]
    exact cstr_length value
  have kraw := urlDecode_length hk
  have kr38 : 38 ∉ kr := by
    intro hm
    obtain ⟨vr, rfl, _⟩ | ⟨rfl, _⟩ := shape
    · exact whole (List.mem_append_left _ hm)
    · exact whole hm
  have in_key : (∃ c ∈ p.1, c = 37 ∨ c = 38 ∨ c = 43 ∨ c = 61) → 37 ∈ kr := by
    rintro ⟨c, hc, special⟩
    refine urlDecode_escaped hk (strcaseeq_special same hc special) ?_ ?_
    · rintro rfl
      exact absurd special (by decide)
    · obtain rfl | rfl | rfl | rfl := special
      · exact .inr (.inl rfl)
      · exact .inl kr38
      · exact .inr (.inr rfl)
      · exact .inl k61
  have text : (pairText id p).length = p.1.length + p.2.length + 1 := by
    simp only [pairText, id, List.length_append, List.length_cons]
    omega
  obtain ⟨vr, rfl, hvr⟩ | ⟨rfl, rfl⟩ := shape
  · have vraw := urlDecode_length hvr
    have vr38 : 38 ∉ vr := fun hm => whole (List.mem_append_right _ (List.mem_cons_of_mem _ hm))
    have wlen : (kr ++ 61 :: vr).length = kr.length + vr.length + 1 := by
      simp only [List.length_append, List.length_cons]
      omega
    obtain bad | ⟨c, hc, special⟩ := not_cleanPair dirty
    · have cost := urlDecode_escape hk (in_key bad)
      exact ⟨List.mem_append_left _ (in_key bad), by omega⟩
    · have escape : 37 ∈ vr := by
        refine urlDecode_escaped hvr ((List.takeWhile_prefix _).subset (hv ▸ hc)) ?_ ?_
        · rintro rfl
          exact absurd special (by decide)
        · obtain rfl | rfl | rfl := special
          · exact .inr (.inl rfl)
          · exact .inl vr38
          · exact .inr (.inr rfl)
      have cost := urlDecode_escape hvr escape
      exact ⟨List.mem_append_right _ (List.mem_cons_of_mem _ escape), by omega⟩
  · obtain bad | ⟨c, hc, _⟩ := not_cleanPair dirty
    · have cost := urlDecode_escape hk (in_key bad)
      have : p.2.length = 0 := by
        rw [← hv]
        rfl
      exact ⟨in_key bad, by omega⟩
    · rw [← hv] at hc
      cases hc

theorem lookupPair_mem {ps : List (Bytes × Bytes)}
    (distinct : ps.Pairwise fun p q => strcaseeq p.1 q.1 = false) {p : Bytes × Bytes} (hp : p ∈ ps) :
    lookupPair p.1 ps = some p.2 := by
  induction ps with
  | nil => cases hp
  | cons q ps ih =>
    obtain ⟨apart, distinct⟩ := List.pairwise_cons.mp distinct
    unfold lookupPair
    rw [List.find?_cons]
    obtain rfl | hp := List.mem_cons.mp hp
    · rw [(strcaseeq_iff _ _).mpr rfl]
      rfl
    · rw [apart p hp]
      exact ih distinct hp

theorem pairText_le {ps : List (Bytes × Bytes)} {p : Bytes × Bytes} (hp : p ∈ ps) :
    (pairText id p).length ≤ (joinPairs id ps).length := by
  cases ps with
  | nil => cases hp
  | cons q ps =>
    rw [joinPairs, List.length_append]
    obtain rfl | hp := List.mem_cons.mp hp
    · omega
    · have part := (List.sublist_flatten_of_mem (List.mem_map_of_mem
        (f := fun p => 38 :: pairText id p) hp)).length_le
      rw [← List.flatMap_def] at part
      simp only [List.length_cons] at part
      change _ ≤ _ + (ps.flatMap fun p => 38 :: pairText id p).length
      omega

/-- A pair that is not clean could only be read from a longer one, which is not clean
either: there is none. -/
theorem clean_of_hits {ps : List (Bytes × Bytes)}
    (hits : ∀ p ∈ ps, ∃ value, queryLoop p.1 (joinPairs id ps).length (joinPairs id ps) = some value ∧
      cstr value = p.2) : ∀ p ∈ ps, CleanPair p := by
  have next : ∀ p ∈ ps, ¬ CleanPair p →
      ∃ q ∈ ps, ¬ CleanPair q ∧ (pairText id p).length < (pairText id q).length := by
    intro p hp dirty
    obtain ⟨value, hit, hv⟩ := hits p hp
    obtain ⟨w, key, within, piece, same⟩ := queryLoop_piece hit
    obtain ⟨escape, longer⟩ := piece.longer same hv dirty
    obtain ⟨q, hq, inside⟩ := infix_joinPairs piece.whole (List.ne_nil_of_mem escape) within
    refine ⟨q, hq, fun clean => ?_, longer.trans_le inside.length_le⟩
    obtain hm | hm := List.mem_append.mp (inside.subset escape)
    · exact clean.1.1 hm
    · exact clean.2.1 ((List.mem_cons.mp hm).resolve_left (by decide))
  intro p hp
  by_contra dirty
  have climb : ∀ m, ∃ q ∈ ps, ¬ CleanPair q ∧ m ≤ (pairText id q).length := by
    intro m
    induction m with
    | zero => exact ⟨p, hp, dirty, Nat.zero_le _⟩
    | succ m ih =>
      obtain ⟨q, hq, bad, size⟩ := ih
      obtain ⟨q', hq', bad', longer⟩ := next q hq bad
      exact ⟨q', hq', bad', by omega⟩
  obtain ⟨q, hq, _, size⟩ := climb ((joinPairs id ps).length + 1)
  have := pairText_le hq
  omega

theorem percentEncode_nulFree (s : Bytes) : 0 ∉ percentEncode s := by
  have digit : ∀ n < 16, hexDigit n ≠ 0 := by decide
  intro h
  obtain ⟨c, _, hc⟩ := List.mem_flatMap.mp h
  unfold percentByte at hc
  split at hc
  · rename_i free
    rw [← List.mem_singleton.mp hc] at free
    exact absurd free (by decide)
  · have hi := digit (c.toNat / 16) (by have := c.toNat_lt; omega)
    have lo := digit (c.toNat % 16) (by omega)
    simp only [List.mem_cons, List.not_mem_nil, or_false] at hc
    obtain hc | hc | hc := hc
    · cases hc
    · exact hi hc.symm
    · exact lo hc.symm

theorem joinPairs_nulFree {f : Bytes → Bytes} {ps : List (Bytes × Bytes)}
    (h : ∀ p ∈ ps, 0 ∉ f p.1 ∧ 0 ∉ f p.2) : 0 ∉ joinPairs f ps := by
  have pair : ∀ p ∈ ps, 0 ∉ pairText f p := by
    intro p hp hm
    obtain hm | hm := List.mem_append.mp hm
    · exact (h p hp).1 hm
    · obtain hm | hm := List.mem_cons.mp hm
      · cases hm
      · exact (h p hp).2 hm
  cases ps with
  | nil => simp [joinPairs]
  | cons p ps =>
    intro hm
    obtain hm | hm := List.mem_append.mp hm
    · exact pair p List.mem_cons_self hm
    · obtain ⟨q, hq, hm⟩ := List.mem_flatMap.mp hm
      obtain hm | hm := List.mem_cons.mp hm
      · cases hm
      · exact pair q (List.mem_cons_of_mem p hq) hm

theorem reqTargetPath_query {a b : Arena} {r s : Req} {path text : Bytes} (unset : r.path = none)
    (target : r.target = some (path ++ 63 :: text)) (h63 : 63 ∉ path) (hpath : 0 ∉ path)
    (htext : 0 ∉ text) (h : reqTargetPath a r = (0, b, s)) :
    ∃ q, urlDecode true text.length text = some q ∧ s.query = some q := by
  have whole : cstr (r.target.getD [slash]) = path ++ 63 :: text := by
    rw [target, Option.getD_some]
    refine cstr_of_nulFree fun hm => ?_
    obtain hm | hm := List.mem_append.mp hm
    · exact hpath hm
    · obtain hm | hm := List.mem_cons.mp hm
      · cases hm
      · exact htext hm
  have mark : strchr 63 (path ++ 63 :: text) = some (path, text) := strchr_some.mpr ⟨rfl, h63⟩
  unfold reqTargetPath at h
  rw [unset, whole] at h
  dsimp only at h
  rw [mark, if_neg (by decide)] at h
  dsimp only at h
  generalize (if (targetPart _ _).length = 0 then [slash] else targetPart _ _) = part at h
  split at h
  · cases h
  · split at h
    · cases h
    · split at h
      · cases h
      · split at h
        · cases h
        · split at h
          · cases h
          · rename_i q hq
            cases h
            exact ⟨q, hq, rfl⟩

/-- What the handler needs of a pair: nothing in it means anything to a second decoding,
and the arena has room for a copy of its value. -/
def Retrievable (b : Arena) (p : Bytes × Bytes) : Prop :=
  CleanPair p ∧ (arenaStrdup b p.2).1 = some p.2

instance (b : Arena) (p : Bytes × Bytes) : Decidable (Retrievable b p) :=
  inferInstanceAs (Decidable (_ ∧ _))

/-- Whether the parameters come out of a request whose target carries them encoded. The
walker sees the pairs, in order, exactly when each is clean; a handler then gets the
value of the first pair with the name it asks for, and only then if no key repeats. -/
theorem query_round_trip {a b : Arena} {r s : Req} {path : Bytes} {ps : List (Bytes × Bytes)}
    (unset : r.path = none)
    (target : r.target = some (path ++ 63 :: joinPairs percentEncode ps)) (h63 : 63 ∉ path)
    (hpath : 0 ∉ path) (nulFree : ∀ p ∈ ps, 0 ∉ p.1 ∧ 0 ∉ p.2)
    (short : ∀ p ∈ ps, p.1.length < 256 ∧ p.2.length < 2048)
    (accepted : reqTargetPath a r = (0, b, s)) :
    (queryPairs (cercoQuery b s).1.length (cercoQuery b s).1 = some ps ↔ ∀ p ∈ ps, CleanPair p) ∧
    ((∀ p ∈ ps, Retrievable b p) → ∀ name, (queryGet b s name).1 = lookupPair name ps) ∧
    (ps.Pairwise (fun p q => strcaseeq p.1 q.1 = false) →
      ((∀ name, (queryGet b s name).1 = lookupPair name ps) ↔ ∀ p ∈ ps, Retrievable b p)) := by
  have rooms : ∀ p ∈ ps, p.1.length ≤ kbufRoom ∧ p.2.length ≤ vbufRoom := fun p hp =>
    ⟨Nat.le_of_lt_succ (short p hp).1, Nat.le_of_lt_succ (short p hp).2⟩
  have encoded : 0 ∉ joinPairs percentEncode ps :=
    joinPairs_nulFree fun p _ => ⟨percentEncode_nulFree p.1, percentEncode_nulFree p.2⟩
  obtain ⟨q, hq, stored⟩ := reqTargetPath_query unset target h63 hpath encoded accepted
  have raw : q = joinPairs id ps := by
    have fits := urlDecode_length (urlDecode_joinPairs true ps 0)
    obtain ⟨room, len⟩ := Nat.exists_eq_add_of_le fits
    rw [len, urlDecode_joinPairs true ps room] at hq
    exact (Option.some.inj hq).symm
  have read : cercoQuery b s = (joinPairs id ps, b, s) := by
    unfold cercoQuery
    rw [stored, raw]
    dsimp only
    rw [cstr_of_nulFree (joinPairs_nulFree nulFree)]
  have get : ∀ name, (queryGet b s name).1 =
      (queryLoop name (joinPairs id ps).length (joinPairs id ps)).bind
        fun value => (arenaStrdup b value).1 := by
    intro name
    unfold queryGet
    rw [read]
    dsimp only
    cases queryLoop name (joinPairs id ps).length (joinPairs id ps) <;> rfl
  have enough : (∀ p ∈ ps, Retrievable b p) → ∀ name, (queryGet b s name).1 = lookupPair name ps := by
    intro good name
    rw [get, queryLoop_clean rooms (fun p hp => (nulFree p hp).1) (fun p hp => (good p hp).1) name
      (joinPairs_length ps)]
    cases hl : ps.find? fun p => strcaseeq p.1 name with
    | none => simp only [lookupPair, hl, Option.map_none, Option.bind_none]
    | some p =>
      simp only [lookupPair, hl, Option.map_some, Option.bind_some]
      exact (good p (List.mem_of_find?_eq_some hl)).2
  refine ⟨?_, enough, fun distinct => ⟨fun found => ?_, enough⟩⟩
  · rw [read]
    exact queryPairs_iff rooms (joinPairs_length ps)
  · have hits : ∀ p ∈ ps, ∃ value,
        queryLoop p.1 (joinPairs id ps).length (joinPairs id ps) = some value ∧
          (arenaStrdup b value).1 = some p.2 := by
      intro p hp
      have hit := found p.1
      rw [get, lookupPair_mem distinct hp] at hit
      exact Option.bind_eq_some_iff.mp hit
    have clean := clean_of_hits fun p hp => by
      obtain ⟨value, hit, copy⟩ := hits p hp
      exact ⟨value, hit, arenaStrdup_some copy⟩
    intro p hp
    obtain ⟨value, hit, copy⟩ := hits p hp
    rw [queryLoop_clean rooms (fun q hq => (nulFree q hq).1) clean p.1 (joinPairs_length ps),
      lookupPair_mem distinct hp] at hit
    rw [← Option.some.inj hit] at copy
    exact ⟨clean p hp, copy⟩

def queryArena : Arena := arenaInit (Arena.zero fun k _ => some (65536 * (k + 1))) 4096 0

def searchPairs : List (Bytes × Bytes) := [(ascii "q", ascii "x/y z"), (ascii "Q", ascii "old")]

def searchReq : Req :=
  { reqSetup 0 with target := some (ascii "/s?" ++ joinPairs percentEncode searchPairs) }

/-- Arena and request after `req_target_path`. -/
def searched : Arena × Req := (reqTargetPath queryArena searchReq).2

theorem query_round_trip_search :
    (queryGet searched.1 searched.2 (ascii "Q")).1 = lookupPair (ascii "Q") searchPairs := by
  have target : searchReq.target = some (ascii "/s" ++ 63 :: joinPairs percentEncode searchPairs) :=
    rfl
  have accepted : reqTargetPath queryArena searchReq = (0, searched.1, searched.2) :=
    Prod.ext (by decide) rfl
  exact (query_round_trip rfl target (by decide) (by decide) (by decide) (by decide)
    accepted).2.1 (by decide) (ascii "Q")

def ampPairs : List (Bytes × Bytes) := [(ascii "k", ascii "a&b")]

def ampReq : Req :=
  { reqSetup 0 with target := some (ascii "/?" ++ joinPairs percentEncode ampPairs) }

/-- An encoded `&` splits the value it stands in. -/
theorem encoded_amp_splits :
    ampReq.target = some (ascii "/?k=a%26b") ∧ (reqTargetPath queryArena ampReq).1 = 0 ∧
    (queryGet (reqTargetPath queryArena ampReq).2.1 (reqTargetPath queryArena ampReq).2.2
      (ascii "k")).1 = some (ascii "a") ∧
    lookupPair (ascii "k") ampPairs = some (ascii "a&b") := by
  decide +kernel

end Cerco.QueryString
