import Cerco.ParamRoundTrip

set_option autoImplicit false

/-!
# The path of a request target

`req_target_path` decodes the path part byte for byte, but what it leaves in
`r->path` is read as a C string, so a decoded zero byte ends the path. An object that
has a path already keeps it.
-/
namespace Cerco.TargetPath
open Cerco.Alloc Cerco.CString Cerco.Request Cerco.QueryString Cerco.ParamRoundTrip

/-- `s` is the text that `w` percent-encodes. -/
inductive Decodes : Bytes → Bytes → Prop
  | nil : Decodes [] []
  | byte {c : UInt8} {w s : Bytes} (plain : c ≠ 37) (rest : Decodes w s) : Decodes (c :: w) (c :: s)
  | escape {x y : UInt8} {hi lo : ℕ} {w s : Bytes} (hx : hexval x = some hi) (hy : hexval y = some lo)
      (rest : Decodes w s) : Decodes (37 :: x :: y :: w) (UInt8.ofNat (hi * 16 + lo) :: s)

/-- Some `%` is not followed by two hex digits. -/
def BadEscape (w : Bytes) : Prop :=
  ∃ pre post, w = pre ++ 37 :: post ∧
    ∀ x y rest, post = x :: y :: rest → hexval x = none ∨ hexval y = none

theorem badEscape_nil : ¬ BadEscape [] := by
  rintro ⟨pre, post, h, _⟩
  exact List.append_ne_nil_of_right_ne_nil _ (List.cons_ne_nil _ _) h.symm

theorem badEscape_byte {c : UInt8} (plain : c ≠ 37) (w : Bytes) : BadEscape (c :: w) ↔ BadEscape w := by
  constructor
  · rintro ⟨pre, post, h, bad⟩
    cases pre with
    | nil =>
      cases h
      exact absurd rfl plain
    | cons d pre =>
      cases h
      exact ⟨pre, post, rfl, bad⟩
  · rintro ⟨pre, post, rfl, bad⟩
    exact ⟨c :: pre, post, rfl, bad⟩

theorem hexval_plain {x : UInt8} {n : ℕ} (h : hexval x = some n) : x ≠ 37 := by
  rintro rfl
  cases h

theorem badEscape_escape {x y : UInt8} {hi lo : ℕ} (hx : hexval x = some hi) (hy : hexval y = some lo)
    (w : Bytes) : BadEscape (37 :: x :: y :: w) ↔ BadEscape w := by
  have digits : BadEscape (x :: y :: w) ↔ BadEscape w :=
    (badEscape_byte (hexval_plain hx) _).trans (badEscape_byte (hexval_plain hy) w)
  constructor
  · rintro ⟨pre, post, h, bad⟩
    cases pre with
    | nil =>
      cases h
      obtain e | e := bad x y w rfl
      · rw [hx] at e
        cases e
      · rw [hy] at e
        cases e
    | cons d pre => exact digits.mp ⟨pre, post, (List.cons.inj h).2, bad⟩
  · intro h
    obtain ⟨pre, post, h, bad⟩ := digits.mpr h
    exact ⟨37 :: pre, post, congrArg (37 :: ·) h, bad⟩

theorem urlDecode_none {plus : Bool} {room : ℕ} {w : Bytes} (fits : w.length ≤ room) :
    urlDecode plus room w = none ↔ BadEscape w := by
  induction room, w using urlDecode.induct plus with
  | case1 room =>
    rw [urlDecode_nil]
    exact ⟨fun h => (by cases h), fun h => absurd h badEscape_nil⟩
  | case2 c rest => exact absurd fits (by simp)
  | case3 room x y rest hi lo hy hx ih =>
    have fits : rest.length ≤ room := by
      simp only [List.length_cons] at fits
      omega
    rw [badEscape_escape hx hy, ← ih fits, urlDecode]
    simp only [↓reduceIte, hx, hy, Option.map_eq_none_iff]
  | case4 room x y rest bad =>
    constructor
    · intro _
      refine ⟨[], x :: y :: rest, rfl, ?_⟩
      rintro x' y' rest' ⟨⟩
      cases hx : hexval x with
      | none => exact .inl rfl
      | some hi =>
        cases hy : hexval y with
        | none => exact .inr rfl
        | some lo => exact (bad hi lo hx hy).elim
    · intro _
      rw [urlDecode]
      simp only [↓reduceIte]
  | case5 room rest short =>
    constructor
    · intro _
      refine ⟨[], rest, rfl, ?_⟩
      rintro x y rest' rfl
      exact (short x y rest' rfl).elim
    · intro _
      rw [urlDecode.eq_def]
      simp only [↓reduceIte]
  | case6 room c rest hc hp ih =>
    rw [badEscape_byte hc, ← ih (Nat.le_of_succ_le_succ fits), urlDecode.eq_def]
    simp only [if_neg hc, if_pos hp, Option.map_eq_none_iff]
  | case7 room c rest hc hp ih =>
    rw [badEscape_byte hc, ← ih (Nat.le_of_succ_le_succ fits), urlDecode.eq_def]
    simp only [if_neg hc, if_neg hp, Option.map_eq_none_iff]

theorem urlDecode_decodes {room : ℕ} {w s : Bytes} (h : urlDecode false room w = some s) : Decodes w s := by
  induction room, w using urlDecode.induct false generalizing s with
  | case1 room =>
    rw [urlDecode_nil] at h
    cases h
    exact .nil
  | case2 c rest => cases h
  | case3 room x y rest hi lo hy hx ih =>
    simp only [urlDecode, ↓reduceIte, hx, hy, Option.map_eq_some_iff] at h
    obtain ⟨d, hd, rfl⟩ := h
    exact .escape hx hy (ih hd)
  | case4 room x y rest bad =>
    simp only [urlDecode, ↓reduceIte] at h
    cases h
  | case5 room rest short =>
    rw [urlDecode.eq_def] at h
    simp only [↓reduceIte] at h
    cases h
  | case6 room c rest hc hp ih => exact absurd hp.2 (by decide)
  | case7 room c rest hc hp ih =>
    rw [urlDecode.eq_def] at h
    simp only [if_neg hc, if_neg hp, Option.map_eq_some_iff] at h
    obtain ⟨d, hd, rfl⟩ := h
    exact .byte hc (ih hd)

theorem Decodes.unique {w s t : Bytes} (hs : Decodes w s) (ht : Decodes w t) : s = t := by
  induction hs generalizing t with
  | nil =>
    cases ht
    rfl
  | byte plain _ ih =>
    cases ht with
    | byte _ rest => rw [ih rest]
    | escape => exact absurd rfl plain
  | escape hx hy _ ih =>
    cases ht with
    | byte plain _ => exact absurd rfl plain
    | escape hx' hy' rest =>
      rw [hx] at hx'
      rw [hy] at hy'
      cases hx'
      cases hy'
      rw [ih rest]

theorem Decodes.urlDecode {w s : Bytes} (h : Decodes w s) {room : ℕ} (fits : w.length ≤ room) :
    urlDecode false room w = some s := by
  cases hd : Request.urlDecode false room w with
  | some d => rw [h.unique (urlDecode_decodes hd)]
  | none =>
    exfalso
    have bad := (urlDecode_none fits).mp hd
    clear hd fits
    induction h with
    | nil => exact badEscape_nil bad
    | byte plain _ ih => exact ih ((badEscape_byte plain _).mp bad)
    | escape hx hy _ ih => exact ih ((badEscape_escape hx hy _).mp bad)

def targetText (r : Req) : Bytes := cstr (r.target.getD [slash])

/-- What stands before the first `?`. -/
def beforeQuery (t : Bytes) : Bytes :=
  match strchr 63 t with
  | some (pre, _) => pre
  | none => t

/-- What stands behind the first `?`. -/
def queryText (t : Bytes) : Option Bytes := (strchr 63 t).map (·.2)

def scheme : Bytes := ascii "http://"

/-- The text between an optional `http://authority` and the query, or `/`. -/
def pathPart (t : Bytes) : Bytes :=
  let p := beforeQuery t
  let rest := if (p.take 7).map toLower = scheme then (p.drop 7).dropWhile (· ≠ slash) else p
  if rest = [] then [slash] else rest

def BareScheme (t : Bytes) : Prop := (beforeQuery t).map toLower = scheme

def decodedPart (t : Bytes) : Bytes :=
  let part := targetPart t (beforeQuery t).length
  if part.length = 0 then [slash] else part

theorem beforeQuery_front (t : Bytes) : beforeQuery t <+: t := by
  unfold beforeQuery
  split
  · rename_i pre post h
    exact ⟨63 :: post, (strchr_some.mp h).1.symm⟩
  · exact List.prefix_rfl

theorem take_beforeQuery (t : Bytes) : t.take (beforeQuery t).length = beforeQuery t :=
  (List.prefix_iff_eq_take.mp (beforeQuery_front t)).symm

theorem strncaseeq_iff {b : Bytes} (text : ∀ c ∈ b, toLower c ≠ 0) (a : Bytes) :
    strncaseeq a b b.length = true ↔ (a.take b.length).map toLower = b.map toLower := by
  induction b generalizing a with
  | nil => simp [strncaseeq]
  | cons c b ih =>
    have rest := ih (fun d hd => text d (List.mem_cons_of_mem c hd)) a.tail
    rw [List.length_cons, strncaseeq]
    cases a with
    | nil =>
      have first := text c List.mem_cons_self
      have zero : toLower 0 = 0 := by decide
      simp [zero, Ne.symm first]
    | cons d a =>
      by_cases same : toLower d = toLower c
      · simpa [same] using rest
      · simp [same]

theorem dropWhile_strchr (c : UInt8) (s : Bytes) :
    s.dropWhile (· ≠ c) = match strchr c s with
      | some (_, post) => c :: post
      | none => [] := by
  induction s with
  | nil => rfl
  | cons d s ih =>
    by_cases h : d = c
    · simp [strchr, h]
    · rw [List.dropWhile_cons_of_pos (by simpa using h), ih, strchr, if_neg h]
      cases strchr c s <;> rfl

theorem decodedPart_eq {t : Bytes} (more : ¬ BareScheme t) : decodedPart t = pathPart t := by
  have all : (scheme.all fun c => toLower c != 0) = true := by decide
  have lit : ∀ c ∈ scheme, toLower c ≠ 0 := fun c hc => bne_iff_ne.mp (List.all_eq_true.mp all c hc)
  have lower : scheme.map toLower = scheme := by decide
  obtain ⟨p, hp⟩ : ∃ p, p = beforeQuery t := ⟨_, rfl⟩
  have front := beforeQuery_front t
  have whole := take_beforeQuery t
  rw [BareScheme, ← hp] at more
  rw [← hp] at front whole
  have test : 7 < p.length ∧ strncaseeq t (ascii "http://") 7 = true ↔ (p.take 7).map toLower = scheme := by
    have same := strncaseeq_iff lit t
    rw [lower] at same
    change 7 < p.length ∧ strncaseeq t scheme scheme.length = true ↔ _
    rw [same]
    change 7 < p.length ∧ (t.take 7).map toLower = scheme ↔ _
    constructor
    · rintro ⟨long, h⟩
      rwa [← whole, List.take_take, Nat.min_eq_left (Nat.le_of_lt long)]
    · intro h
      have len : 7 ≤ p.length := by
        have whole := congrArg List.length h
        have seven : scheme.length = 7 := rfl
        rw [List.length_map, List.length_take, seven] at whole
        omega
      have long : 7 < p.length := by
        refine Nat.lt_of_le_of_ne len fun e => more ?_
        rwa [List.take_of_length_le (Nat.le_of_eq e.symm)] at h
      refine ⟨long, ?_⟩
      rwa [← whole, List.take_take, Nat.min_eq_left len] at h
  unfold decodedPart pathPart targetPart
  rw [← hp, whole]
  dsimp only
  by_cases abs : (p.take 7).map toLower = scheme
  · rw [if_pos (test.mpr abs), if_pos abs, dropWhile_strchr]
    cases strchr slash (p.drop 7) with
    | none => rfl
    | some x => rfl
  · rw [if_neg fun h => abs (test.mp h), if_neg abs]
    simp only [List.length_eq_zero_iff]

theorem BareScheme.length {t : Bytes} (bare : BareScheme t) : (beforeQuery t).length = 7 := by
  have len := congrArg List.length bare
  rwa [List.length_map] at len

theorem decodedPart_bare {t : Bytes} (bare : BareScheme t) : decodedPart t = beforeQuery t := by
  have part : targetPart t (beforeQuery t).length = beforeQuery t := by
    unfold targetPart
    rw [take_beforeQuery, if_neg]
    rintro ⟨long, _⟩
    exact Nat.lt_irrefl 7 (bare.length ▸ long)
  unfold decodedPart
  dsimp only
  rw [part, bare.length]
  rfl

theorem pathPart_bare {t : Bytes} (bare : BareScheme t) : pathPart t = [slash] := by
  have lower : (beforeQuery t).map toLower = scheme := bare
  have rest : (beforeQuery t).drop 7 = [] := List.drop_eq_nil_of_le (Nat.le_of_eq bare.length)
  unfold pathPart
  dsimp only
  rw [List.take_of_length_le (Nat.le_of_eq bare.length), rest, if_pos lower]
  rfl

section Call
variable {a : Arena} {r : Req}

theorem reqTargetPath_fresh (fresh : r.path = none) : reqTargetPath a r =
    if maxUrl < (decodedPart (targetText r)).length then (414, a, r)
    else
      match arenaAlloc a ((decodedPart (targetText r)).length + 1) with
      | (none, a) => (400, a, r)
      | (some _, a) =>
        match urlDecode false (decodedPart (targetText r)).length (decodedPart (targetText r)) with
        | none => (400, a, r)
        | some decoded =>
          match queryText (targetText r) with
          | some q =>
            match arenaAlloc a (q.length + 1) with
            | (none, a) => (400, a, { r with path := some decoded })
            | (some _, a) =>
              match urlDecode true q.length q with
              | none => (400, a, { r with path := some decoded })
              | some qdec => (0, a, { r with path := some decoded, query := some qdec })
          | none => (0, a, { r with path := some decoded, query := some [] }) := by
  unfold reqTargetPath decodedPart queryText beforeQuery targetText
  rw [fresh]
  simp only [Option.isSome_none, Bool.false_eq_true, if_false]
  cases strchr 63 (cstr (r.target.getD [slash])) <;> rfl

theorem reqTargetPath_codes (fresh : r.path = none) :
    (reqTargetPath a r).1 = 0 ∨ (reqTargetPath a r).1 = 400 ∨
      (reqTargetPath a r).1 = 414 ∧ maxUrl < (decodedPart (targetText r)).length := by
  rw [reqTargetPath_fresh fresh]
  split
  · exact .inr (.inr ⟨rfl, by assumption⟩)
  · split
    · exact .inr (.inl rfl)
    · split
      · exact .inr (.inl rfl)
      · split
        · split
          · exact .inr (.inl rfl)
          · split
            · exact .inr (.inl rfl)
            · exact .inl rfl
        · exact .inl rfl

theorem reqTargetPath_accepts (fresh : r.path = none) (h : (reqTargetPath a r).1 = 0) :
    (decodedPart (targetText r)).length ≤ maxUrl ∧
    (∀ q, queryText (targetText r) = some q → ¬ BadEscape q) ∧
    ∃ d, Decodes (decodedPart (targetText r)) d ∧ (reqTargetPath a r).2.2.path = some d := by
  rw [reqTargetPath_fresh fresh] at h ⊢
  split at h
  · cases h
  · rename_i short
    refine ⟨Nat.le_of_not_lt short, ?_⟩
    rw [if_neg short]
    split at h
    · cases h
    · split at h
      · cases h
      · rename_i d hd
        have decodes := urlDecode_decodes hd
        split at h
        · rename_i q hq
          split at h
          · cases h
          · split at h
            · cases h
            · rename_i qdec hdec
              refine ⟨fun q' hq' bad => ?_, d, decodes, rfl⟩
              rw [hq] at hq'
              cases hq'
              rw [(urlDecode_none (Nat.le_refl _)).mpr bad] at hdec
              cases hdec
        · rename_i none_
          refine ⟨fun q' hq' => ?_, d, decodes, rfl⟩
          rw [none_] at hq'
          cases hq'

theorem reqTargetPath_takes {d : Bytes} (fresh : r.path = none)
    (short : (decodedPart (targetText r)).length ≤ maxUrl) (decodes : Decodes (decodedPart (targetText r)) d)
    (query : ∀ q, queryText (targetText r) = some q → ¬ BadEscape q)
    (room : (arenaAlloc a ((decodedPart (targetText r)).length + 1)).1.isSome = true ∧
      (arenaAlloc (arenaAlloc a ((decodedPart (targetText r)).length + 1)).2
        ((queryText (targetText r)).getD []).length.succ).1.isSome = true) :
    (reqTargetPath a r).1 = 0 ∧ (reqTargetPath a r).2.2.path = some d := by
  obtain ⟨first, second⟩ := room
  rw [reqTargetPath_fresh fresh, if_neg (Nat.not_lt.mpr short)]
  cases ha : arenaAlloc a ((decodedPart (targetText r)).length + 1) with
  | mk p b =>
    rw [ha] at first second
    obtain ⟨p, rfl⟩ := Option.isSome_iff_exists.mp first
    dsimp only
    rw [decodes.urlDecode (Nat.le_refl _)]
    dsimp only
    cases hq : queryText (targetText r) with
    | none => exact ⟨rfl, rfl⟩
    | some q =>
      rw [hq] at second
      dsimp only at second ⊢
      cases hb : arenaAlloc b (q.length + 1) with
      | mk p' c =>
        have second : (arenaAlloc b (q.length + 1)).1.isSome = true := second
        rw [hb] at second
        obtain ⟨p', rfl⟩ := Option.isSome_iff_exists.mp second
        dsimp only
        cases hd : urlDecode true q.length q with
        | none => exact absurd ((urlDecode_none (Nat.le_refl _)).mp hd) (query q hq)
        | some qdec => exact ⟨rfl, rfl⟩

end Call

/-- What a call has to do with the target of its object. -/
structure Faithful (a : Arena) (r : Req) : Prop where
  whole : (reqTargetPath a r).1 = 0 →
    Decodes (pathPart (targetText r)) (cstr ((reqTargetPath a r).2.2.path.getD []))
  strict : BadEscape (pathPart (targetText r)) ∨ (∃ q, queryText (targetText r) = some q ∧ BadEscape q) →
    (reqTargetPath a r).1 = 400 ∨ (reqTargetPath a r).1 = 414 ∧ maxUrl < (pathPart (targetText r)).length

/-- A good target of an object without a path has no zero byte in its decoded path and goes on
behind its scheme. An object that has a path already has the one of this target. -/
def Undropped (r : Req) : Prop :=
  match r.path with
  | none => (pathPart (targetText r)).length ≤ maxUrl →
      (∀ q, queryText (targetText r) = some q → ¬ BadEscape q) →
      ∀ d, Decodes (pathPart (targetText r)) d → 0 ∉ d ∧ ¬ BareScheme (targetText r)
  | some p => Decodes (pathPart (targetText r)) (cstr p) ∧
      ∀ q, queryText (targetText r) = some q → ¬ BadEscape q

def wideArena (cap : ℕ) : Arena := arenaInit (Arena.zero fun _ _ => some 0) cap 0

theorem wideArena_serves {n m cap : ℕ} (room : n + m + 64 ≤ cap) :
    (arenaAlloc (wideArena cap) n).1.isSome = true ∧
      (arenaAlloc (arenaAlloc (wideArena cap) n).2 m.succ).1.isSome = true := by
  have chunk : (wideArena cap).chunks = [⟨24, cap, 0⟩] := by
    unfold wideArena arenaInit chunkNew
    rw [if_neg (by omega)]
    rfl
  have pad : padTo (24 + 0) 8 = 0 := by decide
  obtain ⟨size, hs⟩ : ∃ size, size = if n = 0 then 1 else n := ⟨_, rfl⟩
  have small : size ≤ n + 1 := by
    rw [hs]
    split <;> omega
  have first : arenaAlloc (wideArena cap) n = (some 24, { wideArena cap with
      calls := (wideArena cap).calls ++ [callOf (wideArena cap) size 8]
      chunks := [⟨24, cap, size⟩] }) := by
    unfold arenaAlloc arenaAllocAligned allocRounds
    dsimp only
    rw [← hs, chunk, if_neg (by simp), allocLoop]
    dsimp only
    rw [pad, if_pos (by omega), Nat.zero_add, Nat.zero_add]
  rw [first]
  refine ⟨rfl, arenaAlloc_fits rfl (Nat.succ_ne_zero m) ?_⟩
  have next : padTo (24 + size) 8 < 8 := by
    unfold padTo
    omega
  change padTo (24 + size) 8 + m.succ ≤ cap - size
  omega

theorem nulFree_of_cstr {d : Bytes} (h : cstr d = d) : 0 ∉ d := by
  intro zero
  exact absurd (List.takeWhile_eq_self_iff.mp h 0 zero) (by decide)

theorem decodes_plain {w : Bytes} (plain : 37 ∉ w) : Decodes w w := by
  induction w with
  | nil => exact .nil
  | cons c w ih =>
    rw [List.mem_cons, not_or] at plain
    exact .byte (Ne.symm plain.1) (ih plain.2)

theorem bareScheme_plain {t : Bytes} (bare : BareScheme t) : 37 ∉ beforeQuery t := by
  intro h
  have mem : toLower 37 ∈ (beforeQuery t).map toLower := List.mem_map_of_mem h
  rw [show (beforeQuery t).map toLower = scheme from bare] at mem
  exact absurd mem (by decide)

theorem Undropped.faithful {r : Req} (h : Undropped r) (a : Arena) : Faithful a r := by
  unfold Undropped at h
  cases hp : r.path with
  | some p =>
    rw [hp] at h
    have kept : reqTargetPath a r = (0, a, r) := by
      unfold reqTargetPath
      rw [hp]
      rfl
    refine ⟨fun _ => ?_, fun bad => ?_⟩
    · rw [kept, hp]
      exact h.1
    · exfalso
      obtain bad | ⟨q, hq, bad⟩ := bad
      · have := h.1.urlDecode (Nat.le_refl _)
        rw [(urlDecode_none (Nat.le_refl _)).mpr bad] at this
        cases this
      · exact h.2 q hq bad
  | none =>
    rw [hp] at h
    refine ⟨fun accepted => ?_, fun bad => ?_⟩
    · obtain ⟨short, query, d, decodes, path⟩ := reqTargetPath_accepts hp accepted
      have more : ¬ BareScheme (targetText r) := by
        intro bare
        refine (h ?_ query [slash] ?_).2 bare
        · rw [pathPart_bare bare]
          decide
        · rw [pathPart_bare bare]
          exact decodes_plain (by decide)
      rw [decodedPart_eq more] at short decodes
      rw [path, Option.getD_some, cstr_of_nulFree (h short query d decodes).1]
      exact decodes
    · obtain code | code | ⟨code, long⟩ := reqTargetPath_codes (a := a) hp
      · exfalso
        obtain ⟨short, query, d, decodes, _⟩ := reqTargetPath_accepts hp code
        obtain bad | ⟨q, hq, bad⟩ := bad
        · by_cases bare : BareScheme (targetText r)
          · rw [pathPart_bare bare] at bad
            have := (decodes_plain (w := [slash]) (by decide)).urlDecode (Nat.le_refl _)
            rw [(urlDecode_none (Nat.le_refl _)).mpr bad] at this
            cases this
          · rw [decodedPart_eq bare] at decodes
            have := decodes.urlDecode (Nat.le_refl _)
            rw [(urlDecode_none (Nat.le_refl _)).mpr bad] at this
            cases this
        · exact query q hq bad
      · exact .inl code
      · refine .inr ⟨code, ?_⟩
        rwa [decodedPart_eq] at long
        intro bare
        rw [decodedPart_bare bare, bare.length] at long
        exact absurd long (by decide)

/-- The path of a target is kept whole and its escapes are checked, in every arena, exactly if no
zero byte is decoded, a scheme is not all there is, and the object has no path of another target. -/
theorem target_path_whole_iff (r : Req) : (∀ a, Faithful a r) ↔ Undropped r := by
  refine ⟨fun all => ?_, Undropped.faithful⟩
  unfold Undropped
  cases hp : r.path with
  | some p =>
    dsimp only
    obtain ⟨whole, strict⟩ := all (wideArena 64)
    have kept : reqTargetPath (wideArena 64) r = (0, wideArena 64, r) := by
      unfold reqTargetPath
      rw [hp]
      rfl
    rw [kept] at whole strict
    rw [hp] at whole
    refine ⟨whole rfl, fun q hq bad => ?_⟩
    obtain code | ⟨code, _⟩ := strict (.inr ⟨q, hq, bad⟩) <;> cases code
  | none =>
    dsimp only
    intro short query d decodes
    obtain ⟨cap, hcap⟩ : ∃ cap, cap = (decodedPart (targetText r)).length + 1 +
      ((queryText (targetText r)).getD []).length + 64 := ⟨_, rfl⟩
    have room := wideArena_serves (Nat.le_of_eq hcap.symm)
    have whole := (all (wideArena cap)).whole
    by_cases bare : BareScheme (targetText r)
    · exfalso
      have part := decodedPart_bare bare
      have taken := reqTargetPath_takes (d := beforeQuery (targetText r)) hp
        (by rw [part, bare.length]; decide) (by rw [part]; exact decodes_plain (bareScheme_plain bare))
        query room
      have whole := whole taken.1
      rw [taken.2, Option.getD_some, pathPart_bare bare] at whole
      have slash_only := whole.unique (decodes_plain (by decide))
      have long : (cstr (beforeQuery (targetText r))).length = 7 := by
        rw [cstr_of_nulFree, bare.length]
        intro zero
        have mem : toLower 0 ∈ (beforeQuery (targetText r)).map toLower := List.mem_map_of_mem zero
        rw [show (beforeQuery (targetText r)).map toLower = scheme from bare] at mem
        exact absurd mem (by decide)
      rw [slash_only] at long
      cases long
    · refine ⟨?_, bare⟩
      rw [← decodedPart_eq bare] at short decodes
      have taken := reqTargetPath_takes hp short decodes query room
      have whole := whole taken.1
      rw [taken.2, Option.getD_some, ← decodedPart_eq bare] at whole
      exact nulFree_of_cstr (whole.unique decodes)

def targetGet (t : Bytes) : Req := { reqSetup 0 with target := some t }

/-- `/admin%00.css` is accepted and addresses `/admin`. -/
theorem zero_byte_truncates :
    ¬ ∀ (a : Arena) (r : Req), r.path = none → Faithful a r := by
  intro all
  have whole := (all (wideArena 256) (targetGet (ascii "/admin%00.css")) rfl).whole (by decide)
  have text : cstr ((reqTargetPath (wideArena 256) (targetGet (ascii "/admin%00.css"))).2.2.path.getD []) =
    ascii "/admin" := by decide
  rw [text] at whole
  have := whole.urlDecode (Nat.le_refl _)
  exact absurd this (by decide)

end Cerco.TargetPath
