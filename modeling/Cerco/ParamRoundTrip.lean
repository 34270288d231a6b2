import Cerco.ArenaUse
import Cerco.RouteParams

set_option autoImplicit false

/-!
# Parameters through the request target

A client encodes the segments of a path one by one. The server decodes the path
as a whole and cuts it afterwards, so an encoded `/` becomes a separator.
-/
namespace Cerco.ParamRoundTrip
open Cerco.Alloc Cerco.CString Cerco.Request Cerco.Router Cerco.SegmentPattern Cerco.RouteFiles
open Cerco.QueryString Cerco.RoutePatterns Cerco.RouteParams Cerco.ArenaUse

/-- `/:x/:y` for the names `x` and `y`. -/
def paramPattern (names : List Bytes) : Bytes := slash :: joinSegs (names.map fun x => 58 :: x)

def plainPath (segs : List Bytes) : Bytes := slash :: joinSegs segs

/-- The request target for these segments. -/
def encodedTarget (segs : List Bytes) : Bytes := slash :: joinSegs (segs.map percentEncode)

theorem cut_join {segs : List Bytes} (free : ∀ s ∈ segs, slash ∉ s) (full : [] ∉ segs) :
    cut slash (joinSegs segs) = segs := by
  rcases List.eq_nil_or_concat' segs with rfl | ⟨front, s, rfl⟩
  · exact cut_nil slash
  · refine cut_joinSegs free fun e => full ?_
    rw [e]
    exact List.mem_append_right _ List.mem_cons_self

theorem segments_path {segs : List Bytes} (free : ∀ s ∈ segs, slash ∉ s) (full : [] ∉ segs) :
    segments (plainPath segs) = segs := cut_join free full

theorem segments_pattern {names : List Bytes} (free : ∀ x ∈ names, slash ∉ x) :
    segments (paramPattern names) = names.map fun x => 58 :: x := by
  refine cut_join ?_ ?_
  · intro s hs
    obtain ⟨x, hx, rfl⟩ := List.mem_map.mp hs
    intro h
    obtain e | h := List.mem_cons.mp h
    · exact absurd e (by decide)
    · exact free x hx h
  · intro h
    obtain ⟨x, _, e⟩ := List.mem_map.mp h
    cases e

theorem hexDigit_unreserved : ∀ n < 16, unreserved (hexDigit n) = true := by decide

theorem mem_percentByte {b c : UInt8} (h : c ∈ percentByte b) : c = 37 ∨ unreserved c = true := by
  unfold percentByte at h
  split at h
  · rename_i plain
    rw [List.mem_singleton.mp h]
    exact .inr plain
  · simp only [List.mem_cons, List.not_mem_nil, or_false] at h
    obtain rfl | rfl | rfl := h
    · exact .inl rfl
    · exact .inr (hexDigit_unreserved _ (by have := b.toNat_lt; omega))
    · exact .inr (hexDigit_unreserved _ (by omega))

theorem mem_encodedTarget {segs : List Bytes} {c : UInt8} (h : c ∈ encodedTarget segs) :
    c = slash ∨ c = 37 ∨ unreserved c = true := by
  obtain rfl | h := List.mem_cons.mp h
  · exact .inl rfl
  · obtain rfl | ⟨s, hs, hc⟩ := mem_joinSegs h
    · exact .inl rfl
    · obtain ⟨t, _, rfl⟩ := List.mem_map.mp hs
      obtain ⟨b, _, hb⟩ := List.mem_flatMap.mp hc
      exact .inr (mem_percentByte hb)

theorem encodedTarget_free {segs : List Bytes} {c : UInt8} (no : c ≠ slash ∧ c ≠ 37 ∧ unreserved c = false) :
    c ∉ encodedTarget segs := by
  intro h
  obtain e | e | e := mem_encodedTarget h
  · exact no.1 e
  · exact no.2.1 e
  · rw [no.2.2] at e
    cases e

theorem urlDecode_nil (plus : Bool) (room : ℕ) : urlDecode plus room [] = some [] := by
  cases room <;> rfl

theorem urlDecode_joined (segs : List Bytes) (room : ℕ) :
    urlDecode false ((joinSegs segs).length + room) (joinSegs (segs.map percentEncode)) =
      some (joinSegs segs) := by
  induction segs with
  | nil => exact urlDecode_nil false _
  | cons s segs ih =>
    cases segs with
    | nil =>
      have whole := urlDecode_percentEncode false s room []
      rw [List.append_nil, urlDecode_nil, Option.map_some, List.append_nil] at whole
      exact whole
    | cons t segs =>
      have behind : joinSegs ((s :: t :: segs).map percentEncode) =
          percentEncode s ++ slash :: joinSegs ((t :: segs).map percentEncode) := rfl
      have len : (joinSegs (s :: t :: segs)).length + room =
          s.length + ((joinSegs (t :: segs)).length + room + 1) := by
        rw [joinSegs, List.length_append, List.length_cons]
        omega
      rw [behind, len, urlDecode_percentEncode,
        urlDecode_plain false (by decide) (by intro h; cases h), ih]
      rfl

theorem percentEncode_length (s : Bytes) : s.length ≤ (percentEncode s).length := by
  induction s with
  | nil => exact Nat.le_refl _
  | cons c s ih =>
    have one : 1 ≤ (percentByte c).length := by
      unfold percentByte
      split
      · exact Nat.le_refl _
      · exact Nat.le_add_left 1 2
    have split : percentEncode (c :: s) = percentByte c ++ percentEncode s := rfl
    rw [split, List.length_append, List.length_cons]
    omega

theorem encodedTarget_length (s : Bytes) : s.length < (encodedTarget [s]).length :=
  Nat.lt_succ_of_le (percentEncode_length s)

theorem joined_length (segs : List Bytes) :
    (joinSegs segs).length ≤ (joinSegs (segs.map percentEncode)).length := by
  induction segs with
  | nil => exact Nat.le_refl _
  | cons s segs ih =>
    have first := percentEncode_length s
    cases segs with
    | nil => exact first
    | cons t segs =>
      change (s ++ slash :: joinSegs (t :: segs)).length ≤
        (percentEncode s ++ slash :: joinSegs ((t :: segs).map percentEncode)).length
      rw [List.length_append, List.length_append, List.length_cons, List.length_cons]
      omega

theorem urlDecode_target (segs : List Bytes) :
    urlDecode false (encodedTarget segs).length (encodedTarget segs) = some (plainPath segs) := by
  obtain ⟨room, hr⟩ := Nat.exists_eq_add_of_le (joined_length segs)
  unfold encodedTarget plainPath
  rw [List.length_cons, hr, urlDecode_plain false (by decide) (by intro h; cases h), urlDecode_joined]
  rfl

theorem reqTargetPath_eq {a : Arena} {r : Req} {segs : List Bytes}
    (target : r.target = some (encodedTarget segs)) (fresh : r.path = none) :
    reqTargetPath a r = if maxUrl < (encodedTarget segs).length then (414, a, r)
      else if (arenaAlloc a ((encodedTarget segs).length + 1)).1.isSome then
        (0, (arenaAlloc a ((encodedTarget segs).length + 1)).2,
          { r with path := some (plainPath segs), query := some [] })
      else (400, (arenaAlloc a ((encodedTarget segs).length + 1)).2, r) := by
  have text : cstr (r.target.getD [slash]) = encodedTarget segs := by
    rw [target]
    exact cstr_of_nulFree (encodedTarget_free (by decide))
  have no_query : strchr 63 (encodedTarget segs) = none := strchr_none.mpr (encodedTarget_free (by decide))
  have relative : targetPart (encodedTarget segs) (encodedTarget segs).length = encodedTarget segs := by
    unfold targetPart
    rw [if_neg, List.take_length]
    rintro ⟨_, http⟩
    cases http
  have nonempty : ¬ (encodedTarget segs).length = 0 := by
    rw [encodedTarget, List.length_cons]
    omega
  unfold reqTargetPath
  rw [fresh, text]
  simp only [Option.isSome_none, Bool.false_eq_true, if_false, no_query, relative, if_neg nonempty,
    urlDecode_target]
  rcases arenaAlloc a ((encodedTarget segs).length + 1) with ⟨_ | p, b⟩ <;> rfl

theorem reqTargetPath_long (a : Arena) {segs : List Bytes}
    (long : maxUrl < (encodedTarget segs).length) {r : Req}
    (target : r.target = some (encodedTarget segs)) (fresh : r.path = none) :
    (reqTargetPath a r).1 = 414 := by
  rw [reqTargetPath_eq target fresh, if_pos long]

theorem reqTargetPath_encoded {a : Arena} {r : Req} {segs : List Bytes}
    (target : r.target = some (encodedTarget segs)) (fresh : r.path = none)
    (served : (reqTargetPath a r).2.1.Served) :
    (maxUrl < (encodedTarget segs).length ∧ (reqTargetPath a r).1 = 414) ∨
    ((encodedTarget segs).length ≤ maxUrl ∧ (reqTargetPath a r).1 = 0 ∧
      (reqTargetPath a r).2.2 = { r with path := some (plainPath segs), query := some [] }) := by
  rw [reqTargetPath_eq target fresh] at served ⊢
  by_cases long : maxUrl < (encodedTarget segs).length
  · rw [if_pos long]
    exact .inl ⟨long, rfl⟩
  · right
    refine ⟨Nat.le_of_not_lt long, ?_⟩
    rw [if_neg long] at served ⊢
    have need := @arenaAlloc_served a ((encodedTarget segs).length + 1)
    cases hp : arenaAlloc a ((encodedTarget segs).length + 1) with
    | mk p b =>
      rw [hp] at need served
      cases p with
      | none => exact Bool.noConfusion (need served).2
      | some p => exact ⟨rfl, rfl⟩

theorem matchSegs_params (names qs : List Bytes) :
    matchSegs ((names.map fun x => 58 :: x).map fun s => segParse s segZero) qs = true ↔
      names.length = qs.length := by
  induction names generalizing qs with
  | nil => cases qs <;> simp [matchSegs]
  | cons x names ih =>
    cases qs with
    | nil => simp [matchSegs, segParse, segZero]
    | cons q qs =>
      rw [List.length_cons, List.length_cons, Nat.add_right_cancel_iff, ← ih]
      rfl

theorem captures_params {names qs : List Bytes} (same : names.length = qs.length) :
    captures (names.map fun x => 58 :: x) qs = (names.zip qs).map fun p => (p.1, some p.2) := by
  induction names generalizing qs with
  | nil => rfl
  | cons x names ih =>
    cases qs with
    | nil => cases same
    | cons q qs =>
      change (x, some q) :: captures (names.map fun x => 58 :: x) qs = _
      rw [ih (Nat.succ.inj same)]
      rfl

theorem reqParam_same {x y : Bytes} (h : SameText x y) (r : Req) : reqParam r x = reqParam r y := by
  have test : (fun p : Bytes × Option Bytes => strcaseeq p.1 x) = fun p => strcaseeq p.1 y := by
    funext p
    rw [Bool.eq_iff_iff, sameText_iff, sameText_iff]
    unfold SameText at h ⊢
    rw [h]
  unfold reqParam
  rw [test]

section Lookup
variable {names segs : List Bytes} {r : Req}

theorem reqParam_mem (params : r.routeParams = (names.zip segs).map fun p => (p.1, some p.2))
    {x v : Bytes} (h : reqParam r x = some v) : ∃ y, (y, v) ∈ names.zip segs ∧ SameText y x := by
  unfold reqParam at h
  rw [params] at h
  obtain ⟨b, hb, hv⟩ := Option.bind_eq_some_iff.mp h
  have named := List.find?_some (p := fun p : Bytes × Option Bytes => strcaseeq p.1 x) hb
  obtain ⟨p, hp, rfl⟩ := List.mem_map.mp (List.mem_of_find?_eq_some hb)
  obtain rfl := Option.some.inj hv
  exact ⟨p.1, hp, (sameText_iff _ _).mp named⟩

theorem reqParam_found (params : r.routeParams = (names.zip segs).map fun p => (p.1, some p.2))
    {p : Bytes × Bytes} (hp : p ∈ names.zip segs) : ∃ v, reqParam r p.1 = some v := by
  have entry : (p.1, some p.2) ∈ r.routeParams := by
    rw [params]
    exact List.mem_map_of_mem hp
  unfold reqParam
  cases hf : r.routeParams.find? fun b => strcaseeq b.1 p.1 with
  | none => exact absurd ((sameText_iff _ _).mpr rfl) (List.find?_eq_none.mp hf _ entry)
  | some b =>
    have listed := List.mem_of_find?_eq_some hf
    rw [params] at listed
    obtain ⟨q, _, rfl⟩ := List.mem_map.mp listed
    exact ⟨q.2, rfl⟩

theorem reqParam_values (params : r.routeParams = (names.zip segs).map fun p => (p.1, some p.2)) :
    (∀ p ∈ names.zip segs, reqParam r p.1 = some p.2) ↔
      ∀ p ∈ names.zip segs, ∀ q ∈ names.zip segs, SameText p.1 q.1 → p.2 = q.2 := by
  constructor
  · intro values p hp q hq same
    have eq := reqParam_same same r
    rw [values p hp, values q hq] at eq
    exact Option.some.inj eq
  · intro agree p hp
    obtain ⟨v, hv⟩ := reqParam_found params hp
    obtain ⟨y, hy, same⟩ := reqParam_mem params hv
    rw [hv, ← agree (y, v) hy p hp same]

end Lookup

theorem routerProbe_one {rr : RtRoute} {a : Arena} {r : Req} {path : Bytes} {segs : List Bytes}
    {fn : Option ℕ} {mask : ℕ} (hpath : r.path = some path) (text : 0 ∉ path)
    (split : splitPath path 64 = some segs) (hit : matchSegs rr.segs segs = true)
    (serves : methodServed (reqMethod r) (strcaseeq (reqMethod r) (ascii "HEAD")) rr = true)
    (served : (routerProbe [rr] a r fn mask).2.arena.Served) : (routerProbe [rr] a r fn mask).1 = 1 := by
  unfold routerProbe routerFind at served ⊢
  rw [hpath, Option.getD_some] at served ⊢
  have copy := @arenaStrdup_served a path
  cases hd : arenaStrdup a path with
  | mk work b =>
    rw [hd] at copy served
    cases work with
    | none => cases (copy served).2
    | some work =>
      have whole : work = path := by
        have := arenaStrdup_some (congrArg Prod.fst hd)
        rw [cstr_of_nulFree text] at this
        exact this.symm
      rw [whole]
      dsimp only
      rw [split]
      simp only [findLoop, hit, serves, if_true]

/-- A request for these segments is answered, and every name gives its segment. -/
structure RoundTrips (names segs : List Bytes) (rr : RtRoute) (a : Arena) (r : Req) : Prop where
  accepted : (reqTargetPath a r).1 = 0
  matched : (routerProbe [rr] (reqTargetPath a r).2.1 (reqTargetPath a r).2.2 none 0).1 = 1
  values : ∀ p ∈ names.zip segs,
    reqParam (routerProbe [rr] (reqTargetPath a r).2.1 (reqTargetPath a r).2.2 none 0).2.req p.1 = some p.2

theorem mem_zip_right {names segs : List Bytes} (same : names.length = segs.length) {s : Bytes}
    (hs : s ∈ segs) : ∃ x, (x, s) ∈ names.zip segs := by
  obtain ⟨i, hi, rfl⟩ := List.getElem_of_mem hs
  refine ⟨names[i], List.mem_iff_getElem.mpr ⟨i, ?_, List.getElem_zip⟩⟩
  rw [List.length_zip]
  omega

section Trip
variable {names segs : List Bytes} {a : Arena} {r : Req} {rr : RtRoute}

theorem captured_params (few : names.length ≤ 16) (row : rr.segs = (names.map fun x => 58 :: x).map fun s =>
      segParse s segZero) {fn : Option ℕ} {mask : ℕ} (found : (routerProbe [rr] a r fn mask).1 = 1)
    (served : (routerProbe [rr] a r fn mask).2.arena.Served) :
    ∃ qs, splitPath (cstr (r.path.getD [])) 64 = some qs ∧ names.length = qs.length ∧
      (routerProbe [rr] a r fn mask).2.req.routeParams = (names.zip qs).map fun p => (p.1, some p.2) := by
  obtain ⟨qs, i, rr', a', r', split, picked, _, captured⟩ := routerProbe_picked found
  obtain rfl : rr = rr' := by
    have inside := List.mem_of_getElem? picked.row
    exact (List.mem_singleton.mp inside).symm
  have hit := picked.fits.1
  rw [row, matchSegs_params] at hit
  have text : ∀ q ∈ qs, 0 ∉ q := by
    intro q hq nul
    rw [(splitPath_some split).1] at hq
    exact absurd (List.mem_takeWhile_imp ((mem_segments hq).2 nul)) (by decide)
  have plain : ∀ p ∈ names.map fun x => 58 :: x, segKind p ≠ .rest := by
    intro p hp
    obtain ⟨x, _, rfl⟩ := List.mem_map.mp hp
    exact fun e => by cases e
  have last : RestLast ((names.map fun x => 58 :: x).map segKind) := by
    intro h
    obtain ⟨p, hp, kind⟩ := List.mem_map.mp (List.dropLast_subset _ h)
    exact plain p hp kind
  have short : (names.map fun x => 58 :: x).drop rtMaxSegs = [] := by
    refine List.drop_eq_nil_of_le ?_
    rw [List.length_map]
    exact le_trans few (by decide)
  have names_few : (captureNames (names.map fun x => 58 :: x)).length ≤ 16 := by
    rw [← captures_length _ qs, captures_params hit, List.length_map, List.length_zip]
    omega
  have complete : Complete (names.map fun x => 58 :: x) qs := by
    refine ⟨by rw [short]; rfl, fun h => ?_⟩
    obtain ⟨p, hp, kind⟩ := Option.map_eq_some_iff.mp h.1
    exact plain p (List.mem_of_getLast? hp) kind
  rw [row] at captured
  have arena := congrArg Prod.fst captured
  have req := congrArg (fun x => x.2.routeParams) captured
  dsimp only at arena req
  rw [← arena] at served
  have bound := (short_bound short ((matchSegs_params names qs).mpr hit) last text names_few rfl served).mpr complete
  refine ⟨qs, split, hit, ?_⟩
  rw [← req, bound, captures_params hit]

/-- The parameters of a request come back exactly if its target is not too long, no segment has a
`/`, and parameters of one name have one segment. -/
theorem params_round_trip_iff (same : names.length = segs.length) (few : segs.length ≤ 16)
    (full : [] ∉ segs) (text : ∀ s ∈ segs, 0 ∉ s) (clean : ∀ x ∈ names, slash ∉ x)
    {mem : ℕ → Bool} {method : Bytes} {fn : ℕ}
    (init : initRoute mem ⟨method, paramPattern names, fn⟩ = some rr)
    (target : r.target = some (encodedTarget segs)) (fresh : r.path = none)
    (serves : Serves ⟨method, paramPattern names, fn⟩ (reqMethod r))
    (served : (routerProbe [rr] (reqTargetPath a r).2.1 (reqTargetPath a r).2.2 none 0).2.arena.Served) :
    RoundTrips names segs rr a r ↔
      (encodedTarget segs).length ≤ maxUrl ∧ (∀ s ∈ segs, slash ∉ s) ∧
        ∀ p ∈ names.zip segs, ∀ q ∈ names.zip segs, SameText p.1 q.1 → p.2 = q.2 := by
  have parsed := initRoute_parsed init
  have row : rr.segs = (names.map fun x => 58 :: x).map fun s => segParse s segZero := by
    rw [parsed]
    dsimp only
    rw [parsedSegs, segments_pattern clean, List.take_of_length_le]
    rw [List.length_map, same]
    exact le_trans few (by decide)
  have path_text : 0 ∉ plainPath segs := by
    intro h
    obtain e | h := List.mem_cons.mp h
    · exact absurd e (by decide)
    · obtain e | ⟨s, hs, hc⟩ := mem_joinSegs h
      · exact absurd e (by decide)
      · exact text s hs hc
  have before := (routerProbe_allocs [rr] (reqTargetPath a r).2.1 (reqTargetPath a r).2.2 none 0).served served
  obtain ⟨long, code⟩ | ⟨short, code, req⟩ := reqTargetPath_encoded target fresh before
  · constructor
    · intro trip
      exact absurd (trip.accepted.symm.trans code) (by decide)
    · intro h
      exact absurd h.1 (Nat.not_le.mpr long)
  · have method_kept : reqMethod (reqTargetPath a r).2.2 = reqMethod r := by
      rw [req]
      rfl
    have hpath : (reqTargetPath a r).2.2.path = some (plainPath segs) := by rw [req]
    have cut_path : cstr ((reqTargetPath a r).2.2.path.getD []) = plainPath segs := by
      rw [hpath]
      exact cstr_of_nulFree path_text
    constructor
    · intro trip
      obtain ⟨qs, split, hit, params⟩ := captured_params (same ▸ few) row trip.matched served
      rw [cut_path] at split
      have free : ∀ s ∈ segs, slash ∉ s := by
        intro s hs
        obtain ⟨x, pair⟩ := mem_zip_right same hs
        obtain ⟨y, hy, _⟩ := reqParam_mem params (trip.values _ pair)
        have inside := (List.of_mem_zip hy).2
        rw [(splitPath_some split).1] at inside
        exact (mem_segments inside).1
      have cut : qs = segs := by rw [(splitPath_some split).1, segments_path free full]
      rw [cut] at params
      exact ⟨short, free, (reqParam_values params).mp trip.values⟩
    · rintro ⟨_, free, agree⟩
      have split : splitPath (plainPath segs) 64 = some segs := by
        rw [splitPath_eq (by rw [segments_path free full]; omega), segments_path free full]
      have hit : matchSegs rr.segs segs = true := by
        rw [row, matchSegs_params]
        exact same
      have taken : methodServed (reqMethod (reqTargetPath a r).2.2)
          (strcaseeq (reqMethod (reqTargetPath a r).2.2) (ascii "HEAD")) rr = true := by
        rw [method_kept, parsed]
        exact (serves_iff ⟨method, paramPattern names, fn⟩ (reqMethod r)).mpr serves
      have found := routerProbe_one hpath path_text split hit taken served
      obtain ⟨qs, split', _, params⟩ := captured_params (same ▸ few) row found served
      rw [cut_path, split] at split'
      obtain rfl := Option.some.inj split'
      exact ⟨code, found, (reqParam_values params).mpr agree⟩

end Trip

def idRoute : RtRoute := parsedRoute ⟨ascii "GET", ascii "/:id", 1⟩

def segsGet (segs : List Bytes) : Req :=
  { reqSetup 0 with method := some (ascii "GET"), target := some (encodedTarget segs) }

def userRoute : RtRoute := parsedRoute ⟨ascii "GET", ascii "/:id/:tab", 1⟩

theorem params_round_trip_space :
    RoundTrips [ascii "id", ascii "tab"] [ascii "a b", ascii "c"] userRoute roomyArena
        (segsGet [ascii "a b", ascii "c"]) ↔
      (encodedTarget [ascii "a b", ascii "c"]).length ≤ maxUrl ∧ (∀ s ∈ [ascii "a b", ascii "c"], slash ∉ s) ∧
        ∀ p ∈ [ascii "id", ascii "tab"].zip [ascii "a b", ascii "c"],
          ∀ q ∈ [ascii "id", ascii "tab"].zip [ascii "a b", ascii "c"], SameText p.1 q.1 → p.2 = q.2 :=
  params_round_trip_iff rfl (by decide) (by decide) (by decide) (by decide)
    (show initRoute (fun _ => true) ⟨ascii "GET", paramPattern [ascii "id", ascii "tab"], 1⟩ = some userRoute by
      decide)
    rfl rfl (.inl rfl) (by decide)

def pairRoute : RtRoute := parsedRoute ⟨ascii "GET", ascii "/:id/:ID", 1⟩

/-- `/a%2Fb` has two segments after decoding, so `/:id` does not match it; a target may be too long;
and of two names that differ in case only the first one is found. -/
theorem slash_not_matched : encodedTarget [ascii "a/b"] = ascii "/a%2Fb" ∧
    (reqTargetPath roomyArena (segsGet [ascii "a/b"])).1 = 0 ∧
    (routerProbe [idRoute] (reqTargetPath roomyArena (segsGet [ascii "a/b"])).2.1
      (reqTargetPath roomyArena (segsGet [ascii "a/b"])).2.2 none 0).1 = 0 ∧
    (reqTargetPath roomyArena (segsGet [List.replicate maxUrl 97])).1 = 414 ∧
    reqParam (routerProbe [pairRoute] (reqTargetPath roomyArena (segsGet [ascii "a", ascii "b"])).2.1
      (reqTargetPath roomyArena (segsGet [ascii "a", ascii "b"])).2.2 none 0).2.req (ascii "ID") =
        some (ascii "a") := by
  have long : maxUrl < (encodedTarget [List.replicate maxUrl 97]).length :=
    lt_of_eq_of_lt List.length_replicate.symm (encodedTarget_length _)
  exact ⟨by decide, by decide, by decide, reqTargetPath_long roomyArena long rfl rfl, by decide⟩

end Cerco.ParamRoundTrip
