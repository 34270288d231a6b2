import Cerco.QueryString
import Cerco.RoutePatterns

set_option autoImplicit false

/-!
# The parameters of a matched route

The lookup captures in a loop of its own, which ends with the segments of the
request; the loop that matches goes on to a catch-all behind them.
-/
namespace Cerco.RouteParams
open Cerco.Alloc Cerco.CString Cerco.Request Cerco.Router Cerco.SegmentPattern Cerco.RouteFiles
open Cerco.QueryString Cerco.RoutePatterns

/-- `cerco_param` -/
def reqParam (r : Req) (name : Bytes) : Option Bytes :=
  (r.routeParams.find? fun p => strcaseeq p.1 name).bind (·.2)

/-- `:x` captures its segment and `*x` all that are left. -/
def captures : List Bytes → List Bytes → List (Bytes × Option Bytes)
  | [], _ => []
  | (58 :: x) :: ps, qs => (x, qs.head?) :: captures ps qs.tail
  | (42 :: c :: x) :: _, qs => [(c :: x, some (joinSegs qs))]
  | _ :: ps, qs => captures ps qs.tail

def captureNames (ps : List Bytes) : List Bytes := (captures ps []).map Prod.fst

def EmptyRest (ps qs : List Bytes) : Prop :=
  ps.getLast?.map segKind = some .rest ∧ ps.length = qs.length + 1

theorem seg_cases (p : Bytes) :
    (∃ x, segKind p = .one ∧ segParse p segZero = ⟨none, some x, false⟩ ∧
      ∀ ps qs, captures (p :: ps) qs = (x, qs.head?) :: captures ps qs.tail) ∨
    (∃ x, segKind p = .rest ∧ segParse p segZero = ⟨none, some x, true⟩ ∧
      ∀ ps qs, captures (p :: ps) qs = [(x, some (joinSegs qs))]) ∨
    (segKind p = .lit p ∧ segParse p segZero = ⟨some p, none, false⟩ ∧
      ∀ ps qs, captures (p :: ps) qs = captures ps qs.tail) := by
  unfold segKind segParse
  split
  · rename_i x
    exact .inl ⟨x, rfl, rfl, fun _ _ => rfl⟩
  · rename_i c x
    exact .inr (.inl ⟨c :: x, rfl, rfl, fun _ _ => rfl⟩)
  · rename_i no_one no_rest
    refine .inr (.inr ⟨rfl, rfl, fun ps qs => ?_⟩)
    rw [captures]
    · exact no_one
    · exact no_rest

theorem captures_names (ps qs : List Bytes) : (captures ps qs).map Prod.fst = captureNames ps := by
  unfold captureNames
  have same : ∀ qs qs' : List Bytes, (captures ps qs).map Prod.fst = (captures ps qs').map Prod.fst := by
    induction ps with
    | nil => exact fun _ _ => rfl
    | cons p ps ih =>
      intro qs qs'
      obtain ⟨x, _, _, e⟩ | ⟨x, _, _, e⟩ | ⟨_, _, e⟩ := seg_cases p <;> rw [e, e]
      · rw [List.map_cons, List.map_cons, ih qs.tail qs'.tail]
      · rfl
      · exact ih _ _
  exact same qs []

theorem captures_length (ps qs : List Bytes) : (captures ps qs).length = (captureNames ps).length := by
  rw [← captures_names ps qs, List.length_map]

theorem captureNames_cons_length (p : Bytes) (ps : List Bytes) (last : RestLast ((p :: ps).map segKind)) :
    (captureNames ps).length ≤ (captureNames (p :: ps)).length := by
  unfold captureNames
  rw [List.length_map, List.length_map]
  obtain ⟨x, _, _, e⟩ | ⟨x, kind, _, e⟩ | ⟨_, _, e⟩ := seg_cases p <;> rw [e]
  · exact Nat.le_succ _
  · rw [List.map_cons, kind] at last
    have none := List.map_eq_nil_iff.mp last.rest_cons
    rw [none]
    exact Nat.zero_le _
  · exact Nat.le_refl _

theorem emptyRest_cons {p q : Bytes} {ps qs : List Bytes} (kind : segKind p ≠ .rest) :
    EmptyRest (p :: ps) (q :: qs) ↔ EmptyRest ps qs := by
  unfold EmptyRest
  cases ps with
  | nil => simp [kind]
  | cons p' ps => simp [List.getLast?_cons_cons]

theorem captureParams_lost {ps qs : List Bytes} {a : Arena} {r : Req}
    (matched : matchSegs (ps.map fun s => segParse s segZero) qs = true)
    (last : RestLast (ps.map segKind)) (text : ∀ q ∈ qs, 0 ∉ q)
    (room : r.routeParams.length + (captureNames ps).length ≤ 16)
    (served : (captureParams (ps.map fun s => segParse s segZero) qs a r).1.Served) :
    ∃ lost, (captureParams (ps.map fun s => segParse s segZero) qs a r).2.routeParams ++ lost =
      r.routeParams ++ captures ps qs ∧ (lost = [] ↔ ¬ EmptyRest ps qs) := by
  induction ps generalizing qs a r with
  | nil => exact ⟨[], rfl, by simp [EmptyRest]⟩
  | cons p ps ih =>
    have fewer := captureNames_cons_length p ps last
    obtain ⟨x, kind, seg, e⟩ | ⟨x, kind, seg, e⟩ | ⟨kind, seg, e⟩ := seg_cases p
    · rw [List.map_cons, seg] at matched served ⊢
      cases qs with
      | nil => cases matched
      | cons q qs =>
        rw [← captures_length (p :: ps) (q :: qs), e, List.length_cons, List.tail_cons,
          captures_length] at room
        have free : r.routeParams.length < 16 := by omega
        have step := captureParams_one (text q List.mem_cons_self) free served
        rw [step] at served ⊢
        obtain ⟨lost, whole, empty⟩ := ih matched last.tail
          (fun t ht => text t (List.mem_cons_of_mem q ht))
          (by rw [List.length_append, List.length_singleton]; omega) served
        refine ⟨lost, ?_, ?_⟩
        · rw [whole, e, List.append_assoc]
          rfl
        · rw [empty, emptyRest_cons (by simp [kind])]
    · rw [List.map_cons, kind] at last
      obtain rfl := List.map_eq_nil_iff.mp last.rest_cons
      rw [List.map_cons, seg] at served ⊢
      cases qs with
      | nil =>
        refine ⟨[(x, some [])], by rw [e]; rfl, ?_⟩
        simp [EmptyRest, kind]
      | cons q qs =>
        rw [← captures_length [p] (q :: qs), e, List.length_singleton] at room
        have free : r.routeParams.length < 16 := by omega
        refine ⟨[], ?_, by simp [EmptyRest]⟩
        rw [List.append_nil, e]
        exact captureParams_rest free served
    · rw [List.map_cons, seg] at matched served ⊢
      cases qs with
      | nil => cases matched
      | cons q qs =>
        have rest : matchSegs (ps.map fun s => segParse s segZero) qs = true := by
          change (if strcaseeq p q then _ else false) = true at matched
          split at matched
          · exact matched
          · cases matched
        obtain ⟨lost, whole, empty⟩ := ih rest last.tail
          (fun t ht => text t (List.mem_cons_of_mem q ht)) (by omega) served
        refine ⟨lost, ?_, ?_⟩
        · rw [e]
          exact whole
        · rw [empty, emptyRest_cons (by simp [kind])]

theorem captures_some {ps qs : List Bytes}
    (matched : matchSegs (ps.map fun s => segParse s segZero) qs = true)
    (last : RestLast (ps.map segKind)) : ∀ b ∈ captures ps qs, b.2.isSome = true := by
  induction ps generalizing qs with
  | nil => exact fun b hb => by cases hb
  | cons p ps ih =>
    obtain ⟨x, kind, seg, e⟩ | ⟨x, kind, seg, e⟩ | ⟨kind, seg, e⟩ := seg_cases p
    · rw [List.map_cons, seg] at matched
      cases qs with
      | nil => cases matched
      | cons q qs =>
        rw [e]
        intro b hb
        obtain rfl | hb := List.mem_cons.mp hb
        · rfl
        · exact ih matched last.tail b hb
    · rw [e]
      intro b hb
      rw [List.mem_singleton.mp hb]
      rfl
    · rw [List.map_cons, seg] at matched
      cases qs with
      | nil => cases matched
      | cons q qs =>
        have rest : matchSegs (ps.map fun s => segParse s segZero) qs = true := by
          change (if strcaseeq p q then _ else false) = true at matched
          split at matched
          · exact matched
          · cases matched
        rw [e]
        exact ih rest last.tail

/-- The first row that fits the segments and the method. -/
structure Picked (rows : List RtRoute) (segs : List Bytes) (method : Bytes) (i : ℕ) (rr : RtRoute) :
    Prop where
  row : rows[i]? = some rr
  fits : matchSegs rr.segs segs = true ∧ methodServed method (strcaseeq method (ascii "HEAD")) rr = true
  first : ∀ j < i, ∀ rr', rows[j]? = some rr' → ¬ (matchSegs rr'.segs segs = true ∧
    methodServed method (strcaseeq method (ascii "HEAD")) rr' = true)

theorem Picked.cons {rows : List RtRoute} {segs : List Bytes} {method : Bytes} {i : ℕ} {rr rr₀ : RtRoute}
    (h : Picked rows segs method i rr)
    (before : ¬ (matchSegs rr₀.segs segs = true ∧
      methodServed method (strcaseeq method (ascii "HEAD")) rr₀ = true)) :
    Picked (rr₀ :: rows) segs method (i + 1) rr := by
  refine ⟨h.row, h.fits, fun j hj rr' hr => ?_⟩
  cases j with
  | zero =>
    obtain rfl := Option.some.inj hr
    exact before
  | succ j => exact h.first j (Nat.lt_of_succ_lt_succ hj) rr' hr

theorem findLoop_picked {segs : List Bytes} {method : Bytes} {rows : List RtRoute} {result : RtResult}
    {mask : ℕ} {a : Arena} {r : Req} (start : result ≠ .found)
    (found : (findLoop segs method (strcaseeq method (ascii "HEAD")) rows result mask a r).result = .found) :
    ∃ (i : ℕ) (rr : RtRoute) (a' : Arena) (r' : Req), Picked rows segs method i rr ∧
      (findLoop segs method (strcaseeq method (ascii "HEAD")) rows result mask a r).fn = some rr.fn ∧
      captureParams rr.segs segs a' { r' with routeParams := [] } =
        ((findLoop segs method (strcaseeq method (ascii "HEAD")) rows result mask a r).arena,
          (findLoop segs method (strcaseeq method (ascii "HEAD")) rows result mask a r).req) := by
  induction rows generalizing result mask a r with
  | nil => exact absurd found start
  | cons rr rows ih =>
    rw [findLoop] at found ⊢
    by_cases hit : matchSegs rr.segs segs = true
    · rw [if_pos hit] at found ⊢
      dsimp only at found ⊢
      by_cases served : methodServed method (strcaseeq method (ascii "HEAD")) rr = true
      · rw [if_pos served]
        refine ⟨0, rr, a, r, ⟨rfl, ⟨hit, served⟩, fun j hj => absurd hj (Nat.not_lt_zero j)⟩, rfl, rfl⟩
      · rw [if_neg served] at found ⊢
        obtain ⟨i, rr', a', r', picked, fn, captured⟩ := ih (by decide) found
        exact ⟨i + 1, rr', a', r', picked.cons fun h => served h.2, fn, captured⟩
    · rw [if_neg hit] at found ⊢
      obtain ⟨i, rr', a', r', picked, fn, captured⟩ := ih start found
      exact ⟨i + 1, rr', a', r', picked.cons fun h => hit h.1, fn, captured⟩

theorem routerProbe_picked {rows : List RtRoute} {a : Arena} {r : Req} {fn : Option ℕ} {mask : ℕ}
    (found : (routerProbe rows a r fn mask).1 = 1) :
    ∃ (segs : List Bytes) (i : ℕ) (rr : RtRoute) (a' : Arena) (r' : Req),
      splitPath (cstr (r.path.getD [])) 64 = some segs ∧
      Picked rows segs (reqMethod r) i rr ∧ (routerProbe rows a r fn mask).2.fn = some rr.fn ∧
      captureParams rr.segs segs a' { r' with routeParams := [] } =
        ((routerProbe rows a r fn mask).2.arena, (routerProbe rows a r fn mask).2.req) := by
  unfold routerProbe at found ⊢
  dsimp only at found ⊢
  have result : (routerFind rows a r fn mask).result = .found := by
    cases h : (routerFind rows a r fn mask).result with
    | found => rfl
    | miss =>
      rw [h] at found
      exact absurd found (by decide)
    | methodMismatch =>
      rw [h] at found
      exact absurd found (by decide)
  unfold routerFind at result ⊢
  split at result
  · cases result
  · rename_i work a₁ hdup
    have copy : work = cstr (r.path.getD []) := (arenaStrdup_some (congrArg Prod.fst hdup)).symm
    split at result
    · cases result
    · rename_i segs hs
      obtain ⟨i, rr, a', r', picked, fn', captured⟩ := findLoop_picked (by decide) result
      exact ⟨segs, i, rr, a', r', by rw [← copy]; exact hs, picked, fn', captured⟩

/-- The request carries the captures of the pattern and no others, and every name has a value. -/
structure Bound (pattern segs : List Bytes) (r : Req) : Prop where
  params : r.routeParams = captures pattern segs
  named : ∀ x ∈ captureNames pattern, (reqParam r x).isSome = true

/-- The parser kept all names of the pattern, and a catch-all has something to take. -/
def Complete (pattern segs : List Bytes) : Prop :=
  captureNames (pattern.drop rtMaxSegs) = [] ∧ ¬ EmptyRest pattern segs

theorem named_of_params {pattern segs : List Bytes} {r : Req}
    (params : r.routeParams = captures pattern segs)
    (valued : ∀ b ∈ captures pattern segs, b.2.isSome = true) :
    ∀ x ∈ captureNames pattern, (reqParam r x).isSome = true := by
  intro x hx
  rw [← captures_names pattern segs] at hx
  obtain ⟨b, hb, rfl⟩ := List.mem_map.mp hx
  have same : strcaseeq b.1 b.1 = true := (strcaseeq_iff _ _).mpr rfl
  unfold reqParam
  rw [params]
  cases hf : (captures pattern segs).find? fun p => strcaseeq p.1 b.1 with
  | none => exact absurd same (List.find?_eq_none.mp hf b hb)
  | some p => exact valued p (List.mem_of_find?_eq_some hf)

theorem captures_append {ps ps' : List Bytes} (qs : List Bytes) (free : ∀ p ∈ ps, segKind p ≠ .rest) :
    captures (ps ++ ps') qs = captures ps qs ++ captures ps' (qs.drop ps.length) := by
  induction ps generalizing qs with
  | nil => rfl
  | cons p ps ih =>
    have tail := ih qs.tail fun t ht => free t (List.mem_cons_of_mem p ht)
    have behind : qs.tail.drop ps.length = qs.drop (ps.length + 1) := by
      rw [← List.drop_one, List.drop_drop, Nat.add_comm]
    obtain ⟨x, _, _, e⟩ | ⟨x, kind, _, _⟩ | ⟨_, _, e⟩ := seg_cases p
    · rw [List.cons_append, e, e, tail, behind, List.length_cons, List.cons_append]
    · exact absurd kind (free p List.mem_cons_self)
    · rw [List.cons_append, e, e, tail, behind, List.length_cons]

theorem take_free {ps : List Bytes} {n : ℕ} (last : RestLast (ps.map segKind)) (long : ps.drop n ≠ []) :
    ∀ p ∈ ps.take n, segKind p ≠ .rest := by
  intro p hp kind
  refine last ?_
  rw [← kind, ← List.map_dropLast]
  refine List.mem_map_of_mem ?_
  have short : n ≤ ps.length - 1 := by
    by_contra hn
    exact long (List.drop_eq_nil_of_le (by omega))
  rw [List.dropLast_eq_take]
  exact List.take_subset_take_left ps short hp

theorem take_restLast {ps : List Bytes} (n : ℕ) (last : RestLast (ps.map segKind)) :
    RestLast ((ps.take n).map segKind) := by
  intro hr
  refine last ?_
  rw [← List.map_dropLast] at hr ⊢
  obtain ⟨p, hp, kind⟩ := List.mem_map.mp hr
  refine List.mem_map.mpr ⟨p, ?_, kind⟩
  rw [List.dropLast_eq_take, List.take_take, List.length_take] at hp
  rw [List.dropLast_eq_take]
  exact List.take_subset_take_left ps (by omega) hp

theorem names_of_rest {ps : List Bytes} (rest : ps.getLast?.map segKind = some .rest) :
    captureNames ps ≠ [] := by
  induction ps with
  | nil => cases rest
  | cons p ps ih =>
    obtain ⟨x, _, _, e⟩ | ⟨x, _, _, e⟩ | ⟨kind, _, e⟩ := seg_cases p
    · rw [captureNames, e]
      exact List.cons_ne_nil _ _
    · rw [captureNames, e]
      exact List.cons_ne_nil _ _
    · rw [captureNames, e]
      cases ps with
      | nil =>
        simp only [List.getLast?_singleton, Option.map_some, kind] at rest
        cases rest
      | cons p' ps =>
        rw [List.getLast?_cons_cons] at rest
        exact ih rest

theorem captures_nil_iff (ps qs : List Bytes) : captures ps qs = [] ↔ captureNames ps = [] := by
  rw [← captures_names ps qs, List.map_eq_nil_iff]

theorem long_bound {ps segs : List Bytes} {a : Arena} {r : Req} (long : ps.drop rtMaxSegs ≠ [])
    (matched : matchSegs ((ps.take rtMaxSegs).map fun s => segParse s segZero) segs = true)
    (last : RestLast (ps.map segKind)) (text : ∀ q ∈ segs, 0 ∉ q)
    (few : (captureNames ps).length ≤ 16) (fresh : r.routeParams = [])
    (served : (captureParams ((ps.take rtMaxSegs).map fun s => segParse s segZero) segs a r).1.Served) :
    (captureParams ((ps.take rtMaxSegs).map fun s => segParse s segZero) segs a r).2.routeParams =
        captures ps segs ↔ Complete ps segs := by
  have free := take_free last long
  have whole : captures ps segs = captures (ps.take rtMaxSegs) segs ++
      captures (ps.drop rtMaxSegs) (segs.drop (ps.take rtMaxSegs).length) := by
    conv => lhs; rw [← List.take_append_drop rtMaxSegs ps]
    exact captures_append segs free
  have room : r.routeParams.length + (captureNames (ps.take rtMaxSegs)).length ≤ 16 := by
    have split := congrArg List.length whole
    rw [List.length_append, captures_length, captures_length] at split
    rw [fresh, List.length_nil]
    omega
  obtain ⟨lost, kept, empty⟩ := captureParams_lost matched (take_restLast rtMaxSegs last) text room served
  have none_lost : lost = [] := by
    refine empty.mpr fun h => ?_
    obtain ⟨p, hp, kind⟩ := Option.map_eq_some_iff.mp h.1
    exact free p (List.mem_of_getLast? hp) kind
  rw [none_lost, List.append_nil, fresh, List.nil_append] at kept
  rw [kept, whole]
  unfold Complete
  rw [← captures_nil_iff (ps.drop rtMaxSegs) (segs.drop (ps.take rtMaxSegs).length)]
  constructor
  · intro h
    have none := List.self_eq_append_right.mp h
    refine ⟨none, fun bare => ?_⟩
    have tail : (ps.drop rtMaxSegs).getLast? = ps.getLast? := by
      conv => rhs; rw [← List.take_append_drop rtMaxSegs ps]
      rw [List.getLast?_append_of_ne_nil _ long]
    exact names_of_rest (by rw [tail]; exact bare.1) ((captures_nil_iff _ _).mp none)
  · intro h
    rw [h.1, List.append_nil]

theorem short_bound {ps segs : List Bytes} {a : Arena} {r : Req} (short : ps.drop rtMaxSegs = [])
    (matched : matchSegs (ps.map fun s => segParse s segZero) segs = true)
    (last : RestLast (ps.map segKind)) (text : ∀ q ∈ segs, 0 ∉ q)
    (few : (captureNames ps).length ≤ 16) (fresh : r.routeParams = [])
    (served : (captureParams (ps.map fun s => segParse s segZero) segs a r).1.Served) :
    (captureParams (ps.map fun s => segParse s segZero) segs a r).2.routeParams = captures ps segs ↔
      Complete ps segs := by
  have room : r.routeParams.length + (captureNames ps).length ≤ 16 := by
    rw [fresh, List.length_nil]
    omega
  obtain ⟨lost, kept, empty⟩ := captureParams_lost matched last text room served
  rw [fresh, List.nil_append] at kept
  unfold Complete
  rw [short, ← empty, ← kept]
  constructor
  · intro h
    exact ⟨rfl, List.self_eq_append_right.mp h⟩
  · intro h
    rw [h.2, List.append_nil]

/-- A match of all segments that are kept has a value for every capture that the code made. -/
theorem complete_some {ps segs : List Bytes}
    (matched : matchSegs ((ps.take rtMaxSegs).map fun s => segParse s segZero) segs = true)
    (last : RestLast (ps.map segKind)) (complete : Complete ps segs) :
    ∀ b ∈ captures ps segs, b.2.isSome = true := by
  have kept := captures_some matched (take_restLast rtMaxSegs last)
  by_cases long : ps.drop rtMaxSegs = []
  · have all : ps.take rtMaxSegs = ps := by
      conv => rhs; rw [← List.take_append_drop rtMaxSegs ps, long, List.append_nil]
    rwa [all] at kept
  · have whole : captures ps segs = captures (ps.take rtMaxSegs) segs := by
      conv => lhs; rw [← List.take_append_drop rtMaxSegs ps]
      rw [captures_append segs (take_free last long), (captures_nil_iff _ _).mpr complete.1,
        List.append_nil]
    rwa [whole]

/-- A request that the lookup answers with 1 carries the captures of the chosen pattern, exactly
if the parser kept its names and its catch-all, if any, has something to take. -/
theorem params_bound_iff {callocOk : Bool} {mem : ℕ → ℕ → Bool} {es : List RouteEntry}
    {rt : List RtRoute} (init : routerInit callocOk mem es = some rt)
    (last : ∀ e ∈ es, RestLast (patternOf e.path))
    (few : ∀ e ∈ es, (captureNames (segments e.path)).length ≤ 16)
    {a : Arena} {r : Req} {fn : Option ℕ} {mask : ℕ} (found : (routerProbe rt a r fn mask).1 = 1)
    (served : (routerProbe rt a r fn mask).2.arena.Served) :
    ∃ segs i e, splitPath (cstr (r.path.getD [])) 64 = some segs ∧ es[i]? = some e ∧
      Picked rt segs (reqMethod r) i ⟨e.method, e.path, parsedSegs e.path, e.fn⟩ ∧
      (routerProbe rt a r fn mask).2.fn = some e.fn ∧
      (Bound (segments e.path) segs (routerProbe rt a r fn mask).2.req ↔
        Complete (segments e.path) segs) := by
  obtain ⟨segs, i, rr, a', r', split, picked, fn', captured⟩ := routerProbe_picked found
  have table : rt = es.map fun e => ⟨e.method, e.path, parsedSegs e.path, e.fn⟩ := by
    unfold routerInit at init
    split at init
    · exact initRoutes_parsed init
    · cases init
  have row := picked.row
  rw [table, List.getElem?_map] at row
  obtain ⟨e, he, rfl⟩ := Option.map_eq_some_iff.mp row
  have known := List.mem_of_getElem? he
  have matched : matchSegs (((segments e.path).take rtMaxSegs).map fun s => segParse s segZero) segs = true :=
    picked.fits.1
  have text : ∀ q ∈ segs, 0 ∉ q := by
    intro q hq nul
    rw [(splitPath_some split).1] at hq
    have inside := (mem_segments hq).2 nul
    exact absurd (List.mem_takeWhile_imp inside) (by decide)
  refine ⟨segs, i, e, split, he, picked, fn', ?_⟩
  have arena := congrArg Prod.fst captured
  have req := congrArg (fun x => x.2.routeParams) captured
  dsimp only at arena req
  rw [← arena] at served
  have params : (routerProbe rt a r fn mask).2.req.routeParams = captures (segments e.path) segs ↔
      Complete (segments e.path) segs := by
    rw [← req]
    by_cases long : (segments e.path).drop rtMaxSegs = []
    · have all : (segments e.path).take rtMaxSegs = segments e.path := by
        conv => rhs; rw [← List.take_append_drop rtMaxSegs (segments e.path), long, List.append_nil]
      unfold parsedSegs at served ⊢
      rw [all] at matched served ⊢
      exact short_bound long matched (last e known) text (few e known) rfl served
    · exact long_bound long matched (last e known) text (few e known) rfl served
  constructor
  · intro bound
    exact params.mp bound.params
  · intro complete
    exact ⟨params.mpr complete, named_of_params (params.mpr complete)
      (complete_some matched (last e known) complete)⟩

def fileRoutes : List RouteEntry :=
  [⟨ascii "POST", ascii "/files/:name", 1⟩, ⟨ascii "GET", ascii "/files/*rest", 2⟩]

def fileRt : List RtRoute := fileRoutes.map parsedRoute

def fileGet (path : Bytes) : Req := { reqSetup 0 with method := some (ascii "GET"), path := some path }

/-- `GET /files/a`, which the POST route hits as well. -/
theorem params_bound_files : ∃ segs i e,
    splitPath (cstr ((fileGet (ascii "/files/a")).path.getD [])) 64 = some segs ∧
    fileRoutes[i]? = some e ∧
    Picked fileRt segs (reqMethod (fileGet (ascii "/files/a"))) i
      ⟨e.method, e.path, parsedSegs e.path, e.fn⟩ ∧
    (routerProbe fileRt roomyArena (fileGet (ascii "/files/a")) none 0).2.fn = some e.fn ∧
    (Bound (segments e.path) segs (routerProbe fileRt roomyArena (fileGet (ascii "/files/a")) none 0).2.req ↔
      Complete (segments e.path) segs) :=
  params_bound_iff (show routerInit true (fun _ _ => true) fileRoutes = some fileRt by decide)
    (by decide) (by decide) (by decide) (by decide)

/-- `GET /files` is answered by the catch-all, whose name is not bound. -/
theorem empty_rest_unbound :
    (routerProbe fileRt roomyArena (fileGet (ascii "/files")) none 0).1 = 1 ∧
    (routerProbe fileRt roomyArena (fileGet (ascii "/files")) none 0).2.fn = some 2 ∧
    captures (segments (ascii "/files/*rest")) (segments (ascii "/files")) = [(ascii "rest", some [])] ∧
    reqParam (routerProbe fileRt roomyArena (fileGet (ascii "/files")) none 0).2.req (ascii "rest") = none := by
  decide

end Cerco.RouteParams
