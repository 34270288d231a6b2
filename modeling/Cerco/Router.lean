import Cerco.Request
import Cerco.SegmentPattern
import Mathlib.Data.Nat.Bitwise

set_option autoImplicit false

/-!
# The route table and the lookup

The source parses every pattern once at startup and walks the table for each
request. `RouteTable` is what the generator promises about the patterns; the
lookup itself does not check it.
-/
namespace Cerco.Router
open Cerco.Alloc Cerco.CString Cerco.Request Cerco.SegmentPattern

def rtMaxSegs : ℕ := 24

structure RtSeg where
  lit : Option Bytes
  param : Option Bytes
  catchall : Bool
deriving DecidableEq

structure RouteEntry where
  method : Bytes
  path : Bytes
  fn : ℕ

structure RtRoute where
  method : Bytes
  origPath : Bytes
  segs : List RtSeg
  fn : ℕ
deriving DecidableEq

def segZero : RtSeg := ⟨none, none, false⟩

def segParse (p : Bytes) (out : RtSeg) : RtSeg :=
  match p with
  | 58 :: rest => { out with param := some rest, lit := none }
  | 42 :: c :: rest => { out with catchall := true, param := some (c :: rest) }
  | p => { out with lit := some p }

/-- `if (*p == '/') p++` -/
def skipSlash : Bytes → Bytes
  | 47 :: p => p
  | p => p

/-- The inner loop of `router_init`, with the free slots of `segs`; `mem` answers
the malloc for the segment in each slot. -/
def initSegs (mem : ℕ → Bool) : ℕ → Bytes → Option (List RtSeg)
  | 0, _ => some []
  | slots + 1, p =>
    if p = [] then some []
    else
      if mem slots = false then none
      else
        match strchr slash p with
        | none => some [segParse p segZero]
        | some (seg, rest) => (initSegs mem slots rest).map (segParse seg segZero :: ·)

def initRoute (mem : ℕ → Bool) (e : RouteEntry) : Option RtRoute :=
  (initSegs mem rtMaxSegs (skipSlash e.path)).map fun segs => ⟨e.method, e.path, segs, e.fn⟩

def initRoutes (mem : ℕ → ℕ → Bool) : ℕ → List RouteEntry → Option (List RtRoute)
  | _, [] => some []
  | i, e :: es =>
    match initRoute (mem i) e with
    | none => none
    | some rr => (initRoutes mem (i + 1) es).map (rr :: ·)

/-- The parsed table, or `none` for a return value of -1. -/
def routerInit (callocOk : Bool) (mem : ℕ → ℕ → Bool) (routes : List RouteEntry) :
    Option (List RtRoute) :=
  if callocOk then initRoutes mem 0 routes else none

def segEq (s : RtSeg) (reqSeg : Bytes) : Bool :=
  if s.catchall then true
  else if s.param.isSome then true
  else strcaseeq (s.lit.getD []) reqSeg

/-- The loop of `split_path`, with the free slots; `none` is its -1. -/
def splitLoop : ℕ → Bytes → Option (List Bytes)
  | 0, p => if p = [] then some [] else none
  | slots + 1, p =>
    if p = [] then some []
    else
      match strchr slash p with
      | none => some [p]
      | some (seg, rest) => (splitLoop slots rest).map (seg :: ·)

def splitPath (path : Bytes) (max : ℕ) : Option (List Bytes) := splitLoop max (skipSlash path)

/-- The segment loop of `router_find`: the final value of `matched`. -/
def matchSegs : List RtSeg → List Bytes → Bool
  | [], segs => segs.isEmpty
  | s :: ss, segs =>
    if s.catchall then true
    else
      match segs with
      | [] => false
      | q :: qs => if segEq s q then matchSegs ss qs else false

/-- The segments of the remainder with `/` between them. -/
def joinSegs : List Bytes → Bytes
  | [] => []
  | [s] => s
  | s :: t :: ss => s ++ slash :: joinSegs (t :: ss)

def pushParam (r : Req) (name : Bytes) (value : Option Bytes) : Req :=
  if r.routeParams.length < 16 then { r with routeParams := r.routeParams ++ [(name, value)] }
  else r

def captureParams : List RtSeg → List Bytes → Arena → Req → Arena × Req
  | [], _, a, r => (a, r)
  | _ :: _, [], a, r => (a, r)
  | s :: ss, q :: qs, a, r =>
    if s.catchall then
      -- `need` counts every segment with one byte more, and the terminator
      match arenaAlloc a (1 + ((q :: qs).map fun x => x.length + 1).sum) with
      | (none, a) => (a, r)
      | (some _, a) => (a, pushParam r (s.param.getD []) (some (joinSegs (q :: qs))))
    else
      match s.param with
      | some name =>
        if r.routeParams.length < 16 then
          match arenaStrdup a q with
          | (v, a) => captureParams ss qs a (pushParam r name v)
        else captureParams ss qs a r
      | none => captureParams ss qs a r

inductive RtResult
  | miss
  | found
  | methodMismatch
deriving DecidableEq

def stdMethods : List Bytes :=
  [ascii "GET", ascii "POST", ascii "PUT", ascii "PATCH", ascii "DELETE", ascii "HEAD",
    ascii "OPTIONS"]

/-- The `else if` chain over the standard methods, from bit `b` on. -/
def methodBit (m : Bytes) : ℕ → List Bytes → ℕ
  | _, [] => 0
  | b, name :: names => if strcaseeq m name then 2 ^ b else methodBit m (b + 1) names

structure Found where
  result : RtResult
  fn : Option ℕ
  mask : ℕ
  arena : Arena
  req : Req

def methodServed (method : Bytes) (isHead : Bool) (rr : RtRoute) : Bool :=
  strcaseeq rr.method method || (isHead && strcaseeq rr.method (ascii "GET"))

/-- The loop over the routes; `result` and `mask` are what it carries along. -/
def findLoop (segs : List Bytes) (method : Bytes) (isHead : Bool) :
    List RtRoute → RtResult → ℕ → Arena → Req → Found
  | [], result, mask, a, r => ⟨result, none, mask, a, r⟩
  | rr :: rest, result, mask, a, r =>
    if matchSegs rr.segs segs then
      match captureParams rr.segs segs a { r with routeParams := [] } with
      | (a, r) =>
        if methodServed method isHead rr then
          ⟨.found, some rr.fn, mask, a, r⟩
        else
          findLoop segs method isHead rest .methodMismatch
            (mask ||| methodBit rr.method 0 stdMethods) a r
    else findLoop segs method isHead rest result mask a r

/-- `router_find`; the segments are cut out of an arena copy of the path. -/
def routerFind (routes : List RtRoute) (a : Arena) (r : Req) (fn : Option ℕ) (mask : ℕ) : Found :=
  match arenaStrdup a (r.path.getD []) with
  | (none, a) => ⟨.miss, fn, mask, a, r⟩
  | (some work, a) =>
    match splitPath work 64 with
    | none => ⟨.miss, fn, mask, a, r⟩
    | some segs =>
      let method := reqMethod r
      findLoop segs method (strcaseeq method (ascii "HEAD")) routes .miss mask a r

def routerProbe (routes : List RtRoute) (a : Arena) (r : Req) (fn : Option ℕ) (mask : ℕ) :
    ℕ × Found :=
  let f := routerFind routes a r fn mask
  (match f.result with
    | .found => 1
    | .methodMismatch => 2
    | .miss => 0, f)
def SameText (a b : Bytes) : Prop := a.map toLower = b.map toLower

/-- The segments of a path or a pattern. -/
def segments (p : Bytes) : List Bytes := cut slash (skipSlash p)

/-- `:x` takes one segment and `*x` the remainder; a lone `*` is a literal. -/
def segKind : Bytes → Pat Bytes
  | 58 :: _ => .one
  | 42 :: _ :: _ => .rest
  | p => .lit p

def patternOf (p : Bytes) : List (Pat Bytes) := (segments p).map segKind

structure RouteTable where
  routes : List RouteEntry
  short : ∀ e ∈ routes, (segments e.path).length ≤ rtMaxSegs
  restLast : ∀ e ∈ routes, RestLast (patternOf e.path)

/-- The pattern of `e` matches the whole path. -/
def Hits (e : RouteEntry) (path : Bytes) : Prop :=
  Matches SameText (patternOf e.path) (segments path)

/-- `e` answers the method, a GET route also answers HEAD. -/
def Serves (e : RouteEntry) (method : Bytes) : Prop :=
  SameText e.method method ∨ SameText method (ascii "HEAD") ∧ SameText e.method (ascii "GET")

theorem splitLoop_eq (slots : ℕ) (p : Bytes) :
    splitLoop slots p = if (cut slash p).length ≤ slots then some (cut slash p) else none := by
  induction slots generalizing p with
  | zero =>
    by_cases hp : p = []
    · subst hp
      simp [splitLoop, cut_nil]
    · have hne : cut slash p ≠ [] := by
        cases hc : strchr slash p with
        | none => simp [cut_of_notMem hp (strchr_none.mp hc)]
        | some x =>
          obtain ⟨hx, hn⟩ := strchr_some.mp hc
          simp [hx, cut_cons hn]
      simp [splitLoop, hp, hne]
  | succ slots ih =>
    by_cases hp : p = []
    · subst hp
      simp [splitLoop, cut_nil]
    · cases hc : strchr slash p with
      | none => simp [splitLoop, hp, hc, cut_of_notMem hp (strchr_none.mp hc)]
      | some x =>
        obtain ⟨hx, hn⟩ := strchr_some.mp hc
        simp only [splitLoop, hp, ↓reduceIte, hc, ih]
        rw [hx, cut_cons hn]
        simp only [List.length_cons, Nat.add_le_add_iff_right]
        split <;> rfl

theorem splitPath_eq {path : Bytes} {max : ℕ} (h : (segments path).length ≤ max) :
    splitPath path max = some (segments path) := by
  rw [splitPath, splitLoop_eq]
  exact if_pos h

theorem initSegs_eq {mem : ℕ → Bool} {slots : ℕ} {p : Bytes} {segs : List RtSeg}
    (h : initSegs mem slots p = some segs) :
    segs = ((cut slash p).take slots).map fun s => segParse s segZero := by
  induction slots generalizing p segs with
  | zero => simp_all [initSegs]
  | succ slots ih =>
    by_cases hp : p = []
    · subst hp
      simp_all [initSegs, cut_nil]
    · simp only [initSegs, hp, ↓reduceIte] at h
      split at h
      · cases h
      · cases hc : strchr slash p with
        | none =>
          simp only [hc, Option.some.injEq] at h
          simp [← h, cut_of_notMem hp (strchr_none.mp hc)]
        | some x =>
          obtain ⟨hx, hn⟩ := strchr_some.mp hc
          simp only [hc, Option.map_eq_some_iff] at h
          obtain ⟨tl, htl, rfl⟩ := h
          rw [ih htl, hx, cut_cons hn]
          simp

/-- The record that `router_init` builds for a pattern of at most 24 segments. -/
def parsedRoute (e : RouteEntry) : RtRoute :=
  ⟨e.method, e.path, (segments e.path).map fun s => segParse s segZero, e.fn⟩

theorem initRoute_eq {mem : ℕ → Bool} {e : RouteEntry} {rr : RtRoute}
    (hlen : (segments e.path).length ≤ rtMaxSegs) (h : initRoute mem e = some rr) :
    rr = parsedRoute e := by
  simp only [initRoute, Option.map_eq_some_iff] at h
  obtain ⟨segs, hs, rfl⟩ := h
  have htake : (cut slash (skipSlash e.path)).take rtMaxSegs = segments e.path :=
    List.take_of_length_le hlen
  rw [initSegs_eq hs, htake]
  rfl

theorem initRoutes_eq {mem : ℕ → ℕ → Bool} {i : ℕ} {es : List RouteEntry} {rt : List RtRoute}
    (hlen : ∀ e ∈ es, (segments e.path).length ≤ rtMaxSegs) (h : initRoutes mem i es = some rt) :
    rt = es.map parsedRoute := by
  induction es generalizing i rt with
  | nil => simp_all [initRoutes]
  | cons e es ih =>
    simp only [initRoutes] at h
    cases hr : initRoute (mem i) e with
    | none => simp [hr] at h
    | some rr =>
      simp only [hr, Option.map_eq_some_iff] at h
      obtain ⟨tl, htl, rfl⟩ := h
      rw [initRoute_eq (hlen e (by simp)) hr, ih (fun x hx => hlen x (by simp [hx])) htl]
      rfl

theorem routerInit_eq {t : RouteTable} {callocOk : Bool} {mem : ℕ → ℕ → Bool}
    {rt : List RtRoute} (h : routerInit callocOk mem t.routes = some rt) :
    rt = t.routes.map parsedRoute := by
  simp only [routerInit] at h
  split at h
  · exact initRoutes_eq t.short h
  · cases h

theorem sameText_iff (a b : Bytes) : strcaseeq a b = true ↔ SameText a b := strcaseeq_iff a b

theorem segKind_cases (p : Bytes) :
    (segKind p = .lit p ∧ segParse p segZero = ⟨some p, none, false⟩) ∨
    (segKind p = .one ∧ ∃ x, segParse p segZero = ⟨none, some x, false⟩) ∨
    (segKind p = .rest ∧ ∃ x, segParse p segZero = ⟨none, some x, true⟩) := by
  unfold segKind segParse
  split
  · exact .inr (.inl ⟨rfl, _, rfl⟩)
  · exact .inr (.inr ⟨rfl, _, rfl⟩)
  · exact .inl ⟨rfl, rfl⟩

theorem matchSegs_parsed (ps qs : List Bytes) :
    matchSegs (ps.map fun s => segParse s segZero) qs = run strcaseeq (ps.map segKind) qs := by
  induction ps generalizing qs with
  | nil => rfl
  | cons p ps ih =>
    rcases segKind_cases p with ⟨hk, hs⟩ | ⟨hk, x, hs⟩ | ⟨hk, x, hs⟩
    all_goals simp only [List.map_cons, hk, hs]
    · cases qs with
      | nil => rfl
      | cons q qs => simp [matchSegs, segEq, run, ih]
    · cases qs with
      | nil => rfl
      | cons q qs => simp [matchSegs, segEq, run, ih]
    · cases qs <;> simp [matchSegs, run]

theorem hits_iff {t : RouteTable} {e : RouteEntry} (he : e ∈ t.routes) (path : Bytes) :
    matchSegs (parsedRoute e).segs (segments path) = true ↔ Hits e path := by
  rw [parsedRoute, matchSegs_parsed]
  exact run_iff sameText_iff (t.restLast e he) (segments path)

theorem pushParam_only (r : Req) (n : Bytes) (v : Option Bytes) :
    ∃ ps, pushParam r n v = { r with routeParams := ps } := by
  unfold pushParam
  split
  · exact ⟨_, rfl⟩
  · exact ⟨_, rfl⟩

theorem captureParams_only (ss : List RtSeg) (qs : List Bytes) (a : Arena) (r : Req) :
    ∃ ps, (captureParams ss qs a r).2 = { r with routeParams := ps } := by
  induction ss generalizing qs a r with
  | nil => exact ⟨_, rfl⟩
  | cons s ss ih =>
    cases qs with
    | nil => exact ⟨_, rfl⟩
    | cons q qs =>
      simp only [captureParams]
      split
      · split
        · exact ⟨_, rfl⟩
        · exact pushParam_only _ _ _
      · split
        · rename_i name _
          split
          · obtain ⟨ps, pushed⟩ := pushParam_only r name (arenaStrdup a q).1
            obtain ⟨qs', e⟩ := ih qs (arenaStrdup a q).2 { r with routeParams := ps }
            exact ⟨qs', by rw [pushed, e]⟩
          · exact ih qs a r
        · exact ih qs a r

theorem findLoop_only (segs : List Bytes) (method : Bytes) (isHead : Bool) (rs : List RtRoute)
    (res : RtResult) (mask : ℕ) (a : Arena) (r : Req) :
    ∃ ps, (findLoop segs method isHead rs res mask a r).req = { r with routeParams := ps } := by
  induction rs generalizing res mask a r with
  | nil => exact ⟨_, rfl⟩
  | cons rr rest ih =>
    simp only [findLoop]
    split
    · obtain ⟨ps, e⟩ := captureParams_only rr.segs segs a { r with routeParams := [] }
      split
      · exact ⟨ps, e⟩
      · rw [e]
        obtain ⟨qs, e'⟩ := ih .methodMismatch (mask ||| methodBit rr.method 0 stdMethods)
          (captureParams rr.segs segs a { r with routeParams := [] }).1 { r with routeParams := ps }
        exact ⟨qs, e'⟩
    · exact ih _ _ _ _

theorem findLoop_path (segs : List Bytes) (method : Bytes) (isHead : Bool) (rs : List RtRoute)
    (result : RtResult) (mask : ℕ) (a : Arena) (r : Req) :
    (findLoop segs method isHead rs result mask a r).req.path = r.path := by
  obtain ⟨ps, e⟩ := findLoop_only segs method isHead rs result mask a r
  rw [e]

theorem findLoop_first (segs : List Bytes) (method : Bytes) (isHead : Bool) (rs : List RtRoute)
    (result : RtResult) (mask : ℕ) (a : Arena) (r : Req) :
    let f := findLoop segs method isHead rs result mask a r
    let hit := fun rr : RtRoute => matchSegs rr.segs segs
    f.fn = (rs.find? fun rr => hit rr && methodServed method isHead rr).map (·.fn) ∧
    f.result = if rs.any fun rr => hit rr && methodServed method isHead rr then .found
      else if rs.any hit then .methodMismatch else result := by
  induction rs generalizing result mask a r with
  | nil => exact ⟨rfl, rfl⟩
  | cons rr rs ih =>
    simp only [findLoop, List.find?_cons, List.any_cons]
    by_cases hm : matchSegs rr.segs segs = true
    · by_cases hs : methodServed method isHead rr = true
      · simp only [hm, hs, ↓reduceIte, Bool.and_self, Bool.true_or, Option.map_some, and_self]
      · have hs : methodServed method isHead rr = false := by simpa using hs
        simp only [hm, hs, ↓reduceIte, Bool.true_and, Bool.false_or, Bool.true_or,
          Bool.false_eq_true]
        obtain ⟨h1, h2⟩ := ih .methodMismatch (mask ||| methodBit rr.method 0 stdMethods)
          (captureParams rr.segs segs a { r with routeParams := [] }).1
          (captureParams rr.segs segs a { r with routeParams := [] }).2
        refine ⟨h1, h2.trans ?_⟩
        split
        · rfl
        · split <;> rfl
    · have hm : matchSegs rr.segs segs = false := by simpa using hm
      simpa only [hm, ↓reduceIte, Bool.false_and, Bool.false_or, Bool.false_eq_true]
        using ih result mask a r

theorem findLoop_mask (segs : List Bytes) (method : Bytes) (isHead : Bool) (rs : List RtRoute)
    (result : RtResult) (mask : ℕ) (a : Arena) (r : Req)
    (hno : ∀ rr ∈ rs, matchSegs rr.segs segs = true → methodServed method isHead rr = false) (b : ℕ) :
    (findLoop segs method isHead rs result mask a r).mask.testBit b = true ↔
      mask.testBit b = true ∨ ∃ rr ∈ rs, matchSegs rr.segs segs = true ∧
        (methodBit rr.method 0 stdMethods).testBit b = true := by
  induction rs generalizing result mask a r with
  | nil => simp [findLoop]
  | cons rr rs ih =>
    have hrest := fun x (hx : x ∈ rs) => hno x (List.mem_cons_of_mem _ hx)
    simp only [findLoop]
    by_cases hm : matchSegs rr.segs segs = true
    · have hs := hno rr (by simp) hm
      simp only [hm, hs, ↓reduceIte, Bool.false_eq_true]
      rw [ih _ _ _ _ hrest]
      simp [hm, or_assoc]
    · rw [if_neg hm, ih _ _ _ _ hrest]
      simp [hm]

theorem methodBit_testBit (m : Bytes) (b : ℕ) (names : List Bytes)
    (hd : names.Pairwise fun x y => ¬ SameText x y) (k : ℕ) :
    (methodBit m b names).testBit k = true ↔
      ∃ j name, names[j]? = some name ∧ k = b + j ∧ SameText m name := by
  induction names generalizing b with
  | nil => simp [methodBit]
  | cons name names ih =>
    obtain ⟨hne, hd⟩ := List.pairwise_cons.mp hd
    simp only [methodBit]
    by_cases hs : SameText m name
    · rw [if_pos ((sameText_iff _ _).mpr hs), Nat.testBit_two_pow]
      simp only [decide_eq_true_eq]
      constructor
      · rintro rfl
        exact ⟨0, name, rfl, rfl, hs⟩
      · rintro ⟨j, x, hx, rfl, hmx⟩
        cases j with
        | zero => rfl
        | succ j => exact absurd (hs.symm.trans hmx) (hne x (List.mem_of_getElem? hx))
    · rw [if_neg (fun h => hs ((sameText_iff _ _).mp h)), ih (b + 1) hd]
      constructor
      · rintro ⟨j, x, hx, rfl, hmx⟩
        exact ⟨j + 1, x, hx, by omega, hmx⟩
      · rintro ⟨j, x, hx, rfl, hmx⟩
        cases j with
        | zero =>
          simp only [List.getElem?_cons_zero, Option.some.injEq] at hx
          exact absurd (hx ▸ hmx) hs
        | succ j => exact ⟨j, x, hx, by omega, hmx⟩

theorem stdMethods_distinct : stdMethods.Pairwise fun x y => ¬ SameText x y := by
  unfold SameText
  decide

theorem methodBit_std (m : Bytes) (b : ℕ) :
    (methodBit m 0 stdMethods).testBit b = true ↔
      ∃ name, stdMethods[b]? = some name ∧ SameText m name := by
  rw [methodBit_testBit m 0 stdMethods stdMethods_distinct]
  constructor
  · rintro ⟨j, name, hj, rfl, hs⟩
    exact ⟨name, by simpa using hj, hs⟩
  · rintro ⟨name, hb, hs⟩
    exact ⟨b, name, hb, by omega, hs⟩

theorem serves_iff (e : RouteEntry) (method : Bytes) :
    methodServed method (strcaseeq method (ascii "HEAD")) (parsedRoute e) = true ↔ Serves e method := by
  simp [methodServed, Serves, parsedRoute, sameText_iff]

/-- What a lookup has to report: the code, the handler and the methods allowed. -/
structure Decides (t : RouteTable) (path method : Bytes) (code : ℕ) (fn : Option ℕ)
    (mask : ℕ) : Prop where
  chosen : code = 1 ↔ ∃ e ∈ t.routes, Hits e path ∧ Serves e method
  least : ∀ (i : ℕ) (e : RouteEntry), t.routes[i]? = some e → Hits e path ∧ Serves e method →
    (∀ j < i, ∀ e' : RouteEntry, t.routes[j]? = some e' → ¬ (Hits e' path ∧ Serves e' method)) →
    fn = some e.fn
  mismatch : code = 2 ↔
    (¬ ∃ e ∈ t.routes, Hits e path ∧ Serves e method) ∧ ∃ e ∈ t.routes, Hits e path
  allowed : code = 2 → ∀ b, mask.testBit b = true ↔
    ∃ name, stdMethods[b]? = some name ∧ ∃ e ∈ t.routes, Hits e path ∧ SameText e.method name
  missed : code = 0 ↔ ¬ ∃ e ∈ t.routes, Hits e path

section Walk
variable (t : RouteTable) (path method : Bytes)

theorem walk_test {e : RouteEntry} (he : e ∈ t.routes) :
    (matchSegs (parsedRoute e).segs (segments path) &&
      methodServed method (strcaseeq method (ascii "HEAD")) (parsedRoute e)) = true ↔
      Hits e path ∧ Serves e method := by
  rw [Bool.and_eq_true, hits_iff he, serves_iff]

theorem walk_any :
    ((t.routes.map parsedRoute).any fun rr => matchSegs rr.segs (segments path) &&
      methodServed method (strcaseeq method (ascii "HEAD")) rr) = true ↔
      ∃ e ∈ t.routes, Hits e path ∧ Serves e method := by
  simp only [List.any_map, List.any_eq_true, Function.comp_apply]
  constructor
  · rintro ⟨e, he, h⟩
    exact ⟨e, he, (walk_test t path method he).mp h⟩
  · rintro ⟨e, he, h⟩
    exact ⟨e, he, (walk_test t path method he).mpr h⟩

theorem walk_any_hit :
    ((t.routes.map parsedRoute).any fun rr => matchSegs rr.segs (segments path)) = true ↔
      ∃ e ∈ t.routes, Hits e path := by
  simp only [List.any_map, List.any_eq_true, Function.comp_apply]
  constructor
  · rintro ⟨e, he, h⟩
    exact ⟨e, he, (hits_iff he path).mp h⟩
  · rintro ⟨e, he, h⟩
    exact ⟨e, he, (hits_iff he path).mpr h⟩

theorem walk_find {i : ℕ} {e : RouteEntry} (hi : t.routes[i]? = some e)
    (h : Hits e path ∧ Serves e method)
    (hmin : ∀ j < i, ∀ e', t.routes[j]? = some e' → ¬ (Hits e' path ∧ Serves e' method)) :
    ((t.routes.map parsedRoute).find? fun rr => matchSegs rr.segs (segments path) &&
      methodServed method (strcaseeq method (ascii "HEAD")) rr) = some (parsedRoute e) := by
  rw [List.find?_map, Option.map_eq_some_iff]
  refine ⟨e, ?_, rfl⟩
  obtain ⟨hlt, rfl⟩ := List.getElem?_eq_some_iff.mp hi
  rw [List.find?_eq_some_iff_getElem]
  refine ⟨(walk_test t path method (List.getElem_mem hlt)).mpr h, i, hlt, rfl, fun j hj => ?_⟩
  have hjl : j < t.routes.length := hj.trans hlt
  have hno := hmin j hj _ (List.getElem?_eq_getElem hjl)
  rw [← walk_test t path method (List.getElem_mem hjl)] at hno
  simpa only [Bool.not_eq_true'] using Bool.not_eq_true _ ▸ hno

end Walk

theorem walk_mask (t : RouteTable) (path method : Bytes) (result : RtResult) (a : Arena) (r : Req)
    (hno : ¬ ∃ e ∈ t.routes, Hits e path ∧ Serves e method) (b : ℕ) :
    (findLoop (segments path) method (strcaseeq method (ascii "HEAD"))
        (t.routes.map parsedRoute) result 0 a r).mask.testBit b = true ↔
      ∃ name, stdMethods[b]? = some name ∧
        ∃ e ∈ t.routes, Hits e path ∧ SameText e.method name := by
  rw [findLoop_mask]
  · simp only [Nat.zero_testBit, Bool.false_eq_true, false_or, List.mem_map]
    constructor
    · rintro ⟨_, ⟨e, he, rfl⟩, hh, hb⟩
      obtain ⟨name, hn, hs⟩ := (methodBit_std e.method b).mp hb
      exact ⟨name, hn, e, he, (hits_iff he path).mp hh, hs⟩
    · rintro ⟨name, hn, e, he, hh, hs⟩
      exact ⟨_, ⟨e, he, rfl⟩, (hits_iff he path).mpr hh, (methodBit_std e.method b).mpr ⟨name, hn, hs⟩⟩
  · intro rr hrr hh
    obtain ⟨e, he, rfl⟩ := List.mem_map.mp hrr
    by_contra hs
    have hs := (serves_iff e method).mp (by simpa using hs)
    exact hno ⟨e, he, (hits_iff he path).mp hh, hs⟩

/-- The lookup reports the routing decision, and leaves the path alone. -/
theorem routerProbe_decides (t : RouteTable) {callocOk : Bool} {mem : ℕ → ℕ → Bool}
    {rt : List RtRoute} (hinit : routerInit callocOk mem t.routes = some rt)
    (a : Arena) (r : Req) {path : Bytes} (hpath : r.path = some path)
    (hsegs : (segments (cstr path)).length ≤ 64) (hmem : (arenaStrdup a path).1.isSome = true)
    (fn : Option ℕ) :
    Decides t (cstr path) (reqMethod r) (routerProbe rt a r fn 0).1
      (routerProbe rt a r fn 0).2.fn (routerProbe rt a r fn 0).2.mask ∧
    (routerProbe rt a r fn 0).2.req.path = r.path := by
  classical
  obtain ⟨a', hdup⟩ : ∃ a', arenaStrdup a path = (some (cstr path), a') := by
    unfold arenaStrdup at hmem ⊢
    split at hmem
    · rename_i a' hal
      exact ⟨a', rfl⟩
    · simp at hmem
  obtain rfl := routerInit_eq hinit
  have hfind : routerFind (t.routes.map parsedRoute) a r fn 0 =
      findLoop (segments (cstr path)) (reqMethod r) (strcaseeq (reqMethod r) (ascii "HEAD"))
        (t.routes.map parsedRoute) .miss 0 a' r := by
    simp only [routerFind, hpath, Option.getD_some, hdup, splitPath_eq hsegs]
  obtain ⟨hfn, hres⟩ := findLoop_first (segments (cstr path)) (reqMethod r)
    (strcaseeq (reqMethod r) (ascii "HEAD")) (t.routes.map parsedRoute) .miss 0 a' r
  have hany := walk_any t (cstr path) (reqMethod r)
  have hhit := walk_any_hit t (cstr path)
  have hcode : (routerProbe (t.routes.map parsedRoute) a r fn 0).1 =
      if ∃ e ∈ t.routes, Hits e (cstr path) ∧ Serves e (reqMethod r) then 1
      else if ∃ e ∈ t.routes, Hits e (cstr path) then 2 else 0 := by
    simp only [routerProbe, hfind, hres, hany, hhit]
    by_cases hs : ∃ e ∈ t.routes, Hits e (cstr path) ∧ Serves e (reqMethod r)
    · simp only [if_pos hs]
    · by_cases hh : ∃ e ∈ t.routes, Hits e (cstr path)
      · simp only [if_neg hs, if_pos hh]
      · simp only [if_neg hs, if_neg hh]
  have himp : (∃ e ∈ t.routes, Hits e (cstr path) ∧ Serves e (reqMethod r)) →
      ∃ e ∈ t.routes, Hits e (cstr path) := fun ⟨e, he, h, _⟩ => ⟨e, he, h⟩
  refine ⟨⟨?_, ?_, ?_, ?_, ?_⟩, ?_⟩
  · rw [hcode]
    split
    · simp_all
    · split <;> simp_all
  · intro i e hi h hmin
    simp only [routerProbe, hfind, hfn, walk_find t _ _ hi h hmin]
    rfl
  · rw [hcode]
    split
    · simp_all
    · split <;> simp_all
  · intro h2 b
    rw [hcode] at h2
    have hno : ¬ ∃ e ∈ t.routes, Hits e (cstr path) ∧ Serves e (reqMethod r) := by
      intro hy
      simp [hy] at h2
    simp only [routerProbe, hfind]
    exact walk_mask t _ _ _ a' r hno b
  · rw [hcode]
    split
    · simp_all
    · split <;> simp_all
  · simp only [routerProbe, hfind, findLoop_path]

def userRoutes : List RouteEntry :=
  [⟨ascii "GET", ascii "/users/:id", 1⟩, ⟨ascii "POST", ascii "/users/*rest", 2⟩]

def userTable : RouteTable := ⟨userRoutes, by decide, by decide⟩

def roomyArena : Arena := arenaInit (Arena.zero fun k _ => some (65536 * (k + 1))) 4096 0

def userRt : List RtRoute := userRoutes.map parsedRoute

def userDelete : Req :=
  { reqSetup 0 with method := some (ascii "DELETE"), path := some (ascii "/users/7/") }

theorem userRt_init : routerInit true (fun _ _ => true) userTable.routes = some userRt := by
  decide

/-- DELETE on a path that both routes hit. -/
theorem routerProbe_decides_users :
    Decides userTable (cstr (ascii "/users/7/")) (reqMethod userDelete)
      (routerProbe userRt roomyArena userDelete none 0).1
      (routerProbe userRt roomyArena userDelete none 0).2.fn
      (routerProbe userRt roomyArena userDelete none 0).2.mask ∧
    (routerProbe userRt roomyArena userDelete none 0).1 = 2 ∧
    (routerProbe userRt roomyArena userDelete none 0).2.mask = 3 :=
  ⟨(routerProbe_decides userTable userRt_init roomyArena userDelete rfl
      (by decide) (by decide) none).1, by decide, by decide⟩

end Cerco.Router
