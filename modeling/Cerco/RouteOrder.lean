import Cerco.RouteFiles

set_option autoImplicit false

/-!
# Routing and the order of directories

`walk_dir` takes directory entries as `readdir` reports them, and the first row of
the table that fits a request wins. Handler `i` of the generated table is compiled
from the file that made row `i`.
-/
namespace Cerco.RouteOrder
open Cerco.Alloc Cerco.CString Cerco.Request Cerco.Router Cerco.RouteFiles
open Cerco.RouteScan (Scan scanRoutes maxRoutes)

inductive Entry
  | file (name : FileName)
  | dir (name : FileName) (entries : List Entry)

def walkPruned (name : FileName) : Bool :=
  [ascii ".git", ascii ".cerco", ascii "node_modules"].contains name.bytes

mutual
/-- The files of one entry of the directory `rel`. -/
def walkEntry (rel : Bytes) : Entry → List Bytes
  | .file name => [joinRel rel name.bytes]
  | .dir name entries => if walkPruned name then [] else walkDir (joinRel rel name.bytes) entries

/-- `walk_dir`: the files in the order of the callbacks. -/
def walkDir (rel : Bytes) : List Entry → List Bytes
  | [] => []
  | e :: es => walkEntry rel e ++ walkDir rel es
end

mutual
/-- The paths that the walk puts together below `rel`, those of folders among them. -/
def entryPaths (rel : Bytes) : Entry → List Bytes
  | .file name => [joinRel rel name.bytes]
  | .dir name entries => joinRel rel name.bytes :: dirPaths (joinRel rel name.bytes) entries

def dirPaths (rel : Bytes) : List Entry → List Bytes
  | [] => []
  | e :: es => entryPaths rel e ++ dirPaths rel es
end

/-- The same directory read in another order, at any depth. -/
inductive Reordered : List Entry → List Entry → Prop
  | refl (es : List Entry) : Reordered es es
  | swap (a b : Entry) (es : List Entry) : Reordered (a :: b :: es) (b :: a :: es)
  | cons (a : Entry) {es es' : List Entry} : Reordered es es' → Reordered (a :: es) (a :: es')
  | inside (name : FileName) {sub sub' : List Entry} (es : List Entry) :
      Reordered sub sub' → Reordered (.dir name sub :: es) (.dir name sub' :: es)
  | trans {es es' es'' : List Entry} : Reordered es es' → Reordered es' es'' → Reordered es es''

/-- `src/routes`, which is at `root`. No file is there twice, `gen_routes` prints a path that the compiler reads
back as it is, and the three buffers of the walk have room for `root/rel`. -/
structure RouteTree where
  root : Bytes
  entries : List Entry
  once : (walkDir [] entries).Nodup
  verbatim : ∀ f ∈ walkDir [] entries, Verbatim f
  uncut : ∀ rel ∈ dirPaths [] entries, (root ++ slash :: rel).length < 1024

/-- The generated `cerco_routes_table`, of paths that their string literals stand for. -/
def tableOf (s : Scan) : List RouteEntry :=
  s.routes.zipIdx.map fun row => ⟨row.1.method, row.1.path, row.2⟩

/-- The test of `router_send_404`. -/
def isPage (rr : RtRoute) : Bool :=
  strcaseeq rr.method (ascii "GET") && strcaseeq rr.origPath (ascii "/__cerco/404")

/-- What a request comes to: the file of a handler, the mask of a mismatch, or the file
of the 404 page. -/
inductive Outcome
  | handler (file : Option Bytes)
  | notAllowed (mask : ℕ)
  | notFound (page : Option Bytes)
deriving DecidableEq

/-- `files` are those that made the rows of the table. -/
def outcome (files : List Bytes) (rt : List RtRoute) (a : Arena) (r : Req) : Outcome :=
  match routerProbe rt a r none 0 with
  | (1, f) => .handler (f.fn.bind fun i => files[i]?)
  | (2, f) => .notAllowed f.mask
  | _ => .notFound ((rt.find? isPage).bind fun rr => files[rr.fn]?)

structure Started (t : RouteTree) (es : List Entry) (rt : List RtRoute) : Prop where
  order : Reordered t.entries es
  built : ∃ s callocOk mem, scanRoutes (walkDir [] es) = some s ∧
    routerInit callocOk mem (tableOf s) = some rt

/-- Every request comes to the same, whatever the order of the walk. -/
def SameRouting (t : RouteTree) : Prop :=
  ∀ es es' rt rt', Started t es rt → Started t es' rt' → ∀ a r,
    outcome (tableFiles (walkDir [] es)) rt a r = outcome (tableFiles (walkDir [] es')) rt' a r

def rowOf (rel : Bytes) (fn : ℕ) : RtRoute :=
  ⟨(baseOf rel).1, routePath rel, parsedSegs (routePath rel), fn⟩

def hits (qs : List Bytes) (rel : Bytes) : Bool := matchSegs (parsedSegs (routePath rel)) qs

def accepted (qs : List Bytes) (method rel : Bytes) : Bool :=
  hits qs rel && methodServed method (strcaseeq method (ascii "HEAD")) (rowOf rel 0)

def Accepts (rel path method : Bytes) : Prop :=
  0 ∉ path ∧ ∃ qs, splitPath path 64 = some qs ∧ accepted qs method rel = true

/-- The table has room for all files, no request fits two of them, and at most one is a
404 page. -/
structure Unambiguous (t : RouteTree) : Prop where
  room : (routeFiles (walkDir [] t.entries)).length ≤ maxRoutes
  requests : ∀ f ∈ routeFiles (walkDir [] t.entries), ∀ g ∈ routeFiles (walkDir [] t.entries),
    ∀ path method, Accepts f path method → Accepts g path method → f = g
  pages : ∀ f ∈ routeFiles (walkDir [] t.entries), ∀ g ∈ routeFiles (walkDir [] t.entries),
    isPage (rowOf f 0) = true → isPage (rowOf g 0) = true → f = g

/-- The search for symbols comes to an end in every order, so that there is a table. -/
def Ends (t : RouteTree) : Prop :=
  ∀ es, Reordered t.entries es → (scanRoutes (walkDir [] es)).isSome = true

def rows (files : List Bytes) : List RtRoute := files.zipIdx.map fun row => rowOf row.1 row.2

theorem tableOf_eq {rels : List Bytes} {s : Scan} (h : scanRoutes rels = some s) :
    tableOf s = (tableFiles rels).zipIdx.map fun row =>
      ⟨(baseOf row.1).1, routePath row.1, row.2⟩ := by
  have same : tableOf s = (entries s).zipIdx.map fun row => ⟨row.1.1, row.1.2, row.2⟩ := by
    rw [entries, List.zipIdx_map, List.map_map]
    rfl
  rw [same, scanRoutes_entries h, List.zipIdx_map, List.map_map]
  rfl

/-- The compiler reads the printed paths of the table back as they were. -/
theorem RouteTree.verbatim_rows (t : RouteTree) {es : List Entry} (perm : (walkDir [] es).Perm (walkDir [] t.entries))
    {s : Scan} (h : scanRoutes (walkDir [] es) = some s) : ∀ e ∈ tableOf s, Verbatim e.path := by
  intro e he
  rw [tableOf_eq h] at he
  obtain ⟨row, hrow, rfl⟩ := List.mem_map.mp he
  have listed : row.1 ∈ walkDir [] es :=
    (List.mem_filter.mp (List.mem_of_mem_take (List.fst_mem_of_mem_zipIdx hrow))).1
  exact routePath_verbatim (t.verbatim row.1 (perm.mem_iff.mp listed))

theorem Started.rows {t : RouteTree} {es : List Entry} {rt : List RtRoute} (h : Started t es rt) :
    rt = rows (tableFiles (walkDir [] es)) := by
  obtain ⟨s, callocOk, mem, hs, hinit⟩ := h.built
  unfold routerInit at hinit
  split at hinit
  · rw [initRoutes_parsed hinit, tableOf_eq hs, List.map_map]
    rfl
  · cases hinit

theorem initSegs_total (slots : ℕ) (p : Bytes) : (initSegs (fun _ => true) slots p).isSome = true := by
  induction slots generalizing p with
  | zero => rfl
  | succ slots ih =>
    rw [initSegs]
    split
    · rfl
    · rw [if_neg (by decide)]
      split
      · rfl
      · rw [Option.isSome_map]
        exact ih _

theorem initRoutes_total (i : ℕ) (es : List RouteEntry) :
    (initRoutes (fun _ _ => true) i es).isSome = true := by
  induction es generalizing i with
  | nil => rfl
  | cons e es ih =>
    rw [initRoutes]
    cases hr : initRoute (fun _ => true) e with
    | none =>
      have parsed := initSegs_total rtMaxSegs (skipSlash e.path)
      rw [initRoute, Option.map_eq_none_iff] at hr
      rw [hr] at parsed
      cases parsed
    | some rr =>
      rw [Option.isSome_map]
      exact ih _

theorem Started.of_scan {t : RouteTree} {es : List Entry} (order : Reordered t.entries es)
    (scanned : (scanRoutes (walkDir [] es)).isSome = true) :
    Started t es (RouteOrder.rows (tableFiles (walkDir [] es))) := by
  obtain ⟨s, hs⟩ := Option.isSome_iff_exists.mp scanned
  obtain ⟨rt, hrt⟩ := Option.isSome_iff_exists.mp (initRoutes_total 0 (tableOf s))
  have started : Started t es rt := ⟨order, s, true, fun _ _ => true, hs, hrt⟩
  rw [← started.rows]
  exact started

theorem find_row {p : RtRoute → Bool} {q : Bytes → Bool} (same : ∀ rel i, p (rowOf rel i) = q rel)
    (done files : List Bytes) :
    (((files.zipIdx done.length).map fun row => rowOf row.1 row.2).find? p).bind
      (fun rr => (done ++ files)[rr.fn]?) = files.find? q := by
  induction files generalizing done with
  | nil => rfl
  | cons rel files ih =>
    rw [List.zipIdx_cons, List.map_cons, List.find?_cons, List.find?_cons, same]
    cases q rel with
    | true =>
      change (done ++ rel :: files)[done.length]? = some rel
      rw [List.getElem?_append_right (Nat.le_refl _), Nat.sub_self]
      rfl
    | false =>
      have rest := ih (done ++ [rel])
      rw [List.length_append, List.length_singleton, List.append_assoc] at rest
      exact rest

theorem find_rows {p : RtRoute → Bool} {q : Bytes → Bool} (same : ∀ rel i, p (rowOf rel i) = q rel)
    (files : List Bytes) :
    ((rows files).find? p).bind (fun rr => files[rr.fn]?) = files.find? q :=
  find_row same [] files

theorem any_rows {p : RtRoute → Bool} {q : Bytes → Bool} (same : ∀ rel i, p (rowOf rel i) = q rel)
    (files : List Bytes) : (rows files).any p = files.any q := by
  rw [rows, List.any_map]
  have on_fst : (p ∘ fun row : Bytes × ℕ => rowOf row.1 row.2) = fun row => q row.1 := by
    funext row
    exact same row.1 row.2
  rw [on_fst]
  calc
    (files.zipIdx.any fun row => q row.1) = (files.zipIdx.map Prod.fst).any q := List.any_map.symm
    _ = files.any q := congrArg (fun l => l.any q) (List.zipIdx_map_fst 0 files)

theorem mem_rows {files : List Bytes} {rr : RtRoute} (h : rr ∈ rows files) :
    ∃ rel ∈ files, rr = rowOf rel rr.fn := by
  obtain ⟨row, hrow, rfl⟩ := List.mem_map.mp h
  exact ⟨row.1, List.fst_mem_of_mem_zipIdx hrow, rfl⟩

theorem rows_mem {files : List Bytes} {rel : Bytes} (h : rel ∈ files) : ∃ i, rowOf rel i ∈ rows files := by
  obtain ⟨i, hi, rfl⟩ := List.getElem_of_mem h
  exact ⟨i, List.mem_map.mpr ⟨(files[i], i), List.mk_mem_zipIdx_iff_getElem?.mpr
    (List.getElem?_eq_getElem hi), rfl⟩⟩

def requestSegs (a : Arena) (r : Req) : Option (List Bytes) :=
  (arenaStrdup a (r.path.getD [])).1.bind fun work => splitPath work 64

theorem page_file (files : List Bytes) :
    ((rows files).find? isPage).bind (fun rr => files[rr.fn]?) =
      files.find? fun rel => isPage (rowOf rel 0) :=
  find_rows (fun _ _ => rfl) files

theorem outcome_eq (files : List Bytes) (a : Arena) (r : Req) :
    outcome files (rows files) a r =
      match (routerFind (rows files) a r none 0).result with
      | .found => .handler ((routerFind (rows files) a r none 0).fn.bind fun i => files[i]?)
      | .methodMismatch => .notAllowed (routerFind (rows files) a r none 0).mask
      | .miss => .notFound (files.find? fun rel => isPage (rowOf rel 0)) := by
  unfold outcome routerProbe
  dsimp only
  cases (routerFind (rows files) a r none 0).result with
  | found => rfl
  | methodMismatch => rfl
  | miss => exact congrArg Outcome.notFound (page_file files)

theorem unsplit_result {a : Arena} {r : Req} (h : requestSegs a r = none) (files : List Bytes) :
    (routerFind (rows files) a r none 0).result = .miss := by
  unfold requestSegs at h
  unfold routerFind
  cases hd : arenaStrdup a (r.path.getD []) with
  | mk work a' =>
    rw [hd] at h
    cases work with
    | none => rfl
    | some work =>
      change splitPath work 64 = none at h
      dsimp only
      rw [h]

theorem split_result {a : Arena} {r : Req} {qs : List Bytes} (h : requestSegs a r = some qs)
    (files : List Bytes) :
    (routerFind (rows files) a r none 0).fn.bind (fun i => files[i]?) =
        files.find? (accepted qs (reqMethod r)) ∧
      (routerFind (rows files) a r none 0).result =
        (if files.any (accepted qs (reqMethod r)) then .found
          else if files.any (hits qs) then .methodMismatch else .miss) ∧
      (files.any (accepted qs (reqMethod r)) = false →
        ∀ b, (routerFind (rows files) a r none 0).mask.testBit b = true ↔
          ∃ f ∈ files, hits qs f = true ∧ (methodBit (baseOf f).1 0 stdMethods).testBit b = true) := by
  obtain ⟨work, hw, hq⟩ := Option.bind_eq_some_iff.mp h
  have hd : arenaStrdup a (r.path.getD []) = (some work, (arenaStrdup a (r.path.getD [])).2) :=
    Prod.ext hw rfl
  have walk : routerFind (rows files) a r none 0 =
      findLoop qs (reqMethod r) (strcaseeq (reqMethod r) (ascii "HEAD")) (rows files) .miss 0
        (arenaStrdup a (r.path.getD [])).2 r := by
    unfold routerFind
    rw [hd]
    dsimp only
    rw [hq]
  rw [walk]
  obtain ⟨fn, result⟩ := findLoop_first qs (reqMethod r) (strcaseeq (reqMethod r) (ascii "HEAD"))
    (rows files) .miss 0 (arenaStrdup a (r.path.getD [])).2 r
  refine ⟨?_, ?_, fun unserved b => ?_⟩
  · rw [fn, Option.bind_map]
    exact find_rows (q := accepted qs (reqMethod r)) (fun _ _ => rfl) files
  · have served : ((rows files).any fun rr => matchSegs rr.segs qs &&
        methodServed (reqMethod r) (strcaseeq (reqMethod r) (ascii "HEAD")) rr) =
          files.any (accepted qs (reqMethod r)) := any_rows (fun _ _ => rfl) files
    have hit : ((rows files).any fun rr => matchSegs rr.segs qs) = files.any (hits qs) :=
      any_rows (fun _ _ => rfl) files
    rw [result, served, hit]
  · rw [findLoop_mask, Nat.zero_testBit]
    · constructor
      · rintro (no | ⟨rr, hrr, hit, bit⟩)
        · cases no
        · obtain ⟨rel, hrel, e⟩ := mem_rows hrr
          rw [e] at hit bit
          exact ⟨rel, hrel, hit, bit⟩
      · rintro ⟨rel, hrel, hit, bit⟩
        obtain ⟨i, hi⟩ := rows_mem hrel
        exact .inr ⟨_, hi, hit, bit⟩
    · intro rr hrr hit
      obtain ⟨rel, hrel, e⟩ := mem_rows hrr
      rw [e] at hit ⊢
      have no := List.any_eq_false.mp unserved rel hrel
      rw [accepted, Bool.and_eq_true, not_and] at no
      exact (Bool.not_eq_true _).mp (no hit)

theorem find_perm {files files' : List Bytes} (perm : files.Perm files') {q : Bytes → Bool}
    (unique : ∀ f ∈ files, ∀ g ∈ files, q f = true → q g = true → f = g) :
    files.find? q = files'.find? q := by
  cases hf : files.find? q with
  | none =>
    refine (List.find?_eq_none.mpr fun g hg => ?_).symm
    exact List.find?_eq_none.mp hf g (perm.mem_iff.mpr hg)
  | some f =>
    have mem := List.mem_of_find?_eq_some hf
    have fits := List.find?_some hf
    cases hg : files'.find? q with
    | none => exact absurd fits (List.find?_eq_none.mp hg f (perm.mem_iff.mp mem))
    | some g =>
      have other := perm.mem_iff.mpr (List.mem_of_find?_eq_some hg)
      rw [unique f mem g other fits (List.find?_some hg)]

theorem any_perm {files files' : List Bytes} (perm : files.Perm files') (q : Bytes → Bool) :
    files.any q = files'.any q := by
  rw [Bool.eq_iff_iff, List.any_eq_true, List.any_eq_true]
  exact exists_congr fun f => and_congr_left fun _ => perm.mem_iff

theorem outcome_perm {files files' : List Bytes} (perm : files.Perm files') (a : Arena) (r : Req)
    (requests : ∀ qs, requestSegs a r = some qs → ∀ f ∈ files, ∀ g ∈ files,
      accepted qs (reqMethod r) f = true → accepted qs (reqMethod r) g = true → f = g)
    (pages : ∀ f ∈ files, ∀ g ∈ files,
      isPage (rowOf f 0) = true → isPage (rowOf g 0) = true → f = g) :
    outcome files (rows files) a r = outcome files' (rows files') a r := by
  rw [outcome_eq, outcome_eq, find_perm perm pages]
  cases hs : requestSegs a r with
  | none => rw [unsplit_result hs, unsplit_result hs]
  | some qs =>
    obtain ⟨file, result, mask⟩ := split_result hs files
    obtain ⟨file', result', mask'⟩ := split_result hs files'
    rw [result, result', file, file', find_perm perm (requests qs hs),
      any_perm perm (accepted qs (reqMethod r)), any_perm perm (hits qs)]
    cases served : files'.any (accepted qs (reqMethod r)) with
    | true => rfl
    | false =>
      cases hit : files'.any (hits qs) with
      | false => rfl
      | true =>
        refine congrArg Outcome.notAllowed (Nat.eq_of_testBit_eq fun b => ?_)
        rw [Bool.eq_iff_iff, mask ((any_perm perm _).trans served), mask' served]
        exact exists_congr fun f => and_congr_left fun _ => perm.mem_iff

theorem outcome_first {a : Arena} {r : Req} {qs : List Bytes} (h : requestSegs a r = some qs)
    {files : List Bytes} {f : Bytes} (found : files.find? (accepted qs (reqMethod r)) = some f) :
    outcome files (rows files) a r = .handler (some f) := by
  obtain ⟨file, result, _⟩ := split_result h files
  have served : files.any (accepted qs (reqMethod r)) = true :=
    List.any_eq_true.mpr ⟨f, List.mem_of_find?_eq_some found, List.find?_some found⟩
  rw [outcome_eq, result, served, file, found]
  rfl

theorem reordered_perm {es es' : List Entry} (h : Reordered es es') :
    ∀ rel, (walkDir rel es).Perm (walkDir rel es') := by
  induction h with
  | refl es => exact fun rel => .refl _
  | swap a b es =>
    intro rel
    simp only [walkDir, ← List.append_assoc]
    exact List.perm_append_comm.append_right _
  | cons a _ ih => exact fun rel => (ih rel).append_left _
  | inside name es _ ih =>
    intro rel
    simp only [walkDir, walkEntry]
    refine List.Perm.append_right _ ?_
    split
    · exact .refl _
    · exact ih _
  | trans _ _ ih ih' => exact fun rel => (ih rel).trans (ih' rel)

mutual
theorem front_entry : ∀ (e : Entry) (rel f : Bytes), f ∈ walkEntry rel e →
    ∃ e', (∀ es, Reordered (e :: es) (e' :: es)) ∧ ∃ rest, walkEntry rel e' = f :: rest
  | .file name, rel, f, h => by
    rw [walkEntry, List.mem_singleton] at h
    exact ⟨.file name, fun es => .refl _, [], by rw [walkEntry, h]⟩
  | .dir name sub, rel, f, h => by
    rw [walkEntry] at h
    split at h
    · cases h
    · rename_i kept
      obtain ⟨e, es', order, rest, first⟩ := front_dir sub _ f h
      refine ⟨.dir name (e :: es'), fun es => .inside name es order,
        rest ++ walkDir (joinRel rel name.bytes) es', ?_⟩
      rw [walkEntry, if_neg kept, walkDir, first, List.cons_append]
theorem front_dir : ∀ (es : List Entry) (rel f : Bytes), f ∈ walkDir rel es →
    ∃ e es', Reordered es (e :: es') ∧ ∃ rest, walkEntry rel e = f :: rest
  | e :: es, rel, f, h => by
    rw [walkDir] at h
    rcases List.mem_append.mp h with h | h
    · obtain ⟨e', order, first⟩ := front_entry e rel f h
      exact ⟨e', es, order es, first⟩
    · obtain ⟨e', es', order, first⟩ := front_dir es rel f h
      exact ⟨e', e :: es', (Reordered.cons e order).trans (.swap e e' es'), first⟩
end

theorem RouteTree.front (t : RouteTree) {f : Bytes} (h : f ∈ routeFiles (walkDir [] t.entries)) :
    ∃ es, Reordered t.entries es ∧ ∃ rest, tableFiles (walkDir [] es) = f :: rest := by
  obtain ⟨mem, route⟩ := List.mem_filter.mp h
  obtain ⟨e, es, order, rest, first⟩ := front_dir t.entries [] f mem
  refine ⟨e :: es, order, (routeFiles (rest ++ walkDir [] es)).take (maxRoutes - 1), ?_⟩
  rw [tableFiles, routeFiles, walkDir, first, List.cons_append, List.filter_cons, if_pos route]
  exact List.take_succ_cons

def roomyFor (size : ℕ) : Arena := arenaInit (Arena.zero fun _ _ => some 16) (size + 64) 0

theorem roomyFor_strdup (s : Bytes) : (arenaStrdup (roomyFor s.length) s).1 = some (cstr s) := by
  have short : (cstr s).length ≤ s.length := (List.takeWhile_prefix _).length_le
  have first : ¬ s.length + 64 < 64 := by omega
  have chunk : (roomyFor s.length).chunks = [⟨16 + sizeofChunk, s.length + 64, 0⟩] := by
    unfold roomyFor arenaInit
    rw [if_neg first]
    rfl
  have pad : padTo (16 + sizeofChunk + 0) 8 = 0 := by decide
  have some := arenaAlloc_fits chunk (Nat.succ_ne_zero (cstr s).length) (by rw [pad]; simp only; omega)
  unfold arenaStrdup
  cases ha : arenaAlloc (roomyFor s.length) ((cstr s).length + 1) with
  | mk p a =>
    rw [ha] at some
    cases p with
    | none => cases some
    | some p => rfl

def requestFor (method path : Bytes) : Req :=
  { reqSetup 0 with method := some method, path := some path }

theorem requestFor_segs {path : Bytes} (text : 0 ∉ path) (method : Bytes) :
    requestSegs (roomyFor path.length) (requestFor method path) = splitPath path 64 := by
  unfold requestSegs
  change (arenaStrdup (roomyFor path.length) path).1.bind _ = _
  rw [roomyFor_strdup, cstr_of_nulFree text]
  rfl

theorem matchSegs_self (ps : List Bytes) :
    matchSegs (ps.map fun s => segParse s segZero) ps = true := by
  induction ps with
  | nil => rfl
  | cons p ps ih =>
    rw [List.map_cons]
    rcases segKind_cases p with ⟨_, hs⟩ | ⟨_, x, hs⟩ | ⟨_, x, hs⟩
    · rw [hs]
      simp only [matchSegs, segEq, Bool.false_eq_true, if_false, Option.isSome_none, Option.getD_some,
        (strcaseeq_iff p p).mpr rfl, if_true]
      exact ih
    · rw [hs]
      simp only [matchSegs, segEq, Bool.false_eq_true, if_false, Option.isSome_some, if_true]
      exact ih
    · rw [hs]
      rfl

theorem joinRel_nulFree {rel : Bytes} (text : 0 ∉ rel) (name : FileName) : 0 ∉ joinRel rel name.bytes := by
  unfold joinRel
  split
  · exact name.nulFree
  · intro h
    rcases List.mem_append.mp h with h | h
    · exact text h
    · rcases List.mem_cons.mp h with no | h
      · cases no
      · exact name.nulFree h

mutual
theorem walkEntry_nulFree : ∀ (e : Entry) (rel : Bytes), 0 ∉ rel → ∀ f ∈ walkEntry rel e, 0 ∉ f
  | .file name, rel, text, f, h => by
    rw [walkEntry, List.mem_singleton] at h
    rw [h]
    exact joinRel_nulFree text name
  | .dir name sub, rel, text, f, h => by
    rw [walkEntry] at h
    split at h
    · cases h
    · exact walkDir_nulFree sub _ (joinRel_nulFree text name) f h
theorem walkDir_nulFree : ∀ (es : List Entry) (rel : Bytes), 0 ∉ rel → ∀ f ∈ walkDir rel es, 0 ∉ f
  | e :: es, rel, text, f, h => by
    rw [walkDir] at h
    rcases List.mem_append.mp h with h | h
    · exact walkEntry_nulFree e rel text f h
    · exact walkDir_nulFree es rel text f h
end

theorem own_request {f : Bytes} (text : 0 ∉ f) : ∃ path method, Accepts f path method := by
  have few : ((segments (routePath f)).take rtMaxSegs).length ≤ 64 :=
    (List.length_take_le _ _).trans (by decide)
  have parts : ∀ s ∈ (segments (routePath f)).take rtMaxSegs, slash ∉ s ∧ 0 ∉ s := by
    intro s hs
    obtain ⟨free, sub⟩ := mem_segments (List.mem_of_mem_take hs)
    exact ⟨free, fun nul => routePath_nulFree text (sub nul)⟩
  refine ⟨renderPath ((segments (routePath f)).take rtMaxSegs), (baseOf f).1, ?_, _,
    splitPath_render (fun s hs => (parts s hs).1) few, ?_⟩
  · intro h
    rcases List.mem_cons.mp h with no | h
    · cases no
    · obtain ⟨s, hs, h⟩ := List.mem_flatMap.mp h
      rcases List.mem_append.mp h with h | no
      · exact (parts s hs).2 h
      · exact absurd (List.mem_singleton.mp no) (by decide)
  · rw [accepted, Bool.and_eq_true]
    refine ⟨matchSegs_self _, ?_⟩
    rw [methodServed, Bool.or_eq_true]
    exact .inl ((strcaseeq_iff _ _).mpr rfl)

theorem unambiguous_same {t : RouteTree} (h : Unambiguous t) : SameRouting t := by
  intro es es' rt rt' started started' a r
  have files : ∀ {es rt}, Started t es rt →
      (routeFiles (walkDir [] t.entries)).Perm (tableFiles (walkDir [] es)) := by
    intro es rt started
    have perm := (reordered_perm started.order []).filter isRoute
    have all : tableFiles (walkDir [] es) = routeFiles (walkDir [] es) :=
      List.take_of_length_le (by rw [routeFiles, ← perm.length_eq]; exact h.room)
    rw [all]
    exact perm
  have kept : ∀ f ∈ tableFiles (walkDir [] es), f ∈ routeFiles (walkDir [] t.entries) :=
    fun f hf => (files started).mem_iff.mpr hf
  rw [started.rows, started'.rows]
  refine outcome_perm ((files started).symm.trans (files started')) a r ?_ ?_
  · intro qs hqs f hf g hg hfits hgits
    obtain ⟨work, hw, hq⟩ := Option.bind_eq_some_iff.mp hqs
    have text : (0 : UInt8) ∉ work := by
      rw [← arenaStrdup_some hw]
      intro nul
      exact absurd (List.mem_takeWhile_imp nul) (by decide)
    exact h.requests f (kept f hf) g (kept g hg) work (reqMethod r) ⟨text, qs, hq, hfits⟩
      ⟨text, qs, hq, hgits⟩
  · exact fun f hf g hg => h.pages f (kept f hf) g (kept g hg)

theorem first_served {t : RouteTree} (ends : Ends t) {f : Bytes}
    (hf : f ∈ routeFiles (walkDir [] t.entries)) {path method : Bytes} (fits : Accepts f path method) :
    ∃ es rt, Started t es rt ∧ outcome (tableFiles (walkDir [] es)) rt (roomyFor path.length)
      (requestFor method path) = .handler (some f) := by
  obtain ⟨es, order, rest, first⟩ := t.front hf
  obtain ⟨text, qs, hq, fit⟩ := fits
  refine ⟨es, _, .of_scan order (ends es order), ?_⟩
  have cut : requestSegs (roomyFor path.length) (requestFor method path) = some qs :=
    (requestFor_segs text method).trans hq
  refine outcome_first cut ?_
  rw [first]
  exact List.find?_cons_of_pos fit

theorem handler_mem {files : List Bytes} {a : Arena} {r : Req} {f : Bytes}
    (h : outcome files (rows files) a r = .handler (some f)) : f ∈ files := by
  rw [outcome_eq] at h
  split at h
  · obtain ⟨i, _, hi⟩ := Option.bind_eq_some_iff.mp (Outcome.handler.inj h)
    exact List.mem_of_getElem? hi
  · cases h
  · cases h

def longPath : Bytes := renderPath (List.replicate 65 (ascii "a"))

theorem first_page {t : RouteTree} (ends : Ends t) {f : Bytes}
    (hf : f ∈ routeFiles (walkDir [] t.entries)) (page : isPage (rowOf f 0) = true) {path : Bytes}
    (text : 0 ∉ path) (unsplit : splitPath path 64 = none) (method : Bytes) :
    ∃ es rt, Started t es rt ∧ outcome (tableFiles (walkDir [] es)) rt (roomyFor path.length)
      (requestFor method path) = .notFound (some f) := by
  obtain ⟨es, order, rest, first⟩ := t.front hf
  have segs := (requestFor_segs text method).trans unsplit
  have found : (f :: rest).find? (fun rel => isPage (rowOf rel 0)) = some f := by
    exact List.find?_cons_of_pos page
  refine ⟨es, _, .of_scan order (ends es order), ?_⟩
  rw [outcome_eq, unsplit_result segs, first, found]

theorem same_unambiguous {t : RouteTree} (ends : Ends t) (h : SameRouting t) : Unambiguous t := by
  refine ⟨?_, ?_, ?_⟩
  · -- the request of each file gets it in the order at hand, so each has a row there
    have rowed : routeFiles (walkDir [] t.entries) ⊆ tableFiles (walkDir [] t.entries) := by
      intro f hf
      have nulFree := walkDir_nulFree t.entries [] (by decide) f (List.mem_filter.mp hf).1
      obtain ⟨path, method, fits⟩ := own_request nulFree
      obtain ⟨es, rt, started, served⟩ := first_served ends hf fits
      rw [h es t.entries rt _ started (.of_scan (.refl t.entries) (ends _ (.refl t.entries)))] at served
      exact handler_mem served
    have once : (routeFiles (walkDir [] t.entries)).Nodup := t.once.filter _
    exact (List.Nodup.length_le_of_subset once rowed).trans (List.length_take_le _ _)
  · intro f hf g hg path method fits fits'
    obtain ⟨es, rt, started, served⟩ := first_served ends hf fits
    obtain ⟨es', rt', started', served'⟩ := first_served ends hg fits'
    rw [h es es' rt rt' started started', served'] at served
    exact (Option.some.inj (Outcome.handler.inj served)).symm
  · intro f hf g hg page page'
    have text : 0 ∉ longPath := by decide +kernel
    have unsplit : splitPath longPath 64 = none := by decide +kernel
    obtain ⟨es, rt, started, served⟩ := first_page ends hf page text unsplit (ascii "GET")
    obtain ⟨es', rt', started', served'⟩ := first_page ends hg page' text unsplit (ascii "GET")
    rw [h es es' rt rt' started started', served'] at served
    exact (Option.some.inj (Outcome.notFound.inj served)).symm

/-- Routing does not depend on the order in which directories are read exactly if the files
are unambiguous. -/
theorem routing_ignores_order (t : RouteTree) (ends : Ends t) : SameRouting t ↔ Unambiguous t :=
  ⟨same_unambiguous ends, unambiguous_same⟩

def indexFile : Entry := .file ⟨ascii "index.c", by decide, by decide, by decide⟩
def newFile : Entry := .file ⟨ascii "new.c", by decide, by decide, by decide⟩
def idFile : Entry := .file ⟨ascii "[id].c", by decide, by decide, by decide⟩
def usersDir (entries : List Entry) : Entry := .dir ⟨ascii "users", by decide, by decide, by decide⟩ entries

/-- A list page and a page for each user. -/
def plainTree : RouteTree :=
  ⟨ascii "src/routes", [indexFile, usersDir [idFile]], by decide +kernel, by decide +kernel, by decide +kernel⟩

/-- A page for each user, and one for new users. -/
def usersTree : RouteTree :=
  ⟨ascii "src/routes", [usersDir [idFile, newFile]], by decide +kernel, by decide +kernel, by decide +kernel⟩

theorem perm_pair {a b : Bytes} {l : List Bytes} (h : l.Perm [a, b]) : l = [a, b] ∨ l = [b, a] := by
  match l, h.length_eq with
  | [x, y], _ =>
    rcases List.mem_cons.mp (h.mem_iff.mp List.mem_cons_self) with rfl | hx
    · exact .inl (congrArg (List.cons x) (List.singleton_perm_singleton.mp h.cons_inv ▸ rfl))
    · obtain rfl := List.mem_singleton.mp hx
      exact .inr (congrArg (List.cons x)
        (List.singleton_perm_singleton.mp (h.trans (.swap x a [])).cons_inv ▸ rfl))

theorem plainTree_ends : Ends plainTree := by
  intro es order
  have perm := (reordered_perm order []).symm
  have files : walkDir [] plainTree.entries = [ascii "index.c", ascii "users/[id].c"] := by decide +kernel
  rw [files] at perm
  rcases perm_pair perm with e | e
  · rw [e]
    decide +kernel
  · rw [e]
    decide +kernel

theorem routing_ignores_order_plain : SameRouting plainTree ↔ Unambiguous plainTree :=
  routing_ignores_order plainTree plainTree_ends

/-- `/users/new` goes to the page that the walk reports first. -/
theorem first_read_wins : ¬ SameRouting usersTree := by
  intro same
  have here : Started usersTree [usersDir [idFile, newFile]] _ := .of_scan (.refl _) (by decide +kernel)
  have there : Started usersTree [usersDir [newFile, idFile]] _ :=
    .of_scan (.inside _ [] (.swap idFile newFile [])) (by decide +kernel)
  have both := same _ _ _ _ here there roomyArena (requestFor (ascii "GET") (ascii "/users/new"))
  revert both
  decide +kernel

end Cerco.RouteOrder
