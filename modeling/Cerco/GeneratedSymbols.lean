import Cerco.LayoutChains
import Cerco.ObjectNames
import Cerco.SymbolSearch

set_option autoImplicit false

/-!
# The symbols of routes and layouts

`routes.c` declares a symbol for each entry of the two tables. The sources are compiled
with a define that `compile_app_sources_cb` finds again by comparing paths.
-/
namespace Cerco.GeneratedSymbols
open Cerco.CString Cerco.LayoutChains Cerco.ObjectNames Cerco.RouteFiles Cerco.RoutePatterns
open Cerco.RouteScan Cerco.Router Cerco.SymbolSearch Cerco.WordRuns

def projectRel (p : SourcePath) : Bytes := routesDir ++ p.rel

def layoutFiles (files : List SourcePath) : List SourcePath := files.filter SourcePath.isLayout

def pageFiles (files : List SourcePath) : List SourcePath := files.filter fun p => isRoute p.rel

/-- `l` is what the scan entered for this layout file. -/
def LayoutEntry (files : List SourcePath) (s : Scan) (p : SourcePath) (l : LayoutInfo) : Prop :=
  ∃ i : ℕ, (layoutFiles files)[i]? = some p ∧ s.layouts[i]? = some l

def RouteEntry (files : List SourcePath) (s : Scan) (p : SourcePath) (r : RouteInfo) : Prop :=
  ∃ i : ℕ, (pageFiles files)[i]? = some p ∧ s.routes[i]? = some r

/-- Symbols tell the route files and the layout directories apart, and every file is compiled with
the symbol of its entry. -/
structure SymbolsAgree (files : List SourcePath) (s : Scan) : Prop where
  routes : ∀ p q r t, RouteEntry files s p r → RouteEntry files s q t → p ≠ q → r.symbol ≠ t.symbol
  layouts : ∀ p q l m, LayoutEntry files s p l → LayoutEntry files s q m → p.dirs ≠ q.dirs →
    l.symbol ≠ m.symbol
  routeDefines : ∀ p r, RouteEntry files s p r →
    symbolDefine s (projectRel p) = ascii "-DCERCO_ROUTE_SYMBOL=" ++ r.symbol
  layoutDefines : ∀ p l, LayoutEntry files s p l →
    symbolDefine s (projectRel p) = ascii "-DCERCO_LAYOUT_SYMBOL=" ++ l.symbol

/-- What the symbol of a layout holds of its directory: the words as far as 146 bytes go. -/
def layoutWords (dirs : List FileName) : Bytes :=
  (joined underscore (words isAlnum (if dirs = [] then ascii "root" else dirText dirs))).take 146

/-- Layouts are called `layout.c`, no path is too long for its buffer, and the directories of two
layouts have other words. -/
structure SymbolsKept (files : List SourcePath) : Prop where
  names : ∀ p ∈ files, p.isLayout = true → p.file.bytes = ascii "layout.c"
  dirs : ∀ p ∈ files, p.isLayout = true → (dirText p.dirs).length ≤ 255
  paths : ∀ p ∈ files, isRoute p.rel = true → p.rel.length ≤ 500
  words : ∀ p ∈ files, ∀ q ∈ files, p.isLayout = true → q.isLayout = true →
    layoutWords p.dirs = layoutWords q.dirs → p.dirs = q.dirs

theorem rel_dirText (p : SourcePath) : p.rel = dirText (p.dirs ++ [p.file]) := by
  rw [SourcePath.rel, dirText, List.map_append, List.map_singleton]

theorem rel_inj {p q : SourcePath} (h : p.rel = q.rel) : p = q := by
  rw [rel_dirText, rel_dirText] at h
  obtain ⟨dirs, file⟩ := List.append_inj' (dirText_inj h) rfl
  cases p
  cases q
  cases dirs
  cases file
  rfl

theorem projectRel_joined (p : SourcePath) : projectRel p =
    joinSegs (ascii "src" :: ascii "routes" :: p.dirs.map FileName.bytes ++ [p.file.bytes]) := by
  have front (segs : List Bytes) (full : segs ≠ []) :
      joinSegs (ascii "src" :: ascii "routes" :: segs) = routesDir ++ joinSegs segs := by
    obtain ⟨t, ts, rfl⟩ := List.exists_cons_of_ne_nil full
    rfl
  exact (front _ (List.append_ne_nil_of_right_ne_nil _ (List.cons_ne_nil _ _))).symm

theorem projectRel_base (p : SourcePath) : (splitDir (projectRel p)).2 = p.file.bytes := by
  rw [projectRel_joined, splitDir_joinSegs _ p.file.slashFree]

theorem rel_base {p : SourcePath} : (splitDir p.rel).2 = p.file.bytes := by
  rw [SourcePath.rel, splitDir_joinSegs _ p.file.slashFree]

theorem projectRel_routes (p : SourcePath) : routesDir.isPrefixOf (projectRel p) = true :=
  List.isPrefixOf_iff_prefix.mpr (List.prefix_append routesDir p.rel)

theorem dirText_last (dirs : List FileName) (text : Bytes) : dirText dirs ≠ text ++ [slash] := by
  intro h
  obtain rfl | ⟨ds, d, rfl⟩ := List.eq_nil_or_concat' dirs
  · exact absurd h.symm (List.append_ne_nil_of_right_ne_nil _ (List.cons_ne_nil _ _))
  · have last : (dirText (ds ++ [d])).getLast? = d.bytes.getLast? := by
      obtain ⟨c, cs, full⟩ := List.exists_cons_of_ne_nil d.nonempty
      rw [dirText_concat]
      split
      · rfl
      · rw [List.getLast?_append_of_ne_nil _ (List.cons_ne_nil _ _), full, List.getLast?_cons_cons]
    rw [h, List.getLast?_concat] at last
    exact d.slashFree (List.mem_of_getLast? last.symm)

section
variable {files : List SourcePath} {s : Scan}

theorem layouts_table (scan : scanRoutes (rels files) = some s)
    (few : (layoutFiles files).length ≤ maxLayouts) :
    s.layouts = (layoutFiles files).map fun p => layoutOf p.rel := by
  have found : (rels files).filter isLayoutFile = (layoutFiles files).map SourcePath.rel := List.filter_map
  rw [scanRoutes_layouts scan, found, ← List.map_take, List.map_map, List.take_of_length_le few]
  rfl

theorem layoutEntry_iff (scan : scanRoutes (rels files) = some s)
    (few : (layoutFiles files).length ≤ maxLayouts) {p : SourcePath} {l : LayoutInfo} :
    LayoutEntry files s p l ↔ p ∈ layoutFiles files ∧ l = layoutOf p.rel := by
  unfold LayoutEntry
  rw [layouts_table scan few]
  constructor
  · rintro ⟨i, hp, hl⟩
    rw [List.getElem?_map, hp] at hl
    exact ⟨List.mem_of_getElem? hp, (Option.some.inj hl).symm⟩
  · rintro ⟨mem, rfl⟩
    obtain ⟨i, hp⟩ := List.mem_iff_getElem?.mp mem
    exact ⟨i, hp, by rw [List.getElem?_map, hp]; rfl⟩

theorem routes_table (scan : scanRoutes (rels files) = some s) (few : (pageFiles files).length ≤ maxRoutes) :
    s.routes.map (·.rel) = (pageFiles files).map fun p => fit 512 (projectRel p) := by
  have found : routeFiles (rels files) = (pageFiles files).map SourcePath.rel := List.filter_map
  have table := @scan_routes Bytes (·.rel) (fun rel => fit 512 (ascii "src/routes/" ++ rel)) (fun _ _ => rfl)
    _ _ _ scan
  rw [table, found, ← List.map_take, List.map_map]
  change [] ++ ((pageFiles files).take maxRoutes).map _ = _
  rw [List.take_of_length_le few, List.nil_append]
  rfl

theorem RouteEntry.rel {p : SourcePath} {r : RouteInfo} (h : RouteEntry files s p r)
    (scan : scanRoutes (rels files) = some s) (few : (pageFiles files).length ≤ maxRoutes) :
    r.rel = fit 512 (projectRel p) := by
  obtain ⟨i, hp, hr⟩ := h
  have row := congrArg (·[i]?) (routes_table scan few)
  simp only [List.getElem?_map, hp, hr, Option.map_some] at row
  exact Option.some.inj row

theorem routes_length (scan : scanRoutes (rels files) = some s) (few : (pageFiles files).length ≤ maxRoutes) :
    s.routes.length = (pageFiles files).length := by
  have len := congrArg List.length (routes_table scan few)
  rw [List.length_map, List.length_map] at len
  exact len

theorem exists_routeEntry (scan : scanRoutes (rels files) = some s)
    (few : (pageFiles files).length ≤ maxRoutes) {p : SourcePath} (hp : p ∈ pageFiles files) :
    ∃ r, RouteEntry files s p r := by
  obtain ⟨i, hi⟩ := List.mem_iff_getElem?.mp hp
  have bound := (List.getElem?_eq_some_iff.mp hi).1
  rw [← routes_length scan few] at bound
  exact ⟨s.routes[i], i, hi, List.getElem?_eq_getElem bound⟩

theorem mem_routes (scan : scanRoutes (rels files) = some s) (few : (pageFiles files).length ≤ maxRoutes)
    {r : RouteInfo} (hr : r ∈ s.routes) : ∃ p, RouteEntry files s p r := by
  obtain ⟨i, hi⟩ := List.mem_iff_getElem?.mp hr
  have bound := (List.getElem?_eq_some_iff.mp hi).1
  rw [routes_length scan few] at bound
  exact ⟨(pageFiles files)[i], i, List.getElem?_eq_getElem bound, hi⟩

end

structure SymbolTable (s : Scan) : Prop where
  distinct : (takenSymbols s).Nodup
  short : ∀ x ∈ takenSymbols s, x.length ≤ 159

theorem uniqueSymbol_unused {taken : List Bytes} {b x : Bytes} {rounds r : ℕ}
    (h : uniqueSymbol taken b rounds r = some x) : x ∉ taken ∧ x.length ≤ 159 := by
  induction rounds generalizing r with
  | zero => cases h
  | succ rounds ih =>
    rw [uniqueSymbol] at h
    by_cases used : taken.contains (symbolAt b r) = true
    · rw [if_pos used] at h
      exact ih h
    · rw [if_neg used] at h
      obtain rfl := Option.some.inj h
      refine ⟨fun mem => used (List.contains_iff_mem.mpr mem), ?_⟩
      unfold symbolAt fit
      split
      · exact List.length_take_le _ _
      · exact List.length_take_le _ _

theorem SymbolTable.scanFile {s t : Scan} {rel : Bytes} (h : SymbolTable s)
    (ht : RouteScan.scanFile s rel = some t) : SymbolTable t := by
  by_cases searches : Searches s rel
  · rw [scanFile_search searches] at ht
    obtain ⟨symbol, found, rfl⟩ := Option.map_eq_some_iff.mp ht
    obtain ⟨unused, short⟩ := uniqueSymbol_unused found
    have taken : takenSymbols { s with routes := s.routes ++ [routeOf rel symbol] } =
        takenSymbols s ++ [symbol] := by
      rw [takenSymbols, List.map_append]
      rfl
    constructor
    · rw [taken, ← List.concat_eq_append]
      exact List.Nodup.concat unused h.distinct
    · intro x hx
      rw [taken] at hx
      obtain hx | hx := List.mem_append.mp hx
      · exact h.short x hx
      · rw [List.mem_singleton.mp hx]
        exact short
  · obtain ⟨_, _, _, rfl⟩ | ⟨route, _, room, _⟩ | ⟨rfl, _⟩ := scanFile_cases ht
    · exact ⟨h.distinct, h.short⟩
    · exact absurd ⟨route, room⟩ searches
    · exact h

theorem scan_symbolTable {rels : List Bytes} {s t : Scan} (h : SymbolTable s)
    (ht : rels.foldlM scanFile s = some t) : SymbolTable t := by
  induction rels generalizing s with
  | nil =>
    obtain rfl := Option.some.inj ht
    exact h
  | cons rel rels ih =>
    rw [List.foldlM_cons] at ht
    obtain ⟨u, hu, rest⟩ := Option.bind_eq_some_iff.mp ht
    exact ih (h.scanFile hu) rest

theorem scanRoutes_symbolTable {rels : List Bytes} {s : Scan} (h : scanRoutes rels = some s) : SymbolTable s :=
  scan_symbolTable (s := ⟨[], []⟩) ⟨List.nodup_nil, fun _ hx => absurd hx List.not_mem_nil⟩ h

theorem makeDefine_short (name : Bytes) {value : Bytes} (hn : name.length ≤ 90) (hv : value.length ≤ 159) :
    makeDefine name value = ascii "-D" ++ name ++ ascii "=" ++ value := by
  have d : (ascii "-D").length = 2 := by decide
  have e : (ascii "=").length = 1 := by decide
  refine fit_of_le ?_
  simp only [List.length_append, d, e]
  omega

theorem trim_cut {text : Bytes} (last : text.getLast? ≠ some underscore) {n m : ℕ} (h : n < m) :
    (trim underscore (text.take m)).take n = text.take n := by
  unfold trim
  by_cases whole : text.length ≤ m
  · rw [List.take_of_length_le whole, if_neg last]
  · have len : (text.take m).length = m := by
      rw [List.length_take]
      omega
    split
    · rw [List.dropLast_eq_take, len, List.take_take, List.take_take]
      congr 1
      omega
    · rw [List.take_take]
      congr 1
      omega

theorem layoutSymbol_words (dirs : List FileName) :
    layoutSymbol (dirText dirs) = ascii "cerco_layout_" ++ layoutWords dirs := by
  have head : (ascii "cerco_layout_").length = 13 := by decide
  have root : (if dirText dirs = [] then ascii "root" else dirText dirs) =
      if dirs = [] then ascii "root" else dirText dirs := by
    by_cases none : dirs = []
    · rw [if_pos none, if_pos (dirText_nil.mpr none)]
    · rw [if_neg none, if_neg (fun h => none (dirText_nil.mp h))]
  have free : (joined underscore (words isAlnum (if dirs = [] then ascii "root" else dirText dirs))).getLast? ≠
      some underscore := joined_last (words_free (by decide) _)
  rw [layoutSymbol, root, mangle_words (by decide), fit, List.take_append, head,
    List.take_of_length_le (by rw [head]; decide)]
  exact congrArg (ascii "cerco_layout_" ++ ·) (trim_cut free (by decide))

structure PlainLayout (p : SourcePath) : Prop where
  name : p.file.bytes = ascii "layout.c"
  dir : (dirText p.dirs).length ≤ 255

theorem PlainLayout.entry {p : SourcePath} (h : PlainLayout p) :
    layoutOf p.rel = ⟨dirText p.dirs, layoutSymbol (dirText p.dirs)⟩ := by
  have fits : p.Fits := ⟨h.dir, by rw [h.name]; decide⟩
  rw [layoutOf, dirOf_source fits, fit_of_le (Nat.succ_le_succ h.dir)]

theorem PlainLayout.projectRel {p : SourcePath} (h : PlainLayout p) :
    GeneratedSymbols.projectRel p = routesDir ++
      (if p.dirs = [] then ascii "layout.c" else dirText p.dirs ++ ascii "/layout.c") := by
  rw [GeneratedSymbols.projectRel, rel_dirText, dirText_concat, h.name]
  rfl

theorem isLayoutOf_iff (rel : Bytes) (l : LayoutInfo) : isLayoutOf rel l = true ↔
    rel = fit 512 (routesDir ++ l.dir) ++ ascii "layout.c" ∨
      rel = fit 512 (routesDir ++ l.dir) ++ ascii "/layout.c" := by
  have cut (want x : Bytes) : (want <+: rel ∧ rel.drop want.length = x) ↔ rel = want ++ x := by
    constructor
    · rintro ⟨⟨rest, rfl⟩, rfl⟩
      rw [List.drop_left]
    · rintro rfl
      exact ⟨List.prefix_append want x, List.drop_left⟩
  unfold isLayoutOf
  rw [Bool.and_eq_true, Bool.or_eq_true, beq_iff_eq, beq_iff_eq, List.isPrefixOf_iff_prefix, and_or_left, cut, cut]

theorem PlainLayout.matched {p : SourcePath} (h : PlainLayout p) {dirs : List FileName}
    (short : (dirText dirs).length ≤ 255) (symbol : Bytes) :
    isLayoutOf (GeneratedSymbols.projectRel p) ⟨dirText dirs, symbol⟩ = true ↔ dirs = p.dirs := by
  have front : routesDir.length = 11 := by decide
  have base : ascii "/layout.c" = [slash] ++ ascii "layout.c" := by decide
  have whole : fit 512 (routesDir ++ dirText dirs) = routesDir ++ dirText dirs :=
    fit_of_le (by rw [List.length_append, front]; omega)
  rw [isLayoutOf_iff, whole, h.projectRel, List.append_assoc, List.append_assoc, List.append_cancel_left_eq,
    List.append_cancel_left_eq]
  by_cases root : p.dirs = []
  · rw [if_pos root, root]
    constructor
    · rintro (e | e)
      · have len := congrArg List.length e
        rw [List.length_append] at len
        exact dirText_nil.mp (List.length_eq_zero_iff.mp (by omega))
      · have len := congrArg List.length e
        rw [List.length_append, base, List.length_append, List.length_singleton] at len
        omega
    · rintro rfl
      exact .inl rfl
  · rw [if_neg root]
    constructor
    · rintro (e | e)
      · rw [base, ← List.append_assoc] at e
        exact absurd (List.append_cancel_right e).symm (dirText_last dirs _)
      · exact (dirText_inj (List.append_cancel_right e)).symm
    · rintro rfl
      exact .inr rfl

theorem layoutName_isLayout {p : SourcePath} (name : p.file.bytes = ascii "layout.c") (fits : p.rel.length ≤ 511) :
    isLayout p.rel = true := by
  have base : (splitDir (fit 512 p.rel)).2 = ascii "layout.c" := by
    rw [fit_of_le (Nat.succ_le_succ fits), rel_base, name]
  rw [isLayout_iff, baseOf, base]
  exact .inl (by decide)

section
variable {files : List SourcePath} {s : Scan}

theorem route_symbols_differ (scan : scanRoutes (rels files) = some s) {p q : SourcePath} {r t : RouteInfo}
    (hp : RouteEntry files s p r) (hq : RouteEntry files s q t) (ne : p ≠ q) : r.symbol ≠ t.symbol := by
  obtain ⟨i, hi, ri⟩ := hp
  obtain ⟨j, hj, tj⟩ := hq
  intro same
  have left : (takenSymbols s)[i]? = some r.symbol := by rw [takenSymbols, List.getElem?_map, ri]; rfl
  have right : (takenSymbols s)[j]? = some t.symbol := by rw [takenSymbols, List.getElem?_map, tj]; rfl
  have bound := (List.getElem?_eq_some_iff.mp left).1
  have index : i = j := (List.getElem?_inj bound (scanRoutes_symbolTable scan).distinct).mp (by rw [left, right, same])
  subst index
  exact ne (Option.some.inj (hi.symm.trans hj))

theorem symbol_short (scan : scanRoutes (rels files) = some s) {r : RouteInfo} (hr : r ∈ s.routes) :
    r.symbol.length ≤ 159 :=
  (scanRoutes_symbolTable scan).short _ (List.mem_map_of_mem hr)

theorem RouteEntry.mem {p : SourcePath} {r : RouteInfo} (h : RouteEntry files s p r) :
    r ∈ s.routes ∧ p ∈ files ∧ isRoute p.rel = true := by
  obtain ⟨i, hp, hr⟩ := h
  obtain ⟨mem, route⟩ := List.mem_filter.mp (List.mem_of_getElem? hp)
  exact ⟨List.mem_of_getElem? hr, mem, route⟩

theorem symbolDefine_page {p : SourcePath} (name : p.file.bytes ≠ ascii "layout.c") :
    symbolDefine s (projectRel p) = (s.routes.find? fun r => r.rel == projectRel p).elim []
      fun r => makeDefine (ascii "CERCO_ROUTE_SYMBOL") r.symbol := by
  rw [symbolDefine, if_neg (not_not.mpr (projectRel_routes p)), if_neg (by rw [projectRel_base]; exact name)]
  cases s.routes.find? fun r => r.rel == projectRel p with
  | none => rfl
  | some r => rfl

theorem symbolDefine_layout {p : SourcePath} (name : p.file.bytes = ascii "layout.c") :
    symbolDefine s (projectRel p) = (s.layouts.find? (isLayoutOf (projectRel p))).elim []
      fun l => makeDefine (ascii "CERCO_LAYOUT_SYMBOL") l.symbol := by
  rw [symbolDefine, if_neg (not_not.mpr (projectRel_routes p)), if_pos (by rw [projectRel_base]; exact name)]
  cases s.layouts.find? (isLayoutOf (projectRel p)) with
  | none => rfl
  | some l => rfl

theorem page_name {p : SourcePath} (route : isRoute p.rel = true) (short : p.rel.length ≤ 511) :
    p.file.bytes ≠ ascii "layout.c" :=
  fun name => ((isRoute_iff p.rel).mp route).2 (layoutName_isLayout name short)

theorem projectRel_length (p : SourcePath) : (projectRel p).length = p.rel.length + 11 := by
  have front : routesDir.length = 11 := by decide
  rw [projectRel, List.length_append, front]
  omega

theorem route_define (distinct : files.Nodup) (scan : scanRoutes (rels files) = some s)
    (few : (pageFiles files).length ≤ maxRoutes)
    (paths : ∀ p ∈ files, isRoute p.rel = true → p.rel.length ≤ 500) {p : SourcePath} {r : RouteInfo}
    (h : RouteEntry files s p r) :
    symbolDefine s (projectRel p) = ascii "-DCERCO_ROUTE_SYMBOL=" ++ r.symbol := by
  have whole : ∀ {q t}, RouteEntry files s q t → t.rel = projectRel q := by
    intro q t hq
    obtain ⟨_, mem, route⟩ := hq.mem
    have short := paths q mem route
    rw [hq.rel scan few, fit_of_le (by rw [projectRel_length]; omega)]
  obtain ⟨mem, inFiles, route⟩ := h.mem
  have short := paths p inFiles route
  rw [symbolDefine_page (page_name route (by omega))]
  cases found : s.routes.find? fun r => r.rel == projectRel p with
  | none =>
    have no := List.find?_eq_none.mp found r mem
    exact absurd (beq_iff_eq.mpr (whole h)) no
  | some t =>
    have same : t.rel = projectRel p :=
      beq_iff_eq.mp (List.find?_some (p := fun r : RouteInfo => r.rel == projectRel p) found)
    obtain ⟨q, hq⟩ := mem_routes scan few (List.mem_of_find?_eq_some found)
    have file : q = p := rel_inj (List.append_cancel_left ((whole hq).symm.trans same))
    obtain ⟨i, hi, ti⟩ := hq
    obtain ⟨j, hj, rj⟩ := h
    have bound := (List.getElem?_eq_some_iff.mp hi).1
    have index : i = j := (List.getElem?_inj bound (distinct.filter _)).mp (by rw [hi, hj, file])
    subst index
    obtain rfl := Option.some.inj (ti.symm.trans rj)
    exact makeDefine_short _ (by decide) (symbol_short scan mem)

theorem layoutSymbol_short (dir : Bytes) : (layoutSymbol dir).length ≤ 159 := List.length_take_le _ _

theorem layout_define (scan : scanRoutes (rels files) = some s) (few : (layoutFiles files).length ≤ maxLayouts)
    (plain : ∀ p ∈ layoutFiles files, PlainLayout p) {p : SourcePath} {l : LayoutInfo}
    (h : LayoutEntry files s p l) :
    symbolDefine s (projectRel p) = ascii "-DCERCO_LAYOUT_SYMBOL=" ++ l.symbol := by
  obtain ⟨mem, rfl⟩ := (layoutEntry_iff scan few).mp h
  have own := plain p mem
  have table := layouts_table scan few
  rw [symbolDefine_layout own.name]
  cases found : s.layouts.find? (isLayoutOf (projectRel p)) with
  | none =>
    have no := List.find?_eq_none.mp found (layoutOf p.rel) (by rw [table]; exact List.mem_map_of_mem mem)
    rw [own.entry] at no
    exact absurd ((own.matched own.dir _).mpr rfl) no
  | some m =>
    have matched := List.find?_some found
    have entry := List.mem_of_find?_eq_some found
    rw [table] at entry
    obtain ⟨q, hq, rfl⟩ := List.mem_map.mp entry
    have other := plain q hq
    rw [other.entry] at matched ⊢
    rw [own.entry, (own.matched other.dir _).mp matched]
    exact makeDefine_short _ (by decide) (layoutSymbol_short _)

theorem layout_symbols {p q : SourcePath} (hp : PlainLayout p) (hq : PlainLayout q) :
    (layoutOf p.rel).symbol = (layoutOf q.rel).symbol ↔ layoutWords p.dirs = layoutWords q.dirs := by
  rw [hp.entry, hq.entry]
  change layoutSymbol _ = layoutSymbol _ ↔ _
  rw [layoutSymbol_words, layoutSymbol_words, List.append_cancel_left_eq]

theorem SymbolsKept.plain (h : SymbolsKept files) {p : SourcePath} (hp : p ∈ layoutFiles files) : PlainLayout p := by
  obtain ⟨mem, layout⟩ := List.mem_filter.mp hp
  exact ⟨h.names p mem layout, h.dirs p mem layout⟩

theorem SymbolsKept.agree (h : SymbolsKept files) (distinct : files.Nodup)
    (scan : scanRoutes (rels files) = some s) (fewRoutes : (pageFiles files).length ≤ maxRoutes)
    (fewLayouts : (layoutFiles files).length ≤ maxLayouts) : SymbolsAgree files s := by
  refine ⟨fun p q r t hr ht => route_symbols_differ scan hr ht, ?_, ?_, ?_⟩
  · intro p q l m hl hm ne same
    obtain ⟨hp, rfl⟩ := (layoutEntry_iff scan fewLayouts).mp hl
    obtain ⟨hq, rfl⟩ := (layoutEntry_iff scan fewLayouts).mp hm
    obtain ⟨pmem, playout⟩ := List.mem_filter.mp hp
    obtain ⟨qmem, qlayout⟩ := List.mem_filter.mp hq
    exact ne (h.words p pmem q qmem playout qlayout ((layout_symbols (h.plain hp) (h.plain hq)).mp same))
  · exact fun p r => route_define distinct scan fewRoutes h.paths
  · exact fun p l => layout_define scan fewLayouts fun p => h.plain

theorem ne_of_front {a b : Bytes} (k : ℕ) (ha : k ≤ a.length) (hb : k ≤ b.length)
    (ne : a.take k ≠ b.take k) (v w : Bytes) : a ++ v ≠ b ++ w := by
  intro same
  have front := congrArg (List.take k) same
  rw [List.take_append_of_le_length ha, List.take_append_of_le_length hb] at front
  exact ne front

theorem routeDefine_ne {v : Bytes} (short : v.length ≤ 159) (w : Bytes) :
    makeDefine (ascii "CERCO_ROUTE_SYMBOL") v ≠ ascii "-DCERCO_LAYOUT_SYMBOL=" ++ w := by
  rw [makeDefine_short _ (by decide) short]
  exact ne_of_front 9 (by decide) (by decide) (by decide) v w

theorem layoutDefine_ne {v : Bytes} (short : v.length ≤ 159) (w : Bytes) :
    makeDefine (ascii "CERCO_LAYOUT_SYMBOL") v ≠ ascii "-DCERCO_ROUTE_SYMBOL=" ++ w := by
  rw [makeDefine_short _ (by decide) short]
  exact ne_of_front 9 (by decide) (by decide) (by decide) v w

theorem layout_row (scan : scanRoutes (rels files) = some s) (few : (layoutFiles files).length ≤ maxLayouts)
    {l : LayoutInfo} (hl : l ∈ s.layouts) : l.dir.length ≤ 255 ∧ l.symbol.length ≤ 159 := by
  rw [layouts_table scan few] at hl
  obtain ⟨p, _, rfl⟩ := List.mem_map.mp hl
  exact ⟨List.length_take_le _ _, layoutSymbol_short _⟩

theorem names_needed (h : SymbolsAgree files s) (scan : scanRoutes (rels files) = some s)
    (few : (layoutFiles files).length ≤ maxLayouts) {p : SourcePath} (hp : p ∈ layoutFiles files) :
    p.file.bytes = ascii "layout.c" := by
  by_contra name
  have define := h.layoutDefines p _ ((layoutEntry_iff scan few).mpr ⟨hp, rfl⟩)
  rw [symbolDefine_page name] at define
  cases found : s.routes.find? fun r => r.rel == projectRel p with
  | none =>
    rw [found] at define
    exact absurd define.symm (List.append_ne_nil_of_left_ne_nil (by decide) _)
  | some r =>
    rw [found] at define
    exact absurd define (routeDefine_ne (symbol_short scan (List.mem_of_find?_eq_some found)) _)

theorem dirs_needed (h : SymbolsAgree files s) (scan : scanRoutes (rels files) = some s)
    (few : (layoutFiles files).length ≤ maxLayouts) {p : SourcePath} (hp : p ∈ layoutFiles files) :
    (dirText p.dirs).length ≤ 255 := by
  by_contra long
  have name := names_needed h scan few hp
  have define := h.layoutDefines p _ ((layoutEntry_iff scan few).mpr ⟨hp, rfl⟩)
  have size : (projectRel p).length = (dirText p.dirs).length + 20 := by
    have root : p.dirs ≠ [] := by
      rintro root
      rw [root] at long
      exact long (Nat.zero_le _)
    have base : (ascii "layout.c").length = 8 := by decide
    rw [projectRel_length, rel_dirText, dirText_concat, if_neg root, name, List.length_append, List.length_cons,
      base]
  rw [symbolDefine_layout name] at define
  cases found : s.layouts.find? (isLayoutOf (projectRel p)) with
  | none =>
    rw [found] at define
    exact absurd define.symm (List.append_ne_nil_of_left_ne_nil (by decide) _)
  | some l =>
    have row := layout_row scan few (List.mem_of_find?_eq_some found)
    have front : (fit 512 (routesDir ++ l.dir)).length ≤ 266 := by
      have eleven : routesDir.length = 11 := by decide
      refine (List.length_take_le' _ _).trans ?_
      rw [List.length_append, eleven]
      omega
    have tails : (ascii "layout.c").length = 8 ∧ (ascii "/layout.c").length = 9 := by decide
    obtain e | e := (isLayoutOf_iff _ _).mp (List.find?_some found)
    · rw [e, List.length_append, tails.1] at size
      omega
    · rw [e, List.length_append, tails.2] at size
      omega

theorem paths_needed (h : SymbolsAgree files s) (scan : scanRoutes (rels files) = some s)
    (fewRoutes : (pageFiles files).length ≤ maxRoutes) (fewLayouts : (layoutFiles files).length ≤ maxLayouts)
    {p : SourcePath} (hp : p ∈ pageFiles files) : p.rel.length ≤ 500 := by
  by_contra long
  obtain ⟨r, entry⟩ := exists_routeEntry scan fewRoutes hp
  have define := h.routeDefines p r entry
  by_cases name : p.file.bytes = ascii "layout.c"
  · rw [symbolDefine_layout name] at define
    cases found : s.layouts.find? (isLayoutOf (projectRel p)) with
    | none =>
      rw [found] at define
      exact absurd define.symm (List.append_ne_nil_of_left_ne_nil (by decide) _)
    | some l =>
      rw [found] at define
      exact absurd define (layoutDefine_ne (layout_row scan fewLayouts (List.mem_of_find?_eq_some found)).2 _)
  · rw [symbolDefine_page name] at define
    cases found : s.routes.find? fun r => r.rel == projectRel p with
    | none =>
      rw [found] at define
      exact absurd define.symm (List.append_ne_nil_of_left_ne_nil (by decide) _)
    | some t =>
      obtain ⟨q, hq⟩ := mem_routes scan fewRoutes (List.mem_of_find?_eq_some found)
      have same : t.rel = projectRel p :=
        beq_iff_eq.mp (List.find?_some (p := fun r : RouteInfo => r.rel == projectRel p) found)
      have cut : t.rel.length ≤ 511 := by
        rw [hq.rel scan fewRoutes]
        exact List.length_take_le _ _
      rw [same, projectRel_length] at cut
      omega

/-- After a scan within the limits of the tables, symbols and defines are as they should be exactly
if every layout is called `layout.c`, no path is cut, and no two layouts are alike in their words. -/
theorem symbols_agree_iff (distinct : files.Nodup) (scan : scanRoutes (rels files) = some s)
    (fewRoutes : (pageFiles files).length ≤ maxRoutes) (fewLayouts : (layoutFiles files).length ≤ maxLayouts) :
    SymbolsAgree files s ↔ SymbolsKept files := by
  constructor
  · intro h
    have plain : ∀ p ∈ files, p.isLayout = true → PlainLayout p := by
      intro p mem layout
      have hp := List.mem_filter.mpr ⟨mem, layout⟩
      exact ⟨names_needed h scan fewLayouts hp, dirs_needed h scan fewLayouts hp⟩
    refine ⟨fun p mem layout => (plain p mem layout).name, fun p mem layout => (plain p mem layout).dir, ?_, ?_⟩
    · exact fun p mem route => paths_needed h scan fewRoutes fewLayouts (List.mem_filter.mpr ⟨mem, route⟩)
    · intro p pmem q qmem playout qlayout same
      by_contra ne
      have entry {p : SourcePath} (mem : p ∈ files) (layout : p.isLayout = true) :
          LayoutEntry files s p (layoutOf p.rel) :=
        (layoutEntry_iff scan fewLayouts).mpr ⟨List.mem_filter.mpr ⟨mem, layout⟩, rfl⟩
      exact h.layouts p q _ _ (entry pmem playout) (entry qmem qlayout) ne
        ((layout_symbols (plain p pmem playout) (plain q qmem qlayout)).mpr same)
  · exact fun h => h.agree distinct scan fewRoutes fewLayouts

end

theorem guide_symbols_agree :
    SymbolsAgree guideFiles (scanOf guideFiles) ↔ SymbolsKept guideFiles :=
  symbols_agree_iff (by decide +kernel) (by decide +kernel) (by decide +kernel) (by decide +kernel)

/-- The layouts of `my-app` and `my_app` are one symbol. -/
theorem two_directories_one_symbol :
    appFiles.Nodup ∧ scanRoutes (rels appFiles) = some (scanOf appFiles) ∧
      (pageFiles appFiles).length ≤ maxRoutes ∧ (layoutFiles appFiles).length ≤ maxLayouts ∧
      ¬ SymbolsAgree appFiles (scanOf appFiles) := by
  have scan : scanRoutes (rels appFiles) = some (scanOf appFiles) := by decide +kernel
  have few : (layoutFiles appFiles).length ≤ maxLayouts := by decide +kernel
  refine ⟨by decide +kernel, scan, by decide +kernel, few, fun h => ?_⟩
  have entry {p : SourcePath} (hp : p ∈ layoutFiles appFiles) :
      LayoutEntry appFiles (scanOf appFiles) p (layoutOf p.rel) := (layoutEntry_iff scan few).mpr ⟨hp, rfl⟩
  have dash : ⟨[dashName], layoutName⟩ ∈ layoutFiles appFiles := by decide +kernel
  have line : ⟨[lineName], layoutName⟩ ∈ layoutFiles appFiles := by decide +kernel
  exact h.layouts _ _ _ _ (entry dash) (entry line) (by decide) (by decide +kernel)

end Cerco.GeneratedSymbols
