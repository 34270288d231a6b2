import Cerco.RouteScan
import Cerco.Router

set_option autoImplicit false

/-!
# From route files to the parsed table

What `scan_cb` writes into the table depends on one file at a time, apart from the
symbols. The server parses at most 24 segments of a pattern.
-/
namespace Cerco.RouteFiles
open Cerco.CString Cerco.RouteScan Cerco.Router Cerco.SegmentPattern

structure FileName where
  bytes : Bytes
  nonempty : bytes ≠ []
  nulFree : 0 ∉ bytes
  slashFree : slash ∉ bytes
deriving DecidableEq

/-- `"%s/%s"` below a directory, and the name alone at the root. -/
def joinRel (rel name : Bytes) : Bytes := if rel = [] then name else rel ++ slash :: name

def dirOf (rel : Bytes) : Bytes := (splitDir (fit 512 rel)).1

/-- The method of a file, and `basebuf`. -/
def baseOf (rel : Bytes) : Bytes × Bytes := methodSuffix (stripC (fit 256 (splitDir (fit 512 rel)).2))

def isLayout (rel : Bytes) : Bool :=
  (baseOf rel).2 == ascii "layout" || (baseOf rel).2 == ascii "layout.c"

theorem isLayout_iff (rel : Bytes) : isLayout rel = true ↔
    (baseOf rel).2 = ascii "layout" ∨ (baseOf rel).2 = ascii "layout.c" := by
  rw [isLayout, Bool.or_eq_true, beq_iff_eq, beq_iff_eq]

/-- A file that `scan_cb` takes for a route. -/
def isRoute (rel : Bytes) : Bool := endsWith rel (ascii ".c") && !isLayout rel

/-- `r->path` -/
def routePath (rel : Bytes) : Bytes :=
  urlPath (baseOf rel).2 (fit 256 (dirOf rel)) (segmentOf (stripC (baseOf rel).2))

def entryOf (rel : Bytes) : Bytes × Bytes := ((baseOf rel).1, routePath rel)

def entries (s : Scan) : List (Bytes × Bytes) := s.routes.map fun r => (r.method, r.path)

def routeFiles (rels : List Bytes) : List Bytes := rels.filter isRoute

def tableFiles (rels : List Bytes) : List Bytes := (routeFiles rels).take maxRoutes

theorem isRoute_iff (rel : Bytes) :
    isRoute rel = true ↔ endsWith rel (ascii ".c") = true ∧ ¬ isLayout rel = true := by
  rw [isRoute, Bool.and_eq_true, Bool.not_eq_true', Bool.not_eq_true]

/-- A file that `scan_cb` takes for a layout. -/
def isLayoutFile (rel : Bytes) : Bool := endsWith rel (ascii ".c") && isLayout rel

def layoutSymbol (dir : Bytes) : Bytes :=
  fit 160 (ascii "cerco_layout_" ++ mangle (if dir = [] then ascii "root" else dir) 256)

def layoutOf (rel : Bytes) : LayoutInfo := ⟨fit 256 (dirOf rel), layoutSymbol (dirOf rel)⟩

def routeOf (rel symbol : Bytes) : RouteInfo :=
  { method := (baseOf rel).1
    path := routePath rel
    symbol := symbol
    rel := fit 512 (ascii "src/routes/" ++ rel)
    dir := fit 256 (dirOf rel) }

theorem isLayoutFile_iff (rel : Bytes) :
    isLayoutFile rel = true ↔ endsWith rel (ascii ".c") = true ∧ isLayout rel = true :=
  Bool.and_eq_true_iff

theorem scanFile_cases {s t : Scan} {rel : Bytes} (h : scanFile s rel = some t) :
    (isLayoutFile rel = true ∧ ¬ isRoute rel = true ∧ s.layouts.length < maxLayouts ∧
      t = { s with layouts := s.layouts ++ [layoutOf rel] }) ∨
    (isRoute rel = true ∧ ¬ isLayoutFile rel = true ∧ s.routes.length < maxRoutes ∧
      ∃ symbol, t = { s with routes := s.routes ++ [routeOf rel symbol] }) ∨
    (t = s ∧ ¬ (isLayoutFile rel = true ∧ s.layouts.length < maxLayouts) ∧
      ¬ (isRoute rel = true ∧ s.routes.length < maxRoutes)) := by
  unfold scanFile at h
  by_cases hc : endsWith rel (ascii ".c") = true
  · rw [if_neg (not_not.mpr hc)] at h
    change (if (baseOf rel).2 = ascii "layout" ∨ (baseOf rel).2 = ascii "layout.c" then _ else _) = _ at h
    by_cases hl : (baseOf rel).2 = ascii "layout" ∨ (baseOf rel).2 = ascii "layout.c"
    · have layout := (isLayout_iff rel).mpr hl
      have noRoute : ¬ isRoute rel = true := fun route => ((isRoute_iff rel).mp route).2 layout
      rw [if_pos hl] at h
      by_cases full : maxLayouts ≤ s.layouts.length
      · rw [if_pos full] at h
        exact .inr (.inr ⟨(Option.some.inj h).symm, fun both => by omega, fun both => noRoute both.1⟩)
      · rw [if_neg full] at h
        exact .inl ⟨(isLayoutFile_iff rel).mpr ⟨hc, layout⟩, noRoute, by omega, (Option.some.inj h).symm⟩
    · have plain : ¬ isLayout rel = true := fun layout => hl ((isLayout_iff rel).mp layout)
      have noLayout : ¬ isLayoutFile rel = true := fun file => plain ((isLayoutFile_iff rel).mp file).2
      rw [if_neg hl] at h
      by_cases full : maxRoutes ≤ s.routes.length
      · rw [if_pos full] at h
        exact .inr (.inr ⟨(Option.some.inj h).symm, fun both => noLayout both.1, fun both => by omega⟩)
      · rw [if_neg full] at h
        obtain ⟨symbol, _, rfl⟩ := Option.map_eq_some_iff.mp h
        exact .inr (.inl ⟨(isRoute_iff rel).mpr ⟨hc, plain⟩, noLayout, by omega, symbol, rfl⟩)
  · rw [if_pos hc] at h
    exact .inr (.inr ⟨(Option.some.inj h).symm,
      fun both => hc ((isLayoutFile_iff rel).mp both.1).1, fun both => hc ((isRoute_iff rel).mp both.1).1⟩)

/-- What each file adds to a table while there is room, a scan adds from any state, in the order
of the files. -/
theorem scan_grows {β : Type} (grow : Scan → List β) (takes : Bytes → Bool) (cap : ℕ)
    (item : Bytes → β) (one : ∀ {s t rel}, scanFile s rel = some t →
      grow t = if takes rel = true ∧ (grow s).length < cap then grow s ++ [item rel] else grow s)
    {rels : List Bytes} {s t : Scan} (h : rels.foldlM scanFile s = some t) :
    grow t = grow s ++ ((rels.filter takes).take (cap - (grow s).length)).map item := by
  induction rels generalizing s with
  | nil =>
    obtain rfl := Option.some.inj h
    simp
  | cons rel rels ih =>
    rw [List.foldlM_cons] at h
    obtain ⟨u, hu, ht⟩ := Option.bind_eq_some_iff.mp h
    have step := one hu
    rw [ih ht, step, List.filter_cons]
    by_cases taken : takes rel = true
    · by_cases room : (grow s).length < cap
      · obtain ⟨left, hleft⟩ := Nat.exists_eq_succ_of_ne_zero (Nat.sub_ne_zero_of_lt room)
        rw [if_pos ⟨taken, room⟩, if_pos taken, List.length_append, List.length_singleton,
          show cap - ((grow s).length + 1) = left by omega, hleft, List.take_succ_cons, List.map_cons,
          List.append_assoc]
        rfl
      · rw [if_neg (by omega), if_pos taken, Nat.sub_eq_zero_of_le (by omega), List.take_zero,
          List.take_zero]
    · rw [if_neg (fun both => taken both.1), if_neg taken]

theorem scan_routes {β : Type} {field : RouteInfo → β} {item : Bytes → β}
    (own : ∀ rel symbol, field (routeOf rel symbol) = item rel) {rels : List Bytes} {s t : Scan}
    (h : rels.foldlM scanFile s = some t) :
    t.routes.map field =
      s.routes.map field ++ ((routeFiles rels).take (maxRoutes - s.routes.length)).map item := by
  have grows := scan_grows (fun s => s.routes.map field) isRoute maxRoutes item (fun hstep => ?_) h
  · rw [List.length_map] at grows
    exact grows
  · rw [List.length_map]
    obtain ⟨_, plain, _, rfl⟩ | ⟨route, _, room, symbol, rfl⟩ | ⟨rfl, _, plain⟩ := scanFile_cases hstep
    · exact (if_neg fun both => plain both.1).symm
    · rw [if_pos ⟨route, room⟩, List.map_append, List.map_singleton, own]
    · exact (if_neg plain).symm

theorem scanRoutes_entries {rels : List Bytes} {s : Scan} (h : scanRoutes rels = some s) :
    entries s = (tableFiles rels).map entryOf := scan_routes (fun _ _ => rfl) h

theorem scanRoutes_dirs {rels : List Bytes} {s : Scan} (h : scanRoutes rels = some s) :
    s.routes.map (·.dir) = (tableFiles rels).map fun rel => fit 256 (dirOf rel) :=
  scan_routes (fun _ _ => rfl) h

theorem scanRoutes_layouts {rels : List Bytes} {s : Scan} (h : scanRoutes rels = some s) :
    s.layouts = ((rels.filter isLayoutFile).take maxLayouts).map layoutOf := by
  refine scan_grows Scan.layouts isLayoutFile maxLayouts layoutOf (fun hstep => ?_) h
  obtain ⟨layout, _, room, rfl⟩ | ⟨_, plain, _, symbol, rfl⟩ | ⟨rfl, plain, _⟩ := scanFile_cases hstep
  · exact (if_pos ⟨layout, room⟩).symm
  · exact (if_neg fun both => plain both.1).symm
  · exact (if_neg plain).symm

/-- The segments that `router_init` keeps of a pattern. -/
def parsedSegs (path : Bytes) : List RtSeg :=
  ((segments path).take rtMaxSegs).map fun s => segParse s segZero

theorem initRoute_parsed {mem : ℕ → Bool} {e : RouteEntry} {rr : RtRoute}
    (h : initRoute mem e = some rr) : rr = ⟨e.method, e.path, parsedSegs e.path, e.fn⟩ := by
  obtain ⟨segs, hs, rfl⟩ := Option.map_eq_some_iff.mp h
  rw [initSegs_eq hs]
  rfl

theorem initRoutes_parsed {mem : ℕ → ℕ → Bool} {i : ℕ} {es : List RouteEntry} {rt : List RtRoute}
    (h : initRoutes mem i es = some rt) :
    rt = es.map fun e => ⟨e.method, e.path, parsedSegs e.path, e.fn⟩ := by
  induction es generalizing i rt with
  | nil => exact (Option.some.inj h).symm
  | cons e es ih =>
    rw [initRoutes] at h
    cases hr : initRoute (mem i) e with
    | none =>
      rw [hr] at h
      cases h
    | some rr =>
      rw [hr] at h
      obtain ⟨rest, hrest, rfl⟩ := Option.map_eq_some_iff.mp h
      rw [initRoute_parsed hr, ih hrest, List.map_cons]

/-- The path with these segments, each followed by `/`. -/
def renderPath (segs : List Bytes) : Bytes := slash :: segs.flatMap fun s => s ++ [slash]

theorem segments_render {segs : List Bytes} (free : ∀ s ∈ segs, slash ∉ s) :
    segments (renderPath segs) = segs := by
  change cut slash (segs.flatMap fun s => s ++ [slash]) = segs
  induction segs with
  | nil => exact cut_nil slash
  | cons s segs ih =>
    rw [List.flatMap_cons, List.append_assoc, List.singleton_append, cut_cons (free s List.mem_cons_self),
      ih fun t ht => free t (List.mem_cons_of_mem s ht)]

theorem splitPath_render {segs : List Bytes} (free : ∀ s ∈ segs, slash ∉ s) {max : ℕ}
    (few : segs.length ≤ max) : splitPath (renderPath segs) max = some segs := by
  rw [splitPath_eq (by rw [segments_render free]; exact few), segments_render free]

theorem splitPath_some {path : Bytes} {max : ℕ} {segs : List Bytes} (h : splitPath path max = some segs) :
    segs = segments path ∧ segs.length ≤ max := by
  rw [splitPath, splitLoop_eq] at h
  split at h
  · obtain rfl := Option.some.inj h
    exact ⟨rfl, ‹_›⟩
  · cases h

theorem mem_cut (p : Bytes) : ∀ s ∈ cut slash p, slash ∉ s ∧ s ⊆ p := by
  induction hn : p.length using Nat.strongRecOn generalizing p with
  | ind n ih =>
    intro s hs
    by_cases hp : p = []
    · subst hp
      rw [cut_nil] at hs
      cases hs
    · cases hc : strchr slash p with
      | none =>
        have free := strchr_none.mp hc
        rw [cut_of_notMem hp free] at hs
        rw [List.mem_singleton.mp hs]
        exact ⟨free, List.Subset.refl p⟩
      | some x =>
        obtain ⟨hx, free⟩ := strchr_some.mp hc
        rw [hx, cut_cons free] at hs
        rcases List.mem_cons.mp hs with rfl | hs
        · exact ⟨free, by rw [hx]; exact List.subset_append_left _ _⟩
        · have shorter : x.2.length < n := by
            rw [← hn, hx, List.length_append, List.length_cons]
            omega
          obtain ⟨free, sub⟩ := ih x.2.length shorter x.2 rfl s hs
          refine ⟨free, fun c hc => ?_⟩
          rw [hx]
          exact List.mem_append_right _ (List.mem_cons_of_mem slash (sub hc))

theorem skipSlash_subset (p : Bytes) : skipSlash p ⊆ p := by
  unfold skipSlash
  split
  · exact List.subset_cons_self _ _
  · exact List.Subset.refl _

theorem mem_segments {p s : Bytes} (h : s ∈ segments p) : slash ∉ s ∧ s ⊆ p := by
  obtain ⟨free, sub⟩ := mem_cut (skipSlash p) s h
  exact ⟨free, List.Subset.trans sub (skipSlash_subset p)⟩

theorem splitDir_inside (p : Bytes) : (splitDir p).1 <:+: p ∧ (splitDir p).2 <:+: p := by
  unfold splitDir
  cases h : strchr slash p.reverse with
  | none => exact ⟨List.nil_infix, List.infix_refl p⟩
  | some cut =>
    obtain ⟨e, _⟩ := strchr_some.mp h
    have whole : p = cut.2.reverse ++ slash :: cut.1.reverse := by
      rw [← List.reverse_reverse p, e, List.reverse_append, List.reverse_cons, List.append_assoc]
      rfl
    rw [whole]
    exact ⟨(List.prefix_append _ _).isInfix,
      ((List.suffix_cons slash cut.1.reverse).trans (List.suffix_append _ _)).isInfix⟩

theorem stripC_front (b : Bytes) : stripC b <+: b := by
  unfold stripC
  split
  · exact List.take_prefix _ _
  · exact List.prefix_refl b

theorem methodSuffix_front (b : Bytes) : (methodSuffix b).2 <+: b := by
  unfold methodSuffix
  split
  · exact List.prefix_refl b
  · exact List.take_prefix _ _

theorem dropBracket_front (b : Bytes) : dropBracket b <+: b := by
  unfold dropBracket
  split
  · exact List.take_prefix _ _
  · exact List.prefix_refl b

theorem dirOf_inside (rel : Bytes) : dirOf rel <:+: rel :=
  (splitDir_inside _).1.trans (List.take_prefix _ _).isInfix

theorem baseOf_inside (rel : Bytes) : (baseOf rel).2 <:+: rel := by
  have base : (baseOf rel).2 <+: (splitDir (fit 512 rel)).2 :=
    (methodSuffix_front _).trans ((stripC_front _).trans (List.take_prefix _ _))
  exact base.isInfix.trans ((splitDir_inside _).2.trans (List.take_prefix _ _).isInfix)

theorem segmentOf_subset (fb : Bytes) : segmentOf fb ⊆ 42 :: 58 :: fb := by
  unfold segmentOf
  split
  · exact List.nil_subset _
  · have cut : (if 4 < fb.length ∧ endsWith fb (ascii ".c") = true
        then stripEnd fb 2 else fb) ⊆ fb := by
      split
      · exact List.take_subset _ _
      · exact List.Subset.refl fb
    have marked : ∀ (m : UInt8) (name : Bytes), m = 42 ∨ m = 58 → name ⊆ fb →
        dropBracket (fit 256 ([m] ++ name)) ⊆ 42 :: 58 :: fb := by
      intro m name hm hname c hc
      rcases List.mem_cons.mp (List.take_subset _ _ ((dropBracket_front _).subset hc)) with rfl | hc
      · rcases hm with rfl | rfl
        · exact List.mem_cons_self
        · exact List.mem_cons_of_mem _ List.mem_cons_self
      · exact List.mem_cons_of_mem _ (List.mem_cons_of_mem _ (hname hc))
    dsimp only
    split
    · rename_i name hseg
      rw [hseg] at cut
      refine marked 42 name (.inl rfl) fun c hc => cut ?_
      simp [hc]
    · rename_i name _ hseg
      rw [hseg] at cut
      exact marked 58 name (.inr rfl) fun c hc => cut (List.mem_cons_of_mem _ hc)
    · exact fun c hc => List.mem_cons_of_mem _ (List.mem_cons_of_mem _ (cut hc))

theorem urlPath_subset (base dir seg : Bytes) :
    urlPath base dir seg ⊆ ascii "/__cerco/404" ++ (dir ++ seg) := by
  have mark : slash ∈ ascii "/__cerco/404" ++ (dir ++ seg) := List.mem_append_left _ (by decide)
  have ofDir : ∀ c ∈ dir, c ∈ ascii "/__cerco/404" ++ (dir ++ seg) := fun c hc =>
    List.mem_append_right _ (List.mem_append_left _ hc)
  have ofSeg : ∀ c ∈ seg, c ∈ ascii "/__cerco/404" ++ (dir ++ seg) := fun c hc =>
    List.mem_append_right _ (List.mem_append_right _ hc)
  intro c hc
  unfold urlPath at hc
  split at hc
  · exact List.mem_append_left _ hc
  · split at hc
    · split at hc
      · rw [List.mem_singleton.mp hc]
        exact mark
      · rcases List.mem_cons.mp (List.take_subset _ _ hc) with rfl | hc
        · exact mark
        · exact ofDir c hc
    · rcases List.mem_append.mp (List.take_subset _ _ hc) with hc | hc
      · rcases List.mem_append.mp hc with hc | hc
        · rcases List.mem_cons.mp hc with rfl | hc
          · exact mark
          · exact ofDir c hc
        · split at hc
          · cases hc
          · rw [List.mem_singleton.mp hc]
            exact mark
      · exact ofSeg c hc

theorem routePath_nulFree {rel : Bytes} (text : 0 ∉ rel) : 0 ∉ routePath rel := by
  intro h
  rcases List.mem_append.mp (urlPath_subset _ _ _ h) with h | h
  · revert h
    decide
  · rcases List.mem_append.mp h with h | h
    · exact text ((dirOf_inside rel).subset (List.take_subset _ _ h))
    · rcases List.mem_cons.mp (segmentOf_subset _ h) with no | h
      · cases no
      · rcases List.mem_cons.mp h with no | h
        · cases no
        · exact text ((baseOf_inside rel).subset ((stripC_front _).subset h))

theorem segmentOf_verbatim {fb : Bytes} (h : Verbatim fb) : Verbatim (segmentOf fb) := by
  have empty : Verbatim [] := by decide
  unfold segmentOf
  split
  · exact empty
  · have cut : (if 4 < fb.length ∧ endsWith fb (ascii ".c") = true then stripEnd fb 2 else fb) <+: fb := by
      split
      · exact List.take_prefix _ _
      · exact List.prefix_refl fb
    have marked : ∀ (m : UInt8) (name : Bytes), m = 42 ∨ m = 58 → name <:+: fb →
        Verbatim (dropBracket (fit 256 ([m] ++ name))) := by
      intro m name hm hname
      have whole : Verbatim ([] ++ m :: name) := empty.glue (h.inside hname) (by
        rcases hm with rfl | rfl <;> decide)
      exact whole.inside ((dropBracket_front _).trans (List.take_prefix _ _)).isInfix
    dsimp only
    split
    · rename_i name hseg
      rw [hseg] at cut
      refine marked 42 name (.inl rfl) (List.IsInfix.trans ?_ cut.isInfix)
      exact ⟨[91, 46, 46, 46], [], by simp⟩
    · rename_i name _ hseg
      rw [hseg] at cut
      exact marked 58 name (.inr rfl) ((List.suffix_cons 91 name).isInfix.trans cut.isInfix)
    · exact h.inside cut.isInfix

/-- The path of a route stands for itself in the generated table if that of its file does. -/
theorem routePath_verbatim {rel : Bytes} (h : Verbatim rel) : Verbatim (routePath rel) := by
  have empty : Verbatim [] := by decide
  have dir : Verbatim (fit 256 (dirOf rel)) := h.inside ((List.take_prefix _ _).isInfix.trans (dirOf_inside rel))
  have seg : Verbatim (segmentOf (stripC (baseOf rel).2)) :=
    segmentOf_verbatim (h.inside ((stripC_front _).isInfix.trans (baseOf_inside rel)))
  unfold routePath urlPath
  generalize fit 256 (dirOf rel) = d at dir ⊢
  generalize segmentOf (stripC (baseOf rel).2) = s at seg ⊢
  have mark : slash ≠ 34 ∧ slash ≠ 92 ∧ slash ≠ 10 ∧ slash ≠ 13 ∧ slash ≠ 63 := by decide
  split
  · decide
  · split
    · split
      · decide
      · exact (empty.glue dir mark).inside (List.take_prefix _ _).isInfix
    · refine Verbatim.inside ?_ (List.take_prefix _ _).isInfix
      split
      · rename_i none_
        rw [none_]
        exact empty.glue seg mark
      · change Verbatim ((slash :: d ++ [slash]) ++ s)
        rw [List.append_assoc]
        exact Verbatim.glue (a := slash :: d) (empty.glue dir mark) seg mark

end Cerco.RouteFiles
