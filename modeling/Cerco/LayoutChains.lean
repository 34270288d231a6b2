import Cerco.RoutePatterns
import Mathlib.Data.List.Infix

set_option autoImplicit false

/-!
# The layouts around a route

`compute_layout_chains` walks up from the directory of a route and keeps the layouts
it finds. `gen_routes` writes one function for the page and one for each layout, from
the inside out. The written functions are run here on any request state, with any
layouts and pages.
-/
namespace Cerco.LayoutChains
open Cerco.CString Cerco.SegmentPattern Cerco.RouteScan Cerco.RouteFiles Cerco.Router Cerco.RoutePatterns

def findLayout (s : Scan) (dir : Bytes) : Option Bytes :=
  (s.layouts.find? fun l => l.dir == dir).map fun l => fit 160 l.symbol

/-- The directories of the walk while there is room for them in `dirs`. -/
def walkUp : ℕ → Bytes → List Bytes
  | 0, _ => []
  | slots + 1, work =>
    work ::
      match strchr slash work.reverse with
      | some (_, up) => walkUp slots up.reverse
      | none => if work ≠ [] ∧ 0 < slots then [[]] else []

/-- `r->layouts` of a route in this directory, the outermost first. -/
def chainOf (s : Scan) (dir : Bytes) : List Bytes :=
  ((walkUp maxLayouts (fit 256 dir)).reverse.filterMap (findLayout s)).take maxLayouts

inductive FnName
  | page (i : ℕ)
  | chain (i level : ℕ)
deriving DecidableEq

inductive Stmt
  | raw (text : Bytes)
  | route (symbol : Bytes)
  | layout (symbol : Bytes) (children : FnName)

structure FnDef where
  name : FnName
  body : List Stmt

structure Row where
  method : Bytes
  path : Bytes
  fn : FnName

def openPage : Bytes := ascii "<!--cerco:page-->"
def closePage : Bytes := ascii "<!--cerco:/page-->"

def pageDef (i : ℕ) (r : RouteInfo) : FnDef :=
  ⟨.page i, [.raw openPage, .route r.symbol, .raw closePage]⟩

/-- The wrapper of the layout `k - 1` of the chain. -/
def chainDef (i : ℕ) (layouts : List Bytes) (k : ℕ) : FnDef :=
  let level := layouts.length - k + 1
  ⟨.chain i level,
    [.layout (layouts.getD (k - 1) []) (if level = 1 then .page i else .chain i (level - 1))]⟩

/-- The loop from this `k` down. -/
def chainDefs (i : ℕ) (layouts : List Bytes) : ℕ → List FnDef
  | 0 => []
  | k + 1 => chainDef i layouts (k + 1) :: chainDefs i layouts k

def routeDefs (s : Scan) (i : ℕ) (r : RouteInfo) : List FnDef :=
  pageDef i r :: chainDefs i (chainOf s r.dir) (chainOf s r.dir).length

def rowOf (s : Scan) (i : ℕ) (r : RouteInfo) : Row :=
  ⟨r.method, r.path,
    if chainOf s r.dir = [] then .page i else .chain i (chainOf s r.dir).length⟩

def genDefs (s : Scan) : ℕ → List RouteInfo → List FnDef
  | _, [] => []
  | i, r :: rs => routeDefs s i r ++ genDefs s (i + 1) rs

/-- `cerco_routes_table` -/
def genTable (s : Scan) : List Row := s.routes.zipIdx.map fun x => rowOf s x.2 x.1

/-- What the generated file calls; a layout gets its children as a function. -/
structure Env (σ : Type) (Layout : Type) where
  raw : Bytes → σ → σ
  route : Bytes → σ → σ
  layout : Layout → (σ → σ) → σ → σ

section
variable {σ : Type}

abbrev Fns (σ : Type) := FnName → Option (σ → σ)

def runStmt (env : Env σ Bytes) (fns : Fns σ) : Stmt → Option (σ → σ)
  | .raw text => some (env.raw text)
  | .route symbol => some (env.route symbol)
  | .layout symbol children => (fns children).map (env.layout symbol)

def runBody (env : Env σ Bytes) (fns : Fns σ) : List Stmt → Option (σ → σ)
  | [] => some id
  | st :: body => (runStmt env fns st).bind fun f => (runBody env fns body).map fun g => g ∘ f

def declare (fns : Fns σ) (name : FnName) (f : σ → σ) : Fns σ := fun n => if n = name then some f else fns n

/-- The file is read from the top: a function can only use those declared before it. -/
def load (env : Env σ Bytes) : List FnDef → Fns σ → Option (Fns σ)
  | [], fns => some fns
  | d :: ds, fns => (runBody env fns d.body).bind fun f => load env ds (declare fns d.name f)

def handler (env : Env σ Bytes) (s : Scan) (i : ℕ) : Option (σ → σ) :=
  (load env (genDefs s 0 s.routes) fun _ => none).bind fun fns =>
    (genTable s)[i]?.bind fun row => fns row.fn

def page {Layout : Type} (env : Env σ Layout) (symbol : Bytes) : σ → σ :=
  env.raw closePage ∘ env.route symbol ∘ env.raw openPage

def nest {Layout : Type} (env : Env σ Layout) (layouts : List Layout) (inner : σ → σ) : σ → σ :=
  layouts.foldr env.layout inner

end

/-- A file below `src/routes`. -/
structure SourcePath where
  dirs : List FileName
  file : FileName
deriving DecidableEq

def dirText (dirs : List FileName) : Bytes := joinSegs (dirs.map FileName.bytes)

def SourcePath.rel (p : SourcePath) : Bytes := joinSegs (p.dirs.map FileName.bytes ++ [p.file.bytes])

/-- The path is cut by no buffer of the scan. -/
def SourcePath.Fits (p : SourcePath) : Prop := (dirText p.dirs).length ≤ 255 ∧ p.file.bytes.length ≤ 255

def SourcePath.isLayout (p : SourcePath) : Bool := isLayoutFile p.rel

def rels (files : List SourcePath) : List Bytes := files.map SourcePath.rel

/-- The routes in the order of the table. -/
def routesOf (files : List SourcePath) : List SourcePath :=
  (files.filter fun p => isRoute p.rel).take maxRoutes

def hasLayout (files : List SourcePath) (dirs : List FileName) : Bool :=
  files.any fun p => p.isLayout && p.dirs == dirs

/-- The ancestors of a directory that contain a layout, the root first. -/
def layoutsAbove (files : List SourcePath) (dirs : List FileName) : List (List FileName) :=
  dirs.inits.filter (hasLayout files)

def symbolOf (dirs : List FileName) : Bytes := layoutSymbol (dirText dirs)

/-- The layout that is linked under each symbol is one that was compiled with this symbol. -/
def Links (files : List SourcePath) (link : Bytes → List FileName) : Prop :=
  ∀ p ∈ files, p.isLayout = true →
    hasLayout files (link (symbolOf p.dirs)) = true ∧ symbolOf (link (symbolOf p.dirs)) = symbolOf p.dirs

def Env.linked {σ : Type} (env : Env σ (List FileName)) (link : Bytes → List FileName) : Env σ Bytes :=
  ⟨env.raw, env.route, fun symbol => env.layout (link symbol)⟩

/-- The handler of a row runs the layouts above this directory around the page, whichever of the
layouts with one symbol is linked. -/
def Nested (files : List SourcePath) (s : Scan) (i : ℕ) (dirs : List FileName) : Prop :=
  ∀ (σ : Type) (env : Env σ (List FileName)) (link : Bytes → List FileName), Links files link →
    ∃ r, s.routes[i]? = some r ∧
      handler (env.linked link) s i = some (nest env (layoutsAbove files dirs) (page env r.symbol))

/-- No layout above the directory is out of the reach of the walk or shares its symbol with the
layout of another directory. -/
def OwnLayouts (files : List SourcePath) (dirs : List FileName) : Prop :=
  ∀ e ∈ dirs.inits, hasLayout files e = true → dirs.length < e.length + maxLayouts ∧
    ∀ q ∈ files, q.isLayout = true → symbolOf q.dirs = symbolOf e → q.dirs = e

instance (files : List SourcePath) (dirs : List FileName) : Decidable (OwnLayouts files dirs) :=
  inferInstanceAs (Decidable (∀ e ∈ dirs.inits, _ → _))

section
variable {σ : Type} (env : Env σ Bytes)

theorem load_append (ds es : List FnDef) (fns : Fns σ) :
    load env (ds ++ es) fns = (load env ds fns).bind (load env es) := by
  induction ds generalizing fns with
  | nil => rfl
  | cons d ds ih =>
    rw [List.cons_append, load, load]
    cases runBody env fns d.body with
    | none => rfl
    | some f => exact ih _

def FnName.index : FnName → ℕ
  | .page i => i
  | .chain i _ => i

def topFn (i : ℕ) : ℕ → FnName
  | 0 => .page i
  | level + 1 => .chain i (level + 1)

theorem declare_self (fns : Fns σ) (name : FnName) (f : σ → σ) : declare fns name f name = some f := if_pos rfl

theorem declare_other {fns : Fns σ} {name n : FnName} {f : σ → σ} (ne : n ≠ name) :
    declare fns name f n = fns n := if_neg ne

theorem load_chain (i : ℕ) (layouts : List Bytes) {k : ℕ} (le : k ≤ layouts.length) (inner : σ → σ)
    {fns : Fns σ} (inside : fns (topFn i (layouts.length - k)) = some (nest env (layouts.drop k) inner)) :
    ∃ fns', load env (chainDefs i layouts k) fns = some fns' ∧
      fns' (topFn i layouts.length) = some (nest env layouts inner) ∧
      ∀ n : FnName, n.index ≠ i → fns' n = fns n := by
  induction k generalizing fns with
  | zero => exact ⟨fns, rfl, inside, fun _ _ => rfl⟩
  | succ k ih =>
    have level : layouts.length - (k + 1) + 1 = layouts.length - k := by omega
    have children : (if layouts.length - (k + 1) + 1 = 1 then FnName.page i
        else .chain i (layouts.length - (k + 1) + 1 - 1)) = topFn i (layouts.length - (k + 1)) := by
      cases layouts.length - (k + 1) with
      | zero => rfl
      | succ n => exact if_neg (by omega)
    have name : FnName.chain i (layouts.length - (k + 1) + 1) = topFn i (layouts.length - k) := by
      rw [← level]
      rfl
    have here : layouts.drop k = layouts.getD k [] :: layouts.drop (k + 1) := by
      rw [List.drop_eq_getElem_cons le, List.getD_eq_getElem _ _ le]
    have body : runBody env fns (chainDef i layouts (k + 1)).body =
        some (nest env (layouts.drop k) inner) := by
      change (runStmt env fns (.layout (layouts.getD k []) _)).bind _ = _
      rw [children, runStmt, inside, here]
      rfl
    obtain ⟨fns', run, top, frame⟩ := ih (by omega)
      (declare_self fns (topFn i (layouts.length - k)) (nest env (layouts.drop k) inner))
    refine ⟨fns', ?_, top, ?_⟩
    · rw [chainDefs, load, body, Option.bind_some]
      change load env _ (declare fns (.chain i (layouts.length - (k + 1) + 1)) _) = _
      rw [name]
      exact run
    · intro n ne
      rw [frame n ne, declare_other]
      rintro rfl
      rw [← name] at ne
      exact ne rfl

theorem load_route (s : Scan) (i : ℕ) (r : RouteInfo) (fns : Fns σ) :
    ∃ fns', load env (routeDefs s i r) fns = some fns' ∧
      fns' (rowOf s i r).fn = some (nest env (chainOf s r.dir) (page env r.symbol)) ∧
      ∀ n : FnName, n.index ≠ i → fns' n = fns n := by
  have start : declare fns (.page i) (page env r.symbol)
      (topFn i ((chainOf s r.dir).length - (chainOf s r.dir).length)) =
        some (nest env ((chainOf s r.dir).drop (chainOf s r.dir).length) (page env r.symbol)) := by
    rw [Nat.sub_self, List.drop_length]
    exact declare_self _ _ _
  obtain ⟨fns', run, top, frame⟩ := load_chain env i (chainOf s r.dir) (Nat.le_refl _) _ start
  have fn : (rowOf s i r).fn = topFn i (chainOf s r.dir).length := by
    unfold rowOf
    cases chainOf s r.dir with
    | nil => rfl
    | cons l ls => rfl
  refine ⟨fns', run, by rw [fn]; exact top, ?_⟩
  intro n ne
  rw [frame n ne, declare_other]
  rintro rfl
  exact ne rfl

theorem load_genDefs (s : Scan) (rs : List RouteInfo) (i : ℕ) (fns : Fns σ) :
    ∃ fns', load env (genDefs s i rs) fns = some fns' ∧
      (∀ k r, rs[k]? = some r →
        fns' (rowOf s (i + k) r).fn = some (nest env (chainOf s r.dir) (page env r.symbol))) ∧
      ∀ n : FnName, n.index < i → fns' n = fns n := by
  induction rs generalizing i fns with
  | nil => exact ⟨fns, rfl, fun k r h => absurd h (by simp), fun _ _ => rfl⟩
  | cons r rs ih =>
    obtain ⟨mid, run, own, frame⟩ := load_route env s i r fns
    obtain ⟨fns', rest, others, frame'⟩ := ih (i + 1) mid
    refine ⟨fns', ?_, ?_, ?_⟩
    · rw [genDefs, load_append, run]
      exact rest
    · intro k q hk
      cases k with
      | zero =>
        obtain rfl := Option.some.inj hk
        rw [frame' _ ?_]
        · exact own
        · rw [rowOf]
          split <;> exact Nat.lt_succ_self i
      | succ k =>
        have at' := others k q hk
        rw [show i + (k + 1) = i + 1 + k by omega]
        exact at'
    · intro n lt
      rw [frame' n (by omega), frame n (by omega)]

theorem handler_nest {s : Scan} {i : ℕ} {r : RouteInfo} (h : s.routes[i]? = some r) :
    handler env s i = some (nest env (chainOf s r.dir) (page env r.symbol)) := by
  obtain ⟨fns, run, rows, _⟩ := load_genDefs env s s.routes 0 fun _ => none
  have row : (genTable s)[i]? = some (rowOf s i r) := by
    unfold genTable
    rw [List.getElem?_map, List.getElem?_zipIdx, h]
    simp
  have top := rows i r h
  rw [Nat.zero_add] at top
  rw [handler, run, row]
  exact top

end

theorem dirText_concat (ds : List FileName) (d : FileName) :
    dirText (ds ++ [d]) = if ds = [] then d.bytes else dirText ds ++ slash :: d.bytes := by
  unfold dirText
  rw [List.map_append, List.map_singleton, joinSegs_snoc]
  by_cases root : ds = []
  · rw [if_pos root, root]
    rfl
  · rw [if_neg root, if_neg (by simpa using root)]

theorem dirText_nil {ds : List FileName} : dirText ds = [] ↔ ds = [] := by
  cases ds with
  | nil => exact ⟨fun _ => rfl, fun _ => rfl⟩
  | cons d ds => exact ⟨fun h => absurd h (joinSegs_ne_nil d.nonempty _), fun h => by cases h⟩

theorem dirText_inj {ds es : List FileName} (h : dirText ds = dirText es) : ds = es := by
  have names : ∀ fs : List FileName, fs ≠ [] → cut slash (dirText fs) = fs.map FileName.bytes := by
    intro fs full
    obtain ⟨fs, f, rfl⟩ := List.eq_nil_or_concat' fs |>.resolve_left full
    unfold dirText
    rw [List.map_append, List.map_singleton]
    refine cut_joinSegs (fun t ht => ?_) f.nonempty
    rcases List.mem_append.mp ht with ht | ht
    · obtain ⟨g, _, rfl⟩ := List.mem_map.mp ht
      exact g.slashFree
    · rw [List.mem_singleton.mp ht]
      exact f.slashFree
  by_cases root : ds = []
  · subst root
    exact (dirText_nil.mp h.symm).symm
  · have other : es ≠ [] := by
      rintro rfl
      exact root (dirText_nil.mp h)
    have bytes : ds.map FileName.bytes = es.map FileName.bytes := by
      rw [← names ds root, ← names es other, h]
    refine List.map_injective_iff.mpr (fun f g e => ?_) bytes
    cases f
    cases g
    cases e
    rfl

/-- The walk takes the directory and its ancestors from the inside out, as far as the slots go. -/
theorem walkUp_eq (slots : ℕ) (dirs : List FileName) :
    walkUp slots (dirText dirs) = (dirs.inits.reverse.map dirText).take slots := by
  induction slots generalizing dirs with
  | zero => rfl
  | succ slots ih =>
    rw [walkUp]
    obtain rfl | ⟨ds, d, rfl⟩ := List.eq_nil_or_concat' dirs
    · have single : ([] : List FileName).inits.reverse.map dirText = [[]] := rfl
      rw [single, List.take_of_length_le (by simp)]
      rfl
    · have inits : (ds ++ [d]).inits.reverse = (ds ++ [d]) :: ds.inits.reverse := by
        rw [List.inits_append]
        simp
      rw [inits, List.map_cons, List.take_succ_cons, ← ih]
      congr 1
      have up := dirText_concat ds d
      by_cases root : ds = []
      · rw [if_pos root] at up
        have none : strchr slash (dirText (ds ++ [d])).reverse = none := by
          rw [up]
          exact strchr_none.mpr fun h => d.slashFree (List.mem_reverse.mp h)
        rw [none, root]
        cases slots with
        | zero => exact if_neg fun h => Nat.lt_irrefl 0 h.2
        | succ slots => exact if_pos ⟨d.nonempty, Nat.succ_pos slots⟩
      · rw [if_neg root] at up
        have cut : strchr slash (dirText (ds ++ [d])).reverse = some (d.bytes.reverse, (dirText ds).reverse) := by
          refine strchr_some.mpr ⟨?_, fun h => d.slashFree (List.mem_reverse.mp h)⟩
          rw [up, List.reverse_append, List.reverse_cons, List.append_assoc]
          rfl
        rw [cut]
        exact congrArg (walkUp slots) (List.reverse_reverse _)

def reached (dirs : List FileName) : List (List FileName) := dirs.inits.drop (dirs.length + 1 - maxLayouts)

theorem inits_split (dirs : List FileName) :
    dirs.inits = dirs.inits.take (dirs.length + 1 - maxLayouts) ++ reached dirs :=
  (List.take_append_drop _ _).symm

theorem mem_inits_take {dirs e : List FileName} {n : ℕ} (h : e ∈ dirs.inits.take n) : e.length < n := by
  obtain ⟨k, lt, rfl⟩ := List.mem_take_iff_getElem.mp h
  rw [List.getElem_inits, List.length_take]
  omega

theorem mem_reached {dirs e : List FileName} (h : e ∈ reached dirs) : dirs.length < e.length + maxLayouts := by
  obtain ⟨k, lt, rfl⟩ := List.mem_drop_iff_getElem.mp h
  rw [List.length_inits] at lt
  rw [List.getElem_inits, List.length_take]
  omega

theorem walkUp_reached (dirs : List FileName) :
    (walkUp maxLayouts (dirText dirs)).reverse = (reached dirs).map dirText := by
  rw [walkUp_eq, reached, ← List.map_take, ← List.map_reverse, List.take_reverse, List.reverse_reverse,
    List.length_inits]

section
variable {files : List SourcePath} {s : Scan}

theorem dirOf_source {p : SourcePath} (fits : p.Fits) : dirOf p.rel = dirText p.dirs := by
  have size : p.rel.length + 1 ≤ 512 := by
    unfold SourcePath.rel
    rw [joinSegs_snoc]
    split
    · exact Nat.succ_le_succ (fits.2.trans (by decide))
    · rw [List.length_append, List.length_cons]
      have dir : (joinSegs (p.dirs.map FileName.bytes)).length ≤ 255 := fits.1
      have file := fits.2
      omega
  unfold dirOf
  rw [fit_of_le size, SourcePath.rel, splitDir_joinSegs _ p.file.slashFree]
  rfl

theorem scan_layouts (scan : scanRoutes (rels files) = some s)
    (few : (files.filter SourcePath.isLayout).length ≤ maxLayouts) (fits : ∀ p ∈ files, p.Fits) :
    s.layouts = (files.filter SourcePath.isLayout).map fun p => ⟨dirText p.dirs, symbolOf p.dirs⟩ := by
  have found : (rels files).filter isLayoutFile = (files.filter SourcePath.isLayout).map SourcePath.rel :=
    List.filter_map
  rw [scanRoutes_layouts scan, found, ← List.map_take, List.map_map, List.take_of_length_le few]
  refine List.map_congr_left fun p hp => ?_
  have dir := dirOf_source (fits p (List.mem_filter.mp hp).1)
  have short : fit 256 (dirText p.dirs) = dirText p.dirs :=
    fit_of_le (Nat.succ_le_succ (fits p (List.mem_filter.mp hp).1).1)
  change layoutOf p.rel = _
  rw [layoutOf, dir, short]
  rfl

theorem hasLayout_iff {dirs : List FileName} :
    hasLayout files dirs = true ↔ ∃ p ∈ files, p.isLayout = true ∧ p.dirs = dirs := by
  simp [hasLayout]

theorem findLayout_eq (layouts : s.layouts =
      (files.filter SourcePath.isLayout).map fun p => ⟨dirText p.dirs, symbolOf p.dirs⟩)
    (dirs : List FileName) :
    findLayout s (dirText dirs) = if hasLayout files dirs then some (symbolOf dirs) else none := by
  have symbol : fit 160 (symbolOf dirs) = symbolOf dirs := by
    refine fit_of_le ?_
    have le : (symbolOf dirs).length ≤ 159 := List.length_take_le _ _
    omega
  unfold findLayout
  rw [layouts, List.find?_map]
  cases found : (files.filter SourcePath.isLayout).find?
      ((fun l : LayoutInfo => l.dir == dirText dirs) ∘ fun p => ⟨dirText p.dirs, symbolOf p.dirs⟩) with
  | none =>
    have empty : ¬ hasLayout files dirs = true := by
      intro layout
      obtain ⟨p, hp, isLayout, rfl⟩ := hasLayout_iff.mp layout
      have no := List.find?_eq_none.mp found p (List.mem_filter.mpr ⟨hp, isLayout⟩)
      exact no (beq_self_eq_true (dirText p.dirs))
    rw [if_neg empty]
    rfl
  | some p =>
    obtain ⟨hp, isLayout⟩ := List.mem_filter.mp (List.mem_of_find?_eq_some found)
    have same : p.dirs = dirs := dirText_inj (by simpa using List.find?_some found)
    rw [if_pos (hasLayout_iff.mpr ⟨p, hp, isLayout, same⟩), Option.map_some, Option.map_some, same]
    exact congrArg some symbol

theorem chainOf_eq (layouts : s.layouts =
      (files.filter SourcePath.isLayout).map fun p => ⟨dirText p.dirs, symbolOf p.dirs⟩)
    {dirs : List FileName} (short : (dirText dirs).length ≤ 255) :
    chainOf s (dirText dirs) = ((reached dirs).filter (hasLayout files)).map symbolOf := by
  have found : (findLayout s ∘ dirText) =
      fun e => if hasLayout files e then some (symbolOf e) else none :=
    funext fun e => findLayout_eq layouts e
  have size : ((reached dirs).filter (hasLayout files)).length ≤ maxLayouts := by
    refine (List.length_filter_le _ _).trans ?_
    rw [reached, List.length_drop, List.length_inits]
    omega
  have collect : ∀ es : List (List FileName),
      es.filterMap (fun e => if hasLayout files e then some (symbolOf e) else none) =
        (es.filter (hasLayout files)).map symbolOf := by
    intro es
    induction es with
    | nil => rfl
    | cons e es ih =>
      rw [List.filterMap_cons, List.filter_cons, ih]
      cases hasLayout files e <;> rfl
  unfold chainOf
  rw [fit_of_le (Nat.succ_le_succ short), walkUp_reached, List.filterMap_map, found, collect,
    List.take_of_length_le (by rw [List.length_map]; exact size)]

theorem route_of_file (scan : scanRoutes (rels files) = some s) (fits : ∀ p ∈ files, p.Fits) {i : ℕ}
    {p : SourcePath} (hp : (routesOf files)[i]? = some p) :
    ∃ r, s.routes[i]? = some r ∧ r.dir = dirText p.dirs ∧ p.Fits := by
  have mem : p ∈ files := List.mem_of_mem_filter (List.mem_of_mem_take (List.mem_of_getElem? hp))
  have table : tableFiles (rels files) = (routesOf files).map SourcePath.rel := by
    unfold tableFiles routeFiles routesOf rels
    rw [List.filter_map, ← List.map_take]
    rfl
  have dirs := congrArg (·[i]?) (scanRoutes_dirs scan)
  simp only [List.getElem?_map, table, hp, Option.map_some] at dirs
  obtain ⟨r, hr, dir⟩ := Option.map_eq_some_iff.mp dirs
  refine ⟨r, hr, ?_, fits p mem⟩
  rw [dir, dirOf_source (fits p mem)]
  exact fit_of_le (Nat.succ_le_succ (fits p mem).1)

end

theorem nest_linked {σ : Type} (env : Env σ (List FileName)) (link : Bytes → List FileName)
    (symbols : List Bytes) (inner : σ → σ) :
    nest (env.linked link) symbols inner = nest env (symbols.map link) inner := by
  induction symbols with
  | nil => rfl
  | cons symbol symbols ih => exact congrArg (env.layout (link symbol)) ih

def noting : Env (List (List FileName)) (List FileName) :=
  ⟨fun _ => id, fun _ => id, fun dirs children seen => children (seen ++ [dirs])⟩

theorem nest_noting (layouts seen : List (List FileName)) : nest noting layouts id seen = seen ++ layouts := by
  induction layouts generalizing seen with
  | nil => exact (List.append_nil seen).symm
  | cons e layouts ih =>
    change nest noting layouts id (seen ++ [e]) = _
    rw [ih, List.append_assoc]
    rfl

def firstLink (files : List SourcePath) (symbol : Bytes) : List FileName :=
  (((files.filter SourcePath.isLayout).map SourcePath.dirs).find? fun e => symbolOf e == symbol).getD []

def preferLink (files : List SourcePath) (dirs : List FileName) (symbol : Bytes) : List FileName :=
  if symbol = symbolOf dirs then dirs else firstLink files symbol

theorem firstLink_links (files : List SourcePath) : Links files (firstLink files) := by
  intro p hp layout
  unfold firstLink
  cases found : ((files.filter SourcePath.isLayout).map SourcePath.dirs).find?
      fun e => symbolOf e == symbolOf p.dirs with
  | none =>
    have no := List.find?_eq_none.mp found p.dirs
      (List.mem_map_of_mem (List.mem_filter.mpr ⟨hp, layout⟩))
    exact absurd (beq_self_eq_true _) no
  | some e =>
    obtain ⟨q, hq, rfl⟩ := List.mem_map.mp (List.mem_of_find?_eq_some found)
    obtain ⟨mem, isLayout⟩ := List.mem_filter.mp hq
    exact ⟨hasLayout_iff.mpr ⟨q, mem, isLayout, rfl⟩, by simpa using List.find?_some found⟩

theorem preferLink_links {files : List SourcePath} {dirs : List FileName}
    (layout : hasLayout files dirs = true) : Links files (preferLink files dirs) := by
  intro p hp isLayout
  unfold preferLink
  split
  · rename_i same
    exact ⟨layout, same.symm⟩
  · exact firstLink_links files p hp isLayout

section
variable {files : List SourcePath} {s : Scan} {i : ℕ} {p : SourcePath}

theorem handler_reached (scan : scanRoutes (rels files) = some s)
    (few : (files.filter SourcePath.isLayout).length ≤ maxLayouts) (fits : ∀ p ∈ files, p.Fits)
    (hp : (routesOf files)[i]? = some p) {σ : Type} (env : Env σ (List FileName))
    (link : Bytes → List FileName) :
    ∃ r, s.routes[i]? = some r ∧ handler (env.linked link) s i =
      some (nest env (((reached p.dirs).filter (hasLayout files)).map (link ∘ symbolOf))
        (page env r.symbol)) := by
  obtain ⟨r, hr, dir, short⟩ := route_of_file scan fits hp
  refine ⟨r, hr, ?_⟩
  rw [handler_nest _ hr, dir, chainOf_eq (scan_layouts scan few fits) short.1, nest_linked, List.map_map]
  rfl

theorem Nested.own (nested : Nested files s i p.dirs) (scan : scanRoutes (rels files) = some s)
    (few : (files.filter SourcePath.isLayout).length ≤ maxLayouts) (fits : ∀ p ∈ files, p.Fits)
    (hp : (routesOf files)[i]? = some p) : OwnLayouts files p.dirs := by
  have seen : ∀ link, Links files link →
      ((reached p.dirs).filter (hasLayout files)).map (link ∘ symbolOf) = layoutsAbove files p.dirs := by
    intro link links
    obtain ⟨r, hr, run⟩ := handler_reached scan few fits hp noting link
    obtain ⟨r', hr', run'⟩ := nested _ noting link links
    have same := congrFun (Option.some.inj (run.symm.trans run')) []
    have list : ∀ (symbol : Bytes) (es : List (List FileName)), nest noting es (page noting symbol) [] = es :=
      fun symbol es => nest_noting es []
    rw [list, list] at same
    exact same
  have split : layoutsAbove files p.dirs =
      (p.dirs.inits.take (p.dirs.length + 1 - maxLayouts)).filter (hasLayout files) ++
        (reached p.dirs).filter (hasLayout files) := by
    rw [← List.filter_append, ← inits_split]
    rfl
  have outside : (p.dirs.inits.take (p.dirs.length + 1 - maxLayouts)).filter (hasLayout files) = [] := by
    have size := congrArg List.length (seen _ (firstLink_links files))
    rw [split, List.length_map, List.length_append] at size
    exact List.length_eq_zero_iff.mp (by omega)
  have within : layoutsAbove files p.dirs = (reached p.dirs).filter (hasLayout files) := by
    rw [split, outside, List.nil_append]
  intro e he layout
  have mem : e ∈ (reached p.dirs).filter (hasLayout files) := by
    rw [← within]
    exact List.mem_filter.mpr ⟨he, layout⟩
  refine ⟨mem_reached (List.mem_filter.mp mem).1, fun q hq isLayout same => ?_⟩
  have fixed := seen _ (preferLink_links (hasLayout_iff.mpr ⟨q, hq, isLayout, rfl⟩))
  rw [within] at fixed
  have here : preferLink files q.dirs (symbolOf e) = e :=
    List.map_inj_left.mp (fixed.trans (List.map_id _).symm) e mem
  rw [preferLink, if_pos same.symm] at here
  exact here

theorem OwnLayouts.nested (own : OwnLayouts files p.dirs) (scan : scanRoutes (rels files) = some s)
    (few : (files.filter SourcePath.isLayout).length ≤ maxLayouts) (fits : ∀ p ∈ files, p.Fits)
    (hp : (routesOf files)[i]? = some p) : Nested files s i p.dirs := by
  intro σ env link links
  obtain ⟨r, hr, run⟩ := handler_reached scan few fits hp env link
  refine ⟨r, hr, ?_⟩
  have outside : (p.dirs.inits.take (p.dirs.length + 1 - maxLayouts)).filter (hasLayout files) = [] := by
    refine List.filter_eq_nil_iff.mpr fun e he layout => ?_
    have far := mem_inits_take he
    have near := (own e (List.mem_of_mem_take he) layout).1
    omega
  have within : layoutsAbove files p.dirs = (reached p.dirs).filter (hasLayout files) := by
    unfold layoutsAbove
    rw [inits_split, List.filter_append, outside, List.nil_append]
  have linked : (layoutsAbove files p.dirs).map (link ∘ symbolOf) = layoutsAbove files p.dirs := by
    refine (List.map_congr_left fun e he => ?_).trans (List.map_id _)
    obtain ⟨above, layout⟩ := List.mem_filter.mp he
    obtain ⟨q, hq, isLayout, rfl⟩ := hasLayout_iff.mp layout
    obtain ⟨there, same⟩ := links q hq isLayout
    obtain ⟨q', hq', isLayout', e'⟩ := hasLayout_iff.mp there
    rw [← e'] at same
    have one := (own q.dirs above layout).2 q' hq' isLayout' same
    rw [Function.comp_apply, ← e', one]
    rfl
  rw [run, ← within, linked]

end

/-- The handler of a route nests the layouts above its directory exactly if the walk reaches them
all and none shares its symbol with the layout of another directory. -/
theorem layouts_nested_iff {files : List SourcePath} {s : Scan} {i : ℕ} {p : SourcePath}
    (scan : scanRoutes (rels files) = some s)
    (few : (files.filter SourcePath.isLayout).length ≤ maxLayouts) (fits : ∀ p ∈ files, p.Fits)
    (hp : (routesOf files)[i]? = some p) : Nested files s i p.dirs ↔ OwnLayouts files p.dirs :=
  ⟨fun nested => nested.own scan few fits hp, fun own => own.nested scan few fits hp⟩

def layoutName : FileName := ⟨ascii "layout.c", by decide, by decide, by decide⟩

def pageName : FileName := ⟨ascii "page.c", by decide, by decide, by decide⟩

def guideName : FileName := ⟨ascii "guide", by decide, by decide, by decide⟩

def stepsName : FileName := ⟨ascii "steps", by decide, by decide, by decide⟩

/-- Layouts at the root and in `guide/steps`, and a route there. -/
def guideFiles : List SourcePath :=
  [⟨[guideName, stepsName], pageName⟩, ⟨[guideName, stepsName], layoutName⟩, ⟨[], layoutName⟩]

def scanOf (files : List SourcePath) : Scan := (scanRoutes (rels files)).getD ⟨[], []⟩

theorem layouts_nested_guide :
    Nested guideFiles (scanOf guideFiles) 0 [guideName, stepsName] ∧
      layoutsAbove guideFiles [guideName, stepsName] = [[], [guideName, stepsName]] := by
  have scan : scanRoutes (rels guideFiles) = some (scanOf guideFiles) := by decide +kernel
  have few : (guideFiles.filter SourcePath.isLayout).length ≤ maxLayouts := by decide +kernel
  have fits : ∀ p ∈ guideFiles, p.Fits := by
    unfold SourcePath.Fits
    decide +kernel
  have route : (routesOf guideFiles)[0]? = some ⟨[guideName, stepsName], pageName⟩ := by decide +kernel
  exact ⟨(layouts_nested_iff scan few fits route).mpr (by decide +kernel), by decide +kernel⟩

def dashName : FileName := ⟨ascii "my-app", by decide, by decide, by decide⟩

def lineName : FileName := ⟨ascii "my_app", by decide, by decide, by decide⟩

/-- Layouts in `my-app` and `my_app`, and a route in the second. -/
def appFiles : List SourcePath :=
  [⟨[dashName], layoutName⟩, ⟨[lineName], pageName⟩, ⟨[lineName], layoutName⟩]

/-- A route can get the layout of another directory. -/
theorem layout_of_other_directory : ¬ ∀ (files : List SourcePath) (s : Scan) (i : ℕ) (p : SourcePath),
    scanRoutes (rels files) = some s → (files.filter SourcePath.isLayout).length ≤ maxLayouts →
      (∀ p ∈ files, p.Fits) → (routesOf files)[i]? = some p → Nested files s i p.dirs := by
  intro all
  have scan : scanRoutes (rels appFiles) = some (scanOf appFiles) := by decide +kernel
  have few : (appFiles.filter SourcePath.isLayout).length ≤ maxLayouts := by decide +kernel
  have fits : ∀ p ∈ appFiles, p.Fits := by
    unfold SourcePath.Fits
    decide +kernel
  have route : (routesOf appFiles)[0]? = some ⟨[lineName], pageName⟩ := by decide +kernel
  have own := (all appFiles (scanOf appFiles) 0 _ scan few fits route).own scan few fits route
  exact absurd own (by decide +kernel)

end Cerco.LayoutChains
