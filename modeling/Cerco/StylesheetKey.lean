import Cerco.FileTree
import Cerco.Sha256

set_option autoImplicit false

/-!
# The key of the cached stylesheet

A build hashes the css entry and each file below `src`, its path and its content one
right behind the other.
-/
namespace Cerco.StylesheetKey
open Cerco.CString Cerco.FileTree Cerco.LayoutChains Cerco.RouteFiles
open Cerco.Sha256 (Sha256Ctx sha256Init sha256Update sha256Final sha256_streaming digest hexText)

def srcName : FileName := ⟨ascii "src", by decide, by decide, by decide⟩
def stylesName : FileName := ⟨ascii "styles.css", by decide, by decide, by decide⟩
def routesName : FileName := ⟨ascii "routes", by decide, by decide, by decide⟩

structure Project where
  root : Bytes
  tree : Tree
  uncut : tree.Uncut root
  css : Bytes
  entry : ⟨[srcName, stylesName], css⟩ ∈ tree.files

/-- `css_hash_cb` takes the file. -/
def isScanned (rel : Bytes) : Bool := (ascii "src/").isPrefixOf rel && rel != ascii "src/styles.css"

def Project.scanned (p : Project) : List TreeFile := (p.tree.walk p.root).filter fun f => isScanned f.rel

def cssChunks (p : Project) : List Bytes := p.css :: p.scanned.flatMap fun f => [f.rel, f.content]

/-- `hexk`; `c` is the memory of the local context. -/
def cssKey (c : Sha256Ctx) (p : Project) : Option Bytes :=
  (sha256Final ((cssChunks p).foldl sha256Update (sha256Init c))).map hexText

def keyStream (p : Project) : Bytes := (cssChunks p).flatten

/-- The list of relative paths and contents. -/
def Project.sources (p : Project) : List (Bytes × Bytes) := p.scanned.map fun f => (f.rel, f.content)

/-- Whatever has the stream of this project has its css entry and its sources. -/
def Identified (p : Project) : Prop := ∀ q, keyStream q = keyStream p → q.css = p.css ∧ q.sources = p.sources

/-- Some part of the text is a path of a file right below `src`. -/
def NamesSource (text : Bytes) : Prop := ∃ n : FileName, IsReal n ∧ (ascii "src/" ++ n.bytes) <:+: text

theorem cssKey_stream (c : Sha256Ctx) {p : Project} (short : (keyStream p).length < 2 ^ 61) :
    cssKey c p = some (hexText (digest (keyStream p))) := by
  rw [cssKey, (sha256_streaming c c (cssChunks p) short).1]
  rfl

theorem keyStream_eq (p : Project) : keyStream p = p.css ++ p.sources.flatMap fun e => e.1 ++ e.2 := by
  have parts : ∀ fs : List TreeFile, (fs.flatMap fun f => [f.rel, f.content]).flatten =
      (fs.map fun f => (f.rel, f.content)).flatMap fun e => e.1 ++ e.2 := by
    intro fs
    induction fs with
    | nil => rfl
    | cons f fs ih => simp [ih]
  rw [keyStream, cssChunks, List.flatten_cons, parts]
  rfl

theorem sources_nil {p : Project} : p.sources = [] ↔ ∀ f ∈ p.tree.walk p.root, isScanned f.rel = false := by
  simp [Project.sources, Project.scanned, List.filter_eq_nil_iff]

theorem scanned_names {p : Project} {f : TreeFile} (h : f ∈ p.scanned) :
    ∃ n : FileName, IsReal n ∧ (ascii "src/" ++ n.bytes) <+: f.rel := by
  obtain ⟨inWalk, taken⟩ := List.mem_filter.mp h
  rw [isScanned, Bool.and_eq_true, List.isPrefixOf_iff_prefix] at taken
  obtain ⟨d, e, ds, path, name⟩ := dirText_front srcName.slashFree (show srcName.bytes ++ [slash] <+: dirText f.path from
    taken.1)
  have mem : e ∈ f.path := by rw [path]; exact List.mem_cons_of_mem _ List.mem_cons_self
  refine ⟨e, p.tree.real f (mem_walk inWalk) e mem, ?_⟩
  rw [TreeFile.rel, path, dirText_cons, name]
  exact (List.prefix_append_right_inj (ascii "src/")).mpr (name_front e ds)

structure SrcFiles where
  entries : List (FileName × Bytes)
  css : Bytes
  distinct : (entries.map Prod.fst).Nodup
  real : ∀ e ∈ entries, IsReal e.1
  short : ∀ e ∈ entries, e.1.bytes.length ≤ 255
  noFolder : ∀ e ∈ entries, e.1 ≠ routesName
  entry : (stylesName, css) ∈ entries

def SrcFiles.files (s : SrcFiles) : List TreeFile := s.entries.map fun e => ⟨[srcName, e.1], e.2⟩

theorem SrcFiles.paths (s : SrcFiles) {p : List FileName}
    (h : p ∈ s.files.map TreeFile.path ++ [[srcName, routesName]]) :
    ∃ n : FileName, p = [srcName, n] ∧ n.bytes.length ≤ 255 := by
  rcases List.mem_append.mp h with file | folder
  · obtain ⟨f, inFiles, rfl⟩ := List.mem_map.mp file
    obtain ⟨e, inEntries, rfl⟩ := List.mem_map.mp inFiles
    exact ⟨e.1, rfl, s.short e inEntries⟩
  · exact ⟨routesName, List.mem_singleton.mp folder, by decide⟩

def SrcFiles.tree (s : SrcFiles) : Tree where
  files := s.files
  folders := [[srcName, routesName]]
  real := by
    intro f hf n hn
    obtain ⟨e, he, rfl⟩ := List.mem_map.mp hf
    rcases List.mem_cons.mp hn with rfl | hn
    · decide
    · rw [List.mem_singleton.mp hn]
      exact s.real e he
  below := by
    intro f hf
    obtain ⟨e, -, rfl⟩ := List.mem_map.mp hf
    exact List.cons_ne_nil _ _
  distinct := by
    have inj : Function.Injective fun n : FileName => [srcName, n] := fun _ _ same => by simpa using same
    have paths : s.files.map TreeFile.path = (s.entries.map Prod.fst).map fun n => [srcName, n] := by
      rw [SrcFiles.files, List.map_map, List.map_map]
      rfl
    rw [paths]
    exact List.Pairwise.map _ (fun _ _ ne same => ne (inj same)) s.distinct
  leaves := by
    intro f hf p hp below
    obtain ⟨n, file, -⟩ := s.paths (List.mem_append_left _ (List.mem_map_of_mem hf))
    obtain ⟨m, other, -⟩ := s.paths hp
    rw [file, other] at below ⊢
    exact below.eq_of_length rfl

def SrcFiles.project (s : SrcFiles) : Project where
  root := []
  tree := s.tree
  uncut := uncut_short fun p hp q below => by
    obtain ⟨n, rfl, short⟩ := s.paths hp
    have all : ∀ q ∈ [srcName, n].inits, (dirText q).length ≤ 259 := by
      have single : dirText [srcName, n] = ascii "src/" ++ n.bytes := dirText_cons srcName n []
      intro q hq
      simp only [List.inits, List.map_cons, List.map_nil, List.mem_cons, List.not_mem_nil, or_false] at hq
      rcases hq with rfl | rfl | rfl
      · decide
      · decide
      · rw [single, List.length_append]
        exact Nat.add_le_add_left short 4
    have bound := all q ((List.mem_inits _ _).mpr below)
    simp only [fitsWalk, List.length_nil, decide_eq_true_eq]
    omega
  css := s.css
  entry := List.mem_map.mpr ⟨(stylesName, s.css), s.entry, rfl⟩

theorem SrcFiles.sources_eq (s : SrcFiles) : s.project.sources =
    (s.entries.filter fun e => e.1 != stylesName).map fun e => (ascii "src/" ++ e.1.bytes, e.2) := by
  have all : s.project.tree.walk s.project.root = s.files := by
    refine List.filter_eq_self.mpr fun f hf => ?_
    obtain ⟨e, he, rfl⟩ := List.mem_map.mp hf
    have short := s.short e he
    have fits : fitsWalk [] [srcName, e.1] = true := by
      rw [fitsWalk, dirText_cons, decide_eq_true_eq]
      simp only [List.length_nil, List.length_append, List.length_cons]
      change 0 + 1 + (3 + (e.1.bytes.length + 1)) ≤ 1023
      omega
    change (!([srcName].any walkPruned) && fitsWalk [] [srcName, e.1]) = true
    rw [fits]
    decide
  have taken : ∀ e : FileName × Bytes, isScanned (TreeFile.rel ⟨[srcName, e.1], e.2⟩) = (e.1 != stylesName) := by
    intro e
    have rel : TreeFile.rel ⟨[srcName, e.1], e.2⟩ = ascii "src/" ++ e.1.bytes := dirText_cons srcName e.1 []
    rw [isScanned, rel, List.isPrefixOf_iff_prefix.mpr (List.prefix_append _ _), Bool.true_and]
    by_cases styles : e.1 = stylesName
    · rw [styles]
      decide
    · rw [bne_iff_ne.mpr styles, bne_iff_ne]
      intro same
      have bytes : e.1.bytes = stylesName.bytes := List.append_cancel_left (same.trans (by decide))
      apply styles
      cases h : e.1
      rw [h] at bytes
      cases bytes
      rfl
  rw [Project.sources, Project.scanned, all, SrcFiles.files, List.filter_map, List.map_map]
  refine (congrArg _ (List.filter_congr fun e _ => taken e)).trans (List.map_congr_left fun e _ => ?_)
  exact congrArg (·, e.2) (dirText_cons srcName e.1 [])

def bareProject (css : Bytes) : Project :=
  SrcFiles.project
    { entries := [(stylesName, css)]
      css := css
      distinct := List.pairwise_singleton _ _
      real := by intro e he; rw [List.mem_singleton.mp he]; change IsReal stylesName; decide
      short := by intro e he; rw [List.mem_singleton.mp he]; change stylesName.bytes.length ≤ 255; decide
      noFolder := by intro e he; rw [List.mem_singleton.mp he]; change stylesName ≠ routesName; decide
      entry := List.mem_singleton.mpr rfl }

theorem bareProject_sources (css : Bytes) : (bareProject css).sources = [] := by
  rw [bareProject, SrcFiles.sources_eq, List.filter_cons_of_neg (by simp)]
  rfl

theorem bareProject_stream (css : Bytes) : keyStream (bareProject css) = css := by
  rw [keyStream_eq, bareProject_sources]
  exact List.append_nil css

def pairProject (css : Bytes) (n : FileName) (content : Bytes) (real : IsReal n) (short : n.bytes.length ≤ 5) :
    Project :=
  have styles : n ≠ stylesName := fun same => absurd short (by rw [same]; decide)
  have routes : n ≠ routesName := fun same => absurd short (by rw [same]; decide)
  have each : ∀ e ∈ [(stylesName, css), (n, content)], e = (stylesName, css) ∨ e = (n, content) := fun e he => by
    simpa using he
  SrcFiles.project
    { entries := [(stylesName, css), (n, content)]
      css := css
      distinct := by simpa using styles.symm
      real := by
        intro e he
        rcases each e he with rfl | rfl
        · change IsReal stylesName
          decide
        · exact real
      short := by
        intro e he
        rcases each e he with rfl | rfl
        · change stylesName.bytes.length ≤ 255
          decide
        · exact short.trans (by decide)
      noFolder := by
        intro e he
        rcases each e he with rfl | rfl
        · change stylesName ≠ routesName
          decide
        · exact routes
      entry := List.mem_cons_self }

theorem pairProject_sources {css : Bytes} {n : FileName} {content : Bytes} (real : IsReal n)
    (short : n.bytes.length ≤ 5) :
    (pairProject css n content real short).sources = [(ascii "src/" ++ n.bytes, content)] := by
  have styles : n ≠ stylesName := fun same => absurd short (by rw [same]; decide)
  rw [pairProject, SrcFiles.sources_eq, List.filter_cons_of_neg (by simp)]
  rw [List.filter_cons_of_pos (p := fun e : FileName × Bytes => e.1 != stylesName) (bne_iff_ne.mpr styles)]
  rfl

theorem pairProject_stream {css : Bytes} {n : FileName} {content : Bytes} (real : IsReal n)
    (short : n.bytes.length ≤ 5) :
    keyStream (pairProject css n content real short) = css ++ (ascii "src/" ++ n.bytes ++ content) := by
  rw [keyStream_eq, pairProject_sources]
  exact congrArg (css ++ ·) (List.append_nil _)

def shortName (n : FileName) : FileName where
  bytes := n.bytes.take 3
  nonempty := by
    rw [Ne, List.take_eq_nil_iff]
    exact fun h => h.elim (by decide) n.nonempty
  nulFree := fun h => n.nulFree (List.mem_of_mem_take h)
  slashFree := fun h => n.slashFree (List.mem_of_mem_take h)

theorem shortName_real {n : FileName} (h : IsReal n) : IsReal (shortName n) := by
  have whole : ∀ dots : Bytes, dots.length < 3 → (shortName n).bytes = dots → n.bytes = dots := by
    intro dots few same
    have len : (n.bytes.take 3).length = dots.length := congrArg List.length same
    rw [List.length_take] at len
    rw [← same]
    exact (List.take_of_length_le (by omega)).symm
  exact ⟨fun same => h.1 (whole _ (by decide) same), fun same => h.2 (whole _ (by decide) same)⟩

theorem identified_of_bare {p : Project} (none : p.sources = []) (silent : ¬ NamesSource p.css) : Identified p := by
  have stream : keyStream p = p.css := by
    rw [keyStream_eq, none]
    exact List.append_nil _
  intro q same
  rw [stream] at same
  have bare : q.sources = [] := by
    rw [sources_nil]
    intro f inWalk
    by_contra taken
    have scanned : f ∈ q.scanned := List.mem_filter.mpr ⟨inWalk, by simpa using taken⟩
    obtain ⟨n, real, named⟩ := scanned_names scanned
    apply silent
    refine ⟨n, real, named.isInfix.trans ?_⟩
    rw [← same]
    exact List.infix_of_mem_flatten (List.mem_cons_of_mem _
      (List.mem_flatMap.mpr ⟨f, scanned, List.mem_cons_self⟩))
  refine ⟨?_, bare.trans none.symm⟩
  rw [keyStream_eq, bare] at same
  exact (List.append_nil _).symm.trans same

/-- The key of a project identifies its css entry and its sources exactly when there are
no sources and the css entry does not contain the path of one. -/
theorem key_identifies_iff (p : Project) :
    Identified p ↔ (∀ f ∈ p.tree.walk p.root, isScanned f.rel = false) ∧ ¬ NamesSource p.css := by
  constructor
  · intro identified
    have none : p.sources = [] := by
      rw [← (identified (bareProject (keyStream p)) (bareProject_stream _)).2]
      exact bareProject_sources _
    refine ⟨sources_nil.mp none, ?_⟩
    rintro ⟨n, real, a, b, css⟩
    have short : (shortName n).bytes.length ≤ 5 := (List.length_take_le 3 n.bytes).trans (by decide)
    have stream : keyStream (pairProject a (shortName n) (n.bytes.drop 3 ++ b) (shortName_real real) short) =
        keyStream p := by
      rw [pairProject_stream, keyStream_eq, none, List.flatMap_nil, List.append_nil, ← css]
      change a ++ (ascii "src/" ++ n.bytes.take 3 ++ (n.bytes.drop 3 ++ b)) = _
      simp only [List.append_assoc]
      rw [← List.append_assoc (n.bytes.take 3), List.take_append_drop]
    have other := (identified _ stream).2
    rw [none, pairProject_sources] at other
    cases other
  · rintro ⟨none, silent⟩
    exact identified_of_bare (sources_nil.mpr none) silent

def jsName : FileName := ⟨ascii "a.js", by decide, by decide, by decide⟩
def jsxName : FileName := ⟨ascii "a.jsx", by decide, by decide, by decide⟩

/-- `src/a.js` with `x//` in it, and `src/a.jsx` with `//`. -/
theorem two_sources_one_key : ∃ p q : Project, keyStream p = keyStream q ∧ (∀ c, cssKey c p = cssKey c q) ∧
    p.css = q.css ∧ p.sources = [(ascii "src/a.js", ascii "x//")] ∧
    q.sources = [(ascii "src/a.jsx", ascii "//")] := by
  have js : IsReal jsName := by decide
  have jsx : IsReal jsxName := by decide
  have sameStream : keyStream (pairProject [] jsName (ascii "x//") js (by decide)) =
      keyStream (pairProject [] jsxName (ascii "//") jsx (by decide)) := by
    rw [pairProject_stream, pairProject_stream]
    decide
  refine ⟨_, _, sameStream, fun c => ?_, rfl, pairProject_sources js _, pairProject_sources jsx _⟩
  have short : (keyStream (pairProject [] jsName (ascii "x//") js (by decide))).length < 2 ^ 61 := by
    rw [pairProject_stream]
    decide
  rw [cssKey_stream c short, sameStream, cssKey_stream c (sameStream ▸ short)]

end Cerco.StylesheetKey
