import Cerco.RouteFiles
import Mathlib.Data.List.Forall2

set_option autoImplicit false

/-!
# From the components of a file path to a pattern

`scan_cb` rewrites the path of a file as text, and `router_init` cuts the result
into segments again. What the components are meant to match is stated on its own.
-/
namespace Cerco.RoutePatterns
open Cerco.Alloc Cerco.CString Cerco.Request Cerco.Router Cerco.RouteFiles Cerco.SegmentPattern
open Cerco.RouteScan

/-- The path of `dirs/stem.c`. -/
def relOf (dirs : List FileName) (stem : Bytes) : Bytes :=
  joinSegs (dirs.map FileName.bytes ++ [stem ++ ascii ".c"])

/-- A file that `scan_cb` takes for a route. The stem is what stands before the extension. What `gen_routes` prints
of the path, the compiler reads back as it is. -/
structure RouteFile where
  dirs : List FileName
  stem : Bytes
  nulFree : 0 ∉ stem
  slashFree : slash ∉ stem
  short : (relOf dirs stem).length ≤ 255
  notLayout : isLayout (relOf dirs stem) = false
  notPage : (baseOf (relOf dirs stem)).2 ≠ ascii "404"
  verbatim : Verbatim (relOf dirs stem)

def RouteFile.rel (f : RouteFile) : Bytes := relOf f.dirs f.stem

/-- The stem without the method suffix. -/
def RouteFile.name (f : RouteFile) : Bytes := (methodSuffix f.stem).2

inductive Comp
  | plain (text : Bytes)
  | one (x : Bytes)
  | rest (x : Bytes)
deriving DecidableEq

/-- The text between `[` and `]`. -/
def inBrackets : Bytes → Option Bytes
  | 91 :: s => if s.getLast? = some 93 then some s.dropLast else none
  | _ => none

def dirComp (dir : Bytes) : Comp :=
  match inBrackets dir with
  | some x => .one x
  | none => .plain dir

/-- The last component: `index` stands for nothing, `[...x]` for the remainder. -/
def nameComps (name : Bytes) : List Comp :=
  if name = ascii "index" then []
  else
    match inBrackets name with
    | some (46 :: 46 :: 46 :: c :: x) => [.rest (c :: x)]
    | some x => [.one x]
    | none => [.plain name]

def RouteFile.comps (f : RouteFile) : List Comp :=
  f.dirs.map (fun d => dirComp d.bytes) ++ nameComps f.name

/-- The segments of a request match the components, with these bindings. An empty remainder
is not bound. -/
inductive Binds : List Comp → List Bytes → List (Bytes × Bytes) → Prop
  | nil : Binds [] [] []
  | plain {text q : Bytes} {cs : List Comp} {qs : List Bytes} {bs : List (Bytes × Bytes)} :
      SameText text q → Binds cs qs bs → Binds (.plain text :: cs) (q :: qs) bs
  | one {x q : Bytes} {cs : List Comp} {qs : List Bytes} {bs : List (Bytes × Bytes)} :
      Binds cs qs bs → Binds (.one x :: cs) (q :: qs) ((x, q) :: bs)
  | rest {x q : Bytes} {qs : List Bytes} : Binds [.rest x] (q :: qs) [(x, joinSegs (q :: qs))]
  | restNil {x : Bytes} : Binds [.rest x] [] []

/-- A parsed route matches exactly the requests that the components match, and captures what
they bind if the arena does not run out. -/
structure ByComponents (rr : RtRoute) (comps : List Comp) : Prop where
  hits : ∀ path qs, 0 ∉ path → splitPath path 64 = some qs →
    (matchSegs rr.segs qs = true ↔ ∃ bs, Binds comps qs bs)
  binds : ∀ path qs bs a r, 0 ∉ path → splitPath path 64 = some qs → Binds comps qs bs →
    r.routeParams = [] → (captureParams rr.segs qs a r).1.Served →
    (captureParams rr.segs qs a r).2.routeParams = bs.map fun b => (b.1, some b.2)

/-- The name is `index`, or has no second extension and is bracketed or plain. -/
def RegularName (name : Bytes) : Prop :=
  name = ascii "index" ∨
    stripC name = name ∧ name ≠ ascii "index.get" ∧
      ((inBrackets name).isSome = true ∧ name ≠ ascii "[...]" ∨
        name.head? ≠ some 91 ∧ segKind name = .lit name)

instance (name : Bytes) : Decidable (RegularName name) := inferInstanceAs (Decidable (_ ∨ _))

/-- No component is too many for the parser or reads as something else. -/
structure Regular (f : RouteFile) : Prop where
  stem : f.stem ≠ []
  few : f.comps.length ≤ rtMaxSegs
  dirs : ∀ d ∈ f.dirs, inBrackets d.bytes = none ∧ segKind d.bytes = .lit d.bytes
  name : RegularName f.name

instance (f : RouteFile) : Decidable (Regular f) :=
  decidable_of_iff (_ ∧ _ ∧ _ ∧ _) ⟨fun h => ⟨h.1, h.2.1, h.2.2.1, h.2.2.2⟩,
    fun h => ⟨h.stem, h.few, h.dirs, h.name⟩⟩

theorem joinSegs_snoc (segs : List Bytes) (s : Bytes) :
    joinSegs (segs ++ [s]) = if segs = [] then s else joinSegs segs ++ slash :: s := by
  induction segs with
  | nil => rfl
  | cons t segs ih =>
    rw [if_neg (List.cons_ne_nil t segs)]
    cases segs with
    | nil => rfl
    | cons u segs =>
      rw [if_neg (List.cons_ne_nil u segs)] at ih
      rw [List.cons_append, List.cons_append, joinSegs, ← List.cons_append, ih, joinSegs, List.append_assoc]
      rfl

theorem joinSegs_ne_nil {s : Bytes} (h : s ≠ []) (segs : List Bytes) : joinSegs (s :: segs) ≠ [] := by
  cases segs with
  | nil => exact h
  | cons t segs => exact List.append_ne_nil_of_left_ne_nil h _

theorem cut_joinSegs {segs : List Bytes} {s : Bytes} (free : ∀ t ∈ segs ++ [s], slash ∉ t) (hs : s ≠ []) :
    cut slash (joinSegs (segs ++ [s])) = segs ++ [s] := by
  induction segs with
  | nil => exact cut_of_notMem hs (free s List.mem_cons_self)
  | cons t segs ih =>
    have rest := ih fun u hu => free u (List.mem_cons_of_mem t hu)
    have first := free t List.mem_cons_self
    cases segs with
    | nil =>
      change cut slash (t ++ slash :: s) = [t, s]
      rw [cut_cons first]
      exact congrArg (List.cons t) rest
    | cons u segs =>
      change cut slash (t ++ slash :: joinSegs (u :: segs ++ [s])) = t :: (u :: segs ++ [s])
      rw [cut_cons first, rest]

theorem fit_of_le {size : ℕ} {b : Bytes} (h : b.length + 1 ≤ size) : fit size b = b :=
  List.take_of_length_le (by omega)

theorem splitDir_joinSegs (dirs : List Bytes) {file : Bytes} (free : slash ∉ file) :
    splitDir (joinSegs (dirs ++ [file])) = (joinSegs dirs, file) := by
  rw [joinSegs_snoc]
  unfold splitDir
  by_cases root : dirs = []
  · subst root
    rw [if_pos rfl, strchr_none.mpr (fun h => free (List.mem_reverse.mp h))]
    rfl
  · have cut : strchr slash (joinSegs dirs ++ slash :: file).reverse =
        some (file.reverse, (joinSegs dirs).reverse) := by
      refine strchr_some.mpr ⟨?_, fun h => free (List.mem_reverse.mp h)⟩
      rw [List.reverse_append, List.reverse_cons, List.append_assoc]
      rfl
    rw [if_neg root, cut]
    simp only [List.reverse_reverse]

theorem stripC_file {stem : Bytes} (h : stem ≠ []) : stripC (stem ++ ascii ".c") = stem := by
  have pos : 0 < stem.length := List.length_pos_iff.mpr h
  have size : (stem ++ ascii ".c").length = stem.length + 2 := by rw [List.length_append]; rfl
  have ends : endsWith (stem ++ ascii ".c") (ascii ".c") = true :=
    List.isSuffixOf_iff_suffix.mpr (List.suffix_append stem (ascii ".c"))
  rw [stripC, if_pos ⟨by omega, ends⟩, stripEnd, size, Nat.add_sub_cancel]
  exact List.take_left

section
variable (f : RouteFile)

theorem rel_short : f.rel.length ≤ 255 := f.short

theorem fit_rel : fit 512 f.rel = f.rel :=
  fit_of_le (Nat.succ_le_succ ((rel_short f).trans (by decide)))

theorem file_slashFree : slash ∉ f.stem ++ ascii ".c" := by
  intro h
  rcases List.mem_append.mp h with h | h
  · exact f.slashFree h
  · revert h
    decide

theorem splitDir_rel : splitDir f.rel = (joinSegs (f.dirs.map FileName.bytes), f.stem ++ ascii ".c") :=
  splitDir_joinSegs _ (file_slashFree f)

theorem rel_length : (joinSegs (f.dirs.map FileName.bytes)).length + (f.stem.length + 2) ≤ 255 ∧
    (f.dirs ≠ [] →
      (joinSegs (f.dirs.map FileName.bytes)).length + (f.stem.length + 3) ≤ 255) := by
  have short := rel_short f
  have size : (f.stem ++ ascii ".c").length = f.stem.length + 2 := by
    rw [List.length_append]
    rfl
  unfold RouteFile.rel relOf at short
  rw [joinSegs_snoc] at short
  by_cases root : f.dirs = []
  · rw [root, List.map_nil, if_pos rfl, size] at short
    rw [root]
    exact ⟨by simpa [joinSegs] using short, fun h => absurd rfl h⟩
  · rw [if_neg (by simpa using root), List.length_append, List.length_cons, size] at short
    exact ⟨by omega, fun _ => by omega⟩

theorem baseOf_rel (hs : f.stem ≠ []) : (baseOf f.rel).2 = f.name := by
  have fits := rel_length f
  have size : (f.stem ++ ascii ".c").length = f.stem.length + 2 := by
    rw [List.length_append]
    rfl
  have file : fit 256 (f.stem ++ ascii ".c") = f.stem ++ ascii ".c" := fit_of_le (by omega)
  unfold baseOf RouteFile.name
  rw [fit_rel, splitDir_rel]
  dsimp only
  rw [file, stripC_file hs]

theorem dirOf_rel : fit 256 (dirOf f.rel) = joinSegs (f.dirs.map FileName.bytes) := by
  have fits := rel_length f
  unfold dirOf
  rw [fit_rel, splitDir_rel]
  exact fit_of_le (by dsimp only; omega)

theorem name_subset : f.name ⊆ f.stem := (methodSuffix_front f.stem).subset

theorem name_ne_nil (hs : f.stem ≠ []) : f.name ≠ [] := by
  have pos : 0 < f.stem.length := List.length_pos_iff.mpr hs
  unfold RouteFile.name methodSuffix
  split
  · exact hs
  · rename_i m hm
    have long := List.find?_some hm
    rw [Bool.and_eq_true, decide_eq_true_eq] at long
    refine List.length_pos_iff.mp ?_
    change 0 < (stripEnd f.stem (m.length + 1)).length
    rw [stripEnd, List.length_take]
    omega

theorem name_length : f.name.length ≤ f.stem.length := by
  unfold RouteFile.name methodSuffix
  split
  · exact Nat.le_refl _
  · exact List.length_take_le' _ _

end

theorem stripC_length (b : Bytes) : (stripC b).length ≤ b.length := by
  unfold stripC
  split
  · exact List.length_take_le' _ _
  · exact Nat.le_refl _

theorem dropBracket_length (b : Bytes) : (dropBracket b).length ≤ b.length := by
  unfold dropBracket
  split
  · exact List.length_take_le' _ _
  · exact Nat.le_refl _

theorem segmentOf_length (fb : Bytes) : (segmentOf fb).length ≤ fb.length := by
  unfold segmentOf
  split
  · exact Nat.zero_le _
  · have cut : (if 4 < fb.length ∧ endsWith fb (ascii ".c") = true then stripEnd fb 2 else fb).length ≤
        fb.length := by
      split
      · exact List.length_take_le' _ _
      · exact Nat.le_refl _
    have fits : ∀ b : Bytes, (dropBracket (fit 256 b)).length ≤ b.length := fun b =>
      (dropBracket_length _).trans (List.length_take_le' _ _)
    dsimp only
    split
    · rename_i name hseg
      rw [hseg] at cut
      refine (fits _).trans (le_trans ?_ cut)
      simp [ascii]
    · rename_i name _ hseg
      rw [hseg] at cut
      refine (fits _).trans (le_trans ?_ cut)
      simp [ascii]
    · exact cut

/-- What `scan_cb` makes of the name. -/
def RouteFile.seg (f : RouteFile) : Bytes := segmentOf (stripC f.name)

theorem dirs_slashFree (f : RouteFile) : ∀ t ∈ f.dirs.map FileName.bytes, slash ∉ t := by
  intro t ht
  obtain ⟨d, _, rfl⟩ := List.mem_map.mp ht
  exact d.slashFree

theorem joinSegs_dirs (f : RouteFile) : joinSegs (f.dirs.map FileName.bytes) = [] ↔ f.dirs = [] := by
  cases f.dirs with
  | nil => exact ⟨fun _ => rfl, fun _ => rfl⟩
  | cons d ds => exact ⟨fun h => absurd h (joinSegs_ne_nil d.nonempty _), fun h => by cases h⟩

theorem urlPath_dirs (f : RouteFile) {base seg : Bytes} (page : base ≠ ascii "404") (hs : seg ≠ []) :
    urlPath base (joinSegs (f.dirs.map FileName.bytes)) seg =
      fit 256 (slash :: joinSegs (f.dirs.map FileName.bytes ++ [seg])) := by
  unfold urlPath
  rw [if_neg page, if_neg hs, joinSegs_snoc]
  by_cases root : f.dirs = []
  · rw [if_pos ((joinSegs_dirs f).mpr root), root]
    rfl
  · rw [if_neg (fun h => root ((joinSegs_dirs f).mp h)), if_neg (by simpa using root), List.append_assoc,
      List.append_assoc]
    rfl

theorem segments_dirs (f : RouteFile) {seg : Bytes} (free : slash ∉ seg) (hs : seg ≠ []) :
    segments (slash :: joinSegs (f.dirs.map FileName.bytes ++ [seg])) = f.dirs.map FileName.bytes ++ [seg] := by
  refine cut_joinSegs (fun t ht => ?_) hs
  rcases List.mem_append.mp ht with ht | ht
  · exact dirs_slashFree f t ht
  · rw [List.mem_singleton.mp ht]
    exact free

theorem segments_routePath (f : RouteFile) (hs : f.stem ≠ []) : segments (routePath f.rel) =
    f.dirs.map FileName.bytes ++ if f.seg = [] then [] else [f.seg] := by
  have fits := rel_length f
  have page : f.name ≠ ascii "404" := by
    rw [← baseOf_rel f hs]
    exact f.notPage
  have segLen : f.seg.length ≤ f.stem.length :=
    (segmentOf_length _).trans ((stripC_length _).trans (name_length f))
  have segFree : slash ∉ f.seg := by
    intro h
    rcases List.mem_cons.mp (segmentOf_subset _ h) with no | h
    · cases no
    · rcases List.mem_cons.mp h with no | h
      · cases no
      · exact f.slashFree (name_subset f ((stripC_front _).subset h))
  unfold routePath
  rw [baseOf_rel f hs, dirOf_rel]
  change segments (urlPath f.name _ f.seg) = _
  by_cases empty : f.seg = []
  · unfold urlPath
    rw [if_neg page, if_pos empty, if_pos empty, List.append_nil]
    by_cases root : f.dirs = []
    · rw [if_pos ((joinSegs_dirs f).mpr root), root]
      rfl
    · rw [if_neg (fun h => root ((joinSegs_dirs f).mp h)), fit_of_le (by simp [ascii]; omega)]
      have dirFree := dirs_slashFree f
      obtain ⟨ds, d, e⟩ := List.eq_nil_or_concat' f.dirs |>.resolve_left root
      rw [e, List.map_append] at dirFree ⊢
      exact cut_joinSegs dirFree d.nonempty
  · have size : (slash :: joinSegs (f.dirs.map FileName.bytes ++ [f.seg])).length + 1 ≤ 256 := by
      rw [joinSegs_snoc]
      by_cases root : f.dirs = []
      · rw [root, List.map_nil, if_pos rfl, List.length_cons]
        omega
      · rw [if_neg (by simpa using root), List.length_cons, List.length_append, List.length_cons]
        have room := fits.2 root
        omega
    rw [if_neg empty, urlPath_dirs f page empty, fit_of_le size, segments_dirs f segFree empty]

theorem joinSegs_last (segs : List Bytes) (s t : Bytes) :
    joinSegs (segs ++ [s ++ t]) = joinSegs (segs ++ [s]) ++ t := by
  rw [joinSegs_snoc, joinSegs_snoc]
  split
  · rfl
  · exact (List.append_assoc _ (slash :: s) t).symm

theorem segments_bare (f : RouteFile) (hs : f.stem = []) :
    ∃ s, segments (routePath f.rel) = f.dirs.map FileName.bytes ++ [s] ∧ s ≠ [] ∧ segKind s = .lit s := by
  have base : (baseOf f.rel).2 = ascii ".c" := by
    unfold baseOf
    rw [fit_rel, splitDir_rel, hs]
    change (methodSuffix (stripC (fit 256 (ascii ".c")))).2 = ascii ".c"
    decide
  have short := rel_short f
  have last := joinSegs_last (f.dirs.map FileName.bytes) (ascii ".") (ascii "c")
  have path : routePath f.rel = fit 256 (slash :: f.rel) := by
    unfold routePath
    rw [base, dirOf_rel]
    change urlPath (ascii ".c") _ (ascii ".c") = _
    rw [urlPath_dirs f (by decide) (by decide), RouteFile.rel, relOf, hs]
    rfl
  have rel : f.rel = joinSegs (f.dirs.map FileName.bytes ++ [ascii ".c"]) := by
    rw [RouteFile.rel, relOf, hs]
    rfl
  rw [path]
  by_cases full : f.rel.length = 255
  · have cut : fit 256 (slash :: f.rel) = slash :: joinSegs (f.dirs.map FileName.bytes ++ [ascii "."]) := by
      have whole : slash :: f.rel =
          (slash :: joinSegs (f.dirs.map FileName.bytes ++ [ascii "."])) ++ ascii "c" := by
        rw [rel]
        exact congrArg (List.cons slash) last
      have size := congrArg List.length whole
      rw [List.length_append, List.length_cons, full] at size
      rw [whole, fit]
      exact List.take_left' (Nat.succ.inj size).symm
    rw [cut]
    exact ⟨ascii ".", segments_dirs f (by decide) (by decide), by decide, by decide⟩
  · rw [fit_of_le (by rw [List.length_cons]; omega), rel]
    exact ⟨ascii ".c", segments_dirs f (by decide) (by decide), by decide, by decide⟩

def Comp.pat : Comp → Pat Bytes
  | .plain text => .lit text
  | .one _ => .one
  | .rest _ => .rest

theorem Binds.matches {cs : List Comp} {qs : List Bytes} {bs : List (Bytes × Bytes)} (h : Binds cs qs bs) :
    Matches SameText (cs.map Comp.pat) qs := by
  induction h with
  | nil => exact .nil
  | plain same _ ih => exact .lit same ih
  | one _ ih => exact .one ih
  | rest => exact .rest
  | restNil => exact .rest

theorem binds_of_matches {cs : List Comp} {qs : List Bytes} (h : Matches SameText (cs.map Comp.pat) qs) :
    ∃ bs, Binds cs qs bs := by
  induction cs generalizing qs with
  | nil =>
    cases h
    exact ⟨[], .nil⟩
  | cons c cs ih =>
    cases c with
    | plain text =>
      cases h with
      | lit same h =>
        obtain ⟨bs, hbs⟩ := ih h
        exact ⟨bs, .plain same hbs⟩
    | one x =>
      cases h with
      | one h =>
        obtain ⟨bs, hbs⟩ := ih h
        exact ⟨_, .one hbs⟩
    | rest x =>
      have last : cs = [] := by
        rw [List.map_cons] at h
        generalize hm : cs.map Comp.pat = ps at h
        cases h with
        | rest => exact List.map_eq_nil_iff.mp hm
      subst last
      cases qs with
      | nil => exact ⟨[], .restNil⟩
      | cons q qs => exact ⟨_, .rest⟩

theorem dirComp_ne_rest (d : Bytes) : (dirComp d).pat ≠ .rest := by
  unfold dirComp
  split
  · exact fun h => by cases h
  · exact fun h => by cases h

theorem nameComps_length (name : Bytes) : (nameComps name).length ≤ 1 := by
  unfold nameComps
  split
  · exact Nat.zero_le _
  · split <;> exact Nat.le_refl _

theorem comps_restLast (f : RouteFile) : RestLast (f.comps.map Comp.pat) := by
  unfold RouteFile.comps
  induction f.dirs with
  | nil =>
    have few := nameComps_length f.name
    rw [List.map_nil, List.nil_append]
    generalize nameComps f.name = cs at few
    match cs, few with
    | [], _ => simp [RestLast]
    | [c], _ => simp [RestLast]
  | cons d ds ih => exact ih.cons (dirComp_ne_rest d.bytes)

def codePats (f : RouteFile) : List (Pat Bytes) :=
  stopAtRest (((segments (routePath f.rel)).take rtMaxSegs).map segKind)

theorem matchSegs_code (f : RouteFile) (qs : List Bytes) :
    matchSegs (parsedSegs (routePath f.rel)) qs = true ↔ Matches SameText (codePats f) qs := by
  rw [parsedSegs, matchSegs_parsed, ← run_stopAtRest]
  exact run_iff sameText_iff (stopAtRest_restLast _) qs

theorem mem_stopAtRest {ps : List (Pat Bytes)} {p : Pat Bytes} (h : p ∈ stopAtRest ps) : p ∈ ps := by
  induction ps with
  | nil => exact h
  | cons q ps ih =>
    cases q with
    | rest => exact List.mem_of_mem_head? (by simpa [stopAtRest] using (List.mem_singleton.mp h).symm)
    | lit s =>
      rcases List.mem_cons.mp h with rfl | h
      · exact List.mem_cons_self
      · exact List.mem_cons_of_mem _ (ih h)
    | one =>
      rcases List.mem_cons.mp h with rfl | h
      · exact List.mem_cons_self
      · exact List.mem_cons_of_mem _ (ih h)

def Good (s : Bytes) : Prop := slash ∉ s ∧ 0 ∉ s

theorem mem_joinSegs {segs : List Bytes} {c : UInt8} (h : c ∈ joinSegs segs) :
    c = slash ∨ ∃ s ∈ segs, c ∈ s := by
  induction segs with
  | nil => cases h
  | cons s segs ih =>
    cases segs with
    | nil => exact .inr ⟨s, List.mem_cons_self, h⟩
    | cons t segs =>
      rcases List.mem_append.mp h with h | h
      · exact .inr ⟨s, List.mem_cons_self, h⟩
      · rcases List.mem_cons.mp h with h | h
        · exact .inl h
        · obtain e | ⟨u, hu, hc⟩ := ih h
          · exact .inl e
          · exact .inr ⟨u, List.mem_cons_of_mem s hu, hc⟩

theorem rel_nulFree (f : RouteFile) : 0 ∉ f.rel := by
  intro h
  rcases mem_joinSegs h with no | ⟨s, hs, h⟩
  · cases no
  · rcases List.mem_append.mp hs with hs | hs
    · obtain ⟨d, _, rfl⟩ := List.mem_map.mp hs
      exact d.nulFree h
    · rw [List.mem_singleton.mp hs] at h
      rcases List.mem_append.mp h with h | h
      · exact f.nulFree h
      · revert h
        decide

theorem segKind_lit {p s : Bytes} (h : segKind p = .lit s) :
    p = s ∧ segParse p segZero = ⟨some s, none, false⟩ := by
  rcases segKind_cases p with ⟨hk, hp⟩ | ⟨hk, _⟩ | ⟨hk, _⟩
  · obtain rfl := Pat.lit.inj (hk.symm.trans h)
    exact ⟨rfl, hp⟩
  · rw [hk] at h
    cases h
  · rw [hk] at h
    cases h

theorem codePats_good (f : RouteFile) (s : Bytes) (h : .lit s ∈ codePats f) : Good s := by
  obtain ⟨t, ht, kind⟩ := List.mem_map.mp (mem_stopAtRest h)
  obtain ⟨free, sub⟩ := mem_segments (List.mem_of_mem_take ht)
  obtain rfl := (segKind_lit kind).1
  exact ⟨free, fun nul => routePath_nulFree (rel_nulFree f) (sub nul)⟩

theorem codePats_same (f : RouteFile) {rr : RtRoute} (segs : rr.segs = parsedSegs (routePath f.rel))
    (h : ByComponents rr f.comps) :
    List.Forall₂ (PatSame SameText) (codePats f) (f.comps.map Comp.pat) := by
  have small : (codePats f).length ≤ 24 := by
    refine (stopAtRest_length _).trans ?_
    rw [List.length_map]
    exact List.length_take_le _ _
  have rich : ∀ s : Bytes, ∃ t, Good t ∧ ¬ SameText s t := by
    intro s
    refine ⟨List.replicate (s.length + 1) 97, ⟨fun no => ?_, fun no => ?_⟩, fun same => ?_⟩
    · exact absurd (List.eq_of_mem_replicate no) (by decide)
    · exact absurd (List.eq_of_mem_replicate no) (by decide)
    · have len := congrArg List.length same
      rw [List.length_map, List.length_map, List.length_replicate] at len
      omega
  have refl : ∀ s, SameText s s := fun s => rfl
  have symm : ∀ {s t}, SameText s t → SameText t s := fun h => Eq.symm h
  have empty : Good [] := ⟨by simp, by simp⟩
  refine same_patterns refl symm empty rich (stopAtRest_restLast _) (comps_restLast f)
    (codePats_good f) ?_
  intro ts good len
  have text : 0 ∉ renderPath ts := by
    intro no
    rcases List.mem_cons.mp no with no | no
    · cases no
    · obtain ⟨t, ht, no⟩ := List.mem_flatMap.mp no
      rcases List.mem_append.mp no with no | no
      · exact (good t ht).2 no
      · exact absurd (List.mem_singleton.mp no) (by decide)
  have both := h.hits (renderPath ts) ts text
    (splitPath_render (fun t ht => (good t ht).1) (by omega))
  rw [segs, matchSegs_code] at both
  exact both.trans ⟨fun ⟨_, hbs⟩ => hbs.matches, binds_of_matches⟩

theorem stopAtRest_single (p : Pat Bytes) : stopAtRest [p] = [p] := by cases p <;> rfl

theorem patSame_lit {p s : Bytes} (h : PatSame SameText (segKind p) (.lit s)) :
    segKind p = .lit p ∧ SameText p s := by
  rcases segKind_cases p with ⟨hk, _⟩ | ⟨hk, _⟩ | ⟨hk, _⟩
  · rw [hk] at h
    cases h with
    | lit same => exact ⟨hk, same⟩
  · rw [hk] at h
    cases h
  · rw [hk] at h
    cases h

theorem inBrackets_some {s x : Bytes} (h : inBrackets s = some x) : s = 91 :: (x ++ [93]) := by
  unfold inBrackets at h
  split at h
  · split at h
    · rename_i t last
      obtain rfl := Option.some.inj h
      rw [List.dropLast_append_getLast? 93 last]
    · cases h
  · cases h

theorem dirs_regular (st : List Comp) (tail : List Bytes) (ds : List FileName) (k : ℕ)
    (h : List.Forall₂ (PatSame SameText)
      (stopAtRest (((ds.map FileName.bytes ++ tail).take k).map segKind))
      ((ds.map (fun d => dirComp d.bytes) ++ st).map Comp.pat)) :
    (∀ d ∈ ds, inBrackets d.bytes = none ∧ segKind d.bytes = .lit d.bytes) ∧ ds.length ≤ k ∧
      List.Forall₂ (PatSame SameText) (stopAtRest ((tail.take (k - ds.length)).map segKind))
        (st.map Comp.pat) := by
  induction ds generalizing k with
  | nil => exact ⟨by simp, Nat.zero_le _, h⟩
  | cons d ds ih =>
    cases k with
    | zero => cases h
    | succ k =>
      rw [List.map_cons, List.cons_append, List.take_succ_cons, List.map_cons] at h
      rcases segKind_cases d.bytes with ⟨hk, _⟩ | ⟨hk, _⟩ | ⟨hk, _⟩
      · rw [hk] at h
        obtain ⟨head, rest⟩ := List.forall₂_cons.mp h
        have plain : inBrackets d.bytes = none := by
          cases hb : inBrackets d.bytes with
          | none => rfl
          | some x =>
            change PatSame SameText _ (dirComp d.bytes).pat at head
            unfold dirComp at head
            rw [hb] at head
            cases head
        obtain ⟨regular, few, last⟩ := ih k rest
        refine ⟨fun e he => ?_, Nat.succ_le_succ few, by rw [List.length_cons, Nat.succ_sub_succ]; exact last⟩
        rcases List.mem_cons.mp he with rfl | he
        · exact ⟨plain, hk⟩
        · exact regular e he
      · rw [hk] at h
        obtain ⟨head, _⟩ := List.forall₂_cons.mp h
        change PatSame SameText _ (dirComp d.bytes).pat at head
        unfold dirComp at head
        cases hb : inBrackets d.bytes with
        | none =>
          rw [hb] at head
          cases head
        | some x =>
          rw [inBrackets_some hb] at hk
          cases hk
      · rw [hk] at h
        obtain ⟨head, _⟩ := List.forall₂_cons.mp h
        generalize hp : (dirComp d.bytes).pat = p at head
        cases head
        exact absurd hp (dirComp_ne_rest d.bytes)

/-- The conversion of a name that is neither `index` nor has a second extension. -/
def convert : Bytes → Bytes
  | 91 :: 46 :: 46 :: 46 :: name => dropBracket (fit 256 (ascii "*" ++ name))
  | 91 :: name => dropBracket (fit 256 (ascii ":" ++ name))
  | seg => seg

theorem convert_one {t : Bytes} (h : ∀ name, t = 46 :: 46 :: 46 :: name → False) :
    convert (91 :: t) = dropBracket (fit 256 (ascii ":" ++ t)) := by
  unfold convert
  split
  · rename_i name e
    exact (h name (List.cons.inj e).2).elim
  · rename_i e
    rw [(List.cons.inj e).2]
  · rename_i _ no
    exact (no t rfl).elim

theorem convert_plain {s : Bytes} (h : s.head? ≠ some 91) : convert s = s := by
  unfold convert
  split
  · exact absurd rfl h
  · exact absurd rfl h
  · rfl

theorem stripC_ends {s : Bytes} (h : stripC s ≠ s) : endsWith s (ascii ".c") = true ∧
    (stripC s).length < s.length := by
  unfold stripC at h ⊢
  split at h
  · rename_i both
    refine ⟨both.2, ?_⟩
    rw [if_pos both, stripEnd, List.length_take]
    omega
  · exact absurd rfl h

theorem segmentOf_eq {s : Bytes} (index : s ≠ ascii "index") (get : s ≠ ascii "index.get") (ne : s ≠ [])
    (whole : stripC s = s) : segmentOf s = convert s := by
  have single : ¬ (4 < s.length ∧ endsWith s (ascii ".c") = true) := by
    rintro ⟨long, ends⟩
    have cut := congrArg List.length whole
    rw [stripC, if_pos ⟨by omega, ends⟩, stripEnd, List.length_take] at cut
    omega
  unfold segmentOf
  rw [if_neg (by simp only [index, get, ne, or_self, not_false_eq_true])]
  dsimp only
  rw [if_neg single]
  split
  · rfl
  · rename_i plain
    exact (convert_one plain).symm
  · rename_i rest one
    exact (convert_plain fun head => by
      cases s with
      | nil => cases head
      | cons c t => exact one t (by rw [Option.some.inj head])).symm

theorem convert_bracket (t : Bytes) : convert (91 :: t) = [] ∨
    ∃ m rest, convert (91 :: t) = m :: rest ∧ (m = 42 ∨ m = 58) := by
  have marked : ∀ (m : UInt8) (name : Bytes), m = 42 ∨ m = 58 →
      dropBracket (fit 256 (m :: name)) = [] ∨
        ∃ c rest, dropBracket (fit 256 (m :: name)) = c :: rest ∧ (c = 42 ∨ c = 58) := by
    intro m name hm
    cases hb : dropBracket (fit 256 (m :: name)) with
    | nil => exact .inl rfl
    | cons c rest =>
      refine .inr ⟨c, rest, rfl, ?_⟩
      have front : (c :: rest) <+: m :: name := by
        have cut : dropBracket (fit 256 (m :: name)) <+: fit 256 (m :: name) := by
          unfold dropBracket
          split
          · exact List.take_prefix _ _
          · exact List.prefix_refl _
        rw [← hb]
        exact cut.trans (List.take_prefix _ _)
      obtain ⟨e, _⟩ := List.cons_prefix_cons.mp front
      rw [e]
      exact hm
  by_cases dots : ∃ name, t = 46 :: 46 :: 46 :: name
  · obtain ⟨name, rfl⟩ := dots
    exact marked 42 name (.inl rfl)
  · rw [convert_one fun name e => dots ⟨name, e⟩]
    exact marked 58 t (.inr rfl)

theorem name_regular {name : Bytes} (ne : name ≠ []) {k : ℕ}
    (h : List.Forall₂ (PatSame SameText)
      (stopAtRest (((if segmentOf (stripC name) = [] then [] else [segmentOf (stripC name)]).take k).map
        segKind))
      ((nameComps name).map Comp.pat)) : (nameComps name).length ≤ k ∧ RegularName name := by
  by_cases index : name = ascii "index"
  · have none : nameComps name = [] := by rw [nameComps, if_pos index]
    rw [none]
    exact ⟨Nat.zero_le _, .inl index⟩
  · obtain ⟨c, hc⟩ : ∃ c, nameComps name = [c] := by
      unfold nameComps
      rw [if_neg index]
      split
      · exact ⟨_, rfl⟩
      · exact ⟨_, rfl⟩
      · exact ⟨_, rfl⟩
    rw [hc] at h ⊢
    have len := h.length_eq
    by_cases empty : segmentOf (stripC name) = []
    · rw [if_pos empty, List.take_nil] at h
      cases h
    · rw [if_neg empty] at h
      cases k with
      | zero => cases h
      | succ k =>
        refine ⟨Nat.succ_le_succ (Nat.zero_le _), .inr ?_⟩
        rw [List.take_succ_cons, List.take_nil, List.map_singleton, stopAtRest_single] at h
        obtain ⟨same, _⟩ := List.forall₂_cons.mp h
        have literal : ∀ p, inBrackets name = none → PatSame SameText (segKind p) c.pat →
            segKind p = .lit p ∧ SameText p name := by
          intro p none same
          have plain : nameComps name = [.plain name] := by rw [nameComps, if_neg index, none]
          rw [plain] at hc
          rw [← (List.cons.inj hc).1] at same
          exact patSame_lit same
        have whole : stripC name = name := by
          by_contra cut
          obtain ⟨ends, shorter⟩ := stripC_ends cut
          have none : inBrackets name = none := by
            cases hb : inBrackets name with
            | none => rfl
            | some x =>
              obtain ⟨front, e⟩ := List.isSuffixOf_iff_suffix.mp ends
              have last := congrArg List.getLast? e
              rw [inBrackets_some hb, ← List.cons_append, List.getLast?_concat] at last
              simp [ascii] at last
          have len := congrArg List.length (literal _ none same).2
          have short := segmentOf_length (stripC name)
          rw [List.length_map, List.length_map] at len
          omega
        have get : name ≠ ascii "index.get" := by
          rintro rfl
          exact empty (by decide)
        rw [whole, segmentOf_eq index get ne whole] at same
        refine ⟨whole, get, ?_⟩
        cases hb : inBrackets name with
        | some x =>
          refine .inl ⟨rfl, ?_⟩
          rintro rfl
          have dots : nameComps (ascii "[...]") = [.one (ascii "...")] := by decide
          have star : segKind (convert (ascii "[...]")) = .lit [42] := by decide
          obtain rfl := (List.cons.inj (dots.symm.trans hc)).1
          rw [star] at same
          cases same
        | none =>
          refine .inr ?_
          have plain : name.head? ≠ some 91 := by
            intro head
            have text := (literal _ hb same).2
            cases name with
            | nil => cases head
            | cons m t =>
              obtain rfl := Option.some.inj head
              rcases convert_bracket t with e | ⟨m, rest, e, hm⟩
              · rw [e] at text
                cases text
              · rw [e] at text
                have marks := (List.cons.inj text).1
                rcases hm with rfl | rfl
                · exact absurd marks (by decide)
                · exact absurd marks (by decide)
          rw [convert_plain plain] at same
          exact ⟨plain, (literal name hb same).1⟩

theorem byComponents_regular (f : RouteFile) {rr : RtRoute} (segs : rr.segs = parsedSegs (routePath f.rel))
    (h : ByComponents rr f.comps) : Regular f := by
  have same := codePats_same f segs h
  unfold codePats at same
  by_cases hs : f.stem = []
  · obtain ⟨s, cut, ne, kind⟩ := segments_bare f hs
    have name : f.name = [] := by
      unfold RouteFile.name
      rw [hs]
      decide
    have comps : f.comps = f.dirs.map (fun d => dirComp d.bytes) ++ [.plain []] := by
      rw [RouteFile.comps, name]
      rfl
    rw [cut, comps] at same
    obtain ⟨_, _, last⟩ := dirs_regular _ _ _ _ same
    cases hk : rtMaxSegs - f.dirs.length with
    | zero =>
      rw [hk] at last
      cases last
    | succ k =>
      rw [hk, List.take_succ_cons, List.take_nil, List.map_singleton, stopAtRest_single] at last
      have text := (patSame_lit (List.forall₂_cons.mp last).1).2
      exact absurd (List.map_eq_nil_iff.mp text) ne
  · rw [segments_routePath f hs] at same
    obtain ⟨dirs, few, last⟩ := dirs_regular _ _ _ _ same
    have fb : f.seg = segmentOf (stripC f.name) := by rw [RouteFile.seg]
    rw [fb] at last
    obtain ⟨room, name⟩ := name_regular (name_ne_nil f hs) last
    refine ⟨hs, ?_, dirs, name⟩
    rw [RouteFile.comps, List.length_append, List.length_map]
    omega

/-- The segment that the parser makes of a component. -/
def Comp.seg : Comp → RtSeg
  | .plain text => ⟨some text, none, false⟩
  | .one x => ⟨none, some x, false⟩
  | .rest x => ⟨none, some x, true⟩

theorem dropBracket_mark (m : UInt8) {x : Bytes} (short : x.length + 3 ≤ 256) :
    dropBracket (fit 256 (m :: (x ++ [93]))) = m :: x := by
  have size : (m :: (x ++ [93])).length = x.length + 2 := by rw [List.length_cons, List.length_append]; rfl
  have ends : endsWith (m :: (x ++ [93])) (ascii "]") = true :=
    List.isSuffixOf_iff_suffix.mpr ⟨m :: x, rfl⟩
  rw [fit_of_le (by omega), dropBracket, if_pos ends, stripEnd, size]
  exact @List.take_left' _ (m :: x) _ _ rfl

theorem segParse_bracket {x : Bytes} (short : x.length + 3 ≤ 256) (dots : x ≠ ascii "...") :
    convert (91 :: (x ++ [93])) ≠ [] ∧ ∃ c, nameComps (91 :: (x ++ [93])) = [c] ∧
      segParse (convert (91 :: (x ++ [93]))) segZero = c.seg := by
  have index : 91 :: (x ++ [93]) ≠ ascii "index" := by
    intro e
    exact absurd (List.cons.inj e).1 (by decide)
  have inside : inBrackets (91 :: (x ++ [93])) = some x := by
    rw [inBrackets, if_pos List.getLast?_concat, List.dropLast_concat]
  unfold nameComps
  rw [if_neg index, inside]
  by_cases rest : ∃ c y, x = 46 :: 46 :: 46 :: c :: y
  · obtain ⟨c, y, rfl⟩ := rest
    have text : convert (91 :: (46 :: 46 :: 46 :: c :: y ++ [93])) = 42 :: c :: y :=
      dropBracket_mark 42 (x := c :: y) (by simp only [List.length_cons] at short ⊢; omega)
    rw [text]
    exact ⟨List.cons_ne_nil _ _, .rest (c :: y), rfl, rfl⟩
  · have plain : ∀ name, x ++ [93] = 46 :: 46 :: 46 :: name → False := by
      intro name e
      match x, dots, rest, e with
      | [], _, _, e => exact absurd (List.cons.inj e).1 (by decide)
      | [_], _, _, e => exact absurd (List.cons.inj (List.cons.inj e).2).1 (by decide)
      | [_, _], _, _, e =>
        exact absurd (List.cons.inj (List.cons.inj (List.cons.inj e).2).2).1 (by decide)
      | i :: j :: k :: y, dots, rest, e =>
        simp only [List.cons_append, List.cons.injEq] at e
        obtain ⟨rfl, rfl, rfl, _⟩ := e
        cases y with
        | nil => exact dots (by decide)
        | cons c y => exact rest ⟨c, y, rfl⟩
    have text : convert (91 :: (x ++ [93])) = 58 :: x := by
      rw [convert_one plain]
      exact dropBracket_mark 58 short
    rw [text]
    refine ⟨List.cons_ne_nil _ _, .one x, ?_, rfl⟩
    split
    · rename_i c y e
      exact absurd ⟨c, y, Option.some.inj e⟩ rest
    · rename_i e
      rw [Option.some.inj e]
    · rename_i e
      cases e

theorem name_segs {name : Bytes} (ne : name ≠ []) (short : name.length ≤ 253) (h : RegularName name) :
    (if segmentOf (stripC name) = [] then [] else [segmentOf (stripC name)]).map
      (fun s => segParse s segZero) = (nameComps name).map Comp.seg := by
  rcases h with rfl | ⟨whole, get, kind⟩
  · decide
  · by_cases index : name = ascii "index"
    · subst index
      decide
    · rw [whole, segmentOf_eq index get ne whole]
      rcases kind with ⟨some, dots⟩ | ⟨plain, lit⟩
      · obtain ⟨x, hx⟩ := Option.isSome_iff_exists.mp some
        obtain rfl := inBrackets_some hx
        have size : x.length + 3 ≤ 256 := by
          simp only [List.length_cons, List.length_append, List.length_nil] at short
          omega
        have notDots : x ≠ ascii "..." := by
          rintro rfl
          exact dots (by decide)
        obtain ⟨full, c, comps, parsed⟩ := segParse_bracket size notDots
        rw [if_neg full, comps, List.map_singleton, List.map_singleton, parsed]
      · have none : inBrackets name = none := by
          cases hb : inBrackets name with
          | none => rfl
          | some x =>
            rw [inBrackets_some hb] at plain
            exact absurd rfl plain
        rw [convert_plain plain, if_neg ne, nameComps, if_neg index, none, List.map_singleton,
          List.map_singleton, (segKind_lit lit).2]
        rfl

theorem regular_segs (f : RouteFile) (h : Regular f) :
    parsedSegs (routePath f.rel) = f.comps.map Comp.seg := by
  have short := rel_length f
  have name := name_segs (name_ne_nil f h.stem) ((name_length f).trans (by omega)) h.name
  have size := congrArg List.length name
  have few := h.few
  rw [List.length_map, List.length_map] at size
  rw [RouteFile.comps, List.length_append, List.length_map, ← size] at few
  rw [parsedSegs, segments_routePath f h.stem, RouteFile.seg,
    List.take_of_length_le (by rw [List.length_append, List.length_map]; exact few), List.map_append, name,
    RouteFile.comps, List.map_append, List.map_map, List.map_map]
  refine congrArg (· ++ (nameComps f.name).map Comp.seg) (List.map_congr_left fun d hd => ?_)
  obtain ⟨plain, lit⟩ := h.dirs d hd
  change segParse d.bytes segZero = (dirComp d.bytes).seg
  rw [(segKind_lit lit).2, dirComp, plain]
  rfl

theorem matchSegs_comps (cs : List Comp) (qs : List Bytes) :
    matchSegs (cs.map Comp.seg) qs = run strcaseeq (cs.map Comp.pat) qs := by
  induction cs generalizing qs with
  | nil => rfl
  | cons c cs ih =>
    cases c with
    | rest x => cases qs <;> rfl
    | one x =>
      cases qs with
      | nil => rfl
      | cons q qs => exact ih qs
    | plain text =>
      cases qs with
      | nil => rfl
      | cons q qs =>
        change (if strcaseeq text q then _ else _) = (strcaseeq text q && _)
        rw [ih]
        cases strcaseeq text q <;> rfl

theorem captureParams_served {ss : List RtSeg} {qs : List Bytes} {a : Arena} {r : Req}
    (served : (captureParams ss qs a r).1.Served) : a.Served := by
  induction ss generalizing qs a r with
  | nil => exact served
  | cons s ss ih =>
    cases qs with
    | nil => exact served
    | cons q qs =>
      unfold captureParams at served
      split at served
      · refine (@arenaAlloc_served a (1 + ((q :: qs).map fun x => x.length + 1).sum) ?_).1
        split at served
        · rename_i e
          rw [e]
          exact served
        · rename_i e
          rw [e]
          exact served
      · split at served
        · split at served
          · exact (arenaStrdup_served (ih served)).1
          · exact ih served
        · exact ih served

theorem captureParams_one {x q : Bytes} {ss : List RtSeg} {qs : List Bytes} {a : Arena} {r : Req}
    (text : 0 ∉ q) (free : r.routeParams.length < 16)
    (served : (captureParams (⟨none, some x, false⟩ :: ss) (q :: qs) a r).1.Served) :
    captureParams (⟨none, some x, false⟩ :: ss) (q :: qs) a r =
      captureParams ss qs (arenaStrdup a q).2 { r with routeParams := r.routeParams ++ [(x, some q)] } := by
  have step : captureParams (⟨none, some x, false⟩ :: ss) (q :: qs) a r =
      captureParams ss qs (arenaStrdup a q).2 (pushParam r x (arenaStrdup a q).1) := by
    change (if r.routeParams.length < 16 then _ else _) = _
    rw [if_pos free]
    rfl
  have push : pushParam r x (arenaStrdup a q).1 =
      { r with routeParams := r.routeParams ++ [(x, (arenaStrdup a q).1)] } := if_pos free
  rw [step] at served ⊢
  have copy := (arenaStrdup_served (captureParams_served served)).2
  rw [cstr_of_nulFree text] at copy
  rw [push, copy]

theorem captureParams_rest {x q : Bytes} {ss : List RtSeg} {qs : List Bytes} {a : Arena} {r : Req}
    (free : r.routeParams.length < 16)
    (served : (captureParams (⟨none, some x, true⟩ :: ss) (q :: qs) a r).1.Served) :
    (captureParams (⟨none, some x, true⟩ :: ss) (q :: qs) a r).2.routeParams =
      r.routeParams ++ [(x, some (joinSegs (q :: qs)))] := by
  unfold captureParams at served ⊢
  rw [if_pos rfl] at served ⊢
  have need := @arenaAlloc_served a (1 + ((q :: qs).map fun y => y.length + 1).sum)
  cases hp : arenaAlloc a (1 + ((q :: qs).map fun y => y.length + 1).sum) with
  | mk p b =>
    rw [hp] at need
    rw [hp] at served
    cases p with
    | none => exact Bool.noConfusion (need served).2
    | some p => exact congrArg Req.routeParams (if_pos free)

theorem capture_binds {cs : List Comp} {qs : List Bytes} {bs : List (Bytes × Bytes)} (h : Binds cs qs bs)
    {a : Arena} {r : Req} (text : ∀ q ∈ qs, 0 ∉ q) (room : r.routeParams.length + bs.length ≤ 16)
    (served : (captureParams (cs.map Comp.seg) qs a r).1.Served) :
    (captureParams (cs.map Comp.seg) qs a r).2.routeParams =
      r.routeParams ++ bs.map fun b => (b.1, some b.2) := by
  induction h generalizing a r with
  | nil => exact (List.append_nil _).symm
  | restNil => exact (List.append_nil _).symm
  | plain _ _ ih => exact ih (fun q hq => text q (List.mem_cons_of_mem _ hq)) room served
  | @one x q cs qs bs _ ih =>
    rw [List.length_cons] at room
    have free : r.routeParams.length < 16 := by omega
    have seg : (Comp.one x :: cs).map Comp.seg = ⟨none, some x, false⟩ :: cs.map Comp.seg := rfl
    rw [seg] at served ⊢
    have step := captureParams_one (text q List.mem_cons_self) free served
    rw [step] at served ⊢
    rw [ih (fun t ht => text t (List.mem_cons_of_mem q ht)) (by
      rw [List.length_append, List.length_singleton]
      omega) served]
    rw [List.append_assoc]
    rfl
  | @rest x q qs =>
    have free : r.routeParams.length < 16 := by
      rw [List.length_singleton] at room
      omega
    exact captureParams_rest free served

theorem binds_length {cs : List Comp} {qs : List Bytes} {bs : List (Bytes × Bytes)} (h : Binds cs qs bs) :
    bs.length ≤ cs.length := by
  induction h with
  | nil => exact Nat.le_refl _
  | plain _ _ ih => exact Nat.le_succ_of_le ih
  | one _ ih => exact Nat.succ_le_succ ih
  | rest => exact Nat.le_refl _
  | restNil => exact Nat.zero_le _

theorem binds_dirs {ds : List FileName} (plain : ∀ d ∈ ds, inBrackets d.bytes = none) {cs : List Comp}
    {qs : List Bytes} {bs : List (Bytes × Bytes)}
    (h : Binds (ds.map (fun d => dirComp d.bytes) ++ cs) qs bs) : bs.length ≤ cs.length := by
  induction ds generalizing qs with
  | nil => exact binds_length h
  | cons d ds ih =>
    rw [List.map_cons, List.cons_append, dirComp, plain d List.mem_cons_self] at h
    cases h with
    | plain _ h => exact ih (fun e he => plain e (List.mem_cons_of_mem d he)) h

theorem regular_byComponents (f : RouteFile) (h : Regular f) {rr : RtRoute}
    (segs : rr.segs = parsedSegs (routePath f.rel)) : ByComponents rr f.comps := by
  rw [regular_segs f h] at segs
  constructor
  · intro path qs _ _
    rw [segs, matchSegs_comps, run_iff sameText_iff (comps_restLast f) qs]
    exact ⟨binds_of_matches, fun ⟨_, hbs⟩ => hbs.matches⟩
  · intro path qs bs a r text split hbs fresh served
    have free : ∀ q ∈ qs, 0 ∉ q := by
      intro q hq nul
      rw [(splitPath_some split).1] at hq
      exact text ((mem_segments hq).2 nul)
    have few := (binds_dirs (fun d hd => (h.dirs d hd).1) hbs).trans (nameComps_length f.name)
    rw [segs] at served ⊢
    rw [capture_binds hbs free (by rw [fresh]; exact le_trans (by simpa using few) (by decide)) served, fresh]
    rfl

/-- The server matches a route file by its components exactly if the file is regular. -/
theorem pattern_by_components (f : RouteFile) {mem : ℕ → Bool} {fn : ℕ} {rr : RtRoute}
    (h : initRoute mem ⟨(baseOf f.rel).1, routePath f.rel, fn⟩ = some rr) :
    ByComponents rr f.comps ↔ Regular f := by
  have segs : rr.segs = parsedSegs (routePath f.rel) := by rw [initRoute_parsed h]
  exact ⟨byComponents_regular f segs, fun regular => regular_byComponents f regular segs⟩

def notesName : FileName := ⟨ascii "notes", by decide, by decide, by decide⟩

def idName : FileName := ⟨ascii "[id]", by decide, by decide, by decide⟩

/-- `notes/[id].c` -/
def noteFile : RouteFile where
  dirs := [notesName]
  stem := ascii "[id]"
  nulFree := by decide
  slashFree := by decide
  short := by decide
  notLayout := by decide
  notPage := by decide
  verbatim := by decide

/-- `notes/[id]/edit.c` -/
def editFile : RouteFile where
  dirs := [notesName, idName]
  stem := ascii "edit"
  nulFree := by decide
  slashFree := by decide
  short := by decide
  notLayout := by decide
  notPage := by decide
  verbatim := by decide

theorem pattern_by_components_note :
    (initRoute (fun _ => true) ⟨(baseOf noteFile.rel).1, routePath noteFile.rel, 0⟩ =
        some ⟨ascii "GET", ascii "/notes/:id", [(Comp.plain (ascii "notes")).seg, (Comp.one (ascii "id")).seg],
          0⟩) ∧
      (ByComponents ⟨ascii "GET", ascii "/notes/:id",
          [(Comp.plain (ascii "notes")).seg, (Comp.one (ascii "id")).seg], 0⟩ noteFile.comps ↔
        Regular noteFile) ∧ Regular noteFile :=
  have start : initRoute (fun _ => true) ⟨(baseOf noteFile.rel).1, routePath noteFile.rel, 0⟩ =
      some ⟨ascii "GET", ascii "/notes/:id",
        [(Comp.plain (ascii "notes")).seg, (Comp.one (ascii "id")).seg], 0⟩ := by decide
  ⟨start, pattern_by_components noteFile start, by decide⟩

/-- A directory in brackets stays in the pattern as it is. -/
theorem directory_stays_literal : ¬ ∀ (f : RouteFile) (mem : ℕ → Bool) (fn : ℕ) (rr : RtRoute),
    initRoute mem ⟨(baseOf f.rel).1, routePath f.rel, fn⟩ = some rr → ByComponents rr f.comps := by
  intro all
  have start : initRoute (fun _ => true) ⟨(baseOf editFile.rel).1, routePath editFile.rel, 0⟩ =
      some ⟨ascii "GET", ascii "/notes/[id]/edit",
        (parsedSegs (ascii "/notes/[id]/edit")), 0⟩ := by decide
  have hits := (all editFile _ 0 _ start).hits (ascii "/notes/7/edit")
    [ascii "notes", ascii "7", ascii "edit"] (by decide) (by decide)
  have expected : ∃ bs, Binds editFile.comps [ascii "notes", ascii "7", ascii "edit"] bs :=
    ⟨[(ascii "id", ascii "7")], .plain rfl (.one (.plain rfl .nil))⟩
  exact absurd (hits.mpr expected) (by decide)

end Cerco.RoutePatterns
