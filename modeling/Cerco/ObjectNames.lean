import Cerco.IncrementalBuild
import Cerco.WordRuns
import Mathlib.Data.List.Nodup

set_option autoImplicit false

/-!
# Names of object files

`mangle` keeps the letters and digits of a path and writes one `_` for whatever stands
between them. The objects of a target are told apart only by these words.
-/
namespace Cerco.ObjectNames
open Cerco.CString Cerco.RouteScan Cerco.IncrementalBuild Cerco.WordRuns

def wordsHeld (rel : Bytes) : Bytes := trim underscore ((joined underscore (words isAlnum rel)).take 559)

def Alike (p q : Bytes) : Prop := wordsHeld p = wordsHeld q

instance (p q : Bytes) : Decidable (Alike p q) := inferInstanceAs (Decidable (_ = _))

/-- No two of these paths are alike. -/
def NoneAlike (rels : List Bytes) : Prop := ∀ p ∈ rels, ∀ q ∈ rels, Alike p q → p = q

instance (rels : List Bytes) : Decidable (NoneAlike rels) :=
  inferInstanceAs (Decidable (∀ p ∈ rels, ∀ q ∈ rels, Alike p q → p = q))

/-- The sources of the project in a target. -/
def taken (t : Target) (files : List SrcFile) : List Bytes := (files.map (·.path)).filter (takesSource t)

/-- No two sources of a target get the same object. -/
structure DistinctObjects (tc : Toolchain) (t : Target) (scan : Scan) (files : List SrcFile) : Prop where
  sources : ∀ j ∈ jobsOf t scan files, ∀ k ∈ jobsOf t scan files, j.src ≠ k.src → j.obj ≠ k.obj
  runtime : ∀ p ∈ tc.sdkSources t, ∀ q ∈ tc.sdkSources t, p ≠ q →
    objName (sdkPrefix t) p ≠ objName (sdkPrefix t) q
  apart : ∀ j ∈ jobsOf t scan files, ∀ p ∈ tc.sdkSources t, j.obj ≠ objName (sdkPrefix t) p

/-- From any state of `.cerco`, a pool that succeeds leaves an object of every source to the
linker: the one compiled from it, or the one that was up to date. -/
def EverySourceLinked (tc : Toolchain) (t : Target) (scan : Scan) (files : List SrcFile) : Prop :=
  ∀ o s, s.files = files → (compilePool tc (flagsOf o t) s (jobsOf t scan files)).2 = true →
    ∀ j ∈ jobsOf t scan files,
      ∃ code, (collect t (compilePool tc (flagsOf o t) s (jobsOf t scan files)).1).app j.obj = some code ∧
        if needsRebuild s j = true then codeOf tc (flagsOf o t) (viewOf s) j = some code
        else (findObj s.objs j.obj).map (·.code) = some code

theorem mangleLoop_eq {cap : ℕ} (b out : Bytes) (prevUs : Bool) (room : out.length + 1 ≤ cap) :
    mangleLoop cap b out prevUs =
      ((out.reverse ++ squeeze isAlnum underscore prevUs b).take (cap - 1)).reverse := by
  induction b generalizing out prevUs with
  | nil =>
    rw [mangleLoop, squeeze, List.append_nil, List.take_of_length_le (by rw [List.length_reverse]; omega),
      List.reverse_reverse]
  | cons c rest ih =>
    rw [mangleLoop]
    by_cases full : cap ≤ out.length + 1
    · have size : cap - 1 = out.reverse.length := by rw [List.length_reverse]; omega
      rw [if_pos full, size, List.take_left, List.reverse_reverse]
    · rw [if_neg full, squeeze]
      split
      · rw [ih _ _ (by rw [List.length_cons]; omega), List.reverse_cons, List.append_assoc]
        rfl
      · split
        · exact ih _ _ room
        · rw [ih _ _ (by rw [List.length_cons]; omega), List.reverse_cons, List.append_assoc]
          rfl

theorem mangle_eq {cap : ℕ} (pos : 1 ≤ cap) (b : Bytes) :
    mangle b cap = trim underscore ((squeeze isAlnum underscore true b).take (cap - 1)) := by
  have loop := mangleLoop_eq b [] true pos
  rw [List.reverse_nil, List.nil_append] at loop
  unfold mangle
  rw [loop]
  generalize (squeeze isAlnum underscore true b).take (cap - 1) = text
  obtain rfl | ⟨text, c, rfl⟩ := List.eq_nil_or_concat' text
  · rfl
  · rw [List.reverse_append, trim, List.getLast?_concat, List.dropLast_concat]
    by_cases last : c = underscore
    · simp [last]
    · simp [last]

theorem mangle_words {cap : ℕ} (pos : 1 ≤ cap) (b : Bytes) :
    mangle b cap = trim underscore ((joined underscore (words isAlnum b)).take (cap - 1)) := by
  rw [mangle_eq pos, trim_squeeze (by decide)]

theorem mangle_alike (p q : Bytes) : mangle p 560 = mangle q 560 ↔ Alike p q := by
  rw [mangle_words (by decide), mangle_words (by decide)]
  exact Iff.rfl

theorem trim_length (text : Bytes) : (trim underscore text).length ≤ text.length := by
  unfold trim
  split
  · rw [List.length_dropLast]
    exact Nat.sub_le _ _
  · exact Nat.le_refl _

theorem mangle_length {cap : ℕ} (pos : 1 ≤ cap) (b : Bytes) : (mangle b cap).length ≤ cap - 1 := by
  rw [mangle_eq pos]
  exact (trim_length _).trans (List.length_take_le _ _)

theorem alike_words {p q : Bytes} (hp : (joined underscore (words isAlnum p)).length ≤ 559)
    (hq : (joined underscore (words isAlnum q)).length ≤ 559) :
    Alike p q ↔ words isAlnum p = words isAlnum q := by
  have other : isAlnum underscore = false := by decide
  have whole : ∀ b : Bytes, (joined underscore (words isAlnum b)).length ≤ 559 →
      wordsHeld b = joined underscore (words isAlnum b) := by
    intro b hb
    rw [wordsHeld, List.take_of_length_le hb, trim, if_neg (joined_last (words_free other b))]
  unfold Alike
  rw [whole p hp, whole q hq]
  exact ⟨joined_inj (words_free other p) (words_free other q), congrArg _⟩

theorem mangle_head {cap : ℕ} (pos : 2 ≤ cap) {c : UInt8} (alnum : isAlnum c = true) (b : Bytes) :
    ∃ rest, mangle (c :: b) cap = c :: rest := by
  have plain : c ≠ underscore := by
    rintro rfl
    revert alnum
    decide
  obtain ⟨n, rfl⟩ : ∃ n, cap = n + 2 := ⟨cap - 2, by omega⟩
  rw [mangle_eq (by omega), squeeze, if_pos alnum]
  change ∃ rest, trim underscore (c :: (squeeze isAlnum underscore false b).take n) = c :: rest
  cases (squeeze isAlnum underscore false b).take n with
  | nil => exact ⟨[], by simp [trim, plain]⟩
  | cons d text =>
    unfold trim
    split
    · exact ⟨_, List.dropLast_cons_cons⟩
    · exact ⟨_, rfl⟩

theorem objName_eq {pre : Bytes} (short : pre.length ≤ 38) (rel : Bytes) :
    objName pre rel = pre ++ (mangle rel 560 ++ ascii ".o") := by
  have size : (mangle rel 560).length ≤ 559 := mangle_length (by decide) rel
  unfold objName fit
  rw [List.append_assoc, List.take_of_length_le]
  rw [List.length_append, List.length_append]
  change pre.length + ((mangle rel 560).length + 2) ≤ 599
  omega

theorem objName_alike {pre : Bytes} (short : pre.length ≤ 38) (p q : Bytes) :
    objName pre p = objName pre q ↔ Alike p q := by
  rw [objName_eq short, objName_eq short, List.append_cancel_left_eq, List.append_cancel_right_eq]
  exact mangle_alike p q

theorem appPrefix_short (t : Target) : (appPrefix t).length ≤ 38 := by cases t <;> decide

theorem sdkPrefix_short (t : Target) : (sdkPrefix t).length ≤ 38 := by cases t <;> decide

theorem takesSource_head {t : Target} {rel : Bytes} (h : takesSource t rel = true) :
    ∃ rest, rel = 115 :: rest := by
  have below : ∀ dir : Bytes, (ascii "src/" ++ dir).isPrefixOf rel = true → ∃ rest, rel = 115 :: rest := by
    intro dir pre
    obtain ⟨rest, rfl⟩ := List.isPrefixOf_iff_prefix.mp pre
    exact ⟨_, rfl⟩
  have dirs := (Bool.and_eq_true_iff.mp h).2
  cases t with
  | client =>
    simp only [Bool.or_eq_true] at dirs
    rcases dirs with (h | h) | h
    · exact below (ascii "components/") h
    · exact below (ascii "shared/") h
    · exact below (ascii "client/") h
  | server =>
    simp only [Bool.or_eq_true] at dirs
    rcases dirs with (h | h) | h
    · exact below (ascii "routes/") h
    · exact below (ascii "server/") h
    · exact below (ascii "shared/") h

/-- A name starts with the prefix of the target and the first letter of what it was made from. -/
theorem source_obj {t : Target} {rel : Bytes} (h : takesSource t rel = true) :
    ∃ rest, objName (appPrefix t) rel = appPrefix t ++ 115 :: rest := by
  obtain ⟨path, rfl⟩ := takesSource_head h
  obtain ⟨rest, e⟩ : ∃ rest, mangle (115 :: path) 560 = 115 :: rest :=
    mangle_head (by decide) (by decide) path
  rw [objName_eq (appPrefix_short t), e]
  exact ⟨_, rfl⟩

theorem gen_obj {t : Target} {j : Job} (h : j ∈ genJobs t) :
    (∃ g, j.src = .gen g) ∧ ∃ rest, j.obj = appPrefix t ++ 103 :: rest := by
  cases t with
  | client =>
    simp only [genJobs, List.mem_cons, List.not_mem_nil, or_false] at h
    rcases h with rfl | rfl <;> exact ⟨⟨_, rfl⟩, _, rfl⟩
  | server =>
    simp only [genJobs, List.mem_cons, List.not_mem_nil, or_false] at h
    rcases h with rfl | rfl | rfl | rfl <;> exact ⟨⟨_, rfl⟩, _, rfl⟩

theorem gen_distinct (t : Target) : ∀ j ∈ genJobs t, ∀ k ∈ genJobs t, j.src ≠ k.src → j.obj ≠ k.obj := by
  cases t <;> decide

theorem runtime_apart {t : Target} {text rel : Bytes} : appPrefix t ++ text ≠ objName (sdkPrefix t) rel := by
  rw [objName_eq (sdkPrefix_short t)]
  intro e
  cases t with
  | client => exact absurd (List.cons.inj (List.cons.inj e).2).1 (by decide)
  | server => exact absurd (List.cons.inj (List.cons.inj e).2).1 (by decide)

section
variable {tc : Toolchain} {t : Target} {scan : Scan} {files : List SrcFile}

theorem job_of_taken {rel : Bytes} (h : rel ∈ taken t files) : appJob t scan rel ∈ jobsOf t scan files :=
  List.mem_append_left _ (List.mem_map_of_mem h)

theorem job_cases {j : Job} (h : j ∈ jobsOf t scan files) :
    (∃ rel ∈ taken t files, j = appJob t scan rel) ∨ j ∈ genJobs t := by
  obtain h | h := List.mem_append.mp h
  · obtain ⟨rel, hrel, rfl⟩ := List.mem_map.mp h
    exact .inl ⟨rel, hrel, rfl⟩
  · exact .inr h

theorem job_obj {j : Job} (h : j ∈ jobsOf t scan files) : ∃ rest, j.obj = appPrefix t ++ rest := by
  obtain ⟨rel, hrel, rfl⟩ | h := job_cases h
  · obtain ⟨rest, e⟩ := source_obj (List.mem_filter.mp hrel).2
    exact ⟨_, e⟩
  · obtain ⟨_, rest, e⟩ := gen_obj h
    exact ⟨_, e⟩

theorem taken_gen_apart {rel : Bytes} (hrel : rel ∈ taken t files) {k : Job} (hk : k ∈ genJobs t) :
    objName (appPrefix t) rel ≠ k.obj := by
  obtain ⟨r, er⟩ := source_obj (List.mem_filter.mp hrel).2
  obtain ⟨_, r', er'⟩ := gen_obj hk
  rw [er, er', ne_eq, List.append_cancel_left_eq]
  intro e
  exact absurd (List.cons.inj e).1 (by decide)

theorem distinctObjects_iff :
    DistinctObjects tc t scan files ↔ NoneAlike (taken t files) ∧ NoneAlike (tc.sdkSources t) := by
  constructor
  · intro h
    constructor
    · intro p hp q hq alike
      by_contra ne
      exact h.sources _ (job_of_taken hp) _ (job_of_taken hq) (fun e => ne (InFile.src.inj e))
        ((objName_alike (appPrefix_short t) p q).mpr alike)
    · intro p hp q hq alike
      by_contra ne
      exact h.runtime p hp q hq ne ((objName_alike (sdkPrefix_short t) p q).mpr alike)
  · rintro ⟨app, sdk⟩
    refine ⟨?_, ?_, ?_⟩
    · intro j hj k hk ne e
      obtain ⟨p, hp, rfl⟩ | hj := job_cases hj
      · obtain ⟨q, hq, rfl⟩ | hk := job_cases hk
        · have same := app p hp q hq ((objName_alike (appPrefix_short t) p q).mp e)
          exact ne (congrArg InFile.src same)
        · exact taken_gen_apart hp hk e
      · obtain ⟨q, hq, rfl⟩ | hk := job_cases hk
        · exact taken_gen_apart hq hj e.symm
        · exact gen_distinct t j hj k hk ne e
    · intro p hp q hq ne e
      exact ne (sdk p hp q hq ((objName_alike (sdkPrefix_short t) p q).mp e))
    · intro j hj p _ e
      obtain ⟨rest, named⟩ := job_obj hj
      exact runtime_apart (named.symm.trans e)

theorem srcs_nodup (paths : (files.map (·.path)).Nodup) :
    ((jobsOf t scan files).map (·.src)).Nodup := by
  have gens : ((genJobs t).map (·.src)).Nodup := by cases t <;> decide
  have apps : ((taken t files).map InFile.src).Nodup :=
    List.Nodup.map (fun _ _ e => InFile.src.inj e) (List.Nodup.filter _ paths)
  unfold jobsOf
  rw [List.map_append, List.map_map]
  refine List.nodup_append.mpr ⟨apps, gens, ?_⟩
  intro x hx y hy e
  obtain ⟨rel, _, rfl⟩ := List.mem_map.mp hx
  obtain ⟨k, hk, rfl⟩ := List.mem_map.mp hy
  obtain ⟨⟨g, hg⟩, _⟩ := gen_obj hk
  rw [hg] at e
  cases e

theorem DistinctObjects.names (h : DistinctObjects tc t scan files) (paths : (files.map (·.path)).Nodup) :
    ((jobsOf t scan files).map (·.obj)).Nodup := by
  have srcs : (jobsOf t scan files).Pairwise fun j k => j.src ≠ k.src :=
    List.pairwise_map.mp (srcs_nodup paths)
  exact List.pairwise_map.mpr (srcs.imp_of_mem fun hj hk ne => h.sources _ hj _ hk ne)

theorem DistinctObjects.linked (h : DistinctObjects tc t scan files) (paths : (files.map (·.path)).Nodup) :
    EverySourceLinked tc t scan files := by
  intro o s hs ok j hj
  have pooled := compilePool_pooled tc (flagsOf o t) (jobsOf t scan files) s (h.names paths)
  have named : (collect t (compilePool tc (flagsOf o t) s (jobsOf t scan files)).1).app j.obj =
      (findObj (compilePool tc (flagsOf o t) s (jobsOf t scan files)).1.objs j.obj).map (·.code) :=
    if_pos (jobsOf_named hj)
  rw [named]
  cases need : needsRebuild s j with
  | true =>
    obtain ⟨code, hcode⟩ := Option.isSome_iff_exists.mp (pooled.ok.mp ok j hj need)
    exact ⟨code, (pooled.rebuilt j hj need).trans hcode, by rw [if_pos rfl]; exact hcode⟩
  | false =>
    have there : (findObj s.objs j.obj).isSome := by
      unfold needsRebuild at need
      split at need
      · rename_i found
        rw [found]
        rfl
      · cases need
    obtain ⟨x, found⟩ := Option.isSome_iff_exists.mp there
    rw [pooled.kept j hj need, found]
    exact ⟨x.code, rfl, by rw [if_neg Bool.false_ne_true]; rfl⟩

end

/-- The sources of a target get objects of their own, and all are linked, exactly if no two of
them are alike. -/
theorem objects_distinct_iff (tc : Toolchain) (t : Target) (scan : Scan) {files : List SrcFile}
    (paths : (files.map (·.path)).Nodup) :
    DistinctObjects tc t scan files ∧ EverySourceLinked tc t scan files ↔
      NoneAlike (taken t files) ∧ NoneAlike (tc.sdkSources t) :=
  ⟨fun h => distinctObjects_iff.mp h.1, fun h =>
    ⟨distinctObjects_iff.mpr h, (distinctObjects_iff.mpr h).linked paths⟩⟩

def textFile (path : Bytes) : SrcFile := ⟨path, ascii "x", 1⟩

def twoRoutes : List SrcFile := [textFile (ascii "src/routes/a.c"), textFile (ascii "src/routes/a.post.c"),
  textFile (ascii "src/server/a.c")]

theorem objects_distinct_routes :
    DistinctObjects textTools .server ⟨[], []⟩ twoRoutes ∧
      EverySourceLinked textTools .server ⟨[], []⟩ twoRoutes :=
  (objects_distinct_iff textTools .server ⟨[], []⟩ (by decide +kernel)).mpr (by decide +kernel)

def twoShared : List SrcFile := [textFile (ascii "src/shared/a-b.c"), textFile (ascii "src/shared/a_b.c")]

/-- Two files whose names differ in a dash share an object. -/
theorem dash_object_shared : ¬ ∀ (tc : Toolchain) (t : Target) (scan : Scan) (files : List SrcFile),
    (files.map (·.path)).Nodup → DistinctObjects tc t scan files ∧ EverySourceLinked tc t scan files := by
  intro all
  have distinct := (all textTools .client ⟨[], []⟩ twoShared (by decide +kernel)).1
  have alike := (distinctObjects_iff.mp distinct).1
  exact absurd alike (by decide +kernel)

end Cerco.ObjectNames
