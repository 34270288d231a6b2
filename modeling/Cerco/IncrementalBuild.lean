import Cerco.RouteScan
import Cerco.TracedReads
import Cerco.TransitionRuns

set_option autoImplicit false

/-!
# `cerco build`

A build scans the tree, rewrites the generated sources that changed, compiles what
is out of date into `.cerco/obj` and links what lies there. Every write has a
later time than the writes before it. The compiler is any computation that reads
files, and `codegen` any text made from the tree: the build looks into neither.
The compile pool is taken one job after the other. Objects of the runtime are
named after the mode they were compiled in, which is all their contents depend on.
`args` and `view` of an object are history. Left out are the checks that stop a
build before it writes anything, and failures of the linker.
-/
namespace Cerco.IncrementalBuild
open Cerco.CString Cerco.RouteScan Cerco.TracedReads Cerco.TransitionRuns

abbrev Content := Bytes

structure SrcFile where
  path : Bytes
  content : Content
  mtime : ℕ
deriving DecidableEq

/-- The files of `.cerco/gen`. -/
inductive GenFile
  | routes
  | main
  | sfServer
  | sfClientH
  | sfClient
  | components
  | assets
deriving DecidableEq

inductive InFile
  | src (path : Bytes)
  | gen (g : GenFile)
deriving DecidableEq

/-- What can be read; `none` is a file that does not exist. -/
abbrev View := InFile → Option Content

inductive Target
  | client
  | server
deriving DecidableEq

/-- `-Oz` for wasm, else the native mode. -/
inductive Flags
  | wasm
  | native (release : Bool)
deriving DecidableEq

structure Args where
  src : InFile
  define : Bytes
  flags : Flags
deriving DecidableEq

structure Obj where
  name : Bytes
  code : Bytes
  mtime : ℕ
  args : Args
  view : View

structure SdkObj where
  name : Bytes
  flags : Flags
  mtime : ℕ
deriving DecidableEq

structure Linked where
  app : Bytes → Option Bytes
  sdk : List (Bytes × Flags)

structure Artifact where
  linked : Linked
  mtime : ℕ

structure Toolchain where
  clang : Args → Reads InFile (Option Content) (Option Bytes)
  codegen : GenFile → Scan → List (Bytes × Content) → Content
  genAssets : (devAssets : Bool) → Linked → List (Bytes × Content) → Content
  sdkSources : Target → List Bytes
  libTime : ℕ

/-- `.cerco`, the outputs and the object cache of the machine. -/
structure BuildSt where
  clock : ℕ
  files : List SrcFile
  gens : GenFile → Option (Content × ℕ)
  objs : List Obj
  sdkObjs : Target → List SdkObj
  cached : Flags → Bytes → Option ℕ
  outs : Target → Option Artifact

/-- The options of a build; `cache` says that the machine has a cache directory. -/
structure Opts where
  release : Bool
  devAssets : Bool
  cache : Bool
deriving DecidableEq

def flagsOf (o : Opts) : Target → Flags
  | .client => .wasm
  | .server => .native o.release

def tree (s : BuildSt) : List (Bytes × Content) := s.files.map fun f => (f.path, f.content)

def viewOf (s : BuildSt) : View
  | .src path => (s.files.find? (·.path == path)).map (·.content)
  | .gen g => (s.gens g).map (·.1)

def sourceMtime (s : BuildSt) : InFile → Option ℕ
  | .src path => (s.files.find? (·.path == path)).map (·.mtime)
  | .gen g => (s.gens g).map (·.2)

structure Job where
  src : InFile
  obj : Bytes
  define : Bytes
deriving DecidableEq

/-- `compile_app_sources_cb` takes the file into this target. -/
def takesSource (t : Target) (rel : Bytes) : Bool :=
  endsWith rel (ascii ".c") &&
  match t with
  | .client => (ascii "src/components/").isPrefixOf rel || (ascii "src/shared/").isPrefixOf rel ||
      (ascii "src/client/").isPrefixOf rel
  | .server => (ascii "src/routes/").isPrefixOf rel || (ascii "src/server/").isPrefixOf rel ||
      (ascii "src/shared/").isPrefixOf rel

def appPrefix : Target → Bytes
  | .client => ascii "wa_"
  | .server => ascii "sa_"

def sdkPrefix : Target → Bytes
  | .client => ascii "wrt_"
  | .server => ascii "sdk_"

def objName (pre rel : Bytes) : Bytes := fit 600 (pre ++ mangle rel 560 ++ ascii ".o")

def appJob (t : Target) (scan : Scan) (rel : Bytes) : Job :=
  { src := .src rel
    obj := objName (appPrefix t) rel
    define := match t with
      | .client => []
      | .server => symbolDefine scan rel }

def genJobs : Target → List Job
  | .client => [⟨.gen .sfClient, ascii "wa_gen_sf_client.o", []⟩,
      ⟨.gen .components, ascii "wa_gen_components.o", []⟩]
  | .server => [⟨.gen .routes, ascii "sa_gen_routes.o", []⟩, ⟨.gen .main, ascii "sa_gen_main.o", []⟩,
      ⟨.gen .sfServer, ascii "sa_gen_sf_server.o", []⟩, ⟨.gen .assets, ascii "sa_gen_assets.o", []⟩]

def jobsOf (t : Target) (scan : Scan) (files : List SrcFile) : List Job :=
  ((files.map (·.path)).filter (takesSource t)).map (appJob t scan) ++ genJobs t

def writeIfChanged (s : BuildSt) (g : GenFile) (text : Content) : BuildSt :=
  if (s.gens g).map (·.1) = some text then s
  else
    { s with
      gens := fun g' => if g' = g then some (text, s.clock) else s.gens g'
      clock := s.clock + 1 }

def generate (tc : Toolchain) (scan : Scan) (s : BuildSt) : BuildSt :=
  [GenFile.routes, .main, .sfServer, .sfClientH, .sfClient, .components].foldl
    (fun s g => writeIfChanged s g (tc.codegen g scan (tree s))) s

def findObj (objs : List Obj) (name : Bytes) : Option Obj := objs.find? (·.name == name)

def needsRebuild (s : BuildSt) (j : Job) : Bool :=
  match sourceMtime s j.src, findObj s.objs j.obj with
  | some smt, some o => o.mtime < smt
  | _, _ => true

def dropObj (objs : List Obj) (name : Bytes) : List Obj := objs.filter (·.name != name)

/-- `compile_obj` for a source of the application; `clang` removes the output of a compile that
failed. -/
def compileObj (tc : Toolchain) (flags : Flags) (s : BuildSt) (j : Job) : BuildSt × Bool :=
  if needsRebuild s j then
    let args : Args := ⟨j.src, j.define, flags⟩
    match (tc.clang args).run (viewOf s) with
    | none => ({ s with objs := dropObj s.objs j.obj }, false)
    | some code =>
      ({ s with
         objs := ⟨j.obj, code, s.clock, args, viewOf s⟩ :: dropObj s.objs j.obj
         clock := s.clock + 1 }, true)
  else (s, true)

/-- `run_compile_pool`: all jobs are done, even when one has failed. -/
def compilePool (tc : Toolchain) (flags : Flags) (s : BuildSt) : List Job → BuildSt × Bool
  | [] => (s, true)
  | j :: jobs =>
    let (s, ok) := compileObj tc flags s j
    let (s, rest) := compilePool tc flags s jobs
    (s, ok && rest)

def sdkNames (tc : Toolchain) (t : Target) : List Bytes :=
  (tc.sdkSources t).map (objName (sdkPrefix t))

/-- `compile_obj` for the sources of the runtime: the cached object keeps its time. -/
def installSdk (tc : Toolchain) (o : Opts) (t : Target) (s : BuildSt) : BuildSt :=
  let flags := flagsOf o t
  let mtimeOf := fun name => if o.cache then (s.cached flags name).getD s.clock else s.clock
  { s with
    sdkObjs := fun t' => if t' = t then (sdkNames tc t).map fun name => ⟨name, flags, mtimeOf name⟩
      else s.sdkObjs t'
    cached := fun f name =>
      if o.cache ∧ f = flags ∧ name ∈ sdkNames tc t then some (mtimeOf name) else s.cached f name
    clock := s.clock + 1 }

/-- `collect_obj_cb` with the two prefixes of the target. -/
def collect (t : Target) (s : BuildSt) : Linked :=
  { app := fun name =>
      if (appPrefix t).isPrefixOf name then (findObj s.objs name).map (·.code) else none
    sdk := (s.sdkObjs t).map fun x => (x.name, x.flags) }

/-- `outputs_up_to_date`: newer than every object of either target and the static libraries. -/
def outputsUpToDate (tc : Toolchain) (s : BuildSt) (out : Artifact) : Prop :=
  (∀ x ∈ s.objs, x.mtime < out.mtime) ∧ (∀ t, ∀ x ∈ s.sdkObjs t, x.mtime < out.mtime) ∧
    tc.libTime < out.mtime

instance (tc : Toolchain) (s : BuildSt) (out : Artifact) : Decidable (outputsUpToDate tc s out) :=
  decidable_of_iff
    ((∀ x ∈ s.objs, x.mtime < out.mtime) ∧ ((∀ x ∈ s.sdkObjs .client, x.mtime < out.mtime) ∧
      ∀ x ∈ s.sdkObjs .server, x.mtime < out.mtime) ∧ tc.libTime < out.mtime)
    ⟨fun h => ⟨h.1, fun t => by cases t; exacts [h.2.1.1, h.2.1.2], h.2.2⟩,
      fun h => ⟨h.1, ⟨h.2.1 .client, h.2.1 .server⟩, h.2.2⟩⟩

def linkTarget (tc : Toolchain) (t : Target) (s : BuildSt) : BuildSt :=
  let relink : BuildSt :=
    { s with
      outs := fun t' => if t' = t then some ⟨collect t s, s.clock⟩ else s.outs t'
      clock := s.clock + 1 }
  match s.outs t with
  | none => relink
  | some out => if outputsUpToDate tc s out then s else relink

def buildTarget (tc : Toolchain) (o : Opts) (t : Target) (scan : Scan) (s : BuildSt) :
    BuildSt × Bool :=
  let (s, ok) := compilePool tc (flagsOf o t) s (jobsOf t scan s.files)
  let s := installSdk tc o t s
  if ok then (linkTarget tc t s, true) else (s, false)

def linkedOf (s : BuildSt) (t : Target) : Option Linked := (s.outs t).map (·.linked)

/-- `gen_assets` from the linked client. -/
def generateAssets (tc : Toolchain) (o : Opts) (s : BuildSt) : BuildSt :=
  match linkedOf s .client with
  | none => s
  | some linked => writeIfChanged s .assets (tc.genAssets o.devAssets linked (tree s))

def routeRels (files : List SrcFile) : List Bytes :=
  ((files.map (·.path)).filter routesDir.isPrefixOf).map (·.drop routesDir.length)

/-- `cmd_build`; `none` when the scan does not end, and the flag is its exit status. -/
def cmdBuild (tc : Toolchain) (o : Opts) (s : BuildSt) : Option (BuildSt × Bool) :=
  (scanRoutes (routeRels s.files)).map fun scan =>
    let s := generate tc scan s
    let (s, ok) := buildTarget tc o .client scan s
    if ok then buildTarget tc o .server scan (generateAssets tc o s) else (s, false)

def Edited (s : BuildSt) (files : List SrcFile) : Prop :=
  (files.map (·.path)).Nodup ∧ ∀ f ∈ files, f ∈ s.files ∨ f.mtime = s.clock

instance (s : BuildSt) (files : List SrcFile) : Decidable (Edited s files) :=
  inferInstanceAs (Decidable (_ ∧ _))

inductive Event
  | edit (files : List SrcFile)
  | build (o : Opts)

def projectStep (tc : Toolchain) (s : BuildSt) : Event → Option BuildSt
  | .edit files => if Edited s files then some { s with files := files, clock := s.clock + 1 } else none
  | .build o => (cmdBuild tc o s).map (·.1)

/-- A project that was never built, on a machine with any object cache. -/
def fresh (files : List SrcFile) (cached : Flags → Bytes → Option ℕ) (clock : ℕ) : BuildSt :=
  { clock := clock
    files := files
    gens := fun _ => none
    objs := []
    sdkObjs := fun _ => []
    cached := cached
    outs := fun _ => none }

def projectSystem (tc : Toolchain) : System BuildSt Event where
  start s := ∃ files cached clock, (files.map fun f : SrcFile => f.path).Nodup ∧ s = fresh files cached clock
  step := projectStep tc

/-- What both targets were linked from; `none` when the build fails. -/
def outcome (r : BuildSt × Bool) : Option (Option Linked × Option Linked) :=
  if r.2 then some (linkedOf r.1 .client, linkedOf r.1 .server) else none

/-- The project without `.cerco/obj`. -/
def wipe (s : BuildSt) : BuildSt := { s with objs := [], sdkObjs := fun _ => [] }

/-- A target whose compile starts in this state ends up with fresh objects: what lies in
`.cerco/obj` belongs to a job of its own, an object that is not rebuilt was compiled with the
same arguments from files that still have the same text, its own source apart, and an output
that is not linked again was linked from the objects that lie there. -/
structure Ready (tc : Toolchain) (o : Opts) (t : Target) (scan : Scan) (s : BuildSt) : Prop where
  stray : ∀ x ∈ s.objs, (appPrefix t).isPrefixOf x.name →
    ∃ j ∈ jobsOf t scan s.files, j.obj = x.name
  names : ((jobsOf t scan s.files).map (·.obj)).Nodup
  inputs : ∀ j ∈ jobsOf t scan s.files, needsRebuild s j = false →
    ∀ x, findObj s.objs j.obj = some x → x.args = ⟨j.src, j.define, flagsOf o t⟩ ∧
      ∀ k ∈ (tc.clang x.args).trace x.view, k ≠ j.src → viewOf s k = x.view k
  links : (∀ j ∈ jobsOf t scan s.files, needsRebuild s j = false) →
    ∀ out, s.outs t = some out → outputsUpToDate tc (installSdk tc o t s) out →
      out.linked = collect t (installSdk tc o t s)

/-- Both targets are ready when their turn comes. -/
def Clean (tc : Toolchain) (o : Opts) (s : BuildSt) : Prop :=
  ∀ scan, scanRoutes (routeRels s.files) = some scan →
    Ready tc o .client scan (generate tc scan s) ∧
    ∀ t, buildTarget tc o .client scan (generate tc scan s) = (t, true) →
      Ready tc o .server scan (generateAssets tc o t)

/-- An object that is not older than its source was compiled from the present text of it. -/
structure BuildInv (tc : Toolchain) (s : BuildSt) : Prop where
  paths : (s.files.map (·.path)).Nodup
  objs_lt : ∀ x ∈ s.objs, x.mtime < s.clock
  outs_lt : ∀ t out, s.outs t = some out → out.mtime < s.clock
  made : ∀ x ∈ s.objs, (tc.clang x.args).run x.view = some x.code
  unchanged : ∀ x ∈ s.objs, ∀ mt, sourceMtime s x.args.src = some mt → mt ≤ x.mtime →
    viewOf s x.args.src = x.view x.args.src

section
variable {tc : Toolchain}

theorem BuildInv.fresh {files : List SrcFile} {cached : Flags → Bytes → Option ℕ} {clock : ℕ}
    (paths : (files.map (·.path)).Nodup) : BuildInv tc (fresh files cached clock) := by
  refine ⟨paths, ?_, ?_, ?_, ?_⟩
  · intro x hx
    cases hx
  · intro t out hout
    cases hout
  · intro x hx
    cases hx
  · intro x hx
    cases hx

theorem BuildInv.wipe {s : BuildSt} (h : BuildInv tc s) : BuildInv tc (wipe s) := by
  refine ⟨h.paths, ?_, h.outs_lt, ?_, ?_⟩
  · intro x hx
    cases hx
  · intro x hx
    cases hx
  · intro x hx
    cases hx

theorem find_path {files : List SrcFile} (paths : (files.map (·.path)).Nodup) {f : SrcFile}
    (hf : f ∈ files) : files.find? (·.path == f.path) = some f := by
  induction files with
  | nil => cases hf
  | cons g files ih =>
    obtain ⟨notin, nodup⟩ := List.nodup_cons.mp paths
    rw [List.find?_cons]
    obtain rfl | hf := List.mem_cons.mp hf
    · simp
    · have other : g.path ≠ f.path := by
        intro e
        refine notin ?_
        change g.path ∈ _
        rw [e]
        exact List.mem_map_of_mem hf
      rw [show (g.path == f.path) = false by simpa using other]
      exact ih nodup hf

theorem BuildInv.edit {s : BuildSt} (h : BuildInv tc s) {files : List SrcFile}
    (edited : Edited s files) :
    BuildInv tc { s with files := files, clock := s.clock + 1 } := by
  refine ⟨edited.1, fun x hx => Nat.lt_succ_of_lt (h.objs_lt x hx),
    fun t out hout => Nat.lt_succ_of_lt (h.outs_lt t out hout), h.made, ?_⟩
  intro x hx mt hmt le
  cases hsrc : x.args.src with
  | gen g =>
    rw [hsrc] at hmt
    have before := h.unchanged x hx mt (by rw [hsrc]; exact hmt) le
    rw [hsrc] at before
    exact before
  | src path =>
    rw [hsrc] at hmt
    obtain ⟨f, found, rfl⟩ := Option.map_eq_some_iff.mp hmt
    have mem : f ∈ files := List.mem_of_find?_eq_some found
    have named : f.path = path := by simpa using List.find?_some found
    obtain old | new := edited.2 f mem
    · have was : s.files.find? (·.path == path) = some f := by
        rw [← named]
        exact find_path h.paths old
      have before := h.unchanged x hx f.mtime (by
        rw [hsrc]
        change (s.files.find? (·.path == path)).map (·.mtime) = some f.mtime
        rw [was]
        rfl) le
      rw [hsrc] at before
      rw [← before]
      change (files.find? (·.path == path)).map (·.content)
        = (s.files.find? (·.path == path)).map (·.content)
      rw [found, was]
    · have lt := h.objs_lt x hx
      omega

theorem BuildInv.write {s : BuildSt} (h : BuildInv tc s) (g : GenFile) (text : Content) :
    BuildInv tc (writeIfChanged s g text) := by
  unfold writeIfChanged
  split
  · exact h
  · refine ⟨h.paths, fun x hx => Nat.lt_succ_of_lt (h.objs_lt x hx),
      fun t out hout => Nat.lt_succ_of_lt (h.outs_lt t out hout), h.made, ?_⟩
    intro x hx mt hmt le
    cases hsrc : x.args.src with
    | src path =>
      rw [hsrc] at hmt
      have before := h.unchanged x hx mt (by rw [hsrc]; exact hmt) le
      rw [hsrc] at before
      exact before
    | gen g' =>
      rw [hsrc] at hmt
      by_cases same : g' = g
      · simp only [sourceMtime, same, ↓reduceIte, Option.map_some, Option.some.injEq] at hmt
        have lt := h.objs_lt x hx
        omega
      · simp only [sourceMtime, same, ↓reduceIte] at hmt
        have before := h.unchanged x hx mt (by rw [hsrc]; exact hmt) le
        rw [hsrc] at before
        rw [← before]
        simp only [viewOf, same, ↓reduceIte]

theorem findObj_some {objs : List Obj} {name : Bytes} {x : Obj} (h : findObj objs name = some x) :
    x ∈ objs ∧ x.name = name :=
  ⟨List.mem_of_find?_eq_some h, by simpa using List.find?_some h⟩

theorem findObj_drop_self (objs : List Obj) (name : Bytes) :
    findObj (dropObj objs name) name = none := by
  refine List.find?_eq_none.mpr ?_
  intro x hx
  simpa using (List.mem_filter.mp hx).2

theorem findObj_drop_of_ne (objs : List Obj) {name other : Bytes} (ne : other ≠ name) :
    findObj (dropObj objs name) other = findObj objs other := by
  unfold findObj dropObj
  rw [List.find?_filter]
  congr 1
  funext x
  by_cases e : x.name = other
  · simp [e, ne]
  · simp [e]

def codeOf (tc : Toolchain) (flags : Flags) (view : View) (j : Job) : Option Bytes :=
  (tc.clang ⟨j.src, j.define, flags⟩).run view

theorem compileObj_cases (tc : Toolchain) (flags : Flags) (s : BuildSt) (j : Job) :
    (needsRebuild s j = false ∧ compileObj tc flags s j = (s, true)) ∨
    (needsRebuild s j = true ∧ codeOf tc flags (viewOf s) j = none ∧
      compileObj tc flags s j = ({ s with objs := dropObj s.objs j.obj }, false)) ∨
    ∃ code, needsRebuild s j = true ∧ codeOf tc flags (viewOf s) j = some code ∧
      compileObj tc flags s j =
        ({ s with
           objs := ⟨j.obj, code, s.clock, ⟨j.src, j.define, flags⟩, viewOf s⟩ :: dropObj s.objs j.obj
           clock := s.clock + 1 }, true) := by
  unfold compileObj codeOf
  cases hn : needsRebuild s j with
  | false => exact .inl ⟨rfl, rfl⟩
  | true =>
    cases hc : (tc.clang ⟨j.src, j.define, flags⟩).run (viewOf s) with
    | none => exact .inr (.inl ⟨rfl, rfl, by simp [hc]⟩)
    | some code => exact .inr (.inr ⟨code, rfl, rfl, by simp [hc]⟩)

/-- The tree, the generated files, the runtime objects and the outputs stay. -/
structure SameInputs (s t : BuildSt) : Prop where
  files : t.files = s.files
  gens : t.gens = s.gens
  sdkObjs : t.sdkObjs = s.sdkObjs
  cached : t.cached = s.cached
  outs : t.outs = s.outs

theorem SameInputs.refl (s : BuildSt) : SameInputs s s := ⟨rfl, rfl, rfl, rfl, rfl⟩

theorem SameInputs.trans {s t u : BuildSt} (h : SameInputs s t) (k : SameInputs t u) :
    SameInputs s u :=
  ⟨k.files.trans h.files, k.gens.trans h.gens, k.sdkObjs.trans h.sdkObjs,
    k.cached.trans h.cached, k.outs.trans h.outs⟩

theorem viewOf_congr {s t : BuildSt} (files : t.files = s.files) (gens : t.gens = s.gens) :
    viewOf t = viewOf s := by
  funext k
  cases k with
  | src path =>
    unfold viewOf
    rw [files]
  | gen g =>
    unfold viewOf
    rw [gens]

theorem SameInputs.view {s t : BuildSt} (h : SameInputs s t) : viewOf t = viewOf s :=
  viewOf_congr h.files h.gens

theorem SameInputs.mtime {s t : BuildSt} (h : SameInputs s t) (k : InFile) :
    sourceMtime t k = sourceMtime s k := by
  cases k with
  | src path =>
    unfold sourceMtime
    rw [h.files]
  | gen g =>
    unfold sourceMtime
    rw [h.gens]

theorem SameInputs.needsRebuild {s t : BuildSt} (h : SameInputs s t) {j : Job}
    (obj : findObj t.objs j.obj = findObj s.objs j.obj) :
    needsRebuild t j = needsRebuild s j := by
  unfold IncrementalBuild.needsRebuild
  rw [h.mtime, obj]

/-- One compile: other objects stay, and a rebuilt one is newer than the rest. -/
structure Compiled (tc : Toolchain) (flags : Flags) (s : BuildSt) (j : Job) (r : BuildSt × Bool) :
    Prop where
  same : SameInputs s r.1
  clock : s.clock ≤ r.1.clock
  other : ∀ name, name ≠ j.obj → findObj r.1.objs name = findObj s.objs name
  kept : needsRebuild s j = false → findObj r.1.objs j.obj = findObj s.objs j.obj
  rebuilt : needsRebuild s j = true →
    (findObj r.1.objs j.obj).map (·.code) = codeOf tc flags (viewOf s) j
  idle : needsRebuild s j = false → r.1 = s
  ok : r.2 = true ↔ (needsRebuild s j = true → (codeOf tc flags (viewOf s) j).isSome)
  newer : needsRebuild s j = true → r.2 = true →
    ∃ x, findObj r.1.objs j.obj = some x ∧ s.clock ≤ x.mtime
  members : ∀ x ∈ r.1.objs, x ∈ s.objs ∨ x.name = j.obj

theorem compileObj_compiled (tc : Toolchain) (flags : Flags) (s : BuildSt) (j : Job) :
    Compiled tc flags s j (compileObj tc flags s j) := by
  obtain ⟨hn, e⟩ | ⟨hn, hc, e⟩ | ⟨code, hn, hc, e⟩ := compileObj_cases tc flags s j <;> rw [e]
  · refine ⟨.refl s, Nat.le_refl _, fun _ _ => rfl, fun _ => rfl, ?_, fun _ => rfl, ?_, ?_,
      fun x hx => .inl hx⟩
    · intro need
      rw [hn] at need
      cases need
    · simp [hn]
    · intro need
      rw [hn] at need
      cases need
  · refine ⟨⟨rfl, rfl, rfl, rfl, rfl⟩, Nat.le_refl _, ?_, ?_, ?_, ?_, ?_, ?_, ?_⟩
    · intro name ne
      exact findObj_drop_of_ne s.objs ne
    · intro keep
      rw [hn] at keep
      cases keep
    · intro _
      rw [hc]
      exact congrArg _ (findObj_drop_self s.objs j.obj)
    · intro keep
      rw [hn] at keep
      cases keep
    · simp [hn, hc]
    · intro _ ok
      cases ok
    · intro x hx
      exact .inl (List.mem_filter.mp hx).1
  · refine ⟨⟨rfl, rfl, rfl, rfl, rfl⟩, Nat.le_succ _, ?_, ?_, ?_, ?_, ?_, ?_, ?_⟩
    · intro name ne
      have front : (j.obj == name) = false := by simpa using ne.symm
      change (_ :: dropObj s.objs j.obj).find? (·.name == name) = _
      rw [List.find?_cons, front]
      exact findObj_drop_of_ne s.objs ne
    · intro keep
      rw [hn] at keep
      cases keep
    · intro _
      rw [hc]
      simp [findObj]
    · intro keep
      rw [hn] at keep
      cases keep
    · simp [hn, hc]
    · intro _ _
      exact ⟨_, List.find?_cons_of_pos (by simp), Nat.le_refl _⟩
    · intro x hx
      obtain rfl | hx := List.mem_cons.mp hx
      · exact .inr rfl
      · exact .inl (List.mem_filter.mp hx).1

theorem BuildInv.compileObj {s : BuildSt} (h : BuildInv tc s) (flags : Flags) (j : Job) :
    BuildInv tc (compileObj tc flags s j).1 := by
  obtain ⟨_, e⟩ | ⟨_, _, e⟩ | ⟨code, _, hc, e⟩ := compileObj_cases tc flags s j <;> rw [e]
  · exact h
  · have old : ∀ x ∈ dropObj s.objs j.obj, x ∈ s.objs := fun x hx => (List.mem_filter.mp hx).1
    exact ⟨h.paths, fun x hx => h.objs_lt x (old x hx), h.outs_lt, fun x hx => h.made x (old x hx),
      fun x hx => h.unchanged x (old x hx)⟩
  · have old : ∀ x ∈ dropObj s.objs j.obj, x ∈ s.objs := fun x hx => (List.mem_filter.mp hx).1
    refine ⟨h.paths, ?_, fun t out hout => Nat.lt_succ_of_lt (h.outs_lt t out hout), ?_, ?_⟩
    · intro x hx
      obtain rfl | hx := List.mem_cons.mp hx
      · exact Nat.lt_succ_self _
      · exact Nat.lt_succ_of_lt (h.objs_lt x (old x hx))
    · intro x hx
      obtain rfl | hx := List.mem_cons.mp hx
      · exact hc
      · exact h.made x (old x hx)
    · intro x hx
      obtain rfl | hx := List.mem_cons.mp hx
      · exact fun _ _ _ => rfl
      · exact h.unchanged x (old x hx)

/-- The pool: every job that needs it is rebuilt, from the inputs that the pool started with. -/
structure Pooled (tc : Toolchain) (flags : Flags) (s : BuildSt) (jobs : List Job)
    (r : BuildSt × Bool) : Prop where
  same : SameInputs s r.1
  clock : s.clock ≤ r.1.clock
  other : ∀ name, name ∉ jobs.map (·.obj) → findObj r.1.objs name = findObj s.objs name
  kept : ∀ j ∈ jobs, needsRebuild s j = false → findObj r.1.objs j.obj = findObj s.objs j.obj
  rebuilt : ∀ j ∈ jobs, needsRebuild s j = true →
    (findObj r.1.objs j.obj).map (·.code) = codeOf tc flags (viewOf s) j
  idle : (∀ j ∈ jobs, needsRebuild s j = false) → r.1 = s
  ok : r.2 = true ↔
    ∀ j ∈ jobs, needsRebuild s j = true → (codeOf tc flags (viewOf s) j).isSome
  newer : r.2 = true → (∃ j ∈ jobs, needsRebuild s j = true) → ∃ x ∈ r.1.objs, s.clock ≤ x.mtime
  members : ∀ x ∈ r.1.objs, x ∈ s.objs ∨ ∃ j ∈ jobs, x.name = j.obj

theorem compilePool_pooled (tc : Toolchain) (flags : Flags) (jobs : List Job) (s : BuildSt)
    (names : (jobs.map (·.obj)).Nodup) :
    Pooled tc flags s jobs (compilePool tc flags s jobs) := by
  induction jobs generalizing s with
  | nil =>
    refine ⟨.refl s, Nat.le_refl _, fun _ _ => rfl, ?_, ?_, fun _ => rfl, ⟨?_, fun _ => rfl⟩, ?_,
      fun x hx => .inl hx⟩
    · intro j hj
      cases hj
    · intro j hj
      cases hj
    · intro _ j hj
      cases hj
    · rintro _ ⟨j, hj, _⟩
      cases hj
  | cons j jobs ih =>
    obtain ⟨notin, nodup⟩ := List.nodup_cons.mp names
    have one := compileObj_compiled tc flags s j
    have rest := ih (compileObj tc flags s j).1 nodup
    have view := one.same.view
    -- the jobs behind see the objects that the first one leaves alone
    have apart : ∀ k ∈ jobs, k.obj ≠ j.obj := by
      intro k hk e
      refine notin ?_
      change j.obj ∈ _
      rw [← e]
      exact List.mem_map_of_mem hk
    have need : ∀ k ∈ jobs, needsRebuild (compileObj tc flags s j).1 k = needsRebuild s k :=
      fun k hk => one.same.needsRebuild (one.other k.obj (apart k hk))
    have step : compilePool tc flags s (j :: jobs) =
        ((compilePool tc flags (compileObj tc flags s j).1 jobs).1,
          (compileObj tc flags s j).2 && (compilePool tc flags (compileObj tc flags s j).1 jobs).2) :=
      rfl
    rw [step]
    refine ⟨one.same.trans rest.same, one.clock.trans rest.clock, ?_, ?_, ?_, ?_, ?_, ?_, ?_⟩
    · intro name hname
      rw [List.map_cons, List.mem_cons, not_or] at hname
      rw [rest.other name hname.2]
      exact one.other name hname.1
    · intro k hk keep
      obtain rfl | hk := List.mem_cons.mp hk
      · rw [rest.other _ notin]
        exact one.kept keep
      · rw [rest.kept k hk (by rw [need k hk]; exact keep)]
        exact one.other k.obj (apart k hk)
    · intro k hk build
      obtain rfl | hk := List.mem_cons.mp hk
      · rw [rest.other _ notin]
        exact one.rebuilt build
      · rw [← view]
        exact rest.rebuilt k hk (by rw [need k hk]; exact build)
    · intro idle
      have first : (compileObj tc flags s j).1 = s := one.idle (idle j List.mem_cons_self)
      have others := rest.idle fun k hk => by
        rw [need k hk]
        exact idle k (List.mem_cons_of_mem j hk)
      exact others.trans first
    · rw [Bool.and_eq_true_iff, one.ok, rest.ok, List.forall_mem_cons, view]
      refine and_congr_right fun _ => ?_
      constructor
      · intro all k hk hn
        exact all k hk (by rw [need k hk]; exact hn)
      · intro all k hk hn
        exact all k hk (by rw [← need k hk]; exact hn)
    · intro ok build
      obtain ⟨okFirst, okRest⟩ := Bool.and_eq_true_iff.mp ok
      obtain ⟨k, hk, hn⟩ := build
      obtain rfl | hk := List.mem_cons.mp hk
      · -- the later jobs do not touch the new object
        obtain ⟨x, found, le⟩ := one.newer hn okFirst
        have still := (rest.other k.obj notin).trans found
        exact ⟨x, (findObj_some still).1, le⟩
      · obtain ⟨x, hx, le⟩ := rest.newer okRest ⟨k, hk, by rw [need k hk]; exact hn⟩
        exact ⟨x, hx, one.clock.trans le⟩
    · intro x hx
      obtain old | ⟨k, hk, e⟩ := rest.members x hx
      · obtain old | e := one.members x old
        · exact .inl old
        · exact .inr ⟨j, List.mem_cons_self, e⟩
      · exact .inr ⟨k, List.mem_cons_of_mem j hk, e⟩

theorem BuildInv.compilePool {s : BuildSt} (h : BuildInv tc s) (flags : Flags) (jobs : List Job) :
    BuildInv tc (compilePool tc flags s jobs).1 := by
  induction jobs generalizing s with
  | nil => exact h
  | cons j jobs ih => exact ih (h.compileObj flags j)

theorem kept_code {o : Opts} {t : Target} {scan : Scan} {s : BuildSt} (h : BuildInv tc s)
    (ready : Ready tc o t scan s) {j : Job} (hj : j ∈ jobsOf t scan s.files)
    (keep : needsRebuild s j = false) :
    ∃ x, findObj s.objs j.obj = some x ∧ codeOf tc (flagsOf o t) (viewOf s) j = some x.code := by
  cases hm : sourceMtime s j.src with
  | none => simp [needsRebuild, hm] at keep
  | some smt =>
    cases hf : findObj s.objs j.obj with
    | none => simp [needsRebuild, hm, hf] at keep
    | some x =>
      have notNewer : smt ≤ x.mtime := by simpa [needsRebuild, hm, hf] using keep
      obtain ⟨args, reads⟩ := ready.inputs j hj keep x hf
      have mem := (findObj_some hf).1
      have own : viewOf s j.src = x.view j.src := by
        have same := h.unchanged x mem smt (by rw [args]; exact hm) notNewer
        rw [args] at same
        exact same
      refine ⟨x, rfl, ?_⟩
      unfold codeOf
      rw [← args, ← h.made x mem]
      refine Reads.run_congr _ ?_
      intro k hk
      by_cases e : k = j.src
      · rw [e]
        exact own
      · exact reads k hk e

def AllCompile (tc : Toolchain) (flags : Flags) (view : View) (jobs : List Job) : Prop :=
  ∀ j ∈ jobs, (codeOf tc flags view j).isSome

def freshLinked (tc : Toolchain) (o : Opts) (t : Target) (view : View) (jobs : List Job) : Linked :=
  { app := fun name => (jobs.find? (·.obj == name)).bind (codeOf tc (flagsOf o t) view)
    sdk := (sdkNames tc t).map fun name => (name, flagsOf o t) }

theorem objName_named {pre : Bytes} (short : pre.length ≤ 599) (rel : Bytes) :
    pre.isPrefixOf (objName pre rel) := by
  rw [List.isPrefixOf_iff_prefix]
  unfold objName fit
  rw [List.append_assoc, List.take_append, List.take_of_length_le short]
  exact List.prefix_append _ _

theorem genJobs_named (t : Target) : ∀ j ∈ genJobs t, (appPrefix t).isPrefixOf j.obj := by
  cases t <;> decide

theorem jobsOf_named {t : Target} {scan : Scan} {files : List SrcFile} {j : Job}
    (hj : j ∈ jobsOf t scan files) : (appPrefix t).isPrefixOf j.obj := by
  obtain hj | hj := List.mem_append.mp hj
  · obtain ⟨rel, _, rfl⟩ := List.mem_map.mp hj
    refine objName_named ?_ rel
    cases t <;> decide
  · exact genJobs_named t j hj

theorem genJob_mem (t : Target) (scan : Scan) (files : List SrcFile) :
    ∃ j, j ∈ jobsOf t scan files := by
  cases t with
  | client => exact ⟨_, List.mem_append_right _ List.mem_cons_self⟩
  | server => exact ⟨_, List.mem_append_right _ List.mem_cons_self⟩

theorem prefix_apart {name : Bytes} (client : (appPrefix .client).isPrefixOf name)
    (server : (appPrefix .server).isPrefixOf name) : False := by
  have w : appPrefix .client = 119 :: [97, 95] := by decide
  have z : appPrefix .server = 115 :: [97, 95] := by decide
  rw [w, List.isPrefixOf_iff_prefix] at client
  rw [z, List.isPrefixOf_iff_prefix] at server
  obtain ⟨rest, rfl⟩ := client
  obtain ⟨rest', e⟩ := server
  exact absurd (List.cons.inj e).1 (by decide)

theorem pool_collect {o : Opts} {t : Target} {scan : Scan} {s : BuildSt} (h : BuildInv tc s)
    (ready : Ready tc o t scan s)
    {r : BuildSt × Bool} (pooled : Pooled tc (flagsOf o t) s (jobsOf t scan s.files) r) (name : Bytes) :
    (if (appPrefix t).isPrefixOf name then (findObj r.1.objs name).map (·.code) else none) =
      ((jobsOf t scan s.files).find? (·.obj == name)).bind (codeOf tc (flagsOf o t) (viewOf s)) := by
  cases hj : (jobsOf t scan s.files).find? (·.obj == name) with
  | none =>
    have absent : name ∉ (jobsOf t scan s.files).map (·.obj) := by
      intro hmem
      obtain ⟨j, mem, e⟩ := List.mem_map.mp hmem
      exact absurd (beq_iff_eq.mpr e) (List.find?_eq_none.mp hj j mem)
    split
    · rename_i pre
      rw [pooled.other name absent]
      cases hf : findObj s.objs name with
      | none => rfl
      | some x =>
        obtain ⟨mem, rfl⟩ := findObj_some hf
        obtain ⟨j, mem, e⟩ := ready.stray x mem pre
        exact absurd (List.mem_map.mpr ⟨j, mem, e⟩) absent
    · rfl
  | some j =>
    have mem := List.mem_of_find?_eq_some hj
    have named : j.obj = name := by simpa using List.find?_some hj
    rw [← named, if_pos (jobsOf_named mem)]
    cases need : needsRebuild s j with
    | true => exact pooled.rebuilt j mem need
    | false =>
      obtain ⟨x, found, code⟩ := kept_code h ready mem need
      rw [pooled.kept j mem need, found]
      exact code.symm

theorem pool_ok {o : Opts} {t : Target} {scan : Scan} {s : BuildSt} (h : BuildInv tc s)
    (ready : Ready tc o t scan s)
    {r : BuildSt × Bool} (pooled : Pooled tc (flagsOf o t) s (jobsOf t scan s.files) r) :
    r.2 = true ↔ AllCompile tc (flagsOf o t) (viewOf s) (jobsOf t scan s.files) := by
  rw [pooled.ok]
  constructor
  · intro all j hj
    cases need : needsRebuild s j with
    | true => exact all j hj need
    | false =>
      obtain ⟨x, _, code⟩ := kept_code h ready hj need
      rw [code]
      rfl
  · intro all j hj _
    exact all j hj

theorem BuildInv.installSdk {s : BuildSt} (h : BuildInv tc s) (o : Opts) (t : Target) :
    BuildInv tc (installSdk tc o t s) :=
  ⟨h.paths, fun x hx => Nat.lt_succ_of_lt (h.objs_lt x hx),
    fun t out hout => Nat.lt_succ_of_lt (h.outs_lt t out hout), h.made, h.unchanged⟩

theorem linkTarget_cases (tc : Toolchain) (t : Target) (s : BuildSt) :
    (∃ out, s.outs t = some out ∧ outputsUpToDate tc s out ∧ linkTarget tc t s = s) ∨
    linkTarget tc t s = { s with
      outs := fun t' => if t' = t then some ⟨collect t s, s.clock⟩ else s.outs t'
      clock := s.clock + 1 } := by
  unfold linkTarget
  cases hout : s.outs t with
  | none => exact .inr rfl
  | some out =>
    by_cases up : outputsUpToDate tc s out
    · exact .inl ⟨out, rfl, up, by simp only [if_pos up]⟩
    · exact .inr (by simp only [if_neg up])

theorem BuildInv.link {s : BuildSt} (h : BuildInv tc s) (t : Target) :
    BuildInv tc (linkTarget tc t s) := by
  obtain ⟨_, _, _, e⟩ | e := linkTarget_cases tc t s <;> rw [e]
  · exact h
  · refine ⟨h.paths, fun x hx => Nat.lt_succ_of_lt (h.objs_lt x hx), ?_, h.made, h.unchanged⟩
    intro t' out hout
    dsimp only at hout
    split at hout
    · cases Option.some.inj hout
      exact Nat.lt_succ_self _
    · exact Nat.lt_succ_of_lt (h.outs_lt t' out hout)

structure Built (tc : Toolchain) (o : Opts) (t : Target) (scan : Scan) (s : BuildSt)
    (r : BuildSt × Bool) : Prop where
  inv : BuildInv tc r.1
  files : r.1.files = s.files
  gens : r.1.gens = s.gens
  others : ∀ t', t' ≠ t → r.1.outs t' = s.outs t'
  ok : r.2 = true ↔ AllCompile tc (flagsOf o t) (viewOf s) (jobsOf t scan s.files)
  linked : r.2 = true → linkedOf r.1 t = some (freshLinked tc o t (viewOf s) (jobsOf t scan s.files))
  members : ∀ x ∈ r.1.objs, x ∈ s.objs ∨ ∃ j ∈ jobsOf t scan s.files, x.name = j.obj

theorem collect_install {o : Opts} {t : Target} {scan : Scan} {s : BuildSt} (h : BuildInv tc s)
    (ready : Ready tc o t scan s)
    {r : BuildSt × Bool} (pooled : Pooled tc (flagsOf o t) s (jobsOf t scan s.files) r) :
    collect t (installSdk tc o t r.1) =
      freshLinked tc o t (viewOf s) (jobsOf t scan s.files) := by
  have app : (collect t (installSdk tc o t r.1)).app =
      (freshLinked tc o t (viewOf s) (jobsOf t scan s.files)).app :=
    funext fun name => pool_collect h ready pooled name
  have sdk : (collect t (installSdk tc o t r.1)).sdk =
      (freshLinked tc o t (viewOf s) (jobsOf t scan s.files)).sdk := by
    simp [collect, installSdk, freshLinked, Function.comp_def]
  calc collect t (installSdk tc o t r.1)
      = ⟨(collect t (installSdk tc o t r.1)).app, (collect t (installSdk tc o t r.1)).sdk⟩ := rfl
    _ = freshLinked tc o t (viewOf s) (jobsOf t scan s.files) := by rw [app, sdk]

/-- With a compile behind it the output is older than an object, so an output that stays was
linked from what lies there. -/
theorem link_fresh {o : Opts} {t : Target} {scan : Scan} {s : BuildSt} (h : BuildInv tc s)
    (ready : Ready tc o t scan s)
    {r : BuildSt × Bool} (pooled : Pooled tc (flagsOf o t) s (jobsOf t scan s.files) r)
    (ok : r.2 = true) :
    linkedOf (linkTarget tc t (installSdk tc o t r.1)) t =
      some (freshLinked tc o t (viewOf s) (jobsOf t scan s.files)) := by
  have fresh := collect_install h ready pooled
  obtain ⟨out, hout, up, e⟩ | e := linkTarget_cases tc t (installSdk tc o t r.1)
  · have outs : s.outs t = some out := (congrFun pooled.same.outs t).symm.trans hout
    have idle : ∀ j ∈ jobsOf t scan s.files, needsRebuild s j = false := by
      intro j hj
      by_contra need
      obtain ⟨x, hx, le⟩ := pooled.newer ok ⟨j, hj, by simpa using need⟩
      have older := up.1 x hx
      have before := h.outs_lt t out outs
      omega
    have still : r.1 = s := pooled.idle idle
    rw [still] at up fresh
    rw [e, ← fresh, ← ready.links idle out outs up]
    exact congrArg _ hout
  · rw [e, ← fresh]
    simp only [linkedOf, ↓reduceIte, Option.map_some]

theorem linkTarget_frame (tc : Toolchain) (t : Target) (s : BuildSt) :
    (linkTarget tc t s).files = s.files ∧ (linkTarget tc t s).gens = s.gens ∧
      (linkTarget tc t s).objs = s.objs ∧
      ∀ t', t' ≠ t → (linkTarget tc t s).outs t' = s.outs t' := by
  obtain ⟨_, _, _, e⟩ | e := linkTarget_cases tc t s <;> rw [e]
  · exact ⟨rfl, rfl, rfl, fun _ _ => rfl⟩
  · exact ⟨rfl, rfl, rfl, fun t' ne => by simp only [ne, ↓reduceIte]⟩

theorem buildTarget_eq (tc : Toolchain) (o : Opts) (t : Target) (scan : Scan) (s : BuildSt) :
    buildTarget tc o t scan s =
      if (compilePool tc (flagsOf o t) s (jobsOf t scan s.files)).2 then
        (linkTarget tc t (installSdk tc o t (compilePool tc (flagsOf o t) s
          (jobsOf t scan s.files)).1), true)
      else (installSdk tc o t (compilePool tc (flagsOf o t) s (jobsOf t scan s.files)).1, false) := by
  unfold buildTarget
  rfl

theorem BuildInv.buildTarget {s : BuildSt} (h : BuildInv tc s) (o : Opts) (t : Target)
    (scan : Scan) : BuildInv tc (buildTarget tc o t scan s).1 := by
  have inv := (h.compilePool (flagsOf o t) (jobsOf t scan s.files)).installSdk o t
  rw [buildTarget_eq]
  split
  · exact inv.link t
  · exact inv

theorem buildTarget_built {o : Opts} {t : Target} {scan : Scan} {s : BuildSt} (h : BuildInv tc s)
    (ready : Ready tc o t scan s) : Built tc o t scan s (buildTarget tc o t scan s) := by
  have pooled := compilePool_pooled tc (flagsOf o t) (jobsOf t scan s.files) s ready.names
  have inv := (h.compilePool (flagsOf o t) (jobsOf t scan s.files)).installSdk o t
  have okIff := pool_ok h ready pooled
  rw [buildTarget_eq]
  generalize compilePool tc (flagsOf o t) s (jobsOf t scan s.files) = p at pooled inv okIff
  have same := pooled.same
  cases ok : p.2 with
  | false =>
    rw [if_neg Bool.false_ne_true]
    refine ⟨inv, same.files, same.gens, fun t' _ => congrFun same.outs t', ?_, ?_, pooled.members⟩
    · rw [← okIff, ok]
    · intro bad
      cases bad
  | true =>
    rw [if_pos rfl]
    obtain ⟨files, gens, objs, outs⟩ := linkTarget_frame tc t (installSdk tc o t p.1)
    refine ⟨inv.link t, files.trans same.files, gens.trans same.gens, ?_, ?_, ?_, ?_⟩
    · intro t' ne
      exact (outs t' ne).trans (congrFun same.outs t')
    · rw [← okIff, ok]
    · intro _
      exact link_fresh h ready pooled ok
    · intro x hx
      rw [objs] at hx
      exact pooled.members x hx

theorem writeIfChanged_wipe (s : BuildSt) (g : GenFile) (text : Content) :
    writeIfChanged (wipe s) g text = wipe (writeIfChanged s g text) := by
  unfold writeIfChanged
  by_cases same : (s.gens g).map (·.1) = some text
  · rw [if_pos same]
    exact if_pos same
  · rw [if_neg same]
    exact if_neg same

theorem writeIfChanged_frame (s : BuildSt) (g : GenFile) (text : Content) :
    (writeIfChanged s g text).files = s.files ∧ (writeIfChanged s g text).outs = s.outs ∧
      (writeIfChanged s g text).objs = s.objs := by
  unfold writeIfChanged
  split
  · exact ⟨rfl, rfl, rfl⟩
  · exact ⟨rfl, rfl, rfl⟩

theorem viewOf_write (s : BuildSt) (g : GenFile) (text : Content) :
    viewOf (writeIfChanged s g text) =
      fun k => if k = .gen g then some text else viewOf s k := by
  funext k
  unfold writeIfChanged
  split
  · rename_i same
    by_cases e : k = .gen g
    · rw [if_pos e, e]
      exact same
    · rw [if_neg e]
  · cases k with
    | src path => rfl
    | gen g' =>
      by_cases e : g' = g
      · simp [viewOf, e]
      · simp [viewOf, e]

theorem generate_wipe (scan : Scan) (s : BuildSt) :
    generate tc scan (wipe s) = wipe (generate tc scan s) := by
  have each : ∀ (gs : List GenFile) (s : BuildSt),
      gs.foldl (fun s g => writeIfChanged s g (tc.codegen g scan (tree s))) (wipe s) =
        wipe (gs.foldl (fun s g => writeIfChanged s g (tc.codegen g scan (tree s))) s) := by
    intro gs
    induction gs with
    | nil =>
      intro s
      rfl
    | cons g gs ih =>
      intro s
      rw [List.foldl_cons, List.foldl_cons, writeIfChanged_wipe]
      exact ih _
  exact each _ s

theorem BuildInv.generate {s : BuildSt} (h : BuildInv tc s) (scan : Scan) :
    BuildInv tc (generate tc scan s) := by
  have each : ∀ (gs : List GenFile) (s : BuildSt), BuildInv tc s →
      BuildInv tc (gs.foldl (fun s g => writeIfChanged s g (tc.codegen g scan (tree s))) s) := by
    intro gs
    induction gs with
    | nil =>
      intro s hs
      exact hs
    | cons g gs ih =>
      intro s hs
      exact ih _ (hs.write g _)
  exact each _ s h

theorem BuildInv.generateAssets {s : BuildSt} (h : BuildInv tc s) (o : Opts) :
    BuildInv tc (generateAssets tc o s) := by
  unfold IncrementalBuild.generateAssets
  split
  · exact h
  · exact h.write _ _

theorem generateAssets_linked {s : BuildSt} {linked : Linked} (o : Opts)
    (h : linkedOf s .client = some linked) :
    generateAssets tc o s =
      writeIfChanged s .assets (tc.genAssets o.devAssets linked (tree s)) := by
  unfold generateAssets
  rw [h]

theorem ready_of_absent {o : Opts} {t : Target} {scan : Scan} {s : BuildSt}
    (names : ((jobsOf t scan s.files).map (·.obj)).Nodup)
    (absent : ∀ x ∈ s.objs, ¬ (appPrefix t).isPrefixOf x.name) : Ready tc o t scan s := by
  have missing : ∀ j ∈ jobsOf t scan s.files, findObj s.objs j.obj = none := by
    intro j hj
    cases hf : findObj s.objs j.obj with
    | none => rfl
    | some x =>
      obtain ⟨mem, e⟩ := findObj_some hf
      exact absurd (e ▸ jobsOf_named hj) (absent x mem)
  refine ⟨?_, names, ?_, ?_⟩
  · intro x hx pre
    exact absurd pre (absent x hx)
  · intro j hj _ x hx
    rw [missing j hj] at hx
    cases hx
  · intro idle
    obtain ⟨j, hj⟩ := genJob_mem t scan s.files
    have need : needsRebuild s j = true := by
      unfold needsRebuild
      rw [missing j hj]
      cases sourceMtime s j.src <;> rfl
    rw [idle j hj] at need
    cases need

def buildTargets (tc : Toolchain) (o : Opts) (scan : Scan) (s : BuildSt) : BuildSt × Bool :=
  if (buildTarget tc o .client scan s).2 then
    buildTarget tc o .server scan (generateAssets tc o (buildTarget tc o .client scan s).1)
  else ((buildTarget tc o .client scan s).1, false)

theorem cmdBuild_eq (tc : Toolchain) (o : Opts) (s : BuildSt) :
    cmdBuild tc o s =
      (scanRoutes (routeRels s.files)).map fun scan => buildTargets tc o scan (generate tc scan s) := by
  unfold cmdBuild buildTargets
  rfl

theorem targets_agree {o : Opts} {scan : Scan} {s : BuildSt} (h : BuildInv tc s)
    (client : Ready tc o .client scan s)
    (server : ∀ t, buildTarget tc o .client scan s = (t, true) →
      Ready tc o .server scan (generateAssets tc o t)) :
    outcome (buildTargets tc o scan s) = outcome (buildTargets tc o scan (wipe s)) := by
  have built := buildTarget_built h client
  have clean : Built tc o .client scan (wipe s) (buildTarget tc o .client scan (wipe s)) :=
    buildTarget_built h.wipe (ready_of_absent client.names (fun x hx => by cases hx))
  unfold buildTargets
  generalize buildTarget tc o .client scan s = r at built server
  generalize buildTarget tc o .client scan (wipe s) = r' at clean
  obtain ⟨a, ok⟩ := r
  obtain ⟨b, ok'⟩ := r'
  have sameOk : ok = ok' := Bool.eq_iff_iff.mpr (built.ok.trans clean.ok.symm)
  subst sameOk
  cases ok with
  | false => rfl
  | true =>
    have linkA := built.linked rfl
    have linkB : linkedOf b .client =
        some (freshLinked tc o .client (viewOf s) (jobsOf .client scan s.files)) := clean.linked rfl
    have filesA : a.files = s.files := built.files
    have filesB : b.files = s.files := clean.files
    have trees : tree b = tree a := by
      unfold tree
      rw [filesA, filesB]
    have views : viewOf b = viewOf a :=
      viewOf_congr (filesB.trans filesA.symm) (clean.gens.trans built.gens.symm)
    have assetsA := @generateAssets_linked tc _ _ o linkA
    have assetsB := @generateAssets_linked tc _ _ o linkB
    obtain ⟨fA, oA, _⟩ := writeIfChanged_frame a .assets (tc.genAssets o.devAssets
      (freshLinked tc o .client (viewOf s) (jobsOf .client scan s.files)) (tree a))
    obtain ⟨fB, oB, objsB⟩ := writeIfChanged_frame b .assets (tc.genAssets o.devAssets
      (freshLinked tc o .client (viewOf s) (jobsOf .client scan s.files)) (tree b))
    rw [← assetsA] at fA oA
    rw [← assetsB] at fB oB objsB
    have viewsAssets : viewOf (generateAssets tc o b) = viewOf (generateAssets tc o a) := by
      rw [assetsA, assetsB, viewOf_write, viewOf_write, views, trees]
    have filesAssets : (generateAssets tc o b).files = (generateAssets tc o a).files := by
      rw [fA, fB, filesA, filesB]
    have readyA := server a rfl
    have readyB : Ready tc o .server scan (generateAssets tc o b) := by
      refine ready_of_absent (by rw [filesAssets]; exact readyA.names) ?_
      intro x hx pre
      rw [objsB] at hx
      obtain old | ⟨j, hj, e⟩ := clean.members x hx
      · cases old
      · exact prefix_apart (e ▸ jobsOf_named hj) pre
    have serverA := buildTarget_built (built.inv.generateAssets o) readyA
    have serverB := buildTarget_built (clean.inv.generateAssets o) readyB
    change outcome (buildTarget tc o .server scan (generateAssets tc o a)) =
      outcome (buildTarget tc o .server scan (generateAssets tc o b))
    generalize buildTarget tc o .server scan (generateAssets tc o a) = ra at serverA
    generalize buildTarget tc o .server scan (generateAssets tc o b) = rb at serverB
    have okAgree : ra.2 = rb.2 := by
      rw [Bool.eq_iff_iff, serverA.ok, serverB.ok, viewsAssets, filesAssets]
    have clientA : linkedOf ra.1 .client = linkedOf a .client := by
      unfold linkedOf
      rw [serverA.others .client (by decide), oA]
    have clientB : linkedOf rb.1 .client = linkedOf b .client := by
      unfold linkedOf
      rw [serverB.others .client (by decide), oB]
    unfold outcome
    rw [← okAgree]
    cases hok : ra.2 with
    | false => rfl
    | true =>
      rw [if_pos rfl, if_pos rfl, clientA, clientB, linkA, linkB, serverA.linked hok,
        serverB.linked (okAgree ▸ hok), viewsAssets, filesAssets]

theorem BuildInv.buildTargets {s : BuildSt} (h : BuildInv tc s) (o : Opts) (scan : Scan) :
    BuildInv tc (buildTargets tc o scan s).1 := by
  have client := h.buildTarget o .client scan
  unfold IncrementalBuild.buildTargets
  split
  · exact (client.generateAssets o).buildTarget o .server scan
  · exact client

theorem reach_inv {s : BuildSt} (h : Reach (projectSystem tc) anyStep s) : BuildInv tc s := by
  refine h.invariant ?_ ?_
  · rintro _ ⟨files, cached, clock, paths, rfl⟩
    exact .fresh paths
  · intro s e t inv _ hs
    cases e with
    | edit files =>
      unfold projectSystem projectStep at hs
      dsimp only at hs
      split at hs
      · cases Option.some.inj hs
        exact inv.edit ‹_›
      · cases hs
    | build o =>
      obtain ⟨r, hr, rfl⟩ := Option.map_eq_some_iff.mp hs
      rw [cmdBuild_eq] at hr
      obtain ⟨scan, _, rfl⟩ := Option.map_eq_some_iff.mp hr
      exact (inv.generate scan).buildTargets o scan

/-- After any history, a build that finds each target ready ends as a build without
`.cerco/obj` does. -/
theorem incremental_build_clean {s : BuildSt} (h : Reach (projectSystem tc) anyStep s) {o : Opts}
    (clean : Clean tc o s) :
    (cmdBuild tc o s).map outcome = (cmdBuild tc o (wipe s)).map outcome := by
  have inv := reach_inv h
  rw [cmdBuild_eq, cmdBuild_eq]
  change ((scanRoutes (routeRels s.files)).map _).map _ = ((scanRoutes (routeRels s.files)).map _).map _
  cases hscan : scanRoutes (routeRels s.files) with
  | none => simp only [Option.map_none]
  | some scan =>
    obtain ⟨client, server⟩ := clean scan hscan
    rw [Option.map_some, Option.map_some, Option.map_some, Option.map_some, generate_wipe]
    exact congrArg some (targets_agree (inv.generate scan) client server)

end

def includeLine : Bytes := ascii "#include \"t.h\"\n"
def header : Bytes := ascii "src/shared/t.h"

/-- A compiler that only preprocesses: the stubs, then the text with its header in place. -/
def preprocess (a : Args) : Reads InFile (Option Content) (Option Bytes) :=
  let body (stubs : Bytes) : Reads InFile (Option Content) (Option Bytes) :=
    .ask a.src fun
      | none => .done none
      | some text =>
        if includeLine.isPrefixOf text then
          .ask (.src header) fun
            | none => .done none
            | some h => .done (some (stubs ++ a.define ++ h ++ text.drop includeLine.length))
        else .done (some (stubs ++ a.define ++ text))
  match a.flags with
  | .native _ => body []
  | .wasm =>
    .ask (.gen .sfClientH) fun
      | none => .done none
      | some stubs => body stubs

def sharedObj : Bytes := ascii "wa_src_shared_a_c.o"

def textTools : Toolchain :=
  { clang := preprocess
    codegen := fun g scan _ => if g = .routes then scan.routes.flatMap (·.symbol) else []
    genAssets := fun dev linked _ => if dev then [] else (linked.app sharedObj).getD []
    sdkSources := fun
      | .client => [ascii "runtime/client/dom.c"]
      | .server => [ascii "runtime/server/router.c"]
    libTime := 0 }

def release : Opts := ⟨true, false, true⟩

/-- A route and a shared source that includes a header. -/
def sources (source : Content) (sourceTime : ℕ) (text : Content) (headerTime : ℕ) : List SrcFile :=
  [⟨ascii "src/routes/index.c", ascii "x", 1⟩,
    ⟨ascii "src/shared/a.c", includeLine ++ source, sourceTime⟩, ⟨header, text, headerTime⟩]

def newProject : BuildSt := fresh (sources (ascii "f") 1 (ascii "g") 1) (fun _ _ => none) 2

def afterRun (es : List Event) : BuildSt :=
  (exec (projectSystem textTools) newProject es).getD newProject

theorem afterRun_reach {es : List Event}
    (runs : (exec (projectSystem textTools) newProject es).isSome) :
    Reach (projectSystem textTools) anyStep (afterRun es) := by
  obtain ⟨s, hs⟩ := Option.isSome_iff_exists.mp runs
  have e : afterRun es = s := by
    unfold afterRun
    rw [hs]
    rfl
  rw [e]
  refine exec_reach es (.start ⟨_, _, _, ?_, rfl⟩) (fun _ _ _ => trivial) hs
  decide +kernel

def builtClock : ℕ := (afterRun [.build release]).clock

/-- The shared source is edited after a build. -/
def sourceEdited : BuildSt :=
  afterRun [.build release, .edit (sources (ascii "ff") builtClock (ascii "g") 1)]

def headerEdited : BuildSt :=
  afterRun [.build release, .edit (sources (ascii "f") 1 (ascii "gg") builtClock)]

/-- What can be evaluated of `Ready` when something has to be compiled. -/
def Compiles (tc : Toolchain) (o : Opts) (t : Target) (scan : Scan) (s : BuildSt) : Prop :=
  (∀ x ∈ s.objs, (appPrefix t).isPrefixOf x.name → ∃ j ∈ jobsOf t scan s.files, j.obj = x.name) ∧
  ((jobsOf t scan s.files).map (·.obj)).Nodup ∧
  (∀ j ∈ jobsOf t scan s.files, needsRebuild s j = false → ∀ x ∈ s.objs, x.name = j.obj →
    x.args = ⟨j.src, j.define, flagsOf o t⟩ ∧
      ∀ k ∈ (tc.clang x.args).trace x.view, k ≠ j.src → viewOf s k = x.view k) ∧
  ∃ j ∈ jobsOf t scan s.files, needsRebuild s j = true

instance (tc : Toolchain) (o : Opts) (t : Target) (scan : Scan) (s : BuildSt) :
    Decidable (Compiles tc o t scan s) := inferInstanceAs (Decidable (_ ∧ _ ∧ _ ∧ _))

theorem Compiles.ready {tc : Toolchain} {o : Opts} {t : Target} {scan : Scan} {s : BuildSt}
    (h : Compiles tc o t scan s) : Ready tc o t scan s := by
  obtain ⟨stray, names, inputs, compiles⟩ := h
  refine ⟨stray, names, ?_, ?_⟩
  · intro j hj keep x hx
    exact inputs j hj keep x (findObj_some hx).1 (findObj_some hx).2
  · intro idle
    obtain ⟨j, hj, need⟩ := compiles
    rw [idle j hj] at need
    cases need

def editedScan : Scan := (scanRoutes (routeRels sourceEdited.files)).getD ⟨[], []⟩

def clientEdited : BuildSt :=
  generateAssets textTools release
    (buildTarget textTools release .client editedScan (generate textTools editedScan sourceEdited)).1

theorem sourceEdited_clean : Clean textTools release sourceEdited := by
  intro scan hscan
  have e : editedScan = scan := by
    unfold editedScan
    rw [hscan]
    rfl
  rw [← e]
  have client : Compiles textTools release .client editedScan
      (generate textTools editedScan sourceEdited) := by decide +kernel
  have server : Compiles textTools release .server editedScan clientEdited := by decide +kernel
  refine ⟨client.ready, ?_⟩
  intro t ht
  have built : clientEdited = generateAssets textTools release t := by
    unfold clientEdited
    rw [ht]
  rw [← built]
  exact server.ready

theorem incremental_build_clean_edit :
    (cmdBuild textTools release sourceEdited).map outcome =
      (cmdBuild textTools release (wipe sourceEdited)).map outcome :=
  incremental_build_clean (afterRun_reach (by decide +kernel)) sourceEdited_clean

def sharedCode (s : BuildSt) : Option Bytes :=
  ((cmdBuild textTools release s).map outcome).join.bind fun l => l.1.bind fun l => l.app sharedObj

/-- The object of a source whose header has changed is not compiled again. -/
theorem header_edit_missed :
    ¬ ∀ (tc : Toolchain) (s : BuildSt), Reach (projectSystem tc) anyStep s → ∀ o,
      (cmdBuild tc o s).map outcome = (cmdBuild tc o (wipe s)).map outcome := by
  intro all
  have agree := all textTools headerEdited (afterRun_reach (by decide +kernel)) release
  have codes : sharedCode headerEdited = sharedCode (wipe headerEdited) := by
    unfold sharedCode
    rw [agree]
  exact absurd codes (by decide +kernel)

end Cerco.IncrementalBuild
