import Cerco.Response

set_option autoImplicit false

/-!
# Scanning `src/routes`

`scan_cb` sees the files in the order of `walk_dir` and fills the two tables of
the build. Buffers cut what does not fit. The search for an unused symbol has no
bound in the source; one more round than there are routes already shows that it
never ends, and then the scan has no result.
-/
namespace Cerco.RouteScan
open Cerco.CString
open Cerco.Response (decimal)

def maxRoutes : ℕ := 256
def maxLayouts : ℕ := 64

/-- `snprintf` into a buffer of this size. -/
def fit (size : ℕ) (b : Bytes) : Bytes := b.take (size - 1)

def isAlnum (c : UInt8) : Bool :=
  (97 ≤ c && c ≤ 122) || (65 ≤ c && c ≤ 90) || (48 ≤ c && c ≤ 57)

def underscore : UInt8 := 95

/-- The loop of `mangle`; `out` is reversed. -/
def mangleLoop (cap : ℕ) : Bytes → Bytes → Bool → Bytes
  | [], out, _ => out
  | c :: rest, out, prevUs =>
    if cap ≤ out.length + 1 then out
    else if isAlnum c then mangleLoop cap rest (c :: out) false
    else if prevUs then mangleLoop cap rest out true
    else mangleLoop cap rest (underscore :: out) true

def mangle (b : Bytes) (cap : ℕ) : Bytes :=
  match mangleLoop cap b [] true with
  | [] => []
  | c :: out => if c = underscore then out.reverse else (c :: out).reverse

def endsWith (b suffix : Bytes) : Bool := suffix.isSuffixOf b

def stripEnd (b : Bytes) (n : ℕ) : Bytes := b.take (b.length - n)

/-- The last `/` splits a path into its directory and its base. -/
def splitDir (rel : Bytes) : Bytes × Bytes :=
  match strchr slash rel.reverse with
  | none => ([], rel)
  | some (base, dir) => (dir.reverse, base.reverse)

structure RouteInfo where
  method : Bytes
  path : Bytes
  symbol : Bytes
  rel : Bytes
  dir : Bytes
deriving DecidableEq

structure LayoutInfo where
  dir : Bytes
  symbol : Bytes
deriving DecidableEq

structure Scan where
  routes : List RouteInfo
  layouts : List LayoutInfo
deriving DecidableEq

def methods : List Bytes :=
  [ascii "get", ascii "post", ascii "put", ascii "patch", ascii "delete", ascii "head",
    ascii "options"]

def upper (c : UInt8) : UInt8 := if 97 ≤ c ∧ c ≤ 122 then c - 32 else c

def dot : UInt8 := 46

def methodSuffix (base : Bytes) : Bytes × Bytes :=
  match methods.find? fun m => m.length + 1 < base.length && endsWith base (dot :: m) with
  | none => (ascii "GET", base)
  | some m => (fit 16 (m.map upper), stripEnd base (m.length + 1))

/-- `if (bl > 2 && !strcmp(b + bl - 2, ".c"))` cuts the extension off. -/
def stripC (b : Bytes) : Bytes := if 2 < b.length ∧ endsWith b (ascii ".c") then stripEnd b 2 else b

def dropBracket (b : Bytes) : Bytes := if endsWith b (ascii "]") then stripEnd b 1 else b

/-- `[id]` becomes `:id` and `[...slug]` becomes `*slug`. -/
def segmentOf (fb : Bytes) : Bytes :=
  if fb = ascii "index" ∨ fb = ascii "index.get" ∨ fb = [] then []
  else
    let seg := if 4 < fb.length ∧ endsWith fb (ascii ".c") then stripEnd fb 2 else fb
    match seg with
    | 91 :: 46 :: 46 :: 46 :: name => dropBracket (fit 256 (ascii "*" ++ name))
    | 91 :: name => dropBracket (fit 256 (ascii ":" ++ name))
    | _ => seg

def urlPath (base dir seg : Bytes) : Bytes :=
  if base = ascii "404" then ascii "/__cerco/404"
  else if seg = [] then if dir = [] then ascii "/" else fit 256 (ascii "/" ++ dir)
  else fit 256 (ascii "/" ++ dir ++ (if dir = [] then [] else ascii "/") ++ seg)

def symbolAt (symbase : Bytes) (round : ℕ) : Bytes :=
  if round = 0 then fit 160 symbase else fit 160 (symbase ++ ascii "_" ++ decimal round)

def uniqueSymbol (taken : List Bytes) (symbase : Bytes) : ℕ → ℕ → Option Bytes
  | 0, _ => none
  | rounds + 1, round =>
    if taken.contains (symbolAt symbase round) then uniqueSymbol taken symbase rounds (round + 1)
    else some (symbolAt symbase round)

/-- `scan_cb` on one file, named from `src/routes`. -/
def scanFile (s : Scan) (rel : Bytes) : Option Scan :=
  if ¬ endsWith rel (ascii ".c") then some s
  else
    let (dirbuf, _) := splitDir (fit 512 rel)
    let (_, base) := splitDir (fit 512 rel)
    let (method, basebuf) := methodSuffix (stripC (fit 256 base))
    if basebuf = ascii "layout" ∨ basebuf = ascii "layout.c" then
      if maxLayouts ≤ s.layouts.length then some s
      else
        let m := mangle (if dirbuf = [] then ascii "root" else dirbuf) 256
        some { s with layouts := s.layouts ++
          [⟨fit 256 dirbuf, fit 160 (ascii "cerco_layout_" ++ m)⟩] }
    else if maxRoutes ≤ s.routes.length then some s
    else
      let dir := fit 256 dirbuf
      let fb := stripC basebuf
      let ms := fit 512 (dir ++ (if dir = [] then [] else ascii "_") ++ fb)
      let symbase := fit 160 (ascii "cerco_route_" ++ mangle ms 512)
      (uniqueSymbol (s.routes.map (·.symbol)) symbase (s.routes.length + 1) 0).map fun symbol =>
        { s with routes := s.routes ++
          [{ method := method
             path := urlPath basebuf dir (segmentOf fb)
             symbol := symbol
             rel := fit 512 (ascii "src/routes/" ++ rel)
             dir := dir }] }

/-- All files in the order of the walk. -/
def scanRoutes (rels : List Bytes) : Option Scan := rels.foldlM scanFile ⟨[], []⟩

/-- `"-DNAME=value"` -/
def makeDefine (name value : Bytes) : Bytes := fit 256 (ascii "-D" ++ name ++ ascii "=" ++ value)

def routesDir : Bytes := ascii "src/routes/"

def isLayoutOf (rel : Bytes) (l : LayoutInfo) : Bool :=
  let want := fit 512 (routesDir ++ l.dir)
  want.isPrefixOf rel && (rel.drop want.length == ascii "layout.c" ||
    rel.drop want.length == ascii "/layout.c")

/-- The define that `compile_app_sources_cb` passes for a file of the server target;
empty when there is none. -/
def symbolDefine (s : Scan) (rel : Bytes) : Bytes :=
  if ¬ routesDir.isPrefixOf rel then []
  else if (splitDir rel).2 = ascii "layout.c" then
    match s.layouts.find? (isLayoutOf rel) with
    | none => []
    | some l => makeDefine (ascii "CERCO_LAYOUT_SYMBOL") l.symbol
  else
    match s.routes.find? fun r => r.rel == rel with
    | none => []
    | some r => makeDefine (ascii "CERCO_ROUTE_SYMBOL") r.symbol

end Cerco.RouteScan
