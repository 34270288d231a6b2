import Cerco.Dispatch
import Cerco.FileTree
import Cerco.HtmlEscape
import Cerco.RequestGrammar
import Cerco.Sha256

set_option autoImplicit false

/-!
# The embedded assets and the files of dev mode

A release server answers from the table that `gen_assets` made of the dist folder, a
dev server from the folder itself.
-/
namespace Cerco.AssetTables
open Cerco.Alloc Cerco.CString Cerco.Connection Cerco.Dispatch Cerco.FileTree Cerco.LayoutChains
open Cerco.Request Cerco.RouteFiles Cerco.RouteScan
open Cerco.Router (joinSegs)
open Cerco.RequestGrammar (rootTable stockConfig stockEnv)
open Cerco.Sha256 (Sha256Ctx sha256 sha256_streaming digest hexText)

def mimeTable : List (Bytes × Bytes) :=
  [(ascii "html", ascii "text/html; charset=utf-8"), (ascii "htm", ascii "text/html; charset=utf-8"),
    (ascii "css", ascii "text/css; charset=utf-8"), (ascii "js", ascii "text/javascript; charset=utf-8"),
    (ascii "mjs", ascii "text/javascript; charset=utf-8"),
    (ascii "json", ascii "application/json; charset=utf-8"), (ascii "txt", ascii "text/plain; charset=utf-8"),
    (ascii "xml", ascii "application/xml"), (ascii "wasm", ascii "application/wasm"),
    (ascii "png", ascii "image/png"), (ascii "jpg", ascii "image/jpeg"), (ascii "jpeg", ascii "image/jpeg"),
    (ascii "gif", ascii "image/gif"), (ascii "svg", ascii "image/svg+xml"), (ascii "webp", ascii "image/webp"),
    (ascii "ico", ascii "image/x-icon"), (ascii "woff", ascii "font/woff"), (ascii "woff2", ascii "font/woff2"),
    (ascii "ttf", ascii "font/ttf"), (ascii "otf", ascii "font/otf"), (ascii "mp4", ascii "video/mp4"),
    (ascii "webm", ascii "video/webm"), (ascii "pdf", ascii "application/pdf"),
    (ascii "map", ascii "application/json")]

def mimeOfExt (ext : Bytes) : Bytes :=
  ((mimeTable.find? fun e => strcaseeq ext e.1).map Prod.snd).getD (ascii "application/octet-stream")

def mimeFromExt (filename : Bytes) : Bytes :=
  if 46 ∈ filename then mimeOfExt (filename.reverse.takeWhile (· ≠ 46)).reverse
  else ascii "application/octet-stream"

/-- The `etag` of an entry of the table: half of the digest. -/
def tableTag (data : Bytes) : Bytes := (hexText (digest data)).take 32

/-- The `etag` of a file in dev mode. -/
def diskTag (data : Bytes) : Bytes := (hexText (digest data)).take 16

theorem tags_computed (c : Sha256Ctx) {data : Bytes} (short : data.length < 2 ^ 61) :
    (sha256 c data).map (fun d => ((hexText d).take 32, (hexText d).take 16)) =
      some (tableTag data, diskTag data) := by
  have one := (sha256_streaming c c [data] (by simpa using short)).1
  have whole : sha256 c data = some (digest data) := by
    simpa [sha256] using one
  rw [whole]
  rfl

/-- The folder, and how the two servers get at it. The base of a dev server is not the
top folder. -/
structure Dist where
  distdir : Bytes
  tree : Tree
  uncut : tree.Uncut distdir
  verbatim : ∀ f ∈ tree.files, Verbatim f.rel
  name : Bytes
  base : Bytes
  given : base ≠ []
  baseReal : Bytes
  /-- What `ftell` says at the end of a folder. -/
  folderEnd : List Bytes → ℤ

/-- The files that `gen_assets_cb` embeds. -/
def Dist.assetFiles (d : Dist) : List TreeFile :=
  ((d.tree.walk d.distdir).filter fun f => f.rel != d.name).take 128

def assetPath (f : TreeFile) : Bytes := slash :: fit 512 f.rel

def assetEntry (f : TreeFile) : Asset :=
  ⟨assetPath f, mimeFromExt (fit 512 f.rel), tableTag f.content, f.content⟩

/-- `cerco_assets_table` -/
def Dist.table (d : Dist) : List Asset := d.assetFiles.map assetEntry

def pathMax : ℕ := 4096

/-- The names on a path; an empty one and `.` stay where they are. -/
def pathNames (path : Bytes) : List Bytes := (path.splitOn slash).filter fun s => s != [] && s != ascii "."

/-- `realpath` of the base and the names. -/
def Dist.resolved (d : Dist) (names : List Bytes) : Bytes := d.baseReal ++ names.flatMap (slash :: ·)

/-- The bytes that `fread` gets; the size of a folder is not the number of bytes it gives. -/
def Dist.readFile (d : Dist) (maxBody : ℕ) (names : List Bytes) : Option Bytes :=
  match d.tree.stat names with
  | .missing => none
  | .folder => if d.folderEnd names = 0 then some [] else none
  | .file f => if maxBody * 4 % 2 ^ 64 < f.content.length then none else some f.content

/-- `dev_serve_from_disk`, up to the answer. -/
def Dist.devFile (d : Dist) (maxBody : ℕ) (path : Bytes) : Option Asset :=
  if contains (ascii "..") path then none
  else if pathMax ≤ (d.base ++ path).length then none
  else
    let resolved := d.resolved (pathNames path)
    if pathMax ≤ resolved.length then none
    else
      (d.readFile maxBody (pathNames path)).map fun buf =>
        ⟨path, mimeFromExt resolved, diskTag buf, buf⟩

section Servers
variable {σ : Type}

def Dist.release (d : Dist) (env : Env σ) : Env σ :=
  { env with assets := d.table, cfg := { env.cfg with devMode := false } }

def Dist.dev (d : Dist) (env : Env σ) : Env σ :=
  { env with assets := [], cfg := { env.cfg with devMode := true }, devFile := d.devFile env.cfg.maxBody }

/-- The asset that `static_try_serve` finds, and whether it may be cached. -/
def staticPick (env : Env σ) (path : Bytes) : Option (Asset × Bool) :=
  match env.assets.find? fun f => strcaseeq f.path path with
  | some f => some (f, true)
  | none => (if env.cfg.devMode then env.devFile path else none).map fun f => (f, false)

def cacheControl (cacheable : Bool) : Bytes := if cacheable then ascii "public, max-age=300" else ascii "no-store"

def assetHead (f : Asset) (cacheable : Bool) (a : Arena) (r : Req) : Arena × Req :=
  let p := setStatus 200 a r
  let p := hdrSet (ascii "Content-Type") f.mime p.1 p.2
  let p := hdrSet (ascii "ETag") (quoteEtag f.etag) p.1 p.2
  hdrSet (ascii "Cache-Control") (cacheControl cacheable) p.1 p.2

def unchangedHead (f : Asset) (a : Arena) (r : Req) : Arena × Req :=
  let p := setStatus 304 a r
  let p := hdrSet (ascii "ETag") (quoteEtag f.etag) p.1 p.2
  hdrSet (ascii "Cache-Control") (ascii "public, max-age=300") p.1 p.2

def assetReply (f : Asset) (cacheable : Bool) (a : Arena) (r : Req) : Arena × Req :=
  if ifNoneMatchHits r f.etag then unchangedHead f a r
  else respPutn f.bytes (assetHead f cacheable a r).1 (assetHead f cacheable a r).2

/-- The request as it goes out, unless the router answers. -/
def staticReply (env : Env σ) (a : Arena) (r : Req) : Option (Arena × Req) :=
  (staticPick env (cstr (r.path.getD []))).map fun f => assetReply f.1 f.2 a r

theorem withReq_twice (x : Ctx σ) (k : ℕ) (f g : Arena → Req → Arena × Req) :
    (x.withReq k f).withReq k g = x.withReq k fun a r => g (f a r).1 (f a r).2 := by
  simp [Ctx.withReq]

theorem serveAssetBytes_reply (env : Env σ) (x : Ctx σ) (k : ℕ) (f : Asset) (cacheable : Bool) :
    serveAssetBytes env x k f cacheable = connStartResponse env (x.withReq k (assetReply f cacheable)) k := by
  have reply : x.withReq k (assetReply f cacheable) =
      if ifNoneMatchHits (x.c.objs k) f.etag then x.withReq k (unchangedHead f)
      else x.withReq k fun a r => respPutn f.bytes (assetHead f cacheable a r).1 (assetHead f cacheable a r).2 := by
    unfold assetReply Ctx.withReq
    dsimp only
    split <;> rfl
  rw [reply]
  unfold serveAssetBytes
  split
  · dsimp only
    rw [withReq_twice, withReq_twice]
    rfl
  · dsimp only
    rw [withReq_twice, withReq_twice, withReq_twice, withReq_twice]
    rfl

theorem staticTryServe_reply (env : Env σ) (x : Ctx σ) (k : ℕ) :
    staticTryServe env x k = (staticReply env x.c.arena (x.c.objs k)).elim (routerSend404 env x k)
      fun p => connStartResponse env (x.withReq k fun _ _ => p) k := by
  unfold staticTryServe staticReply staticPick
  dsimp only
  cases env.assets.find? fun f => strcaseeq f.path (cstr ((x.c.objs k).path.getD [])) with
  | some f => exact serveAssetBytes_reply env x k f true
  | none =>
    cases (if env.cfg.devMode then env.devFile (cstr ((x.c.objs k).path.getD [])) else none) with
    | none => rfl
    | some f => exact serveAssetBytes_reply env x k f false

def Dist.embedded (d : Dist) (path : Bytes) : Option TreeFile :=
  d.assetFiles.find? fun f => strcaseeq (assetPath f) path

def Dist.opened (d : Dist) (maxBody : ℕ) (path : Bytes) : Option Bytes :=
  (d.devFile maxBody path).map Asset.bytes

theorem release_pick (d : Dist) (env : Env σ) (path : Bytes) :
    staticPick (d.release env) path = (d.embedded path).map fun f => (assetEntry f, true) := by
  have found : d.table.find? (fun f => strcaseeq f.path path) = (d.embedded path).map assetEntry := by
    rw [Dist.table, List.find?_map]
    rfl
  unfold staticPick
  change (match d.table.find? fun f => strcaseeq f.path path with
    | some f => some (f, true)
    | none => _) = _
  rw [found]
  cases d.embedded path <;> rfl

theorem dev_pick (d : Dist) (env : Env σ) (path : Bytes) :
    staticPick (d.dev env) path = (d.opened env.cfg.maxBody path).map fun buf =>
      (⟨path, mimeFromExt (d.resolved (pathNames path)), diskTag buf, buf⟩, false) := by
  change (d.devFile env.cfg.maxBody path).map _ = _
  unfold Dist.opened Dist.devFile
  split
  · rfl
  · split
    · rfl
    · dsimp only
      split
      · rfl
      · cases d.readFile env.cfg.maxBody (pathNames path) <;> rfl

end Servers

theorem takeWhile_ext {front ext : Bytes} (noDot : 46 ∉ ext) :
    (front ++ 46 :: ext).reverse.takeWhile (· ≠ 46) = ext.reverse := by
  rw [List.reverse_append, List.reverse_cons, List.append_assoc, List.singleton_append,
    List.takeWhile_append_of_pos (by simpa using fun c hc (same : c = 46) => noDot (same ▸ hc)),
    List.takeWhile_cons_of_neg (by simp), List.append_nil]

theorem mimeFromExt_ext {front ext : Bytes} (noDot : 46 ∉ ext) :
    mimeFromExt (front ++ 46 :: ext) = mimeOfExt ext := by
  have dot : (46 : UInt8) ∈ front ++ 46 :: ext := List.mem_append_right _ List.mem_cons_self
  rw [mimeFromExt, if_pos dot, takeWhile_ext noDot, List.reverse_reverse]

theorem cut_last {c : UInt8} {text : Bytes} (mem : c ∈ text) :
    ∃ front rest : Bytes, text = front ++ c :: rest ∧ c ∉ rest := by
  obtain ⟨back, front, split, free⟩ := List.eq_append_cons_of_mem (List.mem_reverse.mpr mem)
  refine ⟨front.reverse, back.reverse, ?_, fun h => free (List.mem_reverse.mp h)⟩
  rw [← List.reverse_reverse text, split]
  simp

theorem asset_ext {path : Bytes} (asset : staticIsAssetPath path = true) :
    ∃ front ext : Bytes, path = front ++ 46 :: ext ∧ 46 ∉ ext ∧ slash ∉ ext ∧ ext ≠ [] := by
  simp only [staticIsAssetPath, Bool.and_eq_true, decide_eq_true_eq] at asset
  obtain ⟨⟨⟨dot, -⟩, noSlash⟩, some⟩ := asset
  obtain ⟨front, ext, rfl, noDot⟩ := cut_last dot
  rw [takeWhile_ext noDot, List.reverse_reverse] at noSlash some
  exact ⟨front, ext, rfl, noDot, by simpa using noSlash, by simpa using some⟩

theorem resolved_ext (d : Dist) {front ext : Bytes} (noSlash : slash ∉ ext) (full : ext ≠ [])
    (below : slash ∈ front) : ∃ u : Bytes, d.resolved (pathNames (front ++ 46 :: ext)) = u ++ 46 :: ext := by
  obtain ⟨a, b, rfl, free⟩ := cut_last below
  have last : slash ∉ b ++ 46 :: ext := by
    rw [List.mem_append, List.mem_cons]
    exact fun h => h.elim free fun h => h.elim (by decide) noSlash
  have names : pathNames (a ++ slash :: b ++ 46 :: ext) = pathNames a ++ [b ++ 46 :: ext] := by
    have kept : (b ++ 46 :: ext != [] && b ++ 46 :: ext != ascii ".") = true := by
      rw [Bool.and_eq_true, bne_iff_ne, bne_iff_ne]
      refine ⟨by simp, fun same => ?_⟩
      have len : (b ++ 46 :: ext).length = 1 := congrArg List.length same
      rw [List.length_append, List.length_cons] at len
      exact full (List.length_eq_zero_iff.mp (by omega))
    rw [pathNames, List.append_assoc, List.cons_append, List.splitOn_append_cons_of_beq _ _ (beq_self_eq_true slash),
      List.splitOn_eq_singleton last, List.filter_append]
    exact congrArg (pathNames a ++ ·) (List.filter_cons_of_pos kept)
  refine ⟨d.baseReal ++ (pathNames a).flatMap (slash :: ·) ++ slash :: b, ?_⟩
  rw [Dist.resolved, names, List.flatMap_append, List.flatMap_singleton]
  simp

theorem toLower_dot (c : UInt8) : toLower c = 46 ↔ c = 46 := by
  unfold toLower
  split
  · rename_i upper
    have low : 65 ≤ c.toNat ∧ c.toNat ≤ 90 := upper
    have sum : (c + 32).toNat = (c.toNat + 32) % 256 := UInt8.toNat_add c 32
    constructor
    · intro same
      rw [same] at sum
      change 46 = _ at sum
      omega
    · rintro rfl
      exact absurd low.1 (by decide)
  · exact Iff.rfl

theorem mem_dot_lower (u : Bytes) : 46 ∈ u.map toLower ↔ 46 ∈ u := by
  simp only [List.mem_map, toLower_dot, exists_eq_right]

theorem mimeFromExt_case {s t : Bytes} (same : s.map toLower = t.map toLower) : mimeFromExt s = mimeFromExt t := by
  by_cases dot : 46 ∈ t
  · obtain ⟨front, ext, rfl, noDot⟩ := cut_last dot
    rw [List.map_append, List.map_cons] at same
    obtain ⟨u, v, rfl, -, tail⟩ := List.map_eq_append_iff.mp same
    obtain ⟨c, ext', rfl, hc, exts⟩ := List.map_eq_cons_iff.mp tail
    obtain rfl := (toLower_dot c).mp (hc.trans ((toLower_dot 46).mpr rfl))
    have noDot' : 46 ∉ ext' := by
      rw [← mem_dot_lower, exts, mem_dot_lower]
      exact noDot
    rw [mimeFromExt_ext noDot, mimeFromExt_ext noDot', mimeOfExt, mimeOfExt]
    have matching : ∀ e : Bytes × Bytes, strcaseeq ext' e.1 = strcaseeq ext e.1 := by
      intro e
      rw [Bool.eq_iff_iff, strcaseeq_iff, strcaseeq_iff, exts]
    simp only [matching]
  · have other : 46 ∉ s := by
      rw [← mem_dot_lower, same, mem_dot_lower]
      exact dot
    rw [mimeFromExt, if_neg other, mimeFromExt, if_neg dot]

theorem mimeFromExt_slash (t : Bytes) : mimeFromExt (slash :: t) = mimeFromExt t := by
  by_cases dot : 46 ∈ t
  · obtain ⟨front, ext, rfl, noDot⟩ := cut_last dot
    rw [← List.cons_append, mimeFromExt_ext noDot, mimeFromExt_ext noDot]
  · have other : 46 ∉ slash :: t := by
      rw [List.mem_cons]
      exact fun h => h.elim (by decide) dot
    rw [mimeFromExt, if_neg other, mimeFromExt, if_neg dot]

theorem same_mime (d : Dist) {rest : Bytes} (asset : staticIsAssetPath (slash :: rest) = true) {f : TreeFile}
    (found : d.embedded (slash :: rest) = some f) :
    (assetEntry f).mime = mimeFromExt (d.resolved (pathNames (slash :: rest))) := by
  have same := (strcaseeq_iff _ _).mp (List.find?_some (p := fun f => strcaseeq (assetPath f) (slash :: rest)) found)
  obtain ⟨front, ext, path, noDot, noSlash, full⟩ := asset_ext asset
  have below : slash ∈ front := by
    cases front with
    | nil => cases (List.cons.inj path).1
    | cons c front =>
      rw [(List.cons.inj path).1]
      exact List.mem_cons_self
  obtain ⟨u, resolved⟩ := resolved_ext d noSlash full below
  have typed : mimeFromExt (front ++ 46 :: ext) = mimeOfExt ext := mimeFromExt_ext noDot
  rw [path, resolved, mimeFromExt_ext noDot, ← typed, ← path, ← mimeFromExt_case same]
  exact (mimeFromExt_slash _).symm

def contentType (r : Req) : Option Bytes :=
  (r.respHdrs.find? fun h => strcaseeq h.1 (ascii "content-type")).map Prod.snd

def OtherName (name : Bytes) : Prop := strcaseeq name (ascii "content-type") = false

theorem OtherName.same {name own : Bytes} (other : OtherName name) (same : strcaseeq own name = true) :
    OtherName own := by
  rw [OtherName, Bool.eq_false_iff, Ne, strcaseeq_iff] at *
  rwa [same]

theorem replaceHdr_type {name value : Bytes} (other : OtherName name) {hs ks : List (Bytes × Bytes)}
    (h : replaceHdr name value hs = some ks) :
    (ks.find? fun h => strcaseeq h.1 (ascii "content-type")) =
      hs.find? fun h => strcaseeq h.1 (ascii "content-type") := by
  induction hs generalizing ks with
  | nil => cases h
  | cons own hs ih =>
    rw [replaceHdr] at h
    split at h
    · rename_i same
      cases h
      have skip := other.same same
      rw [List.find?_cons_of_neg (by rw [skip]; exact Bool.false_ne_true),
        List.find?_cons_of_neg (by rw [skip]; exact Bool.false_ne_true)]
    · obtain ⟨rest, tail, rfl⟩ := Option.map_eq_some_iff.mp h
      rw [List.find?_cons, List.find?_cons, ih tail]

theorem respHdrAdd_type {name : Bytes} (nulFree : 0 ∉ name) (other : OtherName name) (value : Bytes) (a : Arena)
    (r : Req) : contentType (respHdrAdd a r name value).2 = contentType r := by
  unfold respHdrAdd
  split
  · rfl
  · split
    · rfl
    · rename_i b _
      dsimp only
      split
      · rename_i n v copied _
        have skip : OtherName n := by
          rw [← arenaStrdup_some copied, cstr_of_nulFree nulFree]
          exact other
        have miss : List.find? (fun h : Bytes × Bytes => strcaseeq h.1 (ascii "content-type")) [(n, v)] = none := by
          rw [List.find?_cons_of_neg (by rw [skip]; exact Bool.false_ne_true)]
          rfl
        rw [contentType, List.find?_append, miss, Option.or_none]
        rfl
      · rfl

theorem hdrSet_type {name : Bytes} (nulFree : 0 ∉ name) (other : OtherName name) (value : Bytes) (a : Arena)
    (r : Req) : contentType (hdrSet name value a r).2 = contentType r := by
  unfold hdrSet setHeader
  split
  · rename_i ks found
    exact congrArg (Option.map Prod.snd) (replaceHdr_type other found)
  · exact respHdrAdd_type nulFree other value a r

theorem hdrSet_kept (name value : Bytes) (a : Arena) (r : Req) :
    (hdrSet name value a r).2.status = r.status ∧ (hdrSet name value a r).2.resp = r.resp := by
  unfold hdrSet setHeader
  split
  · exact ⟨rfl, rfl⟩
  · unfold respHdrAdd
    split
    · exact ⟨rfl, rfl⟩
    · split
      · exact ⟨rfl, rfl⟩
      · dsimp only
        split <;> exact ⟨rfl, rfl⟩

theorem wbufGrow_data (a : Arena) (b : Wbuf) (need : ℕ) : (wbufGrow a b need).2.data = b.data := by
  unfold wbufGrow
  split
  · rfl
  · dsimp only
    split <;> rfl

def bodyRoom (f : Asset) (cacheable : Bool) (a : Arena) (r : Req) : Bytes :=
  let p := assetHead f cacheable a r
  if (wbufGrow p.1 p.2.resp f.bytes.length).2.cap < r.resp.data.length + f.bytes.length then [] else f.bytes

theorem assetHead_kept (f : Asset) (cacheable : Bool) (a : Arena) (r : Req) :
    (assetHead f cacheable a r).2.status = 200 ∧ (assetHead f cacheable a r).2.resp = r.resp ∧
      contentType (assetHead f cacheable a r).2 =
        contentType (hdrSet (ascii "Content-Type") f.mime a { r with status := 200 }).2 := by
  unfold assetHead
  dsimp only
  refine ⟨?_, ?_, ?_⟩
  · rw [(hdrSet_kept _ _ _ _).1, (hdrSet_kept _ _ _ _).1, (hdrSet_kept _ _ _ _).1]
    rfl
  · rw [(hdrSet_kept _ _ _ _).2, (hdrSet_kept _ _ _ _).2, (hdrSet_kept _ _ _ _).2]
    rfl
  · rw [hdrSet_type (by decide) (by unfold OtherName; decide), hdrSet_type (by decide) (by unfold OtherName; decide)]
    rfl

theorem reply_unchanged {f : Asset} (cacheable : Bool) (a : Arena) {r : Req} (hit : ifNoneMatchHits r f.etag = true) :
    (assetReply f cacheable a r).2.status = 304 := by
  rw [assetReply, if_pos hit]
  unfold unchangedHead
  dsimp only
  rw [(hdrSet_kept _ _ _ _).1, (hdrSet_kept _ _ _ _).1]
  rfl

theorem reply_sent {f : Asset} (cacheable : Bool) (a : Arena) {r : Req} (miss : ifNoneMatchHits r f.etag = false) :
    (assetReply f cacheable a r).2.status = 200 ∧
      (assetReply f cacheable a r).2.resp.data = r.resp.data ++ bodyRoom f cacheable a r ∧
      contentType (assetReply f cacheable a r).2 =
        contentType (hdrSet (ascii "Content-Type") f.mime a { r with status := 200 }).2 := by
  obtain ⟨status, resp, type⟩ := assetHead_kept f cacheable a r
  rw [assetReply, if_neg (by rw [miss]; exact Bool.false_ne_true)]
  refine ⟨status, ?_, type⟩
  unfold respPutn wbufPutn bodyRoom
  dsimp only
  rw [wbufGrow_data, resp]
  split
  · rw [wbufGrow_data, List.append_nil]
  · rfl

/-- Both leave the request to the router, or both send the same. -/
def SameAnswer : Option (Arena × Req) → Option (Arena × Req) → Prop
  | none, none => True
  | some p, some q => p.2.status = q.2.status ∧
      (p.2.status = 200 → p.2.resp.data = q.2.resp.data ∧ contentType p.2 = contentType q.2)
  | _, _ => False

/-- The request gets the file, or the answer that it has it. -/
def Served (r : Req) (f : TreeFile) : Option (Arena × Req) → Prop
  | some p => p.2.status = 304 ∨ p.2.status = 200 ∧ p.2.resp.data = r.resp.data ++ f.content
  | none => False

theorem sameReply_iff {f g : Asset} {a : Arena} {r : Req} (c c' : Bool) (mime : f.mime = g.mime) :
    SameAnswer (some (assetReply f c a r)) (some (assetReply g c' a r)) ↔
      ifNoneMatchHits r f.etag = true ∧ ifNoneMatchHits r g.etag = true ∨
        (ifNoneMatchHits r f.etag = false ∧ ifNoneMatchHits r g.etag = false) ∧
          bodyRoom f c a r = bodyRoom g c' a r := by
  cases hit : ifNoneMatchHits r f.etag with
  | true =>
    have status := reply_unchanged c a hit
    cases other : ifNoneMatchHits r g.etag with
    | true =>
      have status' := reply_unchanged c' a other
      simp [SameAnswer, status, status']
    | false =>
      have sent := reply_sent c' a other
      simp [SameAnswer, status, sent.1]
  | false =>
    have sent := reply_sent c a hit
    cases other : ifNoneMatchHits r g.etag with
    | true =>
      have status' := reply_unchanged c' a other
      simp [SameAnswer, sent.1, status']
    | false =>
      have sent' := reply_sent c' a other
      simp [SameAnswer, sent.1, sent.2.1, sent.2.2, sent'.1, sent'.2.1, sent'.2.2, mime]

theorem served_iff {a : Arena} {r : Req} (f : Asset) (c : Bool) (g : TreeFile) :
    Served r g (some (assetReply f c a r)) ↔
      ifNoneMatchHits r f.etag = true ∨ bodyRoom f c a r = g.content := by
  cases hit : ifNoneMatchHits r f.etag with
  | true =>
    have status := reply_unchanged c a hit
    simp [Served, status]
  | false =>
    have sent := reply_sent c a hit
    simp [Served, sent.1, sent.2.1]

section Answers
variable {σ : Type}

def Dist.diskAsset (d : Dist) (path buf : Bytes) : Asset :=
  ⟨path, mimeFromExt (d.resolved (pathNames path)), diskTag buf, buf⟩

def Missed (d : Dist) (maxBody : ℕ) (path : Bytes) : Prop :=
  d.embedded path = none ∧ d.opened maxBody path = none ∧ ∀ f ∈ d.tree.files, slash :: f.rel ≠ path

/-- Both servers find something. The client has both tags, or none of them and the arena
has room for the same bytes. -/
def Matched (d : Dist) (maxBody : ℕ) (a : Arena) (r : Req) (path : Bytes) : Prop :=
  ∃ f buf, d.embedded path = some f ∧ d.opened maxBody path = some buf ∧
    (ifNoneMatchHits r (tableTag f.content) = true ∧ ifNoneMatchHits r (diskTag buf) = true ∨
      (ifNoneMatchHits r (tableTag f.content) = false ∧ ifNoneMatchHits r (diskTag buf) = false) ∧
        bodyRoom (assetEntry f) true a r = bodyRoom (d.diskAsset path buf) false a r ∧
        ∀ g ∈ d.tree.files, slash :: g.rel = path → bodyRoom (assetEntry f) true a r = g.content)

theorem release_reply (d : Dist) (env : Env σ) (a : Arena) {r : Req} {path : Bytes}
    (h : cstr (r.path.getD []) = path) :
    staticReply (d.release env) a r = (d.embedded path).map fun f => assetReply (assetEntry f) true a r := by
  rw [staticReply, h, release_pick, Option.map_map]
  rfl

theorem dev_reply (d : Dist) (env : Env σ) (a : Arena) {r : Req} {path : Bytes} (h : cstr (r.path.getD []) = path) :
    staticReply (d.dev env) a r =
      (d.opened env.cfg.maxBody path).map fun buf => assetReply (d.diskAsset path buf) false a r := by
  rw [staticReply, h, dev_pick, Option.map_map]
  rfl

/-- A release server and a dev server give the same answer, and a release server serves the
file of the path. -/
def Alike (d : Dist) (env : Env σ) (a : Arena) (r : Req) (path : Bytes) : Prop :=
  SameAnswer (staticReply (d.release env) a r) (staticReply (d.dev env) a r) ∧
    ∀ f ∈ d.tree.files, slash :: f.rel = path → Served r f (staticReply (d.release env) a r)

theorem alike_found (d : Dist) (env : Env σ) (a : Arena) (r : Req) {rest : Bytes}
    (path : cstr (r.path.getD []) = slash :: rest) (asset : staticIsAssetPath (slash :: rest) = true) :
    Alike d env a r (slash :: rest) ↔
      Missed d env.cfg.maxBody (slash :: rest) ∨ Matched d env.cfg.maxBody a r (slash :: rest) := by
  unfold Alike Missed Matched
  rw [release_reply d env a path, dev_reply d env a path]
  cases found : d.embedded (slash :: rest) with
  | none =>
    cases opened : d.opened env.cfg.maxBody (slash :: rest) with
    | none => simp [SameAnswer, Served]
    | some buf => simp [SameAnswer]
  | some f =>
    cases opened : d.opened env.cfg.maxBody (slash :: rest) with
    | none => simp [SameAnswer]
    | some buf =>
      have mime : (assetEntry f).mime = (d.diskAsset (slash :: rest) buf).mime := same_mime d asset found
      have same := sameReply_iff (a := a) (r := r) true false mime
      have serves := fun g => served_iff (a := a) (r := r) (assetEntry f) true g
      simp only [Option.map_some, same, serves]
      constructor
      · rintro ⟨both | ⟨neither, room⟩, named⟩
        · exact .inr ⟨f, buf, rfl, rfl, .inl both⟩
        · refine .inr ⟨f, buf, rfl, rfl, .inr ⟨neither, room, fun g inTree same => ?_⟩⟩
          exact (named g inTree same).resolve_left (by rw [neither.1]; exact Bool.false_ne_true)
      · rintro (⟨missed, -⟩ | ⟨_, _, file, read, both | ⟨neither, room, named⟩⟩)
        · cases missed
        · cases file
          cases read
          exact ⟨.inl both, fun _ _ _ => .inl both.1⟩
        · cases file
          cases read
          exact ⟨.inr ⟨neither, room⟩, fun g inTree same => .inr (named g inTree same)⟩

/-- No file has an entry of this path, whatever its case, and nothing stands at the path. -/
def Dist.Unknown (d : Dist) (path : Bytes) : Prop :=
  (∀ f ∈ d.tree.files, strcaseeq (assetPath f) path = false) ∧ d.tree.stat (pathNames path) = .missing

/-- The only file with an entry of its path, whatever the case. -/
def Dist.Alone (d : Dist) (f : TreeFile) : Prop :=
  f ∈ d.tree.files ∧ ∀ g ∈ d.tree.files, strcaseeq (assetPath g) (slash :: f.rel) = true → g = f

/-- The walk gets to the file among the first 128, and its path goes whole into the table. -/
structure Dist.Embeds (d : Dist) (f : TreeFile) : Prop where
  entered : ∀ n ∈ f.path.dropLast, walkPruned n = false
  reached : fitsWalk d.distdir f.path = true
  other : f.rel ≠ d.name
  early : ((d.tree.walk d.distdir).filter fun g => g.rel != d.name).idxOf f < 128
  whole : f.rel.length < 512

/-- Dev mode reads the file at its path. -/
structure Dist.Opens (d : Dist) (maxBody : ℕ) (f : TreeFile) : Prop where
  noDots : contains (ascii "..") (slash :: f.rel) = false
  fits : (d.base ++ slash :: f.rel).length < pathMax
  real : (d.baseReal ++ slash :: f.rel).length < pathMax
  small : f.content.length ≤ maxBody * 4 % 2 ^ 64

/-- The client has both tags of the file, or none of them and the arena serves the two answers. -/
def Dist.Asked (d : Dist) (a : Arena) (r : Req) (f : TreeFile) : Prop :=
  ifNoneMatchHits r (tableTag f.content) = true ∧ ifNoneMatchHits r (diskTag f.content) = true ∨
    (ifNoneMatchHits r (tableTag f.content) = false ∧ ifNoneMatchHits r (diskTag f.content) = false) ∧
      r.resp.data.length + f.content.length < 2 ^ 64 ∧ (assetReply (assetEntry f) true a r).1.Served ∧
      (assetReply (d.diskAsset (slash :: f.rel) f.content) false a r).1.Served

theorem joinSegs_split {names : List Bytes} (some : names ≠ []) (free : ∀ n ∈ names, slash ∉ n) :
    (joinSegs names).splitOn slash = names := by
  induction names with
  | nil => exact absurd rfl some
  | cons n names ih =>
    have here := free n List.mem_cons_self
    cases names with
    | nil => exact List.splitOn_eq_singleton here
    | cons m names =>
      rw [joinSegs, List.splitOn_append_cons_of_beq _ _ (beq_self_eq_true slash), List.splitOn_eq_singleton here,
        ih (List.cons_ne_nil m names) fun n h => free n (List.mem_cons_of_mem _ h)]
      rfl

theorem joinSegs_flatMap {names : List Bytes} (some : names ≠ []) :
    names.flatMap (slash :: ·) = slash :: joinSegs names := by
  induction names with
  | nil => exact absurd rfl some
  | cons n names ih =>
    cases names with
    | nil => exact List.append_nil _
    | cons m names =>
      rw [List.flatMap_cons, ih (List.cons_ne_nil m names)]
      rfl

theorem Dist.names_below (d : Dist) {f : TreeFile} (h : f ∈ d.tree.files) : f.path.map FileName.bytes ≠ [] :=
  fun none => d.tree.below f h (List.map_eq_nil_iff.mp none)

theorem pathNames_rel (d : Dist) {f : TreeFile} (h : f ∈ d.tree.files) :
    pathNames (slash :: f.rel) = f.path.map FileName.bytes := by
  have free : ∀ n ∈ f.path.map FileName.bytes, slash ∉ n := by
    intro n hn
    obtain ⟨e, _, rfl⟩ := List.mem_map.mp hn
    exact e.slashFree
  have whole : (slash :: f.rel).splitOn slash = [] :: f.path.map FileName.bytes := by
    have first := List.splitOn_append_cons_of_beq ([] : Bytes) f.rel (beq_self_eq_true slash)
    rw [List.nil_append, List.splitOn_eq_singleton List.not_mem_nil] at first
    rw [first, TreeFile.rel, dirText, joinSegs_split (d.names_below h) free]
    rfl
  rw [pathNames, whole, List.filter_cons_of_neg (by decide), List.filter_eq_self]
  intro n hn
  obtain ⟨e, inPath, rfl⟩ := List.mem_map.mp hn
  rw [Bool.and_eq_true, bne_iff_ne, bne_iff_ne]
  exact ⟨e.nonempty, (d.tree.real f h e inPath).1⟩

theorem resolved_rel (d : Dist) {f : TreeFile} (h : f ∈ d.tree.files) :
    d.resolved (pathNames (slash :: f.rel)) = d.baseReal ++ slash :: f.rel := by
  rw [pathNames_rel d h, Dist.resolved, joinSegs_flatMap (d.names_below h)]
  rfl

theorem opened_file (d : Dist) (maxBody : ℕ) {f : TreeFile} (h : f ∈ d.tree.files) (buf : Bytes) :
    d.opened maxBody (slash :: f.rel) = some buf ↔ d.Opens maxBody f ∧ buf = f.content := by
  unfold Dist.opened Dist.devFile Dist.readFile
  dsimp only
  rw [resolved_rel d h, pathNames_rel d h, d.tree.stat_file h]
  dsimp only
  by_cases dots : contains (ascii "..") (slash :: f.rel) = true
  · rw [if_pos dots]
    exact ⟨fun none => (by cases none), fun ⟨opens, _⟩ => absurd (opens.noDots.symm.trans dots) Bool.false_ne_true⟩
  rw [if_neg dots]
  by_cases long : pathMax ≤ (d.base ++ slash :: f.rel).length
  · rw [if_pos long]
    exact ⟨fun none => (by cases none), fun ⟨opens, _⟩ => absurd opens.fits (Nat.not_lt.mpr long)⟩
  rw [if_neg long]
  by_cases far : pathMax ≤ (d.baseReal ++ slash :: f.rel).length
  · rw [if_pos far]
    exact ⟨fun none => (by cases none), fun ⟨opens, _⟩ => absurd opens.real (Nat.not_lt.mpr far)⟩
  rw [if_neg far]
  by_cases large : maxBody * 4 % 2 ^ 64 < f.content.length
  · rw [if_pos large]
    exact ⟨fun none => (by cases none), fun ⟨opens, _⟩ => absurd opens.small (Nat.not_le.mpr large)⟩
  rw [if_neg large]
  constructor
  · intro read
    cases read
    exact ⟨⟨Bool.eq_false_iff.mpr dots, Nat.not_le.mp long, Nat.not_le.mp far, Nat.not_lt.mp large⟩, rfl⟩
  · rintro ⟨_, rfl⟩
    rfl

theorem mem_assetFiles {d : Dist} {f : TreeFile} (h : f ∈ d.tree.files) : f ∈ d.assetFiles ↔
    (∀ n ∈ f.path.dropLast, walkPruned n = false) ∧ fitsWalk d.distdir f.path = true ∧ f.rel ≠ d.name ∧
      ((d.tree.walk d.distdir).filter fun g => g.rel != d.name).idxOf f < 128 := by
  have walked : f ∈ (d.tree.walk d.distdir).filter (fun g => g.rel != d.name) ↔
      (∀ n ∈ f.path.dropLast, walkPruned n = false) ∧ fitsWalk d.distdir f.path = true ∧ f.rel ≠ d.name := by
    rw [List.mem_filter, Tree.walk, List.mem_filter, and_iff_right h, Bool.and_eq_true, Bool.not_eq_true',
      List.any_eq_false, bne_iff_ne, and_assoc]
    simp only [Bool.not_eq_true]
  unfold Dist.assetFiles
  constructor
  · intro early
    obtain ⟨entered, reached, other⟩ := walked.mp (List.mem_of_mem_take early)
    exact ⟨entered, reached, other, (List.mem_take_iff_idxOf_lt (List.mem_of_mem_take early)).mp early⟩
  · rintro ⟨entered, reached, other, early⟩
    exact (List.mem_take_iff_idxOf_lt (walked.mpr ⟨entered, reached, other⟩)).mpr early

theorem assetFiles_tree {d : Dist} {f : TreeFile} (h : f ∈ d.assetFiles) : f ∈ d.tree.files :=
  mem_walk (List.mem_of_mem_filter (List.mem_of_mem_take h))

theorem embedded_file (d : Dist) {f : TreeFile} (alone : d.Alone f) (g : TreeFile) :
    d.embedded (slash :: f.rel) = some g ↔ d.Embeds f ∧ g = f := by
  constructor
  · intro found
    have listed := List.mem_of_find?_eq_some found
    have named := List.find?_some (p := fun g => strcaseeq (assetPath g) (slash :: f.rel)) found
    obtain rfl := alone.2 g (assetFiles_tree listed) named
    obtain ⟨entered, reached, other, early⟩ := (mem_assetFiles alone.1).mp listed
    refine ⟨⟨entered, reached, other, early, ?_⟩, rfl⟩
    have len := congrArg List.length ((strcaseeq_iff _ _).mp named)
    simp only [assetPath, fit, List.length_map, List.length_cons, List.length_take] at len
    omega
  · rintro ⟨embeds, rfl⟩
    have listed := (mem_assetFiles alone.1).mpr ⟨embeds.entered, embeds.reached, embeds.other, embeds.early⟩
    have named : strcaseeq (assetPath g) (slash :: g.rel) = true := by
      rw [assetPath, RoutePatterns.fit_of_le embeds.whole]
      exact (strcaseeq_iff _ _).mpr rfl
    unfold Dist.embedded
    cases found : d.assetFiles.find? fun h => strcaseeq (assetPath h) (slash :: g.rel) with
    | none => exact absurd named (List.find?_eq_none.mp found g listed)
    | some h =>
      have first := List.mem_of_find?_eq_some found
      rw [alone.2 h (assetFiles_tree first) (List.find?_some (p := fun h => strcaseeq (assetPath h) _) found)]

theorem bodyRoom_served {f : Asset} {c : Bool} {a : Arena} {r : Req} (miss : ifNoneMatchHits r f.etag = false)
    (small : r.resp.data.length + f.bytes.length < 2 ^ 64) (served : (assetReply f c a r).1.Served) :
    bodyRoom f c a r = f.bytes := by
  have sent := (reply_sent c a miss).2.1
  rw [assetReply, if_neg (by rw [miss]; exact Bool.false_ne_true)] at served sent
  have kept := (assetHead_kept f c a r).2.1
  have all : (respPutn f.bytes (assetHead f c a r).1 (assetHead f c a r).2).2.resp.data = _ :=
    (HtmlEscape.wbufPutn_writes f.bytes).data _ _ served (by rw [kept]; exact small)
  rw [kept] at all
  exact List.append_cancel_left (sent.symm.trans all)

theorem unknown_missed (d : Dist) (maxBody : ℕ) {path : Bytes} (unknown : d.Unknown path) :
    Missed d maxBody path := by
  obtain ⟨unnamed, nothing⟩ := unknown
  refine ⟨List.find?_eq_none.mpr fun f hf => ?_, ?_, fun f hf named => ?_⟩
  · rw [unnamed f (assetFiles_tree hf)]
    exact Bool.false_ne_true
  · unfold Dist.opened Dist.devFile Dist.readFile
    rw [nothing]
    simp
  · rw [← named, pathNames_rel d hf, d.tree.stat_file hf] at nothing
    cases nothing

/-- A path at which there is nothing is answered alike, and that of a file when the table
has the file and dev mode reads it, and only then. -/
theorem same_assets (d : Dist) (env : Env σ) (a : Arena) (r : Req) {rest : Bytes}
    (path : cstr (r.path.getD []) = slash :: rest) (asset : staticIsAssetPath (slash :: rest) = true) :
    (d.Unknown (slash :: rest) → Alike d env a r (slash :: rest)) ∧
    ∀ f, d.Alone f → f.rel = rest →
      (Alike d env a r (slash :: rest) → d.Embeds f ∧ d.Opens env.cfg.maxBody f) ∧
      (d.Asked a r f → d.Embeds f → d.Opens env.cfg.maxBody f → Alike d env a r (slash :: rest)) := by
  rw [alike_found d env a r path asset]
  refine ⟨fun unknown => .inl (unknown_missed d _ unknown), ?_⟩
  rintro f alone rfl
  constructor
  · rintro (⟨_, _, other⟩ | ⟨g, buf, found, read, _⟩)
    · exact absurd rfl (other f alone.1)
    · exact ⟨((embedded_file d alone g).mp found).1, ((opened_file d _ alone.1 buf).mp read).1⟩
  · intro asked embeds opens
    have found := (embedded_file d alone f).mpr ⟨embeds, rfl⟩
    have read := (opened_file d env.cfg.maxBody alone.1 f.content).mpr ⟨opens, rfl⟩
    refine .inr ⟨f, f.content, found, read, ?_⟩
    obtain both | ⟨neither, small, served, served'⟩ := asked
    · exact .inl both
    · have room : bodyRoom (assetEntry f) true a r = f.content := bodyRoom_served neither.1 small served
      have room' : bodyRoom (d.diskAsset (slash :: f.rel) f.content) false a r = f.content :=
        bodyRoom_served neither.2 small served'
      refine .inr ⟨neither, room.trans room'.symm, fun g inTree named => ?_⟩
      have same : g.path = f.path := dirText_inj (List.cons.inj named).2
      rw [d.tree.same_path alone.1 inTree (by rw [same]), room]

def oneFile (path : List FileName) (content : Bytes) (real : ∀ n ∈ path, IsReal n) (below : path ≠ [])
    (fits : ∀ q ∈ path.inits, fitsWalk (ascii "dist") q = true) (verbatim : Verbatim (dirText path)) : Dist where
  distdir := ascii "dist"
  tree :=
    { files := [⟨path, content⟩]
      folders := []
      real := by
        intro f hf
        rw [List.mem_singleton.mp hf]
        exact real
      below := by
        intro f hf
        rw [List.mem_singleton.mp hf]
        exact below
      distinct := List.nodup_singleton _
      leaves := by
        intro f hf p hp _
        rw [List.mem_singleton.mp hf, List.mem_singleton.mp (show p ∈ [path] from hp)] }
  uncut := uncut_short fun p hp q front => by
    rw [List.mem_singleton.mp (show p ∈ [path] from hp)] at front
    exact fits q ((List.mem_inits _ _).mpr front)
  verbatim := by
    intro f hf
    rw [List.mem_singleton.mp hf]
    exact verbatim
  name := ascii "app"
  base := ascii "dist"
  given := by decide
  baseReal := ascii "/srv/dist"
  folderEnd _ := 2 ^ 63 - 1

def modulesName : FileName := ⟨ascii "node_modules", by decide, by decide, by decide⟩
def scriptName : FileName := ⟨ascii "m.js", by decide, by decide, by decide⟩

/-- `m.js` -/
def scriptFile : TreeFile := ⟨[scriptName], ascii "let x"⟩

def scriptDist : Dist :=
  oneFile [scriptName] scriptFile.content (by decide) (by decide) (by decide) (by decide)

/-- `node_modules/m.js` -/
def modulesDist : Dist :=
  oneFile [modulesName, scriptName] (ascii "x") (by decide) (by decide) (by decide) (by decide)

def getPath (path : Bytes) : Req := { reqSetup 0 with path := some path }

/-- The arena of a request, still empty. -/
def freshArena : Arena :=
  arenaInit (.zero ((stockEnv rootTable).malloc 0)) stockConfig.requestArenaFirst stockConfig.requestArenaCap

/-- Both serve the file to a client without a tag. -/
theorem script_same : Alike scriptDist (stockEnv rootTable) freshArena (getPath (ascii "/m.js")) (ascii "/m.js") := by
  have path : cstr ((getPath (ascii "/m.js")).path.getD []) = slash :: ascii "m.js" := by decide
  have alone : scriptDist.Alone scriptFile := ⟨List.mem_singleton.mpr rfl, fun g inTree _ => List.mem_singleton.mp inTree⟩
  have asked : scriptDist.Asked freshArena (getPath (ascii "/m.js")) scriptFile :=
    .inr ⟨⟨rfl, rfl⟩, by decide, by decide +kernel, by decide +kernel⟩
  have embeds : scriptDist.Embeds scriptFile := ⟨by decide, by decide, by decide, by decide, by decide⟩
  have opens : scriptDist.Opens stockConfig.maxBody scriptFile := ⟨by decide, by decide, by decide, by decide⟩
  exact ((same_assets scriptDist (stockEnv rootTable) freshArena _ path (by decide)).2 scriptFile alone
    (by decide)).2 asked embeds opens

/-- A release server does not have `node_modules/m.js`, a dev server does. -/
theorem modules_differ : staticIsAssetPath (ascii "/node_modules/m.js") = true ∧
    staticReply (modulesDist.release (stockEnv rootTable)) freshArena (getPath (ascii "/node_modules/m.js")) = none ∧
    ¬ SameAnswer
      (staticReply (modulesDist.release (stockEnv rootTable)) freshArena (getPath (ascii "/node_modules/m.js")))
      (staticReply (modulesDist.dev (stockEnv rootTable)) freshArena (getPath (ascii "/node_modules/m.js"))) := by
  have path : cstr ((getPath (ascii "/node_modules/m.js")).path.getD []) = ascii "/node_modules/m.js" := by decide
  have missing : modulesDist.embedded (ascii "/node_modules/m.js") = none := by decide
  have opened : modulesDist.opened stockConfig.maxBody (ascii "/node_modules/m.js") = some (ascii "x") := by decide
  have released : staticReply (modulesDist.release (stockEnv rootTable)) freshArena
      (getPath (ascii "/node_modules/m.js")) = none := by
    rw [release_reply _ _ freshArena path, missing]
    rfl
  refine ⟨by decide, released, ?_⟩
  rw [released, dev_reply _ _ freshArena path]
  change ¬ SameAnswer none ((modulesDist.opened stockConfig.maxBody _).map _)
  rw [opened]
  exact id

end Answers
end Cerco.AssetTables
