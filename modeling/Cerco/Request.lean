import Cerco.Arena
import Cerco.CString

set_option autoImplicit false

/-!
# The request object and its response buffer

A `Req` lives in the arena of its connection. Strings are kept by value; a NULL
pointer is `none`. The functions that allocate take the arena and return it.
-/
namespace Cerco.Request
open Cerco.Alloc Cerco.CString

/-- `cerco_wbuf`: the bytes written so far and the capacity behind them. -/
structure Wbuf where
  data : Bytes
  cap : ℕ
deriving DecidableEq

/-- What `r->handler` points at: a route of the application or `sf_run`. -/
inductive Handler
  | route (fn : ℕ)
  | sfRun
deriving DecidableEq

structure Req where
  conn : Option ℕ
  method : Option Bytes
  target : Option Bytes
  path : Option Bytes
  query : Option Bytes
  headers : List (Bytes × Bytes)
  body : Option Bytes
  bodyCap : ℕ
  routeParams : List (Bytes × Option Bytes)
  status : ℕ
  respHdrs : List (Bytes × Bytes)
  resp : Wbuf
  pageTitle : Option Bytes
  headInjected : Bool
  cancelled : Bool
  handler : Option Handler
  sfEntry : Option ℕ
deriving DecidableEq

def Req.bodyLen (r : Req) : ℕ := (r.body.getD []).length

def maxHeaders : ℕ := 100
def maxHeaderBytes : ℕ := 32 * 1024
def maxUrl : ℕ := 8 * 1024
def maxName : ℕ := 256
def maxValue : ℕ := 8 * 1024

/-- `sizeof(cerco_req)` and `sizeof(cerco_resp_hdr)`. -/
def sizeofReq : ℕ := 2048
def sizeofRespHdr : ℕ := 24

def wbufInit : Wbuf := ⟨[], 0⟩

/-- `while (cap < need) cap *= 2`; a size_t is exhausted after 64 doublings. -/
def doubleTo : ℕ → ℕ → ℕ → ℕ
  | 0, cap, _ => cap
  | k + 1, cap, need => if cap < need then doubleTo k (cap * 2) need else cap

def wbufGrow (a : Arena) (b : Wbuf) (need : ℕ) : Arena × Wbuf :=
  if b.data.length + need ≤ b.cap then (a, b)
  else
    let cap := if b.cap ≠ 0 then b.cap * 2 else 4096
    let cap := doubleTo 64 cap (b.data.length + need)
    match arenaAlloc a cap with
    | (none, a') => (a', b)
    | (some _, a') => (a', { b with cap := cap })

def wbufPutn (a : Arena) (b : Wbuf) (s : Bytes) : Arena × Wbuf :=
  let (a', b') := wbufGrow a b s.length
  if b'.cap < b'.data.length + s.length then (a', b') else (a', { b' with data := b'.data ++ s })

def wbufReset (_ : Wbuf) : Wbuf := ⟨[], 0⟩

/-- `wbuf_find`: the first place at or after `start` where `needle` stands. -/
def wbufFind (b : Wbuf) (start : ℕ) (needle : Bytes) : Option ℕ :=
  if needle.length = 0 ∨ b.data.length < needle.length ∨ b.data.length - needle.length < start
  then none
  else (List.range (b.data.length - needle.length + 1)).find? fun i =>
    decide (start ≤ i) && ((b.data.drop i).take needle.length == needle)

/-- `req_setup` on zeroed memory. -/
def reqSetup (c : ℕ) : Req :=
  ⟨some c, none, none, none, none, [], none, 0, [], 200, [], wbufInit, none, false, false,
    none, none⟩

/-- Copies up to the terminator; the arena gets one byte more. -/
def arenaStrdup (a : Arena) (s : Bytes) : Option Bytes × Arena :=
  match arenaAlloc a ((cstr s).length + 1) with
  | (some _, a') => (some (cstr s), a')
  | (none, a') => (none, a')

theorem arenaStrdup_some {a : Arena} {s v : Bytes} (h : (arenaStrdup a s).1 = some v) : cstr s = v := by
  unfold arenaStrdup at h
  split at h
  · exact Option.some.inj h
  · cases h

theorem arenaStrdup_served {a : Arena} {s : Bytes} (served : (arenaStrdup a s).2.Served) :
    a.Served ∧ (arenaStrdup a s).1 = some (cstr s) := by
  unfold arenaStrdup at served ⊢
  split at served
  · rename_i found
    have := arenaAlloc_served (by rw [found]; exact served)
    exact ⟨this.1, rfl⟩
  · rename_i failed
    have := arenaAlloc_served (by rw [failed]; exact served)
    rw [failed] at this
    exact Bool.noConfusion this.2

/-- Copies all of `s`. -/
def arenaStrndup (a : Arena) (s : Bytes) : Option Bytes × Arena :=
  match arenaAlloc a (s.length + 1) with
  | (some _, a') => (some s, a')
  | (none, a') => (none, a')

def hexval (c : UInt8) : Option ℕ :=
  if 48 ≤ c ∧ c ≤ 57 then some (c.toNat - 48)
  else if 97 ≤ c ∧ c ≤ 102 then some (c.toNat - 97 + 10)
  else if 65 ≤ c ∧ c ≤ 70 then some (c.toNat - 65 + 10)
  else none

/-- `cerco_url_decode` with `room` bytes left before the terminator. -/
def urlDecode (plusIsSpace : Bool) : ℕ → Bytes → Option Bytes
  | _, [] => some []
  -- the capacity test comes after the escape has been read; both reject
  | 0, _ :: _ => none
  | room + 1, c :: rest =>
    if c = 37 then
      match rest with
      | h :: l :: rest' =>
        match hexval h, hexval l with
        | some hi, some lo => (urlDecode plusIsSpace room rest').map (UInt8.ofNat (hi * 16 + lo) :: ·)
        | _, _ => none
      | _ => none
    else if c = 43 ∧ plusIsSpace = true then (urlDecode plusIsSpace room rest).map (32 :: ·)
    else (urlDecode plusIsSpace room rest).map (c :: ·)

def targetPart (t : Bytes) (plen : ℕ) : Bytes :=
  if 7 < plen ∧ strncaseeq t (ascii "http://") 7 = true then
    match strchr slash ((t.take plen).drop 7) with
    | some (_, post) => slash :: post
    | none => [slash]
  else t.take plen

/-- `req_target_path`: 0, or the HTTP code of the error. -/
def reqTargetPath (a : Arena) (r : Req) : ℕ × Arena × Req :=
  if r.path.isSome then (0, a, r)
  else
    let t := cstr (r.target.getD [slash])
    let qm := strchr 63 t
    let plen := match qm with
      | some (pre, _) => pre.length
      | none => t.length
    let part := targetPart t plen
    let part := if part.length = 0 then [slash] else part
    if maxUrl < part.length then (414, a, r)
    else
      match arenaAlloc a (part.length + 1) with
      | (none, a) => (400, a, r)
      | (some _, a) =>
        match urlDecode false part.length part with
        | none => (400, a, r)
        | some decoded =>
          let r := { r with path := some decoded }
          match qm with
          | some (_, q) =>
            match arenaAlloc a (q.length + 1) with
            | (none, a) => (400, a, r)
            | (some _, a) =>
              match urlDecode true q.length q with
              | none => (400, a, r)
              | some qdec => (0, a, { r with query := some qdec })
          | none => (0, a, { r with query := some [] })

/-- `cerco_method` -/
def reqMethod (r : Req) : Bytes := r.method.getD []

/-- `cerco_header`: the value of the first header with this name. -/
def reqHeader (r : Req) (name : Bytes) : Option Bytes :=
  (r.headers.find? fun h => strcaseeq (cstr h.1) name).map (·.2)

def respHdrAdd (a : Arena) (r : Req) (name value : Bytes) : Arena × Req :=
  if 64 ≤ r.respHdrs.length then (a, r)
  else
    match arenaAlloc a sizeofRespHdr with
    | (none, a) => (a, r)
    | (some _, a) =>
      match arenaStrdup a name with
      | (n, a) =>
        match arenaStrdup a value with
        | (v, a) =>
          match n, v with
          | some n, some v => (a, { r with respHdrs := r.respHdrs ++ [(n, v)] })
          | _, _ => (a, r)

def replaceHdr (name value : Bytes) : List (Bytes × Bytes) → Option (List (Bytes × Bytes))
  | [] => none
  | h :: hs =>
    if strcaseeq h.1 name then some ((h.1, value) :: hs)
    else (replaceHdr name value hs).map (h :: ·)

def nullText : Bytes := ascii "(null)"

/-- `cerco_set_header`; the value it replaces with is NULL when the arena is full. -/
def setHeader (a : Arena) (r : Req) (name value : Bytes) : Arena × Req :=
  match replaceHdr name ((arenaStrdup a value).1.getD nullText) r.respHdrs with
  | some hdrs => ((arenaStrdup a value).2, { r with respHdrs := hdrs })
  | none => respHdrAdd a r name value

end Cerco.Request
