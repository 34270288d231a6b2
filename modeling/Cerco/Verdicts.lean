import Cerco.Books

set_option autoImplicit false

/-!
# The code of an answer that the event loop gives

`responder` tells who answers a request. For an answer by `conn_send_simple` the
statistics depend on its code, which `verdict` adds.
-/
namespace Cerco.Verdicts
open Cerco.Alloc Cerco.CString Cerco.Request Cerco.Response Cerco.Router Cerco.Connection Cerco.Dispatch
open Cerco.HttpCallbacks Cerco.ArenaUse Cerco.ConnFrames Cerco.Responders Cerco.Books

variable {σ : Type}

inductive Verdict
  | worker
  | response
  | simple (code : ℕ)
  | stream
deriving DecidableEq

def jobVerdict (x : Ctx σ) : Verdict := if hasRoom x then .worker else .simple 503

def missingVerdict (env : Env σ) (x : Ctx σ) : Verdict :=
  if (find404 env.routes).isSome && hasRoom x then .worker else .response

def sfVerdict (env : Env σ) (x : Ctx σ) (r : Req) (idStr : Bytes) : Verdict :=
  let (id, rest) := sfIdLoop idStr 0
  if rest ≠ [] ∨ idStr = [] then .simple 400
  else
    match env.sfs.find? fun e => e.id == id with
    | none => .simple 404
    | some ent =>
      if !strcaseeq (reqMethod r) ent.method &&
          !(strcaseeq (reqMethod r) (ascii "HEAD") && strcaseeq ent.method (ascii "GET")) then .simple 405
      else
        match reqHeader r (ascii "content-type") with
        | none => .simple 415
        | some ct => if !strncaseeq (cstr ct) sfContentType 22 then .simple 415 else jobVerdict x

def reservedVerdict (env : Env σ) (x : Ctx σ) (path : Bytes) : Verdict :=
  if strcaseeq path (ascii "/__cerco/health") then .response
  else if strcaseeq path (ascii "/__cerco/stats") then
    if !env.cfg.statsEnabled then missingVerdict env x else .response
  else if strcaseeq path (ascii "/__cerco/live") then
    if !env.cfg.devMode then missingVerdict env x else .stream
  else if strcaseeq path (ascii "/__cerco/live.js") then
    if !env.cfg.devMode then missingVerdict env x else .response
  else missingVerdict env x

def staticVerdict (env : Env σ) (x : Ctx σ) (path : Bytes) : Verdict :=
  match env.assets.find? fun f => strcaseeq f.path path with
  | some _ => .response
  | none =>
    match (if env.cfg.devMode then env.devFile path else none) with
    | some _ => .response
    | none => missingVerdict env x

/-- How request `k` is answered. -/
def verdict (env : Env σ) (x : Ctx σ) (k : ℕ) : Verdict :=
  let r := x.c.objs k
  let path := cstr (r.path.getD [])
  let method := reqMethod r
  if sfIsSfPath path then sfVerdict env x r (path.drop 12)
  else if strncaseeq path (ascii "/__cerco/") 9 then reservedVerdict env x path
  else
    let p := routerProbe env.routes x.c.arena r none 0
    if p.1 = 1 then jobVerdict x
    else if p.1 = 2 then .simple (if strcaseeq method (ascii "OPTIONS") then 204 else 405)
    else if (strcaseeq method (ascii "GET") || strcaseeq method (ascii "HEAD")) &&
        staticIsAssetPath path then staticVerdict env x path
    else missingVerdict env x

/-- Only request objects, their arena and statistics that are not compared have changed. -/
structure Ready (x y : Ctx σ) : Prop where
  only : ∃ a o st, y = { x with srv := { x.srv with stats := st }, c := { x.c with arena := a, objs := o } }
  same : SameBooks x.srv.stats y.srv.stats

/-- How an answer comes about. -/
inductive Answers (env : Env σ) (k : ℕ) (x : Ctx σ) : Verdict → Ctx σ → Prop
  | worker {y : Ctx σ} (ready : Ready x y) : Answers env k x .worker (wpoolSubmit y k).1
  | response {y : Ctx σ} (ready : Ready x y) : Answers env k x .response (connStartResponse env y k)
  | simple {y : Ctx σ} (ready : Ready x y) (code : ℕ) (hdr : Option Bytes) (body : Bytes) :
      Answers env k x (.simple code) (connSendSimple env y code hdr body false)
  | stream {y : Ctx σ} (ready : Ready x y) : Answers env k x .stream (sendLiveSse env y)

section Answers
variable {env : Env σ} {w x : Ctx σ} {k : ℕ}

theorem Ready.refl (x : Ctx σ) : Ready x x := ⟨⟨_, _, _, rfl⟩, .refl _⟩

theorem Ready.withReq (h : Ready w x) (k : ℕ) (f : Arena → Req → Arena × Req) : Ready w (x.withReq k f) := by
  obtain ⟨⟨a, o, st, rfl⟩, same⟩ := h
  exact ⟨⟨_, _, _, rfl⟩, same⟩

theorem Ready.room (h : Ready w x) : hasRoom x = hasRoom w := by
  obtain ⟨⟨a, o, st, rfl⟩, _⟩ := h
  rfl

theorem submit_answers (h : Ready w x) {f : Ctx σ → Ctx σ} {v : Verdict} (hf : Answers env k w v (f x)) :
    Answers env k w (if hasRoom w then .worker else v) (match wpoolSubmit x k with
      | (x, true) => x
      | (x, false) => f x) := by
  rw [← h.room, ← wpoolSubmit_room x k]
  have job : Answers env k w .worker (wpoolSubmit x k).1 := .worker h
  cases hy : wpoolSubmit x k with
  | mk y taken =>
    cases taken with
    | true => rwa [hy] at job
    | false =>
      rw [wpoolSubmit_rejected hy]
      exact hf

theorem Ready.rejected (h : Ready w x) :
    Ready w (x.stat fun s => { s with rejectedJobs := s.rejectedJobs + 1 }) := by
  obtain ⟨⟨a, o, st, rfl⟩, same⟩ := h
  exact ⟨⟨_, _, _, rfl⟩, same.conns, same.reqs, same.counts⟩

theorem rejectJob_answers (h : Ready w x) : Answers env k w (.simple 503) (rejectJob env x) :=
  .simple h.rejected 503 _ _

theorem send404Text_answers (h : Ready w x) : Answers env k w .response (send404Text env x k) :=
  .response (((h.withReq k (setStatus 404)).withReq k respReset).withReq k (respPutn notFoundPage))

theorem routerSend404_answers (h : Ready w x) :
    Answers env k w (missingVerdict env w) (routerSend404 env x k) := by
  unfold routerSend404 missingVerdict
  cases find404 env.routes with
  | none => exact send404Text_answers h
  | some rr =>
    have ready := (h.withReq k (setStatus 404)).withReq k (setHandler (.route rr.fn))
    exact submit_answers ready (send404Text_answers ready)

theorem sfDispatch_answers (h : Ready w x) (same : x.c.objs k = w.c.objs k) (idStr : Bytes) :
    Answers env k w (sfVerdict env w (w.c.objs k) idStr) (sfDispatch env x k idStr) := by
  unfold sfDispatch sfVerdict
  rw [same]
  dsimp only
  by_cases bad : (sfIdLoop idStr 0).2 ≠ [] ∨ idStr = []
  · rw [if_pos bad, if_pos bad]
    exact .simple h 400 none _
  rw [if_neg bad, if_neg bad]
  cases env.sfs.find? fun e => e.id == (sfIdLoop idStr 0).1 with
  | none => exact .simple h 404 none _
  | some ent =>
    dsimp only
    by_cases method : (!strcaseeq (reqMethod (w.c.objs k)) ent.method &&
        !(strcaseeq (reqMethod (w.c.objs k)) (ascii "HEAD") && strcaseeq ent.method (ascii "GET"))) = true
    · rw [if_pos method, if_pos method]
      exact .simple h 405 (some (ascii "Allow: POST")) _
    rw [if_neg method, if_neg method]
    cases reqHeader (w.c.objs k) (ascii "content-type") with
    | none => exact .simple h 415 none _
    | some ct =>
      dsimp only
      by_cases type : (!strncaseeq (cstr ct) sfContentType 22) = true
      · rw [if_pos type, if_pos type]
        exact .simple h 415 none _
      rw [if_neg type, if_neg type]
      have ready := h.withReq k fun a r => (a, { r with sfEntry := some ent.id, handler := some .sfRun })
      exact submit_answers ready (rejectJob_answers ready)

theorem sendText_answers (h : Ready w x) (contentType text : Bytes) :
    Answers env k w .response (sendText env x k contentType text) := by
  have typed := (h.withReq k (setStatus 200)).withReq k (hdrSet (ascii "Content-Type") contentType)
  exact .response (((typed.withReq k (hdrSet (ascii "Cache-Control") (ascii "no-store"))).withReq k
    respReset).withReq k (respPutn text))

theorem sfHandleReserved_answers (h : Ready w x) (same : x.c.objs k = w.c.objs k) :
    Answers env k w (reservedVerdict env w (cstr ((w.c.objs k).path.getD []))) (sfHandleReserved env x k) := by
  unfold sfHandleReserved reservedVerdict
  rw [same]
  dsimp only
  split
  · exact sendText_answers h _ _
  · split
    · split
      · exact routerSend404_answers h
      · exact sendText_answers h _ _
    · split
      · split
        · exact routerSend404_answers h
        · exact .stream h
      · split
        · split
          · exact routerSend404_answers h
          · exact sendText_answers h _ _
        · exact routerSend404_answers h

theorem serveAssetBytes_answers (h : Ready w x) (f : Asset) (cacheable : Bool) :
    Answers env k w .response (serveAssetBytes env x k f cacheable) := by
  unfold serveAssetBytes
  split
  · have tagged := (h.withReq k (setStatus 304)).withReq k (hdrSet (ascii "ETag") (quoteEtag f.etag))
    exact .response (tagged.withReq k (hdrSet (ascii "Cache-Control") (ascii "public, max-age=300")))
  · have typed := (h.withReq k (setStatus 200)).withReq k (hdrSet (ascii "Content-Type") f.mime)
    have tagged := typed.withReq k (hdrSet (ascii "ETag") (quoteEtag f.etag))
    exact .response ((tagged.withReq k (hdrSet (ascii "Cache-Control")
      (if cacheable then ascii "public, max-age=300" else ascii "no-store"))).withReq k (respPutn f.bytes))

theorem staticTryServe_answers (h : Ready w x) (path : Bytes)
    (same : cstr ((x.c.objs k).path.getD []) = path) :
    Answers env k w (staticVerdict env w path) (staticTryServe env x k) := by
  unfold staticTryServe staticVerdict
  rw [same]
  dsimp only
  cases env.assets.find? fun f => strcaseeq f.path path with
  | some f => exact serveAssetBytes_answers h f true
  | none =>
    dsimp only
    cases (if env.cfg.devMode then env.devFile path else none) with
    | some f => exact serveAssetBytes_answers h f false
    | none => exact routerSend404_answers h

theorem dispatchReq_answers (env : Env σ) (x : Ctx σ) (k : ℕ) :
    Answers env k x (verdict env x k) (dispatchReq env x k) := by
  have h := Ready.refl x
  unfold dispatchReq verdict
  dsimp only
  split
  · exact sfDispatch_answers h rfl _
  · split
    · exact sfHandleReserved_answers h rfl
    · have probed := h.withReq k (probeReq env.routes)
      split
      · have ready := probed.withReq k fun a r => (a, { r with handler :=
          (routerProbe env.routes x.c.arena (x.c.objs k) none 0).2.fn.map .route })
        exact submit_answers ready (rejectJob_answers ready)
      · split
        · split
          · exact .simple (probed.withReq k _) 204 _ _
          · exact .simple (probed.withReq k _) 405 _ _
        · split
          · obtain ⟨ps, e⟩ := probeReq_only env.routes x.c.arena (x.c.objs k)
            refine staticTryServe_answers probed _ ?_
            change cstr ((Function.update x.c.objs k (probeReq env.routes x.c.arena (x.c.objs k)).2 k).path.getD
              []) = _
            rw [Function.update_self, e]
          · exact routerSend404_answers probed

end Answers

/-- The answer is counted as what it is: the writer of simple answers counts each failure as 4xx,
other answers not at all, and a stream is not counted. -/
def Fits : Verdict → Prop
  | .worker => True
  | .response => True
  | .simple code => 400 ≤ code ∧ code < 500
  | .stream => False

instance (v : Verdict) : Decidable (Fits v) :=
  match v with
  | .worker => isTrue trivial
  | .response => isTrue trivial
  | .simple _ => inferInstanceAs (Decidable (_ ∧ _))
  | .stream => isFalse id

section Booked
variable {env : Env σ} {x y : Ctx σ} {k : ℕ} {good : Prop}

theorem Ready.linked (h : Ready x y) (hl : Linked x.c) : Linked y.c := by
  obtain ⟨⟨a, o, st, rfl⟩, _⟩ := h
  exact hl.of_eq rfl

theorem Ready.booked (h : Ready x y) : Booked env good x y := by
  have same := h.same
  obtain ⟨⟨a, o, st, rfl⟩, _⟩ := h
  exact .silent rfl rfl same

theorem wpoolSubmit_booked (x : Ctx σ) (k : ℕ) : Booked env good x (wpoolSubmit x k).1 := by
  unfold wpoolSubmit
  dsimp only
  split <;> exact .silent rfl rfl ⟨rfl, rfl, fun _ => rfl⟩

theorem dispatchReq_booked (hl : Linked x.c) (env : Env σ) (k : ℕ) (fits : good → Fits (verdict env x k)) :
    Booked env good x (dispatchReq env x k) := by
  have answered := dispatchReq_answers env x k
  generalize dispatchReq env x k = z at answered
  generalize verdict env x k = v at answered fits
  cases answered with
  | worker ready => exact ready.booked.trans (wpoolSubmit_booked _ k)
  | response ready => exact ready.booked.trans (connStartResponse_booked (ready.linked hl) env k)
  | simple ready code hdr body =>
    exact ready.booked.trans (connSendSimple_booked (ready.linked hl) env fits hdr body false)
  | stream ready => exact ready.booked.trans (sendLiveSse_booked (ready.linked hl) env fits)

end Booked

end Cerco.Verdicts
