import Cerco.ArenaUse

set_option autoImplicit false

/-!
# Who answers a request, and what the head says

`conn_request_dispatch` hands a request to a worker, answers it with
`conn_start_response`, or answers it without looking at the flags of the connection:
with `conn_send_simple` or as the live-reload stream. `responder` tells which.
-/
namespace Cerco.Responders
open Cerco.Alloc Cerco.CString Cerco.HeadText Cerco.Request Cerco.Response Cerco.Router Cerco.Connection Cerco.Dispatch
open Cerco.WorkerPool Cerco.ArenaUse

variable {σ : Type}

/-- Only `cerco_req` objects, their arena and the counters have changed. -/
def Prepared (x y : Ctx σ) : Prop :=
  ∃ a o st, Allocs x.c.arena a ∧
    y = { x with srv := { x.srv with stats := st }, c := { x.c with arena := a, objs := o } }

theorem Prepared.refl (x : Ctx σ) : Prepared x x := ⟨_, _, _, .refl _, rfl⟩

theorem Prepared.trans {x y z : Ctx σ} (h₁ : Prepared x y) (h₂ : Prepared y z) :
    Prepared x z := by
  obtain ⟨a, o, st, all, rfl⟩ := h₁
  obtain ⟨a', o', st', all', rfl⟩ := h₂
  exact ⟨a', o', st', all.trans all', rfl⟩

theorem Prepared.withReq {x y : Ctx σ} (h : Prepared x y) (k : ℕ) {f : Arena → Req → Arena × Req}
    (hf : ∀ a r, Allocs a (f a r).1) : Prepared x (y.withReq k f) :=
  h.trans ⟨_, _, y.srv.stats, hf _ _, rfl⟩

theorem Prepared.stat {x y : Ctx σ} (h : Prepared x y) (f : Stats → Stats) :
    Prepared x (y.stat f) :=
  h.trans ⟨_, _, f y.srv.stats, .refl _, rfl⟩

/-- How `conn_request_dispatch` can end for request `k`. -/
inductive Answer (env : Env σ) (k : ℕ) : Ctx σ → Ctx σ → Prop
  | job {x y : Ctx σ} : Prepared x y → (wpoolSubmit y k).2 = true → Answer env k x (wpoolSubmit y k).1
  | response {x y : Ctx σ} : Prepared x y → Answer env k x (connStartResponse env y k)
  | simple {x y : Ctx σ} (code : ℕ) (hdr : Option Bytes) (body : Bytes) : Prepared x y →
      Answer env k x (connSendSimple env y code hdr body false)
  | stream {x y : Ctx σ} : Prepared x y → Answer env k x (sendLiveSse env y)

theorem wpoolSubmit_rejected {x y : Ctx σ} {k : ℕ} (h : wpoolSubmit x k = (y, false)) : y = x := by
  obtain ⟨rfl, ok⟩ := Prod.mk.inj h
  change (wpoolTrySubmit x.srv.pool.pool _).2 = false at ok
  have same : submitStep x.srv.pool ⟨x.id, k, x.c.arena.epoch⟩ = x.srv.pool := by
    unfold submitStep
    split
    · rename_i p hp
      rw [hp] at ok
      cases ok
    · rename_i p hp
      rw [wpoolTrySubmit_rejects hp]
  dsimp only
  rw [same, ok]
  rfl

def closeLine (line : Bytes) : Bool := strcaseeq line (ascii "Connection: close")

/-- The head, as a client reads it off the wire, says close. -/
def saysClose (w : Reply) : Bool := w.read.any closeLine

def ownClose (r : Req) : Bool := (r.respHdrs.map hdrLine).any closeLine

def ownConnection (r : Req) : Bool := haveHdr r (ascii "connection")

theorem closeLine_fixed :
    closeLine (ascii "Content-Type: text/html; charset=utf-8") = false ∧
    closeLine (ascii "Content-Type: text/plain; charset=utf-8") = false ∧
    closeLine (ascii "Connection: close") = true ∧
    closeLine (ascii "Connection: keep-alive") = false ∧
    closeLine (ascii "X-Content-Type-Options: nosniff") = false ∧
    closeLine (ascii "Referrer-Policy: strict-origin-when-cross-origin") = false ∧
    closeLine (ascii "Server: cerco") = false := by
  decide

theorem closeLine_statusLine (code : ℕ) (text : Bytes) : closeLine (statusLine code text) = false := by
  simp [closeLine, statusLine, ascii, strcaseeq, toLower]

theorem closeLine_lengthLine (n : ℕ) : closeLine (lengthLine n) = false := by
  simp [closeLine, lengthLine, ascii, strcaseeq, toLower]

theorem startReply_saysClose {r : Req} (oneLine : OneLine r) (isHead close : Bool) :
    saysClose (startReply r isHead close) = (ownClose r || (!ownConnection r && close)) := by
  obtain ⟨type, _, yes, no, sniff, referrer, server⟩ := closeLine_fixed
  have status := closeLine_statusLine r.status (statusText r.status)
  have length := closeLine_lengthLine r.resp.data.length
  rw [saysClose, startReply_read oneLine]
  simp only [startReply, ownClose, ownConnection, List.any_append, List.any_cons, List.any_nil,
    status, sniff, referrer, server, Bool.or_false, Bool.false_or]
  have typed : ∀ b : Bool, (if b = true then [ascii "Content-Type: text/html; charset=utf-8"]
      else []).any closeLine = false := by
    intro b
    cases b <;> simp [type]
  have sized : ∀ b : Bool, (if b = true then [lengthLine r.resp.data.length] else []).any closeLine =
      false := by
    intro b
    cases b <;> simp [length]
  rw [typed, sized, Bool.or_false, Bool.or_false]
  cases haveHdr r (ascii "connection") <;> cases close <;> simp [yes, no]

theorem simpleReply_saysClose {extraHdr : Option Bytes} (free : ∀ l ∈ extraHdr.toList, l ≠ [] ∧ ¬ crlf <:+: l)
    (code : ℕ) (body : Bytes) (forceClose : Bool) :
    saysClose (simpleReply code extraHdr body forceClose) = (extraHdr.toList.any closeLine || forceClose) := by
  obtain ⟨_, type, yes, no, sniff, _, server⟩ := closeLine_fixed
  have length := closeLine_lengthLine body.length
  rw [saysClose, simpleReply_read free]
  simp only [simpleReply, List.any_append, List.any_cons, List.any_nil,
    closeLine_statusLine, type, length, sniff, server, Bool.or_false, Bool.false_or]
  cases forceClose <;> simp [yes, no]

/-- What the own headers of a request say about the connection is the same, and where `plain` holds none of them
has come to break its line. -/
def SameOwn (plain : Prop) (r s : Req) : Prop :=
  ownClose s = ownClose r ∧ ownConnection s = ownConnection r ∧ (plain → OneLine r → OneLine s)

theorem SameOwn.refl (plain : Prop) (r : Req) : SameOwn plain r r := ⟨rfl, rfl, fun _ => id⟩

theorem SameOwn.trans {plain : Prop} {r s t : Req} (h₁ : SameOwn plain r s) (h₂ : SameOwn plain s t) :
    SameOwn plain r t :=
  ⟨h₂.1.trans h₁.1, h₂.2.1.trans h₁.2.1, fun p one => h₂.2.2 p (h₁.2.2 p one)⟩

theorem SameOwn.of_hdrs {plain : Prop} {r s : Req} (h : s.respHdrs = r.respHdrs) : SameOwn plain r s := by
  unfold SameOwn ownClose ownConnection haveHdr OneLine
  rw [h]
  exact ⟨rfl, rfl, fun _ => id⟩

theorem hdrLine_oneLine {name value : Bytes} (hn : 13 ∉ name) (hv : ¬ crlf <:+: value) :
    ¬ crlf <:+: hdrLine (name, value) := by
  have shape : hdrLine (name, value) = (name ++ ascii ": ") ++ value := rfl
  rw [shape]
  refine crlf_free_start ?_ hv
  rw [List.mem_append, not_or]
  exact ⟨hn, by decide⟩

/-- A name that no line `Connection: close` starts with. -/
def Other (name : Bytes) : Prop :=
  ¬ name.map toLower <+: (ascii "Connection: close").map toLower ∧
    strcaseeq name (ascii "connection") = false

theorem Other.line {name : Bytes} (h : Other name) {own : Bytes} (same : strcaseeq own name = true)
    (value : Bytes) : closeLine (hdrLine (own, value)) = false := by
  by_contra hc
  rw [Bool.not_eq_false, closeLine, strcaseeq_iff] at hc
  rw [strcaseeq_iff] at same
  refine h.1 ⟨(ascii ": " ++ value).map toLower, ?_⟩
  rw [← same, ← List.map_append, ← List.append_assoc]
  exact hc

theorem Other.name {name : Bytes} (h : Other name) {own : Bytes} (same : strcaseeq own name = true) :
    strcaseeq own (ascii "connection") = false := by
  by_contra hc
  rw [Bool.not_eq_false, strcaseeq_iff] at hc
  rw [strcaseeq_iff] at same
  have := h.2
  rw [Bool.eq_false_iff] at this
  exact this ((strcaseeq_iff _ _).mpr (same.symm.trans hc))

theorem replaceHdr_own {name value : Bytes} (other : Other name) {hs ks : List (Bytes × Bytes)}
    (h : replaceHdr name value hs = some ks) :
    (ks.map hdrLine).any closeLine = (hs.map hdrLine).any closeLine ∧
      (ks.any fun h => strcaseeq h.1 (ascii "connection")) =
        hs.any fun h => strcaseeq h.1 (ascii "connection") := by
  induction hs generalizing ks with
  | nil => cases h
  | cons own hs ih =>
    rw [replaceHdr] at h
    split at h
    · rename_i same
      cases h
      obtain ⟨n, v⟩ := own
      simp only [List.map_cons, List.any_cons, other.line same, other.name same, and_self]
    · obtain ⟨rest, hr, rfl⟩ := Option.map_eq_some_iff.mp h
      obtain ⟨lines, names⟩ := ih hr
      simp only [List.map_cons, List.any_cons, lines, names, and_self]

theorem hdrLine_parts (h : Bytes × Bytes) : hdrLine h = h.1 ++ (ascii ": " ++ h.2) := List.append_assoc _ _ _

theorem replaceHdr_oneLine {name value : Bytes} (hv : ¬ crlf <:+: value) {hs ks : List (Bytes × Bytes)}
    (h : replaceHdr name value hs = some ks) (one : ∀ h ∈ hs, ¬ crlf <:+: hdrLine h) :
    ∀ h ∈ ks, ¬ crlf <:+: hdrLine h := by
  induction hs generalizing ks with
  | nil => cases h
  | cons own hs ih =>
    have here := one own List.mem_cons_self
    have rest : ∀ k ∈ hs, ¬ crlf <:+: hdrLine k := fun k hk => one k (List.mem_cons_of_mem own hk)
    rw [replaceHdr] at h
    split at h
    · cases h
      rintro k (_ | ⟨_, hk⟩)
      · rw [hdrLine_parts] at here ⊢
        have name_free : ¬ crlf <:+: own.1 := fun hi => here (hi.trans (List.prefix_append own.1 _).isInfix)
        have tail : ¬ crlf <:+: ascii ": " ++ value := crlf_free_start (by decide) hv
        exact crlf_free_append name_free tail (by simp [ascii])
      · exact rest k hk
    · obtain ⟨js, hj, rfl⟩ := Option.map_eq_some_iff.mp h
      rintro k (_ | ⟨_, hk⟩)
      · exact here
      · exact ih hj rest k hk

theorem cstr_front (b : Bytes) : cstr b <+: b := List.takeWhile_prefix _

theorem respHdrAdd_own {plain : Prop} {name : Bytes} (other : Other name) (nameLine : 13 ∉ name) {value : Bytes}
    (valueLine : plain → ¬ crlf <:+: value) (a : Arena) (r : Req)
    (copied : ∀ b n, (arenaStrdup b name).1 = some n → strcaseeq n name = true) :
    SameOwn plain r (respHdrAdd a r name value).2 := by
  unfold respHdrAdd
  split
  · exact .refl _ r
  · split
    · exact .refl _ r
    · rename_i b _
      dsimp only
      split
      · rename_i n v hn hv
        have same := copied b n hn
        refine ⟨?_, ?_, fun p one h hh => ?_⟩
        · unfold ownClose
          simp only [List.map_append, List.any_append, List.map_cons, List.map_nil, List.any_cons,
            List.any_nil, other.line same, Bool.or_false]
        · unfold ownConnection haveHdr
          simp only [List.any_append, List.any_cons, List.any_nil, other.name same, Bool.or_false]
        · obtain hh | hh := List.mem_append.mp hh
          · exact one h hh
          · rw [List.mem_singleton.mp hh, ← arenaStrdup_some hn, ← arenaStrdup_some hv]
            exact hdrLine_oneLine (fun h13 => nameLine ((cstr_front name).subset h13))
              fun hi => valueLine p (hi.trans (cstr_front value).isInfix)
      · exact .refl _ r

theorem arenaStrdup_copy {name n : Bytes} (nulFree : 0 ∉ name) {a : Arena}
    (h : (arenaStrdup a name).1 = some n) : strcaseeq n name = true := by
  rw [← arenaStrdup_some h, cstr_of_nulFree nulFree, strcaseeq_iff]

theorem setHeader_own {plain : Prop} {name : Bytes} (other : Other name) (nulFree : 0 ∉ name)
    (nameLine : 13 ∉ name) {value : Bytes} (valueLine : plain → ¬ crlf <:+: value) (a : Arena) (r : Req) :
    SameOwn plain r (Request.setHeader a r name value).2 := by
  unfold Request.setHeader
  split
  · rename_i ks hk
    obtain ⟨lines, names⟩ := replaceHdr_own other hk
    refine ⟨lines, names, fun p one => replaceHdr_oneLine ?_ hk one⟩
    cases hv : (arenaStrdup a value).1 with
    | none => decide
    | some v =>
      rw [Option.getD_some, ← arenaStrdup_some hv]
      exact fun hi => valueLine p (hi.trans (cstr_front value).isInfix)
  · exact respHdrAdd_own other nameLine valueLine a r fun b n => arenaStrdup_copy nulFree

/-- The files that `static_try_serve` finds under a path. -/
def assetsAt (env : Env σ) (path : Bytes) : List Asset :=
  (env.assets.find? fun f => strcaseeq f.path path).toList ++
    (if env.cfg.devMode then env.devFile path else none).toList

def PlainAsset (env : Env σ) (path : Bytes) : Prop :=
  ∀ f ∈ assetsAt env path, ¬ crlf <:+: f.mime ∧ ¬ crlf <:+: quoteEtag f.etag

instance (env : Env σ) (path : Bytes) : Decidable (PlainAsset env path) :=
  inferInstanceAs (Decidable (∀ _ ∈ _, _))

inductive Responder
  | worker
  | response
  | simple
deriving DecidableEq

/-- `wpool_submit` would take a job. -/
def hasRoom (x : Ctx σ) : Bool :=
  !x.srv.pool.pool.shutdown && decide (x.srv.pool.pool.jobs.count < x.srv.pool.pool.jobs.cap)

def jobResponder (x : Ctx σ) : Responder := if hasRoom x then .worker else .simple

/-- `router_send_404`: without room its text is sent. -/
def missingResponder (env : Env σ) (x : Ctx σ) : Responder :=
  if (find404 env.routes).isSome && hasRoom x then .worker else .response

def sfResponder (env : Env σ) (x : Ctx σ) (r : Req) (idStr : Bytes) : Responder :=
  let (id, rest) := sfIdLoop idStr 0
  if rest ≠ [] ∨ idStr = [] then .simple
  else
    match env.sfs.find? fun e => e.id == id with
    | none => .simple
    | some ent =>
      if !strcaseeq (reqMethod r) ent.method &&
          !(strcaseeq (reqMethod r) (ascii "HEAD") && strcaseeq ent.method (ascii "GET")) then .simple
      else
        match reqHeader r (ascii "content-type") with
        | none => .simple
        | some ct => if !strncaseeq (cstr ct) sfContentType 22 then .simple else jobResponder x

def reservedResponder (env : Env σ) (x : Ctx σ) (path : Bytes) : Responder :=
  if strcaseeq path (ascii "/__cerco/health") then .response
  else if strcaseeq path (ascii "/__cerco/stats") then
    if !env.cfg.statsEnabled then missingResponder env x else .response
  else if strcaseeq path (ascii "/__cerco/live") then
    if !env.cfg.devMode then missingResponder env x else .simple
  else if strcaseeq path (ascii "/__cerco/live.js") then
    if !env.cfg.devMode then missingResponder env x else .response
  else missingResponder env x

def staticResponder (env : Env σ) (x : Ctx σ) (path : Bytes) : Responder :=
  match env.assets.find? fun f => strcaseeq f.path path with
  | some _ => .response
  | none =>
    match (if env.cfg.devMode then env.devFile path else none) with
    | some _ => .response
    | none => missingResponder env x

/-- Who answers request `k`. -/
def responder (env : Env σ) (x : Ctx σ) (k : ℕ) : Responder :=
  let r := x.c.objs k
  let path := cstr (r.path.getD [])
  let method := reqMethod r
  if sfIsSfPath path then sfResponder env x r (path.drop 12)
  else if strncaseeq path (ascii "/__cerco/") 9 then reservedResponder env x path
  else
    let p := routerProbe env.routes x.c.arena r none 0
    if p.1 = 1 then jobResponder x
    else if p.1 = 2 then .simple
    else if (strcaseeq method (ascii "GET") || strcaseeq method (ascii "HEAD")) &&
        staticIsAssetPath path then staticResponder env x path
    else missingResponder env x

/-- Only `cerco_req` objects, their arena and the counters have changed, and request `k` says about
the connection what it said. -/
structure Readied (plain : Prop) (k : ℕ) (x y : Ctx σ) : Prop where
  prepared : Prepared x y
  own : SameOwn plain (x.c.objs k) (y.c.objs k)

theorem Readied.refl (plain : Prop) (k : ℕ) (x : Ctx σ) : Readied plain k x x := ⟨.refl x, .refl _ _⟩

section Readied
variable {plain : Prop} {k : ℕ} {x y : Ctx σ}

theorem Readied.withReq (h : Readied plain k x y) {f : Arena → Req → Arena × Req}
    (hf : ∀ a r, Allocs a (f a r).1) (own : ∀ a r, SameOwn plain r (f a r).2) :
    Readied plain k x (y.withReq k f) := by
  refine ⟨h.prepared.withReq k hf, h.own.trans ?_⟩
  change SameOwn _ _ (Function.update y.c.objs k (f y.c.arena (y.c.objs k)).2 k)
  rw [Function.update_self]
  exact own _ _

theorem Readied.stat (h : Readied plain k x y) (f : Stats → Stats) :
    Readied plain k x (y.stat f) := ⟨h.prepared.stat f, h.own⟩

end Readied

/-- The file that the path of request `k` names brings no line break. -/
def PlainFor (env : Env σ) (x : Ctx σ) (k : ℕ) : Prop := PlainAsset env (cstr ((x.c.objs k).path.getD []))

inductive Responds (env : Env σ) (k : ℕ) (x : Ctx σ) : Responder → Ctx σ → Prop
  | worker {y : Ctx σ} (ready : Readied (PlainFor env x k) k x y) : Responds env k x .worker (wpoolSubmit y k).1
  | response {y : Ctx σ} (ready : Readied (PlainFor env x k) k x y) : Responds env k x .response (connStartResponse env y k)
  | simple {y : Ctx σ} (ready : Readied (PlainFor env x k) k x y) (code : ℕ) (hdr : Option Bytes) (body : Bytes)
      (mute : hdr.toList.any closeLine = false)
      (free : ∀ l ∈ hdr.toList, l ≠ [] ∧ ¬ crlf <:+: l) :
      Responds env k x .simple (connSendSimple env y code hdr body false)
  | stream {y : Ctx σ} (ready : Readied (PlainFor env x k) k x y) : Responds env k x .simple (sendLiveSse env y)

theorem hdrSet_allocs (name value : Bytes) (a : Arena) (r : Req) :
    Allocs a (hdrSet name value a r).1 := setHeader_allocs a r name value

section Responds
variable {env : Env σ} {w x : Ctx σ} {k : ℕ}

theorem readied_room {plain : Prop} (h : Readied plain k w x) : hasRoom x = hasRoom w := by
  obtain ⟨⟨a, o, st, _, rfl⟩, _⟩ := h
  rfl

theorem wpoolSubmit_room (x : Ctx σ) (k : ℕ) : (wpoolSubmit x k).2 = hasRoom x := by
  unfold wpoolSubmit wpoolTrySubmit hasRoom
  dsimp only
  split <;> rename_i h <;> simp [h]

theorem submit_responds (h : Readied (PlainFor env w k) k w x) {f : Ctx σ → Ctx σ} {who : Responder}
    (hf : Responds env k w who (f x)) :
    Responds env k w (if hasRoom w then .worker else who) (match wpoolSubmit x k with
      | (x, true) => x
      | (x, false) => f x) := by
  rw [← readied_room h, ← wpoolSubmit_room x k]
  have job : Responds env k w .worker (wpoolSubmit x k).1 := .worker h
  cases hy : wpoolSubmit x k with
  | mk y taken =>
    cases taken with
    | true => rwa [hy] at job
    | false =>
      rw [wpoolSubmit_rejected hy]
      exact hf

theorem rejectJob_responds (h : Readied (PlainFor env w k) k w x) : Responds env k w .simple (rejectJob env x) :=
  .simple (h.stat _) 503 _ _ (by decide) (by decide)

theorem Readied.status {plain : Prop} (h : Readied plain k w x) (code : ℕ) :
    Readied plain k w (x.withReq k (setStatus code)) :=
  h.withReq (fun a _ => .refl a) fun _ _ => .of_hdrs rfl

theorem Readied.text {plain : Prop} (h : Readied plain k w x) (s : Bytes) :
    Readied plain k w (x.withReq k (respPutn s)) :=
  h.withReq (respPutn_allocs s) fun _ _ => .of_hdrs rfl

theorem Readied.header {plain : Prop} (h : Readied plain k w x) {name : Bytes} (other : Other name)
    (text : 0 ∉ name ∧ 13 ∉ name) {value : Bytes} (valueLine : plain → ¬ crlf <:+: value) :
    Readied plain k w (x.withReq k (hdrSet name value)) :=
  h.withReq (hdrSet_allocs name value) (setHeader_own other text.1 text.2 valueLine)

theorem send404Text_responds (h : Readied (PlainFor env w k) k w x) : Responds env k w .response (send404Text env x k) :=
  .response (((h.status 404).withReq (fun a _ => .refl a) fun _ _ => .of_hdrs rfl).text notFoundPage)

theorem routerSend404_responds (h : Readied (PlainFor env w k) k w x) :
    Responds env k w (missingResponder env w) (routerSend404 env x k) := by
  unfold routerSend404 missingResponder
  cases find404 env.routes with
  | none => exact send404Text_responds h
  | some rr =>
    have ready := (h.status 404).withReq (f := setHandler (.route rr.fn)) (fun a _ => .refl a)
      fun _ _ => .of_hdrs rfl
    exact submit_responds ready (send404Text_responds ready)

theorem joinAllow_line (mask : ℕ) {items : List (ℕ × Bytes)} (names : ∀ x ∈ items, 13 ∉ x.2) {acc : Bytes}
    (start : 13 ∉ acc) : 13 ∉ joinAllow mask items acc := by
  induction items generalizing acc with
  | nil => exact start
  | cons item items ih =>
    have rest : ∀ x ∈ items, 13 ∉ x.2 := fun x hx => names x (List.mem_cons_of_mem item hx)
    rw [joinAllow]
    split
    · refine ih rest ?_
      simp only [List.mem_append, not_or]
      refine ⟨⟨start, ?_⟩, names item List.mem_cons_self⟩
      split <;> decide
    · exact ih rest start

theorem allowHdr_line (mask : ℕ) {items : List (ℕ × Bytes)} (names : ∀ x ∈ items, 13 ∉ x.2) :
    ∀ l ∈ (some (allowHdr mask items)).toList, l ≠ [] ∧ ¬ crlf <:+: l := by
  intro l hl
  obtain rfl := List.mem_singleton.mp hl
  refine ⟨by simp [allowHdr, ascii], crlf_free_of_not_mem ?_⟩
  unfold allowHdr
  dsimp only
  rw [List.mem_append, not_or]
  refine ⟨by decide, ?_⟩
  split
  · decide
  · exact joinAllow_line mask names List.not_mem_nil

theorem allowHdr_mute (mask : ℕ) (items : List (ℕ × Bytes)) :
    (some (allowHdr mask items)).toList.any closeLine = false := by
  simp [closeLine, allowHdr, ascii, strcaseeq, toLower]

theorem routerSend405_responds (h : Readied (PlainFor env w k) k w x) (mask : ℕ) :
    Responds env k w .simple (routerSend405 env x k mask) :=
  .simple (h.status 405) 405 _ _ (allowHdr_mute mask allowItems) (allowHdr_line mask (by decide))

theorem sfDispatch_responds (h : Readied (PlainFor env w k) k w x) (same : x.c.objs k = w.c.objs k) (idStr : Bytes) :
    Responds env k w (sfResponder env w (w.c.objs k) idStr) (sfDispatch env x k idStr) := by
  unfold sfDispatch sfResponder
  rw [same]
  dsimp only
  by_cases bad : (sfIdLoop idStr 0).2 ≠ [] ∨ idStr = []
  · rw [if_pos bad, if_pos bad]
    exact .simple h 400 none _ (by decide) (by decide)
  rw [if_neg bad, if_neg bad]
  cases env.sfs.find? fun e => e.id == (sfIdLoop idStr 0).1 with
  | none => exact .simple h 404 none _ (by decide) (by decide)
  | some ent =>
    dsimp only
    by_cases method : (!strcaseeq (reqMethod (w.c.objs k)) ent.method &&
        !(strcaseeq (reqMethod (w.c.objs k)) (ascii "HEAD") && strcaseeq ent.method (ascii "GET"))) = true
    · rw [if_pos method, if_pos method]
      exact .simple h 405 (some (ascii "Allow: POST")) _ (by decide) (by decide)
    rw [if_neg method, if_neg method]
    cases reqHeader (w.c.objs k) (ascii "content-type") with
    | none => exact .simple h 415 none _ (by decide) (by decide)
    | some ct =>
      dsimp only
      by_cases type : (!strncaseeq (cstr ct) sfContentType 22) = true
      · rw [if_pos type, if_pos type]
        exact .simple h 415 none _ (by decide) (by decide)
      rw [if_neg type, if_neg type]
      have ready := h.withReq (f := fun a r => (a, { r with
        sfEntry := some ent.id, handler := some .sfRun })) (fun a _ => .refl a) fun _ _ => .of_hdrs rfl
      exact submit_responds ready (rejectJob_responds ready)

theorem type_other : Other (ascii "Content-Type") ∧ Other (ascii "Cache-Control") ∧ Other (ascii "ETag") := by
  unfold Other
  decide

theorem sendText_responds (h : Readied (PlainFor env w k) k w x) {contentType : Bytes}
    (typeLine : ¬ crlf <:+: contentType) (text : Bytes) :
    Responds env k w .response (sendText env x k contentType text) := by
  obtain ⟨type, cache, _⟩ := type_other
  refine .response (Readied.text (Readied.withReq ?_ (fun a _ => .refl a) fun _ _ => .of_hdrs rfl) text)
  exact ((h.status 200).header type (by decide) fun _ => typeLine).header cache (by decide) fun _ => by decide

theorem sfHandleReserved_responds (h : Readied (PlainFor env w k) k w x) (same : x.c.objs k = w.c.objs k) :
    Responds env k w (reservedResponder env w (cstr ((w.c.objs k).path.getD [])))
      (sfHandleReserved env x k) := by
  unfold sfHandleReserved reservedResponder
  rw [same]
  dsimp only
  split
  · exact sendText_responds h (by decide) _
  · split
    · split
      · exact routerSend404_responds h
      · exact sendText_responds h (by decide) _
    · split
      · split
        · exact routerSend404_responds h
        · exact .stream h
      · split
        · split
          · exact routerSend404_responds h
          · exact sendText_responds h (by decide) _
        · exact routerSend404_responds h

theorem serveAssetBytes_responds (h : Readied (PlainFor env w k) k w x) {f : Asset}
    (found : f ∈ assetsAt env (cstr ((w.c.objs k).path.getD []))) (cacheable : Bool) :
    Responds env k w .response (serveAssetBytes env x k f cacheable) := by
  obtain ⟨type, cache, etag⟩ := type_other
  unfold serveAssetBytes
  split
  · exact .response (((h.status 304).header etag (by decide) fun plain => (plain f found).2).header cache
      (by decide) fun _ => by decide)
  · refine .response (Readied.text ?_ f.bytes)
    refine (((h.status 200).header type (by decide) fun plain => (plain f found).1).header etag (by decide)
      fun plain => (plain f found).2).header cache (by decide) fun _ => ?_
    split <;> decide

theorem staticTryServe_responds (h : Readied (PlainFor env w k) k w x)
    (same : cstr ((x.c.objs k).path.getD []) = cstr ((w.c.objs k).path.getD [])) :
    Responds env k w (staticResponder env w (cstr ((w.c.objs k).path.getD []))) (staticTryServe env x k) := by
  have found := fun f => serveAssetBytes_responds h (f := f)
  unfold staticTryServe staticResponder
  rw [same]
  dsimp only
  unfold assetsAt at found
  generalize cstr ((w.c.objs k).path.getD []) = path at found ⊢
  cases hf : env.assets.find? fun f => strcaseeq f.path path with
  | some f =>
    rw [hf] at found
    exact found f (List.mem_append_left _ (List.mem_singleton_self f)) true
  | none =>
    dsimp only
    cases hd : (if env.cfg.devMode then env.devFile path else none) with
    | some f =>
      rw [hd] at found
      exact found f (List.mem_append_right _ (List.mem_singleton_self f)) false
    | none => exact routerSend404_responds h

theorem probeReq_only (routes : List RtRoute) (a : Arena) (r : Req) :
    ∃ ps, (probeReq routes a r).2 = { r with routeParams := ps } := by
  change ∃ ps, (routerFind routes a r none 0).req = { r with routeParams := ps }
  unfold routerFind
  split
  · exact ⟨_, rfl⟩
  · split
    · exact ⟨_, rfl⟩
    · exact findLoop_only _ _ _ _ _ _ _ _

theorem probeReq_own {plain : Prop} (routes : List RtRoute) (a : Arena) (r : Req) :
    SameOwn plain r (probeReq routes a r).2 := by
  obtain ⟨ps, e⟩ := probeReq_only routes a r
  exact .of_hdrs (by rw [e])

theorem dispatchReq_responds (env : Env σ) (x : Ctx σ) (k : ℕ) :
    Responds env k x (responder env x k) (dispatchReq env x k) := by
  have h := Readied.refl (PlainFor env x k) k x
  unfold dispatchReq responder
  dsimp only
  split
  · exact sfDispatch_responds h rfl _
  · split
    · exact sfHandleReserved_responds h rfl
    · have probed := h.withReq (probeReq_allocs env.routes) (probeReq_own env.routes)
      split
      · have ready := probed.withReq (f := fun a r => (a, { r with handler :=
          (routerProbe env.routes x.c.arena (x.c.objs k) none 0).2.fn.map .route })) (fun a _ => .refl a)
          fun _ _ => .of_hdrs rfl
        exact submit_responds ready (rejectJob_responds ready)
      · split
        · split
          · exact .simple (probed.status 204) 204 _ _ (allowHdr_mute _ _) (allowHdr_line _ (by decide))
          · exact routerSend405_responds probed _
        · split
          · obtain ⟨ps, e⟩ := probeReq_only env.routes x.c.arena (x.c.objs k)
            refine staticTryServe_responds probed ?_
            change cstr ((Function.update x.c.objs k (probeReq env.routes x.c.arena (x.c.objs k)).2 k).path.getD
              []) = _
            rw [Function.update_self, e]
          · exact routerSend404_responds probed

theorem jobResponder_room (h : jobResponder x = .worker) : hasRoom x = true := by
  by_contra full
  rw [jobResponder, if_neg full] at h
  cases h

theorem missingResponder_room (h : missingResponder env x = .worker) : hasRoom x = true := by
  by_contra full
  rw [Bool.not_eq_true] at full
  rw [missingResponder, full, Bool.and_false, if_neg Bool.false_ne_true] at h
  cases h

theorem responder_room (h : responder env x k = .worker) : hasRoom x = true := by
  revert h
  unfold responder sfResponder reservedResponder staticResponder
  dsimp only
  repeat' split
  all_goals first
    | exact jobResponder_room
    | exact missingResponder_room
    | exact fun h => nomatch h

theorem dispatchReq_answer (env : Env σ) (x : Ctx σ) (k : ℕ) : Answer env k x (dispatchReq env x k) := by
  have responds := dispatchReq_responds env x k
  generalize dispatchReq env x k = y at responds
  generalize hw : responder env x k = who at responds
  cases responds with
  | worker ready =>
    refine .job ready.prepared ?_
    rw [wpoolSubmit_room, readied_room ready, responder_room hw]
  | response ready => exact .response ready.prepared
  | simple ready code hdr body _ _ => exact .simple code hdr body ready.prepared
  | stream ready => exact .stream ready.prepared

end Responds

end Cerco.Responders
