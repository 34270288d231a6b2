import Cerco.Books
import Cerco.Callbacks

set_option autoImplicit false

/-!
# What answering leaves of the headers

Once a request is dispatched nobody but the parser touches its headers, what is staged for the
next one, or the note that it was dispatched.
-/
namespace Cerco.HeaderFrames
open Cerco.Alloc Cerco.CString Cerco.Request Cerco.Response Cerco.Router Cerco.Connection Cerco.Dispatch
open Cerco.HttpCallbacks Cerco.Server Cerco.ConnFrames Cerco.Responders Cerco.Books

variable {σ : Type}

/-- The headers of all requests are as before. The request may be let go of, the staged pair be
dropped, and what is added to the trace is no dispatch; a connection that closes goes on closing. -/
structure Carried (c d : Conn σ) : Prop where
  headers : ∀ k, (d.objs k).headers = (c.objs k).headers
  req : d.req = c.req ∨ d.req = none
  staged : (d.stage.fSb, d.stage.vSb) = (c.stage.fSb, c.stage.vSb) ∨ (d.stage.fSb, d.stage.vSb) = ([], [])
  trace : ∃ new, d.trace = c.trace ++ new ∧ ∀ ev ∈ new, isDispatch ev = false
  closing : c.closing = true → d.closing = true

section Carried
variable {c d e : Conn σ}

theorem Carried.of_eq (same : (d.objs, d.req, d.stage.fSb, d.stage.vSb, d.trace, d.closing) =
    (c.objs, c.req, c.stage.fSb, c.stage.vSb, c.trace, c.closing)) : Carried c d := by
  simp only [Prod.mk.injEq] at same
  obtain ⟨objs, req, field, value, trace, closing⟩ := same
  exact ⟨fun k => by rw [objs], .inl req, .inl (by rw [field, value]),
    ⟨[], by rw [trace, List.append_nil], fun _ hev => nomatch hev⟩, fun closes => by rw [closing, closes]⟩

theorem Carried.of_update {k : ℕ} {r : Req} (objs : d.objs = Function.update c.objs k r)
    (headers : r.headers = (c.objs k).headers)
    (same : (d.req, d.stage.fSb, d.stage.vSb, d.trace, d.closing) =
      (c.req, c.stage.fSb, c.stage.vSb, c.trace, c.closing)) : Carried c d := by
  simp only [Prod.mk.injEq] at same
  obtain ⟨req, field, value, trace, closing⟩ := same
  refine ⟨fun j => ?_, .inl req, .inl (by rw [field, value]),
    ⟨[], by rw [trace, List.append_nil], fun _ hev => nomatch hev⟩, fun closes => by rw [closing, closes]⟩
  rw [objs, Function.update_apply]
  split
  · rename_i own
    rw [own, headers]
  · rfl

theorem Carried.of_none (same : (d.objs, d.stage.fSb, d.stage.vSb, d.trace, d.closing) =
    (c.objs, c.stage.fSb, c.stage.vSb, c.trace, c.closing)) (none : d.req = none) : Carried c d := by
  simp only [Prod.mk.injEq] at same
  obtain ⟨objs, field, value, trace, closing⟩ := same
  exact ⟨fun k => by rw [objs], .inr none, .inl (by rw [field, value]),
    ⟨[], by rw [trace, List.append_nil], fun _ hev => nomatch hev⟩, fun closes => by rw [closing, closes]⟩

theorem Carried.note {ev : ConnEvent} (mute : isDispatch ev = false)
    (same : (d.objs, d.req, d.stage.fSb, d.stage.vSb, d.closing) =
      (c.objs, c.req, c.stage.fSb, c.stage.vSb, c.closing)) (trace : d.trace = c.trace ++ [ev]) : Carried c d := by
  simp only [Prod.mk.injEq] at same
  obtain ⟨objs, req, field, value, closing⟩ := same
  refine ⟨fun k => by rw [objs], .inl req, .inl (by rw [field, value]), ⟨[ev], trace, fun e he => ?_⟩,
    fun closes => by rw [closing, closes]⟩
  rw [List.mem_singleton.mp he]
  exact mute

theorem Carried.refl (c : Conn σ) : Carried c c := .of_eq rfl

theorem Carried.trans (h₁ : Carried c d) (h₂ : Carried d e) : Carried c e := by
  obtain ⟨new, trace, mute⟩ := h₁.trace
  obtain ⟨new', trace', mute'⟩ := h₂.trace
  refine ⟨fun k => (h₂.headers k).trans (h₁.headers k), ?_, ?_, ⟨new ++ new', ?_, fun ev hev => ?_⟩,
    h₂.closing ∘ h₁.closing⟩
  · obtain same | gone := h₂.req
    · rw [same]
      exact h₁.req
    · exact .inr gone
  · obtain same | gone := h₂.staged
    · rw [same]
      exact h₁.staged
    · exact .inr gone
  · rw [trace', trace, List.append_assoc]
  · exact (List.mem_append.mp hev).elim (mute ev) (mute' ev)

end Carried

section Writes
variable {x : Ctx σ}

theorem cancelReq_carried (c : Conn σ) : Carried c (cancelReq c) := by
  unfold cancelReq
  split
  · exact .of_update rfl rfl rfl
  · exact .refl c

theorem connFinalize_carried (x : Ctx σ) : Carried x.c (connFinalize x).c := by
  unfold connFinalize
  split
  · exact .refl _
  · dsimp only
    split <;>
    exact ⟨fun _ => rfl, .inl rfl, .inr rfl, ⟨[], (List.append_nil _).symm, fun _ hev => nomatch hev⟩, id⟩

theorem connMaybeFinalize_carried (x : Ctx σ) : Carried x.c (connMaybeFinalize x).c := by
  unfold connMaybeFinalize
  split
  · exact .refl _
  · split
    · exact .refl _
    · split
      · exact .refl _
      · split
        · exact .refl _
        · exact connFinalize_carried x

theorem connCloseAndFree_carried (x : Ctx σ) : Carried x.c (connCloseAndFree x).c := by
  unfold connCloseAndFree
  split
  · exact .refl _
  · dsimp only
    refine Carried.trans ?_ (connMaybeFinalize_carried _)
    have closed (sse : Bool) : Carried x.c { x.c with closing := true, sse := sse } :=
      ⟨fun _ => rfl, .inl rfl, .inl rfl, ⟨[], (List.append_nil _).symm, fun _ hev => nomatch hev⟩, fun _ => rfl⟩
    split
    · have cancelled := (closed false).trans (cancelReq_carried _)
      exact cancelled.trans (.of_eq rfl)
    · have cancelled := (closed x.c.sse).trans (cancelReq_carried _)
      exact cancelled.trans (.of_eq rfl)

theorem connCloseGraceful_carried (x : Ctx σ) : Carried x.c (connCloseGraceful x).c := by
  unfold connCloseGraceful
  split
  · exact .refl _
  · exact .of_eq rfl

theorem uvWrite_carried (x : Ctx σ) (res : WriteRes) (w : WriteCtx) : Carried x.c (uvWrite x res w).c := by
  unfold uvWrite
  split
  · exact .note rfl rfl rfl
  · exact connCloseAndFree_carried x

theorem connStartResponse_carried (env : Env σ) (x : Ctx σ) (k : ℕ) :
    Carried x.c (connStartResponse env x k).c := by
  obtain ⟨srv, st, res, w, rfl, e⟩ := connStartResponse_cases env x k
  rw [e]
  refine Carried.trans ?_ (uvWrite_carried _ _ _)
  exact .of_eq rfl

theorem connSendSimple_carried (env : Env σ) (x : Ctx σ) (code : ℕ) (hdr : Option Bytes) (body : Bytes)
    (forceClose : Bool) : Carried x.c (connSendSimple env x code hdr body forceClose).c := by
  obtain e | ⟨srv, st, res, rfl, e⟩ := connSendSimple_cases env x code hdr body forceClose <;> rw [e]
  · exact connCloseAndFree_carried (countWrite x)
  · refine Carried.trans ?_ (uvWrite_carried _ _ _)
    exact .of_eq rfl

theorem connSseWrite_carried (env : Env σ) (x : Ctx σ) (data : Bytes) :
    Carried x.c (connSseWrite env x data).c := by
  unfold connSseWrite
  dsimp only
  split
  · exact connCloseAndFree_carried (countWrite x)
  · exact uvWrite_carried (countWrite x) _ _

theorem sendLiveSse_carried (env : Env σ) (x : Ctx σ) : Carried x.c (sendLiveSse env x).c := by
  unfold sendLiveSse
  dsimp only
  split
  · exact connCloseAndFree_carried (countWrite x)
  · have headed := uvWrite_carried (countWrite x) (writeRes env x) ⟨.sse, .reply liveHead⟩
    split
    · refine headed.trans (Carried.trans ?_ (connSseWrite_carried env _ _))
      exact .of_eq rfl
    · exact headed

end Writes

def KeepsHeaders (f : Arena → Req → Arena × Req) : Prop := ∀ a r, (f a r).2.headers = r.headers

section Requests
variable {x : Ctx σ} {c : Conn σ}

theorem withReq_carried (x : Ctx σ) (k : ℕ) {f : Arena → Req → Arena × Req} (keeps : KeepsHeaders f) :
    Carried x.c (x.withReq k f).c := .of_update rfl (keeps _ _) rfl

theorem respHdrAdd_headers (a : Arena) (r : Req) (name value : Bytes) :
    (respHdrAdd a r name value).2.headers = r.headers := by
  unfold respHdrAdd
  split
  · rfl
  · split
    · rfl
    · dsimp only
      split <;> rfl

theorem setHeader_headers (a : Arena) (r : Req) (name value : Bytes) :
    (Request.setHeader a r name value).2.headers = r.headers := by
  unfold Request.setHeader
  split
  · rfl
  · exact respHdrAdd_headers a r name value

theorem checkResponse_headers : KeepsHeaders checkResponse := by
  intro a r
  unfold checkResponse
  split
  · rfl
  · split <;> rfl

theorem splice_headers (a : Arena) (r : Req) (lo hi : ℕ) (s : Bytes) (injected : Bool) :
    (splice a r lo hi s injected).2.headers = r.headers := by
  unfold splice
  dsimp only
  split <;> rfl

theorem applyPageTitle_headers : KeepsHeaders applyPageTitle := by
  intro a r
  unfold applyPageTitle
  split
  · rfl
  · split
    · rfl
    · split
      · rfl
      · split
        · rfl
        · exact splice_headers ..

theorem devInjectLiveScript_headers (env : Env σ) : KeepsHeaders (devInjectLiveScript env) := by
  intro a r
  unfold devInjectLiveScript
  split
  · rfl
  · dsimp only
    split
    · rfl
    · exact splice_headers ..

theorem apiRun_headers (call : ApiCall) : KeepsHeaders (apiRun call) := by
  intro a r
  cases call with
  | status code =>
    unfold apiRun
    dsimp only
    split <;> rfl
  | setHeader name value => exact setHeader_headers a r name value
  | addHeader name value => exact respHdrAdd_headers a r name value
  | write s => rfl
  | reset => rfl
  | title escaped =>
    unfold apiRun
    dsimp only
    split <;> rfl
  | redirect location => exact setHeader_headers _ _ _ _
  | alloc size => rfl

theorem handlerRun_headers (calls : List ApiCall) : KeepsHeaders (handlerRun calls) := by
  unfold handlerRun
  induction calls with
  | nil => exact fun _ _ => rfl
  | cons call calls ih => exact fun a r => (ih _ _).trans (apiRun_headers call a r)

theorem drainReq_carried (env : Env σ) (x : Ctx σ) (k : ℕ) : Carried x.c (drainReq env x k).c := by
  unfold drainReq
  dsimp only
  split
  · exact connMaybeFinalize_carried (x.stat _)
  · refine Carried.trans ?_ (connStartResponse_carried env _ k)
    refine Carried.trans ?_ (withReq_carried _ k (devInjectLiveScript_headers env))
    refine Carried.trans ?_ (withReq_carried _ k applyPageTitle_headers)
    refine Carried.trans ?_ (withReq_carried _ k checkResponse_headers)
    exact .refl x.c

theorem probeReq_headers (routes : List RtRoute) : KeepsHeaders (probeReq routes) := by
  intro a r
  obtain ⟨ps, e⟩ := probeReq_only routes a r
  rw [e]

theorem setStatus_carried (x : Ctx σ) (k code : ℕ) : Carried x.c (x.withReq k (setStatus code)).c :=
  withReq_carried x k fun _ _ => rfl

theorem hdrSet_carried (x : Ctx σ) (k : ℕ) (name value : Bytes) : Carried x.c (x.withReq k (hdrSet name value)).c :=
  withReq_carried x k fun a r => setHeader_headers a r name value

theorem respPutn_carried (x : Ctx σ) (k : ℕ) (s : Bytes) : Carried x.c (x.withReq k (respPutn s)).c :=
  withReq_carried x k fun _ _ => rfl

theorem submit_carried (k : ℕ) {f : Ctx σ → Ctx σ} (rejects : Carried x.c (f x).c) :
    Carried x.c (match wpoolSubmit x k with
      | (y, true) => y
      | (y, false) => f y).c := by
  cases taken : wpoolSubmit x k with
  | mk y ok =>
    cases ok with
    | true =>
      obtain ⟨rfl, _⟩ := Prod.mk.inj taken
      exact .of_eq rfl
    | false =>
      rw [wpoolSubmit_rejected taken]
      exact rejects

theorem rejectJob_carried (env : Env σ) (x : Ctx σ) : Carried x.c (rejectJob env x).c :=
  connSendSimple_carried env (x.stat _) 503 _ _ false

theorem send404Text_carried (env : Env σ) (x : Ctx σ) (k : ℕ) : Carried x.c (send404Text env x k).c :=
  (setStatus_carried x k 404).trans (.trans (withReq_carried _ k fun _ _ => rfl)
    ((respPutn_carried _ k _).trans (connStartResponse_carried env _ k)))

theorem routerSend404_carried (env : Env σ) (x : Ctx σ) (k : ℕ) : Carried x.c (routerSend404 env x k).c := by
  unfold routerSend404
  split
  · rename_i rr _
    have ready := (setStatus_carried x k 404).trans (withReq_carried (x.withReq k (setStatus 404)) k
      (f := setHandler (.route rr.fn)) fun _ _ => rfl)
    exact ready.trans (submit_carried k (f := fun z => send404Text env z k) (send404Text_carried env _ k))
  · exact send404Text_carried env x k

theorem routerSend405_carried (env : Env σ) (x : Ctx σ) (k mask : ℕ) :
    Carried x.c (routerSend405 env x k mask).c :=
  (setStatus_carried x k 405).trans (connSendSimple_carried env _ 405 _ _ false)

theorem sfDispatch_carried (env : Env σ) (x : Ctx σ) (k : ℕ) (idStr : Bytes) :
    Carried x.c (sfDispatch env x k idStr).c := by
  unfold sfDispatch
  dsimp only
  split
  · exact connSendSimple_carried ..
  · split
    · exact connSendSimple_carried ..
    · split
      · exact connSendSimple_carried ..
      · split
        · exact connSendSimple_carried ..
        · split
          · exact connSendSimple_carried ..
          · exact (withReq_carried x k fun _ _ => rfl).trans
              (submit_carried k (f := rejectJob env) (rejectJob_carried env _))

theorem sendText_carried (env : Env σ) (x : Ctx σ) (k : ℕ) (contentType text : Bytes) :
    Carried x.c (sendText env x k contentType text).c :=
  (setStatus_carried x k 200).trans ((hdrSet_carried _ k _ _).trans ((hdrSet_carried _ k _ _).trans
    (.trans (withReq_carried _ k fun _ _ => rfl) ((respPutn_carried _ k _).trans
      (connStartResponse_carried env _ k)))))

theorem sfHandleReserved_carried (env : Env σ) (x : Ctx σ) (k : ℕ) :
    Carried x.c (sfHandleReserved env x k).c := by
  have missing := routerSend404_carried env x k
  unfold sfHandleReserved
  dsimp only
  split
  · exact sendText_carried ..
  · split
    · split
      · exact missing
      · exact sendText_carried ..
    · split
      · split
        · exact missing
        · exact sendLiveSse_carried env x
      · split
        · split
          · exact missing
          · exact sendText_carried ..
        · exact missing

theorem serveAssetBytes_carried (env : Env σ) (x : Ctx σ) (k : ℕ) (f : Asset) (cacheable : Bool) :
    Carried x.c (serveAssetBytes env x k f cacheable).c := by
  unfold serveAssetBytes
  split
  · exact (setStatus_carried x k 304).trans ((hdrSet_carried _ k _ _).trans ((hdrSet_carried _ k _ _).trans
      (connStartResponse_carried env _ k)))
  · exact (setStatus_carried x k 200).trans ((hdrSet_carried _ k _ _).trans ((hdrSet_carried _ k _ _).trans
      ((hdrSet_carried _ k _ _).trans ((respPutn_carried _ k _).trans (connStartResponse_carried env _ k)))))

theorem staticTryServe_carried (env : Env σ) (x : Ctx σ) (k : ℕ) : Carried x.c (staticTryServe env x k).c := by
  unfold staticTryServe
  dsimp only
  split
  · exact serveAssetBytes_carried ..
  · split
    · exact serveAssetBytes_carried ..
    · exact routerSend404_carried env x k

theorem dispatchReq_carried (env : Env σ) (x : Ctx σ) (k : ℕ) : Carried x.c (dispatchReq env x k).c := by
  have probed := withReq_carried x k (probeReq_headers env.routes)
  unfold dispatchReq
  dsimp only
  split
  · exact sfDispatch_carried ..
  · split
    · exact sfHandleReserved_carried env x k
    · refine probed.trans ?_
      split
      · exact .trans (withReq_carried _ k fun _ _ => rfl)
          (submit_carried k (f := rejectJob env) (rejectJob_carried env _))
      · split
        · split
          · exact (setStatus_carried _ k 204).trans (connSendSimple_carried env _ 204 _ _ false)
          · exact routerSend405_carried env _ k _
        · split
          · exact staticTryServe_carried env _ k
          · exact routerSend404_carried env _ k

end Requests

end Cerco.HeaderFrames
