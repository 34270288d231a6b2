import Cerco.Callbacks

set_option autoImplicit false

/-!
# The codes of rejected requests

What the parser callbacks leave in `bad_request` is the code of the answer. Every code
that they choose is of the class 4xx.
-/
namespace Cerco.RejectCodes
open Cerco.Alloc Cerco.CString Cerco.Request Cerco.Response Cerco.Connection Cerco.Dispatch
open Cerco.HttpCallbacks Cerco.Server Cerco.TransitionRuns Cerco.ConnFrames Cerco.ServerRules
open Cerco.CloseFlags Cerco.Callbacks

variable {σ : Type}

def ClientError (code : ℕ) : Prop := 400 ≤ code ∧ code < 500

instance (code : ℕ) : Decidable (ClientError code) := inferInstanceAs (Decidable (_ ∧ _))

def Coded (c : Conn σ) : Prop := c.stage.badRequest = 0 ∨ ClientError c.stage.badRequest

section Codes
variable {c d : Conn σ}

theorem Coded.of_eq (h : Coded c) (same : d.stage.badRequest = c.stage.badRequest) : Coded d := by
  unfold Coded at *
  rwa [same]

theorem coded_of_code {code : ℕ} (h : ClientError code) (bad : d.stage.badRequest = code) : Coded d :=
  .inr (bad ▸ h)

theorem reqFinishHeaders_coded (h : Coded c) : Coded (reqFinishHeaders c) := by
  have large : ClientError 431 := by decide
  unfold reqFinishHeaders
  split
  · exact h
  · dsimp only
    split
    · exact h
    · split
      · exact coded_of_code large rfl
      · split
        · exact coded_of_code large rfl
        · split
          · exact h
          · exact h

theorem onUrl_coded (h : Coded c) (s : Bytes) : Coded (onUrl c s).1 := by
  have long : ClientError 414 := by decide
  unfold onUrl
  split
  · exact coded_of_code long rfl
  · exact h

theorem onHeaderField_coded (h : Coded c) (s : Bytes) : Coded (onHeaderField c s).1 := by
  have large : ClientError 431 := by decide
  have finished : Coded (if c.stage.fSb ≠ [] ∨ c.stage.vSb ≠ [] then reqFinishHeaders c else c) := by
    split
    · exact reqFinishHeaders_coded h
    · exact h
  unfold onHeaderField
  split
  · exact h
  · dsimp only
    generalize (if c.stage.fSb ≠ [] ∨ c.stage.vSb ≠ [] then reqFinishHeaders c else c) = d at finished ⊢
    split
    · exact finished
    · split
      · exact coded_of_code large rfl
      · exact finished

theorem onHeaderValue_coded (h : Coded c) (s : Bytes) : Coded (onHeaderValue c s).1 := by
  have large : ClientError 431 := by decide
  unfold onHeaderValue
  split
  · exact h
  · split
    · exact coded_of_code large rfl
    · exact h

theorem bodyBuffer_coded (h : Coded c) (k n : ℕ) : Coded (bodyBuffer c k n).1 := by
  have large : ClientError 413 := by decide
  unfold bodyBuffer
  split
  · exact coded_of_code large rfl
  · exact h

theorem onHeadersComplete_coded {x : Ctx σ} (h : Coded x.c) (env : Env σ) (n : ℕ) (chunked : Bool) :
    Coded (onHeadersComplete env x n chunked).1.c := by
  have large : ClientError 413 := by decide
  have finished := reqFinishHeaders_coded h
  unfold onHeadersComplete
  split
  · exact h
  · dsimp only
    generalize reqFinishHeaders x.c = d at finished ⊢
    split
    · exact finished
    · split
      · exact finished
      · rename_i k _
        split
        · exact coded_of_code large rfl
        · have buffered : Coded (if 0 < n then bodyBuffer d k n
              else if chunked = true then bodyBuffer d k 4096 else (d, true)).1 := by
            split
            · exact bodyBuffer_coded finished k n
            · split
              · exact bodyBuffer_coded finished k 4096
              · exact finished
          split <;> rename_i e <;> rw [e] at buffered
          · exact buffered
          · exact buffered

theorem onBody_coded (h : Coded c) (env : Env σ) (s : Bytes) : Coded (onBody env c s).1 := by
  have large : ClientError 413 := by decide
  unfold onBody
  split
  · exact h
  · dsimp only
    split
    · exact coded_of_code large rfl
    · split
      · split
        · exact coded_of_code large rfl
        · exact h
      · exact h

theorem onMessageBegin_coded {x : Ctx σ} (h : Coded x.c) (env : Env σ) :
    Coded (onMessageBegin env x).1.c := by
  unfold onMessageBegin
  split
  · exact h
  · dsimp only
    split
    · exact h
    · exact h

theorem reqTargetPath_code (a : Arena) (r : Req) :
    (reqTargetPath a r).1 = 0 ∨ ClientError (reqTargetPath a r).1 := by
  have long : ClientError 414 := by decide
  have bad : ClientError 400 := by decide
  unfold reqTargetPath
  split
  · exact .inl rfl
  · dsimp only
    generalize (if (targetPart (cstr (r.target.getD [slash])) _).length = 0 then [slash] else _) = part
    split
    · exact .inr long
    · split
      · exact .inr bad
      · split
        · exact .inr bad
        · split
          · split
            · exact .inr bad
            · split
              · exact .inr bad
              · exact .inl rfl
          · exact .inl rfl

theorem completeReq_code (c : Conn σ) : (completeReq c).2 = 0 ∨ ClientError (completeReq c).2 := by
  unfold completeReq
  split
  · exact .inl rfl
  · unfold takeTarget
    exact reqTargetPath_code _ _

theorem completeReq_kept (c : Conn σ) :
    (completeReq c).1.req = c.req ∧ (completeReq c).1.stage.badRequest = c.stage.badRequest := by
  unfold completeReq
  split
  · exact ⟨rfl, rfl⟩
  · exact ⟨rfl, rfl⟩

end Codes

section Events
variable {env : Env σ} {x y : Ctx σ}

theorem Kept.coded (kept : Kept x y) (h : Coded x.c) : Coded y.c := h.of_eq (by rw [kept.stage])

theorem onMessageComplete_coded (hl : Linked x.c) (env : Env σ) (keepAlive : Bool) (h : Coded x.c) :
    Coded (onMessageComplete env x keepAlive).1.c := by
  have linked := (completeReq_assembled (told x keepAlive)).linked (hl.of_eq rfl)
  have kept := (completeReq_kept (told x keepAlive)).2
  have code := completeReq_code (told x keepAlive)
  generalize hd : completeReq (told x keepAlive) = done at linked kept code
  obtain ⟨c, bad⟩ := done
  obtain ⟨wrong, e⟩ | ⟨_, z, rfl, e⟩ := onMessageComplete_cases env x keepAlive hd <;> rw [e]
  · exact coded_of_code (code.resolve_left wrong) rfl
  · have before : Coded c := h.of_eq kept
    have dispatched := connRequestDispatch_kept (x := counted x c) linked env
    have answered : Coded (connRequestDispatch env (counted x c)).c := Kept.coded dispatched before
    exact answered

theorem onEvent_coded (hl : Linked x.c) (env : Env σ) (ev : HttpEvent) (h : Coded x.c) :
    Coded (onEvent env x ev).1.c := by
  cases ev with
  | span k s =>
    cases k with
    | url => exact onUrl_coded h s
    | field => exact onHeaderField_coded h s
    | value => exact onHeaderValue_coded h s
    | body => exact onBody_coded h env s
  | mark m =>
    cases m with
    | messageBegin => exact onMessageBegin_coded h env
    | method name => exact h
    | headersComplete n chunked => exact onHeadersComplete_coded h env n chunked
    | messageComplete keepAlive => exact onMessageComplete_coded hl env keepAlive h
  | fail e => exact h

theorem rejectRequest_kept (hl : Linked x.c) (env : Env σ) (code : ℕ) (reason : Bytes) :
    Kept x (rejectRequest env x code reason) := by
  have noted : Kept x { x with c := { x.c with
      forceClose := true, trace := x.c.trace ++ [.rejected code] } } :=
    .of_eq (hl.of_eq rfl) rfl rfl rfl (fun h => h) (.refl _) (List.prefix_append _ _)
  exact noted.trans (connSendSimple_kept noted.linked env code none reason true)

theorem connCloseGraceful_coded (h : Coded x.c) : Coded (connCloseGraceful x).c := by
  unfold connCloseGraceful
  split
  · exact h
  · exact h

theorem cancelReq_coded {c : Conn σ} (h : Coded c) : Coded (cancelReq c) := by
  obtain ⟨o, ho⟩ := cancelReq_objs c
  rw [ho]
  exact h

theorem coded_callbacks (env : Env σ) :
    CallbackRules env (fun _ _ => True) (fun x y => Coded x.c → Coded y.c) fun x y => Coded x.c → Coded y.c where
  refl _ h := h
  trans _ _ _ h₁ h₂ := h₂ ∘ h₁
  whole _ _ h := h
  ends _ _ _ h₁ h₂ := h₂ ∘ h₁
  event _ ev hl _ := onEvent_coded hl env ev
  buffer _ _ _ _ h := h
  receive _ _ h := h
  reject _ code reason hl _ := Kept.coded (rejectRequest_kept hl env code reason)
  rearm _ _ _ _ _ := .inl rfl
  restart _ _ _ _ _ := .inl rfl
  shed _ _ _ h := h
  cancel _ _ := cancelReq_coded
  close _ hl := Kept.coded (connCloseAndFree_kept hl)
  graceful _ _ _ := connCloseGraceful_coded

theorem coded_rules (env : Env σ) : ConnRules env (fun s a => ∀ p ∈ completed env s a, True) fun _ c => Coded c :=
  (coded_callbacks env).conns (fun _ _ keeps => keeps) (fun _ _ => .inl rfl) (fun _ h => h)
    (fun _ hl => Kept.coded (connSendSimple_kept hl env 503 none (ascii "server busy\n") true))
    (fun x _ open_ _ h => by
      obtain ⟨srv, a, _, _, e⟩ := connFinalize_cases (x := { x with c := { x.c with closeCbDone := true } }) open_
      rw [e]
      exact h)
    (fun _ hl => Kept.coded (reloadConn_kept hl env).1) (fun _ _ _ h => h)
    fun _ k hl => Kept.coded (drainReq_kept hl env k).1

theorem reach_coded {ok : Srv σ → Step → Prop} {s : Srv σ} (h : Reach (server env) ok s) (i : ℕ) :
    Coded (s.conns i) :=
  ((coded_rules env).reach (h.mono fun _ _ _ _ _ => trivial)).each i

end Events

end Cerco.RejectCodes
