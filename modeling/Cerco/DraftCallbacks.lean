import Cerco.HeaderLimits
import Cerco.RequestDrafts

set_option autoImplicit false

/-!
# What the callbacks make of the spans

As long as the arena serves it, a connection assembles the draft that its spans describe, fails
with the ruling on it, or dispatches the request.
-/
namespace Cerco.DraftCallbacks
open Cerco.Alloc Cerco.CString Cerco.Request Cerco.Connection Cerco.Dispatch Cerco.HttpCallbacks Cerco.Server
open Cerco.SpanParser Cerco.SpanConsumers Cerco.TargetPath Cerco.ArenaUse Cerco.ConnFrames Cerco.Responders
open Cerco.CloseFlags Cerco.HeaderLimits Cerco.RequestDrafts

variable {σ : Type}

structure Drafted (d : Draft) (c : Conn σ) : Prop where
  opened : c.req.isSome = d.opened
  method : ∀ m ∈ d.method, c.parser.method = m
  stage : c.stage = ⟨d.name, d.value, d.url, 0⟩
  obj : ∀ k ∈ c.req, (c.objs k).headers = d.headers ∧ (c.objs k).body = d.body ∧ (c.objs k).path = none

/-- The code that `conn_on_read` answers a failed parse with. -/
def answerCode (c : Conn σ) : ℕ := if c.stage.badRequest ≠ 0 then c.stage.badRequest else 400

/-- A callback went on with the draft, or failed with the ruling. -/
def Agrees : Except Ruling Draft → Conn σ × Bool → Prop
  | .ok d, r => r.2 = true ∧ Drafted d r.1
  | .error v, r => r.2 = false ∧ v = .rejected (answerCode r.1)

section Callbacks
variable {d : Draft} {c : Conn σ} {x : Ctx σ} {env : Env σ}

theorem Drafted.of_eq {e : Conn σ} (h : Drafted d c)
    (same : (e.req, e.parser.method, e.stage, e.objs) = (c.req, c.parser.method, c.stage, c.objs)) : Drafted d e := by
  simp only [Prod.mk.injEq] at same
  obtain ⟨req, method, stage, objs⟩ := same
  exact ⟨req ▸ h.opened, method ▸ h.method, stage ▸ h.stage, fun k hk => objs ▸ h.obj k (req ▸ hk)⟩

theorem Drafted.clean (h : Drafted d c) : c.stage.badRequest = 0 := by
  rw [h.stage]

theorem Drafted.unopened (h : Drafted d c) (closed : d.opened = false) : c.req = none := by
  have := h.opened
  rw [closed] at this
  exact Option.not_isSome_iff_eq_none.mp (Bool.eq_false_iff.mp this)

theorem Drafted.request (h : Drafted d c) (opened : ¬ d.opened = false) : ∃ k, c.req = some k :=
  Option.isSome_iff_exists.mp (h.opened.trans (Bool.eq_true_of_not_eq_false opened))

theorem Drafted.of_obj {t : Draft} {e : Conn σ} {k : ℕ} (h : Drafted d c) (req : e.req = some k)
    (opened : t.opened = true) (draft : (t.method, t.url, t.name, t.value) = (d.method, d.url, d.name, d.value))
    (same : (e.parser.method, e.stage) = (c.parser.method, c.stage))
    (obj : (e.objs k).headers = t.headers ∧ (e.objs k).body = t.body ∧ (e.objs k).path = none) : Drafted t e := by
  simp only [Prod.mk.injEq] at draft same
  obtain ⟨method, url, name, value⟩ := draft
  refine ⟨?_, ?_, ?_, fun j hj => ?_⟩
  · rw [req, opened]
    rfl
  · rw [method, same.1]
    exact h.method
  · rw [same.2, url, name, value]
    exact h.stage
  · obtain rfl := Option.some.inj (req.symm.trans hj)
    exact obj

theorem Drafted.staged (h : Drafted d c) (url name value : Bytes) :
    Drafted { d with url := url, name := name, value := value } { c with stage := ⟨name, value, url, 0⟩ } :=
  ⟨h.opened, h.method, rfl, h.obj⟩

theorem answerCode_set {code : ℕ} (set : code ≠ 0) (c : Conn σ) : answerCode (badRequest code c) = code := if_pos set

theorem answerCode_clean {c : Conn σ} (clean : c.stage.badRequest = 0) : answerCode c = 400 := by
  rw [answerCode, clean]
  rfl

theorem onUrl_agrees (h : Drafted d c) (maxBody : ℕ) (s : Bytes) :
    Agrees (d.on maxBody (.span .url s)) (onUrl c s) := by
  rw [Draft.on, onUrl, h.stage]
  dsimp only
  split
  · exact ⟨rfl, rfl⟩
  · exact ⟨rfl, h.staged _ _ _⟩

theorem onHeaderValue_agrees (h : Drafted d c) (maxBody : ℕ) (s : Bytes) :
    Agrees (d.on maxBody (.span .value s)) (onHeaderValue c s) := by
  rw [Draft.on, onHeaderValue, if_neg (not_not.mpr h.clean), h.stage]
  dsimp only
  split
  · exact ⟨rfl, rfl⟩
  · exact ⟨rfl, h.staged _ _ _⟩

theorem arenaStrndup_served {a : Arena} {s : Bytes} (served : (arenaStrndup a s).2.Served) :
    a.Served ∧ (arenaStrndup a s).1 = some s := by
  unfold arenaStrndup at served ⊢
  split at served
  · rename_i found
    exact ⟨(arenaAlloc_served (by rw [found]; exact served)).1, rfl⟩
  · rename_i failed
    have := arenaAlloc_served (by rw [failed]; exact served)
    rw [failed] at this
    exact Bool.noConfusion this.2

theorem finish_cases (h : Drafted d c) (served : (reqFinishHeaders c).arena.Served) :
    (∃ t, d.finish = .ok t ∧ Drafted t (reqFinishHeaders c)) ∨
      d.finish = .error (.rejected 431) ∧ (reqFinishHeaders c).stage.badRequest = 431 := by
  unfold Draft.finish
  split
  · rename_i quiet
    have still : reqFinishHeaders c = c := by
      obtain closed | empty := quiet
      · rw [reqFinishHeaders, h.unopened closed]
      · unfold reqFinishHeaders
        split
        · rfl
        · dsimp only
          rw [if_pos (by rw [h.stage, empty]; rfl)]
    exact .inl ⟨d, rfl, still.symm ▸ h⟩
  · rename_i staged
    obtain ⟨opened, named⟩ := not_or.mp staged
    obtain ⟨k, hk⟩ := h.request opened
    obtain ⟨headers, body, path⟩ := h.obj k hk
    have long : c.stage.fSb.length ≠ 0 := by
      rw [h.stage]
      exact fun zero => named (List.length_eq_zero_iff.mp zero)
    unfold reqFinishHeaders at served ⊢
    simp only [hk] at served ⊢
    rw [if_neg long, headers, h.stage] at served ⊢
    dsimp only at served ⊢
    split
    · rename_i bad
      refine .inr ⟨rfl, ?_⟩
      split
      · rfl
      · rename_i few
        rw [if_pos (bad.resolve_left few)]
    · rename_i good
      obtain ⟨few, fits⟩ := not_or.mp good
      rw [if_neg few, if_neg fits] at served ⊢
      have second := arenaStrndup_served (a := (arenaStrndup c.arena d.name).2) (s := d.value) (by
        split at served <;> exact served)
      have first := arenaStrndup_served second.1
      rw [first.2, second.2]
      refine .inl ⟨_, rfl, (Bool.eq_true_of_not_eq_false opened).symm, h.method, rfl, fun j hj => ?_⟩
      obtain rfl := Option.some.inj hj
      dsimp only
      rw [Function.update_self]
      exact ⟨rfl, body, path⟩

theorem onHeaderField_agrees (h : Drafted d c) (maxBody : ℕ) {s : Bytes}
    (served : (onHeaderField c s).1.arena.Served) : Agrees (d.on maxBody (.span .field s)) (onHeaderField c s) := by
  have staged : (c.stage.fSb ≠ [] ∨ c.stage.vSb ≠ []) = (d.name ≠ [] ∨ d.value ≠ []) := by rw [h.stage]
  rw [Draft.on, Draft.onField]
  unfold onHeaderField at served ⊢
  rw [if_neg (not_not.mpr h.clean)] at served ⊢
  simp only [staged] at served ⊢
  generalize hc : (if d.name ≠ [] ∨ d.value ≠ [] then reqFinishHeaders c else c) = e at served ⊢
  have taken : e.arena.Served := by
    split at served
    · exact served
    · split at served <;> exact served
  have moved : (∃ t, (if d.name ≠ [] ∨ d.value ≠ [] then d.finish else .ok d) = .ok t ∧ Drafted t e) ∨
      (if d.name ≠ [] ∨ d.value ≠ [] then d.finish else .ok d) = .error (.rejected 431) ∧ e.stage.badRequest = 431 := by
    split at hc
    · rename_i pair
      rw [if_pos pair, ← hc]
      exact finish_cases h (hc ▸ taken)
    · rename_i none_
      rw [if_neg none_, ← hc]
      exact .inl ⟨d, rfl, h⟩
  obtain ⟨t, ht, drafted⟩ | ⟨full, code⟩ := moved
  · rw [ht, if_neg (not_not.mpr drafted.clean), drafted.stage]
    change Agrees (if _ then _ else _) _
    split
    · exact ⟨rfl, rfl⟩
    · exact ⟨rfl, drafted.staged _ _ _⟩
  · rw [full, if_pos (by rw [code]; decide)]
    refine ⟨rfl, ?_⟩
    rw [answerCode, code]
    rfl

theorem onBody_agrees (h : Drafted d c) {s : Bytes} (served : (onBody env c s).1.arena.Served) :
    Agrees (d.on env.cfg.maxBody (.span .body s)) (onBody env c s) := by
  rw [Draft.on, Draft.onBody]
  split
  · rename_i closed
    rw [onBody, h.unopened closed]
    exact ⟨rfl, h⟩
  · rename_i opened
    obtain ⟨k, hk⟩ := h.request opened
    obtain ⟨headers, body, path⟩ := h.obj k hk
    unfold onBody at served ⊢
    simp only [hk, Req.bodyLen, body] at served ⊢
    split
    · exact ⟨rfl, rfl⟩
    · rename_i fits
      rw [if_neg fits] at served
      split
      · rename_i grows
        rw [if_pos grows] at served
        split
        · rename_i a failed
          rw [failed] at served
          have := arenaAlloc_served (by rw [failed]; exact served)
          rw [failed] at this
          exact Bool.noConfusion this.2
        · refine ⟨rfl, h.of_obj rfl (Bool.eq_true_of_not_eq_false opened) rfl rfl ?_⟩
          dsimp only
          rw [Function.update_self]
          exact ⟨headers, rfl, path⟩
      · refine ⟨rfl, h.of_obj rfl (Bool.eq_true_of_not_eq_false opened) rfl rfl ?_⟩
        dsimp only
        rw [Function.update_self]
        exact ⟨headers, rfl, path⟩

theorem onMessageBegin_agrees (h : Drafted d x.c) (maxBody : ℕ) (served : (onMessageBegin env x).1.c.arena.Served) :
    Agrees (d.on maxBody (.mark .messageBegin)) ((onMessageBegin env x).1.c, (onMessageBegin env x).2) := by
  rw [Draft.on]
  unfold onMessageBegin at served ⊢
  rw [h.opened] at served ⊢
  split
  · exact ⟨rfl, h.of_eq rfl⟩
  · rename_i closed
    rw [if_neg closed] at served
    dsimp only at served ⊢
    split
    · rename_i a failed
      rw [failed] at served
      have := arenaAlloc_served (by rw [failed]; exact served)
      rw [failed] at this
      exact Bool.noConfusion this.2
    · refine ⟨rfl, rfl, h.method, h.stage, fun k hk => ?_⟩
      obtain rfl := Option.some.inj hk
      dsimp only
      rw [Function.update_self]
      exact ⟨rfl, rfl, rfl⟩

theorem bodyBuffer_agrees {k n : ℕ} (h : Drafted d c) (hk : c.req = some k)
    (served : (bodyBuffer c k n).1.arena.Served) :
    (bodyBuffer c k n).2 = true ∧ Drafted { d with body := some (d.body.getD []) } (bodyBuffer c k n).1 := by
  unfold bodyBuffer at served ⊢
  split
  · rename_i a failed
    rw [failed] at served
    have := arenaAlloc_served (by rw [failed]; exact served)
    rw [failed] at this
    exact Bool.noConfusion this.2
  · obtain ⟨headers, body, path⟩ := h.obj k hk
    refine ⟨rfl, h.opened, h.method, h.stage, fun j hj => ?_⟩
    obtain rfl : k = j := Option.some.inj (hk.symm.trans hj)
    dsimp only
    rw [Function.update_self, body]
    exact ⟨headers, rfl, path⟩

theorem assembled_served {e : Conn σ} (h : Assembled c e) (served : e.arena.Served) : c.arena.Served := by
  obtain ⟨a, _, _, all, rfl⟩ := h
  exact all.served served

theorem bodyBuffer_served {k n : ℕ} (served : (bodyBuffer c k n).1.arena.Served) : c.arena.Served :=
  assembled_served (bodyBuffer_assembled c k n) served

theorem headBuffer_agrees {k n : ℕ} {chunked : Bool} (h : Drafted d c) (hk : c.req = some k)
    {r : Conn σ × Bool} (hr : (if 0 < n then bodyBuffer c k n else if chunked = true then bodyBuffer c k 4096
      else (c, true)) = r) (served : r.1.arena.Served) :
    r.2 = true ∧ Drafted { d with body := if 0 < n ∨ chunked = true then some (d.body.getD []) else d.body } r.1 := by
  split at hr
  · rename_i sized
    rw [if_pos (.inl sized)]
    subst hr
    exact bodyBuffer_agrees h hk served
  · rename_i unsized
    split at hr
    · rename_i open_
      rw [if_pos (.inr open_)]
      subst hr
      exact bodyBuffer_agrees h hk served
    · rename_i plain
      rw [if_neg (not_or.mpr ⟨unsized, plain⟩)]
      subst hr
      exact ⟨rfl, h⟩

theorem onHeadersComplete_agrees (h : Drafted d x.c) (n : ℕ) (chunked : Bool)
    (served : (onHeadersComplete env x n chunked).1.c.arena.Served) :
    Agrees (d.on env.cfg.maxBody (.mark (.headersComplete n chunked)))
      ((onHeadersComplete env x n chunked).1.c, (onHeadersComplete env x n chunked).2) := by
  rw [Draft.on, Draft.onHead]
  unfold onHeadersComplete at served ⊢
  rw [if_neg (not_not.mpr h.clean)] at served ⊢
  dsimp only at served ⊢
  have finished := finish_cases h
  generalize reqFinishHeaders x.c = e at served finished ⊢
  by_cases clean : e.stage.badRequest = 0
  · have moved (taken : e.arena.Served) : ∃ t, d.finish = .ok t ∧ Drafted t e := by
      obtain drafted | ⟨_, code⟩ := finished taken
      · exact drafted
      · rw [clean] at code
        cases code
    rw [if_neg (not_not.mpr clean)] at served ⊢
    cases hk : e.req with
    | none =>
      simp only [hk] at served ⊢
      obtain ⟨t, ht, drafted⟩ := moved served
      have closed : t.opened = false := by
        rw [← drafted.opened, hk]
        rfl
      rw [ht]
      change Agrees (if _ then _ else _) _
      rw [if_pos closed]
      exact ⟨rfl, by rw [answerCode_clean clean]⟩
    | some k =>
      have opened {t : Draft} (drafted : Drafted t e) : ¬ t.opened = false := by
        rw [← drafted.opened, hk]
        exact Bool.noConfusion
      simp only [hk] at served ⊢
      by_cases big : 0 < n ∧ env.cfg.maxBody < n
      · rw [if_pos big] at served ⊢
        obtain ⟨t, ht, drafted⟩ := moved served
        rw [ht]
        change Agrees (if _ then _ else _) _
        rw [if_neg (opened drafted), if_pos big]
        exact ⟨rfl, rfl⟩
      · rw [if_neg big] at served ⊢
        generalize hr : (if 0 < n then bodyBuffer e k n else if chunked = true then bodyBuffer e k 4096
          else (e, true)) = r at served ⊢
        have taken : r.1.arena.Served := by
          obtain ⟨c', _ | _⟩ := r <;> exact served
        have before : e.arena.Served := by
          subst hr
          split at taken
          · exact bodyBuffer_served taken
          · split at taken
            · exact bodyBuffer_served taken
            · exact taken
        obtain ⟨t, ht, drafted⟩ := moved before
        obtain ⟨ok, buffered⟩ := headBuffer_agrees drafted hk hr taken
        obtain ⟨c', b⟩ := r
        obtain rfl : b = true := ok
        rw [ht]
        change Agrees (if _ then _ else _) _
        rw [if_neg (opened drafted), if_neg big]
        exact ⟨rfl, buffered.of_eq rfl⟩
  · rw [if_pos clean] at served ⊢
    obtain ⟨t, _, drafted⟩ | ⟨full, code⟩ := finished served
    · exact absurd drafted.clean clean
    · rw [full]
      refine ⟨rfl, ?_⟩
      rw [answerCode, code]
      rfl

theorem fresh_target {a : Arena} {r : Req} (fresh : r.path = none) (served : (reqTargetPath a r).2.1.Served) :
    match decodeTarget (targetText r) with
    | .error code => (reqTargetPath a r).1 = code ∧ code ≠ 0
    | .ok p => (reqTargetPath a r).1 = 0 ∧
        (reqTargetPath a r).2.2 = { r with path := some p.1, query := some p.2 } := by
  rw [reqTargetPath_fresh fresh] at served ⊢
  unfold decodeTarget
  split at served
  · rename_i long
    rw [if_pos long, if_pos long]
    exact ⟨rfl, by decide⟩
  · rename_i short
    rw [if_neg short, if_neg short]
    split at served
    · rename_i a' failed
      have := arenaAlloc_served (by rw [failed]; exact served)
      rw [failed] at this
      exact Bool.noConfusion this.2
    · rename_i p a' found
      cases hp : urlDecode false (decodedPart (targetText r)).length (decodedPart (targetText r)) with
      | none => exact ⟨rfl, by decide⟩
      | some path =>
        simp only [hp] at served
        dsimp only
        cases hq : queryText (targetText r) with
        | none => exact ⟨rfl, rfl⟩
        | some q =>
          simp only [hq] at served
          dsimp only
          cases ha : arenaAlloc a' (q.length + 1) with
          | mk p a'' =>
            rw [ha] at served
            cases p with
            | none =>
              have copied : (arenaAlloc a' (q.length + 1)).2.Served := by
                rw [ha]
                exact served
              have := arenaAlloc_served copied
              rw [ha] at this
              exact Bool.noConfusion this.2
            | some p =>
              dsimp only
              cases urlDecode true q.length q with
              | none => exact ⟨rfl, by decide⟩
              | some query => exact ⟨rfl, rfl⟩

theorem takeTarget_decodes {a : Arena} {r : Req} (fresh : r.path = none) (method : Bytes) (url : Bytes)
    (served : (takeTarget method url a r).2.1.Served) :
    match decodeTarget (cstr (if url ≠ [] then url else [slash])) with
    | .error code => (takeTarget method url a r).1 = code ∧ code ≠ 0
    | .ok p => (takeTarget method url a r).1 = 0 ∧ (takeTarget method url a r).2.2 = { r with
        method := some (cstr method)
        target := some (if url ≠ [] then url else [slash])
        path := some p.1
        query := some p.2 } := by
  unfold takeTarget at served ⊢
  dsimp only at served ⊢
  generalize ht : (if url ≠ [] then arenaStrndup (arenaStrdup a method).2 url
    else (some [slash], (arenaStrdup a method).2)) = t at served ⊢
  have left : t.2.Served := (reqTargetPath_allocs _ _).served served
  have named : (arenaStrdup a method).2.Served ∧ t.1 = some (if url ≠ [] then url else [slash]) := by
    split at ht
    · rename_i given
      subst ht
      rw [if_pos given]
      exact arenaStrndup_served left
    · rename_i none_
      subst ht
      rw [if_neg none_]
      exact ⟨left, rfl⟩
  rw [(arenaStrdup_served named.1).2, named.2] at served ⊢
  exact fresh_target (r := { r with
    method := some (cstr method), target := some (if url ≠ [] then url else [slash]) }) fresh served

theorem completeReq_some {k : ℕ} (hk : c.req = some k) : completeReq c =
    ({ c with
      arena := (takeTarget c.parser.method c.stage.urlSb c.arena (c.objs k)).2.1
      objs := Function.update c.objs k (takeTarget c.parser.method c.stage.urlSb c.arena (c.objs k)).2.2
      stage := { c.stage with urlSb := [] } }, (takeTarget c.parser.method c.stage.urlSb c.arena (c.objs k)).1) := by
  unfold completeReq
  split
  · rename_i none_
    cases hk.symm.trans none_
  · rename_i j hj
    obtain rfl : k = j := Option.some.inj (hk.symm.trans hj)
    rfl

/-- The request is rejected with the code of its target, or dispatched as the draft says. -/
theorem onMessageComplete_rules (hl : Linked x.c) (h : Drafted d x.c) (opened : d.opened = true) {m : Bytes}
    (method : d.method = some m) (keepAlive : Bool) (served : (onMessageComplete env x keepAlive).1.c.arena.Served) :
    (∃ a o st, onMessageComplete env x keepAlive =
        ({ x with c := { x.c with keepAlive := keepAlive, arena := a, objs := o, stage := st } }, false) ∧
      st.badRequest ≠ 0 ∧ d.complete m = .rejected st.badRequest) ∨
    ∃ k ∈ x.c.req, ∃ y : Ctx σ, ∃ a o r, onMessageComplete env x keepAlive =
        ({ dispatchReq env y k with c := { (dispatchReq env y k).c with
          parser := llhttpPause (dispatchReq env y k).c.parser } }, true) ∧
      d.complete m = dispatchedReq r ∧ y.id = x.id ∧
      y.srv = (x.stat fun s => { s with activeReqs := s.activeReqs + 1, totalReqs := s.totalReqs + 1 }).srv ∧
      y.c = { x.c with
        keepAlive := keepAlive
        arena := a
        objs := o
        stage := { x.c.stage with urlSb := [] }
        trace := x.c.trace ++ [.dispatched k r] } := by
  obtain ⟨k, hk⟩ := h.request (by rw [opened]; exact Bool.noConfusion)
  obtain ⟨headers, body, path⟩ := h.obj k hk
  have completed := completeReq_some (c := { x.c with keepAlive := keepAlive }) hk
  have decoded := takeTarget_decodes (a := x.c.arena) path x.c.parser.method x.c.stage.urlSb
  dsimp only at completed
  unfold onMessageComplete at served ⊢
  rw [completed] at served ⊢
  dsimp only at served ⊢
  generalize takeTarget x.c.parser.method x.c.stage.urlSb x.c.arena (x.c.objs k) = r at served decoded ⊢
  obtain ⟨code, a, r⟩ := r
  dsimp only at served decoded ⊢
  have url : x.c.stage.urlSb = d.url := by rw [h.stage]
  have clean : x.c.stage.badRequest = 0 := h.clean
  have name : x.c.parser.method = m := h.method m (by rw [method]; rfl)
  rw [url, name] at decoded
  change a.Served → match decodeTarget (cstr d.target) with
    | .error code' => _
    | .ok p => _ at decoded
  unfold Draft.complete
  by_cases bad : code ≠ 0
  · left
    rw [if_pos bad] at served ⊢
    have decoded := decoded served
    refine ⟨_, _, _, rfl, bad, ?_⟩
    cases hd : decodeTarget (cstr d.target) with
    | error code' =>
      rw [hd] at decoded
      rw [← decoded.1]
    | ok p =>
      rw [hd] at decoded
      exact absurd decoded.1 bad
  · right
    rw [if_neg bad] at served ⊢
    let y : Ctx σ := ⟨(x.stat fun s => { s with activeReqs := s.activeReqs + 1, totalReqs := s.totalReqs + 1 }).srv,
      x.id,
      { x.c with
        keepAlive := keepAlive
        arena := a
        objs := Function.update x.c.objs k r
        stage := { x.c.stage with urlSb := [] }
        trace := x.c.trace ++ [.dispatched k r] }⟩
    have sent : connRequestDispatch env (Ctx.stat ⟨x.srv, x.id, { x.c with
        keepAlive := keepAlive
        arena := a
        objs := Function.update x.c.objs k r
        stage := { x.c.stage with urlSb := [] } }⟩ fun s =>
          { s with activeReqs := s.activeReqs + 1, totalReqs := s.totalReqs + 1 }) = dispatchReq env y k := by
      unfold connRequestDispatch
      split
      · rename_i none_
        cases hk.symm.trans none_
      · rename_i j hj
        obtain rfl : k = j := Option.some.inj (hk.symm.trans hj)
        have quiet : ¬ x.c.stage.badRequest ≠ 0 := not_not.mpr clean
        refine (if_neg quiet).trans ?_
        dsimp only [Ctx.stat]
        rw [Function.update_self]
        rfl
    have taken : a.Served := by
      have kept := answer_kept (dispatchReq_answer env y k) (hl.of_eq rfl)
      rw [sent] at served
      exact kept.arena.served served
    have decoded := decoded taken
    rw [sent]
    refine ⟨k, hk, y, a, _, r, rfl, ?_, rfl, rfl, rfl⟩
    cases hd : decodeTarget (cstr d.target) with
    | error code' =>
      rw [hd] at decoded
      exact absurd decoded.1 (by
        rw [not_not.mp bad]
        exact Ne.symm decoded.2)
    | ok p =>
      rw [hd] at decoded
      rw [decoded.2, dispatchedReq, ← headers, ← body]
      rfl

structure Steady (c e : Conn σ) : Prop where
  same : (e.trace, e.writes, e.statusSent, e.keepAlive, e.closing, e.finalized, e.buf) =
    (c.trace, c.writes, c.statusSent, c.keepAlive, c.closing, c.finalized, c.buf)
  parser : (e.parser.state, e.parser.error, e.parser.errorPos) =
    (c.parser.state, c.parser.error, c.parser.errorPos)
  phase : e.phase = c.phase ∨ e.phase = .headers ∨ e.phase = .body

theorem Steady.refl (c : Conn σ) : Steady c c := ⟨rfl, rfl, .inl rfl⟩

theorem Steady.trans {c e f : Conn σ} (h₁ : Steady c e) (h₂ : Steady e f) : Steady c f :=
  ⟨h₂.same.trans h₁.same, h₂.parser.trans h₁.parser, by
    obtain e | later := h₂.phase
    · rw [e]
      exact h₁.phase
    · exact .inr later⟩

theorem assembled_steady {e : Conn σ} (h : Assembled c e) : Steady c e := by
  obtain ⟨a, o, st, _, rfl⟩ := h
  exact ⟨rfl, rfl, .inl rfl⟩

def completes : HttpEvent → Bool
  | .mark (.messageComplete _) => true
  | _ => false

theorem onEvent_steady (env : Env σ) (x : Ctx σ) {ev : HttpEvent} (open_ : completes ev = false) :
    Steady x.c (onEvent env x ev).1.c := by
  cases ev with
  | span k s =>
    cases k with
    | url => exact assembled_steady (onUrl_assembled x.c s)
    | field => exact assembled_steady (onHeaderField_assembled x.c s)
    | value => exact assembled_steady (onHeaderValue_assembled x.c s)
    | body => exact assembled_steady (onBody_assembled env x.c s)
  | mark m =>
    cases m with
    | messageBegin =>
      change Steady x.c (onMessageBegin env x).1.c
      unfold onMessageBegin
      split
      · exact ⟨rfl, rfl, .inl rfl⟩
      · dsimp only
        split
        · exact ⟨rfl, rfl, .inl rfl⟩
        · exact ⟨rfl, rfl, .inr (.inl rfl)⟩
    | method name => exact ⟨rfl, rfl, .inl rfl⟩
    | headersComplete n chunked =>
      change Steady x.c (onHeadersComplete env x n chunked).1.c
      obtain ⟨e, assembled, h | h⟩ := onHeadersComplete_cases env x n chunked <;> rw [h]
      · exact assembled_steady assembled
      · exact (assembled_steady assembled).trans ⟨rfl, rfl, .inr (.inr rfl)⟩
    | messageComplete keepAlive => cases open_
  | fail e => exact .refl _

theorem onEvent_agrees (h : Drafted d x.c) {ev : HttpEvent} (open_ : completes ev = false)
    (served : (onEvent env x ev).1.c.arena.Served) :
    Agrees (d.on env.cfg.maxBody ev) ((onEvent env x ev).1.c, (onEvent env x ev).2) := by
  cases ev with
  | span k s =>
    cases k with
    | url => exact onUrl_agrees h env.cfg.maxBody s
    | field => exact onHeaderField_agrees h env.cfg.maxBody served
    | value => exact onHeaderValue_agrees h env.cfg.maxBody s
    | body => exact onBody_agrees h served
  | mark m =>
    cases m with
    | messageBegin => exact onMessageBegin_agrees h env.cfg.maxBody served
    | method name =>
      refine ⟨rfl, h.opened, fun m hm => ?_, h.stage, h.obj⟩
      exact Option.some.inj hm
    | headersComplete n chunked => exact onHeadersComplete_agrees h n chunked served
    | messageComplete keepAlive => cases open_
  | fail e => exact ⟨rfl, congrArg Ruling.rejected (answerCode_clean h.clean).symm⟩

/-- Only the last event ends a message, and it does so behind the last of `n` bytes. -/
def wholeIn (n : ℕ) : List (ℕ × HttpEvent) → Bool
  | [] => true
  | (p, ev) :: rest => (!completes ev || rest.isEmpty && p == n) && wholeIn n rest

/-- `y` is what `conn_request_dispatch` gets: request `k` with the data `r`. -/
structure Handed (c : Conn σ) (k : ℕ) (r : Req) (keepAlive : Bool) (y : Ctx σ) : Prop where
  linked : Linked y.c
  req : y.c.req = some k
  trace : y.c.trace = c.trace ++ [.dispatched k r]
  same : (y.c.writes, y.c.statusSent, y.c.closing, y.c.finalized, y.c.buf) =
    (c.writes, c.statusSent, c.closing, c.finalized, c.buf)
  parser : (y.c.parser.state, y.c.parser.error) = (c.parser.state, c.parser.error)
  phase : y.c.phase = c.phase ∨ y.c.phase = .headers ∨ y.c.phase = .body
  keepAlive : y.c.keepAlive = keepAlive
  clean : y.c.stage.urlSb = [] ∧ y.c.stage.badRequest = 0

def paused (x : Ctx σ) : Ctx σ := { x with c := { x.c with parser := llhttpPause x.c.parser } }

/-- How the events of a buffer end that found the connection and the pool as in `x`. -/
def Concludes (env : Env σ) (n : ℕ) (es : List (ℕ × HttpEvent)) (x : Ctx σ) (out : Ctx σ × Bool) :
    Except Ruling Draft → Prop
  | .ok t => out.2 = true ∧ Drafted t out.1.c ∧ Steady x.c out.1.c
  | .error v =>
    (out.2 = false ∧ v = .rejected (answerCode out.1.c) ∧
      (out.1.c.trace, out.1.c.writes, out.1.c.closing, out.1.c.finalized, out.1.c.buf) =
        (x.c.trace, x.c.writes, x.c.closing, x.c.finalized, x.c.buf)) ∨
    ∃ k r keepAlive y, Handed x.c k r keepAlive y ∧ (y.id, y.srv.pool) = (x.id, x.srv.pool) ∧
      out = (paused (dispatchReq env y k), true) ∧
      v = dispatchedReq r ∧ (n, .mark (.messageComplete keepAlive)) ∈ es

theorem onEvent_place (env : Env σ) (x : Ctx σ) {ev : HttpEvent} (open_ : completes ev = false) :
    ((onEvent env x ev).1.id, (onEvent env x ev).1.srv.pool) = (x.id, x.srv.pool) := by
  cases ev with
  | span k s => cases k <;> rfl
  | mark m =>
    cases m with
    | messageBegin =>
      change ((onMessageBegin env x).1.id, (onMessageBegin env x).1.srv.pool) = _
      unfold onMessageBegin
      split
      · rfl
      · dsimp only
        split <;> rfl
    | method name => rfl
    | headersComplete n chunked =>
      change ((onHeadersComplete env x n chunked).1.id, (onHeadersComplete env x n chunked).1.srv.pool) = _
      obtain ⟨e, _, h | h⟩ := onHeadersComplete_cases env x n chunked <;> rw [h]
    | messageComplete keepAlive => cases open_
  | fail e => rfl

theorem Concludes.behind {n : ℕ} {ev : ℕ × HttpEvent} {es : List (ℕ × HttpEvent)} {e : Ctx σ} {out : Ctx σ × Bool}
    {r : Except Ruling Draft} (steady : Steady x.c e.c) (place : (e.id, e.srv.pool) = (x.id, x.srv.pool))
    (h : Concludes env n es e out r) : Concludes env n (ev :: es) x out r := by
  have same := steady.same
  have parser := steady.parser
  simp only [Prod.mk.injEq] at same parser
  obtain ⟨trace, writes, sent, keepAlive, closing, finalized, buf⟩ := same
  cases r with
  | ok t => exact ⟨h.1, h.2.1, steady.trans h.2.2⟩
  | error v =>
    obtain ⟨stopped, code, rest⟩ | ⟨k, r, ka, y, handed, there, ran, ruling, mem⟩ := h
    · refine .inl ⟨stopped, code, ?_⟩
      rw [rest, trace, writes, closing, finalized, buf]
    · refine .inr ⟨k, r, ka, y, ⟨handed.linked, handed.req, ?_, ?_, ?_, ?_, handed.keepAlive, handed.clean⟩,
        there.trans place, ran, ruling, List.mem_cons_of_mem _ mem⟩
      · rw [handed.trace, trace]
      · rw [handed.same, writes, sent, closing, finalized, buf]
      · rw [handed.parser, parser.1, parser.2.1]
      · obtain same | later := handed.phase
        · rw [same]
          exact steady.phase
        · exact .inr later

theorem runEvents_concludes {n : ℕ} {es : List (ℕ × HttpEvent)} (hl : Linked x.c) (h : Drafted d x.c)
    (served : (runEvents env es x).1.c.arena.Served) (whole : wholeIn n es = true)
    (turn : consume (Draft.on env.cfg.maxBody) d (es.map Prod.snd) ≠ .error .outOfTurn) :
    Concludes env n es x (runEvents env es x) (consume (Draft.on env.cfg.maxBody) d (es.map Prod.snd)) := by
  induction es generalizing x d with
  | nil => exact ⟨rfl, h, .refl _⟩
  | cons ev es ih =>
    obtain ⟨pos, ev⟩ := ev
    have linked := (onEvent_loose hl env ev).linked
    rw [List.map_cons, consume] at turn ⊢
    rw [wholeIn, Bool.and_eq_true] at whole
    rw [runEvents_cons] at served ⊢
    dsimp only at turn ⊢
    cases last : completes ev with
    | false =>
      have steady := onEvent_steady env x last
      have agrees := onEvent_agrees h last (by
        split at served
        · exact (runEvents_loose linked env es).arena.served served
        · exact served)
      cases hd : d.on env.cfg.maxBody ev with
      | error v =>
        rw [hd] at agrees
        have failed : ¬ (onEvent env x ev).2 = true := Bool.eq_false_iff.mp agrees.1
        have same := steady.same
        simp only [Prod.mk.injEq] at same
        obtain ⟨trace, writes, _, _, closing, finalized, buf⟩ := same
        rw [if_neg failed]
        refine .inl ⟨rfl, agrees.2, ?_⟩
        dsimp only [stopParser]
        rw [trace, writes, closing, finalized, buf]
      | ok t =>
        rw [hd] at agrees turn
        rw [if_pos agrees.1] at served ⊢
        exact (ih linked agrees.2 served whole.2 turn).behind steady (onEvent_place env x last)
    | true =>
      rw [last] at whole
      obtain ⟨empty, place⟩ := Bool.and_eq_true_iff.mp whole.1
      obtain rfl := List.isEmpty_iff.mp empty
      obtain rfl : pos = n := beq_iff_eq.mp place
      cases ev with
      | span k s => cases last
      | fail e => cases last
      | mark m =>
        cases m with
        | messageBegin => cases last
        | method name => cases last
        | headersComplete n chunked => cases last
        | messageComplete keepAlive =>
          cases opened : d.opened with
          | false =>
            refine absurd ?_ turn
            simp only [Draft.on, opened]
            rfl
          | true =>
            cases method : d.method with
            | none =>
              refine absurd ?_ turn
              simp only [Draft.on, opened, method]
              rfl
            | some m =>
              have ruled : d.on env.cfg.maxBody (.mark (.messageComplete keepAlive)) = .error (d.complete m) := by
                simp only [Draft.on, opened, method]
              have arena : (onMessageComplete env x keepAlive).1.c.arena.Served := by
                split at served <;> exact served
              have event : onEvent env x (.mark (.messageComplete keepAlive)) = onMessageComplete env x keepAlive := rfl
              rw [ruled, event]
              change Concludes env _ _ x _ (.error _)
              obtain ⟨a, o, st, ran, bad, ruling⟩ | ⟨k, hk, y, a, o, r, ran, ruling, id, srv, made⟩ :=
                onMessageComplete_rules hl h opened method keepAlive arena
              · rw [ran, if_neg Bool.false_ne_true]
                refine .inl ⟨rfl, ?_, rfl⟩
                rw [ruling]
                exact congrArg Ruling.rejected (if_pos bad).symm
              · rw [ran, if_pos rfl]
                have place : (y.id, y.srv.pool) = (x.id, x.srv.pool) := by
                  rw [id, srv]
                  rfl
                refine .inr ⟨k, r, keepAlive, y, ?_, place, rfl, ruling, List.mem_cons_self⟩
                refine ⟨made ▸ hl.of_eq rfl, ?_, ?_, ?_, ?_, ?_, ?_, ?_⟩
                all_goals rw [made]
                · exact hk
                · exact .inl rfl
                · exact ⟨rfl, h.clean⟩

end Callbacks

end Cerco.DraftCallbacks
