import Cerco.ConnMoves
import Cerco.HeaderFrames
import Cerco.DispatchOutcome

set_option autoImplicit false

/-!
# The limits of a head

`req_finish_headers` looks at the pair that it moves and at the number of pairs; the bytes of a
head are not added up, and a name that two reads bring is taken for two. A run is watched with
the head that the parser has reported so far on each connection.
-/
namespace Cerco.HeaderLimits
open Cerco.Alloc Cerco.CString Cerco.Request Cerco.Response Cerco.Connection Cerco.Dispatch Cerco.HttpCallbacks
open Cerco.Server Cerco.WorkerPool Cerco.TransitionRuns Cerco.SpanParser Cerco.ArenaUse Cerco.ConnFrames
open Cerco.ServerRules Cerco.CloseFlags Cerco.Callbacks Cerco.Books Cerco.ConnMoves Cerco.DispatchOutcome
open Cerco.HeaderFrames Cerco.RequestGrammar

variable {σ : Type}

def headerBytes (hs : List (Bytes × Bytes)) : ℕ := (hs.map fun h => h.1.length + h.2.length).sum

/-- The documented limits of the headers of a request. -/
structure Within (hs : List (Bytes × Bytes)) : Prop where
  count : hs.length ≤ maxHeaders
  pairs : ∀ h ∈ hs, h.1.length ≤ maxName ∧ h.2.length ≤ maxValue
  total : headerBytes hs ≤ maxHeaderBytes

instance (hs : List (Bytes × Bytes)) : Decidable (Within hs) :=
  decidable_of_iff (hs.length ≤ maxHeaders ∧ (∀ h ∈ hs, h.1.length ≤ maxName ∧ h.2.length ≤ maxValue) ∧
    headerBytes hs ≤ maxHeaderBytes) ⟨fun h => ⟨h.1, h.2.1, h.2.2⟩, fun h => ⟨h.count, h.pairs, h.total⟩⟩

theorem headerBytes_append (a b : List (Bytes × Bytes)) : headerBytes (a ++ b) = headerBytes a + headerBytes b := by
  unfold headerBytes
  rw [List.map_append, List.sum_append]

theorem headerBytes_single (name value : Bytes) : headerBytes [(name, value)] = name.length + value.length := by
  simp [headerBytes]

/-- The bytes of the pairs taken down for the request at hand and of the staged one. -/
def load (c : Conn σ) : ℕ :=
  (match c.req with
    | none => 0
    | some k => headerBytes (c.objs k).headers) + c.stage.fSb.length + c.stage.vSb.length

def roomFor (c : Conn σ) : HttpEvent → Prop
  | .span .field s => load c + s.length ≤ maxHeaderBytes
  | .span .value s => load c + s.length ≤ maxHeaderBytes
  | _ => True

instance (c : Conn σ) (ev : HttpEvent) : Decidable (roomFor c ev) :=
  match ev with
  | .span .field _ => inferInstanceAs (Decidable (_ ≤ _))
  | .span .value _ => inferInstanceAs (Decidable (_ ≤ _))
  | .span .url _ => .isTrue trivial
  | .span .body _ => .isTrue trivial
  | .mark _ => .isTrue trivial
  | .fail _ => .isTrue trivial

/-- The pairs taken down are within the limits, and so were those of the requests that were dispatched. -/
structure Limited (c : Conn σ) : Prop where
  counts : ∀ k, (c.objs k).headers.length ≤ maxHeaders
  pairs : ∀ k, ∀ h ∈ (c.objs k).headers, h.1.length ≤ maxName ∧ h.2.length ≤ maxValue
  field : c.stage.fSb.length ≤ maxName
  value : c.stage.vSb.length ≤ maxValue
  load : load c ≤ maxHeaderBytes
  noted : ∀ k r, .dispatched k r ∈ c.trace → Within r.headers

section Limited
variable {env : Env σ} {c d : Conn σ} {x y : Ctx σ}

theorem load_eq {k : ℕ} (h : c.req = some k) :
    load c = headerBytes (c.objs k).headers + c.stage.fSb.length + c.stage.vSb.length := by
  rw [load, h]

theorem carried_load (h : Carried c d) : load d ≤ load c := by
  have taken : (match d.req with
      | none => 0
      | some k => headerBytes (d.objs k).headers) ≤
      match c.req with
      | none => 0
      | some k => headerBytes (c.objs k).headers := by
    obtain same | gone := h.req
    · rw [same]
      split
      · exact Nat.le_refl _
      · rw [h.headers]
    · rw [gone]
      exact Nat.zero_le _
  unfold load
  obtain same | gone := h.staged
  · obtain ⟨field, value⟩ := Prod.mk.inj same
    rw [field, value]
    omega
  · obtain ⟨field, value⟩ := Prod.mk.inj gone
    rw [field, value]
    exact (Nat.le_trans taken (Nat.le_add_right _ _)).trans (Nat.le_add_right _ _)

theorem carried_limited (h : Carried c d) (limited : Limited c) : Limited d := by
  have staged : d.stage.fSb.length ≤ c.stage.fSb.length ∧ d.stage.vSb.length ≤ c.stage.vSb.length := by
    obtain same | gone := h.staged
    · obtain ⟨field, value⟩ := Prod.mk.inj same
      rw [field, value]
      exact ⟨Nat.le_refl _, Nat.le_refl _⟩
    · obtain ⟨field, value⟩ := Prod.mk.inj gone
      rw [field, value]
      exact ⟨Nat.zero_le _, Nat.zero_le _⟩
  refine ⟨fun k => ?_, fun k => ?_, staged.1.trans limited.field, staged.2.trans limited.value,
    (carried_load h).trans limited.load, fun k r hr => ?_⟩
  · rw [h.headers]
    exact limited.counts k
  · rw [h.headers]
    exact limited.pairs k
  · obtain ⟨new, trace, mute⟩ := h.trace
    rw [trace] at hr
    obtain old | new := List.mem_append.mp hr
    · exact limited.noted k r old
    · cases mute _ new

theorem arenaStrndup_some {a : Arena} {s t : Bytes} (h : (arenaStrndup a s).1 = some t) : t = s := by
  unfold arenaStrndup at h
  split at h
  · exact (Option.some.inj h).symm
  · cases h

/-- The staged pair is in the list of request `k`. -/
def committed (c : Conn σ) (k : ℕ) (a : Arena) : Conn σ :=
  { c with
    arena := a
    objs := Function.update c.objs k { c.objs k with
      headers := (c.objs k).headers ++ [(c.stage.fSb, c.stage.vSb)] }
    stage := { c.stage with fSb := [], vSb := [] } }

theorem committed_headers (c : Conn σ) (k : ℕ) (a : Arena) (j : ℕ) : ((committed c k a).objs j).headers =
    if j = k then (c.objs k).headers ++ [(c.stage.fSb, c.stage.vSb)] else (c.objs j).headers := by
  unfold committed
  dsimp only
  rw [Function.update_apply]
  split <;> rfl

theorem committed_load {k : ℕ} (hk : c.req = some k) (a : Arena) : load (committed c k a) = load c := by
  rw [load_eq hk, load_eq (c := committed c k a) hk, committed_headers, if_pos rfl, headerBytes_append,
    headerBytes_single]
  exact (Nat.add_assoc _ _ _).symm

/-- A pair that is moved is within its limits; otherwise it stays, or the code for headers is set. -/
theorem reqFinishHeaders_cases (c : Conn σ) :
    (c.stage.fSb = [] ∨ c.req = none) ∧ reqFinishHeaders c = c ∨
    (∃ k ∈ c.req, c.stage.fSb ≠ [] ∧ (maxHeaders ≤ (c.objs k).headers.length ∨ maxName < c.stage.fSb.length ∨
      maxValue < c.stage.vSb.length ∨
      maxHeaderBytes < c.stage.fSb.length + c.stage.vSb.length + (c.objs k).headers.length * 2)) ∧
      reqFinishHeaders c = { c with stage := { c.stage with badRequest := 431 } } ∨
    ∃ k ∈ c.req, (c.objs k).headers.length < maxHeaders ∧ c.stage.fSb.length ≤ maxName ∧
      c.stage.vSb.length ≤ maxValue ∧ ∃ a, reqFinishHeaders c = { c with arena := a } ∨
        reqFinishHeaders c = committed c k a := by
  unfold reqFinishHeaders
  cases hk : c.req with
  | none => exact .inl ⟨.inr rfl, rfl⟩
  | some k =>
    dsimp only
    by_cases empty : c.stage.fSb.length = 0
    · rw [if_pos empty]
      exact .inl ⟨.inl (List.length_eq_zero_iff.mp empty), rfl⟩
    · have named : c.stage.fSb ≠ [] := fun none => empty (by rw [none]; rfl)
      rw [if_neg empty]
      by_cases full : maxHeaders ≤ (c.objs k).headers.length
      · rw [if_pos full]
        exact .inr (.inl ⟨⟨k, rfl, named, .inl full⟩, rfl⟩)
      · rw [if_neg full]
        split
        · rename_i long
          exact .inr (.inl ⟨⟨k, rfl, named, .inr long⟩, rfl⟩)
        · rename_i fits
          simp only [not_or, Nat.not_lt] at fits
          refine .inr (.inr ⟨k, rfl, Nat.lt_of_not_le full, fits.1, fits.2.1, ?_⟩)
          split
          · rename_i name value named valued
            rw [arenaStrndup_some named, arenaStrndup_some valued]
            refine ⟨(arenaStrndup (arenaStrndup c.arena c.stage.fSb).2 c.stage.vSb).2, .inr ?_⟩
            rw [committed, hk]
          · exact ⟨_, .inl rfl⟩

theorem reqFinishHeaders_limited (limited : Limited c) :
    Limited (reqFinishHeaders c) ∧ load (reqFinishHeaders c) ≤ load c := by
  have still {d : Conn σ} (h : Carried c d) : Limited d ∧ load d ≤ load c := ⟨carried_limited h limited, carried_load h⟩
  obtain ⟨_, e⟩ | ⟨_, e⟩ | ⟨k, hk, few, named, valued, a, e | e⟩ := reqFinishHeaders_cases c <;> rw [e]
  · exact still (.refl c)
  · exact still (.of_eq rfl)
  · exact still (.of_eq rfl)
  · have same := committed_load hk a
    refine ⟨⟨fun j => ?_, fun j h hh => ?_, Nat.zero_le _, Nat.zero_le _, same.le.trans limited.load, limited.noted⟩,
      same.le⟩
    · rw [committed_headers]
      split
      · rw [List.length_append]
        exact few
      · exact limited.counts j
    · rw [committed_headers] at hh
      split at hh
      · obtain old | new := List.mem_append.mp hh
        · exact limited.pairs k h old
        · rw [List.mem_singleton.mp new]
          exact ⟨named, valued⟩
      · exact limited.pairs j h hh

theorem freshConn_limited (env : Env σ) (i now : ℕ) : Limited (freshConn env i now) :=
  ⟨fun _ => Nat.zero_le _, fun _ _ h => (nomatch h), Nat.zero_le _, Nat.zero_le _, Nat.zero_le _,
    fun _ _ h => (nomatch h)⟩

theorem staged_limited {st : Staging} (limited : Limited c) (field : st.fSb.length ≤ maxName)
    (value : st.vSb.length ≤ maxValue)
    (room : load c + (st.fSb.length + st.vSb.length) ≤ maxHeaderBytes + (c.stage.fSb.length + c.stage.vSb.length)) :
    Limited { c with stage := st } := by
  refine ⟨limited.counts, limited.pairs, field, value, ?_, limited.noted⟩
  unfold load at room ⊢
  dsimp only
  omega

theorem onHeaderField_limited (limited : Limited c) {s : Bytes} (room : load c + s.length ≤ maxHeaderBytes) :
    Limited (onHeaderField c s).1 := by
  have closed : Limited (if c.stage.fSb ≠ [] ∨ c.stage.vSb ≠ [] then reqFinishHeaders c else c) ∧
      load (if c.stage.fSb ≠ [] ∨ c.stage.vSb ≠ [] then reqFinishHeaders c else c) ≤ load c := by
    split
    · exact reqFinishHeaders_limited limited
    · exact ⟨limited, Nat.le_refl _⟩
  unfold onHeaderField
  split
  · exact limited
  · dsimp only
    generalize (if c.stage.fSb ≠ [] ∨ c.stage.vSb ≠ [] then reqFinishHeaders c else c) = d at closed ⊢
    obtain ⟨taken, less⟩ := closed
    split
    · exact taken
    · split
      · exact carried_limited (c := d) (.of_eq rfl) taken
      · rename_i short
        refine staged_limited taken ?_ taken.value ?_
        · rw [List.length_append]
          exact Nat.le_of_not_lt short
        · dsimp only
          rw [List.length_append]
          omega

theorem onHeaderValue_limited (limited : Limited c) {s : Bytes} (room : load c + s.length ≤ maxHeaderBytes) :
    Limited (onHeaderValue c s).1 := by
  unfold onHeaderValue
  split
  · exact limited
  · split
    · exact carried_limited (c := c) (.of_eq rfl) limited
    · rename_i short
      refine staged_limited limited limited.field ?_ ?_
      · rw [List.length_append]
        exact Nat.le_of_not_lt short
      · dsimp only
        rw [List.length_append]
        omega

theorem bodyBuffer_carried (c : Conn σ) (k n : ℕ) : Carried c (bodyBuffer c k n).1 := by
  unfold bodyBuffer
  split
  · exact .of_update rfl rfl rfl
  · exact .of_update rfl rfl rfl

theorem onHeadersComplete_limited (limited : Limited x.c) (env : Env σ) (n : ℕ) (chunked : Bool) :
    Limited (onHeadersComplete env x n chunked).1.c := by
  have taken := (reqFinishHeaders_limited limited).1
  unfold onHeadersComplete
  split
  · exact limited
  · dsimp only
    split
    · exact taken
    · split
      · exact taken
      · rename_i k _
        split
        · exact carried_limited (c := reqFinishHeaders x.c) (.of_eq rfl) taken
        · have buffered : Limited (if 0 < n then bodyBuffer (reqFinishHeaders x.c) k n
              else if chunked = true then bodyBuffer (reqFinishHeaders x.c) k 4096
              else (reqFinishHeaders x.c, true)).1 := by
            split
            · exact carried_limited (bodyBuffer_carried _ _ _) taken
            · split
              · exact carried_limited (bodyBuffer_carried _ _ _) taken
              · exact taken
          split <;> rename_i h <;> rw [h] at buffered
          · exact buffered
          · rename_i c
            exact carried_limited (c := c) (.of_eq rfl) buffered

theorem onBody_carried (env : Env σ) (c : Conn σ) (s : Bytes) : Carried c (onBody env c s).1 := by
  unfold onBody
  split
  · exact .refl c
  · dsimp only
    split
    · exact .of_eq rfl
    · split
      · split
        · exact .of_eq rfl
        · exact .of_update rfl rfl rfl
      · exact .of_update rfl rfl rfl

theorem onMessageBegin_limited (limited : Limited x.c) (env : Env σ) : Limited (onMessageBegin env x).1.c := by
  unfold onMessageBegin
  split
  · exact carried_limited (c := x.c) (.of_eq rfl) limited
  · dsimp only
    split
    · exact carried_limited (c := x.c) (.of_eq rfl) limited
    · have fresh (j : ℕ) : (Function.update x.c.objs x.c.nObjs (reqSetup x.id) j).headers = [] ∨
          (Function.update x.c.objs x.c.nObjs (reqSetup x.id) j).headers = (x.c.objs j).headers := by
        rw [Function.update_apply]
        split
        · exact .inl rfl
        · exact .inr rfl
      refine ⟨fun j => ?_, fun j h hh => ?_, limited.field, limited.value, ?_, limited.noted⟩
      · obtain e | e := fresh j <;> dsimp only <;> rw [e]
        · exact Nat.zero_le _
        · exact limited.counts j
      · dsimp only at hh
        obtain e | e := fresh j <;> rw [e] at hh
        · cases hh
        · exact limited.pairs j h hh
      · have less := limited.load
        unfold load at less ⊢
        dsimp only
        rw [Function.update_self]
        change 0 + _ + _ ≤ _
        omega

theorem reqTargetPath_headers (a : Arena) (r : Req) : (reqTargetPath a r).2.2.headers = r.headers := by
  unfold reqTargetPath
  split
  · rfl
  · dsimp only
    generalize (if (targetPart (cstr (r.target.getD [slash])) _).length = 0 then [slash] else _) = part
    split
    · rfl
    · split
      · rfl
      · split
        · rfl
        · split
          · split
            · rfl
            · split <;> rfl
          · rfl

theorem completeReq_carried (c : Conn σ) : Carried c (completeReq c).1 := by
  unfold completeReq
  split
  · exact .refl c
  · exact .of_update rfl (reqTargetPath_headers _ _) rfl

theorem connRequestDispatch_limited (limited : Limited x.c) (env : Env σ) :
    Limited (connRequestDispatch env x).c := by
  unfold connRequestDispatch
  split
  · exact limited
  · rename_i k hk
    split
    · exact limited
    · have total : headerBytes (x.c.objs k).headers ≤ maxHeaderBytes := by
        have less := limited.load
        rw [load_eq hk] at less
        omega
      refine carried_limited (dispatchReq_carried env _ k) ⟨limited.counts, limited.pairs, limited.field, limited.value,
        limited.load, fun j r hr => ?_⟩
      obtain old | new := List.mem_append.mp hr
      · exact limited.noted j r old
      · cases List.mem_singleton.mp new
        exact ⟨limited.counts k, limited.pairs k, total⟩

theorem onMessageComplete_limited (limited : Limited x.c) (env : Env σ) (keepAlive : Bool) :
    Limited (onMessageComplete env x keepAlive).1.c := by
  have stored : Carried x.c (told x keepAlive) := .of_eq rfl
  have taken := carried_limited (stored.trans (completeReq_carried _)) limited
  generalize hd : completeReq (told x keepAlive) = done at taken
  obtain ⟨c, code⟩ := done
  obtain ⟨_, e⟩ | ⟨_, z, rfl, e⟩ := onMessageComplete_cases env x keepAlive hd <;> rw [e]
  · exact carried_limited (c := c) (.of_eq rfl) taken
  · have answered := connRequestDispatch_limited (x := counted x c) taken env
    exact carried_limited (c := (connRequestDispatch env (counted x c)).c) (.of_eq rfl) answered

theorem onUrl_carried (c : Conn σ) (s : Bytes) : Carried c (onUrl c s).1 := by
  unfold onUrl
  split
  · exact .of_eq rfl
  · exact .of_eq rfl

theorem onEvent_limited (limited : Limited x.c) (env : Env σ) (ev : HttpEvent) (room : roomFor x.c ev) :
    Limited (onEvent env x ev).1.c := by
  cases ev with
  | span k s =>
    cases k with
    | url => exact carried_limited (onUrl_carried x.c s) limited
    | field => exact onHeaderField_limited limited room
    | value => exact onHeaderValue_limited limited room
    | body => exact carried_limited (onBody_carried env x.c s) limited
  | mark m =>
    cases m with
    | messageBegin => exact onMessageBegin_limited limited env
    | method name => exact carried_limited (c := x.c) (.of_eq rfl) limited
    | headersComplete n chunked => exact onHeadersComplete_limited limited env n chunked
    | messageComplete keepAlive => exact onMessageComplete_limited limited env keepAlive
  | fail e => exact limited

/-- The last check of `req_finish_headers` looks at one pair, and no pair within its own limits reaches it. -/
theorem total_check_idle {k : ℕ} (few : (c.objs k).headers.length < maxHeaders) (field : c.stage.fSb.length ≤ maxName)
    (value : c.stage.vSb.length ≤ maxValue) :
    ¬ maxHeaderBytes < c.stage.fSb.length + c.stage.vSb.length + (c.objs k).headers.length * 2 := by
  unfold maxHeaders at few
  unfold maxName at field
  unfold maxValue at value
  unfold maxHeaderBytes
  omega

end Limited

structure Follows (c d : Conn σ) : Prop where
  trace : c.trace <+: d.trace
  closing : c.closing = true → d.closing = true
  limited : Limited c → Limited d

def Leads (x y : Ctx σ) : Prop := Follows x.c y.c

section Steps
variable {env : Env σ} {x y z : Ctx σ}

theorem carried_leads (h : Carried x.c y.c) : Leads x y := by
  obtain ⟨new, trace, _⟩ := h.trace
  exact ⟨⟨new, trace.symm⟩, h.closing, carried_limited h⟩

theorem Follows.refl (c : Conn σ) : Follows c c := ⟨List.prefix_rfl, id, id⟩

theorem Follows.trans {c d e : Conn σ} (h₁ : Follows c d) (h₂ : Follows d e) : Follows c e :=
  ⟨h₁.trace.trans h₂.trace, h₂.closing ∘ h₁.closing, h₂.limited ∘ h₁.limited⟩

theorem rejectRequest_leads (env : Env σ) (x : Ctx σ) (code : ℕ) (reason : Bytes) :
    Leads x (rejectRequest env x code reason) := by
  let z : Ctx σ := { x with c := { x.c with forceClose := true, trace := x.c.trace ++ [.rejected code] } }
  have noted : Carried x.c z.c := .note rfl rfl rfl
  exact carried_leads (noted.trans (connSendSimple_carried env z code none reason true))

theorem quiet_leads (env : Env σ) : QuietRules env Leads Leads where
  refl x := .refl x.c
  trans _ _ _ h₁ h₂ := Follows.trans h₁ h₂
  whole _ _ h := h
  ends _ _ _ h₁ h₂ := Follows.trans h₁ h₂
  buffer _ _ _ _ := carried_leads (.of_eq rfl)
  receive _ _ := carried_leads (.of_eq rfl)
  rearm _ _ _ _ := carried_leads (.of_none rfl rfl)
  restart _ _ _ _ := carried_leads (.of_eq rfl)
  shed _ _ _ := carried_leads (.of_none rfl rfl)
  cancel x _ := carried_leads ((cancelReq_carried x.c).trans (.of_eq rfl))
  close x _ := carried_leads (connCloseAndFree_carried x)
  graceful x _ _ := carried_leads (connCloseGraceful_carried x)

theorem parse_leads (env : Env σ) : ParseRules env (fun x ev => roomFor x.c ev) Leads where
  refl x := .refl x.c
  trans _ _ _ h₁ h₂ := Follows.trans h₁ h₂
  buffer _ _ _ _ := carried_leads (.of_eq rfl)
  event _ ev hl room :=
    have loose := onEvent_loose hl env ev
    ⟨loose.trace, loose.closing, fun limited => onEvent_limited limited env ev room⟩
  reject x code reason _ _ := rejectRequest_leads env x code reason

theorem reported_leads (x : Ctx σ) (kind : WriteKind) : Leads x (reported x kind) := by
  refine carried_leads ?_
  cases kind with
  | response k =>
    unfold reported
    dsimp only
    split <;> exact .of_eq rfl
  | simple => exact .of_eq rfl
  | sse => exact .of_eq rfl

/-- No step takes a header piece that there is no room for. -/
def Roomy (env : Env σ) (s : Srv σ) (a : Step) : Prop := ∀ p ∈ stepCalls env s a, roomFor p.1.c p.2

instance (env : Env σ) (s : Srv σ) (a : Step) : Decidable (Roomy env s a) :=
  inferInstanceAs (Decidable (∀ p ∈ stepCalls env s a, roomFor p.1.c p.2))

theorem moves_follow (env : Env σ) :
    MoveRules env (fun s => ∀ i, Linked (s.conns i)) (Roomy env) (fun _ c _ d => Follows c d) where
  linked _ known := known
  refl _ _ := .refl _
  trans _ _ _ _ _ _ h₁ h₂ := h₁.trans h₂
  others _ _ _ _ _ _ := .refl _
  read s i data room x known roomy hx := (quiet_leads env).onRead (parse_leads env) (known i) hx roomy
  readEnd x hl := (quiet_leads env).readEnd hl
  written s i ok w rest known roomy hw :=
    Follows.trans (reported_leads (s.enter i) w.kind) ((quiet_leads env).onWrite (parse_leads env) ok (known i) hw roomy)
  closed x _ _ _ _ := by
    have reported : Leads x { x with c := { x.c with closeCbDone := true } } := carried_leads (.of_eq rfl)
    exact Follows.trans reported (carried_leads (connMaybeFinalize_carried _))
  deadline x hl := (quiet_leads env).deadline hl
  shutdown x hl := (quiet_leads env).shutdown hl
  reload x _ := by
    unfold reloadConn
    split
    · exact Follows.refl x.c
    · exact carried_leads (connSseWrite_carried env x _)
  handler x k calls := carried_leads (withReq_carried x k (handlerRun_headers calls))
  drain s ref q _ _ := carried_leads (drainReq_carried env _ ref.req)

end Steps

end Cerco.HeaderLimits
