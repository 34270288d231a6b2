import Cerco.Responders
import Cerco.ServerRules

set_option autoImplicit false

/-!
# The flags that close a connection

A connection is `Bound` when a response that starts now says close. `Firm` is what every
callback has to keep: a bound connection stays bound, what is written on it says close,
and a reply that says close leaves it bound. Requests answered without a look at the flags
break this; `Heeded` says when they do not.
-/
namespace Cerco.CloseFlags
open Cerco.Alloc Cerco.CString Cerco.HeadText Cerco.Request Cerco.Response Cerco.Connection Cerco.Dispatch
open Cerco.HttpCallbacks Cerco.Server Cerco.ConnFrames Cerco.ServerRules Cerco.Responders

variable {σ : Type}

/-- The server closed the connection, or its own side of it. -/
def Shut (c : Conn σ) : Prop := c.closing = true ∨ c.writable = false

/-- `c->force_close || !c->keep_alive` -/
def closeFlag (c : Conn σ) : Bool := c.forceClose || !c.keepAlive

def Bound (c : Conn σ) : Prop := closeFlag c = true ∨ Shut c

instance (c : Conn σ) : Decidable (Shut c) := inferInstanceAs (Decidable (_ ∨ _))

/-- The replies among the events of a connection. -/
def replies (events : List ConnEvent) : List (WriteKind × Reply) :=
  events.filterMap fun
    | .wrote ⟨kind, .reply w⟩ => some (kind, w)
    | _ => none

theorem replies_append (a b : List ConnEvent) : replies (a ++ b) = replies a ++ replies b :=
  List.filterMap_append

/-- What was written from `c` on fits a connection that ends as `d`. -/
structure Firm (c d : Conn σ) : Prop where
  shut : Shut c → Shut d
  bound : Bound c → Bound d
  wrote : ∃ new, d.trace = c.trace ++ new ∧
    (∀ p ∈ replies new, (saysClose p.2 = true → Bound d ∧ p.1 ≠ .sse) ∧
      (Bound c → saysClose p.2 = true)) ∧
    ∀ w ∈ d.writes, w ∈ c.writes ∨ .wrote w ∈ new

theorem Firm.silent {c d : Conn σ} (shut : Shut c → Shut d) (bound : Bound c → Bound d)
    (trace : d.trace = c.trace) (writes : ∀ w ∈ d.writes, w ∈ c.writes) : Firm c d :=
  ⟨shut, bound, [], by rw [trace, List.append_nil], fun _ h => (by cases h), fun w hw => .inl (writes w hw)⟩

theorem Firm.of_eq {c d : Conn σ} (flags : (d.closing, d.writable, d.forceClose, d.keepAlive) =
      (c.closing, c.writable, c.forceClose, c.keepAlive))
    (written : (d.trace, d.writes) = (c.trace, c.writes)) : Firm c d := by
  simp only [Prod.mk.injEq] at flags written
  obtain ⟨closing, writable, force, keep⟩ := flags
  have shut : Shut d ↔ Shut c := by rw [Shut, Shut, closing, writable]
  refine .silent shut.mpr ?_ written.1 fun w hw => written.2 ▸ hw
  rw [Bound, Bound, closeFlag, closeFlag, force, keep, shut]
  exact id

theorem Firm.refl (c : Conn σ) : Firm c c := .of_eq rfl rfl

theorem Firm.trans {c d e : Conn σ} (h₁ : Firm c d) (h₂ : Firm d e) : Firm c e := by
  obtain ⟨first, e₁, fit₁, writes₁⟩ := h₁.wrote
  obtain ⟨then_, e₂, fit₂, writes₂⟩ := h₂.wrote
  refine ⟨h₂.shut ∘ h₁.shut, h₂.bound ∘ h₁.bound, first ++ then_, by rw [e₂, e₁, List.append_assoc],
    fun p hp => ?_, fun w hw => ?_⟩
  · rw [replies_append] at hp
    obtain hp | hp := List.mem_append.mp hp
    · exact ⟨fun h => ⟨h₂.bound ((fit₁ p hp).1 h).1, ((fit₁ p hp).1 h).2⟩, (fit₁ p hp).2⟩
    · exact ⟨(fit₂ p hp).1, (fit₂ p hp).2 ∘ h₁.bound⟩
  · obtain hw | hw := writes₂ w hw
    · exact (writes₁ w hw).imp_right (List.mem_append_left _)
    · exact .inr (List.mem_append_right _ hw)

/-- Whatever reply said close, its connection is bound; every queued write is among the events. -/
structure Honest (c : Conn σ) : Prop where
  bound : ∀ p ∈ replies c.trace, saysClose p.2 = true → Bound c ∧ p.1 ≠ .sse
  queued : ∀ w ∈ c.writes, .wrote w ∈ c.trace

theorem Firm.honest {c d : Conn σ} (firm : Firm c d) (h : Honest c) : Honest d := by
  obtain ⟨new, trace, fit, writes⟩ := firm.wrote
  refine ⟨fun p hp closes => ?_, fun w hw => ?_⟩
  · rw [trace, replies_append] at hp
    obtain hp | hp := List.mem_append.mp hp
    · exact ⟨firm.bound (h.bound p hp closes).1, (h.bound p hp closes).2⟩
    · exact (fit p hp).1 closes
  · rw [trace]
    obtain hw | hw := writes w hw
    · exact List.mem_append_left _ (h.queued w hw)
    · exact List.mem_append_right _ hw

theorem connCloseAndFree_firm {x : Ctx σ} (hl : Linked x.c) : Firm x.c (connCloseAndFree x).c := by
  cases h : x.c.closing with
  | true =>
    rw [connCloseAndFree_closing h]
    exact .refl _
  | false =>
    obtain ⟨o, clients, st, e⟩ := connCloseAndFree_open hl h
    rw [e]
    exact .silent (fun _ => .inl rfl) (fun _ => .inr (.inl rfl)) rfl fun w hw => hw

theorem connCloseGraceful_firm (x : Ctx σ) : Firm x.c (connCloseGraceful x).c := by
  unfold connCloseGraceful
  split
  · exact .refl _
  · exact .silent (fun _ => .inr rfl) (fun _ => .inr (.inr rfl)) rfl fun w hw => hw

theorem writeRes_open {env : Env σ} {x : Ctx σ} (hl : Linked x.c) (h : writeRes env x = .ok) :
    ¬ Shut x.c := by
  unfold writeRes at h
  split at h
  · split at h
    · rename_i usable
      rw [hl.queued, Bool.and_eq_true, Bool.not_eq_true'] at usable
      rintro (closing | writable)
      · rw [closing] at usable
        cases usable.2
      · rw [writable] at usable
        cases usable.1
    · cases h
  · rename_i other
    exact absurd h other

theorem uvWrite_firm {x : Ctx σ} (hl : Linked x.c) {res : WriteRes} (w : WriteCtx)
    (fit : res = .ok → ∀ p ∈ replies [.wrote w], (saysClose p.2 = true → Bound x.c ∧ p.1 ≠ .sse) ∧
      (Bound x.c → saysClose p.2 = true)) : Firm x.c (uvWrite x res w).c := by
  unfold uvWrite
  split
  · rename_i done
    refine ⟨id, id, [.wrote w], rfl, fit done, fun v hv => ?_⟩
    exact (List.mem_append.mp hv).imp_right fun h => List.mem_singleton.mpr (by rw [List.mem_singleton.mp h])
  · exact connCloseAndFree_firm hl

/-- Own headers stay on their lines, and those named Connection agree with the flags. -/
def Agrees (r : Req) (close : Bool) : Prop :=
  OneLine r ∧ (ownClose r = true → close = true) ∧ (close = true → ownConnection r = true → ownClose r = true)

instance (r : Req) (close : Bool) : Decidable (Agrees r close) := inferInstanceAs (Decidable (_ ∧ _))

theorem startReply_agrees {r : Req} {close : Bool} (h : Agrees r close) (isHead : Bool) :
    saysClose (startReply r isHead close) = close := by
  obtain ⟨one, only, due⟩ := h
  rw [startReply_saysClose one]
  cases own : ownClose r <;> cases conn : ownConnection r <;> cases close <;> simp_all

theorem SameOwn.agrees {plain : Prop} {r s : Req} {close : Bool} (same : SameOwn plain r s) (p : plain)
    (h : Agrees r close) : Agrees s close := by
  unfold Agrees
  rw [same.1, same.2.1]
  exact ⟨same.2.2 p h.1, h.2⟩

theorem connStartResponse_firm {x : Ctx σ} (hl : Linked x.c) (env : Env σ) {k : ℕ}
    (agrees : Shut x.c ∨ Agrees (x.c.objs k) (closeFlag x.c)) :
    Firm x.c (connStartResponse env x k).c := by
  have linked : Linked { x.c with
      phase := .write, deadline := x.srv.now + env.cfg.requestTimeoutMs } :=
    ⟨hl.queued, hl.closeCb, hl.finalized, hl.reading, hl.writes, by simp⟩
  have moved : Firm x.c { x.c with
      phase := .write, deadline := x.srv.now + env.cfg.requestTimeoutMs } := .of_eq rfl rfl
  unfold connStartResponse
  refine moved.trans ?_
  dsimp only
  generalize hy : Ctx.stat { x with c := { x.c with
      phase := .write, deadline := x.srv.now + env.cfg.requestTimeoutMs } } _ = y
  have same : y.c = { x.c with phase := .write, deadline := x.srv.now + env.cfg.requestTimeoutMs } := by
    rw [← hy]
    rfl
  rw [← same] at linked
  split
  · rw [← same]
    exact connCloseAndFree_firm (x := countWrite y) linked
  · rw [← same]
    refine uvWrite_firm (x := (countWrite y).stat _) linked _ fun done p hp => ?_
    have open_ : ¬ Shut y.c := writeRes_open linked done
    have agrees : Shut y.c ∨ Agrees (x.c.objs k) (closeFlag y.c) := by
      rw [same]
      exact agrees
    have told := startReply_agrees (agrees.resolve_left open_) (decide (y.c.parser.method = ascii "HEAD"))
    rw [List.mem_singleton.mp hp]
    change (saysClose (startReply _ _ (closeFlag y.c)) = true → Bound y.c ∧ WriteKind.response k ≠ .sse) ∧
      (Bound y.c → saysClose (startReply _ _ (closeFlag y.c)) = true)
    rw [told]
    exact ⟨fun h => ⟨.inl h, by simp⟩, fun h => h.resolve_right open_⟩

def Easy (c : Conn σ) : Prop := c.forceClose = false ∧ c.keepAlive = true

instance (c : Conn σ) : Decidable (Easy c) := inferInstanceAs (Decidable (_ ∧ _))

theorem Easy.not_bound {c : Conn σ} (easy : Easy c) (open_ : ¬ Shut c) : ¬ Bound c := by
  rintro (flag | shut)
  · rw [closeFlag, easy.1, easy.2] at flag
    cases flag
  · exact open_ shut

theorem connSendSimple_firm {x : Ctx σ} (hl : Linked x.c) (env : Env σ) (code : ℕ) {hdr : Option Bytes}
    (mute : hdr.toList.any closeLine = false) (free : ∀ l ∈ hdr.toList, l ≠ [] ∧ ¬ crlf <:+: l) (body : Bytes) {forceClose : Bool}
    (easy : forceClose = false → Shut x.c ∨ Easy x.c) :
    Firm x.c (connSendSimple env x code hdr body forceClose).c := by
  unfold connSendSimple
  dsimp only
  split
  · exact connCloseAndFree_firm (x := countWrite x) hl
  · generalize hy : (if 400 ≤ code then
      Ctx.stat ((countWrite x).stat _) fun s => { s with r4xx := s.r4xx + 1 } else _) = y
    have same : y.c = x.c := by
      rw [← hy]
      split <;> rfl
    rw [same]
    have linked : Linked { x.c with keepAlive := !forceClose, forceClose := forceClose, statusSent := true } :=
      hl.of_eq rfl
    have flags : Firm x.c { x.c with keepAlive := !forceClose, forceClose := forceClose, statusSent := true } := by
      cases forceClose with
      | true => exact .silent id (fun _ => .inl rfl) rfl fun w hw => hw
      | false =>
        refine .silent id (fun h => .inr ?_) rfl fun w hw => hw
        obtain shut | easy := easy rfl
        · exact shut
        · by_contra open_
          exact easy.not_bound open_ h
    refine flags.trans (uvWrite_firm (x := { y with c := { x.c with
      keepAlive := !forceClose, forceClose := forceClose, statusSent := true } }) linked _ fun done p hp => ?_)
    have open_ : ¬ Shut x.c := writeRes_open hl done
    rw [List.mem_singleton.mp hp]
    change (saysClose (simpleReply code hdr body forceClose) = true → Bound _ ∧ WriteKind.simple ≠ .sse) ∧
      (Bound _ → saysClose (simpleReply code hdr body forceClose) = true)
    rw [simpleReply_saysClose free, mute, Bool.false_or]
    refine ⟨fun h => ⟨.inl (by simp [closeFlag, h]), by simp⟩, fun h => ?_⟩
    simpa [closeFlag] using h.resolve_right open_

theorem liveHead_mute : saysClose liveHead = false := by
  have free : ∀ l ∈ liveHead.lines, l ≠ [] ∧ ¬ crlf <:+: l := by decide
  rw [saysClose, Reply.read_lines free]
  decide

theorem connSseWrite_firm {x : Ctx σ} (hl : Linked x.c) (env : Env σ) (data : Bytes) :
    Firm x.c (connSseWrite env x data).c := by
  unfold connSseWrite
  dsimp only
  split
  · exact connCloseAndFree_firm (x := countWrite x) hl
  · exact uvWrite_firm (x := countWrite x) hl _ fun _ p hp => (by cases hp)

theorem sendLiveSse_firm {x : Ctx σ} (hl : Linked x.c) (env : Env σ) (easy : Shut x.c ∨ Easy x.c) :
    Firm x.c (sendLiveSse env x).c := by
  have head : Firm x.c (uvWrite (countWrite x) (writeRes env x) ⟨.sse, .reply liveHead⟩).c := by
    refine uvWrite_firm (x := countWrite x) hl _ fun done p hp => ?_
    have open_ : ¬ Shut x.c := writeRes_open hl done
    rw [List.mem_singleton.mp hp]
    change (saysClose liveHead = true → _) ∧ (Bound x.c → saysClose liveHead = true)
    rw [liveHead_mute]
    exact ⟨fun h => (by cases h), fun h => absurd h ((easy.resolve_left open_).not_bound open_)⟩
  have linked := (uvWrite_kept (countWrite_kept hl).linked (writeRes env x) ⟨.sse, .reply liveHead⟩).linked
  unfold sendLiveSse
  dsimp only
  split
  · exact connCloseAndFree_firm (x := countWrite x) hl
  · split
    · have streaming : Firm _ (sseLink (uvWrite (countWrite x) (writeRes env x) ⟨.sse, .reply liveHead⟩)).c :=
        head.trans (.of_eq rfl rfl)
      have linked : Linked (sseLink (uvWrite (countWrite x) (writeRes env x) ⟨.sse, .reply liveHead⟩)).c :=
        linked.of_eq rfl
      exact streaming.trans (connSseWrite_firm linked env _)
    · exact head

def Suits (env : Env σ) (who : Responder) (r : Req) (c : Conn σ) : Prop :=
  match who with
  | .worker => True
  | .response => PlainAsset env (cstr (r.path.getD [])) ∧ Agrees r (closeFlag c)
  | .simple => Easy c

instance (env : Env σ) (who : Responder) (r : Req) (c : Conn σ) : Decidable (Suits env who r c) :=
  match who with
  | .worker => isTrue trivial
  | .response => inferInstanceAs (Decidable (_ ∧ _))
  | .simple => inferInstanceAs (Decidable (Easy c))

theorem Readied.firm {plain : Prop} {k : ℕ} {x y : Ctx σ} (h : Readied plain k x y) : Firm x.c y.c := by
  obtain ⟨⟨a, o, st, _, rfl⟩, _⟩ := h
  exact .of_eq rfl rfl

theorem Readied.agrees {env : Env σ} {k : ℕ} {x y : Ctx σ} (h : Readied (PlainFor env x k) k x y)
    (suits : Shut x.c ∨ Suits env .response (x.c.objs k) x.c) :
    Shut y.c ∨ Agrees (y.c.objs k) (closeFlag y.c) := by
  obtain ⟨⟨a, o, st, _, rfl⟩, own⟩ := h
  exact suits.imp id fun suits => SameOwn.agrees own suits.1 suits.2

theorem Readied.easy {plain : Prop} {k : ℕ} {x y : Ctx σ} (h : Readied plain k x y)
    (easy : Shut x.c ∨ Easy x.c) : Shut y.c ∨ Easy y.c := by
  obtain ⟨⟨a, o, st, _, rfl⟩, _⟩ := h
  exact easy

theorem dispatchReq_firm {x : Ctx σ} (hl : Linked x.c) (env : Env σ) (k : ℕ)
    (suits : Shut x.c ∨ Suits env (responder env x k) (x.c.objs k) x.c) : Firm x.c (dispatchReq env x k).c := by
  have answered := dispatchReq_responds env x k
  generalize responder env x k = who at suits answered
  generalize dispatchReq env x k = z at answered
  cases answered with
  | worker ready => exact (Readied.firm ready).trans (.of_eq rfl rfl)
  | response ready =>
    exact (Readied.firm ready).trans
      (connStartResponse_firm (prepared_kept ready.prepared hl).linked env (Readied.agrees ready suits))
  | simple ready code hdr body mute free =>
    exact (Readied.firm ready).trans
      (connSendSimple_firm (prepared_kept ready.prepared hl).linked env code mute free body
        fun _ => Readied.easy ready suits)
  | stream ready =>
    exact (Readied.firm ready).trans
      (sendLiveSse_firm (prepared_kept ready.prepared hl).linked env (Readied.easy ready suits))

def told (y : Ctx σ) (keepAlive : Bool) : Conn σ := { y.c with keepAlive := keepAlive }

/-- `on_message_complete` does not take back that the connection closes, and who answers looks at the
flags or need not. -/
def Heeded (env : Env σ) (y : Ctx σ) (keepAlive : Bool) : Prop :=
  Shut y.c ∨ (keepAlive = true → y.c.keepAlive = true ∨ y.c.forceClose = true) ∧
    ∀ k ∈ (completeReq (told y keepAlive)).1.req.toList,
      (completeReq (told y keepAlive)).2 = 0 ∧ (completeReq (told y keepAlive)).1.stage.badRequest = 0 →
        Suits env (responder env { y with c := (completeReq (told y keepAlive)).1 } k)
          ((completeReq (told y keepAlive)).1.objs k) (completeReq (told y keepAlive)).1

instance (env : Env σ) (y : Ctx σ) (keepAlive : Bool) : Decidable (Heeded env y keepAlive) :=
  inferInstanceAs (Decidable (_ ∨ _ ∧ _))

theorem Assembled.firm {c d : Conn σ} (h : Assembled c d) : Firm c d := by
  obtain ⟨a, o, st, _, rfl⟩ := h
  exact .of_eq rfl rfl

theorem Heeded.told_firm {env : Env σ} {y : Ctx σ} {keepAlive : Bool} (h : Heeded env y keepAlive) :
    Firm y.c (told y keepAlive) := by
  refine .silent id (fun bound => ?_) rfl fun w hw => hw
  obtain flag | shut := bound
  · obtain shut | ⟨keeps, _⟩ := h
    · exact .inr shut
    · refine .inl ?_
      unfold closeFlag at flag ⊢
      cases keepAlive with
      | false => simp [told]
      | true =>
        obtain keep | force := keeps rfl
        · rw [keep] at flag
          simpa [told] using flag
        · simp [told, force]
  · exact .inr shut

def counted (y : Ctx σ) (c : Conn σ) : Ctx σ :=
  Ctx.stat { y with c := c } fun s => { s with activeReqs := s.activeReqs + 1, totalReqs := s.totalReqs + 1 }

theorem onMessageComplete_cases (env : Env σ) (y : Ctx σ) (keepAlive : Bool) {c : Conn σ} {code : ℕ}
    (h : completeReq (told y keepAlive) = (c, code)) :
    code ≠ 0 ∧ onMessageComplete env y keepAlive = ({ y with c := badRequest code c }, false) ∨
    (code = 0 ∧ ∃ z, z = connRequestDispatch env (counted y c) ∧ onMessageComplete env y keepAlive =
      ({ z with c := { z.c with parser := llhttpPause z.c.parser } }, true)) := by
  unfold onMessageComplete
  rw [show completeReq { y.c with keepAlive := keepAlive } = (c, code) from h]
  dsimp only
  by_cases bad : code ≠ 0
  · rw [if_pos bad]
    exact .inl ⟨bad, rfl⟩
  · rw [if_neg bad]
    exact .inr ⟨not_not.mp bad, _, rfl, rfl⟩

theorem connRequestDispatch_firm {x : Ctx σ} (hl : Linked x.c) (env : Env σ)
    (suits : Shut x.c ∨ ∀ k, x.c.req = some k → x.c.stage.badRequest = 0 →
      Suits env (responder env x k) (x.c.objs k) x.c) : Firm x.c (connRequestDispatch env x).c := by
  unfold connRequestDispatch
  split
  · exact .refl _
  · rename_i k hk
    split
    · exact .refl _
    · rename_i fine
      have noted : Firm x.c { x.c with trace := x.c.trace ++ [.dispatched k (x.c.objs k)] } :=
        ⟨id, id, [.dispatched k (x.c.objs k)], rfl, fun p hp => (by cases hp), fun w hw => .inl hw⟩
      refine noted.trans (dispatchReq_firm (x := { x with c := { x.c with
        trace := x.c.trace ++ [.dispatched k (x.c.objs k)] } }) (hl.of_eq rfl) env k ?_)
      exact suits.imp id fun suits => suits k hk (not_not.mp fine)

theorem onMessageComplete_firm {y : Ctx σ} (hl : Linked y.c) (env : Env σ) {keepAlive : Bool}
    (h : Heeded env y keepAlive) : Firm (told y keepAlive) (onMessageComplete env y keepAlive).1.c := by
  have assembled := completeReq_assembled (told y keepAlive)
  have completed := Assembled.firm assembled
  have linked := assembled.linked (hl.of_eq rfl)
  unfold Heeded at h
  generalize hd : completeReq (told y keepAlive) = done at h completed linked
  obtain ⟨c, code⟩ := done
  obtain ⟨_, e⟩ | ⟨good, z, rfl, e⟩ := onMessageComplete_cases env y keepAlive hd <;> rw [e]
  · exact completed.trans (.of_eq rfl rfl)
  · have dispatched := connRequestDispatch_firm (x := counted y c) linked env (by
      refine h.imp completed.shut fun h k hk fine => h.2 k ?_ ⟨good, fine⟩
      rw [show c.req = some k from hk]
      exact List.mem_singleton_self k)
    exact completed.trans (dispatched.trans (.of_eq rfl rfl))

def completes : HttpEvent → Option Bool
  | .mark (.messageComplete keepAlive) => some keepAlive
  | _ => none

/-- The calls of `on_message_complete` while these events are reported. -/
def completions (env : Env σ) : List (ℕ × HttpEvent) → Ctx σ → List (Ctx σ × Bool)
  | [], _ => []
  | (_, ev) :: rest, x =>
    (completes ev).toList.map (fun keepAlive => (x, keepAlive)) ++
      if (onEvent env x ev).2 then completions env rest (onEvent env x ev).1 else []

theorem onMessageBegin_firm (env : Env σ) (x : Ctx σ) : Firm x.c (onMessageBegin env x).1.c := by
  unfold onMessageBegin
  split
  · exact .silent id (fun h => h.imp (fun _ => rfl) id) rfl fun w hw => hw
  · dsimp only
    split
    · exact .of_eq rfl rfl
    · exact .of_eq rfl rfl

theorem onHeadersComplete_firm (env : Env σ) (x : Ctx σ) (n : ℕ) (chunked : Bool) :
    Firm x.c (onHeadersComplete env x n chunked).1.c := by
  obtain ⟨d, assembled, e | e⟩ := onHeadersComplete_cases env x n chunked <;> rw [e]
  · exact Assembled.firm assembled
  · exact (Assembled.firm assembled).trans (.of_eq rfl rfl)

theorem onEvent_firm {x : Ctx σ} (hl : Linked x.c) (env : Env σ) (ev : HttpEvent)
    (h : ∀ keepAlive ∈ completes ev, Heeded env x keepAlive) : Firm x.c (onEvent env x ev).1.c := by
  cases ev with
  | span k s =>
    cases k with
    | url => exact Assembled.firm (onUrl_assembled x.c s)
    | field => exact Assembled.firm (onHeaderField_assembled x.c s)
    | value => exact Assembled.firm (onHeaderValue_assembled x.c s)
    | body => exact Assembled.firm (onBody_assembled env x.c s)
  | mark m =>
    cases m with
    | messageBegin => exact onMessageBegin_firm env x
    | method name => exact .of_eq rfl rfl
    | headersComplete n chunked => exact onHeadersComplete_firm env x n chunked
    | messageComplete keepAlive =>
      have heeded := h keepAlive rfl
      exact heeded.told_firm.trans (onMessageComplete_firm hl env heeded)
  | fail e => exact .refl _

theorem runEvents_cons (env : Env σ) (pos : ℕ) (ev : HttpEvent) (rest : List (ℕ × HttpEvent)) (x : Ctx σ) :
    runEvents env ((pos, ev) :: rest) x =
      if (onEvent env x ev).2 then runEvents env rest (onEvent env x ev).1
      else (stopParser (onEvent env x ev).1 (eventErrno ev) pos, false) := by
  rw [runEvents]
  split <;> rename_i h <;> rw [h]
  · rfl
  · rfl

theorem runEvents_firm {x : Ctx σ} (hl : Linked x.c) (env : Env σ) (evs : List (ℕ × HttpEvent))
    (h : ∀ p ∈ completions env evs x, Heeded env p.1 p.2) : Firm x.c (runEvents env evs x).1.c := by
  induction evs generalizing x with
  | nil => exact .refl _
  | cons ev rest ih =>
    obtain ⟨pos, ev⟩ := ev
    have first := onEvent_firm hl env ev fun keepAlive hk => h (x, keepAlive)
      (List.mem_append_left _ (List.mem_map.mpr ⟨keepAlive, Option.mem_toList.mpr hk, rfl⟩))
    have linked := (onEvent_loose hl env ev).linked
    rw [runEvents_cons]
    rw [completions] at h
    split
    · rename_i good
      rw [if_pos good] at h
      exact first.trans (ih linked fun p hp => h p (List.mem_append_right _ hp))
    · exact first.trans (.of_eq rfl rfl)

theorem runEvents_told {x y : Ctx σ} (hl : Linked x.c) (env : Env σ) {evs : List (ℕ × HttpEvent)}
    (h : ∀ p ∈ completions env evs x, Heeded env p.1 p.2) {keepAlive : Bool}
    (hy : (y, keepAlive) ∈ completions env evs x) : y.id = x.id ∧
      Firm (told y keepAlive) (runEvents env evs x).1.c := by
  induction evs generalizing x with
  | nil => cases hy
  | cons ev rest ih =>
    obtain ⟨pos, ev⟩ := ev
    have loose := onEvent_loose hl env ev
    rw [runEvents_cons]
    rw [completions] at h hy
    obtain now | later := List.mem_append.mp hy
    · obtain ⟨flag, hf, e⟩ := List.mem_map.mp now
      cases e
      have heeded := h _ (List.mem_append_left _ now)
      have rest_firm : Firm (onEvent env y ev).1.c (if (onEvent env y ev).2 then
          runEvents env rest (onEvent env y ev).1
          else (stopParser (onEvent env y ev).1 (eventErrno ev) pos, false)).1.c := by
        split
        · rename_i good
          rw [if_pos good] at h
          exact runEvents_firm loose.linked env rest fun p hp => h p (List.mem_append_right _ hp)
        · exact .of_eq rfl rfl
      refine ⟨rfl, Firm.trans ?_ rest_firm⟩
      obtain ⟨keeps, rfl⟩ : ∃ keeps, ev = .mark (.messageComplete keeps) := by
        cases ev with
        | mark m =>
          cases m with
          | messageComplete keeps => exact ⟨keeps, rfl⟩
          | messageBegin => cases hf
          | method name => cases hf
          | headersComplete n chunked => cases hf
        | span k s => cases hf
        | fail e => cases hf
      obtain rfl := Option.some.inj (Option.mem_toList.mp hf)
      exact onMessageComplete_firm hl env heeded
    · split at later
      · rename_i good
        rw [if_pos good] at h
        obtain ⟨id, firm⟩ := ih loose.linked (fun p hp => h p (List.mem_append_right _ hp)) later
        rw [if_pos good]
        exact ⟨id.trans loose.id, firm⟩
      · cases later

/-- The calls of `on_message_complete` while `llhttp_execute` runs on the buffer. -/
def parsed (env : Env σ) (x : Ctx σ) : List (Ctx σ × Bool) :=
  if x.c.parser.error = .ok then
    completions env (env.llhttp.buffer x.c.parser.state x.c.buf.mem).1 (noteExec x x.c.buf.mem)
  else []

/-- Work from `x` to `z` is firm, also from any message on that is complete in between. -/
def Follows (env : Env σ) (x z : Ctx σ) : Prop :=
  Firm x.c z.c ∧ ∀ y keepAlive, (y, keepAlive) ∈ parsed env x → y.id = x.id ∧ Firm (told y keepAlive) z.c

theorem Follows.firm {env : Env σ} {x y z : Ctx σ} (h : Follows env x y) (rest : Firm y.c z.c) :
    Follows env x z :=
  ⟨h.1.trans rest, fun m keepAlive hm => ⟨(h.2 m keepAlive hm).1, (h.2 m keepAlive hm).2.trans rest⟩⟩

theorem llhttpExecute_follows {x : Ctx σ} (hl : Linked x.c) (env : Env σ)
    (h : ∀ p ∈ parsed env x, Heeded env p.1 p.2) : Follows env x (llhttpExecute env x x.c.buf.mem).2 := by
  have noted := noteExec_housed hl x.c.buf.mem
  have noting : Firm x.c (noteExec x x.c.buf.mem).c := .of_eq rfl rfl
  unfold Follows parsed at *
  obtain ⟨bad, e⟩ | ⟨good, z, hz, e⟩ | ⟨good, z, hz, e⟩ := llhttpExecute_cases env x x.c.buf.mem <;> rw [e]
  · rw [if_neg bad]
    exact ⟨noting, fun _ _ hy => (by cases hy)⟩
  all_goals
    rw [if_pos good] at h ⊢
    have ran := runEvents_firm noted.linked env _ h
    rw [hz] at ran
    refine ⟨noting.trans (ran.trans (.of_eq rfl rfl)), fun y keepAlive hy => ?_⟩
    obtain ⟨id, told⟩ := runEvents_told noted.linked env h hy
    rw [hz] at told
    exact ⟨id, told.trans (.of_eq rfl rfl)⟩

theorem rejectRequest_firm {x : Ctx σ} (hl : Linked x.c) (env : Env σ) (code : ℕ) (reason : Bytes) :
    Firm x.c (rejectRequest env x code reason).c := by
  have noted : Firm x.c { x.c with forceClose := true, trace := x.c.trace ++ [.rejected code] } :=
    ⟨id, fun h => h.imp (fun _ => rfl) id, [.rejected code], rfl, fun p hp => (by cases hp),
      fun w hw => .inl hw⟩
  exact noted.trans (connSendSimple_firm (x := { x with c := { x.c with
    forceClose := true, trace := x.c.trace ++ [.rejected code] } }) (hl.of_eq rfl) env code rfl
      (by decide) reason fun h => (by cases h))

theorem readFrom_follows {x : Ctx σ} (hl : Linked x.c) (env : Env σ) :
    ((x.c.statusSent || decide (x.c.phase = .drain)) = true ∧ Firm x.c (readFrom env x).c) ∨
    ((x.c.statusSent || decide (x.c.phase = .drain)) = false ∧
      ((∀ p ∈ parsed env x, Heeded env p.1 p.2) → Follows env x (readFrom env x))) := by
  unfold readFrom
  split
  · rename_i answered
    refine .inl ⟨answered, ?_⟩
    split
    · exact connCloseAndFree_firm hl
    · exact .refl _
  · rename_i parses
    refine .inr ⟨by simpa using parses, fun h => ?_⟩
    have ran := llhttpExecute_follows hl env h
    have linked := (llhttpExecute_housed hl env x.c.buf.mem).linked
    dsimp only
    split <;> rename_i z hz <;> rw [hz] at ran linked
    · exact ran.firm (.of_eq rfl rfl)
    · exact ran.firm (.of_eq rfl rfl)
    · have consumed : Firm z.c (setConsumed z x.c.buf.mem (errorOffset z.c)).c := .of_eq rfl rfl
      refine ran.firm (consumed.trans ?_)
      exact rejectRequest_firm (setConsumed_housed linked _ _).linked env _ _

theorem readStart_firm (c : Conn σ) : Firm c (readStart c) := .of_eq rfl rfl

theorem resumeFrom_follows {x : Ctx σ} (hl : Linked x.c) (env : Env σ) :
    (¬ 0 < x.c.buf.filled ∧ Firm x.c (resumeFrom env x).c) ∨
    (0 < x.c.buf.filled ∧
      ((∀ p ∈ parsed env x, Heeded env p.1 p.2) → Follows env x (resumeFrom env x))) := by
  unfold resumeFrom
  dsimp only
  split
  · rename_i left
    refine .inr ⟨left, fun h => ?_⟩
    have ran := llhttpExecute_follows hl env h
    have linked := (llhttpExecute_housed hl env x.c.buf.mem).linked
    split <;> rename_i hz <;> rw [hz] at ran linked
    · exact ran.firm (.of_eq rfl rfl)
    · exact ran.firm (.of_eq rfl rfl)
    · refine ran.firm ?_
      exact rejectRequest_firm linked env 400 (ascii "bad request\n")
  · exact .inl ⟨‹_›, readStart_firm _⟩

/-- Where a step calls `llhttp_execute`. -/
def parsing (env : Env σ) (s : Srv σ) : Step → Option (Ctx σ)
  | .read i data =>
    match connAllocCb env (s.enter i) with
    | (some _, x) =>
      if x.c.statusSent || decide (x.c.phase = .drain) then none else some (received x data)
    | (none, _) => none
  | .written i true =>
    match (s.conns i).writes with
    | ⟨.response _, _⟩ :: _ =>
      let x := countAnswered (popped (s.enter i))
      if x.c.finalized || x.c.closing || closeFlag x.c then none
      else if 0 < (rearmed env x).c.buf.filled then some (rearmed env x) else none
    | _ => none
  | _ => none

/-- The calls of `on_message_complete` in a step, each with its connection before it and the flag. -/
def completed (env : Env σ) (s : Srv σ) (a : Step) : List (Ctx σ × Bool) :=
  (parsing env s a).toList.flatMap (parsed env)

theorem popped_firm (x : Ctx σ) : Firm x.c (popped x).c :=
  .silent id id rfl fun _ hw => List.mem_of_mem_tail hw

theorem recover_firm (env : Env σ) (x : Ctx σ) : Firm x.c (recover env x).c := .of_eq rfl rfl

theorem onSimpleWritten_firm {x : Ctx σ} (hl : Linked x.c) (env : Env σ) (ok : Bool) :
    Firm x.c (onSimpleWritten env x ok).c := by
  have gone := popped_firm x
  have linked := (popped_housed hl).linked
  obtain ⟨_, e⟩ | ⟨_, _, e⟩ | ⟨_, _, _, _, e⟩ | ⟨_, _, _, e⟩ := onSimpleWritten_cases hl env ok <;> rw [e]
  · exact gone
  · exact gone.trans (connCloseAndFree_firm (x := countAnswered (popped x)) linked)
  · exact gone.trans (recover_firm env (countAnswered (popped x)))
  · exact gone.trans (connCloseGraceful_firm (countAnswered (popped x)))

theorem connOnSseWritten_firm {x : Ctx σ} (hl : Linked x.c) (ok : Bool) :
    Firm x.c (connOnSseWritten x ok).c := by
  obtain e | e := connOnSseWritten_cases hl ok <;> rw [e]
  · exact popped_firm x
  · exact (popped_firm x).trans (connCloseAndFree_firm (popped_housed hl).linked)

theorem afterResponse_firm {x : Ctx σ} (hl : Linked x.c) (env : Env σ) (ok : Bool)
    (h : ok = true → x.c.closing = false → closeFlag x.c = false →
      0 < (rearmed env (countAnswered x)).c.buf.filled →
        ∀ p ∈ parsed env (rearmed env (countAnswered x)), Heeded env p.1 p.2) :
    Firm x.c (afterResponse env x ok).c ∧
      (ok = true → x.c.closing = false → closeFlag x.c = false →
        0 < (rearmed env (countAnswered x)).c.buf.filled → ∀ y keepAlive,
          (y, keepAlive) ∈ parsed env (rearmed env (countAnswered x)) →
            y.id = x.id ∧ Firm (told y keepAlive) (afterResponse env x ok).c) := by
  obtain ⟨failed, e⟩ | ⟨_, closing, e⟩ | ⟨_, _, flags, e⟩ | ⟨done, open_, force, keep, e⟩ :=
    afterResponse_cases hl env ok <;> rw [e]
  · exact ⟨connCloseAndFree_firm (x := countAnswered x) hl, fun ok => (by rw [ok] at failed; cases failed)⟩
  · exact ⟨.of_eq rfl rfl, fun _ open_ => (by rw [closing] at open_; cases open_)⟩
  · refine ⟨connCloseGraceful_firm (countAnswered x), fun _ _ flag => ?_⟩
    obtain force | keep := flags
    · rw [closeFlag, force] at flag
      cases flag
    · rw [closeFlag, keep, Bool.or_comm] at flag
      cases flag
  · have flag : closeFlag x.c = false := by rw [closeFlag, force, keep]; rfl
    have ready : Firm x.c (rearmed env (countAnswered x)).c := by
      refine .of_eq ?_ rfl
      rw [force]
      rfl
    obtain ⟨empty, firm⟩ | ⟨left, follows⟩ :=
      resumeFrom_follows (rearmed_seated (countAnswered_kept hl).linked env).linked env
    · exact ⟨ready.trans firm, fun _ _ _ left => absurd left empty⟩
    · have follows := follows (h done open_ flag left)
      exact ⟨ready.trans follows.1, fun _ _ _ _ => follows.2⟩

theorem mem_completed_response {env : Env σ} {s : Srv σ} {i k : ℕ} {out : Out} {rest : List WriteCtx}
    {ok : Bool} (hw : (s.conns i).writes = ⟨.response k, out⟩ :: rest) (p : Ctx σ × Bool) :
    p ∈ completed env s (.written i ok) ↔
      (ok = true ∧ (s.conns i).finalized = false ∧ (s.conns i).closing = false ∧
        closeFlag (s.conns i) = false ∧
        0 < (rearmed env (countAnswered (popped (s.enter i)))).c.buf.filled) ∧
      p ∈ parsed env (rearmed env (countAnswered (popped (s.enter i)))) := by
  cases ok with
  | false => simp [completed, parsing]
  | true =>
    simp only [completed, parsing, hw]
    have flags : ((countAnswered (popped (s.enter i))).c.finalized || (countAnswered (popped (s.enter i))).c.closing ||
        closeFlag (countAnswered (popped (s.enter i))).c) =
      ((s.conns i).finalized || (s.conns i).closing || closeFlag (s.conns i)) := rfl
    rw [flags]
    cases (s.conns i).finalized <;> cases (s.conns i).closing <;> cases closeFlag (s.conns i) <;>
      by_cases left : 0 < (rearmed env (countAnswered (popped (s.enter i)))).c.buf.filled <;> simp [left]

theorem onWritten_follows {env : Env σ} {s : Srv σ} {i : ℕ} {w : WriteCtx} {rest : List WriteCtx} {ok : Bool}
    (hl : Linked (s.conns i)) (hw : (s.conns i).writes = w :: rest)
    (h : ∀ p ∈ completed env s (.written i ok), Heeded env p.1 p.2) :
    Firm (s.conns i) (onWritten env (s.enter i) w.kind ok).c ∧
      ∀ y keepAlive, (y, keepAlive) ∈ completed env s (.written i ok) →
        y.id = i ∧ Firm (told y keepAlive) (onWritten env (s.enter i) w.kind ok).c := by
  obtain ⟨kind, out⟩ := w
  have gone := popped_firm (s.enter i)
  have linked := (popped_housed (x := s.enter i) hl).linked
  cases kind with
  | simple =>
    refine ⟨onSimpleWritten_firm (x := s.enter i) hl env ok, fun y keepAlive hy => ?_⟩
    cases ok <;> simp [completed, parsing, hw] at hy
  | sse =>
    refine ⟨connOnSseWritten_firm (x := s.enter i) hl ok, fun y keepAlive hy => ?_⟩
    cases ok <;> simp [completed, parsing, hw] at hy
  | response k =>
    change Firm (s.conns i) (onResponseWritten env (s.enter i) ok).c ∧ ∀ y keepAlive, _ →
      y.id = i ∧ Firm (told y keepAlive) (onResponseWritten env (s.enter i) ok).c
    rw [onResponseWritten_eq (x := s.enter i) hl]
    split
    · rename_i ended
      refine ⟨gone, fun y keepAlive hy => ?_⟩
      have := ((mem_completed_response hw _).mp hy).1.2.1
      rw [show (s.conns i).finalized = true from ended] at this
      cases this
    · rename_i live
      have live : (s.conns i).finalized = false := Bool.eq_false_iff.mpr live
      obtain ⟨firm, follows⟩ := afterResponse_firm linked env ok fun done open_ flag left p hp =>
        h p ((mem_completed_response hw p).mpr ⟨⟨done, live, open_, flag, left⟩, hp⟩)
      refine ⟨gone.trans firm, fun y keepAlive hy => ?_⟩
      obtain ⟨⟨done, _, open_, flag, left⟩, hp⟩ := (mem_completed_response hw _).mp hy
      exact follows done open_ flag left y keepAlive hp

theorem connCloseGraceful_shut (x : Ctx σ) : Shut (connCloseGraceful x).c := by
  unfold connCloseGraceful
  split
  · exact .inl ‹_›
  · exact .inr rfl

theorem onWritten_flag {x : Ctx σ} (hl : Linked x.c) (env : Env σ) {kind : WriteKind} (ok : Bool)
    (flag : closeFlag x.c = true) (open_ : ¬ Shut x.c) (reply : kind ≠ .sse) :
    Shut (onWritten env x kind ok).c := by
  have linked := (popped_housed hl).linked
  have goes : ∀ {c : Conn σ}, c.forceClose = x.c.forceClose → c.keepAlive = x.c.keepAlive →
      c.forceClose = false → c.keepAlive = true → False := by
    intro c same same' force keep
    rw [closeFlag, ← same, ← same', force, keep] at flag
    cases flag
  cases kind with
  | sse => exact absurd rfl reply
  | simple =>
    change Shut (onSimpleWritten env x ok).c
    obtain ⟨closing, _⟩ | ⟨_, _, e⟩ | ⟨_, _, keep, force, _⟩ | ⟨_, _, _, e⟩ := onSimpleWritten_cases hl env ok
    · exact absurd (.inl closing) open_
    · rw [e]
      exact .inl (connCloseAndFree_closes (x := countAnswered (popped x)) linked)
    · exact (goes (c := x.c) rfl rfl force keep).elim
    · rw [e]
      exact connCloseGraceful_shut _
  | response k =>
    change Shut (onResponseWritten env x ok).c
    rw [onResponseWritten_eq hl, if_neg fun ended => open_ (.inl (hl.finalized ended))]
    obtain ⟨_, e⟩ | ⟨_, closing, _⟩ | ⟨_, _, _, e⟩ | ⟨_, _, force, keep, _⟩ := afterResponse_cases linked env ok
    · rw [e]
      exact .inl (connCloseAndFree_closes (x := countAnswered (popped x)) linked)
    · exact absurd (.inl closing) open_
    · rw [e]
      exact connCloseGraceful_shut _
    · exact (goes (c := (popped x).c) rfl rfl force keep).elim

theorem onWritten_shut {env : Env σ} {s : Srv σ} {i : ℕ} {w : WriteCtx} {rest : List WriteCtx} {ok : Bool}
    (hl : Linked (s.conns i)) (hw : (s.conns i).writes = w :: rest)
    (h : ∀ p ∈ completed env s (.written i ok), Heeded env p.1 p.2) (bound : Bound (s.conns i))
    (reply : w.kind ≠ .sse) : Shut (onWritten env (s.enter i) w.kind ok).c := by
  by_cases shut : Shut (s.conns i)
  · exact (onWritten_follows hl hw h).1.shut shut
  · exact onWritten_flag (x := s.enter i) hl env ok (bound.resolve_right shut) shut reply

theorem connOnRead_follows {env : Env σ} {s : Srv σ} {i room : ℕ} {data : Bytes} {x : Ctx σ}
    (hl : Linked (s.conns i)) (hx : connAllocCb env (s.enter i) = (some room, x))
    (h : ∀ p ∈ completed env s (.read i data), Heeded env p.1 p.2) :
    Firm (s.conns i) (connOnRead env x data).c ∧
      ∀ y keepAlive, (y, keepAlive) ∈ completed env s (.read i data) →
        y.id = i ∧ Firm (told y keepAlive) (connOnRead env x data).c := by
  have buffered := connAllocCb_housed (x := s.enter i) hl env
  have made : Firm (s.conns i) (received x data).c ∧ x.id = i := by
    unfold connAllocCb at hx
    split at hx
    · cases hx
    · cases hx
      exact ⟨.of_eq rfl rfl, rfl⟩
  rw [hx] at buffered
  have linked := (received_housed buffered.linked data).linked
  simp only [completed, parsing, hx] at h ⊢
  obtain ⟨answered, firm⟩ | ⟨parses, follows⟩ := readFrom_follows linked env
  · have answered : (x.c.statusSent || decide (x.c.phase = .drain)) = true := answered
    rw [if_pos answered]
    exact ⟨made.1.trans firm, fun y keepAlive hy => (by simp at hy)⟩
  · have parses : (x.c.statusSent || decide (x.c.phase = .drain)) = false := parses
    rw [if_neg (by simp [parses])] at h ⊢
    simp only [Option.toList_some, List.flatMap_cons, List.flatMap_nil, List.append_nil] at h ⊢
    have follows := follows h
    exact ⟨made.1.trans follows.1, fun y keepAlive hy =>
      ⟨(follows.2 y keepAlive hy).1.trans made.2, (follows.2 y keepAlive hy).2⟩⟩

theorem checkResponse_agrees {a : Arena} {r : Req} {close : Bool} (h : Agrees r close) :
    Agrees (checkResponse a r).2 close := by
  unfold checkResponse
  split
  · exact ⟨fun _ hh => (by cases hh), fun own => (by cases own), fun _ own => (by cases own)⟩
  · split
    · exact h
    · exact h

theorem splice_own (a : Arena) (r : Req) (lo hi : ℕ) (text : Bytes) (injected : Bool) :
    SameOwn True r (splice a r lo hi text injected).2 := by
  unfold splice
  dsimp only
  split
  · exact .refl _ r
  · exact .of_hdrs rfl

theorem applyPageTitle_own (a : Arena) (r : Req) : SameOwn True r (applyPageTitle a r).2 := by
  unfold applyPageTitle
  split
  · exact .refl _ r
  · split
    · exact .refl _ r
    · split
      · exact .refl _ r
      · split
        · exact .refl _ r
        · exact splice_own _ _ _ _ _ _

theorem devInjectLiveScript_own (env : Env σ) (a : Arena) (r : Req) :
    SameOwn True r (devInjectLiveScript env a r).2 := by
  unfold devInjectLiveScript
  split
  · exact .refl _ r
  · dsimp only
    split
    · exact .refl _ r
    · exact splice_own _ _ _ _ _ _

theorem withReq_obj (x : Ctx σ) (k : ℕ) (f : Arena → Req → Arena × Req) :
    (x.withReq k f).c.objs k = (f x.c.arena (x.c.objs k)).2 := Function.update_self k _ _

theorem withReq_firm (x : Ctx σ) (k : ℕ) (f : Arena → Req → Arena × Req) : Firm x.c (x.withReq k f).c :=
  .of_eq rfl rfl

theorem drainReq_firm {x : Ctx σ} (hl : Linked x.c) (env : Env σ) {k : ℕ}
    (agrees : (x.c.objs k).cancelled = true ∨ Shut x.c ∨ Agrees (x.c.objs k) (closeFlag x.c)) :
    Firm x.c (drainReq env x k).c := by
  have counted := stat_kept hl fun s => { s with completedJobs := s.completedJobs + 1 }
  unfold drainReq
  dsimp only
  split
  · rw [connMaybeFinalize_linked counted.linked]
    exact .of_eq rfl rfl
  · rename_i goes
    have agrees := agrees.resolve_left fun cancelled => goes (by
      change ((x.c.objs k).cancelled || _ || _) = true
      rw [cancelled]
      rfl)
    generalize hy : Ctx.stat (Ctx.stat x _) _ = y
    have start : y.c = x.c := by
      rw [← hy]
      rfl
    have made : Firm x.c (((y.withReq k checkResponse).withReq k applyPageTitle).withReq k
        (devInjectLiveScript env)).c := start ▸ .of_eq rfl rfl
    have linked : Linked (((y.withReq k checkResponse).withReq k applyPageTitle).withReq k
        (devInjectLiveScript env)).c := by
      refine Linked.of_eq (c := y.c) ?_ rfl
      rw [start]
      exact hl
    refine made.trans (connStartResponse_firm linked env ?_)
    refine agrees.imp (fun shut => made.shut shut) fun agrees => ?_
    rw [withReq_obj, withReq_obj, withReq_obj, start]
    change Agrees _ (closeFlag y.c)
    rw [start]
    exact SameOwn.agrees (devInjectLiveScript_own env _ _) trivial
      (SameOwn.agrees (applyPageTitle_own _ _) trivial (checkResponse_agrees agrees))

end Cerco.CloseFlags
