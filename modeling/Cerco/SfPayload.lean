import Cerco.ClientReply
import Cerco.Server
import Cerco.WireCodec

set_option autoImplicit false

/-!
# What a server function accepts

`sf_run` reads a count, the generated adapter reads the arguments, and the
reader's error decides between the call and a 400. Neither the count nor what
lies behind the last argument is looked at.
-/
namespace Cerco.SfPayload
open Cerco.Alloc Cerco.CString Cerco.LittleEndian Cerco.Wire Cerco.Request Cerco.Dispatch
open Cerco.Server Cerco.ServerFunctions Cerco.WireCodec
open Cerco.ClientReply (sfFrame)

/-- A registered function: its declared types, and what the application does with
the request and returns when it is called. -/
structure SfEntry where
  sig : List SfType
  api : List CParam → List ApiCall
  result : List CParam → ClientReply.SfOutcome

def sfContentType : Bytes := ascii "application/x-cerco-sf"

/-- `r->status = code`, with this text as the body. -/
def stage (code : ℕ) (body : Bytes) (a : Arena) (r : Req) : Arena × Req :=
  respPutn body a { r with status := code, resp := wbufReset r.resp }

/-- The end of `sf_run`; `tmpOk` is whether malloc gives the buffer for the value. -/
def sfAnswer (outcome : ClientReply.SfOutcome) (tmpOk : Bool) (a : Arena) (r : Req) : Arena × Req :=
  match outcome, tmpOk with
  | .value _, false => stage 500 (ascii "oom\n") a r
  | outcome, _ =>
    match sfFrame outcome with
    | none => stage 500 (ascii "encode error\n") a r
    | some frame =>
      match setHeader a { r with status := 200 } (ascii "Content-Type") sfContentType with
      | (a, r) =>
        match setHeader a r (ascii "Cache-Control") (ascii "no-store") with
        | (a, r) => respPutn frame a { r with resp := wbufReset r.resp }

/-- `sf_run`: the parameters of the call, if there is one, and what it leaves. -/
def sfRunReq (ent : SfEntry) (tmpOk : Bool) (a : Arena) (r : Req) :
    Option (List CParam) × Arena × Req :=
  match sfRun ent.sig (r.body.getD []) with
  | .truncated => (none, stage 400 (ascii "truncated sf payload\n") a r)
  | .malformed => (none, stage 400 (ascii "malformed sf payload\n") a r)
  | .called params =>
    match handlerRun (ent.api params) a r with
    | (a, r) => (some params, sfAnswer (ent.result params) tmpOk a r)

/-- A value with tag `t` will do for an argument of type `want`. -/
def Accepts (want : SfType) (t : UInt8) : Prop :=
  gotType t = some want ∨ want = .i32 ∧ gotType t = some .bool ∨
    want = .bool ∧ gotType t = some .i32

/-- The encodings of values of these types, from offset `off` on. -/
inductive TypedAll : ℕ → List SfType → Bytes → Prop
  | nil (off : ℕ) : TypedAll off [] []
  | cons {off : ℕ} {t : SfType} {ts : List SfType} {enc encs : Bytes} {v : WVal}
      (h : Encodes off enc v) (accept : Accepts t v.type) (hs : TypedAll (off + enc.length) ts encs) :
      TypedAll off (t :: ts) (enc ++ encs)

theorem sfArgOfType_accept {r r' : WReader} {want : SfType} {v : WVal}
    (h : rVal r = (true, v, r')) (accept : Accepts want v.type) :
    sfArgOfType r want = (true, v, r') := by
  simp only [sfArgOfType, h, Bool.true_eq_false, ↓reduceIte]
  rcases accept with same | widened
  · rw [if_pos same]
  · by_cases same : gotType v.type = some want
    · rw [if_pos same]
    · rw [if_neg same, if_pos widened]

theorem sfArgOfType_some {r r' : WReader} {want : SfType} {v : WVal}
    (h : sfArgOfType r want = (true, v, r')) : Accepts want v.type ∧ rVal r = (true, v, r') := by
  match hr : rVal r with
  | (false, u, r'') =>
    simp only [sfArgOfType, hr, ↓reduceIte, Prod.mk.injEq] at h
    cases h.1
  | (true, u, r'') =>
    simp only [sfArgOfType, hr, Bool.true_eq_false, ↓reduceIte] at h
    split at h
    · obtain ⟨-, rfl, rfl⟩ := h
      exact ⟨.inl ‹_›, rfl⟩
    · split at h
      · obtain ⟨-, rfl, rfl⟩ := h
        exact ⟨.inr ‹_›, rfl⟩
      · cases h

theorem TypedAll.pull {off : ℕ} {sig : List SfType} {encs : Bytes} (h : TypedAll off sig encs)
    {r : WReader} {rest : Bytes} (hoff : r.pos = off) (here : At r (encs ++ rest)) :
    ∃ vs, sfPull sig r = (some vs, r.skip encs.length) := by
  induction h generalizing r with
  | nil => exact ⟨[], rfl⟩
  | @cons off t ts enc encs v h accept hs ih =>
    subst hoff
    rw [List.append_assoc] at here
    obtain ⟨vs, tail⟩ := ih rfl here.skip
    refine ⟨v :: vs, ?_⟩
    rw [sfPull, sfArgOfType_accept (h.read here) accept]
    dsimp only
    rw [tail, skip_skip, List.length_append]

theorem sfPull_some {sig : List SfType} {r r' : WReader} {here : Bytes} {vs : List WVal}
    (front : At r here) (h : sfPull sig r = (some vs, r')) :
    ∃ encs rest, here = encs ++ rest ∧ TypedAll r.pos sig encs := by
  induction sig generalizing r here vs with
  | nil => exact ⟨[], here, rfl, .nil _⟩
  | cons t ts ih =>
    rw [sfPull] at h
    split at h
    · cases h
    · rename_i v r'' arg
      obtain ⟨accept, read⟩ := sfArgOfType_some arg
      rcases rVal_cases r with ⟨enc, rest, u, _, eq, he, read'⟩ | ⟨failed, _⟩
      · rw [read'] at read
        obtain ⟨-, rfl, rfl⟩ := read
        obtain rfl := front.rest.symm.trans eq
        split at h
        · rename_i tail
          obtain ⟨-, rfl⟩ := h
          obtain ⟨encs, rest', split, all⟩ := ih front.skip tail
          exact ⟨enc ++ encs, rest', by rw [split, List.append_assoc], .cons he accept all⟩
        · cases h
      · rw [read] at failed
        cases failed

def Splits (sig : List SfType) (body count encs rest : Bytes) : Prop :=
  body = count ++ (encs ++ rest) ∧ count.length = 4 ∧ TypedAll 4 sig encs

theorem Splits.called {sig : List SfType} {body count encs rest : Bytes}
    (h : Splits sig body count encs rest) : ∃ params, sfRun sig body = .called params := by
  obtain ⟨rfl, four, all⟩ := h
  have back : lePut 4 (leGet count) = count := by rw [← four, lePut_leGet]
  have small : leGet count < 256 ^ 4 := by
    rw [← four]
    exact leGet_lt count
  have front := at_init (count ++ (encs ++ rest))
  have after := front.skip
  rw [four] at after
  obtain ⟨vs, pulled⟩ := all.pull (r := (wreaderInit (count ++ (encs ++ rest))).skip 4) rfl after
  have header : rU32 (wreaderInit (count ++ (encs ++ rest))) = (leGet count, _) :=
    rU32_at small (by rw [back]; exact front)
  refine ⟨List.zipWith passParam sig vs, ?_⟩
  simp only [sfRun, header, after.ok, Bool.false_eq_true, ↓reduceIte, pulled]

theorem sfRun_called {sig : List SfType} {body : Bytes} {params : List CParam}
    (h : sfRun sig body = .called params) : ∃ count encs rest, Splits sig body count encs rest := by
  rcases rU32_cases (wreaderInit body) with ⟨count, rest, four, _, eq, header⟩ | failed
  · have whole : body = count ++ rest := eq
    have after : At ((wreaderInit body).skip 4) rest := by
      have front := at_init body
      rw [whole] at front ⊢
      have := front.skip
      rwa [four] at this
    simp only [sfRun, header, after.ok, Bool.false_eq_true, ↓reduceIte] at h
    split at h
    · rename_i vs r' pulled
      obtain ⟨encs, rest', split, all⟩ := sfPull_some after pulled
      exact ⟨count, encs, rest', by rw [whole, split], four, all⟩
    · cases h
  · simp only [sfRun, failed, ↓reduceIte] at h
    cases h

theorem Splits.unique {sig : List SfType} {body count encs rest count' encs' rest' : Bytes}
    (h : Splits sig body count encs rest) (h' : Splits sig body count' encs' rest') :
    count = count' ∧ encs = encs' ∧ rest = rest' := by
  obtain ⟨eq, four, all⟩ := h
  obtain ⟨eq', four', all'⟩ := h'
  obtain ⟨rfl, tail⟩ := List.append_inj (eq.symm.trans eq') (by rw [four, four'])
  have front := at_init body
  rw [eq] at front
  have after := front.skip
  rw [four] at after
  obtain ⟨vs, pulled⟩ := all.pull rfl after
  have after' := At.mk after.ok (after.rest.trans tail) after.inside
  obtain ⟨vs', pulled'⟩ := all'.pull rfl after'
  rw [pulled] at pulled'
  have ends := congrArg (fun x => x.2.pos) pulled'
  simp only [WReader.skip] at ends
  obtain ⟨rfl, rfl⟩ := List.append_inj tail (by omega)
  exact ⟨rfl, rfl, rfl⟩

/-- The body is the count of the declared arguments and the arguments. -/
def Exact (sig : List SfType) (body : Bytes) : Prop :=
  ∃ count encs, Splits sig body count encs [] ∧ leGet count = sig.length

/-- The arguments are there, but under another count or with more behind them. -/
def Lax (sig : List SfType) (body : Bytes) : Prop :=
  ∃ count encs rest, Splits sig body count encs rest ∧ (leGet count ≠ sig.length ∨ rest ≠ [])

theorem sfRunReq_called (ent : SfEntry) (tmpOk : Bool) (a : Arena) (r : Req) :
    (sfRunReq ent tmpOk a r).1.isSome = true ↔
      ∃ count encs rest, Splits ent.sig (r.body.getD []) count encs rest := by
  unfold sfRunReq
  constructor
  · intro h
    split at h
    · cases h
    · cases h
    · exact sfRun_called ‹_›
  · rintro ⟨count, encs, rest, h⟩
    obtain ⟨params, called⟩ := h.called
    rw [called]
    rfl

theorem sfRunReq_rejected {ent : SfEntry} {tmpOk : Bool} {a : Arena} {r : Req}
    (h : (sfRunReq ent tmpOk a r).1 = none) : (sfRunReq ent tmpOk a r).2.2.status = 400 := by
  unfold sfRunReq at h ⊢
  split
  · rfl
  · rfl
  · rename_i called
    rw [called] at h
    cases h

theorem rejected_sent {a : Arena} {r : Req} (h : r.status = 400) (fine : arenaFailed a = false) :
    (checkResponse a r).2.status = 400 := by
  unfold checkResponse
  rw [if_neg (by simp [fine]), if_neg (by omega)]
  exact h

/-- The call is made exactly for exact bodies, and all others get a 400. -/
def DecodesExactly (ent : SfEntry) (tmpOk : Bool) (a : Arena) (r : Req) : Prop :=
  ((sfRunReq ent tmpOk a r).1.isSome = true ↔ Exact ent.sig (r.body.getD [])) ∧
    (¬ Exact ent.sig (r.body.getD []) → (sfRunReq ent tmpOk a r).2.2.status = 400)

theorem DecodesExactly.strict {ent : SfEntry} {tmpOk : Bool} {a : Arena} {r : Req}
    (exact : DecodesExactly ent tmpOk a r) : ¬ Lax ent.sig (r.body.getD []) := by
  rintro ⟨count, encs, rest, h, off⟩
  have called := (sfRunReq_called ent tmpOk a r).mpr ⟨count, encs, rest, h⟩
  obtain ⟨count', encs', h', same⟩ := exact.1.mp called
  obtain ⟨rfl, rfl, rfl⟩ := h.unique h'
  rcases off with wrong | more
  · exact wrong same
  · exact more rfl

/-- The check is exact for every body that is not lax. -/
theorem sf_decodes_exactly (ent : SfEntry) (tmpOk : Bool) (a : Arena) (r : Req) :
    DecodesExactly ent tmpOk a r ↔ ¬ Lax ent.sig (r.body.getD []) := by
  have called := sfRunReq_called ent tmpOk a r
  constructor
  · exact DecodesExactly.strict
  · intro strict
    have exact : (sfRunReq ent tmpOk a r).1.isSome = true ↔ Exact ent.sig (r.body.getD []) := by
      rw [called]
      constructor
      · rintro ⟨count, encs, rest, h⟩
        by_cases off : leGet count ≠ ent.sig.length ∨ rest ≠ []
        · exact absurd ⟨count, encs, rest, h, off⟩ strict
        · rw [not_or, not_not, not_not] at off
          obtain ⟨same, rfl⟩ := off
          exact ⟨count, encs, h, same⟩
      · rintro ⟨count, encs, h, _⟩
        exact ⟨count, encs, [], h⟩
    refine ⟨exact, fun inexact => sfRunReq_rejected ?_⟩
    rw [← exact, Bool.not_eq_true, Option.isSome_eq_false_iff, Option.isNone_iff_eq_none] at inexact
    exact inexact

def addOne : SfEntry := ⟨[.i32], fun _ => [], fun _ => .value (.i32 0)⟩

def fiveAnnounced : Req := { reqSetup 0 with body := some [5, 0, 0, 0, 0, 7, 0, 0, 0] }

theorem wrong_count_called : ¬ ∀ (ent : SfEntry) (tmpOk : Bool) (a : Arena) (r : Req),
    DecodesExactly ent tmpOk a r := by
  intro all
  refine (all addOne true (Arena.zero fun _ _ => none) fiveAnnounced).strict
    ⟨[5, 0, 0, 0], [0, 7, 0, 0, 0], [], ⟨rfl, rfl, ?_⟩, .inl (by decide)⟩
  have seven : Encodes 4 [0, 7, 0, 0, 0] _ := .word (.inl rfl) rfl
  exact .cons seven (.inl rfl) (.nil _)

end Cerco.SfPayload
