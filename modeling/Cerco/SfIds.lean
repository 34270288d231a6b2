import Cerco.PrintfText
import Cerco.RequestGrammar

set_option autoImplicit false

/-!
# The id in the URL of a server function

`sf_dispatch` reads the digits behind the prefix in 32-bit arithmetic and looks
for the first table entry with that id.
-/
namespace Cerco.SfIds
open Cerco.CString Cerco.Connection Cerco.Dispatch Cerco.Request Cerco.Response Cerco.Router
open Cerco.PrintfText (decimalValue)
open Cerco.RequestGrammar (Scan stockEnv rootTable)

variable {σ : Type}

/-- The loop over `srv->app->sfs`. -/
def sfSelect (sfs : List SfEntry) (idStr : Bytes) : Option SfEntry :=
  sfs.find? fun e => e.id == (sfIdLoop idStr 0).1

/-- The part of `sf_dispatch` behind the lookup. -/
def sfServe (env : Env σ) (x : Ctx σ) (k : ℕ) : Option SfEntry → Ctx σ
  | none => connSendSimple env x 404 none (ascii "unknown server function\n") false
  | some ent =>
    let r := x.c.objs k
    if !strcaseeq (reqMethod r) ent.method &&
        !(strcaseeq (reqMethod r) (ascii "HEAD") && strcaseeq ent.method (ascii "GET")) then
      connSendSimple env x 405 (some (ascii "Allow: POST")) (ascii "method not allowed\n") false
    else
      match reqHeader r (ascii "content-type") with
      | none => connSendSimple env x 415 none (ascii "expected application/x-cerco-sf") false
      | some ct =>
        if !strncaseeq (cstr ct) sfContentType 22 then
          connSendSimple env x 415 none (ascii "expected application/x-cerco-sf") false
        else
          let x := x.withReq k fun a r => (a, { r with sfEntry := some ent.id, handler := some .sfRun })
          match wpoolSubmit x k with
          | (x, true) => x
          | (x, false) => rejectJob env x

/-- A non-empty string of decimal digits. -/
structure Digits (d : Bytes) : Prop where
  some : d ≠ []
  digits : ∀ c ∈ d, 48 ≤ c ∧ c ≤ 57

/-- The ids of the table are `uint32_t`. -/
def Words (sfs : List SfEntry) : Prop := ∀ e ∈ sfs, e.id < 2 ^ 32

/-- The entry selected is the first one whose id is the number that `d` denotes. -/
def Named (sfs : List SfEntry) (d : Bytes) : Prop :=
  sfSelect sfs d = sfs.find? fun e => e.id == decimalValue d

theorem sfIdLoop_digits {d : Bytes} (h : ∀ c ∈ d, 48 ≤ c ∧ c ≤ 57) {id n : ℕ} (same : id = n % 2 ^ 32) :
    sfIdLoop d id = (d.foldl (fun n c => n * 10 + (c.toNat - 48)) n % 2 ^ 32, []) := by
  induction d generalizing id n with
  | nil => rw [same]; rfl
  | cons c d ih =>
    rw [sfIdLoop, if_pos (h c List.mem_cons_self), List.foldl_cons]
    refine ih (fun b hb => h b (List.mem_cons_of_mem c hb)) ?_
    rw [same]
    omega

theorem sfIdLoop_value {d : Bytes} (h : Digits d) : sfIdLoop d 0 = (decimalValue d % 2 ^ 32, []) :=
  sfIdLoop_digits h.digits rfl

theorem Digits.nulFree {d : Bytes} (h : Digits d) : 0 ∉ d :=
  fun hm => absurd (h.digits 0 hm).1 (by decide)

theorem sfPrefix_nulFree : 0 ∉ sfPrefix := by decide

theorem sfPath_digits {d : Bytes} (h : Digits d) :
    cstr (sfPrefix ++ d) = sfPrefix ++ d ∧ sfIsSfPath (sfPrefix ++ d) = true ∧
      (sfPrefix ++ d).drop 12 = d := by
  have whole : cstr (sfPrefix ++ d) = sfPrefix ++ d := by
    refine cstr_of_nulFree fun hm => ?_
    exact (List.mem_append.mp hm).elim sfPrefix_nulFree h.nulFree
  have rest : (sfPrefix ++ d).drop 12 = d := List.drop_left' (by rfl)
  have front : strncaseeq (sfPrefix ++ d) (sfPrefix ++ []) (12 + 0) = true :=
    strncaseeq_append ((strcaseeq_iff sfPrefix sfPrefix).mpr rfl) d [] 0
  rw [List.append_nil] at front
  refine ⟨whole, ?_, rest⟩
  rw [sfIsSfPath, whole, rest, front]
  simpa using h.some

theorem sfDispatch_select (env : Env σ) (x : Ctx σ) (k : ℕ) {d : Bytes} (h : Digits d) :
    sfDispatch env x k d = sfServe env x k (sfSelect env.sfs d) := by
  have read := sfIdLoop_value h
  have good : ¬ (([] : Bytes) ≠ [] ∨ d = []) := by
    simpa using h.some
  unfold sfDispatch sfSelect
  rw [read]
  dsimp only
  rw [if_neg good]
  cases env.sfs.find? fun e => e.id == decimalValue d % 2 ^ 32 with
  | none => rfl
  | some ent => rfl

theorem dispatchReq_select (env : Env σ) (x : Ctx σ) (k : ℕ) {d : Bytes} (h : Digits d)
    (path : (x.c.objs k).path = some (sfPrefix ++ d)) :
    dispatchReq env x k = sfServe env x k (sfSelect env.sfs d) := by
  obtain ⟨whole, isSf, rest⟩ := sfPath_digits h
  unfold dispatchReq
  dsimp only
  rw [path, Option.getD_some, whole, if_pos isSf, rest]
  exact sfDispatch_select env x k h

theorem find_none {sfs : List SfEntry} {n : ℕ} :
    (sfs.find? fun e => e.id == n) = none ↔ ∀ e ∈ sfs, e.id ≠ n := by
  simp

theorem named_iff {sfs : List SfEntry} (ids : Words sfs) {d : Bytes} (h : Digits d) :
    Named sfs d ↔ decimalValue d < 2 ^ 32 ∨ ∀ e ∈ sfs, e.id ≠ decimalValue d % 2 ^ 32 := by
  unfold Named sfSelect
  rw [sfIdLoop_value h]
  by_cases small : decimalValue d < 2 ^ 32
  · rw [Nat.mod_eq_of_lt small]
    exact ⟨fun _ => .inl small, fun _ => rfl⟩
  · have absent : (sfs.find? fun e => e.id == decimalValue d) = none :=
      find_none.mpr fun e he same => small (same ▸ ids e he)
    rw [absent, find_none]
    exact ⟨.inr, fun h => h.resolve_left small⟩

/-- Every digit string reaches the lookup, and what follows depends on the entry alone;
it is the named one exactly when the number fits 32 bits or no id equals what is left of it. -/
theorem sf_named_iff (env : Env σ) (ids : Words env.sfs) {d : Bytes} (h : Digits d) :
    (∀ x k, (x.c.objs k).path = some (sfPrefix ++ d) →
      dispatchReq env x k = sfDispatch env x k d ∧
        sfDispatch env x k d = sfServe env x k (sfSelect env.sfs d)) ∧
    (Named env.sfs d ↔ decimalValue d < 2 ^ 32 ∨ ∀ e ∈ env.sfs, e.id ≠ decimalValue d % 2 ^ 32) := by
  refine ⟨fun x k path => ?_, named_iff ids h⟩
  have served := sfDispatch_select env x k h
  exact ⟨(dispatchReq_select env x k h path).trans served.symm, served⟩

def greetEntry : SfEntry := ⟨1, ascii "POST"⟩

def greetEnv : Env Scan := { stockEnv rootTable with sfs := [greetEntry] }

theorem digits_of_all {d : Bytes} (h : d.all (fun c => decide (48 ≤ c ∧ c ≤ 57)) = true) (some : d ≠ []) :
    Digits d :=
  ⟨some, fun c hc => of_decide_eq_true (List.all_eq_true.mp h c hc)⟩

theorem greetEnv_words : Words greetEnv.sfs := by
  intro e he
  rw [List.mem_singleton.mp he]
  decide

theorem sf_named_iff_greet :
    (∀ x k, (x.c.objs k).path = some (sfPrefix ++ ascii "1") →
      dispatchReq greetEnv x k = sfDispatch greetEnv x k (ascii "1") ∧
        sfDispatch greetEnv x k (ascii "1") = sfServe greetEnv x k (sfSelect greetEnv.sfs (ascii "1"))) ∧
    (Named greetEnv.sfs (ascii "1") ↔ decimalValue (ascii "1") < 2 ^ 32 ∨
      ∀ e ∈ greetEnv.sfs, e.id ≠ decimalValue (ascii "1") % 2 ^ 32) :=
  sf_named_iff greetEnv greetEnv_words (digits_of_all (by decide) (by decide))

/-- The number behind the prefix is 2³² + 1, and the entry with id 1 is called. -/
theorem sf_id_wraps : Digits (ascii "4294967297") ∧ Words greetEnv.sfs ∧
    (∀ e ∈ greetEnv.sfs, e.id ≠ decimalValue (ascii "4294967297")) ∧
    sfSelect greetEnv.sfs (ascii "4294967297") = some greetEntry ∧
    ¬ Named greetEnv.sfs (ascii "4294967297") := by
  have digits : Digits (ascii "4294967297") := digits_of_all (by decide) (by decide)
  have value : decimalValue (ascii "4294967297") = 4294967297 := by decide
  have other : ∀ e ∈ greetEnv.sfs, e.id ≠ decimalValue (ascii "4294967297") := by
    intro e he
    rw [List.mem_singleton.mp he, value]
    decide
  have called : sfSelect greetEnv.sfs (ascii "4294967297") = some greetEntry := rfl
  refine ⟨digits, greetEnv_words, other, called, fun named => ?_⟩
  rw [Named, called, find_none.mpr other] at named
  cases named

end Cerco.SfIds
