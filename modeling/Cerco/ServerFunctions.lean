import Cerco.Wire

set_option autoImplicit false

/-!
# Server functions, from the client's arguments to the C call

The generated client stub encodes the arguments, `sf_run` hands the request
body to the generated adapter, and the adapter calls the application with
values read out of that body. Numbers are kept as their bits.
-/
namespace Cerco.ServerFunctions
open Cerco.CString Cerco.LittleEndian Cerco.Wire

/-- The letters `i l f b s y` of a declared signature. -/
inductive SfType
  | i32
  | i64
  | f64
  | bool
  | str
  | bytes
deriving DecidableEq

def CStr : Type := { s : Bytes // (0 : UInt8) ∉ s }

inductive ClientArg
  | i32 (v : UInt32)
  | i64 (v : UInt64)
  | f64 (v : UInt64)
  | bool (v : UInt8)
  | str (s : CStr)
  | bytes (d : Bytes)

def ClientArg.type : ClientArg → SfType
  | .i32 _ => .i32
  | .i64 _ => .i64
  | .f64 _ => .f64
  | .bool _ => .bool
  | .str _ => .str
  | .bytes _ => .bytes

def sfBodyMax : ℕ := 32768

/-- The first `sf_body_len` bytes of `sf_body`, or `none` once they do not fit:
then the source writes past the buffer or sets the length to `SF_BODY_MAX + 1`. -/
abbrev SfBody := Option Bytes

def sfPut (b : SfBody) (s : Bytes) : SfBody :=
  match b with
  | some b => if b.length + s.length ≤ sfBodyMax then some (b ++ s) else none
  | none => none

def sfBegin : SfBody := some []

def sfArgI32 (b : SfBody) (v : UInt32) : SfBody := sfPut b (wtI32 :: lePut 4 v.toNat)
def sfArgBool (b : SfBody) (v : UInt8) : SfBody :=
  sfPut b (wtBool :: lePut 4 (if v ≠ 0 then 1 else 0))
def sfArgI64 (b : SfBody) (v : UInt64) : SfBody := sfPut b (wtI64 :: lePut 8 v.toNat)
def sfArgF64 (b : SfBody) (v : UInt64) : SfBody := sfPut b (wtF64 :: lePut 8 v.toNat)
def sfArgStr (b : SfBody) (s : CStr) : SfBody := sfPut b (wtStr :: (lePut 4 s.1.length ++ s.1))
def sfArgBytes (b : SfBody) (d : Bytes) : SfBody := sfPut b (wtBytes :: (lePut 4 d.length ++ d))

def sfArg (b : SfBody) : ClientArg → SfBody
  | .i32 v => sfArgI32 b v
  | .i64 v => sfArgI64 b v
  | .f64 v => sfArgF64 b v
  | .bool v => sfArgBool b v
  | .str s => sfArgStr b s
  | .bytes d => sfArgBytes b d

/-- `cerco_sf_submit_raw`: the body that is posted, with its header in front. -/
def sfSubmit (b : SfBody) (nargs : ℕ) : Option Bytes :=
  match b with
  | some b => if sfBodyMax < b.length + 4 then none else some (lePut 4 nargs ++ b)
  | none => none

/-- The generated stub `cerco_sf_<name>`. -/
def sfStub (args : List ClientArg) : Option Bytes :=
  sfSubmit (args.foldl sfArg sfBegin) args.length

def gotType (t : UInt8) : Option SfType :=
  if t = wtI32 then some .i32
  else if t = wtI64 then some .i64
  else if t = wtF64 then some .f64
  else if t = wtBool then some .bool
  else if t = wtStr then some .str
  else if t = wtBytes then some .bytes
  else none

def sfArgOfType (r : WReader) (want : SfType) : Bool × WVal × WReader :=
  let (ok, v, r) := rVal r
  if ok = false then (false, v, r)
  else if gotType v.type = some want then (true, v, r)
  -- int widening: bool <-> i32
  else if (want = .i32 ∧ gotType v.type = some .bool) ∨
      (want = .bool ∧ gotType v.type = some .i32) then (true, v, r)
  else (false, v, r)

/-- The `if (!sf_arg_of_type(...))` lines of the adapter. -/
def sfPull : List SfType → WReader → Option (List WVal) × WReader
  | [], r => (some [], r)
  | t :: ts, r =>
    match sfArgOfType r t with
    | (false, _, r) => (none, { r with err := true })
    | (true, v, r) =>
      match sfPull ts r with
      | (some vs, r) => (some (v :: vs), r)
      | (none, r) => (none, r)

/-- What the application function gets; pointers are offsets into the body and
a NULL string is replaced by `""`. -/
inductive CParam
  | i32 (v : ℕ)
  | i64 (v : ℕ)
  | f64 (v : ℕ)
  | bool (v : ℕ)
  | str (off : Option ℕ)
  | bytes (off : Option ℕ) (len : ℕ)
deriving DecidableEq

def passParam : SfType → WVal → CParam
  | .i32, v => .i32 v.asI32
  | .i64, v => .i64 v.as
  | .f64, v => .f64 v.as
  | .bool, v => .bool v.asB
  | .str, v => .str v.data
  | .bytes, v => .bytes v.data v.len

inductive SfOutcome
  | truncated
  | malformed
  | called (params : List CParam)
deriving DecidableEq

/-- `sf_run` up to the call of `sf_<name>`. -/
def sfRun (sig : List SfType) (body : Bytes) : SfOutcome :=
  let (_, r) := rU32 (wreaderInit body)
  if r.err then .truncated
  else
    match sfPull sig r with
    | (some vs, _) => .called (List.zipWith passParam sig vs)
    | (none, _) => .malformed

def cstrAt (body : Bytes) (off : ℕ) : Option Bytes :=
  if 0 ∈ body.drop off then some (cstr (body.drop off)) else none

def Receives (body : Bytes) : ClientArg → CParam → Prop
  | .i32 v, .i32 w => w = v.toNat
  | .i64 v, .i64 w => w = v.toNat
  | .f64 v, .f64 w => w = v.toNat
  | .bool v, .bool w => w = v.toNat
  | .str s, .str none => s.1 = []
  | .str s, .str (some off) => cstrAt body off = some s.1
  | .bytes d, .bytes (some off) len => len = d.length ∧ (body.drop off).take len = d
  | .bytes d, .bytes none len => len = 0 ∧ d = []
  | _, _ => False

def encoded : ClientArg → Bytes
  | .i32 v => wtI32 :: lePut 4 v.toNat
  | .i64 v => wtI64 :: lePut 8 v.toNat
  | .f64 v => wtF64 :: lePut 8 v.toNat
  | .bool v => wtBool :: lePut 4 (if v ≠ 0 then 1 else 0)
  | .str s => wtStr :: (lePut 4 s.1.length ++ s.1)
  | .bytes d => wtBytes :: (lePut 4 d.length ++ d)

def encodedAll (args : List ClientArg) : Bytes := args.flatMap encoded

/-- The encoding fits the client's body buffer, header included. -/
def Fits (args : List ClientArg) : Prop := 4 + (encodedAll args).length ≤ sfBodyMax

theorem sfArg_eq (b : SfBody) (a : ClientArg) : sfArg b a = sfPut b (encoded a) := by
  cases a <;> rfl

theorem encodedAll_cons (a : ClientArg) (args : List ClientArg) :
    encodedAll (a :: args) = encoded a ++ encodedAll args := rfl

theorem foldl_sfArg (args : List ClientArg) (b : Bytes)
    (h : b.length + (encodedAll args).length ≤ sfBodyMax) :
    args.foldl sfArg (some b) = some (b ++ encodedAll args) := by
  induction args generalizing b with
  | nil => simp [encodedAll]
  | cons a args ih =>
    rw [encodedAll_cons, List.length_append] at h
    have hput : sfArg (some b) a = some (b ++ encoded a) := by
      rw [sfArg_eq]
      exact if_pos (by omega)
    rw [List.foldl_cons, hput, ih _ (by rw [List.length_append]; omega), encodedAll_cons,
      List.append_assoc]

theorem sfStub_fits {args : List ClientArg} (h : Fits args) :
    sfStub args = some (lePut 4 args.length ++ encodedAll args) := by
  unfold Fits at h
  rw [sfStub, sfBegin, foldl_sfArg args [] (by simpa using by omega), List.nil_append]
  exact if_neg (by omega)

/-- The value decoded from an argument whose encoding starts at `off`. -/
def valOf (off : ℕ) : ClientArg → WVal
  | .i32 v => ⟨wtI32, v.toNat, none, 0⟩
  | .i64 v => ⟨wtI64, v.toNat, none, 0⟩
  | .f64 v => ⟨wtF64, v.toNat, none, 0⟩
  | .bool v => ⟨wtBool, if v ≠ 0 then 1 else 0, none, 0⟩
  | .str s => ⟨wtStr, 0, some (off + 5), s.1.length⟩
  | .bytes d => ⟨wtBytes, 0, some (off + 5), d.length⟩

theorem rVal_word {r : WReader} {t : UInt8} {v : ℕ} {rest : Bytes} (ht : t = wtI32 ∨ t = wtBool)
    (hv : v < 256 ^ 4) (h : At r ((t :: lePut 4 v) ++ rest)) :
    rVal r = (true, ⟨t, v, none, 0⟩, r.skip 5) := by
  have h1 : At (r.skip 1) (lePut 4 v ++ rest) := At.skip (a := [t]) h
  have e1 : rU8 r = (t, r.skip 1) := rU8_at h
  have e2 := rU32_at hv h1
  simp only [rVal, e1, e2, h.err_skip, if_pos ht, Bool.false_eq_true, ↓reduceIte,
    Bool.not_false, skip_skip]

theorem rVal_long {r : WReader} {t : UInt8} {v : ℕ} {rest : Bytes} (ht : t = wtI64 ∨ t = wtF64)
    (hv : v < 256 ^ 8) (h : At r ((t :: lePut 8 v) ++ rest)) :
    rVal r = (true, ⟨t, v, none, 0⟩, r.skip 9) := by
  have h1 : At (r.skip 1) (lePut 8 v ++ rest) := At.skip (a := [t]) h
  have e1 : rU8 r = (t, r.skip 1) := rU8_at h
  have e2 := rU64_at hv h1
  have hn : ¬ (t = wtI32 ∨ t = wtBool) := by
    rcases ht with rfl | rfl <;> decide
  simp only [rVal, e1, e2, h.err_skip, if_neg hn, if_pos ht, Bool.false_eq_true,
    ↓reduceIte, Bool.not_false, skip_skip]

theorem rVal_block {r : WReader} {t : UInt8} {d rest : Bytes} (ht : t = wtStr ∨ t = wtBytes)
    (hd : d.length < 256 ^ 4) (h : At r ((t :: (lePut 4 d.length ++ d)) ++ rest)) :
    rVal r = (true, ⟨t, 0, some (r.pos + 5), d.length⟩, r.skip (5 + d.length)) := by
  rw [List.cons_append, List.append_assoc] at h
  have h1 : At (r.skip 1) (lePut 4 d.length ++ (d ++ rest)) := At.skip (a := [t]) h
  have h2 : At (r.skip 5) (d ++ rest) := by
    have := h1.skip
    rwa [lePut_length, skip_skip] at this
  have e1 : rU8 r = (t, r.skip 1) := rU8_at h
  have e2 := rU32_at hd h1
  have e3 := rTake_at h2
  have hn : ¬ (t = wtI32 ∨ t = wtBool) := by
    rcases ht with rfl | rfl <;> decide
  have hn' : ¬ (t = wtI64 ∨ t = wtF64) := by
    rcases ht with rfl | rfl <;> decide
  rw [skip_skip] at e2
  simp only [rVal, e1, e2, e3, h.err_skip, if_neg hn, if_neg hn', if_pos ht, Bool.false_eq_true,
    ↓reduceIte, skip_skip]
  rfl

theorem rVal_encoded {r : WReader} {a : ClientArg} {rest : Bytes}
    (hlen : (encoded a).length < 256 ^ 4) (h : At r (encoded a ++ rest)) :
    rVal r = (true, valOf r.pos a, r.skip (encoded a).length) := by
  cases a with
  | i32 v => exact rVal_word (.inl rfl) v.toNat_lt h
  | i64 v => exact rVal_long (.inl rfl) v.toNat_lt h
  | f64 v => exact rVal_long (.inr rfl) v.toNat_lt h
  | bool v =>
    refine rVal_word (.inr rfl) ?_ h
    split <;> decide
  | str s =>
    have hl : (encoded (.str s)).length = 5 + s.1.length := by simp [encoded]; omega
    rw [hl] at hlen ⊢
    exact rVal_block (.inl rfl) (by omega) h
  | bytes d =>
    have hl : (encoded (.bytes d)).length = 5 + d.length := by simp [encoded]; omega
    rw [hl] at hlen ⊢
    exact rVal_block (.inr rfl) (by omega) h

theorem gotType_valOf (off : ℕ) (a : ClientArg) : gotType (valOf off a).type = some a.type := by
  cases a <;> rfl

theorem sfArgOfType_encoded {r : WReader} {a : ClientArg} {rest : Bytes}
    (hlen : (encoded a).length < 256 ^ 4) (h : At r (encoded a ++ rest)) :
    sfArgOfType r a.type = (true, valOf r.pos a, r.skip (encoded a).length) := by
  simp only [sfArgOfType, rVal_encoded hlen h, gotType_valOf, Bool.true_eq_false, ↓reduceIte]

/-- The values decoded from a list of arguments whose encoding starts at `off`. -/
def valsOf : ℕ → List ClientArg → List WVal
  | _, [] => []
  | off, a :: args => valOf off a :: valsOf (off + (encoded a).length) args

theorem sfPull_encoded {args : List ClientArg} {r : WReader} {rest : Bytes}
    (hlen : (encodedAll args).length < 256 ^ 4) (h : At r (encodedAll args ++ rest)) :
    (sfPull (args.map ClientArg.type) r).1 = some (valsOf r.pos args) := by
  induction args generalizing r with
  | nil => rfl
  | cons a args ih =>
    rw [encodedAll_cons, List.append_assoc] at h
    rw [encodedAll_cons, List.length_append] at hlen
    have htail := ih (by omega) h.skip
    simp only [List.map_cons, sfPull, sfArgOfType_encoded (by omega) h]
    change (match sfPull (args.map ClientArg.type) (r.skip (encoded a).length) with
      | (some vs, r') => (some (valOf r.pos a :: vs), r')
      | (none, r') => (none, r')).1 = _
    split
    · rename_i vs r' heq
      rw [heq] at htail
      cases htail
      rfl
    · rename_i r' heq
      rw [heq] at htail
      cases htail

/-- The parameters the application gets for arguments encoded from `off` on. -/
def paramsOf (off : ℕ) (args : List ClientArg) : List CParam :=
  List.zipWith passParam (args.map ClientArg.type) (valsOf off args)

theorem sfRun_stub {args : List ClientArg} (h : Fits args) (hn : args.length < 256 ^ 4) :
    sfRun (args.map ClientArg.type) (lePut 4 args.length ++ encodedAll args) =
      .called (paramsOf 4 args) := by
  have hat : At (wreaderInit (lePut 4 args.length ++ encodedAll args))
      (lePut 4 args.length ++ encodedAll args) := ⟨rfl, rfl, Nat.zero_le _⟩
  have hb : (encodedAll args).length < 256 ^ 4 := by
    unfold Fits sfBodyMax at h
    omega
  have h4 := hat.skip
  rw [lePut_length] at h4
  have hpull := @sfPull_encoded args _ [] hb (by simpa using h4)
  simp only [sfRun, rU32_at hn hat, h4.ok, Bool.false_eq_true, ↓reduceIte]
  split
  · rename_i vs r' heq
    rw [heq] at hpull
    cases hpull
    rfl
  · rename_i r' heq
    rw [heq] at hpull
    cases hpull

/-- A string needs the zero tag of an `i32` behind it, a bool is 0 or 1. -/
def Terminated : List ClientArg → Prop
  | [] => True
  | .str _ :: rest => (∃ v tl, rest = .i32 v :: tl) ∧ Terminated rest
  | .bool v :: rest => (v = 0 ∨ v = 1) ∧ Terminated rest
  | _ :: rest => Terminated rest

/-- `sf_<name>` is called, with these arguments in this order. -/
def Intact (args : List ClientArg) : Prop :=
  ∃ body params, sfStub args = some body ∧ sfRun (args.map ClientArg.type) body = .called params ∧
    List.Forall₂ (Receives body) args params

theorem cstr_of_notMem {s rest : Bytes} (h : (0 : UInt8) ∉ s) : cstr (s ++ 0 :: rest) = s := by
  induction s with
  | nil => rfl
  | cons c s ih =>
    simp only [List.mem_cons, not_or] at h
    rw [List.cons_append, cstr, List.takeWhile_cons_of_pos (by simpa using Ne.symm h.1)]
    exact congrArg (c :: ·) (ih h.2)

theorem cstrAt_eq_some {body s rest : Bytes} {off : ℕ} (hs : (0 : UInt8) ∉ s)
    (hoff : body.drop off = s ++ rest) : cstrAt body off = some s ↔ rest.head? = some 0 := by
  unfold cstrAt
  rw [hoff]
  cases rest with
  | nil => simp [hs]
  | cons c rest =>
    by_cases hc : c = 0
    · subst hc
      simp [cstr_of_notMem hs]
    · have hlen : cstr (s ++ c :: rest) ≠ s := by
        intro he
        have hall : ∀ x ∈ s, (decide (x ≠ 0)) = true := by
          intro x hx
          simpa using fun h0 : x = 0 => hs (h0 ▸ hx)
        rw [cstr, List.takeWhile_append_of_pos hall,
          List.takeWhile_cons_of_pos (by simpa using hc)] at he
        simpa using congrArg List.length he
      simp [hc, hlen]

theorem head_encodedAll {args : List ClientArg} :
    (encodedAll args).head? = some 0 ↔ ∃ v tl, args = .i32 v :: tl := by
  cases args with
  | nil => simp [encodedAll]
  | cons a args =>
    cases a <;> simp [encodedAll_cons, encoded, wtI32, wtI64, wtF64, wtBool, wtStr, wtBytes]

theorem receives_bool (body : Bytes) (off : ℕ) (v : UInt8) :
    Receives body (.bool v) (passParam .bool (valOf off (.bool v))) ↔ v = 0 ∨ v = 1 := by
  change (if v ≠ 0 then 1 else 0) % 256 = v.toNat ↔ _
  by_cases h : v = 0
  · simp [h]
  · have h1 : 1 = v.toNat ↔ v = 1 := by
      rw [← UInt8.toNat_inj, eq_comm]
      rfl
    simpa [h] using h1

theorem receives_str {body : Bytes} {off : ℕ} {s : CStr} {rest : Bytes}
    (h : body.drop off = encoded (.str s) ++ rest) :
    Receives body (.str s) (passParam .str (valOf off (.str s))) ↔ rest.head? = some 0 := by
  refine cstrAt_eq_some s.2 ?_
  have h5 : (wtStr :: lePut 4 s.1.length).length = 5 := by simp
  rw [← List.drop_drop, h, ← h5]
  change List.drop _ ((wtStr :: lePut 4 s.1.length) ++ s.1 ++ rest) = _
  rw [List.append_assoc, List.drop_left]

theorem receives_bytes {body : Bytes} {off : ℕ} {d rest : Bytes}
    (h : body.drop off = encoded (.bytes d) ++ rest) :
    Receives body (.bytes d) (passParam .bytes (valOf off (.bytes d))) := by
  refine ⟨rfl, ?_⟩
  have h5 : (wtBytes :: lePut 4 d.length).length = 5 := by simp
  rw [← List.drop_drop, h, ← h5]
  change List.take _ (List.drop _ ((wtBytes :: lePut 4 d.length) ++ d ++ rest)) = _
  rw [List.append_assoc, List.drop_left]
  exact List.take_left

theorem receives_all {body : Bytes} {args : List ClientArg} {off : ℕ}
    (h : body.drop off = encodedAll args) :
    List.Forall₂ (Receives body) args (paramsOf off args) ↔ Terminated args := by
  induction args generalizing off with
  | nil => exact ⟨fun _ => trivial, fun _ => .nil⟩
  | cons a args ih =>
    rw [encodedAll_cons] at h
    have htail : body.drop (off + (encoded a).length) = encodedAll args := by
      rw [← List.drop_drop, h, List.drop_left]
    change List.Forall₂ (Receives body) (a :: args)
      (passParam a.type (valOf off a) :: paramsOf (off + (encoded a).length) args) ↔ _
    rw [List.forall₂_cons, ih htail]
    cases a with
    | i32 v =>
      refine and_iff_right ?_
      exact Nat.mod_eq_of_lt v.toNat_lt
    | i64 v => exact and_iff_right rfl
    | f64 v => exact and_iff_right rfl
    | bool v => exact and_congr_left' (receives_bool body off v)
    | str s => exact and_congr_left' ((receives_str h).trans head_encodedAll)
    | bytes d => exact and_iff_right (receives_bytes h)

theorem intact_iff_params {args : List ClientArg} (hn : args.length ≤ 16) (h : Fits args) :
    Intact args ↔ List.Forall₂ (Receives (lePut 4 args.length ++ encodedAll args)) args
      (paramsOf 4 args) := by
  have hrun := sfRun_stub h (by omega)
  constructor
  · rintro ⟨body, params, hb, hc, hf⟩
    rw [sfStub_fits h, Option.some.injEq] at hb
    subst hb
    rw [hrun, SfOutcome.called.injEq] at hc
    subst hc
    exact hf
  · intro hf
    exact ⟨_, _, sfStub_fits h, hrun, hf⟩

theorem params_iff_terminated (args : List ClientArg) :
    List.Forall₂ (Receives (lePut 4 args.length ++ encodedAll args)) args (paramsOf 4 args) ↔
      Terminated args :=
  receives_all (List.drop_left' (lePut_length 4 args.length))

/-- Arguments that fit arrive intact exactly when every string is followed by an
`i32` and every bool is 0 or 1. -/
theorem sfRun_intact (args : List ClientArg) (hn : args.length ≤ 16) (h : Fits args) :
    Intact args ↔ Terminated args :=
  (intact_iff_params hn h).trans (params_iff_terminated args)

def nameArg : ClientArg := .str ⟨ascii "ada", by decide⟩

theorem sfRun_intact_name : [nameArg, .i32 7].length ≤ 16 ∧ Fits [nameArg, .i32 7] ∧
    Intact [nameArg, .i32 7] := by
  have hf : Fits [nameArg, .i32 7] := by
    unfold Fits
    decide
  exact ⟨by decide, hf, (sfRun_intact _ (by decide) hf).mpr ⟨⟨7, [], rfl⟩, trivial⟩⟩

/-- A string that is the last argument has no terminator inside the body. -/
theorem last_string_unterminated :
    ¬ ∀ args : List ClientArg, args.length ≤ 16 → Fits args → Intact args := by
  intro hall
  have hf : Fits [nameArg] := by
    unfold Fits
    decide
  have hi := hall [nameArg] (by decide) hf
  rw [intact_iff_params (by decide) hf, params_iff_terminated] at hi
  obtain ⟨⟨v, tl, he⟩, _⟩ := hi
  cases he

/-- What the adapter passes for the next value, if it is accepted for this type. -/
def passed (r : WReader) (want : SfType) : Option CParam :=
  let (ok, v, _) := sfArgOfType r want
  if ok then some (passParam want v) else none

theorem passed_word {r : WReader} {t : UInt8} {n : ℕ} {rest : Bytes} {want : SfType}
    (ht : t = wtI32 ∨ t = wtBool) (hn : n < 2 ^ 32) (h : At r ((t :: lePut 4 n) ++ rest))
    (word : want = .i32 ∨ want = .bool) :
    passed r want = some (passParam want ⟨t, n, none, 0⟩) := by
  have read := rVal_word ht (v := n) (by omega) h
  have accepted : (sfArgOfType r want).1 = true ∧ (sfArgOfType r want).2.1 = ⟨t, n, none, 0⟩ := by
    unfold sfArgOfType
    rw [read]
    obtain rfl | rfl := ht <;> obtain rfl | rfl := word <;> exact ⟨rfl, rfl⟩
  unfold passed
  dsimp only
  rw [accepted.1, accepted.2]
  rfl

/-- A bool or an `i32` is accepted for both. As an `int32_t` it arrives unchanged; as a
`uint8_t` it is true for the same payloads exactly when the low byte says so. -/
theorem bool_widening_iff {r : WReader} {t : UInt8} {n : ℕ} {rest : Bytes} (ht : t = wtI32 ∨ t = wtBool)
    (hn : n < 2 ^ 32) (h : At r ((t :: lePut 4 n) ++ rest)) :
    passed r .i32 = some (.i32 n) ∧ ∃ b, passed r .bool = some (.bool b) ∧ b < 256 ∧
      ((b ≠ 0 ↔ n ≠ 0) ↔ (n = 0 ∨ n % 256 ≠ 0)) := by
  constructor
  · rw [passed_word ht hn h (.inl rfl)]
    exact congrArg (fun n => some (CParam.i32 n)) (Nat.mod_eq_of_lt hn)
  · refine ⟨n % 256, passed_word ht hn h (.inr rfl), Nat.mod_lt n (by decide), ?_⟩
    constructor
    · intro same
      by_cases zero : n = 0
      · exact .inl zero
      · exact .inr (same.mpr zero)
    · rintro (rfl | low)
      · exact Iff.rfl
      · exact ⟨fun _ zero => low (by rw [zero]), fun _ => low⟩

theorem bool_widening_iff_two : passed (wreaderInit (wtI32 :: lePut 4 2)) .i32 = some (.i32 2) ∧
    ∃ b, passed (wreaderInit (wtI32 :: lePut 4 2)) .bool = some (.bool b) ∧ b < 256 ∧
      ((b ≠ 0 ↔ 2 ≠ 0) ↔ (2 = 0 ∨ 2 % 256 ≠ 0)) :=
  @bool_widening_iff (wreaderInit (wtI32 :: lePut 4 2)) wtI32 2 [] (.inl rfl) (by decide)
    ⟨rfl, rfl, Nat.zero_le _⟩

/-- The integer 256 is true, and the function is called with false. -/
theorem low_byte_false : 256 ≠ 0 ∧ passed (wreaderInit (wtI32 :: lePut 4 256)) .bool = some (.bool 0) :=
  ⟨by decide, by decide⟩

end Cerco.ServerFunctions
