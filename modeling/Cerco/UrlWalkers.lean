import Cerco.FormFields
import Cerco.UrlDecode
import Mathlib.Data.List.GetD

set_option autoImplicit false

/-!
# The two urlencoded walkers

`cerco_query_next` goes over a C string from a position its caller keeps;
`form_parse` has a length and indices of its own. Both are compared with the walker
on lists.
-/
namespace Cerco.UrlWalkers
open Cerco.Alloc Cerco.CString Cerco.FormFields Cerco.QueryString Cerco.Request Cerco.UrlDecode

/-- `q[p]` of a C string. -/
def chr (q : Bytes) (p : ℕ) : UInt8 := q.getD p 0

/-- `while (q[p] && ...) p++` up to one of the bytes that `stop` names, with the rounds left. -/
def scanTo (stop : UInt8 → Bool) (q : Bytes) : ℕ → ℕ → ℕ
  | 0, p => p
  | n + 1, p => if chr q p ≠ 0 ∧ stop (chr q p) = false then scanTo stop q n (p + 1) else p

/-- The return values 0, -1 and 1; a pair comes with the new `*pos`. -/
inductive NextResult
  | done
  | reject
  | pair (key value : Bytes) (pos : ℕ)
deriving DecidableEq

/-- `q + i` up to `q + j`. -/
def slice (q : Bytes) (i j : ℕ) : Bytes := (q.drop i).take (j - i)

def cercoQueryNext (q : Bytes) (pos kcap vcap : ℕ) : NextResult :=
  if chr q pos = 0 then .done
  else
    let p := scanTo isKeyEnd q q.length pos
    match decodeText true kcap (slice q pos p) with
    | none => .reject
    | some key =>
      if chr q p = 61 then
        let stop := scanTo isValueEnd q q.length (p + 1)
        let next := if chr q stop = 38 then stop + 1 else stop
        match decodeText true vcap (slice q (p + 1) stop) with
        | none => .reject
        | some value => .pair key value next
      else .pair key [] (if chr q p = 38 then p + 1 else p)

/-- The loop of a caller; what it finds in its buffers are C strings. -/
inductive Walk (q : Bytes) : ℕ → List (Bytes × Bytes) → Prop
  | stop {pos : ℕ} (h : ∀ key value next, cercoQueryNext q pos 256 2048 ≠ .pair key value next) : Walk q pos []
  | pair {pos next : ℕ} {key value : Bytes} {rest : List (Bytes × Bytes)}
      (h : cercoQueryNext q pos 256 2048 = .pair key value next) (more : Walk q next rest) :
      Walk q pos ((cstr key, cstr value) :: rest)

/-- `while (pos < blen && ...) pos++` -/
def scanBelow (stop : UInt8 → Bool) (b : Bytes) : ℕ → ℕ → ℕ
  | 0, pos => pos
  | n + 1, pos =>
    if pos < b.length ∧ stop (chr b pos) = false then scanBelow stop b n (pos + 1) else pos

/-- The loop of `form_parse` at `pos`, with the rounds left. -/
def formFrom (b : Bytes) : ℕ → ℕ → Arena → List FormKv → Arena × List FormKv
  | 0, _, a, form => (a, form)
  | n + 1, pos, a, form =>
    if pos < b.length then
      let p := scanBelow isKeyEnd b b.length pos
      let valued := decide (p < b.length ∧ chr b p = 61)
      let stop := if valued then scanBelow isValueEnd b b.length (p + 1) else p
      let vsrc := if valued then slice b (p + 1) stop else []
      let next := if stop < b.length ∧ chr b stop = 38 then stop + 1 else stop
      match decodeText true 256 (slice b pos p) with
      | none => (a, form)
      | some key =>
        match decodeText true 2048 vsrc with
        | none => (a, form)
        | some value =>
          match arenaAlloc a sizeofFormKv with
          | (none, a) => (a, form)
          | (some _, a) =>
            let name := arenaStrdup a key
            let value := arenaStrdup name.2 value
            formFrom b n next value.2 (form ++ [⟨name.1, value.1⟩])
    else (a, form)

/-- `form_parse` with its own indices. -/
def formParseAt (a : Arena) (r : Req) (form : List FormKv) : Arena × List FormKv :=
  if form ≠ [] then (a, form)
  else
    match reqHeader r (ascii "content-type") with
    | none => (a, form)
    | some ct =>
      if strncaseeq ct formContentType 33 = false then (a, form)
      else
        match r.body with
        | none => (a, form)
        | some b => formFrom b (b.length + 1) 0 a form

theorem chr_drop {q : Bytes} {p : ℕ} (h : p < q.length) : q.drop p = chr q p :: q.drop (p + 1) := by
  rw [List.drop_eq_getElem_cons h, chr, List.getD_eq_getElem q 0 h]

theorem chr_end {q : Bytes} {p : ℕ} (h : q.length ≤ p) : chr q p = 0 ∧ q.drop p = [] :=
  ⟨List.getD_eq_default q 0 h, List.drop_eq_nil_of_le h⟩

theorem scanBelow_spec (stop : UInt8 → Bool) (b : Bytes) {n pos : ℕ} (le : pos ≤ b.length)
    (rounds : b.length ≤ pos + n) :
    scanBelow stop b n pos = pos + ((b.drop pos).takeWhile fun c => !stop c).length := by
  induction n generalizing pos with
  | zero =>
    have empty := (chr_end (q := b) (p := pos) (by omega)).2
    rw [scanBelow, empty]
    rfl
  | succ n ih =>
    rw [scanBelow]
    by_cases more : pos < b.length
    · rw [chr_drop more]
      cases hit : stop (chr b pos) with
      | true =>
        rw [if_neg (by simp), List.takeWhile_cons_of_neg (by simp [hit])]
        rfl
      | false =>
        rw [if_pos ⟨more, rfl⟩, List.takeWhile_cons_of_pos (by simp [hit]), ih (by omega) (by omega),
          List.length_cons]
        omega
    · rw [if_neg fun h => more h.1, (chr_end (by omega)).2]
      rfl

theorem slice_scan (stop : UInt8 → Bool) (b : Bytes) {pos : ℕ} (le : pos ≤ b.length) :
    slice b pos (scanBelow stop b b.length pos) = (b.drop pos).takeWhile (fun c => !stop c) ∧
    b.drop (scanBelow stop b b.length pos) = (b.drop pos).dropWhile (fun c => !stop c) := by
  have split : (b.drop pos).takeWhile (fun c => !stop c) ++ (b.drop pos).dropWhile (fun c => !stop c) =
      b.drop pos := List.takeWhile_append_dropWhile
  rw [slice, scanBelow_spec stop b le (by omega), Nat.add_sub_cancel_left, ← List.drop_drop]
  constructor
  · exact (List.prefix_iff_eq_take.mp (List.takeWhile_prefix _)).symm
  · have behind : ((b.drop pos).takeWhile (fun c => !stop c) ++ (b.drop pos).dropWhile (fun c => !stop c)).drop
        ((b.drop pos).takeWhile fun c => !stop c).length = (b.drop pos).dropWhile (fun c => !stop c) :=
      List.drop_left
    rwa [split] at behind

theorem scanBelow_le (stop : UInt8 → Bool) (b : Bytes) {pos : ℕ} (le : pos ≤ b.length) :
    pos ≤ scanBelow stop b b.length pos ∧ scanBelow stop b b.length pos ≤ b.length := by
  rw [scanBelow_spec stop b le (by omega)]
  have short := ((List.takeWhile_prefix (p := fun c => !stop c) (l := b.drop pos)).length_le)
  rw [List.length_drop] at short
  omega

/-- `if (pos < blen && b[pos] == '&') pos++` -/
def pastAmp (b : Bytes) (p : ℕ) : ℕ := if p < b.length ∧ chr b p = 38 then p + 1 else p

theorem pastAmp_drop (b : Bytes) (p : ℕ) : skipAmp (b.drop p) = b.drop (pastAmp b p) := by
  unfold pastAmp
  by_cases more : p < b.length
  · rw [chr_drop more, skipAmp]
    by_cases amp : chr b p = 38
    · rw [if_pos amp, if_pos ⟨more, amp⟩]
    · rw [if_neg amp, if_neg fun h => amp h.2, chr_drop more]
  · rw [if_neg fun h => more h.1, (chr_end (by omega)).2]
    rfl

theorem pastAmp_le {b : Bytes} {p : ℕ} (le : p ≤ b.length) : p ≤ pastAmp b p ∧ pastAmp b p ≤ b.length := by
  unfold pastAmp
  split <;> omega

/-- Where the value of the pair at `pos` starts, behind its key, if it has one. -/
def Valued (b : Bytes) (p : ℕ) : Prop := p < b.length ∧ chr b p = 61

instance (b : Bytes) (p : ℕ) : Decidable (Valued b p) := inferInstanceAs (Decidable (_ ∧ _))

def keyEnd (b : Bytes) (pos : ℕ) : ℕ := scanBelow isKeyEnd b b.length pos

def valueEnd (b : Bytes) (p : ℕ) : ℕ := if Valued b p then scanBelow isValueEnd b b.length (p + 1) else p

def valueText (b : Bytes) (p : ℕ) : Bytes := if Valued b p then slice b (p + 1) (valueEnd b p) else []

def nextPair (b : Bytes) (pos : ℕ) : ℕ := pastAmp b (valueEnd b (keyEnd b pos))

/-- The pair at `pos`, from the indices. -/
def pairAt (b : Bytes) (kroom vroom pos : ℕ) : Option (Bytes × Bytes) :=
  (urlDecode true kroom (slice b pos (keyEnd b pos))).bind fun key =>
    (urlDecode true vroom (valueText b (keyEnd b pos))).map fun value => (key, value)

theorem urlDecode_nil (plus : Bool) (room : ℕ) : urlDecode plus room [] = some [] := by
  cases room <;> rfl

theorem queryNext_drop (kroom vroom : ℕ) {b : Bytes} {pos : ℕ} (more : pos < b.length) :
    queryNext kroom vroom (b.drop pos) =
      match pairAt b kroom vroom pos with
      | none => .reject
      | some p => .pair p.1 p.2 (b.drop (nextPair b pos)) := by
  have key := slice_scan isKeyEnd b more.le
  have bound := scanBelow_le isKeyEnd b more.le
  have shape := chr_drop more
  unfold pairAt nextPair valueText valueEnd keyEnd
  generalize scanBelow isKeyEnd b b.length pos = p at key bound
  obtain ⟨taken, left⟩ := key
  rw [taken]
  rw [shape] at taken left ⊢
  rw [queryNext, ← left]
  cases urlDecode true kroom ((chr b pos :: b.drop (pos + 1)).takeWhile fun c => !isKeyEnd c) with
  | none => rfl
  | some key =>
    dsimp only [Option.bind_some]
    by_cases valued : Valued b p
    · have value := @slice_scan isValueEnd b (p + 1) valued.1
      simp only [if_pos valued]
      rw [chr_drop valued.1, valued.2]
      change (match urlDecode true vroom ((b.drop (p + 1)).takeWhile fun c => !isValueEnd c) with
        | none => QueryStep.reject
        | some value => .pair key value (skipAmp ((b.drop (p + 1)).dropWhile fun c => !isValueEnd c))) = _
      rw [← value.1, ← value.2, pastAmp_drop]
      cases urlDecode true vroom (slice b (p + 1) (scanBelow isValueEnd b b.length (p + 1))) <;> rfl
    · simp only [if_neg valued]
      rw [urlDecode_nil, ← pastAmp_drop]
      split
      · rename_i rest equal
        have inside : p < b.length := by
          by_contra out
          rw [(chr_end (Nat.le_of_not_lt out)).2] at equal
          cases equal
        rw [chr_drop inside] at equal
        exact absurd ⟨inside, (List.cons.inj equal).1⟩ valued
      · rfl

theorem nextPair_bounds {b : Bytes} {pos : ℕ} (more : pos < b.length) :
    pos < nextPair b pos ∧ nextPair b pos ≤ b.length := by
  have spec := scanBelow_spec isKeyEnd b more.le (n := b.length) (by omega)
  have bound := scanBelow_le isKeyEnd b more.le
  unfold nextPair valueEnd keyEnd
  generalize scanBelow isKeyEnd b b.length pos = p at spec bound
  by_cases valued : Valued b p
  · have value := @scanBelow_le isValueEnd b (p + 1) valued.1
    have after := pastAmp_le value.2
    rw [if_pos valued]
    omega
  · have after := pastAmp_le bound.2
    rw [if_neg valued]
    refine ⟨?_, after.2⟩
    by_cases moved : pos < p
    · omega
    -- the key is empty, so an `&` comes first
    · have here : p = pos := by omega
      subst here
      have stopped : isKeyEnd (chr b p) = true := by
        by_contra go
        rw [chr_drop more, List.takeWhile_cons_of_pos (by simpa using go)] at spec
        simp only [List.length_cons] at spec
        omega
      have amp : chr b p = 38 := by
        simp only [isKeyEnd, Bool.or_eq_true, beq_iff_eq] at stopped
        exact stopped.resolve_left fun h => valued ⟨more, h⟩
      rw [pastAmp, if_pos ⟨more, amp⟩]
      omega

theorem formFrom_step (b : Bytes) (n pos : ℕ) (a : Arena) (form : List FormKv) :
    formFrom b (n + 1) pos a form =
      if pos < b.length then
        match pairAt b 255 2047 pos with
        | none => (a, form)
        | some p =>
          match arenaAlloc a sizeofFormKv with
          | (none, a) => (a, form)
          | (some _, a) =>
            formFrom b n (nextPair b pos) (arenaStrdup (arenaStrdup a p.1).2 p.2).2
              (form ++ [⟨(arenaStrdup a p.1).1, (arenaStrdup (arenaStrdup a p.1).2 p.2).1⟩])
      else (a, form) := by
  rw [formFrom]
  by_cases more : pos < b.length
  · have kbuf : ∀ text, decodeText true 256 text = urlDecode true 255 text := fun _ => rfl
    have vbuf : ∀ text, decodeText true 2048 text = urlDecode true 2047 text := fun _ => rfl
    simp only [if_pos more, kbuf, vbuf]
    unfold pairAt nextPair valueText valueEnd keyEnd pastAmp
    generalize scanBelow isKeyEnd b b.length pos = p
    by_cases valued : Valued b p
    · have test : decide (p < b.length ∧ chr b p = 61) = true := decide_eq_true valued
      simp only [test, if_pos valued, ↓reduceIte]
      cases urlDecode true 255 (slice b pos p) with
      | none => rfl
      | some key =>
        dsimp only [Option.bind_some]
        cases urlDecode true 2047 (slice b (p + 1) (scanBelow isValueEnd b b.length (p + 1))) <;> rfl
    · have test : decide (p < b.length ∧ chr b p = 61) = false := decide_eq_false valued
      simp only [test, if_neg valued, Bool.false_eq_true, ↓reduceIte]
      rw [urlDecode_nil]
      cases urlDecode true 255 (slice b pos p) <;> rfl
  · rw [if_neg more, if_neg more]

theorem formFrom_eq (b : Bytes) {n k pos : ℕ} (le : pos ≤ b.length) (rounds : b.length - pos < n)
    (enough : b.length - pos ≤ k) (a : Arena) (form : List FormKv) :
    formFrom b n pos a form = formLoop k (b.drop pos) a form := by
  induction n generalizing k pos a form with
  | zero => omega
  | succ n ih =>
    rw [formFrom_step]
    by_cases more : pos < b.length
    · obtain ⟨k, rfl⟩ : ∃ j, k = j + 1 := ⟨k - 1, by omega⟩
      have next := nextPair_bounds more
      rw [if_pos more, formLoop, queryNext_drop kbufRoom vbufRoom more]
      change (match pairAt b kbufRoom vbufRoom pos with | none => _ | some p => _) = _
      cases pairAt b kbufRoom vbufRoom pos with
      | none => rfl
      | some p =>
        dsimp only
        obtain ⟨_ | ptr, a'⟩ := arenaAlloc a sizeofFormKv
        · rfl
        · exact ih next.2 (by omega) (by omega) _ _
    · rw [if_neg more, (chr_end (Nat.le_of_not_lt more)).2]
      cases k <;> rfl

theorem formParseAt_eq (a : Arena) (r : Req) (form : List FormKv) :
    formParseAt a r form = formParse a r form := by
  have loop : ∀ b : Bytes, formFrom b (b.length + 1) 0 a form = formLoop b.length b a form := fun b =>
    formFrom_eq b (Nat.zero_le _) (by omega) (by omega) a form
  unfold formParseAt formParse
  by_cases parsed : form ≠ []
  · rw [if_pos parsed, if_pos parsed]
  · rw [if_neg parsed, if_neg parsed]
    cases reqHeader r (ascii "content-type") with
    | none => rfl
    | some ct =>
      dsimp only
      by_cases other : strncaseeq ct formContentType 33 = false
      · rw [if_pos other, if_pos other]
      · rw [if_neg other, if_neg other]
        cases r.body with
        | none => rfl
        | some b => exact loop b

theorem Walk.unique {q : Bytes} {pos : ℕ} {ps qs : List (Bytes × Bytes)} (h : Walk q pos ps)
    (h' : Walk q pos qs) : qs = ps := by
  induction h generalizing qs with
  | stop none =>
    cases h' with
    | stop _ => rfl
    | pair hit _ => exact absurd hit (none _ _ _)
  | pair hit _ ih =>
    cases h' with
    | stop none => exact absurd hit (none _ _ _)
    | pair hit' more =>
      rw [hit] at hit'
      cases hit'
      rw [ih more]

end Cerco.UrlWalkers
