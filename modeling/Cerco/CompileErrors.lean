import Cerco.ByteMemory
import Cerco.CString
import Cerco.TransitionRuns
import Mathlib.Algebra.Ring.Nat

set_option autoImplicit false

/-!
# What the compile pool collects

Workers take jobs and append what clang said of a job that failed, each under the lock.
`err` has 16384 bytes; a store outside of it has no result.
-/
namespace Cerco.CompileErrors
open Cerco.ByteMemory Cerco.CString Cerco.TransitionRuns

def errSize : ℕ := 16384

/-- The `err` of a job that failed, a C string in an array of 8192 bytes. -/
structure ErrorText where
  bytes : Bytes
  nulFree : 0 ∉ bytes
  short : bytes.length ≤ 8191

structure Errors where
  err : Mem
  len : ℕ

def noErrors : Errors := ⟨fun _ => 0, 0⟩

def storeInErr (m : Mem) (a : ℕ) (bytes : Bytes) : Option Mem :=
  if a + bytes.length ≤ errSize then some (m.write a bytes) else none

/-- The critical section of `pool_worker` behind a job that failed; `room` is a `size_t`. -/
def appendError (e : Errors) (text : ErrorText) : Option Errors :=
  let room := (errSize + 2 ^ 64 - e.len - 1) % 2 ^ 64
  if 0 < room then
    let len := if room < text.bytes.length then room else text.bytes.length
    (storeInErr e.err e.len (text.bytes.take len)).bind fun err =>
      (storeInErr err (e.len + len) [10]).bind fun err =>
        (storeInErr err (e.len + len + 1) [0]).map fun err => ⟨err, e.len + len + 1⟩
  else some e

def appendAll (e : Errors) (texts : List ErrorText) : Option Errors := texts.foldlM appendError e

/-- A pool with the jobs that are compiled, and those that failed in the order of their appends. -/
structure Pool where
  next : ℕ
  running : List ℕ
  failed : List ℕ
  errors : Option Errors

/-- A worker takes the next number, or is done with a job. -/
inductive PoolEvent
  | take
  | finish (job : ℕ)

/-- `jobs` is the length of the queue, `compile` what comes of a job. -/
def poolStep (jobs : ℕ) (compile : ℕ → Option ErrorText) (p : Pool) : PoolEvent → Option Pool
  | .take =>
    some { p with next := p.next + 1, running := if p.next < jobs then p.next :: p.running else p.running }
  | .finish job =>
    if job ∈ p.running then
      some <|
        match compile job with
        | none => { p with running := p.running.erase job }
        | some text =>
          { p with
            running := p.running.erase job
            failed := p.failed ++ [job]
            errors := p.errors.bind fun e => appendError e text }
    else none

def poolSystem (jobs : ℕ) (compile : ℕ → Option ErrorText) : System Pool PoolEvent where
  start p := p = ⟨0, [], [], some noErrors⟩
  step := poolStep jobs compile

def joined (texts : List ErrorText) : Bytes := texts.flatMap fun text => text.bytes ++ [10]

/-- Behind each append the length is in bounds, and `err` is a C string of that length that the texts
begin with; no store was outside. -/
def StaysInside (texts : List ErrorText) : Prop :=
  ∀ pre, pre <+: texts → ∃ e, appendAll noErrors pre = some e ∧ e.len ≤ errSize - 1 ∧
    ∃ text, e.err.string 0 errSize = some text ∧ text.length = e.len ∧ text <+: joined pre

def total (texts : List ErrorText) : ℕ := (texts.map fun text => text.bytes.length + 1).sum

/-- There is room for all texts, or some of the first ones fill the room to the last byte. -/
def Fit (texts : List ErrorText) : Prop :=
  total texts ≤ errSize - 1 ∨ ∃ pre, pre <+: texts ∧ total pre = errSize - 1

/-- What is in the buffer when `done` was to be appended. -/
structure Holds (e : Errors) (done : Bytes) : Prop where
  bound : e.len ≤ errSize - 1
  front : e.err.load 0 e.len <+: done
  nul : e.err e.len = 0
  whole : e.len < errSize - 1 → e.err.load 0 e.len = done

theorem append_full {e : Errors} (full : e.len = errSize - 1) (text : ErrorText) : appendError e text = some e := by
  unfold appendError
  rw [full]
  exact if_neg (by decide)

theorem append_fits {e : Errors} {text : ErrorText} (fits : e.len + text.bytes.length + 1 ≤ errSize - 1) :
    appendError e text =
      some ⟨e.err.write e.len (text.bytes ++ [10, 0]), e.len + text.bytes.length + 1⟩ := by
  unfold errSize at fits
  have room : (errSize + 2 ^ 64 - e.len - 1) % 2 ^ 64 = errSize - 1 - e.len := by
    unfold errSize
    omega
  have uncut : ¬ errSize - 1 - e.len < text.bytes.length := by
    unfold errSize
    omega
  unfold appendError
  dsimp only
  rw [room, if_pos (by unfold errSize; omega), if_neg uncut, List.take_length]
  unfold storeInErr errSize
  rw [if_pos (by omega), Option.bind_some, if_pos (by simp only [List.length_singleton]; omega), Option.bind_some,
    if_pos (by simp only [List.length_singleton]; omega), Option.map_some, write_append]
  rfl

theorem append_bursts {e : Errors} {text : ErrorText} (some : e.len < errSize - 1)
    (more : errSize - 1 < e.len + text.bytes.length + 1) : appendError e text = none := by
  unfold errSize at some more
  have room : (errSize + 2 ^ 64 - e.len - 1) % 2 ^ 64 = errSize - 1 - e.len := by
    unfold errSize
    omega
  have filled : (if errSize - 1 - e.len < text.bytes.length then errSize - 1 - e.len else text.bytes.length) =
      errSize - 1 - e.len := by
    unfold errSize
    split <;> omega
  unfold appendError
  dsimp only
  rw [room, if_pos (by unfold errSize; omega), filled]
  have cut : (text.bytes.take (errSize - 1 - e.len)).length = errSize - 1 - e.len := by
    rw [List.length_take]
    unfold errSize
    omega
  have stop : e.len + (errSize - 1 - e.len) = errSize - 1 := by
    unfold errSize
    omega
  unfold storeInErr
  rw [cut, stop, if_pos (by decide), Option.bind_some, if_pos (by decide), Option.bind_some, if_neg (by decide)]
  rfl

theorem joined_cons (text : ErrorText) (texts : List ErrorText) :
    joined (text :: texts) = text.bytes ++ 10 :: joined texts := by
  rw [joined, List.flatMap_cons, List.append_assoc]
  rfl

def FitFrom : ℕ → List ErrorText → Prop
  | _, [] => True
  | len, text :: texts =>
    len = errSize - 1 ∨ len + text.bytes.length + 1 ≤ errSize - 1 ∧ FitFrom (len + text.bytes.length + 1) texts

theorem holds_append {e : Errors} {done : Bytes} (h : Holds e done) {text : ErrorText}
    (fits : e.len + text.bytes.length + 1 ≤ errSize - 1) :
    Holds ⟨e.err.write e.len (text.bytes ++ [10, 0]), e.len + text.bytes.length + 1⟩
      (done ++ (text.bytes ++ [10])) := by
  have written : (e.err.write e.len (text.bytes ++ [10, 0])).load 0 (e.len + text.bytes.length + 1) =
      done ++ (text.bytes ++ [10]) := by
    have behind := load_write_behind e.err 0 e.len (text.bytes ++ [10])
    rw [Nat.zero_add, h.whole (by omega), List.length_append, List.length_singleton, ← Nat.add_assoc] at behind
    have split : text.bytes ++ [10, 0] = text.bytes ++ [10] ++ [0] := by rw [List.append_assoc]; rfl
    rw [← behind, split, write_append]
    refine load_congr fun x _ below => write_outside _ [0] (.inl ?_)
    rw [List.length_append, List.length_singleton]
    omega
  refine ⟨fits, ?_, ?_, fun _ => written⟩
  · exact written.symm ▸ List.prefix_rfl
  · have split : text.bytes ++ [10, 0] = text.bytes ++ [10] ++ [0] := by rw [List.append_assoc]; rfl
    rw [split, write_append, List.length_append]
    exact if_pos rfl

theorem appendAll_holds (texts : List ErrorText) {e : Errors} {done : Bytes} (h : Holds e done) :
    (FitFrom e.len texts → ∃ t, appendAll e texts = some t ∧ Holds t (done ++ joined texts)) ∧
      (¬ FitFrom e.len texts → appendAll e texts = none) := by
  induction texts generalizing e done with
  | nil =>
    refine ⟨fun _ => ⟨e, rfl, ?_⟩, fun no => absurd trivial no⟩
    rw [joined, List.flatMap_nil, List.append_nil]
    exact h
  | cons text texts ih =>
    have run : appendAll e (text :: texts) = (appendError e text).bind fun t => appendAll t texts := rfl
    have more : done ++ joined (text :: texts) = done ++ (text.bytes ++ [10]) ++ joined texts := by
      rw [joined_cons, List.append_assoc, List.append_assoc]
      rfl
    rw [run, more]
    by_cases full : e.len = errSize - 1
    · have same : Holds e (done ++ (text.bytes ++ [10])) :=
        ⟨h.bound, h.front.trans (List.prefix_append _ _), h.nul, fun some => absurd full (Nat.ne_of_lt some)⟩
      have all : FitFrom e.len texts := by
        cases texts with
        | nil => trivial
        | cons => exact .inl full
      rw [append_full full, Option.bind_some]
      exact ⟨fun _ => (ih same).1 all, fun no => absurd (.inl full) no⟩
    · by_cases fits : e.len + text.bytes.length + 1 ≤ errSize - 1
      · have next := ih (holds_append h fits)
        rw [append_fits fits, Option.bind_some]
        exact ⟨fun fit => next.1 (fit.resolve_left full).2, fun no => next.2 fun fit => no (.inr ⟨fits, fit⟩)⟩
      · have bound := h.bound
        rw [append_bursts (by omega) (by omega)]
        exact ⟨fun fit => absurd (fit.resolve_left full).1 fits, fun _ => rfl⟩

theorem noErrors_holds : Holds noErrors [] :=
  ⟨Nat.zero_le _, List.nil_prefix, rfl, fun _ => rfl⟩

theorem joined_nulFree (texts : List ErrorText) : 0 ∉ joined texts := by
  intro mem
  obtain ⟨text, _, there⟩ := List.mem_flatMap.mp mem
  obtain inside | newline := List.mem_append.mp there
  · exact text.nulFree inside
  · exact absurd (List.mem_singleton.mp newline) (by decide)

theorem Holds.string {e : Errors} {texts : List ErrorText} (h : Holds e (joined texts)) :
    ∃ text, e.err.string 0 errSize = some text ∧ text.length = e.len ∧ text <+: joined texts := by
  refine ⟨e.err.load 0 e.len, string_eq_some.mpr ?_, load_length _ _ _, h.front⟩
  have bound := h.bound
  have nul := h.nul
  rw [load_length, Nat.zero_add]
  unfold errSize at bound ⊢
  exact ⟨by omega, rfl, fun mem => joined_nulFree texts (h.front.subset mem), nul⟩

theorem staysInside_iff (texts : List ErrorText) : StaysInside texts ↔ FitFrom 0 texts := by
  have all := appendAll_holds texts noErrors_holds
  constructor
  · intro inside
    by_contra no
    obtain ⟨e, run, _⟩ := inside texts List.prefix_rfl
    rw [all.2 no] at run
    cases run
  · rintro fit pre ⟨rest, rfl⟩
    have front : FitFrom 0 pre := by
      by_contra no
      have stuck := (appendAll_holds pre noErrors_holds).2 no
      obtain ⟨e, run, _⟩ := all.1 fit
      rw [appendAll, List.foldlM_append] at run
      change ((appendAll noErrors pre).bind fun e => appendAll e rest) = some e at run
      rw [stuck] at run
      cases run
    obtain ⟨e, run, holds⟩ := (appendAll_holds pre noErrors_holds).1 front
    exact ⟨e, run, holds.bound, holds.string⟩

theorem total_cons (text : ErrorText) (texts : List ErrorText) :
    total (text :: texts) = text.bytes.length + 1 + total texts := by
  rw [total, List.map_cons, List.sum_cons, total]

theorem fitFrom_iff (len : ℕ) (texts : List ErrorText) (bound : len ≤ errSize - 1) :
    FitFrom len texts ↔ len + total texts ≤ errSize - 1 ∨ ∃ pre, pre <+: texts ∧ len + total pre = errSize - 1 := by
  induction texts generalizing len with
  | nil => exact iff_of_true trivial (.inl bound)
  | cons text texts ih =>
    rw [FitFrom, total_cons]
    constructor
    · rintro (full | ⟨fits, rest⟩)
      · exact .inr ⟨[], List.nil_prefix, full⟩
      · obtain room | ⟨pre, front, sum⟩ := (ih _ fits).mp rest
        · exact .inl (by omega)
        · exact .inr ⟨text :: pre, List.cons_prefix_cons.mpr ⟨rfl, front⟩, by rw [total_cons]; omega⟩
    · rintro (room | ⟨pre, front, sum⟩)
      · exact .inr ⟨by omega, (ih _ (by omega)).mpr (.inl (by omega))⟩
      · cases pre with
        | nil => exact .inl sum
        | cons first pre =>
          obtain ⟨rfl, tail⟩ := List.cons_prefix_cons.mp front
          rw [total_cons] at sum
          exact .inr ⟨by omega, (ih _ (by omega)).mpr (.inr ⟨pre, tail, by omega⟩)⟩

/-- However many jobs fail, with whatever texts in whatever order: the buffer keeps to its bounds and
holds a front of the texts exactly if there is room for all of them, or some of the first ones fill the
room to the last byte. -/
theorem errors_stay_inside_iff (texts : List ErrorText) : StaysInside texts ↔ Fit texts := by
  rw [staysInside_iff, fitFrom_iff 0 texts (Nat.zero_le _), Fit]
  simp only [Nat.zero_add]

/-- A text that fills the array of its job. -/
def longText : ErrorText where
  bytes := List.replicate 8191 97
  nulFree := fun mem => absurd (List.eq_of_mem_replicate mem) (by decide)
  short := Nat.le_of_eq List.length_replicate

/-- The NUL behind the second text is the first byte behind `err`. -/
theorem two_texts_burst : ¬ StaysInside [longText, longText] ∧ appendAll noErrors [longText, longText] = none := by
  have length : longText.bytes.length = 8191 := List.length_replicate
  have no : ¬ FitFrom 0 [longText, longText] := by
    rw [FitFrom, FitFrom, length]
    unfold errSize
    omega
  exact ⟨fun inside => no ((staysInside_iff _).mp inside), (appendAll_holds _ noErrors_holds).2 no⟩

/-- Every job is in one place, and the buffer is that of the failed ones in their order. -/
structure PoolInv (jobs : ℕ) (compile : ℕ → Option ErrorText) (p : Pool) : Prop where
  taken : ∀ i ∈ p.running ++ p.failed, i < p.next ∧ i < jobs
  once : (p.running ++ p.failed).Nodup
  errors : p.errors = appendAll noErrors (p.failed.filterMap compile)

theorem appendAll_snoc (e : Errors) (texts : List ErrorText) (text : ErrorText) :
    appendAll e (texts ++ [text]) = (appendAll e texts).bind fun t => appendError t text := by
  rw [appendAll, List.foldlM_append]
  change (appendAll e texts).bind (fun t => (appendError t text).bind some) = _
  simp only [Option.bind_fun_some]

theorem PoolInv.step {jobs : ℕ} {compile : ℕ → Option ErrorText} {p q : Pool} {e : PoolEvent}
    (h : PoolInv jobs compile p) (hs : poolStep jobs compile p e = some q) : PoolInv jobs compile q := by
  cases e with
  | take =>
    obtain rfl := Option.some.inj hs
    by_cases more : p.next < jobs
    · have fresh : p.next ∉ p.running ++ p.failed := fun mem => absurd (h.taken _ mem).1 (Nat.lt_irrefl _)
      refine ⟨?_, ?_, h.errors⟩
      · rw [if_pos more]
        rintro i (_ | ⟨_, old⟩)
        · exact ⟨Nat.lt_succ_self _, more⟩
        · exact ⟨Nat.lt_succ_of_lt (h.taken i old).1, (h.taken i old).2⟩
      · rw [if_pos more]
        exact List.nodup_cons.mpr ⟨fresh, h.once⟩
    · refine ⟨?_, ?_, h.errors⟩
      · rw [if_neg more]
        exact fun i old => ⟨Nat.lt_succ_of_lt (h.taken i old).1, (h.taken i old).2⟩
      · rw [if_neg more]
        exact h.once
  | finish job =>
    obtain ⟨running, e⟩ := Option.ite_none_right_eq_some.mp hs
    have moved : (p.running.erase job ++ (p.failed ++ [job])).Perm (p.running ++ p.failed) := by
      have taken := (List.perm_cons_erase running).append_right p.failed
      rw [← List.append_assoc]
      exact (List.perm_append_singleton _ _).trans taken.symm
    have left : (p.running.erase job ++ p.failed).Sublist (p.running ++ p.failed) :=
      List.erase_sublist.append_right p.failed
    cases result : compile job with
    | none =>
      rw [result] at e
      obtain rfl := Option.some.inj e
      exact ⟨fun i mem => h.taken i (left.subset mem), h.once.sublist left, h.errors⟩
    | some text =>
      rw [result] at e
      obtain rfl := Option.some.inj e
      refine ⟨fun i mem => h.taken i (moved.mem_iff.mp mem), moved.nodup_iff.mpr h.once, ?_⟩
      change p.errors.bind (fun e => appendError e text) = appendAll noErrors ((p.failed ++ [job]).filterMap compile)
      have last : [job].filterMap compile = [text] := by rw [List.filterMap_cons_some result, List.filterMap_nil]
      rw [List.filterMap_append, last, appendAll_snoc, h.errors]

/-- In every run of the workers, the buffer is that of the failed jobs in the order of their appends. -/
theorem pool_errors {jobs : ℕ} {compile : ℕ → Option ErrorText} {p : Pool}
    (h : Reach (poolSystem jobs compile) anyStep p) : PoolInv jobs compile p := by
  refine h.invariant ?_ fun p e q inv _ hs => inv.step hs
  rintro _ rfl
  exact ⟨fun _ mem => absurd mem List.not_mem_nil, List.nodup_nil, rfl⟩

end Cerco.CompileErrors
