import Cerco.BumpRegions
import Cerco.ClientScratch
import Cerco.HydrateProps

set_option autoImplicit false

/-!
# Scratch memory while components are mounted

The host stages every root at the start of the scratch region. Memory that a mount
function takes from the region begins at an offset that all earlier users moved.
-/
namespace Cerco.MountScratch
open Cerco.BumpRegions Cerco.ClientScratch Cerco.CString Cerco.LittleEndian
open Cerco.ClientHeap (wrap32)
open Cerco.ClientReply (scratchFits scratchSize)
open Cerco.HydrateProps (Root staged_name staged_nameLen staged_propsLen)
open Cerco.ServerFunctions (CStr)

def scratchAdvance (s : Scratch) (n : ℕ) : Scratch :=
  if scratchFits s.off n then { s with off := s.off + rounded n } else s

def scratchReset (s : Scratch) : Scratch := { s with off := 0 }

/-- What the application does to the region; no object has more than `PTRDIFF_MAX` bytes.
`cerco_navigate` resets it, and so does an event that a flush fires. -/
inductive MountOp
  | alloc (n : ℕ) (small : n < 2 ^ 31)
  | strdup (t : CStr) (small : t.1.length + 1 < 2 ^ 31)
  | reset

def MountOp.size : MountOp → ℕ
  | .alloc n _ => n
  | .strdup t _ => t.1.length + 1
  | .reset => 0

def MountOp.run (s : Scratch) : MountOp → Option ℕ × Scratch
  | .alloc n _ => scratchAlloc s n
  | .strdup t _ => scratchStrdup s (.text t)
  | .reset => (none, scratchReset s)

/-- The memory that the operations return, and the region behind them. -/
def runOps : Scratch → List MountOp → List Region × Scratch
  | s, [] => ([], s)
  | s, op :: ops =>
    let taken := op.run s
    let rest := runOps taken.2 ops
    ((taken.1.map fun p => ⟨p, op.size⟩).toList ++ rest.1, rest.2)

/-- A root, what its mount function does to the region, and what happens while the
commands are flushed behind it. -/
structure MountCall where
  root : Root
  mount : List MountOp
  flush : List MountOp

/-- `cerco_scratch_base` -/
def scratchBase (s : Scratch) : ℕ := (s.base.map (·.1)).getD 0

/-- `cerco_hydrate_root`: the memory returned while the mount function runs. -/
def cercoHydrateRoot (components : List Bytes) (s : Scratch) (call : MountCall) : List Region × Scratch :=
  let nameLen := leGet (s.mem.load (scratchBase s) 4)
  if 128 < nameLen then ([], s)
  else
    let propsLen := leGet (s.mem.load (scratchBase s + 4 + nameLen) 4)
    if 65536 - 16 < wrap32 (4 + nameLen + 4 + propsLen) then ([], s)
    else
      let name := s.mem.load (scratchBase s + 4) nameLen
      let s := scratchAdvance s (wrap32 (4 + nameLen + 4 + propsLen))
      if components.contains name then
        let mounted := runOps s call.mount
        (mounted.1, (runOps mounted.2 call.flush).2)
      else ([], s)

def withRecord (s : Scratch) (r : Root) : Scratch := { s with mem := s.mem.write (scratchBase s) r.record }

def hydrateRoot (components : List Bytes) (s : Scratch) (call : MountCall) : List Region × Scratch :=
  if scratchSize < call.root.need then ([], s)
  else cercoHydrateRoot components (withRecord s call.root) call

/-- `hydrate_roots`: each root with the memory returned during its mount. -/
def hydrateRoots (components : List Bytes) : Scratch → List MountCall → List (Root × List Region)
  | _, [] => []
  | s, call :: calls =>
    (call.root, (hydrateRoot components s call).1) :: hydrateRoots components (hydrateRoot components s call).2 calls

/-- The region when the roots are scanned: after a boot, or behind the page region and the
title of a page that was fetched. -/
inductive Before
  | boot
  | page (plen : ℕ) (some : 0 < plen) (short : plen ≤ 60000) (title : Option ℕ) (line : ∀ t ∈ title, t < 512)

def Before.scratch (s : Scratch) : Before → Scratch
  | .boot => scratchReset s
  | .page plen _ _ title _ =>
    let region := (scratchAlloc (scratchReset s) (plen + 1)).2
    match title with
    | none => region
    | some t => (scratchAlloc region (t + 1)).2

def staged (s : Scratch) (r : Root) : Region := ⟨scratchBase s, r.need⟩

def Overlap (k q : Region) : Prop := ∃ x, (k.base ≤ x ∧ x < k.stop) ∧ q.base ≤ x ∧ x < q.stop

/-- In no mount was memory returned that overlaps what is staged for its root, with the
two lengths in it. -/
def RecordSafe (s : Scratch) (run : List (Root × List Region)) : Prop :=
  ∀ m ∈ run, ∀ k ∈ m.2, ¬ Overlap k (staged s m.1)

def nameAt (s : Scratch) (r : Root) : Region := ⟨scratchBase s + 4, r.name.length⟩

def propsAt (s : Scratch) (r : Root) : Region := ⟨scratchBase s + 4 + r.name.length + 4, r.props.length⟩

/-- In no mount was memory returned that overlaps the name or the props of its root. -/
def PropsSafe (s : Scratch) (run : List (Root × List Region)) : Prop :=
  ∀ m ∈ run, ∀ k ∈ m.2, ¬ Overlap k (nameAt s m.1) ∧ ¬ Overlap k (propsAt s m.1)

structure Mountable (components : List Bytes) (r : Root) : Prop where
  name : r.name.length ≤ 128
  need : r.need ≤ 65536 - 16
  known : components.contains r.name = true

def MountOp.isReset : MountOp → Bool
  | .reset => true
  | _ => false

def Asks (s : Scratch) (ops : List MountOp) : Prop := ∃ op ∈ ops, 0 < op.size ∧ Room s op.size

/-- The advance has room or is not needed, or nothing is taken, and nothing is taken behind a reset. -/
def Guarded (s : Scratch) (call : MountCall) : Prop :=
  (s.off + rounded call.root.need ≤ scratchSize ∨ call.root.need ≤ s.off ∨
      ¬ Asks s (call.mount.takeWhile fun op => !op.isReset)) ∧
    ¬ Asks (scratchReset s) (call.mount.dropWhile fun op => !op.isReset)

/-- Each root that is mounted finds the region so. -/
def AllGuarded (components : List Bytes) : Scratch → List MountCall → Prop
  | _, [] => True
  | s, call :: calls => (Mountable components call.root → Guarded s call) ∧
      AllGuarded components (hydrateRoot components s call).2 calls

theorem run_room {s : Scratch} {op : MountOp} (take : op.isReset = false) (room : Room s op.size) :
    (op.run s).1 = some s.addr ∧ (op.run s).2.base = s.base ∧ (op.run s).2.off = s.off + rounded op.size := by
  cases op with
  | alloc n small =>
    have taken : scratchAlloc s n = _ := scratchAlloc_room room
    change (scratchAlloc s n).1 = _ ∧ (scratchAlloc s n).2.base = _ ∧ (scratchAlloc s n).2.off = _
    rw [taken]
    exact ⟨rfl, rfl, rfl⟩
  | strdup t small =>
    change (scratchStrdup s (.text t)).1 = _ ∧ (scratchStrdup s (.text t)).2.base = _ ∧
      (scratchStrdup s (.text t)).2.off = _
    rw [scratchStrdup_room (.text t) room]
    exact ⟨rfl, rfl, rfl⟩
  | reset => cases take

theorem run_full {s : Scratch} {op : MountOp} (take : op.isReset = false) (full : ¬ Room s op.size) :
    op.run s = (none, s) := by
  cases op with
  | alloc n small => exact scratchAlloc_full full
  | strdup t small => exact scratchStrdup_full (.text t) full
  | reset => cases take

/-- Memory that starts at the offset overlaps the first bytes of the region unless these end there. -/
theorem overlap_iff (s : Scratch) {n need : ℕ} :
    Overlap ⟨s.addr, n⟩ ⟨scratchBase s, need⟩ ↔ 0 < n ∧ s.off < need := by
  unfold Overlap Region.stop Scratch.addr scratchBase
  dsimp only
  constructor
  · rintro ⟨x, inBlock, inStaged⟩
    omega
  · rintro ⟨full, below⟩
    exact ⟨(s.base.map (·.1)).getD 0 + s.off, by omega, by omega⟩

theorem asks_congr {s t : Scratch} (base : t.base = s.base) (off : t.off = s.off) (ops : List MountOp) :
    Asks t ops ↔ Asks s ops := by
  unfold Asks Room
  rw [base, off]

theorem asks_reset {s t : Scratch} (base : t.base = s.base) (ops : List MountOp) :
    Asks (scratchReset t) ops ↔ Asks (scratchReset s) ops := by
  unfold Asks Room scratchReset
  rw [base]

theorem asks_cons (s : Scratch) (op : MountOp) (ops : List MountOp) :
    Asks s (op :: ops) ↔ (0 < op.size ∧ Room s op.size) ∨ Asks s ops := by
  simp [Asks]

theorem asks_append (s : Scratch) (ops more : List MountOp) :
    Asks s (ops ++ more) ↔ Asks s ops ∨ Asks s more := by
  simp only [Asks, List.mem_append, or_and_right, exists_or]

def Clears (need : ℕ) (s : Scratch) (ops : List MountOp) : Prop :=
  (need ≤ s.off ∨ ¬ Asks s (ops.takeWhile fun op => !op.isReset)) ∧
    ¬ Asks (scratchReset s) (ops.dropWhile fun op => !op.isReset)

theorem clears_nil (need : ℕ) (s : Scratch) : Clears need s [] := by
  simp [Clears, Asks]

theorem run_reset {op : MountOp} (reset : op.isReset = true) (s : Scratch) : op.run s = (none, scratchReset s) := by
  cases op with
  | alloc n small => cases reset
  | strdup t small => cases reset
  | reset => rfl

theorem reset_size {op : MountOp} (reset : op.isReset = true) : op.size = 0 := by
  cases op with
  | alloc n small => cases reset
  | strdup t small => cases reset
  | reset => rfl

theorem clears_reset {need : ℕ} (pos : 0 < need) {op : MountOp} (reset : op.isReset = true) (s : Scratch)
    (ops : List MountOp) : Clears need s (op :: ops) ↔ Clears need (scratchReset s) ops := by
  have whole := asks_append (scratchReset s) (ops.takeWhile fun op => !op.isReset)
    (ops.dropWhile fun op => !op.isReset)
  rw [List.takeWhile_append_dropWhile] at whole
  have zero : (scratchReset s).off = 0 := rfl
  have twice : scratchReset (scratchReset s) = scratchReset s := rfl
  unfold Clears
  rw [List.takeWhile_cons_of_neg (by simp [reset]), List.dropWhile_cons_of_neg (by simp [reset]), asks_cons,
    reset_size reset, whole, zero, twice]
  simp only [Asks, List.not_mem_nil, false_and, exists_false, not_false_eq_true, or_true, true_and,
    Nat.lt_irrefl, false_or, Nat.le_zero, pos.ne', not_or]

theorem clears_room {need : ℕ} {op : MountOp} (take : op.isReset = false) {s : Scratch} (room : Room s op.size)
    (ops : List MountOp) :
    Clears need s (op :: ops) ↔ (op.size = 0 ∨ need ≤ s.off) ∧ Clears need (op.run s).2 ops := by
  obtain ⟨given, base, off⟩ := run_room take room
  have grows := le_rounded op.size
  unfold Clears
  rw [List.takeWhile_cons_of_pos (by simp [take]), List.dropWhile_cons_of_pos (by simp [take]), asks_cons,
    asks_reset base, off]
  by_cases empty : op.size = 0
  · have same : (op.run s).2.off = s.off := by rw [off, empty]; rfl
    rw [asks_congr base same, empty]
    have none : rounded 0 = 0 := rfl
    simp [none]
  · have first : 0 < op.size ∧ Room s op.size := ⟨Nat.pos_of_ne_zero empty, room⟩
    simp only [iff_true_intro first, true_or, not_true, or_false, empty, false_or]
    constructor
    · rintro ⟨below, clear⟩
      exact ⟨below, .inl (by omega), clear⟩
    · rintro ⟨below, -, clear⟩
      exact ⟨below, clear⟩

theorem clears_full {need : ℕ} {op : MountOp} (take : op.isReset = false) {s : Scratch} (full : ¬ Room s op.size)
    (ops : List MountOp) : Clears need s (op :: ops) ↔ Clears need s ops := by
  unfold Clears
  rw [List.takeWhile_cons_of_pos (by simp [take]), List.dropWhile_cons_of_pos (by simp [take]), asks_cons]
  simp only [full, and_false, false_or]

theorem runOps_clear {need : ℕ} (pos : 0 < need) (ops : List MountOp) (s : Scratch) :
    (∀ k ∈ (runOps s ops).1, ¬ Overlap k ⟨scratchBase s, need⟩) ↔ Clears need s ops := by
  induction ops generalizing s with
  | nil => exact iff_of_true (fun k none => by cases none) (clears_nil need s)
  | cons op ops ih =>
    cases take : op.isReset with
    | true =>
      have start : scratchBase (scratchReset s) = scratchBase s := rfl
      rw [clears_reset pos take, ← ih (scratchReset s), start]
      simp only [runOps, run_reset take, Option.map_none, Option.toList_none, List.nil_append]
    | false =>
      by_cases room : Room s op.size
      · obtain ⟨given, base, -⟩ := run_room take room
        have start : scratchBase (op.run s).2 = scratchBase s := by rw [scratchBase, base, scratchBase]
        rw [clears_room take room, ← ih (op.run s).2, start]
        simp only [runOps, given, Option.map_some, Option.toList_some, List.singleton_append, List.forall_mem_cons,
          overlap_iff, not_and_or, Nat.not_lt, Nat.le_zero]
      · rw [clears_full take room, ← ih s]
        simp only [runOps, run_full take room, Option.map_none, Option.toList_none, List.nil_append]

theorem run_base (op : MountOp) (s : Scratch) : (op.run s).2.base = s.base := by
  cases take : op.isReset with
  | true => rw [run_reset take, scratchReset]
  | false =>
    by_cases room : Room s op.size
    · exact (run_room take room).2.1
    · rw [run_full take room]

theorem runOps_base (ops : List MountOp) (s : Scratch) : (runOps s ops).2.base = s.base := by
  induction ops generalizing s with
  | nil => rfl
  | cons op ops ih => exact (ih (op.run s).2).trans (run_base op s)

theorem scratchAdvance_base (s : Scratch) (n : ℕ) : (scratchAdvance s n).base = s.base := by
  unfold scratchAdvance
  split <;> rfl

theorem cercoHydrateRoot_staged (components : List Bytes) (s : Scratch) {call : MountCall}
    (fits : call.root.need ≤ scratchSize) :
    cercoHydrateRoot components (withRecord s call.root) call =
      if call.root.name.length ≤ 128 ∧ call.root.need ≤ 65536 - 16 then
        if components.contains call.root.name then
          ((runOps (scratchAdvance (withRecord s call.root) call.root.need) call.mount).1,
            (runOps (runOps (scratchAdvance (withRecord s call.root) call.root.need) call.mount).2 call.flush).2)
        else ([], scratchAdvance (withRecord s call.root) call.root.need)
      else ([], withRecord s call.root) := by
  unfold Root.need scratchSize at fits
  have name : leGet (lePut 4 call.root.name.length) = call.root.name.length := leGet_lePut_of_lt (by omega)
  have props : leGet (lePut 4 call.root.props.length) = call.root.props.length := leGet_lePut_of_lt (by omega)
  have sum : wrap32 (4 + call.root.name.length + 4 + call.root.props.length) = call.root.need :=
    Nat.mod_eq_of_lt (by omega)
  have base : scratchBase (withRecord s call.root) = scratchBase s := rfl
  have mem : (withRecord s call.root).mem = s.mem.write (scratchBase s) call.root.record := rfl
  unfold cercoHydrateRoot
  simp only [base, mem, staged_nameLen, name, staged_name, staged_propsLen, props, sum]
  by_cases long : 128 < call.root.name.length
  · rw [if_pos long, if_neg (by omega)]
  · rw [if_neg long]
    by_cases big : 65536 - 16 < call.root.need
    · rw [if_pos big, if_neg (by omega)]
    · have limits : call.root.name.length ≤ 128 ∧ call.root.need ≤ 65536 - 16 := ⟨by omega, by omega⟩
      rw [if_neg big, if_pos limits]

theorem hydrateRoot_base (components : List Bytes) (s : Scratch) (call : MountCall) :
    (hydrateRoot components s call).2.base = s.base := by
  unfold hydrateRoot
  split
  · rfl
  · rename_i fits
    rw [cercoHydrateRoot_staged components s (Nat.le_of_not_lt fits)]
    split
    · split
      · rw [runOps_base, runOps_base, scratchAdvance_base]
        rfl
      · rw [scratchAdvance_base]
        rfl
    · rfl

theorem need_pos (r : Root) : 0 < r.need := by
  unfold Root.need
  omega

theorem advance_clears (s : Scratch) (call : MountCall) :
    Clears call.root.need (scratchAdvance (withRecord s call.root) call.root.need) call.mount ↔ Guarded s call := by
  unfold Clears Guarded scratchAdvance
  split
  · rename_i room
    have advanced : s.off + rounded call.root.need ≤ scratchSize := of_decide_eq_true room
    have grows := le_rounded call.root.need
    have behind : call.root.need ≤ s.off + rounded call.root.need := by omega
    exact and_congr ⟨fun _ => .inl advanced, fun _ => .inl behind⟩ Iff.rfl
  · rename_i full
    have stuck : ¬ s.off + rounded call.root.need ≤ scratchSize := fun fits => full (decide_eq_true fits)
    rw [or_iff_right stuck]
    exact Iff.rfl

theorem hydrateRoot_clear (components : List Bytes) (s : Scratch) (call : MountCall) :
    (∀ k ∈ (hydrateRoot components s call).1, ¬ Overlap k (staged s call.root)) ↔
      (Mountable components call.root → Guarded s call) := by
  unfold hydrateRoot
  split
  · rename_i big
    have never : ¬ Mountable components call.root := by
      intro h
      have small := h.need
      unfold scratchSize at big
      omega
    exact ⟨fun _ h => absurd h never, fun _ k hk => by cases hk⟩
  · rename_i fits
    rw [cercoHydrateRoot_staged components s (Nat.le_of_not_lt fits)]
    split
    · rename_i limits
      split
      · rename_i known
        have able : Mountable components call.root := ⟨limits.1, limits.2, known⟩
        have start : staged s call.root =
            ⟨scratchBase (scratchAdvance (withRecord s call.root) call.root.need), call.root.need⟩ := by
          unfold staged scratchBase
          rw [scratchAdvance_base]
          rfl
        rw [forall_prop_of_true able, start, runOps_clear (need_pos call.root), advance_clears]
      · rename_i unknown
        exact ⟨fun _ h => absurd h.known unknown, fun _ k hk => by cases hk⟩
    · rename_i limits
      exact ⟨fun _ h => absurd ⟨h.name, h.need⟩ limits, fun _ k hk => by cases hk⟩

theorem before_base (s : Scratch) (start : Before) : (start.scratch s).base = s.base := by
  have kept : ∀ (t : Scratch) (n : ℕ), (scratchAlloc t n).2.base = t.base := by
    intro t n
    by_cases room : Room t n
    · rw [scratchAlloc_room room]
      rfl
    · rw [scratchAlloc_full room]
  cases start with
  | boot => rfl
  | page plen some short title line =>
    cases title with
    | none => exact kept _ _
    | some t => exact (kept _ _).trans (kept _ _)

theorem run_safe_iff (components : List Bytes) (s : Scratch) (calls : List MountCall) :
    RecordSafe s (hydrateRoots components s calls) ↔ AllGuarded components s calls := by
  induction calls generalizing s with
  | nil => exact ⟨fun _ => trivial, fun _ m hm => by cases hm⟩
  | cons call calls ih =>
    have start : ∀ r, staged (hydrateRoot components s call).2 r = staged s r := by
      intro r
      unfold staged scratchBase
      rw [hydrateRoot_base]
    have rest := ih (hydrateRoot components s call).2
    unfold RecordSafe at rest ⊢
    simp only [start] at rest
    rw [hydrateRoots, List.forall_mem_cons, hydrateRoot_clear, rest, AllGuarded]

theorem safe_before (s : Scratch) (start : Before) (run : List (Root × List Region)) :
    RecordSafe (start.scratch s) run ↔ RecordSafe s run := by
  unfold RecordSafe staged scratchBase
  rw [before_base]

theorem RecordSafe.props {s : Scratch} {run : List (Root × List Region)} (safe : RecordSafe s run) :
    PropsSafe s run := by
  intro m hm k hk
  have clear := safe m hm k hk
  constructor
  · rintro ⟨x, inBlock, low, high⟩
    simp only [nameAt, Region.stop] at low high
    refine clear ⟨x, inBlock, ?_, ?_⟩ <;> simp only [staged, Region.stop, Root.need] <;> omega
  · rintro ⟨x, inBlock, low, high⟩
    simp only [propsAt, Region.stop] at low high
    refine clear ⟨x, inBlock, ?_, ?_⟩ <;> simp only [staged, Region.stop, Root.need] <;> omega

/-- After a boot and behind a page region, the mounts of all roots get nothing of the record
of their root exactly if each of them is guarded, and then nothing of its name and props. -/
theorem mounts_keep_props (components : List Bytes) (s : Scratch) (start : Before) (calls : List MountCall) :
    (RecordSafe s (hydrateRoots components (start.scratch s) calls) ↔
      AllGuarded components (start.scratch s) calls) ∧
    (AllGuarded components (start.scratch s) calls →
      PropsSafe s (hydrateRoots components (start.scratch s) calls)) := by
  have exactly := run_safe_iff components (start.scratch s) calls
  rw [safe_before s start] at exactly
  exact ⟨exactly, fun guarded => (exactly.mpr guarded).props⟩

theorem PropsSafe.first {s : Scratch} {r : Root} {ks : List Region} {run : List (Root × List Region)}
    (safe : PropsSafe s ((r, ks) :: run)) {k : Region} (hk : k ∈ ks) : ¬ Overlap k (propsAt s r) :=
  (safe _ List.mem_cons_self k hk).2

theorem props_overlap {s : Scratch} {r : Root} {k : Region} (full : 0 < k.size)
    (low : scratchBase s + 8 + r.name.length ≤ k.base) (high : k.base < scratchBase s + r.need) :
    Overlap k (propsAt s r) := by
  unfold Root.need at high
  unfold Overlap propsAt Region.stop
  exact ⟨k.base, ⟨Nat.le_refl _, by omega⟩, by dsimp only; omega, by dsimp only; omega⟩

def clientRegion : Scratch := ⟨fun _ => 0, some ⟨1024, by decide⟩, 0⟩

def halfPage : Before := .page 30000 (by decide) (by decide) none (by simp)

/-- Props of 40000 bytes and a selector. -/
def boxCall : MountCall :=
  ⟨⟨ascii "box", List.replicate 40000 97⟩, [.strdup ⟨ascii "#x", by decide⟩ (by decide)], []⟩

theorem need_replicate (name : Bytes) (n : ℕ) : Root.need ⟨name, List.replicate n 97⟩ = 8 + name.length + n := by
  simp only [Root.need, List.length_replicate]
  omega

/-- The selector is copied into the props. -/
theorem selector_in_props : boxCall.root.need ≤ 65536 - 16 ∧
    ¬ PropsSafe clientRegion (hydrateRoots [ascii "box"] (halfPage.scratch clientRegion) [boxCall]) := by
  have need : boxCall.root.need = 40011 := (need_replicate (ascii "box") 40000).trans (by decide)
  have size : scratchSize = 65536 := rfl
  refine ⟨by omega, fun safe => ?_⟩
  obtain ⟨s, hs⟩ : ∃ s, s = withRecord (halfPage.scratch clientRegion) boxCall.root := ⟨_, rfl⟩
  have off : s.off = 30008 := by rw [hs]; rfl
  have addr : s.addr = 31032 := by rw [hs]; rfl
  have room : Room s 3 := room_iff.mpr ⟨by rw [hs]; rfl, by rw [off]; decide⟩
  have stuck : scratchAdvance s boxCall.root.need = s := by
    rw [need, scratchAdvance, off]
    rfl
  have copied : (runOps s boxCall.mount).1 = [⟨31032, 3⟩] := by
    have given := (@run_room s (.strdup ⟨ascii "#x", by decide⟩ (by decide)) rfl room).1
    rw [addr] at given
    simp only [boxCall, runOps, given]
    rfl
  have taken : (⟨31032, 3⟩ : Region) ∈ (hydrateRoot [ascii "box"] (halfPage.scratch clientRegion) boxCall).1 := by
    have known : [ascii "box"].contains boxCall.root.name = true := by decide
    have limits : boxCall.root.name.length ≤ 128 ∧ boxCall.root.need ≤ 65536 - 16 := ⟨by decide, by omega⟩
    rw [hydrateRoot, if_neg (by omega), cercoHydrateRoot_staged _ _ (by omega), if_pos limits, if_pos known, ← hs,
      stuck, copied]
    exact List.mem_singleton_self _
  have base : scratchBase clientRegion = 1024 := rfl
  have name : boxCall.root.name.length = 3 := rfl
  rw [hydrateRoots] at safe
  refine safe.first taken (props_overlap (Nat.succ_pos 2) ?_ ?_)
  · change scratchBase clientRegion + 8 + boxCall.root.name.length ≤ 31032
    omega
  · change 31032 < scratchBase clientRegion + boxCall.root.need
    omega

end Cerco.MountScratch
