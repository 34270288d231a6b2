import Cerco.ArenaTurns

set_option autoImplicit false

/-!
# The arena in 64-bit arithmetic

A call may ask for any `size_t`, so the sums that `arena_grow` and the loop
compare can wrap around. Where they do not, a turn is the turn of
`Cerco.ArenaTurns`. `total` counts the bytes of the chunks that malloc gave.
-/
namespace Cerco.ArenaWords
open Cerco.Alloc Cerco.TransitionRuns Cerco.ArenaTurns

/-- `(base + (align - 1)) & ~(align - 1)`, less `base`. -/
def pad64 (addr align : ℕ) : ℕ :=
  let base := BitVec.ofNat 64 addr
  let mask := BitVec.ofNat 64 align - 1
  (((base + mask) &&& ~~~mask) - base).toNat

def Fits64 (a : Arena) (size align : ℕ) : Prop :=
  match a.chunks with
  | [] => False
  | c :: _ => (pad64 (c.base + c.used) align + size) % 2 ^ 64 ≤ c.cap - c.used

instance (a : Arena) (size align : ℕ) : Decidable (Fits64 a size align) :=
  match h : a.chunks with
  | [] => isFalse (by rw [Fits64, h]; exact not_false)
  | c :: _ => decidable_of_iff
      ((pad64 (c.base + c.used) align + size) % 2 ^ 64 ≤ c.cap - c.used) (by rw [Fits64, h])

def overCap64 (a : Arena) (need : ℕ) : Prop :=
  a.hardCap ≠ 0 ∧ a.hardCap < (a.total + need) % 2 ^ 64

instance (a : Arena) (need : ℕ) : Decidable (overCap64 a need) :=
  inferInstanceAs (Decidable (_ ∧ _))

def growCap64 (a : Arena) (need : ℕ) : ℕ :=
  let cap := match a.chunks with
    | c :: _ => c.cap * 2 % 2 ^ 64
    | [] => 8192
  let cap := if cap < need then need else cap
  if chunkMax < cap then chunkMax else cap

/-- `arena_grow` and what the caller makes of its answer. -/
def growTurn64 (a : Arena) (size : ℕ) : Turn :=
  if overCap64 a size then .refused (refusal a a.mallocs)
  else
    match a.mem a.mallocs (sizeofChunk + growCap64 a size) with
    | none => .refused (refusal a (a.mallocs + 1))
    | some p => .grew { a with
        mallocs := a.mallocs + 1
        chunks := ⟨p + sizeofChunk, growCap64 a size, 0⟩ :: a.chunks
        total := a.total + growCap64 a size
        stuck := a.stuck || a.chunks.isEmpty }

def turn64 (a : Arena) (size align : ℕ) : Turn :=
  match a.chunks with
  | [] => growTurn64 a size
  | c :: cs =>
    let pad := pad64 (c.base + c.used) align
    if (pad + size) % 2 ^ 64 ≤ c.cap - c.used then
      .served (c.base + c.used + pad) (bumped a c cs ((pad + size) % 2 ^ 64))
    else growTurn64 a size

theorem and_not_mask (x : BitVec 64) (k : ℕ) :
    x &&& ~~~(BitVec.ofNat 64 (2 ^ k - 1)) = (x >>> k) <<< k := by
  ext i hi
  have bit : (BitVec.ofNat 64 (2 ^ k - 1))[i] = decide (i < k) := by
    rw [← BitVec.getLsbD_eq_getElem, BitVec.getLsbD_ofNat, Nat.testBit_two_pow_sub_one]
    simp [hi]
  simp only [BitVec.getElem_and, BitVec.getElem_not, bit, BitVec.getElem_shiftLeft,
    BitVec.getElem_ushiftRight]
  by_cases low : i < k
  · simp [low]
  · simp [low, BitVec.getLsbD_eq_getElem hi, Nat.add_sub_cancel' (Nat.le_of_not_lt low)]

theorem toNat_shift_back (x : BitVec 64) (k : ℕ) :
    ((x >>> k) <<< k).toNat = x.toNat / 2 ^ k * 2 ^ k := by
  rw [BitVec.toNat_shiftLeft, BitVec.toNat_ushiftRight, Nat.shiftLeft_eq, Nat.shiftRight_eq_div_pow]
  exact Nat.mod_eq_of_lt (Nat.lt_of_le_of_lt (Nat.div_mul_le_self _ _) x.isLt)

theorem alignment_mask {align : ℕ} (known : align ∈ alignments) :
    ∃ k, align = 2 ^ k ∧ BitVec.ofNat 64 align - 1 = BitVec.ofNat 64 (2 ^ k - 1) ∧ align ≤ 64 := by
  unfold alignments at known
  simp only [List.mem_cons, List.not_mem_nil, or_false] at known
  rcases known with rfl | rfl | rfl | rfl | rfl | rfl | rfl
  · exact ⟨0, rfl, rfl, by omega⟩
  · exact ⟨1, rfl, rfl, by omega⟩
  · exact ⟨2, rfl, rfl, by omega⟩
  · exact ⟨3, rfl, rfl, by omega⟩
  · exact ⟨4, rfl, rfl, by omega⟩
  · exact ⟨5, rfl, rfl, by omega⟩
  · exact ⟨6, rfl, rfl, by omega⟩

theorem pad64_eq {addr align : ℕ} (known : align ∈ alignments) (low : addr + align ≤ 2 ^ 64) :
    pad64 addr align = padTo addr align := by
  obtain ⟨k, rfl, mask, _⟩ := alignment_mask known
  have pos := Nat.two_pow_pos k
  have base : (BitVec.ofNat 64 addr).toNat = addr :=
    (BitVec.toNat_ofNat _ _).trans (Nat.mod_eq_of_lt (by omega))
  have ones : (BitVec.ofNat 64 (2 ^ k - 1)).toNat = 2 ^ k - 1 :=
    (BitVec.toNat_ofNat _ _).trans (Nat.mod_eq_of_lt (by omega))
  have sum : (BitVec.ofNat 64 addr + BitVec.ofNat 64 (2 ^ k - 1)).toNat = addr + (2 ^ k - 1) := by
    rw [BitVec.toNat_add, base, ones]
    exact Nat.mod_eq_of_lt (by omega)
  have up : (((BitVec.ofNat 64 addr + BitVec.ofNat 64 (2 ^ k - 1)) >>> k) <<< k).toNat =
      addr + padTo addr (2 ^ k) := by
    rw [toNat_shift_back, sum, padTo_add pos]
  unfold pad64
  dsimp only
  rw [mask, and_not_mask, BitVec.toNat_sub_of_le, up, base]
  · exact Nat.add_sub_cancel_left _ _
  · rw [BitVec.le_def, up, base]
    exact Nat.le_add_right _ _

structure Small (a : Arena) (size align : ℕ) : Prop where
  total : a.total + size < 2 ^ 64
  padded : size + 64 ≤ 2 ^ 64
  chunks : ∀ c ∈ a.chunks, c.base + c.used + align ≤ 2 ^ 64 ∧ c.cap * 2 < 2 ^ 64

theorem growTurn64_eq {a : Arena} {size align : ℕ} (small : Small a size align) :
    growTurn64 a size = growTurn a size := by
  have over_eq : overCap64 a size ↔ overCap a size := by
    unfold overCap64 overCap
    rw [Nat.mod_eq_of_lt small.total]
  have cap_eq : growCap64 a size = growCap a size := by
    unfold growCap64 growCap
    cases hc : a.chunks with
    | nil => rfl
    | cons c cs =>
      dsimp only
      rw [Nat.mod_eq_of_lt (small.chunks c (hc ▸ List.mem_cons_self)).2]
  unfold growTurn64 growTurn
  rw [cap_eq]
  obtain ⟨past, e⟩ | ⟨under, failed, e⟩ | ⟨under, p, hp, e⟩ := arenaGrow_outcomes a size <;> rw [e]
  · rw [if_pos (over_eq.mpr past)]
    rfl
  · rw [if_neg (fun h => under (over_eq.mp h)), failed]
    rfl
  · rw [if_neg (fun h => under (over_eq.mp h)), hp]
    rfl

theorem turn64_eq {a : Arena} {size align : ℕ} (known : align ∈ alignments)
    (small : Small a size align) : turn64 a size align = allocTurn a size align := by
  unfold turn64 allocTurn
  cases hc : a.chunks with
  | nil => exact growTurn64_eq small
  | cons c cs =>
    obtain ⟨_, _, _, most⟩ := alignment_mask known
    have pad := pad64_eq known (small.chunks c (hc ▸ List.mem_cons_self)).1
    have short : padTo (c.base + c.used) align < align := by
      have below := Nat.div_mul_le_self (c.base + c.used + (align - 1)) align
      have pos : 0 < align := by
        obtain ⟨k, rfl, _⟩ := alignment_mask known
        exact Nat.two_pow_pos k
      unfold padTo
      omega
    have room := small.padded
    dsimp only
    rw [pad, Nat.mod_eq_of_lt (by omega), growTurn64_eq small]
    rfl

inductive Op64
  | init (first cap : ℕ)
  | turn (size align : ℕ)
  | reset

/-- An arena that is set up once, with a limit that the first chunk is not asked to pass. -/
def limited : System Arena Op64 where
  start a := ∃ mem, a = Arena.zero mem
  step a
    | .init first cap =>
      if a.hardCap = 0 ∧ 0 < cap ∧ first ≤ cap ∧ cap < 2 ^ 64 then some (arenaInit a first cap) else none
    | .turn size align =>
      if a.hardCap = 0 then none
      else
        match turn64 a (asked size) align with
        | .served _ b => some b
        | .refused b => some b
        | .grew b => if a.chunks.isEmpty then none else some b
    | .reset => if a.hardCap = 0 then none else some (arenaReset a)

/-- The least first chunk fits the limit, and so does a chunk that `arena_grow` adds. -/
def withinLimit (a : Arena) : Op64 → Prop
  | .init _ cap => 64 ≤ cap
  | .turn size align => Fits64 a (asked size) align ∨ overCap64 a (asked size) ∨
      a.total + growCap64 a (asked size) ≤ a.hardCap
  | .reset => True

instance (a : Arena) (op : Op64) : Decidable (withinLimit a op) := by
  cases op <;> unfold withinLimit <;> infer_instance

theorem turn64_cases (a : Arena) (size align : ℕ) :
    (Fits64 a size align ∧ ∃ p c cs n, a.chunks = c :: cs ∧
      turn64 a size align = .served p (bumped a c cs n)) ∨
    (¬ Fits64 a size align ∧ ∃ mallocs, turn64 a size align = .refused (refusal a mallocs) ∧
      (overCap64 a size ∨ a.mem a.mallocs (sizeofChunk + growCap64 a size) = none)) ∨
    (¬ Fits64 a size align ∧ ¬ overCap64 a size ∧ ∃ b base, turn64 a size align = .grew b ∧
      b.chunks = ⟨base, growCap64 a size, 0⟩ :: a.chunks ∧
      b.total = a.total + growCap64 a size ∧ b.hardCap = a.hardCap) := by
  by_cases fits : Fits64 a size align
  · left
    refine ⟨fits, ?_⟩
    unfold Fits64 at fits
    unfold turn64
    cases hc : a.chunks with
    | nil =>
      rw [hc] at fits
      exact fits.elim
    | cons c cs =>
      rw [hc] at fits
      exact ⟨_, c, cs, _, rfl, if_pos fits⟩
  · right
    have e : turn64 a size align = growTurn64 a size := by
      unfold Fits64 at fits
      unfold turn64
      split
      · rfl
      · rename_i hc
        rw [hc] at fits
        exact if_neg fits
    rw [e, growTurn64]
    by_cases past : overCap64 a size
    · rw [if_pos past]
      exact .inl ⟨fits, _, rfl, .inl past⟩
    · rw [if_neg past]
      cases hm : a.mem a.mallocs (sizeofChunk + growCap64 a size) with
      | none => exact .inl ⟨fits, _, rfl, .inr rfl⟩
      | some p => exact .inr ⟨fits, past, _, p + sizeofChunk, rfl, rfl, rfl, rfl⟩

/-- The bytes held keep within the limit, and so does the chunk that a reset leaves. -/
structure Capped (a : Arena) : Prop where
  total : a.total ≤ a.hardCap
  chunks : ∀ c ∈ a.chunks, c.cap ≤ a.hardCap

theorem arenaInit_total (a : Arena) (first cap : ℕ) :
    (arenaInit a first cap).hardCap = cap ∧
    ((arenaInit a first cap).chunks = [] ∧ (arenaInit a first cap).total = 0 ∨
      ∃ c, (arenaInit a first cap).chunks = [c] ∧ c.cap = max first 64 ∧
        (arenaInit a first cap).total = max first 64) := by
  have least : (if first < 64 then 64 else first) = max first 64 := by
    split_ifs <;> omega
  unfold arenaInit chunkNew
  dsimp only
  rw [least]
  cases a.mem a.mallocs (sizeofChunk + max first 64) with
  | none => exact ⟨rfl, .inl ⟨rfl, rfl⟩⟩
  | some p => exact ⟨rfl, .inr ⟨_, rfl, rfl, rfl⟩⟩

theorem Capped.init (a : Arena) {first cap : ℕ} (first_le : first ≤ cap) (least : 64 ≤ cap) :
    Capped (arenaInit a first cap) := by
  obtain ⟨limit, ⟨none, zero⟩ | ⟨c, one, cap_eq, total⟩⟩ := arenaInit_total a first cap
  · refine ⟨by rw [zero]; exact Nat.zero_le _, fun c hc => ?_⟩
    rw [none] at hc
    cases hc
  · refine ⟨by rw [total, limit]; omega, fun d hd => ?_⟩
    rw [one] at hd
    cases List.mem_singleton.mp hd
    rw [limit]
    omega

theorem Capped.reset {a : Arena} (h : Capped a) : Capped (arenaReset a) := by
  unfold arenaReset
  cases hl : a.chunks.getLast? with
  | none => exact ⟨Nat.zero_le _, fun c hc => by cases hc⟩
  | some head =>
    have kept := h.chunks head (List.mem_of_getLast? hl)
    refine ⟨kept, fun c hc => ?_⟩
    cases List.mem_singleton.mp hc
    exact kept

theorem Capped.turn {a b : Arena} {size align : ℕ} (h : Capped a)
    (within : withinLimit a (.turn size align)) (step : limited.step a (.turn size align) = some b) :
    Capped b := by
  simp only [limited] at step
  split at step
  · cases step
  · obtain ⟨_, p, c, cs, n, hc, e⟩ | ⟨_, mallocs, e, _⟩ | ⟨full, under, g, base, e, chunks, total, limit⟩ :=
      turn64_cases a (asked size) align <;> rw [e] at step
    · cases step
      refine ⟨h.total, fun d hd => ?_⟩
      obtain rfl | hd := List.mem_cons.mp hd
      · exact h.chunks c (hc ▸ List.mem_cons_self)
      · exact h.chunks d (hc ▸ List.mem_cons_of_mem c hd)
    · cases step
      exact ⟨h.total, h.chunks⟩
    · dsimp only at step
      split at step
      · cases step
      · cases step
        obtain fits | past | room := within
        · exact absurd fits full
        · exact absurd past under
        · refine ⟨by rw [total, limit]; exact room, fun d hd => ?_⟩
          rw [chunks] at hd
          rw [limit]
          obtain rfl | hd := List.mem_cons.mp hd
          · exact Nat.le_trans (Nat.le_add_left _ _) room
          · exact h.chunks d hd

theorem Capped.step {a b : Arena} {op : Op64} (h : Capped a) (within : withinLimit a op)
    (step : limited.step a op = some b) : Capped b := by
  cases op with
  | init first cap =>
    simp only [limited] at step
    split at step
    · rename_i guard
      cases step
      exact Capped.init a guard.2.2.1 within
    · cases step
  | turn size align => exact h.turn within step
  | reset =>
    simp only [limited] at step
    split at step
    · cases step
    · cases step
      exact h.reset

theorem withinLimit_of_total {a b : Arena} {op : Op64} (granted : ∀ k n, (a.mem k n).isSome = true)
    (step : limited.step a op = some b) (kept : b.total ≤ b.hardCap) : withinLimit a op := by
  cases op with
  | init first cap =>
    simp only [limited] at step
    split at step
    · cases step
      obtain ⟨limit, ⟨none, _⟩ | ⟨_, _, _, total⟩⟩ := arenaInit_total a first cap
      · unfold arenaInit chunkNew at none
        dsimp only at none
        obtain ⟨p, hp⟩ := Option.isSome_iff_exists.mp
          (granted a.mallocs (sizeofChunk + if first < 64 then 64 else first))
        rw [hp] at none
        cases none
      · rw [total, limit] at kept
        exact Nat.le_trans (Nat.le_max_right _ _) kept
    · cases step
  | turn size align =>
    simp only [limited] at step
    split at step
    · cases step
    · obtain ⟨fits, _⟩ | ⟨_, _, _, past | failed⟩ | ⟨_, _, g, _, e, _, total, limit⟩ :=
        turn64_cases a (asked size) align
      · exact .inl fits
      · exact .inr (.inl past)
      · have some := granted a.mallocs (sizeofChunk + growCap64 a (asked size))
        rw [failed] at some
        cases some
      · rw [e] at step
        dsimp only at step
        split at step
        · cases step
        · cases step
          rw [total, limit] at kept
          exact .inr (.inr kept)
  | reset => trivial

/-- In every run of steps inside the limit the bytes held keep within it, and no other step keeps
them there when malloc succeeds. -/
theorem total_le_hardCap {a : Arena} (h : Reach limited withinLimit a) :
    a.total ≤ a.hardCap ∧ ∀ op b, limited.step a op = some b →
      (∀ k n, (a.mem k n).isSome = true) → (b.total ≤ b.hardCap ↔ withinLimit a op) := by
  have capped : Capped a := by
    refine h.invariant ?_ fun _ _ _ ha within step => ha.step within step
    rintro _ ⟨mem, rfl⟩
    exact ⟨Nat.le_refl _, fun c hc => by cases hc⟩
  refine ⟨capped.total, fun op b step granted => ⟨withinLimit_of_total granted step, fun within => ?_⟩⟩
  exact (capped.step within step).total

/-- 64 bytes and then 20 under a limit of 100. -/
theorem hardCap_passed :
    let mem : Malloc := fun k _ => some (4096 * (k + 1))
    let a := arenaInit (Arena.zero mem) 64 100
    let b := (arenaAlloc (arenaAlloc a 64).2 20).2
    a.hardCap = 100 ∧ b.hardCap = 100 ∧ b.total = 192 := by decide

def limitedArena : Option Arena :=
  execWhile limited withinLimit (Arena.zero fun k _ => some (4096 * (k + 1)))
    [.init 64 512, .turn 64 8, .turn 20 8, .turn 20 8, .turn 1000 8, .reset, .turn 10 16]

theorem limitedArena_total : ∃ a, limitedArena = some a ∧ a.total = 64 ∧ a.total ≤ a.hardCap ∧
    ∀ op b, limited.step a op = some b → (∀ k n, (a.mem k n).isSome = true) →
      (b.total ≤ b.hardCap ↔ withinLimit a op) := by
  obtain ⟨a, ha⟩ : ∃ a, limitedArena = some a := Option.isSome_iff_exists.mp (by decide)
  have total : limitedArena.map (fun a => a.total) = some 64 := by decide
  rw [ha] at total
  exact ⟨a, ha, Option.some.inj total, total_le_hardCap (execWhile_reach _ (.start ⟨_, rfl⟩) ha)⟩

end Cerco.ArenaWords
