import Cerco.Arena
import Cerco.BumpRegions
import Cerco.TransitionRuns
import Mathlib.Algebra.Group.Nat.Defs

set_option autoImplicit false

/-!
# Allocating turn by turn

`cerco_arena_alloc_aligned` serves a request from the current chunk, refuses it,
or adds a chunk and tries again. A run of an arena is made of these turns and of
resets, and it remembers the ranges handed out since the last reset.
-/
namespace Cerco.ArenaTurns
open Cerco.Alloc Cerco.BumpRegions Cerco.TransitionRuns

inductive Turn
  | served (p : ℕ) (a : Arena)
  | grew (a : Arena)
  | refused (a : Arena)

def growTurn (a : Arena) (size : ℕ) : Turn :=
  match arenaGrow a size with
  | (true, a') => .grew a'
  | (false, a') => .refused { a' with policyRan := true }

def allocTurn (a : Arena) (size align : ℕ) : Turn :=
  match a.chunks with
  | [] => growTurn a size
  | c :: cs =>
    let pad := padTo (c.base + c.used) align
    if pad + size ≤ c.cap - c.used then
      .served (c.base + c.used + pad) { a with chunks := { c with used := c.used + (pad + size) } :: cs }
    else growTurn a size

def runTurns (size align : ℕ) : ℕ → Arena → Option (Option ℕ × Arena)
  | 0, _ => none
  | turns + 1, a =>
    match allocTurn a size align with
    | .served p a' => some (some p, a')
    | .refused a' => some (none, a')
    | .grew a' => runTurns size align turns a'

/-- `if (size == 0) size = 1;` -/
def asked (size : ℕ) : ℕ := if size = 0 then 1 else size

/-- The current chunk with `n` more bytes filled. -/
def bumped (a : Arena) (c : Chunk) (cs : List Chunk) (n : ℕ) : Arena :=
  { a with chunks := { c with used := c.used + n } :: cs }

def refusal (a : Arena) (mallocs : ℕ) : Arena :=
  { a with mallocs := mallocs, oom := true, policyRan := true }

/-- The request fits the current chunk. -/
def Fits (a : Arena) (size align : ℕ) : Prop :=
  match a.chunks with
  | [] => False
  | c :: _ => padTo (c.base + c.used) align + size ≤ c.cap - c.used

instance (a : Arena) (size align : ℕ) : Decidable (Fits a size align) := by
  unfold Fits
  split <;> infer_instance

theorem allocTurn_full {a : Arena} {size align : ℕ} (full : ¬ Fits a size align) :
    allocTurn a size align = growTurn a size := by
  unfold Fits at full
  unfold allocTurn
  split
  · rfl
  · rename_i hc
    rw [hc] at full
    exact if_neg full

theorem allocTurn_cases (a : Arena) (size align : ℕ) :
    (∃ c cs, a.chunks = c :: cs ∧ padTo (c.base + c.used) align + size ≤ c.cap - c.used ∧
      allocTurn a size align = .served (c.base + c.used + padTo (c.base + c.used) align)
        (bumped a c cs (padTo (c.base + c.used) align + size))) ∨
    (¬ Fits a size align ∧ ∃ mallocs, allocTurn a size align = .refused (refusal a mallocs)) ∨
    (¬ Fits a size align ∧ ¬ overCap a size ∧
      ∃ p, a.mem a.mallocs (sizeofChunk + growCap a size) = some p ∧
        allocTurn a size align = .grew (grown a size p)) := by
  by_cases fits : Fits a size align
  · left
    cases hc : a.chunks with
    | nil =>
      rw [Fits, hc] at fits
      exact fits.elim
    | cons c cs =>
      rw [Fits, hc] at fits
      refine ⟨c, cs, rfl, fits, ?_⟩
      rw [allocTurn, hc]
      exact if_pos fits
  · right
    rw [allocTurn_full fits, growTurn]
    obtain ⟨_, e⟩ | ⟨_, _, e⟩ | ⟨under, p, hp, e⟩ := arenaGrow_outcomes a size <;> rw [e]
    · exact .inl ⟨fits, a.mallocs, rfl⟩
    · exact .inl ⟨fits, a.mallocs + 1, rfl⟩
    · exact .inr ⟨fits, under, p, hp, rfl⟩

theorem allocLoop_turns {size align turns rounds : ℕ} {a : Arena} {r : Option ℕ × Arena}
    (chunked : a.chunks ≠ []) (h : runTurns size align turns a = some r) (enough : turns ≤ rounds) :
    allocLoop size align rounds a = r := by
  induction turns generalizing a rounds with
  | zero => cases h
  | succ turns ih =>
    obtain ⟨c, cs, hc⟩ := List.exists_cons_of_ne_nil chunked
    obtain ⟨rounds, rfl⟩ := Nat.exists_eq_add_of_le' enough
    rw [runTurns, allocTurn, hc] at h
    rw [← Nat.add_assoc, allocLoop, hc]
    dsimp only at h ⊢
    split_ifs at h ⊢
    · exact Option.some.inj h
    · unfold growTurn at h
      obtain ⟨_, e⟩ | ⟨_, _, e⟩ | ⟨_, p, _, e⟩ := arenaGrow_outcomes a size <;> rw [e] at h ⊢
      · exact Option.some.inj h
      · exact Option.some.inj h
      · exact ih (List.cons_ne_nil _ _) h (Nat.le_add_left _ _)

theorem arenaAllocAligned_turns {size align turns : ℕ} {a : Arena} {r : Option ℕ × Arena}
    (chunked : a.chunks ≠ [])
    (h : runTurns (asked size) align turns
      { a with calls := a.calls ++ [callOf a (asked size) align] } = some r)
    (enough : turns ≤ allocRounds a) : arenaAllocAligned a size align = r := by
  have nonempty : ¬ a.chunks.isEmpty = true := fun e => chunked (List.isEmpty_iff.mp e)
  exact (if_neg nonempty).trans (allocLoop_turns chunked h enough)

structure Handed where
  region : Region
  align : ℕ

structure Use where
  arena : Arena
  handed : List Handed

inductive Op
  | turn (size align : ℕ)
  | reset

/-- Storing through a `cur` that is NULL is no step. -/
def useStep (u : Use) : Op → Option Use
  | .turn size align =>
    match allocTurn u.arena (asked size) align with
    | .served p a => some ⟨a, ⟨⟨p, asked size⟩, align⟩ :: u.handed⟩
    | .refused a => some ⟨a, u.handed⟩
    | .grew a => if u.arena.chunks.isEmpty then none else some ⟨a, u.handed⟩
  | .reset => some ⟨arenaReset u.arena, []⟩

/-- Any arena after `cerco_arena_init`. -/
def uses : System Use Op where
  start u := ∃ a first cap, u = ⟨arenaInit a first cap, []⟩
  step := useStep

theorem useStep_cases {u v : Use} {op : Op} (h : useStep u op = some v) :
    (∃ size align c cs, op = .turn size align ∧ u.arena.chunks = c :: cs ∧
      padTo (c.base + c.used) align + asked size ≤ c.cap - c.used ∧
      v = ⟨bumped u.arena c cs (padTo (c.base + c.used) align + asked size),
        ⟨⟨c.base + c.used + padTo (c.base + c.used) align, asked size⟩, align⟩ :: u.handed⟩) ∨
    (∃ mallocs, v = ⟨refusal u.arena mallocs, u.handed⟩) ∨
    (∃ size align p, op = .turn size align ∧ u.arena.chunks ≠ [] ∧
      ¬ Fits u.arena (asked size) align ∧ ¬ overCap u.arena (asked size) ∧
      u.arena.mem u.arena.mallocs (sizeofChunk + growCap u.arena (asked size)) = some p ∧
      v = ⟨grown u.arena (asked size) p, u.handed⟩) ∨
    (op = .reset ∧ v = ⟨arenaReset u.arena, []⟩) := by
  cases op with
  | reset => exact .inr (.inr (.inr ⟨rfl, (Option.some.inj h).symm⟩))
  | turn size align =>
    unfold useStep at h
    dsimp only at h
    obtain ⟨c, cs, hc, fits, e⟩ | ⟨_, mallocs, e⟩ | ⟨full, under, p, hp, e⟩ :=
      allocTurn_cases u.arena (asked size) align <;> rw [e] at h
    · exact .inl ⟨size, align, c, cs, rfl, hc, fits, (Option.some.inj h).symm⟩
    · exact .inr (.inl ⟨mallocs, (Option.some.inj h).symm⟩)
    · dsimp only at h
      split at h
      · cases h
      · rename_i chunked
        have chunked : u.arena.chunks ≠ [] := fun none => chunked (List.isEmpty_iff.mpr none)
        exact .inr (.inr (.inl ⟨size, align, p, rfl, chunked, full, under, hp,
          (Option.some.inj h).symm⟩))

theorem runTurns_steps {size align turns : ℕ} {u : Use} {r : Option ℕ × Arena}
    (chunked : u.arena.chunks ≠ []) (h : runTurns (asked size) align turns u.arena = some r) :
    Steps uses anyStep u ⟨r.2, match r.1 with
      | some p => ⟨⟨p, asked size⟩, align⟩ :: u.handed
      | none => u.handed⟩ := by
  induction turns generalizing u with
  | zero => cases h
  | succ turns ih =>
    rw [runTurns] at h
    have nonempty : ¬ u.arena.chunks.isEmpty = true := fun e => chunked (List.isEmpty_iff.mp e)
    cases ht : allocTurn u.arena (asked size) align with
    | served p a =>
      rw [ht] at h
      cases h
      exact .head (a := .turn size align) trivial (by simp only [uses, useStep, ht]) (.refl _)
    | refused a =>
      rw [ht] at h
      cases h
      exact .head (a := .turn size align) trivial (by simp only [uses, useStep, ht]) (.refl _)
    | grew a =>
      rw [ht] at h
      refine .head (a := .turn size align) (t := ⟨a, u.handed⟩) trivial ?_ (ih ?_ h)
      · simp only [uses, useStep, ht, if_neg nonempty]
      · obtain ⟨_, _, _, _, e⟩ | ⟨_, _, e⟩ | ⟨_, _, p, _, e⟩ :=
          allocTurn_cases u.arena (asked size) align <;> rw [ht] at e <;> cases e
        exact List.cons_ne_nil _ _

def room (c : Chunk) : Region := ⟨c.base, c.cap⟩

def filled (c : Chunk) : Region := ⟨c.base, c.used⟩

def block (c : Chunk) : Region := ⟨c.base - sizeofChunk, sizeofChunk + c.cap⟩

/-- Chunks lie behind their headers and apart, and ranges in the filled parts and apart. -/
structure Laid (u : Use) : Prop where
  headed : ∀ c ∈ u.arena.chunks, sizeofChunk ≤ c.base ∧ c.used ≤ c.cap
  chunks : u.arena.chunks.Pairwise fun c d => (block c).Apart (block d)
  placed : ∀ g ∈ u.handed, ∃ c ∈ u.arena.chunks, g.region.Within (filled c)
  apart : u.handed.Pairwise fun g g' => g.region.Apart g'.region
  aligned : ∀ g ∈ u.handed, g.region.base % g.align = 0

def FreshBlock (a : Arena) (need : ℕ) : Prop :=
  ∀ p ∈ a.mem a.mallocs (sizeofChunk + growCap a need),
    ∀ c ∈ a.chunks, (⟨p, sizeofChunk + growCap a need⟩ : Region).Apart (block c)

instance (a : Arena) (need : ℕ) : Decidable (FreshBlock a need) := by
  unfold FreshBlock
  infer_instance

def alignments : List ℕ := [1, 2, 4, 8, 16, 32, 64]

/-- Sizes and alignments as they may be asked for, and a malloc that works when it is called. -/
def regular (u : Use) : Op → Prop
  | .turn size align => size < 2 ^ 32 ∧ align ∈ alignments ∧
      (Fits u.arena (asked size) align ∨ overCap u.arena (asked size) ∨
        FreshBlock u.arena (asked size))
  | .reset => True

instance (u : Use) (op : Op) : Decidable (regular u op) := by
  cases op <;> unfold regular <;> infer_instance

theorem padTo_add {addr align : ℕ} (pos : 0 < align) :
    addr + padTo addr align = (addr + (align - 1)) / align * align := by
  have below : addr ≤ (addr + (align - 1)) / align * align := by
    have split := Nat.div_add_mod (addr + (align - 1)) align
    have short := Nat.mod_lt (addr + (align - 1)) pos
    rw [Nat.mul_comm] at split
    omega
  unfold padTo
  omega

theorem padTo_mod {addr align : ℕ} (pos : 0 < align) : (addr + padTo addr align) % align = 0 := by
  rw [padTo_add pos]
  exact Nat.mul_mod_left _ _

theorem Laid.init (a : Arena) (first cap : ℕ) : Laid ⟨arenaInit a first cap, []⟩ := by
  have nothing : ∀ g ∈ ([] : List Handed), False := fun g h => by cases h
  refine ⟨?_, ?_, fun g h => (nothing g h).elim, .nil, fun g h => (nothing g h).elim⟩
  · unfold arenaInit chunkNew
    dsimp only
    cases a.mem a.mallocs (sizeofChunk + if first < 64 then 64 else first) with
    | none => exact fun c h => by cases h
    | some p =>
      intro c h
      cases List.mem_singleton.mp h
      exact ⟨Nat.le_add_left _ _, Nat.zero_le _⟩
  · unfold arenaInit chunkNew
    dsimp only
    cases a.mem a.mallocs (sizeofChunk + if first < 64 then 64 else first) with
    | none => exact .nil
    | some p => exact List.pairwise_singleton _ _

theorem Laid.filled_apart {u : Use} {c : Chunk} {cs : List Chunk} (h : Laid u)
    (hc : u.arena.chunks = c :: cs) {d : Chunk} (hd : d ∈ cs) : (filled d).Apart (room c) := by
  obtain ⟨headed, _⟩ := h.headed c (hc ▸ List.mem_cons_self)
  obtain ⟨headed', used'⟩ := h.headed d (hc ▸ List.mem_cons_of_mem c hd)
  have chunks := h.chunks
  rw [hc] at chunks
  refine ((List.pairwise_cons.mp chunks).1 d hd).symm.within ?_ ?_
  · unfold Region.Within Region.stop filled block
    dsimp only
    omega
  · unfold Region.Within Region.stop room block
    dsimp only
    omega

theorem Laid.serve {u : Use} {c : Chunk} {cs : List Chunk} {size align : ℕ} (h : Laid u)
    (hc : u.arena.chunks = c :: cs) (pos : 0 < align)
    (fits : padTo (c.base + c.used) align + size ≤ c.cap - c.used) :
    Laid ⟨bumped u.arena c cs (padTo (c.base + c.used) align + size),
      ⟨⟨c.base + c.used + padTo (c.base + c.used) align, size⟩, align⟩ :: u.handed⟩ := by
  obtain ⟨headed, used⟩ := h.headed c (hc ▸ List.mem_cons_self)
  have inside : ∀ d ∈ cs, d ∈ u.arena.chunks := fun d hd => hc ▸ List.mem_cons_of_mem c hd
  have chunks := h.chunks
  rw [hc] at chunks
  refine ⟨?_, ?_, ?_, ?_, ?_⟩
  · intro d hd
    obtain rfl | hd := List.mem_cons.mp hd
    · exact ⟨headed, by dsimp only; omega⟩
    · exact h.headed d (inside d hd)
  · exact List.pairwise_cons.mpr (List.pairwise_cons.mp chunks)
  · intro g hg
    obtain rfl | hg := List.mem_cons.mp hg
    · refine ⟨_, List.mem_cons_self, ?_⟩
      unfold Region.Within Region.stop filled
      dsimp only
      omega
    · obtain ⟨d, hd, within⟩ := h.placed g hg
      rw [hc] at hd
      obtain rfl | hd := List.mem_cons.mp hd
      · refine ⟨_, List.mem_cons_self, within.1, within.2.trans ?_⟩
        unfold Region.stop filled
        dsimp only
        omega
      · exact ⟨d, List.mem_cons_of_mem _ hd, within⟩
  · refine List.pairwise_cons.mpr ⟨fun g hg => ?_, h.apart⟩
    obtain ⟨d, hd, within⟩ := h.placed g hg
    rw [hc] at hd
    obtain rfl | hd := List.mem_cons.mp hd
    · -- handed out earlier from the same chunk, below its bump pointer
      refine .inr (within.2.trans ?_)
      unfold Region.stop filled
      dsimp only
      omega
    · refine ((h.filled_apart hc hd).within within ?_).symm
      unfold Region.Within Region.stop room
      dsimp only
      omega
  · intro g hg
    obtain rfl | hg := List.mem_cons.mp hg
    · exact padTo_mod pos
    · exact h.aligned g hg

theorem Laid.grow {u : Use} {size p : ℕ} (h : Laid u) (fresh : FreshBlock u.arena size)
    (hp : u.arena.mem u.arena.mallocs (sizeofChunk + growCap u.arena size) = some p) :
    Laid ⟨grown u.arena size p, u.handed⟩ := by
  refine ⟨?_, ?_, ?_, h.apart, h.aligned⟩
  · intro d hd
    obtain rfl | hd := List.mem_cons.mp hd
    · exact ⟨Nat.le_add_left _ _, Nat.zero_le _⟩
    · exact h.headed d hd
  · refine List.pairwise_cons.mpr ⟨fun d hd => ?_, h.chunks⟩
    have apart := fresh p hp d hd
    rwa [block, Nat.add_sub_cancel]
  · intro g hg
    obtain ⟨d, hd, within⟩ := h.placed g hg
    exact ⟨d, List.mem_cons_of_mem _ hd, within⟩

/-- Only the chunk at the end of the list stays, empty. -/
def Rewound (a b : Arena) : Prop :=
  ∀ head ∈ a.chunks.getLast?, b.chunks = [{ head with used := 0 }] ∧ b.total = head.cap

theorem arenaReset_rewound (a : Arena) : Rewound a (arenaReset a) := by
  intro head hh
  unfold arenaReset
  rw [Option.mem_def.mp hh]
  exact ⟨rfl, rfl⟩

theorem Laid.reset {u : Use} (h : Laid u) : Laid ⟨arenaReset u.arena, []⟩ := by
  have nothing : ∀ g ∈ ([] : List Handed), False := fun g hg => by cases hg
  refine ⟨?_, ?_, fun g hg => (nothing g hg).elim, .nil, fun g hg => (nothing g hg).elim⟩
  · unfold arenaReset
    cases hl : u.arena.chunks.getLast? with
    | none => exact fun c hc => by cases hc
    | some head =>
      intro c hc
      cases List.mem_singleton.mp hc
      exact ⟨(h.headed head (List.mem_of_getLast? hl)).1, Nat.zero_le _⟩
  · unfold arenaReset
    cases u.arena.chunks.getLast? with
    | none => exact .nil
    | some head => exact List.pairwise_singleton _ _

theorem Laid.step {u v : Use} {op : Op} (h : Laid u) (ok : regular u op)
    (step : useStep u op = some v) : Laid v := by
  obtain ⟨size, align, c, cs, rfl, hc, fits, rfl⟩ | ⟨_, rfl⟩ |
    ⟨size, align, p, rfl, _, full, under, hp, rfl⟩ | ⟨_, rfl⟩ := useStep_cases step
  · have pos : 0 < align := by
      obtain ⟨_, known, _⟩ := ok
      unfold alignments at known
      simp only [List.mem_cons, List.not_mem_nil, or_false] at known
      omega
    exact h.serve hc pos fits
  · exact ⟨h.headed, h.chunks, h.placed, h.apart, h.aligned⟩
  · obtain ⟨_, _, fits | over_cap | fresh⟩ := ok
    · exact absurd fits full
    · exact absurd over_cap under
    · exact h.grow fresh hp
  · exact h.reset

theorem reach_laid {u : Use} (h : Reach uses regular u) : Laid u := by
  refine h.invariant ?_ fun _ _ _ hu ok step => hu.step ok step
  rintro _ ⟨a, first, cap, rfl⟩
  exact Laid.init a first cap

/-- Every range handed out since the last reset is aligned and lies inside one chunk, no two of
them overlap, and a reset leaves the head chunk alone. -/
theorem allocations_disjoint {u : Use} (h : Reach uses regular u) :
    (∀ g ∈ u.handed, g.region.base % g.align = 0 ∧
      ∃ c ∈ u.arena.chunks, g.region.Within (room c)) ∧
    (u.handed.Pairwise fun g g' => g.region.Apart g'.region) ∧
    Rewound u.arena (arenaReset u.arena) := by
  have laid := reach_laid h
  refine ⟨fun g hg => ⟨laid.aligned g hg, ?_⟩, laid.apart, arenaReset_rewound u.arena⟩
  obtain ⟨c, hc, within⟩ := laid.placed g hg
  have used := (laid.headed c hc).2
  exact ⟨c, hc, within.1, within.2.trans (Nat.add_le_add_left used c.base)⟩

/-- 40 bytes at 64, 100 that need another chunk, and a reset that frees it in between. -/
def usedArena : Option Use :=
  execWhile uses regular ⟨arenaInit (Arena.zero fun k _ => some (4096 * (k + 1))) 128 0, []⟩
    [.turn 40 64, .turn 100 16, .turn 100 16, .reset, .turn 0 1, .turn 24 8]

theorem usedArena_disjoint : ∃ u, usedArena = some u ∧
    u.handed.map (fun g => g.region) = [⟨4128, 24⟩, ⟨4120, 1⟩] ∧
    (∀ g ∈ u.handed, g.region.base % g.align = 0 ∧
      ∃ c ∈ u.arena.chunks, g.region.Within (room c)) ∧
    (u.handed.Pairwise fun g g' => g.region.Apart g'.region) ∧
    Rewound u.arena (arenaReset u.arena) := by
  obtain ⟨u, hu⟩ : ∃ u, usedArena = some u := Option.isSome_iff_exists.mp (by decide)
  have ranges : usedArena.map (fun u => u.handed.map fun g => g.region) =
      some [⟨4128, 24⟩, ⟨4120, 1⟩] := by decide
  rw [hu] at ranges
  exact ⟨u, hu, Option.some.inj ranges,
    allocations_disjoint (execWhile_reach _ (.start ⟨_, _, _, rfl⟩) hu)⟩

end Cerco.ArenaTurns
