import Cerco.ArenaTurns

set_option autoImplicit false

/-!
# The budget of an arena

With `hard_cap` zero an arena has no limit. Otherwise `arena_grow` refuses a
request that goes past the limit, but it is the request that it tests and not the
chunk that it adds for it.
-/
namespace Cerco.ArenaLimits
open Cerco.Alloc Cerco.BumpRegions Cerco.TransitionRuns Cerco.ArenaTurns

theorem growCap_cons {a : Arena} {c : Chunk} {cs : List Chunk} (hc : a.chunks = c :: cs) (need : ℕ) :
    growCap a need = min (max (c.cap * 2) need) chunkMax := by
  unfold growCap
  rw [hc]
  dsimp only
  split_ifs <;> omega

def maxPad (align : ℕ) : ℕ := align - 8

theorem fits_new {a : Arena} {size align p cap : ℕ} {cs : List Chunk} (known : align ∈ alignments)
    (hc : a.chunks = ⟨p + sizeofChunk, cap, 0⟩ :: cs) (aligned : p % 8 = 0)
    (roomy : size + maxPad align ≤ cap) : Fits a size align := by
  unfold Fits
  rw [hc]
  dsimp only
  unfold alignments at known
  simp only [List.mem_cons, List.not_mem_nil, or_false] at known
  unfold maxPad at roomy
  unfold padTo sizeofChunk
  rcases known with rfl | rfl | rfl | rfl | rfl | rfl | rfl <;> omega

/-- The call comes to `r`. -/
def Ends (size align : ℕ) (a : Arena) (r : Option ℕ × Arena) : Prop :=
  ∃ turns, runTurns size align turns a = some r

theorem ends_served {size align p : ℕ} {a b : Arena} {r : Option ℕ × Arena}
    (h : allocTurn a size align = .served p b) : Ends size align a r ↔ r = (some p, b) := by
  constructor
  · rintro ⟨turns, e⟩
    cases turns with
    | zero => cases e
    | succ turns =>
      rw [runTurns, h] at e
      exact (Option.some.inj e).symm
  · rintro rfl
    exact ⟨1, by rw [runTurns, h]⟩

theorem ends_refused {size align : ℕ} {a b : Arena} {r : Option ℕ × Arena}
    (h : allocTurn a size align = .refused b) : Ends size align a r ↔ r = (none, b) := by
  constructor
  · rintro ⟨turns, e⟩
    cases turns with
    | zero => cases e
    | succ turns =>
      rw [runTurns, h] at e
      exact (Option.some.inj e).symm
  · rintro rfl
    exact ⟨1, by rw [runTurns, h]⟩

theorem ends_grew {size align : ℕ} {a b : Arena} {r : Option ℕ × Arena}
    (h : allocTurn a size align = .grew b) : Ends size align a r ↔ Ends size align b r := by
  constructor
  · rintro ⟨turns, e⟩
    cases turns with
    | zero => cases e
    | succ turns =>
      rw [runTurns, h] at e
      exact ⟨turns, e⟩
  · rintro ⟨turns, e⟩
    exact ⟨turns + 1, by rw [runTurns, h]; exact e⟩

theorem allocTurn_granted {a : Arena} (granted : Granted a.mem) (size align : ℕ) :
    (Fits a size align ∧ ∃ p b, allocTurn a size align = .served p b) ∨
    (¬ Fits a size align ∧ overCap a size ∧ ∃ b, allocTurn a size align = .refused b) ∨
    (¬ Fits a size align ∧ ¬ overCap a size ∧
      ∃ p, a.mem a.mallocs (sizeofChunk + growCap a size) = some p ∧ p % 8 = 0 ∧
        allocTurn a size align = .grew (grown a size p)) := by
  obtain ⟨p, hp, aligned⟩ := granted a.mallocs (sizeofChunk + growCap a size)
  by_cases fits : Fits a size align
  · left
    refine ⟨fits, ?_⟩
    obtain ⟨c, cs, _, _, e⟩ | ⟨full, _⟩ | ⟨full, _⟩ := allocTurn_cases a size align
    · exact ⟨_, _, e⟩
    · exact absurd fits full
    · exact absurd fits full
  · right
    rw [allocTurn_full fits, growTurn]
    obtain ⟨past, e⟩ | ⟨_, failed, _⟩ | ⟨under, q, hq, e⟩ := arenaGrow_outcomes a size
    · rw [e]
      exact .inl ⟨fits, past, _, rfl⟩
    · rw [hp] at failed
      cases failed
    · rw [hp] at hq
      cases hq
      rw [e]
      exact .inr ⟨fits, under, p, hp, aligned, rfl⟩

theorem limited_ends {size align : ℕ} (pos : 0 < size) {a : Arena} (granted : Granted a.mem)
    (limited : a.hardCap ≠ 0) : ∃ r, Ends size align a r := by
  induction hn : a.hardCap - a.total using Nat.strongRecOn generalizing a with
  | ind n ih =>
    obtain ⟨_, p, b, e⟩ | ⟨_, _, b, e⟩ | ⟨_, under, p, _, _, e⟩ := allocTurn_granted granted size align
    · exact ⟨_, (ends_served e).mpr rfl⟩
    · exact ⟨_, (ends_refused e).mpr rfl⟩
    · have room : a.total + size ≤ a.hardCap := by
        unfold overCap at under
        omega
      have added : 0 < growCap a size := by
        unfold growCap chunkMax
        dsimp only
        split <;> split_ifs <;> omega
      obtain ⟨r, hr⟩ := ih (a.hardCap - (a.total + growCap a size)) (by omega)
        (a := grown a size p) granted limited rfl
      exact ⟨r, (ends_grew e).mpr hr⟩

theorem asked_pos (size : ℕ) : 0 < asked size := by
  unfold asked
  split_ifs <;> omega

theorem asked_le {size align : ℕ} (known : align ∈ alignments) : asked size ≤ size + align := by
  unfold alignments at known
  simp only [List.mem_cons, List.not_mem_nil, or_false] at known
  unfold asked
  split_ifs <;> omega

def Served (size align : ℕ) (a : Arena) : Prop := ∃ p b, Ends size align a (some p, b)

theorem Served.ends {size align : ℕ} {a : Arena} (h : Served size align a) :
    ∃ r, Ends size align a r := by
  obtain ⟨p, b, h⟩ := h
  exact ⟨_, h⟩

theorem served_of_fits {size align : ℕ} {a : Arena} (fits : Fits a size align) :
    Served size align a := by
  obtain ⟨c, cs, _, _, e⟩ | ⟨full, _⟩ | ⟨full, _⟩ := allocTurn_cases a size align
  · exact ⟨_, _, (ends_served e).mpr rfl⟩
  · exact absurd fits full
  · exact absurd fits full

theorem served_of_grown {size align : ℕ} {a : Arena} (granted : Granted a.mem)
    (under : ¬ overCap a size)
    (next : ∀ p, p % 8 = 0 → Served size align (grown a size p)) : Served size align a := by
  obtain ⟨fits, _⟩ | ⟨_, past, _⟩ | ⟨_, _, p, _, aligned, e⟩ := allocTurn_granted granted size align
  · exact served_of_fits fits
  · exact absurd past under
  · obtain ⟨q, b, h⟩ := next p aligned
    exact ⟨q, b, (ends_grew e).mpr h⟩

theorem served_one_chunk {size align : ℕ} {a : Arena} (granted : Granted a.mem)
    (known : align ∈ alignments) (under : ¬ overCap a size)
    (roomy : size + maxPad align ≤ growCap a size) : Served size align a :=
  served_of_grown granted under fun _ aligned => served_of_fits (fits_new known rfl aligned roomy)

theorem maxPad_le {align : ℕ} (known : align ∈ alignments) : maxPad align ≤ 56 := by
  unfold alignments at known
  simp only [List.mem_cons, List.not_mem_nil, or_false] at known
  unfold maxPad
  omega

theorem served_two_chunks {size align : ℕ} {a : Arena} {c : Chunk} {cs : List Chunk}
    (granted : Granted a.mem) (known : align ∈ alignments) (hc : a.chunks = c :: cs)
    (wide : 64 ≤ c.cap) (under : ¬ overCap a size) (roomy : size + maxPad align ≤ chunkMax)
    (budget : a.hardCap = 0 ∨ a.total + growCap a size + size ≤ a.hardCap) :
    Served size align a := by
  have pad := maxPad_le known
  have first := growCap_cons hc size
  refine served_of_grown granted under fun p aligned => ?_
  have second := growCap_cons (a := grown a size p) rfl size
  refine served_one_chunk (a := grown a size p) granted known ?_ ?_
  · rintro ⟨limited, past⟩
    obtain none | enough := budget
    · exact limited none
    · exact absurd past (Nat.not_lt.mpr enough)
  · rw [second]
    dsimp only
    omega

def widePads : Malloc := fun k _ => some (48 + 2 ^ 23 * k)

theorem widePads_granted : Granted widePads := fun k _ => ⟨48 + 2 ^ 23 * k, rfl, by omega⟩

theorem widePads_full {size align : ℕ} {a : Arena} (known : align ∈ alignments)
    (mem : a.mem = widePads) {need p : ℕ}
    (hp : a.mem a.mallocs (sizeofChunk + growCap a need) = some p)
    (tight : growCap a need < size + maxPad align) : ¬ Fits (grown a need p) size align := by
  rw [mem] at hp
  obtain rfl := (Option.some.inj hp).symm
  change ¬ padTo (48 + 2 ^ 23 * a.mallocs + sizeofChunk + 0) align + size ≤ growCap a need - 0
  unfold alignments at known
  simp only [List.mem_cons, List.not_mem_nil, or_false] at known
  unfold maxPad at tight
  unfold padTo sizeofChunk
  rcases known with rfl | rfl | rfl | rfl | rfl | rfl | rfl <;> omega

theorem unserved_large {size align : ℕ} {a : Arena} (known : align ∈ alignments)
    (mem : a.mem = widePads) (chunked : a.chunks ≠ []) (full : ¬ Fits a size align)
    (large : chunkMax < size + maxPad align) : ¬ Served size align a := by
  rintro ⟨p, b, turns, e⟩
  induction turns generalizing a with
  | zero => cases e
  | succ turns ih =>
    obtain ⟨fits, _⟩ | ⟨_, _, _, e'⟩ | ⟨_, _, q, hq, _, e'⟩ :=
      allocTurn_granted (mem ▸ widePads_granted) size align
    · exact full fits
    · rw [runTurns, e'] at e
      cases e
    · rw [runTurns, e'] at e
      obtain ⟨c, cs, hc⟩ := List.exists_cons_of_ne_nil chunked
      have most := growCap_cons hc size
      exact ih (a := grown a size q) mem (List.cons_ne_nil _ _)
        (widePads_full known mem hq (by omega)) e

/-- Nor is one whose chunk is too narrow for the padding when another one goes past the limit. -/
theorem unserved_padded {size align : ℕ} {a : Arena} (known : align ∈ alignments)
    (mem : a.mem = widePads) (full : ¬ Fits a size align)
    (tight : growCap a size < size + maxPad align) (limited : a.hardCap ≠ 0)
    (past : a.hardCap < a.total + growCap a size + size) : ¬ Served size align a := by
  rintro ⟨p, b, h⟩
  obtain ⟨fits, _⟩ | ⟨_, _, _, e⟩ | ⟨_, _, q, hq, _, e⟩ :=
    allocTurn_granted (mem ▸ widePads_granted) size align
  · exact full fits
  · cases (ends_refused e).mp h
  · rw [ends_grew e] at h
    obtain ⟨fits, _⟩ | ⟨_, _, _, e'⟩ | ⟨_, under, _⟩ :=
      allocTurn_granted (a := grown a size q) (mem ▸ widePads_granted) size align
    · exact widePads_full known mem hq tight fits
    · cases (ends_refused e').mp h
    · exact under ⟨limited, past⟩

/-- The call ends, and with a pointer when the limit leaves `size + align` bytes. -/
def UsesBudget (a : Arena) (size align : ℕ) : Prop :=
  (∃ r, Ends (asked size) align a r) ∧
    (a.hardCap = 0 ∨ a.total + size + align ≤ a.hardCap → Served (asked size) align a)

/-- The request fits the current chunk or is one the limit need not allow; or the next chunk takes
it with any padding, or the second next one, which the limit then has to allow as well. -/
def HasRoom (a : Arena) (size align : ℕ) : Prop :=
  Fits a (asked size) align ∨ (a.hardCap ≠ 0 ∧ a.hardCap < a.total + size + align) ∨
    asked size + maxPad align ≤ growCap a (asked size) ∨
    (asked size + maxPad align ≤ chunkMax ∧
      (a.hardCap = 0 ∨ a.total + growCap a (asked size) + asked size ≤ a.hardCap))

theorem HasRoom.served {a : Arena} {size align : ℕ} {c : Chunk} {cs : List Chunk}
    (h : HasRoom a size align) (granted : Granted a.mem) (known : align ∈ alignments)
    (hc : a.chunks = c :: cs) (wide : 64 ≤ c.cap)
    (left : a.hardCap = 0 ∨ a.total + size + align ≤ a.hardCap) : Served (asked size) align a := by
  have least : asked size ≤ size + align := asked_le known
  have under : ¬ overCap a (asked size) := by
    unfold overCap
    omega
  obtain fits | ⟨limited, past⟩ | one | ⟨two, budget⟩ := h
  · exact served_of_fits fits
  · omega
  · exact served_one_chunk granted known under one
  · exact served_two_chunks granted known hc wide under two budget

theorem HasRoom.usesBudget {a : Arena} {size align : ℕ} {c : Chunk} {cs : List Chunk}
    (h : HasRoom a size align) (granted : Granted a.mem) (known : align ∈ alignments)
    (hc : a.chunks = c :: cs) (wide : 64 ≤ c.cap) : UsesBudget a size align := by
  refine ⟨?_, fun left => h.served granted known hc wide left⟩
  by_cases limited : a.hardCap = 0
  · exact (h.served granted known hc wide (.inl limited)).ends
  · exact limited_ends (asked_pos size) granted limited

theorem hasRoom_of_widePads {a : Arena} {size align : ℕ} (known : align ∈ alignments)
    (mem : a.mem = widePads) (chunked : a.chunks ≠ []) (h : UsesBudget a size align) :
    HasRoom a size align := by
  by_contra none
  simp only [HasRoom, not_or, not_and] at none
  obtain ⟨full, left, tight, narrow⟩ := none
  have tight : growCap a (asked size) < asked size + maxPad align := Nat.not_le.mp tight
  have served : Served (asked size) align a := h.2 (by omega)
  by_cases large : chunkMax < asked size + maxPad align
  · exact unserved_large known mem chunked full large served
  · have over_limit := narrow (by omega)
    exact unserved_padded known mem full tight over_limit.1 (Nat.not_le.mp over_limit.2) served

theorem reach_wide {u : Use} (h : Reach uses anyStep u) : ∀ c ∈ u.arena.chunks, 64 ≤ c.cap := by
  refine Reach.invariant (I := fun u => ∀ c ∈ u.arena.chunks, 64 ≤ c.cap) ?_ ?_ h
  · rintro _ ⟨a, first, cap, rfl⟩
    unfold arenaInit chunkNew
    dsimp only
    cases a.mem a.mallocs (sizeofChunk + if first < 64 then 64 else first) with
    | none => exact fun c hc => by cases hc
    | some p =>
      intro c hc
      cases List.mem_singleton.mp hc
      dsimp only
      split_ifs <;> omega
  · intro u op v wide _ step
    obtain ⟨_, _, c, cs, _, hc, _, rfl⟩ | ⟨_, rfl⟩ | ⟨size, _, p, _, chunked, _, _, _, rfl⟩ |
      ⟨_, rfl⟩ := useStep_cases step
    · intro d hd
      obtain rfl | hd := List.mem_cons.mp hd
      · exact wide c (hc ▸ List.mem_cons_self)
      · exact wide d (hc ▸ List.mem_cons_of_mem c hd)
    · exact wide
    · obtain ⟨c, cs, hc⟩ := List.exists_cons_of_ne_nil chunked
      have doubled := growCap_cons hc (asked size)
      have least := wide c (hc ▸ List.mem_cons_self)
      intro d hd
      obtain rfl | hd := List.mem_cons.mp hd
      · unfold chunkMax at doubled
        dsimp only
        omega
      · exact wide d hd
    · unfold arenaReset
      cases hl : u.arena.chunks.getLast? with
      | none => exact fun c hc => by cases hc
      | some head =>
        intro c hc
        cases List.mem_singleton.mp hc
        exact wide head (List.mem_of_getLast? hl)

/-- For every malloc that succeeds the call ends and uses its budget, exactly when it has room. -/
theorem usesBudget_iff {u : Use} (h : Reach uses anyStep u) (chunked : u.arena.chunks ≠ [])
    {size align : ℕ} (known : align ∈ alignments) :
    (∀ mem, Granted mem → UsesBudget { u.arena with mem := mem } size align) ↔
      HasRoom u.arena size align := by
  constructor
  · intro uses
    exact hasRoom_of_widePads (a := { u.arena with mem := widePads }) known rfl chunked
      (uses widePads widePads_granted)
  · intro room mem granted
    obtain ⟨c, cs, hc⟩ := List.exists_cons_of_ne_nil chunked
    have wide := reach_wide h c (hc ▸ List.mem_cons_self)
    exact HasRoom.usesBudget (a := { u.arena with mem := mem }) room granted known hc wide

def firstArena (cap : ℕ) : Arena := arenaInit (Arena.zero widePads) 64 cap

theorem usesBudget_first :
    (∀ mem, Granted mem → UsesBudget { firstArena 0 with mem := mem } 100 16) ↔
      HasRoom (firstArena 0) 100 16 :=
  usesBudget_iff (u := ⟨firstArena 0, []⟩) (.start ⟨_, _, _, rfl⟩) (by decide) (by decide)

theorem unlimited_served {size align : ℕ} {a : Arena} {r : Option ℕ × Arena}
    (granted : Granted a.mem) (unlimited : a.hardCap = 0) (h : Ends size align a r) :
    Served size align a := by
  obtain ⟨turns, e⟩ := h
  induction turns generalizing a with
  | zero => cases e
  | succ turns ih =>
    obtain ⟨fits, _⟩ | ⟨_, past, _⟩ | ⟨_, _, p, _, _, e'⟩ := allocTurn_granted granted size align
    · exact served_of_fits fits
    · exact absurd unlimited past.1
    · rw [runTurns, e'] at e
      obtain ⟨q, b, h⟩ := ih (a := grown a size p) granted unlimited e
      exact ⟨q, b, (ends_grew e').mpr h⟩

/-- One byte more than the largest chunk never ends, and 128 bytes at 64 are refused under a limit
of 300 with 64 held. -/
theorem budget_unused : (¬ ∃ r, Ends (chunkMax + 1) 8 (firstArena 0) r) ∧
    (firstArena 300).total + 128 + 64 ≤ (firstArena 300).hardCap ∧
      ¬ Served 128 64 (firstArena 300) := by
  refine ⟨?_, by decide, ?_⟩
  · rintro ⟨r, h⟩
    exact unserved_large (by decide) rfl (by decide) (by decide) (by decide)
      (unlimited_served widePads_granted rfl h)
  · exact unserved_padded (by decide) rfl (by decide) (by decide) (by decide) (by decide)

end Cerco.ArenaLimits
