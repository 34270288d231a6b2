import Cerco.ClientDigits
import Cerco.RouteFiles
import Mathlib.Data.List.Nodup

set_option autoImplicit false

/-!
# The search for an unused symbol

`scan_cb` counts a suffix up until its symbol is not in the table. A symbol has at
most 159 bytes, so what is left of the suffix behind a long base repeats.
-/
namespace Cerco.SymbolSearch
open Cerco.CString Cerco.ClientDigits Cerco.RouteFiles Cerco.RouteScan
open Cerco.Response (decimal)

/-- `symbase` of a route file. -/
def symbaseOf (rel : Bytes) : Bytes :=
  let dir := fit 256 (dirOf rel)
  let ms := fit 512 (dir ++ (if dir = [] then [] else ascii "_") ++ stripC (baseOf rel).2)
  fit 160 (ascii "cerco_route_" ++ mangle ms 512)

def takenSymbols (s : Scan) : List Bytes := s.routes.map (·.symbol)

/-- `scan_cb` gets to the search with this file. -/
def Searches (s : Scan) (rel : Bytes) : Prop := isRoute rel = true ∧ s.routes.length < maxRoutes

/-- The loop comes to a symbol that is not taken, in some round. -/
def SearchEnds (taken : List Bytes) (symbase : Bytes) : Prop :=
  ∃ rounds, (uniqueSymbol taken symbase rounds 0).isSome = true

/-- Every file that gets to the search finds the table like this. -/
def EverySearch (P : List Bytes → Bytes → Prop) (rels : List Bytes) : Prop :=
  ∀ pre rel post s, rels = pre ++ rel :: post → scanRoutes pre = some s → Searches s rel →
    P (takenSymbols s) (symbaseOf rel)

def candidates (len : ℕ) : ℕ := if 159 ≤ len then 1 else if len = 158 then 2 else 10 ^ (158 - len)

/-- For a base of 156 bytes or more, one of the different symbols is not taken. -/
def CandidateLeft (taken : List Bytes) (symbase : Bytes) : Prop :=
  155 < symbase.length → ∃ k < candidates symbase.length, symbolAt symbase k ∉ taken

theorem decimal_inj {m n : ℕ} (h : decimal m = decimal n) : m = n := by
  rw [← decimalValue_decimal m, ← decimalValue_decimal n, h]

theorem decimal_short {n k : ℕ} (pos : 0 < n) (h : n < 10 ^ k) : (decimal n).length ≤ k := by
  cases k with
  | zero => exact absurd h (by omega)
  | succ k => exact (decimal_length_le (Nat.succ_pos k)).mpr h

theorem decimal_take {n j : ℕ} (pos : 0 < n) (hj : 0 < j) :
    ∃ m, 0 < m ∧ m < 10 ^ j ∧ (decimal n).take j = decimal m := by
  induction n using Nat.strong_induction_on with
  | _ n ih =>
    by_cases small : n < 10 ^ j
    · exact ⟨n, pos, small, List.take_of_length_le (decimal_short pos small)⟩
    · have ten : 10 ≤ 10 ^ j := Nat.le_self_pow (by omega) 10
      have long : j ≤ (decimal (n / 10)).length := by
        obtain ⟨i, rfl⟩ := Nat.exists_eq_succ_of_ne_zero (by omega : j ≠ 0)
        by_contra short
        cases i with
        | zero => exact decimal_ne_nil (n / 10) (List.length_eq_zero_iff.mp (by omega))
        | succ i =>
          have below := (decimal_length_le (n := n / 10) (Nat.succ_pos i)).mp (by omega)
          rw [Nat.pow_succ] at small
          omega
      obtain ⟨m, mpos, bound, same⟩ := ih (n / 10) (by omega) (by omega)
      refine ⟨m, mpos, bound, ?_⟩
      rw [decimal_step (by omega), List.take_append_of_le_length long, same]

theorem symbolAt_number {b : Bytes} (h : b.length ≤ 158) {k : ℕ} (pos : 0 < k) :
    symbolAt b k = b ++ (ascii "_" ++ (decimal k).take (158 - b.length)) := by
  have one : (ascii "_").length = 1 := by decide
  have left : 160 - 1 - (b.length + 1) = 158 - b.length := by omega
  rw [symbolAt, if_neg (by omega), fit, List.append_assoc, List.take_append, List.take_append,
    List.take_of_length_le (by omega), List.take_of_length_le (l := ascii "_") (by rw [one]; omega),
    Nat.sub_sub, one, left]

theorem symbolAt_zero {b : Bytes} (h : b.length ≤ 159) : symbolAt b 0 = b := by
  rw [symbolAt, if_pos rfl, fit, List.take_of_length_le h]

theorem symbolAt_full {b : Bytes} (h : b.length = 159) (k : ℕ) : symbolAt b k = b := by
  by_cases zero : k = 0
  · rw [zero, symbolAt_zero (by omega)]
  · rw [symbolAt, if_neg zero, fit, List.append_assoc, List.take_append_of_le_length (by omega),
      List.take_of_length_le (by omega)]

theorem symbolAt_repeats {b : Bytes} (h : b.length ≤ 159) (k : ℕ) :
    ∃ k' < candidates b.length, symbolAt b k = symbolAt b k' := by
  unfold candidates
  by_cases full : 159 ≤ b.length
  · rw [if_pos full]
    exact ⟨0, by omega, by rw [symbolAt_full (by omega), symbolAt_full (by omega)]⟩
  · rw [if_neg full]
    obtain rfl | pos := Nat.eq_zero_or_pos k
    · refine ⟨0, ?_, rfl⟩
      split
      · omega
      · exact Nat.pow_pos (by omega)
    · by_cases one : b.length = 158
      · rw [if_pos one]
        refine ⟨1, by omega, ?_⟩
        rw [symbolAt_number (by omega) pos, symbolAt_number (by omega) (by omega), one]
        rfl
      · rw [if_neg one]
        obtain ⟨m, mpos, bound, same⟩ := decimal_take (n := k) (j := 158 - b.length) pos (by omega)
        refine ⟨m, bound, ?_⟩
        rw [symbolAt_number (by omega) pos, symbolAt_number (by omega) mpos, same,
          List.take_of_length_le (decimal_short mpos bound)]

theorem symbolAt_inj {b : Bytes} (h : b.length ≤ 159) {i k : ℕ} (hi : i < candidates b.length)
    (hk : k < candidates b.length) (same : symbolAt b i = symbolAt b k) : i = k := by
  have longer {k : ℕ} (le : b.length ≤ 158) (pos : 0 < k) : symbolAt b 0 ≠ symbolAt b k := by
    intro e
    have len := congrArg List.length e
    rw [symbolAt_zero h, symbolAt_number le pos, List.length_append, List.length_append] at len
    have one : (ascii "_").length = 1 := by decide
    omega
  unfold candidates at hi hk
  by_cases full : 159 ≤ b.length
  · rw [if_pos full] at hi hk
    omega
  · rw [if_neg full] at hi hk
    obtain rfl | ipos := Nat.eq_zero_or_pos i
    · obtain rfl | kpos := Nat.eq_zero_or_pos k
      · rfl
      · exact absurd same (longer (by omega) kpos)
    · obtain rfl | kpos := Nat.eq_zero_or_pos k
      · exact absurd same.symm (longer (by omega) ipos)
      · by_cases one : b.length = 158
        · rw [if_pos one] at hi hk
          omega
        · rw [if_neg one] at hi hk
          rw [symbolAt_number (by omega) ipos, symbolAt_number (by omega) kpos,
            List.take_of_length_le (decimal_short ipos hi), List.take_of_length_le (decimal_short kpos hk)] at same
          exact decimal_inj (List.append_cancel_left (List.append_cancel_left same))

theorem uniqueSymbol_some (taken : List Bytes) (b : Bytes) (rounds r : ℕ) :
    (uniqueSymbol taken b rounds r).isSome = true ↔ ∃ k, r ≤ k ∧ k < r + rounds ∧ symbolAt b k ∉ taken := by
  induction rounds generalizing r with
  | zero =>
    constructor
    · intro h
      cases h
    · rintro ⟨k, lo, hi, _⟩
      omega
  | succ rounds ih =>
    rw [uniqueSymbol]
    by_cases used : taken.contains (symbolAt b r) = true
    · rw [if_pos used, ih]
      constructor
      · rintro ⟨k, lo, hi, free⟩
        exact ⟨k, by omega, by omega, free⟩
      · rintro ⟨k, lo, hi, free⟩
        have later : k ≠ r := by
          rintro rfl
          exact free (List.contains_iff_mem.mp used)
        exact ⟨k, by omega, by omega, free⟩
    · rw [if_neg used]
      exact ⟨fun _ => ⟨r, Nat.le_refl r, by omega, fun mem => used (List.contains_iff_mem.mpr mem)⟩, fun _ => rfl⟩

theorem searchEnds_iff (taken : List Bytes) (b : Bytes) :
    SearchEnds taken b ↔ ∃ k, symbolAt b k ∉ taken := by
  constructor
  · rintro ⟨rounds, ends⟩
    obtain ⟨k, _, _, free⟩ := (uniqueSymbol_some taken b rounds 0).mp ends
    exact ⟨k, free⟩
  · rintro ⟨k, free⟩
    exact ⟨k + 1, (uniqueSymbol_some taken b (k + 1) 0).mpr ⟨k, by omega, by omega, free⟩⟩

theorem rounds_le_taken {taken : List Bytes} {b : Bytes} (h : b.length ≤ 159) {n : ℕ}
    (le : n ≤ candidates b.length) (used : ∀ k < n, symbolAt b k ∈ taken) : n ≤ taken.length := by
  have distinct : ((List.range n).map (symbolAt b)).Nodup := by
    refine List.Nodup.map_on (fun i hi k hk same => ?_) List.nodup_range
    have bi := List.mem_range.mp hi
    have bk := List.mem_range.mp hk
    exact symbolAt_inj h (by omega) (by omega) same
  have sub : (List.range n).map (symbolAt b) ⊆ taken := by
    intro x hx
    obtain ⟨k, hk, rfl⟩ := List.mem_map.mp hx
    exact used k (List.mem_range.mp hk)
  have len := distinct.length_le_of_subset sub
  rw [List.length_map, List.length_range] at len
  exact len

theorem searchEnds_candidates {taken : List Bytes} {b : Bytes} (h : b.length ≤ 159) :
    SearchEnds taken b ↔ ∃ k < candidates b.length, symbolAt b k ∉ taken := by
  rw [searchEnds_iff]
  constructor
  · rintro ⟨k, free⟩
    obtain ⟨k', hk', same⟩ := symbolAt_repeats h k
    exact ⟨k', hk', same ▸ free⟩
  · rintro ⟨k, _, free⟩
    exact ⟨k, free⟩

theorem searchEnds_short {taken : List Bytes} {b : Bytes} (h : b.length ≤ 155)
    (few : taken.length < maxRoutes) : SearchEnds taken b := by
  by_contra never
  rw [searchEnds_candidates (by omega)] at never
  have many : 1000 ≤ candidates b.length := by
    rw [candidates, if_neg (by omega), if_neg (by omega)]
    exact Nat.pow_le_pow_right (n := 10) (by omega) (show 3 ≤ 158 - b.length by omega)
  have used : ∀ k < 1000, symbolAt b k ∈ taken := by
    intro k hk
    by_contra free
    exact never ⟨k, by omega, free⟩
  have len := rounds_le_taken (by omega) many used
  unfold maxRoutes at few
  omega

theorem symbaseOf_length (rel : Bytes) : (symbaseOf rel).length ≤ 159 := by
  unfold symbaseOf fit
  rw [List.length_take]
  omega

theorem searchEnds_rounds {taken : List Bytes} {b : Bytes} (h : b.length ≤ 159) :
    SearchEnds taken b ↔ (uniqueSymbol taken b (taken.length + 1) 0).isSome = true := by
  constructor
  · intro ends
    rw [uniqueSymbol_some]
    by_contra never
    obtain ⟨k, hk, free⟩ := (searchEnds_candidates h).mp ends
    have used : ∀ i < taken.length + 1, symbolAt b i ∈ taken := by
      intro i hi
      by_contra unused
      exact never ⟨i, Nat.zero_le i, by omega, unused⟩
    have late : taken.length + 1 ≤ k := by
      by_contra early
      exact free (used k (by omega))
    have len := rounds_le_taken h (by omega) used
    omega
  · exact fun ends => ⟨_, ends⟩

theorem scanFile_search {s : Scan} {rel : Bytes} (h : Searches s rel) :
    scanFile s rel = (uniqueSymbol (takenSymbols s) (symbaseOf rel) ((takenSymbols s).length + 1) 0).map
      fun symbol => { s with routes := s.routes ++ [routeOf rel symbol] } := by
  obtain ⟨suffix, plain⟩ := (isRoute_iff rel).mp h.1
  have noLayout : ¬ ((baseOf rel).2 = ascii "layout" ∨ (baseOf rel).2 = ascii "layout.c") :=
    fun both => plain ((isLayout_iff rel).mpr both)
  unfold scanFile
  rw [if_neg (not_not.mpr suffix)]
  change (if (baseOf rel).2 = ascii "layout" ∨ (baseOf rel).2 = ascii "layout.c" then _ else _) = _
  rw [if_neg noLayout, if_neg (Nat.not_le_of_lt h.2), takenSymbols, List.length_map]
  rfl

theorem scanFile_other {s : Scan} {rel : Bytes} (h : ¬ Searches s rel) : (scanFile s rel).isSome = true := by
  unfold scanFile
  by_cases suffix : endsWith rel (ascii ".c") = true
  · rw [if_neg (not_not.mpr suffix)]
    change (if (baseOf rel).2 = ascii "layout" ∨ (baseOf rel).2 = ascii "layout.c" then _ else _ : Option Scan).isSome = true
    by_cases layout : (baseOf rel).2 = ascii "layout" ∨ (baseOf rel).2 = ascii "layout.c"
    · rw [if_pos layout]
      split
      · rfl
      · rfl
    · have full : maxRoutes ≤ s.routes.length := by
        by_contra room
        exact h ⟨(isRoute_iff rel).mpr ⟨suffix, fun l => layout ((isLayout_iff rel).mp l)⟩, by omega⟩
      rw [if_neg layout, if_pos full]
      rfl
  · rw [if_pos suffix]
    rfl

theorem scanFile_ends (s : Scan) (rel : Bytes) :
    (scanFile s rel).isSome = true ↔ (Searches s rel → SearchEnds (takenSymbols s) (symbaseOf rel)) := by
  by_cases searches : Searches s rel
  · rw [scanFile_search searches, Option.isSome_map, searchEnds_rounds (symbaseOf_length rel)]
    exact ⟨fun h _ => h, fun h => h searches⟩
  · exact ⟨fun _ h => absurd h searches, fun _ => scanFile_other searches⟩

theorem scanRoutes_ends (rels : List Bytes) :
    (scanRoutes rels).isSome = true ↔ EverySearch SearchEnds rels := by
  constructor
  · intro done pre rel post s split scan searches
    rw [split, scanRoutes, List.foldlM_append] at done
    change ((scanRoutes pre).bind fun s => (scanFile s rel).bind fun t => post.foldlM scanFile t).isSome = true
      at done
    rw [scan, Option.bind_some] at done
    refine (scanFile_ends s rel).mp ?_ searches
    cases one : scanFile s rel with
    | none =>
      rw [one] at done
      cases done
    | some t => rfl
  · intro ends
    have grow : ∀ post pre, rels = pre ++ post → ∀ s, scanRoutes pre = some s →
        (post.foldlM scanFile s).isSome = true := by
      intro post
      induction post with
      | nil => exact fun _ _ _ _ => rfl
      | cons rel post ih =>
        intro pre split s scan
        have one := (scanFile_ends s rel).mpr (ends pre rel post s split scan)
        obtain ⟨t, ht⟩ := Option.isSome_iff_exists.mp one
        rw [List.foldlM_cons, ht]
        refine ih (pre ++ [rel]) (by rw [split, List.append_assoc, List.singleton_append]) t ?_
        rw [scanRoutes, List.foldlM_append]
        change ((scanRoutes pre).bind fun s => (scanFile s rel).bind fun t => some t) = some t
        rw [scan, Option.bind_some, ht]
        rfl
    exact grow rels [] rfl ⟨[], []⟩ rfl

/-- In a scan of any files the search ends for each of them exactly if each one with a base of 156
bytes or more finds a symbol left. -/
theorem route_scan_ends (rels : List Bytes) :
    EverySearch SearchEnds rels ↔ EverySearch CandidateLeft rels := by
  constructor
  · intro h pre rel post s split scan searches _
    exact (searchEnds_candidates (symbaseOf_length rel)).mp (h pre rel post s split scan searches)
  · intro h pre rel post s split scan searches
    by_cases short : (symbaseOf rel).length ≤ 155
    · refine searchEnds_short short ?_
      rw [takenSymbols, List.length_map]
      exact searches.2
    · exact (searchEnds_candidates (symbaseOf_length rel)).mpr
        (h pre rel post s split scan searches (by omega))

def longDir : Bytes := List.replicate 150 97

/-- Two pages in a directory with a name of 150 letters. -/
def longRoutes : List Bytes := [longDir ++ ascii "/x.c", longDir ++ ascii "/y.c"]

theorem long_base_never_ends : ¬ EverySearch SearchEnds longRoutes := by
  intro all
  obtain ⟨s, hs⟩ : ∃ s, scanRoutes [longDir ++ ascii "/x.c"] = some s :=
    Option.isSome_iff_exists.mp (by decide +kernel)
  have table : (some s).map takenSymbols = some [symbaseOf (longDir ++ ascii "/y.c")] := by
    rw [← hs]
    decide +kernel
  have symbols := Option.some.inj table
  have searches : Searches s (longDir ++ ascii "/y.c") := by
    have len := congrArg List.length symbols
    rw [takenSymbols, List.length_map, List.length_singleton] at len
    exact ⟨by decide +kernel, by rw [len]; decide⟩
  have ends := all _ _ [] s rfl hs searches
  obtain ⟨k, free⟩ := (searchEnds_iff _ _).mp ends
  rw [symbolAt_full (by decide +kernel), symbols] at free
  exact free (List.mem_singleton.mpr rfl)

end Cerco.SymbolSearch
