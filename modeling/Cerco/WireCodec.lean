import Cerco.ClientBody
import Mathlib.Algebra.Group.Nat.Defs

set_option autoImplicit false

/-!
# The wire codec

The writer fills a buffer it is given and stops at its end. The reader gives
back what was written; on any other input it stops at the end or at a tag it
does not know.
-/
namespace Cerco.WireCodec
open Cerco.ByteMemory Cerco.CString Cerco.LittleEndian Cerco.Wire Cerco.ServerFunctions
open Cerco.ClientBody (rVals shown block_bytes)

/-- A `cerco_wval` handed to the writer; `bytes` is what its pointer shows. -/
structure OutVal where
  type : UInt8
  as : UInt64
  bytes : Bytes

structure WWriter where
  buf : ℕ
  cap : ℕ
  pos : ℕ
  err : Bool
  mem : Mem

def wwriterInit (m : Mem) (buf cap : ℕ) : WWriter := ⟨buf, cap, 0, false, m⟩

def wTake (w : WWriter) (n : ℕ) : Option ℕ × WWriter :=
  if w.err = true ∨ w.cap - w.pos < n then (none, { w with err := true })
  else (some (w.buf + w.pos), { w with pos := w.pos + n })

def wPut (w : WWriter) (bs : Bytes) : WWriter :=
  match wTake w bs.length with
  | (some p, w) => { w with mem := w.mem.write p bs }
  | (none, w) => w

def wU8 (w : WWriter) (v : UInt8) : WWriter := wPut w [v]
def wU32 (w : WWriter) (v : ℕ) : WWriter := wPut w (lePut 4 v)
def wU64 (w : WWriter) (v : ℕ) : WWriter := wPut w (lePut 8 v)
def wF64 (w : WWriter) (bits : ℕ) : WWriter := wU64 w bits

def OutVal.asI32 (v : OutVal) : ℕ := v.as.toNat % 2 ^ 32
def OutVal.asB (v : OutVal) : ℕ := v.as.toNat % 256

def wVal (w : WWriter) (v : OutVal) : WWriter :=
  let w := wU8 w v.type
  if v.type = wtI32 then wU32 w v.asI32
  else if v.type = wtBool then wU32 w (if v.asB ≠ 0 then 1 else 0)
  else if v.type = wtI64 then wU64 w v.as.toNat
  else if v.type = wtF64 then wF64 w v.as.toNat
  else if v.type = wtStr ∨ v.type = wtBytes then
    let w := wU32 w (v.bytes.length % 2 ^ 32)
    if v.bytes.length ≠ 0 then wPut w v.bytes else w
  else { w with err := true }

def wvalSize (v : OutVal) : ℕ :=
  if v.type = wtI32 ∨ v.type = wtBool then 1 + 4
  else if v.type = wtI64 ∨ v.type = wtF64 then 1 + 8
  else if v.type = wtStr ∨ v.type = wtBytes then 1 + 4 + v.bytes.length
  else 1

/-- The writer was asked for `bs`: all of it went out, or `err` is set; nothing
outside the buffer changes. -/
structure Wrote (w w' : WWriter) (bs : Bytes) : Prop where
  buf : w'.buf = w.buf
  cap : w'.cap = w.cap
  fits : w.err = false → w.pos + bs.length ≤ w.cap →
    w' = { w with pos := w.pos + bs.length, mem := w.mem.write (w.buf + w.pos) bs }
  full : w.pos ≤ w.cap → w.err = true ∨ w.cap < w.pos + bs.length → w'.err = true
  inside : w.pos ≤ w.cap → w'.pos ≤ w.cap
  frame : w.pos ≤ w.cap → ∀ x, x < w.buf ∨ w.buf + w.cap ≤ x → w'.mem x = w.mem x

theorem Wrote.nothing (w : WWriter) : Wrote w w [] where
  buf := rfl
  cap := rfl
  fits _ _ := rfl
  full ok short := by
    rcases short with failed | past
    · exact failed
    · rw [List.length_nil] at past
      omega
  inside h := h
  frame _ _ _ := rfl

theorem Wrote.andThen {w w' w'' : WWriter} {a b : Bytes} (h : Wrote w w' a) (h' : Wrote w' w'' b) :
    Wrote w w'' (a ++ b) where
  buf := h'.buf.trans h.buf
  cap := h'.cap.trans h.cap
  fits ok room := by
    rw [List.length_append] at room ⊢
    have first := h.fits ok (by omega)
    have left : w.pos + a.length + b.length ≤ w.cap := by omega
    rw [h'.fits (by rw [first]; exact ok) (by rw [first]; exact left), first, write_append,
      Nat.add_assoc, Nat.add_assoc]
  full ok short := by
    rw [List.length_append] at short
    have mid : w'.pos ≤ w'.cap := by
      rw [h.cap]
      exact h.inside ok
    by_cases failed : w.err = true ∨ w.cap < w.pos + a.length
    · exact h'.full mid (.inl (h.full ok failed))
    · rw [not_or, Bool.not_eq_true] at failed
      have first := h.fits failed.1 (by omega)
      refine h'.full mid (.inr ?_)
      rw [first]
      change w.cap < w.pos + a.length + b.length
      rcases short with err | past
      · rw [failed.1] at err
        cases err
      · omega
  inside ok := by
    have first := h.inside ok
    rw [← h.cap] at first ⊢
    exact h'.inside first
  frame ok x out := by
    have first := h.inside ok
    rw [← h.cap] at first
    have out' : x < w'.buf ∨ w'.buf + w'.cap ≤ x := by rw [h.buf, h.cap]; exact out
    rw [h'.frame first x out', h.frame ok x out]

theorem wPut_wrote (w : WWriter) (bs : Bytes) : Wrote w (wPut w bs) bs := by
  unfold wPut wTake
  by_cases stop : w.err = true ∨ w.cap - w.pos < bs.length
  · rw [if_pos stop]
    refine ⟨rfl, rfl, fun ok room => ?_, fun _ _ => rfl, id, fun _ _ _ => rfl⟩
    rcases stop with err | past
    · rw [ok] at err
      cases err
    · omega
  · rw [if_neg stop]
    rw [not_or, Bool.not_eq_true] at stop
    refine ⟨rfl, rfl, fun _ _ => rfl, fun ok short => ?_, fun ok => ?_, fun ok x out => ?_⟩
    · rcases short with err | past
      · exact err
      · omega
    · change w.pos + bs.length ≤ w.cap
      omega
    · exact write_outside w.mem bs (by omega)

def OutVal.payload (v : OutVal) : Bytes :=
  if v.type = wtI32 then lePut 4 v.asI32
  else if v.type = wtBool then lePut 4 (if v.asB ≠ 0 then 1 else 0)
  else if v.type = wtI64 ∨ v.type = wtF64 then lePut 8 v.as.toNat
  else lePut 4 v.bytes.length ++ v.bytes

def OutVal.encode (v : OutVal) : Bytes := v.type :: v.payload

/-- One of the six types, with a length that fits its field. -/
structure OutVal.Valid (v : OutVal) : Prop where
  type : v.type ∈ [wtI32, wtI64, wtF64, wtBool, wtStr, wtBytes]
  short : v.bytes.length < 2 ^ 32

theorem OutVal.Valid.cases {v : OutVal} (h : v.Valid) :
    v.type = wtI32 ∨ v.type = wtBool ∨ (v.type = wtI64 ∨ v.type = wtF64) ∨
      (v.type = wtStr ∨ v.type = wtBytes) := by
  have := h.type
  simp only [List.mem_cons, List.not_mem_nil, or_false] at this
  tauto

theorem wVal_wrote (w : WWriter) {v : OutVal} (h : v.Valid) : Wrote w (wVal w v) v.encode := by
  have tag : Wrote w (wU8 w v.type) [v.type] := wPut_wrote w [v.type]
  have rest : Wrote (wU8 w v.type) (wVal w v) v.payload := by
    unfold wVal OutVal.payload
    rcases h.cases with i32 | bool | long | block
    · simp only [i32, ↓reduceIte]
      exact wPut_wrote _ _
    · simp only [bool, show wtBool ≠ wtI32 by decide, ↓reduceIte]
      exact wPut_wrote _ _
    · have no32 : v.type ≠ wtI32 := by rcases long with e | e <;> rw [e] <;> decide
      have noBool : v.type ≠ wtBool := by rcases long with e | e <;> rw [e] <;> decide
      simp only [if_neg no32, if_neg noBool, if_pos long]
      by_cases i64 : v.type = wtI64
      · simp only [if_pos i64]
        exact wPut_wrote _ _
      · simp only [if_neg i64, if_pos (long.resolve_left i64)]
        exact wPut_wrote _ _
    · have no32 : v.type ≠ wtI32 := by rcases block with e | e <;> rw [e] <;> decide
      have noBool : v.type ≠ wtBool := by rcases block with e | e <;> rw [e] <;> decide
      have no64 : v.type ≠ wtI64 := by rcases block with e | e <;> rw [e] <;> decide
      have noF64 : v.type ≠ wtF64 := by rcases block with e | e <;> rw [e] <;> decide
      simp only [if_neg no32, if_neg noBool, no64, noF64, or_self, if_pos block,
        Nat.mod_eq_of_lt h.short, ↓reduceIte]
      have count : Wrote (wU8 w v.type) (wU32 (wU8 w v.type) v.bytes.length)
          (lePut 4 v.bytes.length) := wPut_wrote _ _
      by_cases empty : v.bytes.length = 0
      · have bare : lePut 4 v.bytes.length ++ v.bytes = lePut 4 v.bytes.length := by
          rw [List.eq_nil_of_length_eq_zero empty]
          rfl
        rw [if_neg (not_not.mpr empty), bare]
        exact count
      · rw [if_pos empty]
        exact count.andThen (wPut_wrote _ _)
  exact tag.andThen rest

theorem encode_length {v : OutVal} (h : v.Valid) : v.encode.length = wvalSize v := by
  unfold OutVal.encode OutVal.payload wvalSize
  rw [List.length_cons]
  rcases h.cases with i32 | bool | long | block
  · simp [i32]
  · simp [bool, wtBool, wtI32]
  · rcases long with e | e <;> simp [e, wtBool, wtI32, wtI64, wtF64]
  · rcases block with e | e <;>
      simp [e, wtBool, wtI32, wtI64, wtF64, wtStr, wtBytes, Nat.add_comm, Nat.add_left_comm]

def wVals (w : WWriter) (vs : List OutVal) : WWriter := vs.foldl wVal w

/-- The sizes of all values together. -/
def wvalSizes (vs : List OutVal) : ℕ := vs.foldr (fun v n => wvalSize v + n) 0

theorem encodeAll_length {vs : List OutVal} (h : ∀ v ∈ vs, v.Valid) :
    (vs.flatMap OutVal.encode).length = wvalSizes vs := by
  induction vs with
  | nil => rfl
  | cons v vs ih =>
    rw [List.flatMap_cons, List.length_append, encode_length (h v List.mem_cons_self),
      ih fun u hu => h u (List.mem_cons_of_mem v hu)]
    rfl

theorem wVals_wrote (w : WWriter) {vs : List OutVal} (h : ∀ v ∈ vs, v.Valid) :
    Wrote w (wVals w vs) (vs.flatMap OutVal.encode) := by
  induction vs generalizing w with
  | nil => exact .nothing w
  | cons v vs ih =>
    rw [List.flatMap_cons]
    exact (wVal_wrote w (h v List.mem_cons_self)).andThen
      (ih (wVal w v) fun u hu => h u (List.mem_cons_of_mem v hu))

/-- A read stays in its input and ends at or behind where it began; after an
error it does not move. -/
structure Stays (r r' : WReader) : Prop where
  p : r'.p = r.p
  forward : r.pos ≤ r'.pos
  inside : r.pos ≤ r.p.length → r'.pos ≤ r.p.length
  stopped : r.err = true → r'.err = true ∧ r'.pos = r.pos

theorem Stays.refl (r : WReader) : Stays r r := ⟨rfl, Nat.le_refl _, id, fun e => ⟨e, rfl⟩⟩

theorem Stays.trans {r r' r'' : WReader} (h : Stays r r') (h' : Stays r' r'') : Stays r r'' where
  p := h'.p.trans h.p
  forward := Nat.le_trans h.forward h'.forward
  inside ok := by
    have := h'.inside (by rw [h.p]; exact h.inside ok)
    rwa [h.p] at this
  stopped e := by
    obtain ⟨e', at'⟩ := h.stopped e
    obtain ⟨e'', at''⟩ := h'.stopped e'
    exact ⟨e'', at''.trans at'⟩

theorem Stays.fail (r : WReader) : Stays r { r with err := true } :=
  ⟨rfl, Nat.le_refl _, id, fun _ => ⟨rfl, rfl⟩⟩

theorem rTake_cases (r : WReader) (n : ℕ) :
    (r.err = false ∧ n ≤ r.p.length - r.pos ∧ rTake r n = (some r.pos, r.skip n)) ∨
      rTake r n = (none, { r with err := true }) := by
  unfold rTake
  by_cases stop : r.err = true ∨ r.p.length - r.pos < n
  · exact .inr (if_pos stop)
  · refine .inl ⟨?_, ?_, if_neg stop⟩
    · rw [not_or, Bool.not_eq_true] at stop
      exact stop.1
    · omega

theorem rTake_stays (r : WReader) (n : ℕ) : Stays r (rTake r n).2 := by
  rcases rTake_cases r n with ⟨ok, room, e⟩ | e
  · rw [e]
    refine ⟨rfl, Nat.le_add_right _ _, fun _ => ?_, fun err => by rw [ok] at err; cases err⟩
    change r.pos + n ≤ r.p.length
    omega
  · rw [e]
    exact .fail r

theorem rU8_stays (r : WReader) : Stays r (rU8 r).2 := by
  have := rTake_stays r 1
  unfold rU8
  split <;> rename_i e <;> rwa [e] at this

theorem rU32_stays (r : WReader) : Stays r (rU32 r).2 := by
  have := rTake_stays r 4
  unfold rU32
  split <;> rename_i e <;> rwa [e] at this

theorem rU64_stays (r : WReader) : Stays r (rU64 r).2 := by
  have := rTake_stays r 8
  unfold rU64
  split <;> rename_i e <;> rwa [e] at this

theorem rVal_stays (r : WReader) : Stays r (rVal r).2.2 := by
  have tag := rU8_stays r
  unfold rVal
  dsimp only
  split
  · exact tag
  · split
    · exact tag.trans (rU32_stays _)
    · split
      · exact tag.trans (rU64_stays _)
      · split
        · have count := tag.trans (rU32_stays _)
          split <;> rename_i e
          all_goals
            have := count.trans (rTake_stays (rU32 (rU8 r).2).2 (rU32 (rU8 r).2).1)
            rwa [e] at this
        · exact tag.trans (.fail _)

/-- `enc`, standing at offset `off`, is read as `v`. -/
inductive Encodes (off : ℕ) : Bytes → WVal → Prop
  | word {t : UInt8} {word : Bytes} (ht : t = wtI32 ∨ t = wtBool) (len : word.length = 4) :
      Encodes off (t :: word) ⟨t, leGet word, none, 0⟩
  | long {t : UInt8} {long : Bytes} (ht : t = wtI64 ∨ t = wtF64) (len : long.length = 8) :
      Encodes off (t :: long) ⟨t, leGet long, none, 0⟩
  | block {t : UInt8} {d : Bytes} (ht : t = wtStr ∨ t = wtBytes) (short : d.length < 2 ^ 32) :
      Encodes off (t :: (lePut 4 d.length ++ d)) ⟨t, 0, some (off + 5), d.length⟩

theorem Encodes.least {off : ℕ} {enc : Bytes} {v : WVal} (h : Encodes off enc v) :
    5 ≤ enc.length := by
  cases h with
  | word _ len => rw [List.length_cons, len]
  | long _ len => rw [List.length_cons, len]; omega
  | block _ _ => rw [List.length_cons, List.length_append, lePut_length]; omega

theorem Encodes.slice {off : ℕ} {enc : Bytes} {v : WVal} (h : Encodes off enc v) {start : ℕ}
    (hd : v.data = some start) : start + v.len = off + enc.length := by
  cases h with
  | word => cases hd
  | long => cases hd
  | block _ _ =>
    cases hd
    rw [List.length_cons, List.length_append, lePut_length]
    dsimp only
    omega

theorem Encodes.read {r : WReader} {enc rest : Bytes} {v : WVal} (h : Encodes r.pos enc v)
    (here : At r (enc ++ rest)) : rVal r = (true, v, r.skip enc.length) := by
  cases h with
  | @word t word ht len =>
    have back : lePut 4 (leGet word) = word := by rw [← len, lePut_leGet]
    have small : leGet word < 256 ^ 4 := by rw [← len]; exact leGet_lt word
    rw [← back] at here
    rw [rVal_word ht small here, List.length_cons, len]
  | @long t long ht len =>
    have back : lePut 8 (leGet long) = long := by rw [← len, lePut_leGet]
    have small : leGet long < 256 ^ 8 := by rw [← len]; exact leGet_lt long
    rw [← back] at here
    rw [rVal_long ht small here, List.length_cons, len]
  | @block t d ht short =>
    rw [rVal_block ht short here, List.length_cons, List.length_append, lePut_length]
    congr 3
    omega

theorem rTake_split (r : WReader) (n : ℕ) :
    (∃ here rest, here.length = n ∧ r.err = false ∧ r.p.drop r.pos = here ++ rest ∧
      rTake r n = (some r.pos, r.skip n)) ∨ rTake r n = (none, { r with err := true }) := by
  rcases rTake_cases r n with ⟨ok, room, e⟩ | e
  · refine .inl ⟨(r.p.drop r.pos).take n, (r.p.drop r.pos).drop n, ?_, ok, ?_, e⟩
    · rw [List.length_take, List.length_drop]
      omega
    · exact (List.take_append_drop n _).symm
  · exact .inr e

theorem rU8_cases (r : WReader) :
    (∃ t rest, r.err = false ∧ r.p.drop r.pos = t :: rest ∧ rU8 r = (t, r.skip 1)) ∨
      rU8 r = (0, { r with err := true }) := by
  rcases rTake_split r 1 with ⟨here, rest, len, ok, eq, e⟩ | e
  · obtain ⟨t, rfl⟩ := List.length_eq_one_iff.mp len
    have front : (r.skip 1).p.drop r.pos = t :: rest := eq
    exact .inl ⟨t, rest, ok, eq, by rw [rU8, e]; simp only [front, List.headD_cons]⟩
  · exact .inr (by rw [rU8, e])

theorem rU32_cases (r : WReader) :
    (∃ word rest, word.length = 4 ∧ r.err = false ∧ r.p.drop r.pos = word ++ rest ∧
      rU32 r = (leGet word, r.skip 4)) ∨ rU32 r = (0, { r with err := true }) := by
  rcases rTake_split r 4 with ⟨here, rest, len, ok, eq, e⟩ | e
  · have front : (r.skip 4).p.drop r.pos = here ++ rest := eq
    exact .inl ⟨here, rest, len, ok, eq, by
      rw [rU32, e]; simp only [front, List.take_left' len]⟩
  · exact .inr (by rw [rU32, e])

theorem rU64_cases (r : WReader) :
    (∃ long rest, long.length = 8 ∧ r.err = false ∧ r.p.drop r.pos = long ++ rest ∧
      rU64 r = (leGet long, r.skip 8)) ∨ rU64 r = (0, { r with err := true }) := by
  rcases rTake_split r 8 with ⟨here, rest, len, ok, eq, e⟩ | e
  · have front : (r.skip 8).p.drop r.pos = here ++ rest := eq
    exact .inl ⟨here, rest, len, ok, eq, by
      rw [rU64, e]; simp only [front, List.take_left' len]⟩
  · exact .inr (by rw [rU64, e])

theorem rVal_cases (r : WReader) :
    (∃ enc rest v, r.err = false ∧ r.p.drop r.pos = enc ++ rest ∧ Encodes r.pos enc v ∧
      rVal r = (true, v, r.skip enc.length)) ∨
    (rVal r).1 = false ∧ (rVal r).2.2.err = true := by
  rcases rU8_cases r with ⟨t, rest, ok, eq, e⟩ | e
  swap
  · refine .inr ?_
    simp only [rVal, e, ↓reduceIte, and_self]
  have here : At r (t :: rest) := by
    refine ⟨ok, eq, Nat.le_of_lt (Nat.lt_of_not_le fun past => ?_)⟩
    rw [List.drop_eq_nil_of_le past] at eq
    cases eq
  have behind : (r.skip 1).p.drop (r.skip 1).pos = rest := (At.skip (a := [t]) here).rest
  have ok' : (r.skip 1).err = false := ok
  by_cases word : t = wtI32 ∨ t = wtBool
  · rcases rU32_cases (r.skip 1) with ⟨w, rest', len, _, eq', _⟩ | e'
    · obtain rfl := behind.symm.trans eq'
      exact .inl ⟨t :: w, rest', _, ok, eq, .word word len, (Encodes.word word len).read here⟩
    · refine .inr ?_
      simp only [rVal, e, ok', if_pos word, e', Bool.false_eq_true, ↓reduceIte, Bool.not_true,
        and_self]
  by_cases long : t = wtI64 ∨ t = wtF64
  · rcases rU64_cases (r.skip 1) with ⟨w, rest', len, _, eq', _⟩ | e'
    · obtain rfl := behind.symm.trans eq'
      exact .inl ⟨t :: w, rest', _, ok, eq, .long long len, (Encodes.long long len).read here⟩
    · refine .inr ?_
      simp only [rVal, e, ok', if_neg word, if_pos long, e', Bool.false_eq_true, ↓reduceIte,
        Bool.not_true, and_self]
  by_cases block : t = wtStr ∨ t = wtBytes
  · rcases rU32_cases (r.skip 1) with ⟨count, rest', len, _, eq', e'⟩ | e'
    · have back : lePut 4 (leGet count) = count := by rw [← len, lePut_leGet]
      have small : leGet count < 2 ^ 32 := by
        have := leGet_lt count
        rw [len] at this
        exact this
      obtain rfl := behind.symm.trans eq'
      have after : ((r.skip 1).skip 4).p.drop ((r.skip 1).skip 4).pos = rest' := by
        have := (At.skip (a := t :: count) (b := rest') (by simpa using here)).rest
        rw [List.length_cons, len] at this
        exact this
      rcases rTake_split ((r.skip 1).skip 4) (leGet count) with ⟨d, rest, dlen, _, eq', _⟩ | e''
      · obtain rfl := after.symm.trans eq'
        rw [← back, ← dlen] at here eq
        have enc : Encodes r.pos (t :: (lePut 4 d.length ++ d)) _ :=
          .block block (by rw [dlen]; exact small)
        have whole : t :: (lePut 4 d.length ++ (d ++ rest)) =
            (t :: (lePut 4 d.length ++ d)) ++ rest := by rw [List.cons_append, List.append_assoc]
        rw [whole] at here eq
        exact .inl ⟨_, rest, _, ok, eq, enc, enc.read here⟩
      · refine .inr ?_
        simp only [rVal, e, ok', if_neg word, if_neg long, if_pos block, e', e'',
          Bool.false_eq_true, ↓reduceIte, and_self]
    · refine .inr ?_
      have stop : rTake { r.skip 1 with err := true } 0 = (none, { r.skip 1 with err := true }) := by
        simp [rTake]
      simp only [rVal, e, ok', if_neg word, if_neg long, if_pos block, e', stop,
        Bool.false_eq_true, ↓reduceIte, and_self]
  · refine .inr ?_
    simp only [rVal, e, ok', if_neg word, if_neg long, if_neg block, Bool.false_eq_true,
      ↓reduceIte, and_self]

/-- The values of `enc` one after the other, from offset `off` on. -/
inductive EncodesAll : ℕ → Bytes → List WVal → Prop
  | nil (off : ℕ) : EncodesAll off [] []
  | cons {off : ℕ} {enc encs : Bytes} {v : WVal} {vs : List WVal} (h : Encodes off enc v)
      (hs : EncodesAll (off + enc.length) encs vs) : EncodesAll off (enc ++ encs) (v :: vs)

theorem EncodesAll.read {off : ℕ} {encs : Bytes} {vs : List WVal} (h : EncodesAll off encs vs)
    {r : WReader} {rest : Bytes} (hoff : r.pos = off) (here : At r (encs ++ rest)) :
    rVals vs.length r = (some vs, r.skip encs.length) := by
  induction h generalizing r with
  | nil => rfl
  | @cons off enc encs v vs h hs ih =>
    subst hoff
    rw [List.append_assoc] at here
    rw [List.length_cons, rVals, h.read here]
    dsimp only
    rw [ih rfl here.skip, skip_skip, List.length_append]

theorem rVals_some {n : ℕ} {r r' : WReader} {here : Bytes} {vs : List WVal} (front : At r here)
    (h : rVals n r = (some vs, r')) : vs.length = n ∧ ∃ encs rest, here = encs ++ rest ∧
      EncodesAll r.pos encs vs ∧ r' = r.skip encs.length := by
  induction n generalizing r here vs with
  | zero =>
    obtain ⟨rfl, rfl⟩ := h
    exact ⟨rfl, [], here, rfl, .nil _, rfl⟩
  | succ n ih =>
    rcases rVal_cases r with ⟨enc, rest, v, _, eq, he, read⟩ | ⟨failed, _⟩
    · obtain rfl := front.rest.symm.trans eq
      rw [rVals, read] at h
      dsimp only at h
      split at h
      · rename_i ws r'' tail
        obtain ⟨rfl, rfl⟩ := h
        obtain ⟨len, encs, rest', split, all, rfl⟩ := ih front.skip tail
        exact ⟨congrArg (· + 1) len, enc ++ encs, rest', by rw [split, List.append_assoc],
          .cons he all, by rw [skip_skip, List.length_append]⟩
      · cases h
    · rw [rVals] at h
      split at h
      · cases h
      · rename_i read
        rw [read] at failed
        cases failed

theorem rVals_none {n : ℕ} {r r' : WReader} (h : rVals n r = (none, r')) : r'.err = true := by
  induction n generalizing r with
  | zero => cases h
  | succ n ih =>
    rw [rVals] at h
    split at h
    · rename_i read
      obtain ⟨_, rfl⟩ := h
      rcases rVal_cases r with ⟨enc, rest, v, _, _, _, read'⟩ | ⟨_, stopped⟩
      · rw [read] at read'
        cases read'
      · rw [read] at stopped
        exact stopped
    · split at h
      · cases h
      · rename_i tail
        obtain ⟨_, rfl⟩ := h
        exact ih tail

theorem rVals_stays (n : ℕ) (r : WReader) : Stays r (rVals n r).2 := by
  induction n generalizing r with
  | zero => exact .refl r
  | succ n ih =>
    have one := rVal_stays r
    rw [rVals]
    split
    · rename_i read
      rwa [read] at one
    · rename_i v r' read
      rw [read] at one
      have all := one.trans (ih r')
      split <;> rename_i tail <;> rwa [tail] at all

/-- Tag, bits and bytes that a value is read back as; a bool becomes 0 or 1. -/
def OutVal.sent (v : OutVal) : UInt8 × ℕ × Bytes :=
  if v.type = wtI32 then (v.type, v.asI32, [])
  else if v.type = wtBool then (v.type, if v.asB ≠ 0 then 1 else 0, [])
  else if v.type = wtI64 ∨ v.type = wtF64 then (v.type, v.as.toNat, [])
  else (v.type, 0, v.bytes)

theorem encode_read {v : OutVal} (h : v.Valid) (off : ℕ) :
    ∃ w, Encodes off v.encode w ∧ ∀ body rest, body.drop off = v.encode ++ rest →
      shown body w = v.sent := by
  unfold OutVal.encode OutVal.payload OutVal.sent
  rcases h.cases with i32 | bool | long | block
  · have small : v.asI32 < 256 ^ 4 := Nat.mod_lt _ (by decide)
    simp only [if_pos i32]
    refine ⟨_, .word (.inl i32) (lePut_length 4 _), fun body rest _ => ?_⟩
    rw [leGet_lePut_of_lt small]
    rfl
  · have no32 : v.type ≠ wtI32 := by rw [bool]; decide
    have small : (if v.asB ≠ 0 then 1 else 0) < 256 ^ 4 := by split <;> decide
    simp only [if_neg no32, if_pos bool]
    refine ⟨_, .word (.inr bool) (lePut_length 4 _), fun body rest _ => ?_⟩
    rw [leGet_lePut_of_lt small]
    rfl
  · have no32 : v.type ≠ wtI32 := by rcases long with e | e <;> rw [e] <;> decide
    have noBool : v.type ≠ wtBool := by rcases long with e | e <;> rw [e] <;> decide
    simp only [if_neg no32, if_neg noBool, if_pos long]
    refine ⟨_, .long long (lePut_length 8 _), fun body rest _ => ?_⟩
    rw [leGet_lePut_of_lt v.as.toNat_lt]
    rfl
  · have no32 : v.type ≠ wtI32 := by rcases block with e | e <;> rw [e] <;> decide
    have noBool : v.type ≠ wtBool := by rcases block with e | e <;> rw [e] <;> decide
    have noLong : ¬ (v.type = wtI64 ∨ v.type = wtF64) := by
      rcases block with e | e <;> rw [e] <;> decide
    simp only [if_neg no32, if_neg noBool, if_neg noLong]
    refine ⟨_, .block block h.short, fun body rest eq => ?_⟩
    rw [shown]
    exact congrArg (fun d => (v.type, 0, d)) (block_bytes eq)

theorem encodeAll_read {vs : List OutVal} (h : ∀ v ∈ vs, v.Valid) (off : ℕ) :
    ∃ ws, EncodesAll off (vs.flatMap OutVal.encode) ws ∧ ∀ body rest,
      body.drop off = vs.flatMap OutVal.encode ++ rest → ws.map (shown body) = vs.map OutVal.sent := by
  induction vs generalizing off with
  | nil => exact ⟨[], .nil off, fun _ _ _ => rfl⟩
  | cons v vs ih =>
    obtain ⟨w, one, means⟩ := encode_read (h v List.mem_cons_self) off
    obtain ⟨ws, all, meansAll⟩ :=
      ih (fun u hu => h u (List.mem_cons_of_mem v hu)) (off + v.encode.length)
    refine ⟨w :: ws, .cons one all, fun body rest eq => ?_⟩
    rw [List.flatMap_cons, List.append_assoc] at eq
    have behind : body.drop (off + v.encode.length) = vs.flatMap OutVal.encode ++ rest := by
      rw [← List.drop_drop, eq, List.drop_left]
    rw [List.map_cons, List.map_cons, means body _ eq, meansAll body rest behind]

theorem at_init (p : Bytes) : At (wreaderInit p) p := ⟨rfl, rfl, Nat.zero_le _⟩

theorem encodeAll_round {vs : List OutVal} (h : ∀ v ∈ vs, v.Valid) :
    ∃ ws, rVals vs.length (wreaderInit (vs.flatMap OutVal.encode)) =
        (some ws, (wreaderInit (vs.flatMap OutVal.encode)).skip (vs.flatMap OutVal.encode).length) ∧
      ws.map (shown (vs.flatMap OutVal.encode)) = vs.map OutVal.sent := by
  obtain ⟨ws, all, means⟩ := encodeAll_read h 0
  have same := means (vs.flatMap OutVal.encode) [] (List.append_nil _).symm
  have len : ws.length = vs.length := by simpa using congrArg List.length same
  have front : At (wreaderInit (vs.flatMap OutVal.encode)) (vs.flatMap OutVal.encode ++ []) := by
    rw [List.append_nil]
    exact at_init _
  have read := all.read rfl front
  rw [len] at read
  exact ⟨ws, read, same⟩

theorem encodeAll_cut {vs : List OutVal} (h : ∀ v ∈ vs, v.Valid) {p q : Bytes}
    (cut : vs.flatMap OutVal.encode = p ++ q) (hq : q ≠ []) :
    (rVals vs.length (wreaderInit p)).2.err = true := by
  obtain ⟨ws, whole, _⟩ := encodeAll_round h
  match hr : rVals vs.length (wreaderInit p) with
  | (none, r) => exact rVals_none hr
  | (some us, r) =>
    obtain ⟨len, encs, rest, split, all, rfl⟩ := rVals_some (at_init p) hr
    have long : At (wreaderInit (vs.flatMap OutVal.encode)) (encs ++ (rest ++ q)) := by
      rw [cut, split, List.append_assoc]
      exact at_init _
    have read := all.read (r := wreaderInit (vs.flatMap OutVal.encode)) rfl long
    rw [len, whole] at read
    have pos := congrArg (fun x => x.2.pos) read
    have qpos := List.length_pos_iff.mpr hq
    simp only [WReader.skip] at pos
    rw [cut, split, List.length_append, List.length_append] at pos
    omega

theorem wVals_enough {vs : List OutVal} (h : ∀ v ∈ vs, v.Valid) (m : Mem) (buf : ℕ) {cap : ℕ}
    (room : wvalSizes vs ≤ cap) :
    wVals (wwriterInit m buf cap) vs = { wwriterInit m buf cap with
      pos := wvalSizes vs, mem := m.write buf (vs.flatMap OutVal.encode) } := by
  have len := encodeAll_length h
  have all := (wVals_wrote (wwriterInit m buf cap) h).fits rfl
    (by rw [len]; exact Nat.le_trans (Nat.le_of_eq (Nat.zero_add _)) room)
  rw [all, len]
  exact congrArg (fun n => WWriter.mk buf cap n false _) (Nat.zero_add _)

theorem rVal_bounded (p : Bytes) (n : ℕ) {r : WReader} (hr : (rVals n (wreaderInit p)).2 = r) :
    r.p = p ∧ (rVal r).2.2.pos ≤ p.length ∧
    ((rVal r).2.2.err = true ∨ (rVal r).1 = true ∧ r.pos + 5 ≤ (rVal r).2.2.pos) ∧
    ((rVal r).1 = true → ∀ off, (rVal r).2.1.data = some off → off + (rVal r).2.1.len ≤ p.length) ∧
    (r.err = true → (rVal r).1 = false ∧ (rVal r).2.2.err = true ∧ (rVal r).2.2.pos = r.pos) := by
  have before := rVals_stays n (wreaderInit p)
  rw [hr] at before
  have one := rVal_stays r
  have same : r.p = p := before.p
  have bound : (rVal r).2.2.pos ≤ p.length := by
    have := one.inside (by rw [same]; exact before.inside (Nat.zero_le _))
    rwa [same] at this
  refine ⟨same, bound, ?_⟩
  rcases rVal_cases r with ⟨enc, rest, v, ok, _, he, read⟩ | ⟨failed, stopped⟩
  · rw [read] at bound ⊢
    refine ⟨.inr ⟨rfl, Nat.add_le_add_left he.least r.pos⟩, fun _ off data => ?_, fun err => ?_⟩
    · exact Nat.le_trans (Nat.le_of_eq (he.slice data)) bound
    · rw [ok] at err
      cases err
  · refine ⟨.inl stopped, fun ok => ?_, fun err => ⟨failed, one.stopped err⟩⟩
    rw [failed] at ok
    cases ok

/-- Writing, reading back, short buffers, cut inputs, and arbitrary inputs. -/
theorem wire_codec_faithful (vs : List OutVal) (valid : ∀ v ∈ vs, v.Valid) :
    (∀ m buf cap, wvalSizes vs ≤ cap →
      let w := wVals (wwriterInit m buf cap) vs
      let p := w.mem.load buf w.pos
      w.err = false ∧ w.pos = wvalSizes vs ∧ ∃ ws,
        rVals vs.length (wreaderInit p) = (some ws, ⟨p, p.length, false⟩) ∧
          ws.map (shown p) = vs.map OutVal.sent) ∧
    (∀ m buf cap, cap < wvalSizes vs → (wVals (wwriterInit m buf cap) vs).err = true) ∧
    (∀ m buf cap x, x < buf ∨ buf + cap ≤ x → (wVals (wwriterInit m buf cap) vs).mem x = m x) ∧
    (∀ p q, q ≠ [] → vs.flatMap OutVal.encode = p ++ q →
      (rVals vs.length (wreaderInit p)).2.err = true) ∧
    (∀ p n r, (rVals n (wreaderInit p)).2 = r →
      r.p = p ∧ (rVal r).2.2.pos ≤ p.length ∧
      ((rVal r).2.2.err = true ∨ (rVal r).1 = true ∧ r.pos + 5 ≤ (rVal r).2.2.pos) ∧
      ((rVal r).1 = true → ∀ off, (rVal r).2.1.data = some off →
        off + (rVal r).2.1.len ≤ p.length) ∧
      (r.err = true → (rVal r).1 = false ∧ (rVal r).2.2.err = true ∧
        (rVal r).2.2.pos = r.pos)) := by
  have len := encodeAll_length valid
  refine ⟨fun m buf cap room => ?_, fun m buf cap short => ?_, fun m buf cap x out => ?_,
    fun p q hq cut => encodeAll_cut valid cut hq, fun p n r => rVal_bounded p n⟩
  · have bytes : (m.write buf (vs.flatMap OutVal.encode)).load buf (wvalSizes vs) =
        vs.flatMap OutVal.encode := by
      rw [← len, load_write]
    obtain ⟨ws, read, same⟩ := encodeAll_round valid
    rw [wVals_enough valid m buf room]
    dsimp only [wwriterInit]
    rw [bytes]
    refine ⟨rfl, rfl, ws, read.trans ?_, same⟩
    exact congrArg (fun n => (some ws, WReader.mk _ n false)) (Nat.zero_add _)
  · refine (wVals_wrote (wwriterInit m buf cap) valid).full (Nat.zero_le cap) (.inr ?_)
    rw [len]
    exact Nat.lt_of_lt_of_eq short (Nat.zero_add _).symm
  · exact (wVals_wrote (wwriterInit m buf cap) valid).frame (Nat.zero_le cap) x out

def helloVals : List OutVal := [⟨wtBool, 7, []⟩, ⟨wtStr, 0, ascii "hi"⟩]

theorem wire_codec_faithful_hello :
    (wVals (wwriterInit (fun _ => 0) 64 16) helloVals).pos = 12 ∧
      (wVals (wwriterInit (fun _ => 0) 64 11) helloVals).err = true := by
  have valid : ∀ v ∈ helloVals, v.Valid := by
    intro v hv
    simp only [helloVals, List.mem_cons, List.not_mem_nil, or_false] at hv
    rcases hv with rfl | rfl <;> exact ⟨by decide, by decide⟩
  have codec := wire_codec_faithful helloVals valid
  exact ⟨(codec.1 (fun _ => 0) 64 16 (by decide)).2.1, codec.2.1 (fun _ => 0) 64 11 (by decide)⟩

end Cerco.WireCodec
