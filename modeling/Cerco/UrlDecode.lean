import Cerco.ByteMemory
import Cerco.PercentText
import Cerco.Request

set_option autoImplicit false

/-!
# cerco_url_decode on memory

The loop reads from one region and writes to another, which may be the same one.
-/
namespace Cerco.UrlDecode
open Cerco.ByteMemory Cerco.CString Cerco.PercentText Cerco.Request

/-- The loop at `i` and `o`, with the rounds left; `none` is (size_t)-1. -/
def decodeFrom (plusIsSpace : Bool) (src len dst dstcap : ℕ) : ℕ → ℕ → ℕ → Mem → Option ℕ × Mem
  | 0, _, _, m => (none, m)
  | n + 1, i, o, m =>
    if i < len then
      let c := m (src + i)
      if c = 37 then
        if len ≤ i + 2 then (none, m)
        else
          match hexval (m (src + (i + 1))), hexval (m (src + (i + 2))) with
          | some hi, some lo =>
            if dstcap ≤ o + 1 then (none, m)
            else decodeFrom plusIsSpace src len dst dstcap n (i + 3) (o + 1)
              (m.set (dst + o) (UInt8.ofNat (hi * 16 + lo)))
          | _, _ => (none, m)
      else
        let out := if c = 43 ∧ plusIsSpace = true then 32 else c
        if dstcap ≤ o + 1 then (none, m)
        else decodeFrom plusIsSpace src len dst dstcap n (i + 1) (o + 1) (m.set (dst + o) out)
    else (some o, m.set (dst + o) 0)

/-- `cerco_url_decode` into a buffer at `dst`. -/
def urlDecodeInto (m : Mem) (src len dst dstcap : ℕ) (plusIsSpace : Bool) : Option ℕ × Mem :=
  if dstcap = 0 then (none, m) else decodeFrom plusIsSpace src len dst dstcap (len + 1) 0 0 m

theorem hexval_digit (c : UInt8) : hexval c = digitValue c := by
  have all : ∀ n < 256, hexval (UInt8.ofNat n) = digitValue (UInt8.ofNat n) := by decide +kernel
  have here := all c.toNat c.toNat_lt
  rwa [UInt8.ofNat_toNat] at here

def stored (plus : Bool) : ℕ → Bytes → Bytes
  | _, [] => []
  | 0, _ :: _ => []
  | room + 1, c :: rest =>
    if c = 37 then
      match rest with
      | h :: l :: rest' =>
        match hexval h, hexval l with
        | some hi, some lo => UInt8.ofNat (hi * 16 + lo) :: stored plus room rest'
        | _, _ => []
      | _ => []
    else if c = 43 ∧ plus = true then 32 :: stored plus room rest
    else c :: stored plus room rest

theorem tail_short {rest : Bytes} (short : ∀ h l tail, rest = h :: l :: tail → False) : rest.length < 2 := by
  cases rest with
  | nil => exact Nat.zero_lt_two
  | cons c rest =>
    cases rest with
    | nil => exact Nat.one_lt_two
    | cons d rest => exact (short c d rest rfl).elim

theorem digits_broken {h l : UInt8} (bad : ∀ hi lo, hexval h = some hi → hexval l = some lo → False) :
    (hexval h = none ∨ hexval l = none) ∧ ¬ ((digitValue h).isSome = true ∧ (digitValue l).isSome = true) := by
  rw [← hexval_digit, ← hexval_digit]
  cases eh : hexval h with
  | none => exact ⟨.inl rfl, fun digits => (by cases digits.1)⟩
  | some hi =>
    cases el : hexval l with
    | none => exact ⟨.inr rfl, fun digits => (by cases digits.2)⟩
    | some lo => exact (bad hi lo eh el).elim

theorem urlDecode_short (plus : Bool) (room : ℕ) {rest : Bytes} (h : rest.length < 2) :
    urlDecode plus room (37 :: rest) = none ∧ stored plus room (37 :: rest) = [] := by
  match room, rest with
  | 0, _ => exact ⟨rfl, rfl⟩
  | _ + 1, [] => exact ⟨rfl, rfl⟩
  | _ + 1, [_] => exact ⟨rfl, rfl⟩
  | _ + 1, a :: b :: rest =>
    simp only [List.length_cons] at h
    omega

theorem urlDecode_bad (plus : Bool) (room : ℕ) {h l : UInt8} (rest : Bytes)
    (bad : hexval h = none ∨ hexval l = none) :
    urlDecode plus room (37 :: h :: l :: rest) = none ∧ stored plus room (37 :: h :: l :: rest) = [] := by
  cases room with
  | zero => exact ⟨rfl, rfl⟩
  | succ room =>
    rw [urlDecode, stored, if_pos rfl, if_pos rfl]
    cases eh : hexval h with
    | none => exact ⟨rfl, rfl⟩
    | some hi =>
      cases el : hexval l with
      | none => exact ⟨rfl, rfl⟩
      | some lo =>
        rw [eh, el] at bad
        obtain h | h := bad <;> cases h

theorem urlDecode_escaped (plus : Bool) (room : ℕ) {h l : UInt8} {hi lo : ℕ} (rest : Bytes)
    (eh : hexval h = some hi) (el : hexval l = some lo) :
    urlDecode plus (room + 1) (37 :: h :: l :: rest) =
        (urlDecode plus room rest).map (UInt8.ofNat (hi * 16 + lo) :: ·) ∧
      stored plus (room + 1) (37 :: h :: l :: rest) = UInt8.ofNat (hi * 16 + lo) :: stored plus room rest := by
  rw [urlDecode, stored, if_pos rfl, if_pos rfl]
  simp only [eh, el, and_self]

theorem urlDecode_other (plus : Bool) (room : ℕ) {c : UInt8} (rest : Bytes) (h : c ≠ 37) :
    urlDecode plus (room + 1) (c :: rest) =
        (urlDecode plus room rest).map ((if c = 43 ∧ plus = true then 32 else c) :: ·) ∧
      stored plus (room + 1) (c :: rest) =
        (if c = 43 ∧ plus = true then 32 else c) :: stored plus room rest := by
  rw [urlDecode.eq_def, stored.eq_def]
  dsimp only
  rw [if_neg h, if_neg h]
  by_cases space : c = 43 ∧ plus = true
  · simp only [if_pos space, and_self]
  · simp only [if_neg space, and_self]

/-- The writes stay behind the reads. -/
def Apart (src len dst : ℕ) : Prop := dst ≤ src ∨ src + len ≤ dst

instance (src len dst : ℕ) : Decidable (Apart src len dst) := inferInstanceAs (Decidable (_ ∨ _))

theorem Apart.unread {src len dst i o : ℕ} (h : Apart src len dst) (behind : o ≤ i) {k : ℕ} (next : i < k)
    (m : Mem) (b : UInt8) : (m.set (dst + o) b).load (src + k) (len - k) = m.load (src + k) (len - k) := by
  refine load_congr fun x lo hi => if_neg ?_
  unfold Apart at h
  omega

theorem decodeFrom_eq {plus : Bool} {src len dst cap : ℕ} (apart : Apart src len dst) {n i o : ℕ} {s : Bytes}
    {m : Mem} (hs : m.load (src + i) (len - i) = s) (behind : o ≤ i) (rounds : len - i < n) (room : o < cap) :
    decodeFrom plus src len dst cap n i o m =
      match urlDecode plus (cap - 1 - o) s with
      | some d => (some (o + d.length), m.write (dst + o) (d ++ [0]))
      | none => (none, m.write (dst + o) (stored plus (cap - 1 - o) s)) := by
  induction n generalizing i o s m with
  | zero => omega
  | succ n ih =>
    rw [decodeFrom]
    by_cases more : i < len
    · obtain ⟨left, hleft⟩ : ∃ left, len - i = left + 1 := ⟨len - i - 1, by omega⟩
      rw [hleft, Mem.load] at hs
      subst hs
      have rest : m.load (src + i + 1) left = m.load (src + (i + 1)) (len - (i + 1)) := by
        rw [show len - (i + 1) = left by omega, Nat.add_assoc]
      simp only [if_pos more]
      by_cases mark : m (src + i) = 37
      · rw [if_pos mark, mark]
        by_cases cut : len ≤ i + 2
        · obtain ⟨none, nothing⟩ := urlDecode_short plus (cap - 1 - o)
            (show (m.load (src + i + 1) left).length < 2 by rw [load_length]; omega)
          rw [if_pos cut, none, nothing]
          rfl
        · obtain ⟨more, hmore⟩ : ∃ more, left = more + 2 := ⟨left - 2, by omega⟩
          have split : m.load (src + i + 1) left =
              m (src + (i + 1)) :: m (src + (i + 2)) :: m.load (src + (i + 3)) (len - (i + 3)) := by
            rw [hmore, show len - (i + 3) = more by omega]
            rfl
          rw [if_neg cut, split]
          cases eh : hexval (m (src + (i + 1))) with
          | none =>
            obtain ⟨none, nothing⟩ := urlDecode_bad plus (cap - 1 - o)
              (m.load (src + (i + 3)) (len - (i + 3))) (l := m (src + (i + 2))) (.inl eh)
            rw [none, nothing]
            rfl
          | some hi =>
            cases el : hexval (m (src + (i + 2))) with
            | none =>
              obtain ⟨none, nothing⟩ := urlDecode_bad plus (cap - 1 - o)
                (m.load (src + (i + 3)) (len - (i + 3))) (h := m (src + (i + 1))) (.inr el)
              rw [none, nothing]
              rfl
            | some lo =>
              dsimp only
              by_cases full : cap ≤ o + 1
              · rw [if_pos full, show cap - 1 - o = 0 by omega]
                rfl
              · obtain ⟨decoded, kept⟩ := urlDecode_escaped plus (cap - 1 - (o + 1))
                  (m.load (src + (i + 3)) (len - (i + 3))) eh el
                have unread := apart.unread behind (show i < i + 3 by omega) m (UInt8.ofNat (hi * 16 + lo))
                rw [if_neg full, ih unread (by omega) (by omega) (by omega),
                  show cap - 1 - o = cap - 1 - (o + 1) + 1 by omega, decoded, kept]
                cases urlDecode plus (cap - 1 - (o + 1)) (m.load (src + (i + 3)) (len - (i + 3))) with
                | none => rfl
                | some d =>
                  simp only [Option.map_some, List.length_cons, List.cons_append, Mem.write, Nat.add_assoc,
                    Nat.add_comm 1]
      · rw [if_neg mark, rest]
        by_cases full : cap ≤ o + 1
        · rw [if_pos full, show cap - 1 - o = 0 by omega]
          rfl
        · obtain ⟨decoded, kept⟩ := urlDecode_other plus (cap - 1 - (o + 1))
            (m.load (src + (i + 1)) (len - (i + 1))) mark
          have unread := apart.unread behind (Nat.lt_succ_self i) m
            (if m (src + i) = 43 ∧ plus = true then 32 else m (src + i))
          rw [if_neg full, ih unread (by omega) (by omega) (by omega),
            show cap - 1 - o = cap - 1 - (o + 1) + 1 by omega, decoded, kept]
          cases urlDecode plus (cap - 1 - (o + 1)) (m.load (src + (i + 1)) (len - (i + 1))) with
          | none => rfl
          | some d =>
            simp only [Option.map_some, List.length_cons, List.cons_append, Mem.write, Nat.add_assoc,
              Nat.add_comm 1]
    · have empty : s = [] := by
        rw [← hs, show len - i = 0 by omega]
        rfl
      rw [empty]
      simp only [if_neg more]
      cases cap - 1 - o <;> rfl

theorem urlDecodeInto_eq {src len dst cap : ℕ} (apart : Apart src len dst) (room : 0 < cap) (m : Mem)
    (plus : Bool) : urlDecodeInto m src len dst cap plus =
      match urlDecode plus (cap - 1) (m.load src len) with
      | some d => (some d.length, m.write dst (d ++ [0]))
      | none => (none, m.write dst (stored plus (cap - 1) (m.load src len))) := by
  have run := @decodeFrom_eq plus src len dst cap apart (len + 1) 0 0 (m.load src len) m rfl
    (Nat.le_refl 0) (by omega) room
  rw [urlDecodeInto, if_neg (by omega), run]
  simp only [Nat.sub_zero, Nat.zero_add, Nat.add_zero]

/-- The text that the function leaves in a buffer of `cap` bytes. -/
def decodeText (plus : Bool) (cap : ℕ) (s : Bytes) : Option Bytes :=
  if cap = 0 then none else urlDecode plus (cap - 1) s

theorem urlDecodeInto_text {src len dst cap : ℕ} (apart : Apart src len dst) (m : Mem) (plus : Bool) :
    (urlDecodeInto m src len dst cap plus).1 = (decodeText plus cap (m.load src len)).map List.length ∧
    ∀ d, decodeText plus cap (m.load src len) = some d →
      (urlDecodeInto m src len dst cap plus).2 = m.write dst (d ++ [0]) := by
  by_cases empty : cap = 0
  · rw [urlDecodeInto, decodeText, if_pos empty, if_pos empty]
    exact ⟨rfl, fun d h => (by cases h)⟩
  · rw [urlDecodeInto_eq apart (by omega), decodeText, if_neg empty]
    cases urlDecode plus (cap - 1) (m.load src len) with
    | none => exact ⟨rfl, fun d h => (by cases h)⟩
    | some d => exact ⟨rfl, fun e h => by rw [Option.some.inj h]⟩

def Accepts (plus : Bool) (room : ℕ) (s : Bytes) : Prop :=
  ∀ d, urlDecode plus room s = some d ↔ WellFormed s ∧ (decode plus s).length ≤ room ∧ decode plus s = d

theorem Accepts.step {plus : Bool} {room : ℕ} {s t : Bytes} {b : UInt8} (ih : Accepts plus room t)
    (run : urlDecode plus (room + 1) s = (urlDecode plus room t).map (b :: ·))
    (good : WellFormed s ↔ WellFormed t) (meaning : decode plus s = b :: decode plus t) :
    Accepts plus (room + 1) s := by
  intro d
  rw [run, Option.map_eq_some_iff, good, meaning, List.length_cons, Nat.add_le_add_iff_right]
  constructor
  · rintro ⟨e, he, rfl⟩
    obtain ⟨fine, short, rfl⟩ := (ih e).mp he
    exact ⟨fine, short, rfl⟩
  · rintro ⟨fine, short, rfl⟩
    exact ⟨decode plus t, (ih _).mpr ⟨fine, short, rfl⟩, rfl⟩

theorem Accepts.rejected {plus : Bool} {room : ℕ} {s : Bytes} (run : urlDecode plus room s = none)
    (h : WellFormed s → room < (decode plus s).length) : Accepts plus room s := by
  intro d
  rw [run]
  refine iff_of_false (fun h => (by cases h)) ?_
  rintro ⟨good, short, _⟩
  exact absurd short (Nat.not_le.mpr (h good))

theorem urlDecode_accepts (plus : Bool) (room : ℕ) (s : Bytes) : Accepts plus room s := by
  induction room, s using urlDecode.induct plus with
  | case1 room =>
    intro d
    have run : urlDecode plus room [] = some [] := by cases room <;> rfl
    rw [run]
    exact ⟨fun h => ⟨wellFormed_nil, Nat.zero_le room, Option.some.inj h⟩, fun h => congrArg some h.2.2⟩
  | case2 c rest =>
    refine .rejected rfl fun good => ?_
    by_cases mark : c = 37
    · subst mark
      obtain ⟨h, l, tail, rfl, _⟩ := good [] rest rfl
      rw [decode_escape]
      exact Nat.succ_pos _
    · rw [decode_plain mark]
      exact Nat.succ_pos _
  | case3 room h l rest hi lo el eh ih =>
    have high := hexval_digit h
    have low := hexval_digit l
    rw [eh] at high
    rw [el] at low
    refine ih.step (urlDecode_escaped plus room rest eh el).1 ?_ ?_
    · rw [wellFormed_escape, ← high, ← low]
      exact ⟨fun good => good.2, fun good => ⟨⟨rfl, rfl⟩, good⟩⟩
    · rw [decode_escape, escapedByte, ← high, ← low]
      rfl
  | case4 room h l rest bad =>
    obtain ⟨broken, noDigits⟩ := digits_broken bad
    refine .rejected (urlDecode_bad plus (room + 1) rest broken).1 fun good => ?_
    exact absurd ((wellFormed_escape h l rest).mp good).1 noDigits
  | case5 room rest short =>
    have few := tail_short short
    exact .rejected (urlDecode_short plus (room + 1) few).1 fun good => absurd good (wellFormed_short few)
  | case6 room c rest mark space ih =>
    refine ih.step ?_ (wellFormed_plain mark rest) (decode_plain mark rest)
    exact (urlDecode_other plus room rest mark).1
  | case7 room c rest mark space ih =>
    refine ih.step ?_ (wellFormed_plain mark rest) (decode_plain mark rest)
    exact (urlDecode_other plus room rest mark).1

theorem urlDecodeInto_accepted {m : Mem} {src len dst cap : ℕ} {plus : Bool} (apart : Apart src len dst)
    (good : WellFormed (m.load src len)) (short : (decode plus (m.load src len)).length < cap) :
    urlDecodeInto m src len dst cap plus = (some (decode plus (m.load src len)).length,
      m.write dst (decode plus (m.load src len) ++ [0])) := by
  have room : 0 < cap := Nat.lt_of_le_of_lt (Nat.zero_le _) short
  have hit := (urlDecode_accepts plus (cap - 1) (m.load src len) _).mpr ⟨good, by omega, rfl⟩
  rw [urlDecodeInto_eq apart room, hit]

theorem urlDecodeInto_rejected {m : Mem} {src len dst cap : ℕ} {plus : Bool} (apart : Apart src len dst)
    (room : 0 < cap) (h : ¬ (WellFormed (m.load src len) ∧ (decode plus (m.load src len)).length < cap)) :
    urlDecodeInto m src len dst cap plus =
      (none, m.write dst (stored plus (cap - 1) (m.load src len))) := by
  rw [urlDecodeInto_eq apart room]
  cases found : urlDecode plus (cap - 1) (m.load src len) with
  | none => rfl
  | some d =>
    obtain ⟨good, short, _⟩ := (urlDecode_accepts plus (cap - 1) (m.load src len) d).mp found
    exact absurd ⟨good, by omega⟩ h

/-- cerco_url_decode accepts the well-formed texts whose meaning fits and stores the meaning; any
encoding of `x` comes back as `x`, and nothing changes when the buffer is the text itself. -/
theorem url_decode_correct (m : Mem) (src len dst cap : ℕ) (plus : Bool) (room : 0 < cap)
    (apart : Apart src len dst) :
    ((urlDecodeInto m src len dst cap plus).1.isSome = true ↔
      WellFormed (m.load src len) ∧ (decode plus (m.load src len)).length < cap) ∧
    (∀ n, (urlDecodeInto m src len dst cap plus).1 = some n →
      n = (decode plus (m.load src len)).length ∧
      (urlDecodeInto m src len dst cap plus).2 = m.write dst (decode plus (m.load src len) ++ [0])) ∧
    (∀ x, Encoding plus x (m.load src len) → x.length < cap →
      urlDecodeInto m src len dst cap plus = (some x.length, m.write dst (x ++ [0]))) ∧
    (urlDecodeInto m src len src cap plus).1 = (urlDecodeInto m src len dst cap plus).1 ∧
    ∀ n, (urlDecodeInto m src len dst cap plus).1 = some n →
      (urlDecodeInto m src len src cap plus).2.load src (n + 1) =
        (urlDecodeInto m src len dst cap plus).2.load dst (n + 1) := by
  have inPlace : Apart src len src := .inl (Nat.le_refl src)
  by_cases h : WellFormed (m.load src len) ∧ (decode plus (m.load src len)).length < cap
  · have same := urlDecodeInto_accepted inPlace h.1 h.2
    rw [urlDecodeInto_accepted apart h.1 h.2]
    refine ⟨iff_of_true rfl h, fun n hn => ⟨(Option.some.inj hn).symm, rfl⟩, fun x e _ => ?_, ?_, fun n hn => ?_⟩
    · rw [e.decode]
    · rw [same]
    · have len : n + 1 = (decode plus (m.load src len) ++ [0]).length := by
        rw [List.length_append, Option.some.inj hn]
        rfl
      rw [same, len, load_write, load_write]
  · rw [urlDecodeInto_rejected apart room h, urlDecodeInto_rejected inPlace room h]
    refine ⟨iff_of_false (fun e => (by cases e)) h, fun n hn => (by cases hn), fun x e short => ?_, rfl,
      fun n hn => (by cases hn)⟩
    exact absurd ⟨e.wellFormed, by rw [e.decode]; exact short⟩ h

/-- The text `a%20b%2Fc` at 16. -/
def spacedText : Mem := Mem.write (fun _ => 255) 16 (ascii "a%20b%2Fc")

theorem url_decode_correct_spaced : (urlDecodeInto spacedText 16 9 16 64 false).1.isSome = true :=
  (url_decode_correct spacedText 16 9 16 64 false (by decide) (by decide)).1.mpr (by decide)

end Cerco.UrlDecode
