import Cerco.HtmlEscape
import Cerco.UrlDecode

set_option autoImplicit false

/-!
# Whether a buffer ends with a NUL

`str.h` promises a terminator whenever there is room for one. Both functions leave
their loop without storing it when the input is malformed or does not fit.
-/
namespace Cerco.TerminatedBuffers
open Cerco.ByteMemory Cerco.CString Cerco.Escaping Cerco.HtmlEscape Cerco.PercentText Cerco.Request
open Cerco.UrlDecode

/-- What the header says of a buffer of `cap` bytes, from `m` to `m'`. -/
structure Terminated (buf cap : ℕ) (m m' : Mem) : Prop where
  nul : ∃ j < cap, m' (buf + j) = 0
  inside : ∀ x, x < buf ∨ buf + cap ≤ x → m' x = m x

/-- `p` is the longest prefix of the input that can be taken. -/
structure Longest (takes : Bytes → Prop) (s p : Bytes) : Prop where
  front : p <+: s
  taken : takes p
  most : ∀ q, q <+: s → takes q → q <+: p

/-- When the buffer ends with a NUL: the whole input is taken, a prefix that is taken stands for a text
with a NUL, or an old NUL is not reached by any such text. -/
def EndsInside (takes : Bytes → Prop) (text : Bytes → Bytes) (s : Bytes) (buf cap : ℕ) (m : Mem) : Prop :=
  takes s ∨ (∃ q, q <+: s ∧ takes q ∧ 0 ∈ text q) ∨
    ∃ j < cap, m (buf + j) = 0 ∧ ∀ q, q <+: s → takes q → (text q).length ≤ j

theorem write_ends (m : Mem) (buf cap : ℕ) {t : Bytes} (short : t.length ≤ cap) :
    (∃ j < cap, m.write buf t (buf + j) = 0) ↔ 0 ∈ t ∨ ∃ j < cap, m (buf + j) = 0 ∧ t.length ≤ j := by
  constructor
  · rintro ⟨j, hj, nul⟩
    by_cases old : t.length ≤ j
    · rw [write_outside m t (.inr (Nat.add_le_add_left old buf))] at nul
      exact .inr ⟨j, hj, nul, old⟩
    · have stored := mem_load.mpr ⟨j, Nat.lt_of_not_le old, nul⟩
      rw [load_write] at stored
      exact .inl stored
  · rintro (stored | ⟨j, hj, nul, old⟩)
    · rw [← load_write m buf t] at stored
      obtain ⟨j, hj, nul⟩ := mem_load.mp stored
      exact ⟨j, by omega, nul⟩
    · exact ⟨j, hj, by rw [write_outside m t (.inr (Nat.add_le_add_left old buf)), nul]⟩

/-- A run that stores the text of the whole input and a NUL, or else of its longest prefix. -/
theorem terminated_iff {takes : Bytes → Prop} {text : Bytes → Bytes} {s : Bytes} {buf cap : ℕ} {m m' : Mem}
    (grows : ∀ p q, q <+: p → takes q → text q <+: text p) (fits : ∀ q, takes q → (text q).length < cap)
    (whole : takes s → m' = m.write buf (text s ++ [0]))
    (cut : ¬ takes s → ∃ p, Longest takes s p ∧ m' = m.write buf (text p)) :
    Terminated buf cap m m' ↔ EndsInside takes text s buf cap m := by
  by_cases h : takes s
  · have len : (text s ++ [0]).length = (text s).length + 1 := by rw [List.length_append]; rfl
    have short := fits s h
    refine iff_of_true ⟨?_, fun x hx => ?_⟩ (.inl h)
    · rw [whole h]
      exact (write_ends m buf cap (by omega)).mpr (.inl (List.mem_append_right _ List.mem_cons_self))
    · rw [whole h]
      exact write_outside m _ (by omega)
  · obtain ⟨p, longest, rfl⟩ := cut h
    have short := fits p longest.taken
    have room : ∀ x, x < buf ∨ buf + cap ≤ x → m.write buf (text p) x = m x := fun x hx =>
      write_outside m _ (by omega)
    constructor
    · rintro ⟨nul, _⟩
      obtain stored | ⟨j, hj, old, free⟩ := (write_ends m buf cap short.le).mp nul
      · exact .inr (.inl ⟨p, longest.front, longest.taken, stored⟩)
      · refine .inr (.inr ⟨j, hj, old, fun q hq taken => ?_⟩)
        exact Nat.le_trans (grows p q (longest.most q hq taken) taken).length_le free
    · rintro (taken | ⟨q, hq, taken, stored⟩ | ⟨j, hj, old, free⟩)
      · exact absurd taken h
      · have behind := (grows p q (longest.most q hq taken) taken).subset stored
        exact ⟨(write_ends m buf cap short.le).mpr (.inl behind), room⟩
      · exact ⟨(write_ends m buf cap short.le).mpr
          (.inr ⟨j, hj, old, free p longest.front longest.taken⟩), room⟩

theorem Longest.nothing {takes : Bytes → Prop} {s : Bytes} (empty : takes [])
    (none : ∀ c q, c :: q <+: s → ¬ takes (c :: q)) : Longest takes s [] where
  front := List.nil_prefix
  taken := empty
  most q hq taken := by
    cases q with
    | nil => exact List.nil_prefix
    | cons c q => exact absurd taken (none c q hq)

theorem Longest.piece {takes inner : Bytes → Prop} {v s p : Bytes} (h : Longest inner s p)
    (here : ∀ q, takes (v ++ q) ↔ inner q) (enter : ∀ q, q <+: v ++ s → takes q → q = [] ∨ v <+: q) :
    Longest takes (v ++ s) (v ++ p) where
  front := (List.prefix_append_right_inj v).mpr h.front
  taken := (here p).mpr h.taken
  most q hq taken := by
    obtain rfl | ⟨q, rfl⟩ := enter q hq taken
    · exact List.nil_prefix
    · have rest := (List.prefix_append_right_inj v).mp hq
      exact (List.prefix_append_right_inj v).mpr (h.most q rest ((here q).mp taken))

theorem escapeInto_cut {buf cap : ℕ} (s : Bytes) {o : ℕ} (m : Mem) (room : o < cap)
    (full : cap ≤ o + (escape s).length) :
    ∃ p, Longest (fun q => o + (escape q).length < cap) s p ∧
      (escapeInto buf cap s o m).2 = m.write (buf + o) (escape p) := by
  induction s generalizing o m with
  | nil => exact absurd full (Nat.not_le.mpr room)
  | cons c s ih =>
    obtain ⟨text, one, loop⟩ : ∃ text : Bytes, (∀ q, escape (c :: q) = text ++ escape q) ∧
        escapeInto buf cap (c :: s) o m = if cap - 1 < o + text.length then (none, m)
          else escapeInto buf cap s (o + text.length) (m.write (buf + o) text) := by
      rw [escapeInto]
      cases found : rep c with
      | some text => exact ⟨text, escape_rep found, rfl⟩
      | none => exact ⟨[c], escape_other found, rfl⟩
    have len : ∀ q, (escape (c :: q)).length = text.length + (escape q).length := fun q => by
      rw [one, List.length_append]
    rw [loop]
    by_cases stop : cap - 1 < o + text.length
    · rw [if_pos stop]
      refine ⟨[], .nothing room fun d q hq taken => ?_, rfl⟩
      obtain ⟨rfl, _⟩ := List.cons_prefix_cons.mp hq
      rw [len] at taken
      omega
    · rw [if_neg stop]
      rw [len] at full
      obtain ⟨p, longest, stored⟩ := ih (m.write (buf + o) text) (show o + text.length < cap by omega) (by omega)
      refine ⟨c :: p, longest.piece (v := [c]) (fun q => ?_) (fun q hq _ => ?_), ?_⟩
      · rw [List.singleton_append, len, Nat.add_assoc]
      · cases q with
        | nil => exact .inl rfl
        | cons d q =>
          obtain ⟨rfl, _⟩ := List.cons_prefix_cons.mp hq
          exact .inr ⟨q, rfl⟩
      · rw [stored, one, write_append, Nat.add_assoc]

theorem htmlEscape_terminated (m : Mem) (src : Bytes) (buf : ℕ) {cap : ℕ} (room : 0 < cap) :
    Terminated buf cap m (htmlEscape m src (some buf) cap).2 ↔
      EndsInside (fun q => (escape q).length < cap) escape src buf cap m := by
  rw [htmlEscape, if_neg (by omega)]
  refine terminated_iff (fun p q hq _ => ?_) (fun q taken => taken) (fun fits => ?_) fun full => ?_
  · obtain ⟨rest, rfl⟩ := hq
    rw [escape_append]
    exact List.prefix_append _ _
  · have used := @escapeInto_fits buf cap src 0 m (by omega)
    rw [used]
    rfl
  · obtain ⟨p, longest, stored⟩ := @escapeInto_cut buf cap src 0 m room (by omega)
    simp only [Nat.zero_add] at longest
    exact ⟨p, longest, stored⟩

theorem decode_pos {plus : Bool} {c : UInt8} {q : Bytes} (good : WellFormed (c :: q)) :
    0 < (decode plus (c :: q)).length := by
  by_cases mark : c = 37
  · subst mark
    obtain ⟨h, l, rest, rfl, _⟩ := good [] q rfl
    rw [decode_escape]
    exact Nat.succ_pos _
  · rw [decode_plain mark]
    exact Nat.succ_pos _

/-- Which prefixes the loop gets through with `room` bytes left. -/
def Decodes (plus : Bool) (room : ℕ) (q : Bytes) : Prop := WellFormed q ∧ (decode plus q).length ≤ room

theorem decodes_nil (plus : Bool) (room : ℕ) : Decodes plus room [] := ⟨wellFormed_nil, Nat.zero_le room⟩

theorem longest_bad {plus : Bool} {room : ℕ} {s : Bytes} (bad : ¬ EscapeFirst s) :
    Longest (Decodes plus room) (37 :: s) [] := by
  refine .nothing (decodes_nil plus room) fun c q hq taken => ?_
  obtain ⟨rfl, tail, rfl⟩ := List.cons_prefix_cons.mp hq
  obtain ⟨h, l, rest, rfl, digits⟩ := taken.1 [] q rfl
  exact bad ⟨h, l, rest ++ tail, rfl, digits⟩

theorem longest_plain {plus : Bool} {room : ℕ} {c : UInt8} {s p : Bytes} (mark : c ≠ 37)
    (h : Longest (Decodes plus room) s p) : Longest (Decodes plus (room + 1)) (c :: s) (c :: p) := by
  refine h.piece (v := [c]) (fun q => ?_) fun q hq _ => ?_
  · rw [Decodes, List.singleton_append, wellFormed_plain mark, decode_plain mark, List.length_cons,
      Nat.add_le_add_iff_right, Decodes]
  · cases q with
    | nil => exact .inl rfl
    | cons d q =>
      obtain ⟨rfl, _⟩ := List.cons_prefix_cons.mp hq
      exact .inr ⟨q, rfl⟩

theorem longest_escape {plus : Bool} {room : ℕ} {h l : UInt8} {s p : Bytes}
    (digits : (digitValue h).isSome = true ∧ (digitValue l).isSome = true)
    (longest : Longest (Decodes plus room) s p) :
    Longest (Decodes plus (room + 1)) (37 :: h :: l :: s) (37 :: h :: l :: p) := by
  refine longest.piece (v := [37, h, l]) (fun q => ?_) fun q hq taken => ?_
  · change Decodes plus (room + 1) (37 :: h :: l :: q) ↔ _
    rw [Decodes, wellFormed_escape, decode_escape, List.length_cons, Nat.add_le_add_iff_right, Decodes]
    exact ⟨fun good => ⟨good.1.2, good.2⟩, fun good => ⟨⟨digits, good.1⟩, good.2⟩⟩
  · cases q with
    | nil => exact .inl rfl
    | cons d q =>
      obtain ⟨rfl, inside⟩ := List.cons_prefix_cons.mp hq
      obtain ⟨a, b, rest, rfl, _⟩ := taken.1 [] q rfl
      have second := List.cons_prefix_cons.mp inside
      have third := List.cons_prefix_cons.mp second.2
      rw [second.1, third.1]
      exact .inr ⟨rest, rfl⟩

theorem stored_longest (plus : Bool) (room : ℕ) (s : Bytes) :
    ∃ p, Longest (Decodes plus room) s p ∧ stored plus room s = decode plus p := by
  induction room, s using urlDecode.induct plus with
  | case1 room =>
    have none : stored plus room [] = [] := by cases room <;> rfl
    exact ⟨[], ⟨List.nil_prefix, decodes_nil plus room, fun q hq _ => hq⟩, none⟩
  | case2 c rest =>
    refine ⟨[], .nothing (decodes_nil plus 0) fun d q _ taken => ?_, rfl⟩
    exact absurd taken.2 (Nat.not_le.mpr (decode_pos taken.1))
  | case3 room h l rest hi lo el eh ih =>
    obtain ⟨p, longest, same⟩ := ih
    have high := hexval_digit h
    have low := hexval_digit l
    rw [eh] at high
    rw [el] at low
    have digits : (digitValue h).isSome = true ∧ (digitValue l).isSome = true := by
      rw [← high, ← low]
      exact ⟨rfl, rfl⟩
    refine ⟨37 :: h :: l :: p, longest_escape digits longest, ?_⟩
    rw [(urlDecode_escaped plus room rest eh el).2, same, decode_escape, escapedByte, ← high, ← low]
    rfl
  | case4 room h l rest bad =>
    obtain ⟨broken, noDigits⟩ := digits_broken bad
    refine ⟨[], longest_bad ?_, (urlDecode_bad plus (room + 1) rest broken).2⟩
    rintro ⟨a, b, tail, e, digits⟩
    cases e
    exact noDigits digits
  | case5 room rest short =>
    refine ⟨[], longest_bad ?_, (urlDecode_short plus (room + 1) (tail_short short)).2⟩
    rintro ⟨a, b, tail, e, _⟩
    exact short a b tail e
  | case6 room c rest mark space ih =>
    obtain ⟨p, longest, same⟩ := ih
    refine ⟨c :: p, longest_plain mark longest, ?_⟩
    rw [(urlDecode_other plus room rest mark).2, same, decode_plain mark]
  | case7 room c rest mark space ih =>
    obtain ⟨p, longest, same⟩ := ih
    refine ⟨c :: p, longest_plain mark longest, ?_⟩
    rw [(urlDecode_other plus room rest mark).2, same, decode_plain mark]

theorem urlDecodeInto_terminated {m : Mem} {src len dst cap : ℕ} (apart : Apart src len dst) (room : 0 < cap)
    (plus : Bool) : Terminated dst cap m (urlDecodeInto m src len dst cap plus).2 ↔
      EndsInside (Decodes plus (cap - 1)) (decode plus) (m.load src len) dst cap m := by
  refine terminated_iff (fun p q hq taken => ?_) (fun q taken => ?_) (fun fits => ?_) fun full => ?_
  · obtain ⟨rest, rfl⟩ := hq
    rw [decode_append taken.1]
    exact List.prefix_append _ _
  · have := taken.2
    omega
  · have := fits.2
    rw [urlDecodeInto_accepted apart fits.1 (by omega)]
  · obtain ⟨p, longest, same⟩ := stored_longest plus (cap - 1) (m.load src len)
    refine ⟨p, longest, ?_⟩
    rw [urlDecodeInto_rejected apart room fun h => full ⟨h.1, by have := h.2; omega⟩, same]

/-- When the two functions keep the promise of their header. -/
theorem buffers_terminated (m : Mem) (buf cap : ℕ) (room : 0 < cap) :
    (∀ src, Terminated buf cap m (htmlEscape m src (some buf) cap).2 ↔
      EndsInside (fun q => (escape q).length < cap) escape src buf cap m) ∧
    ∀ src len plus, Apart src len buf →
      (Terminated buf cap m (urlDecodeInto m src len buf cap plus).2 ↔
        EndsInside (fun q => WellFormed q ∧ (decode plus q).length ≤ cap - 1) (decode plus)
          (m.load src len) buf cap m) :=
  ⟨fun src => htmlEscape_terminated m src buf room,
    fun _ _ plus apart => urlDecodeInto_terminated apart room plus⟩

/-- The memory before the call: no byte of it is a NUL. -/
def oldBytes : Mem := fun _ => 255

theorem buffers_terminated_short : Terminated 64 4 oldBytes (htmlEscape oldBytes (ascii "a") (some 64) 4).2 :=
  ((buffers_terminated oldBytes 64 4 (by decide)).1 (ascii "a")).mpr (.inl (by decide))

/-- Four ampersands for four bytes, and an escape that is cut off. -/
theorem full_buffer_unterminated :
    (htmlEscape oldBytes (ascii "&&&&") (some 64) 4).1 = none ∧
    ¬ Terminated 64 4 oldBytes (htmlEscape oldBytes (ascii "&&&&") (some 64) 4).2 ∧
    (urlDecodeInto (oldBytes.write 16 (ascii "a%2")) 16 3 64 8 false).1 = none ∧
    ¬ Terminated 64 8 (oldBytes.write 16 (ascii "a%2"))
      (urlDecodeInto (oldBytes.write 16 (ascii "a%2")) 16 3 64 8 false).2 := by
  refine ⟨by decide, fun h => ?_, by decide, fun h => ?_⟩
  · obtain ⟨j, hj, nul⟩ := h.nul
    have none : ∀ j < 4, (htmlEscape oldBytes (ascii "&&&&") (some 64) 4).2 (64 + j) ≠ 0 := by decide
    exact none j hj nul
  · obtain ⟨j, hj, nul⟩ := h.nul
    have none : ∀ j < 8, (urlDecodeInto (oldBytes.write 16 (ascii "a%2")) 16 3 64 8 false).2 (64 + j) ≠ 0 := by
      decide
    exact none j hj nul

end Cerco.TerminatedBuffers
