import Cerco.ByteMemory
import Cerco.EscapeTable
import Cerco.Request
import Mathlib.Algebra.Group.Nat.Defs

set_option autoImplicit false

/-!
# HTML escaping

Three loops replace the same five characters: the size pass and the buffer pass
of `cerco_html_escape`, and the writer that flushes the text between two
entities in one piece.
-/
namespace Cerco.HtmlEscape
open Cerco.Alloc Cerco.ByteMemory Cerco.CString Cerco.Request Cerco.Escaping

/-- The `rep` of the switch, if there is one. -/
def rep (c : UInt8) : Option Bytes :=
  if c = 38 then some (ascii "&amp;")
  else if c = 60 then some (ascii "&lt;")
  else if c = 62 then some (ascii "&gt;")
  else if c = 34 then some (ascii "&quot;")
  else if c = 39 then some (ascii "&#39;")
  else none

def escapeNeed : Bytes → ℕ → ℕ
  | [], need => need
  | c :: rest, need =>
    escapeNeed rest
      (if c = 38 then need + 5
      else if c = 60 ∨ c = 62 then need + 4
      else if c = 34 then need + 6
      else if c = 39 then need + 5
      else need + 1)

/-- The first loop at offset `o`; `none` is (size_t)-1. -/
def escapeInto (buf cap : ℕ) : Bytes → ℕ → Mem → Option ℕ × Mem
  | [], o, m => (some o, m.set (buf + o) 0)
  | c :: rest, o, m =>
    match rep c with
    | some text =>
      if cap - 1 < o + text.length then (none, m)
      else escapeInto buf cap rest (o + text.length) (m.write (buf + o) text)
    | none =>
      if cap - 1 < o + 1 then (none, m)
      else escapeInto buf cap rest (o + 1) (m.set (buf + o) c)

/-- `cerco_html_escape`; a NULL buffer is `none`. -/
def htmlEscape (m : Mem) (src : Bytes) (buf : Option ℕ) (cap : ℕ) : Option ℕ × Mem :=
  match buf with
  | some buf => if cap = 0 then (some 0, m) else escapeInto buf cap src 0 m
  | none => (some (escapeNeed src 0), m)

/-- `cerco_prop_escape`: the empty literal is `none`. -/
def propEscape (a : Arena) (m : Mem) (json : Option Bytes) : Option ℕ × Arena × Mem :=
  match json with
  | none => (none, a, m)
  | some json =>
    let need := escapeNeed (cstr json) 0
    match arenaAlloc a (need + 1) with
    | (none, a) => (none, a, m)
    | (some buf, a) => (some buf, a, (htmlEscape m (cstr json) (some buf) (need + 1)).2)

/-- `cerco_title`: what its two calls of `cerco_html_escape` leave in the buffer is the title. -/
def cercoTitle (a : Arena) (m : Mem) (r : Req) (title : Option Bytes) : Req × Arena × Mem :=
  match title with
  | none => (r, a, m)
  | some title =>
    let need := (htmlEscape m (cstr title) none 0).1.getD 0
    match arenaAlloc a (need + 1) with
    | (none, a) => (r, a, m)
    | (some buf, a) =>
      let m := (htmlEscape m (cstr title) (some buf) (need + 1)).2
      ({ r with pageTitle := some (cstr (m.load buf (need + 1))) }, a, m)

/-- `wbuf_escape` at index `i`, with the text from `start` to `i` not written yet. -/
def wbufEscapeFrom (s : Bytes) : Bytes → ℕ → ℕ → Arena → Wbuf → Arena × Wbuf
  | [], _, start, a, b =>
    if start < s.length then wbufPutn a b ((s.drop start).take (s.length - start)) else (a, b)
  | c :: rest, i, start, a, b =>
    match rep c with
    | none => wbufEscapeFrom s rest (i + 1) start a b
    | some text =>
      let x := if start < i then wbufPutn a b ((s.drop start).take (i - start)) else (a, b)
      let y := wbufPutn x.1 x.2 text
      wbufEscapeFrom s rest (i + 1) (i + 1) y.1 y.2

def wbufEscape (a : Arena) (b : Wbuf) (s : Bytes) : Arena × Wbuf := wbufEscapeFrom s s 0 0 a b

/-- `cerco_text` on the response buffer. -/
def text (a : Arena) (b : Wbuf) (s : Option Bytes) : Arena × Wbuf :=
  match s with
  | some s => wbufEscape a b (cstr s)
  | none => (a, b)

/-- A `cerco_attr`; the list ends before the one whose key is NULL. -/
structure Attr where
  k : Bytes
  v : Option Bytes
deriving DecidableEq

def putAttrs : List Attr → Arena → Wbuf → Arena × Wbuf
  | [], a, b => (a, b)
  | x :: attrs, a, b =>
    let w := wbufPutn a b (ascii " ")
    let w := wbufPutn w.1 w.2 (cstr x.k)
    let w := wbufPutn w.1 w.2 (ascii "=\"")
    let w := match x.v with
      | some v => wbufEscape w.1 w.2 (cstr v)
      | none => w
    let w := wbufPutn w.1 w.2 (ascii "\"")
    putAttrs attrs w.1 w.2

/-- `cerco_tag_open`; a NULL array of attributes writes what an empty one does. -/
def tagOpen (tag : Bytes) (attrs : Option (List Attr)) (a : Arena) (b : Wbuf) : Arena × Wbuf :=
  let w := wbufPutn a b (ascii "<")
  let w := wbufPutn w.1 w.2 (cstr tag)
  let w := match attrs with
    | some attrs => putAttrs attrs w.1 w.2
    | none => w
  wbufPutn w.1 w.2 (ascii ">")

/-- `cerco_void_tag`, whose body the source repeats. -/
def voidTag (tag : Bytes) (attrs : Option (List Attr)) (a : Arena) (b : Wbuf) : Arena × Wbuf :=
  tagOpen tag attrs a b

/-- The five entities without their `&`. -/
def entityRows : List (UInt8 × Bytes) :=
  [(38, ascii "amp;"), (60, ascii "lt;"), (62, ascii "gt;"), (34, ascii "quot;"), (39, ascii "#39;")]

theorem entityRows_plain : ∀ e ∈ entityRows, e.2 ∩ entityRows.map Prod.fst = [] := by decide

def entities : EscapeTable UInt8 where
  mark := 38
  rows := entityRows
  covered := by decide
  plain e he c hc special := by
    have none := List.mem_inter_iff.mpr ⟨hc, special⟩
    rw [entityRows_plain e he] at none
    cases none
  apart := by decide

/-- `E(s)` -/
def escape (s : Bytes) : Bytes := entities.encode s

def unescape (s : Bytes) : Bytes := entities.decode s

theorem rep_encodeOne (c : UInt8) : entities.encodeOne c = (rep c).getD [c] := by
  unfold rep EscapeTable.encodeOne EscapeTable.row
  by_cases amp : c = 38
  · subst amp; rfl
  by_cases lt : c = 60
  · subst lt; rfl
  by_cases gt : c = 62
  · subst gt; rfl
  by_cases quot : c = 34
  · subst quot; rfl
  by_cases apos : c = 39
  · subst apos; rfl
  have miss : entities.rows.find? (fun e => decide (e.1 = c)) = none := by
    simp [entities, entityRows, Ne.symm amp, Ne.symm lt, Ne.symm gt, Ne.symm quot, Ne.symm apos]
  rw [miss]
  simp only [amp, lt, gt, quot, apos, ↓reduceIte, Option.getD_none]

theorem escape_cons (c : UInt8) (s : Bytes) : escape (c :: s) = (rep c).getD [c] ++ escape s := by
  rw [escape, encode_cons, rep_encodeOne]
  rfl

theorem escape_rep {c : UInt8} {text : Bytes} (h : rep c = some text) (s : Bytes) :
    escape (c :: s) = text ++ escape s := by
  rw [escape_cons, h]
  rfl

theorem escape_other {c : UInt8} (h : rep c = none) (s : Bytes) :
    escape (c :: s) = c :: escape s := by
  rw [escape_cons, h]
  rfl

theorem escape_append (s u : Bytes) : escape (s ++ u) = escape s ++ escape u :=
  encode_append entities s u

theorem escapeNeed_eq (s : Bytes) (need : ℕ) : escapeNeed s need = need + (escape s).length := by
  induction s generalizing need with
  | nil => rfl
  | cons c s ih =>
    rw [escapeNeed, ih, escape_cons, List.length_append, ← Nat.add_assoc]
    refine congrArg (· + (escape s).length) ?_
    unfold rep
    by_cases amp : c = 38
    · simp only [amp, ↓reduceIte]; rfl
    by_cases lt : c = 60
    · simp only [lt, true_or, ↓reduceIte]; rfl
    by_cases gt : c = 62
    · simp only [gt, or_true, ↓reduceIte]; rfl
    by_cases quot : c = 34
    · simp only [quot, ↓reduceIte]; rfl
    by_cases apos : c = 39
    · simp only [apos, ↓reduceIte]; rfl
    · simp only [amp, lt, gt, quot, apos, or_self, ↓reduceIte]; rfl

theorem escapeInto_fits {buf cap : ℕ} (s : Bytes) {o : ℕ} (m : Mem)
    (h : o + (escape s).length < cap) :
    escapeInto buf cap s o m =
      (some (o + (escape s).length), m.write (buf + o) (escape s ++ [0])) := by
  induction s generalizing o m with
  | nil => rfl
  | cons c s ih =>
    rw [escapeInto]
    cases found : rep c with
    | some text =>
      rw [escape_rep found, List.length_append] at h ⊢
      dsimp only
      rw [if_neg (by omega), ih _ (by omega), Nat.add_assoc, List.append_assoc,
        write_append m _ text, Nat.add_assoc buf o]
    | none =>
      rw [escape_other found, List.length_cons] at h ⊢
      dsimp only
      rw [if_neg (by omega), ih _ (by omega), Nat.add_assoc o 1, Nat.add_comm 1, ← Nat.add_assoc]
      rfl

theorem escapeInto_short {buf cap : ℕ} (s : Bytes) {o : ℕ} (m : Mem) (room : o < cap)
    (h : cap ≤ o + (escape s).length) : (escapeInto buf cap s o m).1 = none := by
  induction s generalizing o m with
  | nil => exact absurd h (Nat.not_le.mpr room)
  | cons c s ih =>
    rw [escapeInto]
    cases found : rep c with
    | some text =>
      rw [escape_rep found, List.length_append] at h
      dsimp only
      by_cases full : cap - 1 < o + text.length
      · rw [if_pos full]
      · rw [if_neg full]
        exact ih _ (by omega) (by omega)
    | none =>
      rw [escape_other found, List.length_cons] at h
      dsimp only
      by_cases full : cap - 1 < o + 1
      · rw [if_pos full]
      · rw [if_neg full]
        exact ih _ (by omega) (by omega)

theorem escapeInto_outside {buf cap : ℕ} (s : Bytes) {o : ℕ} (m : Mem) (room : o < cap) {x : ℕ}
    (h : x < buf ∨ buf + cap ≤ x) : (escapeInto buf cap s o m).2 x = m x := by
  induction s generalizing o m with
  | nil => exact if_neg (by omega)
  | cons c s ih =>
    rw [escapeInto]
    cases rep c with
    | some text =>
      dsimp only
      by_cases full : cap - 1 < o + text.length
      · rw [if_pos full]
      · rw [if_neg full, ih _ (by omega)]
        exact write_outside m text (by omega)
    | none =>
      dsimp only
      by_cases full : cap - 1 < o + 1
      · rw [if_pos full]
      · rw [if_neg full, ih _ (by omega)]
        exact if_neg (by omega)

theorem htmlEscape_load (m : Mem) (s : Bytes) (buf : ℕ) :
    (htmlEscape m s (some buf) ((escape s).length + 1)).2.load buf ((escape s).length + 1) = escape s ++ [0] := by
  rw [htmlEscape, if_neg (Nat.succ_ne_zero _), escapeInto_fits _ _ (by omega)]
  have all := load_write m buf (escape s ++ [0])
  rw [List.length_append] at all
  exact all

theorem propEscape_text {a a' : Arena} {m m' : Mem} {json : Bytes} {buf : ℕ}
    (h : propEscape a m (some json) = (some buf, a', m')) :
    m'.load buf ((escape (cstr json)).length + 1) = escape (cstr json) ++ [0] := by
  have need : escapeNeed (cstr json) 0 = (escape (cstr json)).length := by
    rw [escapeNeed_eq, Nat.zero_add]
  unfold propEscape at h
  dsimp only at h
  rw [need] at h
  split at h
  · cases h
  · obtain ⟨rfl, _, rfl⟩ := h
    exact htmlEscape_load m (cstr json) buf

/-- When the arena does not run out, `f` puts `text` behind what is there. The
bound is that of size_t. -/
structure Writes (f : Arena → Wbuf → Arena × Wbuf) (text : Bytes) : Prop where
  served : ∀ a b, (f a b).1.Served → a.Served
  data : ∀ a b, (f a b).1.Served → b.data.length + text.length < 2 ^ 64 →
    (f a b).2.data = b.data ++ text

theorem Writes.nothing : Writes (fun a b => (a, b)) [] :=
  ⟨fun _ _ served => served, fun _ b _ _ => (List.append_nil b.data).symm⟩

theorem Writes.andThen {f g : Arena → Wbuf → Arena × Wbuf} {s u : Bytes} (hf : Writes f s)
    (hg : Writes g u) : Writes (fun a b => g (f a b).1 (f a b).2) (s ++ u) where
  served a b h := hf.served a b (hg.served _ _ h)
  data a b h small := by
    rw [List.length_append] at small
    have first := hf.data a b (hg.served _ _ h) (by omega)
    have second := hg.data _ _ h (by rw [first, List.length_append]; omega)
    rw [second, first, List.append_assoc]

theorem doubleTo_enough {k cap need : ℕ} (h : need ≤ cap * 2 ^ k) : need ≤ doubleTo k cap need := by
  induction k generalizing cap with
  | zero => simpa [doubleTo] using h
  | succ k ih =>
    rw [doubleTo]
    split
    · refine ih (Nat.le_trans h ?_)
      rw [Nat.pow_succ', Nat.mul_assoc]
    · exact Nat.le_of_not_lt ‹_›

theorem wbufGrow_served {a : Arena} {b : Wbuf} {need : ℕ} (h : (wbufGrow a b need).1.Served) :
    a.Served ∧ (wbufGrow a b need).2.data = b.data ∧
      (b.data.length + need < 2 ^ 64 → b.data.length + need ≤ (wbufGrow a b need).2.cap) := by
  unfold wbufGrow at h ⊢
  split
  · rename_i fits
    rw [if_pos fits] at h
    exact ⟨h, rfl, fun _ => fits⟩
  · rename_i noFit
    rw [if_neg noFit] at h
    dsimp only at h ⊢
    split at h
    · rename_i failed
      have := arenaAlloc_served (by rw [failed]; exact h)
      rw [failed] at this
      exact Bool.noConfusion this.2
    · rename_i found
      have := arenaAlloc_served (by rw [found]; exact h)
      refine ⟨this.1, rfl, fun small => doubleTo_enough ?_⟩
      have start : 1 ≤ if b.cap ≠ 0 then b.cap * 2 else 4096 := by split <;> omega
      exact Nat.le_trans (Nat.le_of_lt small) (Nat.le_mul_of_pos_left _ start)

theorem wbufPutn_writes (s : Bytes) : Writes (fun a b => wbufPutn a b s) s where
  served a b h := by
    unfold wbufPutn at h
    dsimp only at h
    split at h <;> exact (wbufGrow_served h).1
  data a b h small := by
    unfold wbufPutn at h ⊢
    dsimp only at h ⊢
    have grown : (wbufGrow a b s.length).1.Served := by split at h <;> exact h
    obtain ⟨_, same, room⟩ := wbufGrow_served grown
    have fits := room small
    rw [same] at h ⊢
    rw [if_neg (by omega)]

theorem escape_plain {s : Bytes} (h : ∀ c ∈ s, rep c = none) : escape s = s := by
  induction s with
  | nil => rfl
  | cons c s ih =>
    rw [escape_other (h c List.mem_cons_self), ih fun d hd => h d (List.mem_cons_of_mem c hd)]

/-- Between two entities the text goes out in one piece. The invariant is that
nothing between `start` and `i` needs an entity. -/
theorem wbufEscapeFrom_writes (rest : Bytes) {pre : Bytes} {start : ℕ} (le : start ≤ pre.length)
    (plain : ∀ c ∈ pre.drop start, rep c = none) :
    Writes (wbufEscapeFrom (pre ++ rest) rest pre.length start)
      (escape (pre.drop start ++ rest)) := by
  induction rest generalizing pre start with
  | nil =>
    rw [List.append_nil, List.append_nil, escape_plain plain]
    change Writes (fun a b => if start < pre.length then
      wbufPutn a b ((pre.drop start).take (pre.length - start)) else (a, b)) _
    by_cases more : start < pre.length
    · simp only [if_pos more]
      have whole : (pre.drop start).take (pre.length - start) = pre.drop start :=
        List.take_of_length_le (by rw [List.length_drop])
      rw [whole]
      exact wbufPutn_writes _
    · simp only [if_neg more, List.drop_eq_nil_of_le (Nat.le_of_not_lt more)]
      exact Writes.nothing
  | cons c rest ih =>
    have shift : pre ++ c :: rest = (pre ++ [c]) ++ rest := by simp
    have len : (pre ++ [c]).length = pre.length + 1 := by simp
    cases found : rep c with
    | none =>
      have step : wbufEscapeFrom (pre ++ c :: rest) (c :: rest) pre.length start =
          wbufEscapeFrom (pre ++ c :: rest) rest (pre.length + 1) start := by
        funext a b
        rw [wbufEscapeFrom, found]
      have tail : (pre ++ [c]).drop start = pre.drop start ++ [c] :=
        List.drop_append_of_le_length le
      have next := @ih (pre ++ [c]) start (by omega) (by
        rw [tail]
        intro d hd
        rcases List.mem_append.mp hd with old | new
        · exact plain d old
        · rw [List.mem_singleton.mp new]
          exact found)
      rw [← shift, len, tail, List.append_assoc] at next
      rw [step]
      exact next
    | some text =>
      have next := @ih (pre ++ [c]) (pre.length + 1) (by omega) (by
        rw [List.drop_eq_nil_of_le (by omega)]
        nofun)
      rw [← shift, len, List.drop_eq_nil_of_le (by omega), List.nil_append] at next
      have flush : Writes (fun a b => if start < pre.length then
          wbufPutn a b (((pre ++ c :: rest).drop start).take (pre.length - start)) else (a, b))
          (pre.drop start) := by
        by_cases more : start < pre.length
        · simp only [if_pos more]
          rw [List.drop_append_of_le_length le, List.take_left' (by rw [List.length_drop])]
          exact wbufPutn_writes _
        · simp only [if_neg more, List.drop_eq_nil_of_le (Nat.le_of_not_lt more)]
          exact Writes.nothing
      have all := (flush.andThen (wbufPutn_writes text)).andThen next
      rw [escape_append, escape_plain plain, escape_rep found, ← List.append_assoc]
      refine Eq.mp (congrArg (Writes · _) ?_) all
      funext a b
      rw [wbufEscapeFrom, found]

theorem wbufEscape_writes (s : Bytes) : Writes (fun a b => wbufEscape a b s) (escape s) :=
  @wbufEscapeFrom_writes s [] 0 (Nat.le_refl 0) nofun

/-- What an attribute looks like in a tag; a NULL value is written as an empty one. -/
def Attr.html (x : Attr) : Bytes :=
  ascii " " ++ cstr x.k ++ ascii "=\"" ++ escape (cstr (x.v.getD [])) ++ ascii "\""

theorem putAttrs_writes (attrs : List Attr) : Writes (putAttrs attrs) (attrs.flatMap Attr.html) := by
  induction attrs with
  | nil => exact Writes.nothing
  | cons x attrs ih =>
    have value : Writes (fun a b => match x.v with
        | some v => wbufEscape a b (cstr v)
        | none => (a, b)) (escape (cstr (x.v.getD []))) := by
      cases x.v with
      | some v => exact wbufEscape_writes (cstr v)
      | none => exact Writes.nothing
    have one := (((wbufPutn_writes (ascii " ")).andThen (wbufPutn_writes (cstr x.k))).andThen
      (wbufPutn_writes (ascii "=\""))).andThen value |>.andThen (wbufPutn_writes (ascii "\""))
    rw [List.flatMap_cons]
    exact one.andThen ih

def tagHtml (tag : Bytes) (attrs : List Attr) : Bytes :=
  ascii "<" ++ cstr tag ++ attrs.flatMap Attr.html ++ ascii ">"

theorem tagOpen_writes (tag : Bytes) (attrs : Option (List Attr)) :
    Writes (tagOpen tag attrs) (tagHtml tag (attrs.getD [])) := by
  have middle : Writes (fun a b => match attrs with
      | some attrs => putAttrs attrs a b
      | none => (a, b)) ((attrs.getD []).flatMap Attr.html) := by
    cases attrs with
    | some attrs => exact putAttrs_writes attrs
    | none => exact Writes.nothing
  exact (((wbufPutn_writes (ascii "<")).andThen (wbufPutn_writes (cstr tag))).andThen
    middle).andThen (wbufPutn_writes (ascii ">"))

theorem special_covered : ascii "<>\"'" ⊆ entityRows.map Prod.fst := by decide

theorem entityRows_amp : ∀ e ∈ entityRows, 38 :: e.2 ∈
    [ascii "&amp;", ascii "&lt;", ascii "&gt;", ascii "&quot;", ascii "&#39;"] := by decide

theorem escape_special {s : Bytes} {c : UInt8} (h : c ∈ escape s) : c ∉ ascii "<>\"'" := by
  rcases mem_encode entities h with rfl | plain
  · decide
  · exact fun special => plain (special_covered special)

theorem escape_amp {s pre post : Bytes} (h : escape s = pre ++ 38 :: post) :
    ∃ e ∈ [ascii "&amp;", ascii "&lt;", ascii "&gt;", ascii "&quot;", ascii "&#39;"],
      e <+: 38 :: post := by
  obtain ⟨e, inRows, front⟩ := mark_encode entities h
  exact ⟨38 :: e.2, entityRows_amp e inRows, List.cons_prefix_cons.mpr ⟨rfl, front⟩⟩

/-- All five entry points compute `escape`, which is safe in text and in quotes
and can be undone. -/
theorem html_escape_consistent (s : Bytes) (nulFree : 0 ∉ s) :
    (∀ m cap, htmlEscape m s none cap = (some (escape s).length, m)) ∧
    (∀ m buf cap, (escape s).length < cap → htmlEscape m s (some buf) cap =
      (some (escape s).length, m.write buf (escape s ++ [0]))) ∧
    (∀ m buf cap, 1 ≤ cap → cap ≤ (escape s).length →
      (htmlEscape m s (some buf) cap).1 = none) ∧
    Writes (fun a b => text a b (some s)) (escape s) ∧
    (∀ tag k before after, Writes (tagOpen tag (some (before ++ ⟨k, some s⟩ :: after)))
      (ascii "<" ++ cstr tag ++ before.flatMap Attr.html ++
        (ascii " " ++ cstr k ++ ascii "=\"" ++ escape s ++ ascii "\"") ++
        after.flatMap Attr.html ++ ascii ">")) ∧
    (∀ tag k before after, Writes (voidTag tag (some (before ++ ⟨k, some s⟩ :: after)))
      (ascii "<" ++ cstr tag ++ before.flatMap Attr.html ++
        (ascii " " ++ cstr k ++ ascii "=\"" ++ escape s ++ ascii "\"") ++
        after.flatMap Attr.html ++ ascii ">")) ∧
    (∀ c ∈ escape s, c ∉ ascii "<>\"'") ∧
    (∀ pre post, escape s = pre ++ 38 :: post →
      ∃ e ∈ [ascii "&amp;", ascii "&lt;", ascii "&gt;", ascii "&quot;", ascii "&#39;"],
        e <+: 38 :: post) ∧
    unescape (escape s) = s := by
  have whole := cstr_of_nulFree nulFree
  have tags : ∀ tag k before after, Writes (tagOpen tag (some (before ++ ⟨k, some s⟩ :: after)))
      (ascii "<" ++ cstr tag ++ before.flatMap Attr.html ++
        (ascii " " ++ cstr k ++ ascii "=\"" ++ escape s ++ ascii "\"") ++
        after.flatMap Attr.html ++ ascii ">") := by
    intro tag k before after
    have here : Attr.html ⟨k, some s⟩ =
        ascii " " ++ cstr k ++ ascii "=\"" ++ escape s ++ ascii "\"" := by
      rw [Attr.html, Option.getD_some, whole]
    have all := tagOpen_writes tag (some (before ++ ⟨k, some s⟩ :: after))
    rw [Option.getD_some, tagHtml, List.flatMap_append, List.flatMap_cons, here,
      ← List.append_assoc (ascii "<" ++ cstr tag), ← List.append_assoc (_ ++ _)] at all
    exact all
  refine ⟨fun m cap => ?_, fun m buf cap fits => ?_, fun m buf cap room full => ?_, ?_, tags, tags,
    fun c => escape_special, fun pre post => escape_amp, decode_encode entities s⟩
  · rw [htmlEscape, escapeNeed_eq, Nat.zero_add]
  · have used := @escapeInto_fits buf cap s 0 m (by omega)
    rw [Nat.zero_add, Nat.add_zero] at used
    rw [htmlEscape, if_neg (by omega), used]
  · rw [htmlEscape, if_neg (by omega)]
    exact escapeInto_short s m room (by omega)
  · have written := wbufEscape_writes s
    rw [← whole] at written
    simpa only [text, whole] using written

def pageArena : Arena := arenaInit (Arena.zero fun _ _ => some 4096) 8192 0

theorem html_escape_consistent_page :
    (text pageArena wbufInit (some (ascii "<b>&"))).2.data = ascii "&lt;b&gt;&amp;" :=
  (html_escape_consistent (ascii "<b>&") (by decide)).2.2.2.1.data pageArena wbufInit (by decide)
    (by decide)

end Cerco.HtmlEscape
