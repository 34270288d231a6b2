import Cerco.HeadText
import Cerco.Router

set_option autoImplicit false

/-!
# The two response writers

`conn_start_response` sends what a handler left in the request, and
`conn_send_simple` a fixed text. A reply is the lines of its head, each ended by
CRLF and all of them by an empty line, and the bytes after that.
-/
namespace Cerco.Response
open Cerco.CString Cerco.HeadText Cerco.Request Cerco.Router

structure Reply where
  code : ℕ
  lines : List Bytes
  body : Bytes
deriving DecidableEq

def Reply.bytes (w : Reply) : Bytes := w.lines.flatMap (· ++ crlf) ++ crlf ++ w.body

/-- `%zu` and `%d`. -/
def decimal (n : ℕ) : Bytes := (Nat.toDigits 10 n).map fun c => UInt8.ofNat c.toNat

def statusText : ℕ → Bytes
  | 200 => ascii "OK"
  | 201 => ascii "Created"
  | 204 => ascii "No Content"
  | 301 => ascii "Moved Permanently"
  | 302 => ascii "Found"
  | 303 => ascii "See Other"
  | 304 => ascii "Not Modified"
  | 307 => ascii "Temporary Redirect"
  | 308 => ascii "Permanent Redirect"
  | 400 => ascii "Bad Request"
  | 403 => ascii "Forbidden"
  | 404 => ascii "Not Found"
  | 405 => ascii "Method Not Allowed"
  | 408 => ascii "Request Timeout"
  | 411 => ascii "Length Required"
  | 413 => ascii "Payload Too Large"
  | 414 => ascii "URI Too Long"
  | 415 => ascii "Unsupported Media Type"
  | 431 => ascii "Request Header Fields Too Large"
  | 500 => ascii "Internal Server Error"
  | 501 => ascii "Not Implemented"
  | 503 => ascii "Service Unavailable"
  | _ => []

def statusLine (code : ℕ) (text : Bytes) : Bytes :=
  ascii "HTTP/1.1 " ++ decimal code ++ [32] ++ text

def hdrLine (h : Bytes × Bytes) : Bytes := h.1 ++ ascii ": " ++ h.2

def lengthLine (n : ℕ) : Bytes := ascii "Content-Length: " ++ decimal n

def haveHdr (r : Req) (name : Bytes) : Bool := r.respHdrs.any fun h => strcaseeq h.1 name

/-- What `conn_start_response` writes; `isHead` is the method the parser holds
and `close` is `c->force_close || !c->keep_alive`. An arena block has at most
4 MiB, so the casts to `unsigned int` keep the lengths. -/
def startReply (r : Req) (isHead close : Bool) : Reply :=
  let code := r.status
  let noBody := isHead || code == 204 || code == 304
  { code := code
    lines := [statusLine code (statusText code)] ++ r.respHdrs.map hdrLine ++
      (if !haveHdr r (ascii "content-type") && !noBody then
        [ascii "Content-Type: text/html; charset=utf-8"] else []) ++
      (if !haveHdr r (ascii "content-length") && code != 304 then
        [lengthLine r.resp.data.length] else []) ++
      (if !haveHdr r (ascii "connection") then
        [if close then ascii "Connection: close" else ascii "Connection: keep-alive"] else []) ++
      [ascii "X-Content-Type-Options: nosniff",
        ascii "Referrer-Policy: strict-origin-when-cross-origin", ascii "Server: cerco"]
    body := if noBody || r.resp.data.length == 0 then [] else r.resp.data }

/-- What `conn_send_simple` writes; its buffer has room for the whole head. -/
def simpleReply (code : ℕ) (extraHdr : Option Bytes) (body : Bytes) (forceClose : Bool) : Reply :=
  let ctext := if statusText code = [] then ascii "Error" else statusText code
  { code := code
    lines := [statusLine code ctext, ascii "Content-Type: text/plain; charset=utf-8",
        lengthLine body.length] ++ extraHdr.toList ++
      [if forceClose then ascii "Connection: close" else ascii "Connection: keep-alive",
        ascii "X-Content-Type-Options: nosniff", ascii "Server: cerco"]
    body := body }

def allowItems : List (ℕ × Bytes) :=
  [(0, ascii "GET"), (1, ascii "POST"), (2, ascii "PUT"), (3, ascii "PATCH"),
    (4, ascii "DELETE"), (6, ascii "OPTIONS")]

def joinAllow (mask : ℕ) : List (ℕ × Bytes) → Bytes → Bytes
  | [], acc => acc
  | (bit, name) :: items, acc =>
    if mask.testBit bit then
      joinAllow mask items (acc ++ (if acc = [] then [] else ascii ", ") ++ name)
    else joinAllow mask items acc

def allowHdr (mask : ℕ) (items : List (ℕ × Bytes)) : Bytes :=
  let allow := joinAllow mask items []
  ascii "Allow: " ++ if allow = [] then ascii "GET, HEAD, OPTIONS" else allow

/-- `router_send_405` -/
def reply405 (mask : ℕ) : Reply :=
  simpleReply 405 (some (allowHdr mask allowItems)) (ascii "method not allowed\n") false

def lengthValue (line : Bytes) : Option ℕ :=
  if strncaseeq line (ascii "content-length:") 15 then
    some (Nat.ofDigitChars 10 (((line.drop 15).dropWhile (· = 32)).map fun c => Char.ofNat c.toNat) 0)
  else none

/-- `%d` behind `HTTP/1.1 `. -/
def statusCode (line : Bytes) : ℕ :=
  Nat.ofDigitChars 10 (((line.drop 9).takeWhile (· ≠ 32)).map fun c => Char.ofNat c.toNat) 0

/-- What a client takes off the wire: the code, the lengths that the lines of the head announce, and the bytes
behind its empty line. -/
structure Taken where
  code : ℕ
  lengths : List ℕ
  rest : Bytes

def takeReply (wire : Bytes) : Option Taken :=
  match headLines wire.length wire with
  | some (status :: lines, rest) => some ⟨statusCode status, lines.filterMap lengthValue, rest⟩
  | _ => none

/-- The lines of the head that a client reads. -/
def Reply.read (w : Reply) : List Bytes := ((headLines w.bytes.length w.bytes).map Prod.fst).getD []

theorem Reply.read_lines {w : Reply} (free : ∀ l ∈ w.lines, l ≠ [] ∧ ¬ crlf <:+: l) : w.read = w.lines := by
  have lines : headLines w.bytes.length w.bytes = some (w.lines, w.body) :=
    headLines_lines free w.body headLines_long
  rw [Reply.read, lines]
  rfl

def bodiless (asHead : Bool) (code : ℕ) : Bool := asHead || code == 204 || code == 304

/-- `asHead` says that the reply answers a HEAD request. -/
structure Taken.Counts (asHead : Bool) (t : Taken) : Prop where
  counted : bodiless asHead t.code = false → t.lengths = [t.rest.length]
  quiet : bodiless asHead t.code = true → t.rest = []
  noContent : t.code = 204 → ∀ n ∈ t.lengths, n = 0

/-- On the wire the reply can be told apart from what follows it: a client finds the empty line where the
writer put it, and the length it reads there counts what is behind. -/
def Framed (asHead : Bool) (w : Reply) : Prop :=
  ∃ t, takeReply w.bytes = some t ∧ t.rest = w.body ∧ t.Counts asHead

theorem toDigits_small {n : ℕ} {c : Char} (h : c ∈ Nat.toDigits 10 n) :
    Char.ofNat (UInt8.ofNat c.toNat).toNat = c := by
  have hd := Nat.isDigit_of_mem_toDigits (by decide) (by decide) h
  have hlt : c.toNat < 256 := by
    simp only [Char.isDigit, Bool.and_eq_true, decide_eq_true_eq] at hd
    have := UInt32.le_iff_toNat_le.mp hd.2
    exact Nat.lt_of_le_of_lt this (by decide)
  rw [UInt8.toNat_ofNat', Nat.mod_eq_of_lt hlt, Char.ofNat_toNat]

theorem decimal_isDigit {n : ℕ} {x : UInt8} (hx : x ∈ decimal n) :
    (Char.ofNat x.toNat).isDigit = true := by
  obtain ⟨c, hc, rfl⟩ := List.mem_map.mp hx
  rw [toDigits_small hc]
  exact Nat.isDigit_of_mem_toDigits (by decide) (by decide) hc

theorem decimal_head (n : ℕ) : (decimal n).dropWhile (· = 32) = decimal n := by
  have hne : ∀ x ∈ decimal n, x ≠ 32 := by
    rintro x hx rfl
    exact absurd (decimal_isDigit hx) (by decide)
  cases hdec : decimal n with
  | nil => rfl
  | cons x xs => exact List.dropWhile_cons_of_neg (by simpa using hne x (by simp [hdec]))

theorem decimal_free (n : ℕ) : 13 ∉ decimal n := fun h => absurd (decimal_isDigit h) (by decide)

theorem statusText_free (code : ℕ) : 13 ∉ statusText code := by
  unfold statusText
  split <;> decide

theorem statusLine_free (code : ℕ) {text : Bytes} (free : 13 ∉ text) :
    statusLine code text ≠ [] ∧ ¬ crlf <:+: statusLine code text := by
  refine ⟨by simp [statusLine, ascii], crlf_free_of_not_mem ?_⟩
  simp only [statusLine, List.mem_append, not_or]
  exact ⟨⟨⟨by decide, decimal_free code⟩, by decide⟩, free⟩

theorem lengthLine_free (n : ℕ) : lengthLine n ≠ [] ∧ ¬ crlf <:+: lengthLine n := by
  refine ⟨by simp [lengthLine, ascii], crlf_free_of_not_mem ?_⟩
  simp only [lengthLine, List.mem_append, not_or]
  exact ⟨by decide, decimal_free n⟩

theorem decimal_value (n : ℕ) : Nat.ofDigitChars 10 ((decimal n).map fun c => Char.ofNat c.toNat) 0 = n := by
  have same : (decimal n).map (fun c => Char.ofNat c.toNat) = Nat.toDigits 10 n := by
    rw [decimal, List.map_map]
    exact (List.map_congr_left fun c hc => toDigits_small hc).trans (List.map_id _)
  rw [same, Nat.ofDigitChars_ten_toDigits]

theorem statusCode_statusLine (code : ℕ) (text : Bytes) : statusCode (statusLine code text) = code := by
  have dropped : (statusLine code text).drop 9 = decimal code ++ 32 :: text := by
    simp [statusLine, ascii]
  have spaceless : ∀ x ∈ decimal code, decide (x ≠ 32) = true := by
    rintro x hx
    refine decide_eq_true ?_
    rintro rfl
    exact absurd (decimal_isDigit hx) (by decide)
  rw [statusCode, dropped, List.takeWhile_append_of_pos spaceless, List.takeWhile_cons_of_neg (by decide),
    List.append_nil, decimal_value]

theorem lengthValue_lengthLine (n : ℕ) : lengthValue (lengthLine n) = some n := by
  have hpre : strncaseeq (lengthLine n) (ascii "content-length:") 15 = true := by
    simp [lengthLine, ascii, strncaseeq, toLower]
  have hdrop : (lengthLine n).drop 15 = 32 :: decimal n := by
    simp [lengthLine, ascii]
  rw [lengthValue, if_pos hpre, hdrop, List.dropWhile_cons_of_pos (by decide), decimal_head, decimal_value]

theorem strncaseeq_append {a b : Bytes} (h : strcaseeq a b = true) (x y : Bytes) (n : ℕ) :
    strncaseeq (a ++ x) (b ++ y) (b.length + n) = strncaseeq x y n := by
  induction a generalizing b with
  | nil =>
    cases b with
    | nil => simp
    | cons c b => simp [strcaseeq] at h
  | cons d a ih =>
    cases b with
    | nil => simp [strcaseeq] at h
    | cons c b =>
      by_cases hc : toLower d = toLower c
      · simp only [strcaseeq, hc, ne_eq, not_true_eq_false, ↓reduceIte] at h
        rw [List.length_cons, Nat.add_right_comm]
        simp [strncaseeq, hc, ih h]
      · simp [strcaseeq, hc] at h

theorem lengthValue_hdrLine {h : Bytes × Bytes} (hn : lengthValue (hdrLine h) = none) :
    strcaseeq h.1 (ascii "content-length") = false := by
  by_contra hc
  have hc : strcaseeq h.1 (ascii "content-length") = true := by simpa using hc
  have hsplit : ascii "content-length:" = ascii "content-length" ++ [58] := by decide
  have hline : hdrLine h = h.1 ++ (58 :: 32 :: h.2) := by
    simp [hdrLine, ascii]
  have hp : strncaseeq (hdrLine h) (ascii "content-length:") 15 = true := by
    rw [hline, hsplit]
    exact strncaseeq_append hc _ _ 1
  simp [lengthValue, hp] at hn

theorem lengthValue_fixed :
    lengthValue (ascii "Content-Type: text/html; charset=utf-8") = none ∧
    lengthValue (ascii "Content-Type: text/plain; charset=utf-8") = none ∧
    lengthValue (ascii "Connection: close") = none ∧
    lengthValue (ascii "Connection: keep-alive") = none ∧
    lengthValue (ascii "X-Content-Type-Options: nosniff") = none ∧
    lengthValue (ascii "Referrer-Policy: strict-origin-when-cross-origin") = none ∧
    lengthValue (ascii "Server: cerco") = none := by
  decide

/-- A call of one of the two writers. -/
inductive Written
  | start (r : Req) (isHead close : Bool)
  | simple (code : ℕ) (extraHdr : Option Bytes) (body : Bytes) (forceClose : Bool)

def Written.reply : Written → Reply
  | .start r isHead close => startReply r isHead close
  | .simple code extraHdr body forceClose => simpleReply code extraHdr body forceClose

def Written.staged : Written → List Bytes
  | .start r _ _ => r.respHdrs.map hdrLine
  | .simple _ extraHdr _ _ => extraHdr.toList

def Written.onWire (w : Written) : List Bytes := w.staged.flatMap wireLines

/-- No header given to the writer is a Content-Length. -/
def Written.Plain (w : Written) : Prop := ∀ l ∈ w.staged, lengthValue l = none

/-- `conn_start_response` trusts the method of the parser and announces the
buffer of a 204; `conn_send_simple` knows neither HEAD nor 204 and 304. -/
def Written.Counted (asHead : Bool) : Written → Prop
  | .start r isHead _ => (r.status = 204 → r.resp.data = []) ∧
      (r.status ≠ 204 → r.status ≠ 304 → r.resp.data = [] ∨ isHead = asHead)
  | .simple code _ body _ => bodiless asHead code = true → body = []

/-- Neither looks at the text of a header: a CRLF inside makes two lines of it, and none of these may end the
head or bring a length of its own. -/
structure Written.Sound (asHead : Bool) (w : Written) : Prop where
  whole : [] ∉ w.onWire
  single : bodiless asHead w.reply.code = false → w.onWire.filterMap lengthValue = []
  noContent : w.reply.code = 204 → ∀ n ∈ w.onWire.filterMap lengthValue, n = 0
  counted : w.Counted asHead

/-- The lines of a reply: its status, and the writer's own before and behind the staged ones. -/
structure Laid (w : Reply) (staged : List Bytes) (lengths : List ℕ) (before after : List Bytes) (text : Bytes) :
    Prop where
  lines : w.lines = statusLine w.code text :: (before ++ staged ++ after)
  text : 13 ∉ text
  own : ∀ l ∈ before ++ after, l ≠ [] ∧ ¬ crlf <:+: l
  announced : (before ++ after).filterMap lengthValue = lengths

section Laid
variable {w : Reply} {staged before after : List Bytes} {lengths : List ℕ} {text : Bytes}

theorem Laid.bytes (h : Laid w staged lengths before after text) : w.bytes =
    (statusLine w.code text :: (before ++ staged.flatMap wireLines ++ after)).flatMap (· ++ crlf) ++ crlf ++
      w.body := by
  rw [Reply.bytes, h.lines]
  simp only [List.flatMap_cons, List.flatMap_append, wireLines_all]

theorem Laid.free (h : Laid w staged lengths before after text) :
    ∀ l ∈ statusLine w.code text :: (before ++ staged.flatMap wireLines ++ after), ¬ crlf <:+: l := by
  intro l hl
  simp only [List.mem_cons, List.mem_append] at hl
  obtain rfl | (hb | hs) | ha := hl
  · exact (statusLine_free w.code h.text).2
  · exact (h.own l (List.mem_append_left _ hb)).2
  · obtain ⟨_, _, hs⟩ := List.mem_flatMap.mp hs
    exact wireLines_free hs
  · exact (h.own l (List.mem_append_right _ ha)).2

theorem Laid.empty (h : Laid w staged lengths before after text) :
    [] ∈ statusLine w.code text :: (before ++ staged.flatMap wireLines ++ after) ↔ [] ∈ staged.flatMap wireLines := by
  simp only [List.mem_cons, List.mem_append]
  constructor
  · rintro (e | (hb | hs) | ha)
    · exact absurd e.symm (statusLine_free w.code h.text).1
    · exact absurd rfl (h.own [] (List.mem_append_left _ hb)).1
    · exact hs
    · exact absurd rfl (h.own [] (List.mem_append_right _ ha)).1
  · exact fun hs => .inr (.inl (.inr hs))

theorem Laid.taken (h : Laid w staged lengths before after text) (whole : [] ∉ staged.flatMap wireLines) :
    takeReply w.bytes = some ⟨w.code, before.filterMap lengthValue ++
      (staged.flatMap wireLines).filterMap lengthValue ++ after.filterMap lengthValue, w.body⟩ := by
  have lines : headLines w.bytes.length w.bytes = some
      (statusLine w.code text :: (before ++ staged.flatMap wireLines ++ after), w.body) := by
    rw [h.bytes]
    refine headLines_lines (fun l hl => ⟨?_, h.free l hl⟩) _ headLines_long
    rintro rfl
    exact whole (h.empty.mp hl)
  unfold takeReply
  rw [lines]
  dsimp only
  rw [statusCode_statusLine, List.filterMap_append, List.filterMap_append]

theorem Laid.framed {asHead : Bool} (h : Laid w staged lengths before after text) : Framed asHead w ↔
    [] ∉ staged.flatMap wireLines ∧ Taken.Counts asHead ⟨w.code, before.filterMap lengthValue ++
      (staged.flatMap wireLines).filterMap lengthValue ++ after.filterMap lengthValue, w.body⟩ := by
  constructor
  · rintro ⟨t, ht, rest, counts⟩
    have whole : [] ∉ staged.flatMap wireLines := by
      intro early
      obtain ⟨front, tail, cut, long⟩ := headLines_early h.free (h.empty.mpr early) w.body headLines_long
      rw [← h.bytes] at cut
      unfold takeReply at ht
      rw [cut] at ht
      cases front with
      | nil => cases ht
      | cons status front =>
        cases ht
        exact absurd (congrArg List.length rest) (Nat.ne_of_gt long)
    rw [h.taken whole] at ht
    cases ht
    exact ⟨whole, counts⟩
  · rintro ⟨whole, counts⟩
    exact ⟨_, h.taken whole, rfl, counts⟩

/-- Where the writer announces the length `n`, a header of its own kind may not do the same. -/
theorem Laid.counts {asHead : Bool} {n : ℕ} (h : Laid w staged [n] before after text) :
    Taken.Counts asHead ⟨w.code, before.filterMap lengthValue ++
      (staged.flatMap wireLines).filterMap lengthValue ++ after.filterMap lengthValue, w.body⟩ ↔
    (bodiless asHead w.code = false → (staged.flatMap wireLines).filterMap lengthValue = []) ∧
      (w.code = 204 → ∀ k ∈ (staged.flatMap wireLines).filterMap lengthValue, k = 0) ∧
      (bodiless asHead w.code = false → n = w.body.length) ∧ (bodiless asHead w.code = true → w.body = []) ∧
      (w.code = 204 → n = 0) := by
  have own := h.announced
  rw [List.filterMap_append] at own
  generalize (staged.flatMap wireLines).filterMap lengthValue = other at *
  generalize before.filterMap lengthValue = b at *
  generalize after.filterMap lengthValue = a at *
  have members : ∀ k, k ∈ b ++ other ++ a ↔ k ∈ other ∨ k = n := by
    intro k
    have here : k ∈ b ++ a ↔ k = n := by rw [own, List.mem_singleton]
    rw [← here]
    simp only [List.mem_append]
    exact ⟨fun hk => hk.elim (·.elim (.inr <| .inl ·) .inl) (.inr <| .inr ·),
      fun hk => hk.elim (.inl <| .inr ·) (·.elim (.inl <| .inl ·) .inr)⟩
  have size : b.length + a.length = 1 := by
    rw [← List.length_append, own]
    rfl
  constructor
  · rintro ⟨counted, quiet, noContent⟩
    have alone : bodiless asHead w.code = false → other = [] := by
      intro hb
      have one := congrArg List.length (counted hb)
      simp only [List.length_append, List.length_singleton] at one
      exact List.length_eq_zero_iff.mp (by omega)
    refine ⟨alone, fun h204 k hk => noContent h204 k ((members k).mpr (.inl hk)), fun hb => ?_, quiet,
      fun h204 => noContent h204 n ((members n).mpr (.inr rfl))⟩
    have same := counted hb
    rw [alone hb, List.append_nil, own] at same
    exact List.singleton_inj.mp same
  · rintro ⟨single, zero, counted, quiet, noContent⟩
    refine ⟨fun hb => ?_, quiet, fun h204 k hk => ?_⟩
    · change b ++ other ++ a = [w.body.length]
      rw [single hb, List.append_nil, own, counted hb]
    · obtain hk | rfl := (members k).mp hk
      · exact zero h204 k hk
      · exact noContent h204

end Laid

theorem startReply_body (r : Req) (isHead close : Bool) :
    (startReply r isHead close).body = if bodiless isHead r.status then [] else r.resp.data := by
  cases hd : r.resp.data with
  | nil => simp [startReply, hd]
  | cons c d => simp [startReply, bodiless, hd]

theorem bodiless_other {code : ℕ} (h204 : code ≠ 204) (h304 : code ≠ 304) (b : Bool) :
    bodiless b code = b := by
  have e204 : (code == 204) = false := beq_eq_false_iff_ne.mpr h204
  have e304 : (code == 304) = false := beq_eq_false_iff_ne.mpr h304
  rw [bodiless, e204, e304, Bool.or_false, Bool.or_false]

theorem fixed_lines : ∀ l ∈ [ascii "Content-Type: text/html; charset=utf-8",
    ascii "Content-Type: text/plain; charset=utf-8", ascii "Connection: close", ascii "Connection: keep-alive",
    ascii "X-Content-Type-Options: nosniff", ascii "Referrer-Policy: strict-origin-when-cross-origin",
    ascii "Server: cerco"], l ≠ [] ∧ ¬ crlf <:+: l := by
  decide

/-- The lines that `conn_start_response` writes behind the staged ones. -/
def ownLines (r : Req) (isHead close : Bool) : List Bytes :=
  (if !haveHdr r (ascii "content-type") && !(isHead || r.status == 204 || r.status == 304) then
    [ascii "Content-Type: text/html; charset=utf-8"] else []) ++
  (if !haveHdr r (ascii "content-length") && r.status != 304 then [lengthLine r.resp.data.length] else []) ++
  (if !haveHdr r (ascii "connection") then
    [if close then ascii "Connection: close" else ascii "Connection: keep-alive"] else []) ++
  [ascii "X-Content-Type-Options: nosniff",
    ascii "Referrer-Policy: strict-origin-when-cross-origin", ascii "Server: cerco"]

theorem ownLines_free (r : Req) (isHead close : Bool) :
    ∀ l ∈ ownLines r isHead close, l ≠ [] ∧ ¬ crlf <:+: l := by
  intro l hl
  simp only [ownLines, List.mem_append] at hl
  obtain ((hl | hl) | hl) | hl := hl
  · split at hl
    · obtain rfl := List.mem_singleton.mp hl
      exact fixed_lines _ (by decide)
    · cases hl
  · split at hl
    · obtain rfl := List.mem_singleton.mp hl
      exact lengthLine_free _
    · cases hl
  · split at hl
    · obtain rfl := List.mem_singleton.mp hl
      cases close
      · exact fixed_lines _ (by decide)
      · exact fixed_lines _ (by decide)
    · cases hl
  · have behind : ∀ k ∈ [ascii "X-Content-Type-Options: nosniff",
        ascii "Referrer-Policy: strict-origin-when-cross-origin", ascii "Server: cerco"],
        k ≠ [] ∧ ¬ crlf <:+: k := by decide
    exact behind l hl

theorem start_laid (r : Req) (isHead close : Bool) (own : haveHdr r (ascii "content-length") = false) :
    Laid (startReply r isHead close) (r.respHdrs.map hdrLine)
      (if r.status = 304 then [] else [r.resp.data.length]) [] (ownLines r isHead close) (statusText r.status) := by
  obtain ⟨hct, _, hcc, hck, hx, hr, hs⟩ := lengthValue_fixed
  refine ⟨?_, statusText_free _, ?_, ?_⟩
  · simp only [startReply, ownLines, List.append_assoc, List.nil_append, List.cons_append]
  · exact ownLines_free r isHead close
  · have h1 : ∀ b : Bool, (if b = true then [ascii "Content-Type: text/html; charset=utf-8"]
        else []).filterMap lengthValue = [] := by
      intro b
      cases b <;> simp [hct]
    have h2 : ∀ b d : Bool, (if b = true then [if d = true then ascii "Connection: close"
        else ascii "Connection: keep-alive"] else []).filterMap lengthValue = [] := by
      intro b d
      cases b <;> cases d <;> simp [hcc, hck]
    simp only [ownLines, own, List.nil_append, List.filterMap_append, h1, h2]
    by_cases h304 : r.status = 304 <;> simp [h304, lengthValue_lengthLine, hx, hr, hs]

theorem simple_laid (code : ℕ) (extraHdr : Option Bytes) (body : Bytes) (forceClose : Bool) :
    ∃ before after text, Laid (simpleReply code extraHdr body forceClose) extraHdr.toList [body.length]
      before after text := by
  obtain ⟨_, hct, hcc, hck, hx, _, hs⟩ := lengthValue_fixed
  refine ⟨[ascii "Content-Type: text/plain; charset=utf-8", lengthLine body.length],
    [if forceClose then ascii "Connection: close" else ascii "Connection: keep-alive",
      ascii "X-Content-Type-Options: nosniff", ascii "Server: cerco"], _, ⟨rfl, ?_, ?_, ?_⟩⟩
  · split
    · decide
    · exact statusText_free code
  · intro l hl
    simp only [List.cons_append, List.nil_append, List.mem_cons, List.not_mem_nil, or_false] at hl
    obtain rfl | rfl | rfl | rfl | rfl := hl
    · exact fixed_lines _ (by decide)
    · exact lengthLine_free _
    · cases forceClose
      · exact fixed_lines _ (by decide)
      · exact fixed_lines _ (by decide)
    · exact fixed_lines _ (by decide)
    · exact fixed_lines _ (by decide)
  · cases forceClose <;> simp [lengthValue_lengthLine, hct, hcc, hck, hx, hs]

theorem counts304 {w : Reply} {staged before after : List Bytes} (asHead : Bool)
    (h304 : w.code = 304) (body : w.body = []) :
    Taken.Counts asHead ⟨w.code, before.filterMap lengthValue ++
      (staged.flatMap wireLines).filterMap lengthValue ++ after.filterMap lengthValue, w.body⟩ := by
  refine ⟨fun hb => ?_, fun _ => body, fun h204 => ?_⟩
  · change bodiless asHead w.code = false at hb
    rw [h304, bodiless, Bool.or_eq_false_iff] at hb
    cases hb.2
  · exact absurd (h304.symm.trans h204) (by decide)

theorem start_counted {r : Req} {isHead close asHead : Bool} (h304 : r.status ≠ 304) :
    ((bodiless asHead r.status = false → r.resp.data.length = (startReply r isHead close).body.length) ∧
      (bodiless asHead r.status = true → (startReply r isHead close).body = []) ∧
      (r.status = 204 → r.resp.data.length = 0)) ↔ (Written.start r isHead close).Counted asHead := by
  have hbody := startReply_body r isHead close
  rw [hbody]
  by_cases h204 : r.status = 204
  · simp [bodiless, h204, Written.Counted]
  · rw [bodiless_other h204 h304, bodiless_other h204 h304]
    simp only [Written.Counted]
    cases asHead with
    | true => cases isHead <;> simp [h204, h304]
    | false => cases isHead <;> simp [h204, h304]

theorem startReply_framed {r : Req} {isHead close asHead : Bool}
    (h : (Written.start r isHead close).Plain) :
    Framed asHead (startReply r isHead close) ↔ (Written.start r isHead close).Sound asHead := by
  have hcl : haveHdr r (ascii "content-length") = false := by
    rw [haveHdr, List.any_eq_false]
    intro x hx
    simp [lengthValue_hdrLine (h _ (List.mem_map_of_mem hx))]
  have laid := start_laid r isHead close hcl
  rw [laid.framed]
  by_cases h304 : r.status = 304
  · have quiet : (startReply r isHead close).body = [] := by
      rw [startReply_body, h304, bodiless, Bool.or_comm]
      rfl
    constructor
    · rintro ⟨whole, _⟩
      refine ⟨whole, fun hb => ?_, fun h204 => ?_, fun h204 => ?_, fun _ h => absurd h304 h⟩
      · change bodiless asHead r.status = false at hb
        rw [h304, bodiless, Bool.or_eq_false_iff] at hb
        cases hb.2
      · exact absurd (h304.symm.trans h204) (by decide)
      · exact absurd (h304.symm.trans h204) (by decide)
    · exact fun sound => ⟨sound.whole, counts304 asHead h304 quiet⟩
  · rw [if_neg h304] at laid
    rw [laid.counts]
    constructor
    · rintro ⟨whole, single, zero, rest⟩
      exact ⟨whole, single, zero, (start_counted h304).mp rest⟩
    · exact fun sound => ⟨sound.whole, sound.single, sound.noContent, (start_counted h304).mpr sound.counted⟩

theorem simpleReply_framed {code : ℕ} {extraHdr : Option Bytes} {body : Bytes} {forceClose asHead : Bool} :
    Framed asHead (simpleReply code extraHdr body forceClose) ↔
      (Written.simple code extraHdr body forceClose).Sound asHead := by
  obtain ⟨before, after, text, laid⟩ := simple_laid code extraHdr body forceClose
  rw [laid.framed, laid.counts]
  constructor
  · rintro ⟨whole, single, zero, _, quiet, _⟩
    exact ⟨whole, single, zero, quiet⟩
  · rintro sound
    refine ⟨sound.whole, sound.single, sound.noContent, fun _ => rfl, sound.counted, fun h204 => ?_⟩
    have e204 : code = 204 := h204
    have none_ : body = [] := sound.counted (by rw [e204, bodiless, Bool.or_assoc, Bool.or_comm]; rfl)
    rw [none_]
    rfl

/-- A reply is framed exactly when its writer was called soundly. -/
theorem written_framed (w : Written) (asHead : Bool) (h : w.Plain) :
    Framed asHead w.reply ↔ w.Sound asHead := by
  cases w with
  | start r isHead close => exact startReply_framed h
  | simple code extraHdr body forceClose => exact simpleReply_framed

theorem Written.sound_oneLine {w : Written} {asHead : Bool} (plain : w.Plain)
    (free : ∀ l ∈ w.staged, l ≠ [] ∧ ¬ crlf <:+: l) (counted : w.Counted asHead) : w.Sound asHead := by
  have same : w.onWire = w.staged := by
    rw [Written.onWire, List.flatMap_congr fun l hl => wireLines_one (free l hl).2]
    exact List.flatMap_singleton' _
  have none_ : w.onWire.filterMap lengthValue = [] := by
    rw [same, List.filterMap_eq_nil_iff]
    exact plain
  refine ⟨fun early => ?_, fun _ => none_, fun _ n hn => ?_, counted⟩
  · rw [same] at early
    exact (free [] early).1 rfl
  · rw [none_] at hn
    cases hn

def OneLine (r : Req) : Prop := ∀ h ∈ r.respHdrs, ¬ crlf <:+: hdrLine h

instance (r : Req) : Decidable (OneLine r) := inferInstanceAs (Decidable (∀ _ ∈ _, _))

theorem startReply_read {r : Req} (oneLine : OneLine r) (isHead close : Bool) :
    (startReply r isHead close).read = (startReply r isHead close).lines := by
  refine Reply.read_lines fun l hl => ?_
  have shape : (startReply r isHead close).lines =
      statusLine r.status (statusText r.status) :: (r.respHdrs.map hdrLine ++ ownLines r isHead close) := by
    simp only [startReply, ownLines, List.append_assoc, List.nil_append, List.cons_append]
  rw [shape, List.mem_cons, List.mem_append] at hl
  obtain rfl | hl | hl := hl
  · exact statusLine_free _ (statusText_free _)
  · obtain ⟨h, hh, rfl⟩ := List.mem_map.mp hl
    exact ⟨by simp [hdrLine, ascii], oneLine h hh⟩
  · exact ownLines_free r isHead close l hl

theorem simpleReply_read {extraHdr : Option Bytes} (free : ∀ l ∈ extraHdr.toList, l ≠ [] ∧ ¬ crlf <:+: l) (code : ℕ)
    (body : Bytes) (forceClose : Bool) :
    (simpleReply code extraHdr body forceClose).read = (simpleReply code extraHdr body forceClose).lines := by
  obtain ⟨before, after, text, laid⟩ := simple_laid code extraHdr body forceClose
  refine Reply.read_lines fun l hl => ?_
  rw [laid.lines] at hl
  simp only [List.mem_cons, List.mem_append] at hl
  obtain rfl | (hl | hl) | hl := hl
  · exact statusLine_free _ laid.text
  · exact laid.own l (List.mem_append_left _ hl)
  · exact free l hl
  · exact laid.own l (List.mem_append_right _ hl)

/-- A page of a GET route that sets its own type. -/
def helloPage : Req :=
  { reqSetup 0 with respHdrs := [(ascii "Content-Type", ascii "text/plain")],
                    resp := ⟨ascii "hello", 4096⟩ }

theorem written_framed_hello : (Written.start helloPage false false).Plain ∧
    Framed false (startReply helloPage false false) := by
  have staged : ∀ l ∈ (Written.start helloPage false false).staged,
      lengthValue l = none ∧ l ≠ [] ∧ ¬ crlf <:+: l := by
    intro l hl
    obtain rfl := List.mem_singleton.mp hl
    decide
  have plain : (Written.start helloPage false false).Plain := fun l hl => (staged l hl).1
  refine ⟨plain, (written_framed _ false plain).mpr
    (Written.sound_oneLine plain (fun l hl => (staged l hl).2) ⟨fun h => absurd h (by decide), fun _ _ => .inr rfl⟩)⟩

def submitRt : List RtRoute := [parsedRoute ⟨ascii "POST", ascii "/submit", 1⟩]

def headSubmit : Req :=
  { reqSetup 0 with method := some (ascii "HEAD"), path := some (ascii "/submit") }

/-- HEAD on a POST route: the 405 carries the 19 bytes it announces. -/
theorem head_405_unframed :
    (routerProbe submitRt roomyArena headSubmit none 0).1 = 2 ∧
    ¬ Framed (strcaseeq (reqMethod headSubmit) (ascii "HEAD"))
      (reply405 (routerProbe submitRt roomyArena headSubmit none 0).2.mask) := by
  refine ⟨by decide, ?_⟩
  rintro ⟨t, _, rest, counts⟩
  have head : strcaseeq (reqMethod headSubmit) (ascii "HEAD") = true := by decide
  rw [head] at counts
  rw [counts.quiet rfl] at rest
  exact absurd rest (by decide)

end Cerco.Response
