import Cerco.Server

set_option autoImplicit false

/-!
# The response head as a client reads it

`conn_start_response` writes one line for each header that a handler staged, and
nothing between the handler and the wire looks at the text. A client cuts the
head at CRLF and each line at its first colon.
-/
namespace Cerco.ResponseHead
open Cerco.Alloc Cerco.CString Cerco.HeadText Cerco.Request Cerco.Response Cerco.Server

/-- The calls that touch the head, with the arguments they take. -/
inductive HeadCall
  | status (code : ℤ)
  | setHeader (name value : Bytes)
  | addHeader (name value : Bytes)
  | setCookie (name value : Bytes) (maxAge : ℤ) (path : Option Bytes) (flags : ℕ)
  | contentType (ct : Bytes)
  | redirect (location : Bytes)

def cookieFlags : List (ℕ × Bytes) :=
  [(0, ascii "; HttpOnly"), (1, ascii "; Secure"), (2, ascii "; SameSite=Lax"),
    (3, ascii "; SameSite=Strict"), (4, ascii "; SameSite=None")]

/-- The text of a Set-Cookie header. -/
def cookieText (name value : Bytes) (maxAge : ℤ) (path : Option Bytes) (flags : ℕ) : Bytes :=
  cstr name ++ ascii "=" ++ cstr value ++
    (if 0 ≤ maxAge then ascii "; Max-Age=" ++ decimal maxAge.toNat else []) ++
    ascii "; Path=" ++ cstr (path.getD (ascii "/")) ++
    cookieFlags.flatMap fun f => if flags.testBit f.1 then f.2 else []

/-- The call as one of those that the server runs. -/
def HeadCall.api : HeadCall → ApiCall
  | .status code => .status code.toNat
  | .setHeader name value => .setHeader name value
  | .addHeader name value => .addHeader name value
  | .setCookie name value maxAge path flags =>
    .addHeader (ascii "Set-Cookie") (cookieText name value maxAge path flags)
  | .contentType ct => .setHeader (ascii "Content-Type") ct
  | .redirect location => .redirect location

def dropSpace : Bytes → Bytes
  | 32 :: v => v
  | v => v

def readHdr (line : Bytes) : Option (Bytes × Bytes) :=
  (strchr 58 line).map fun cut => (cut.1, dropSpace cut.2)

structure Head where
  status : Bytes
  headers : List (Bytes × Bytes)
  body : Bytes
deriving DecidableEq

/-- A line takes two bytes at least, so the length bounds their number. -/
def readHead (b : Bytes) : Option Head :=
  match headLines b.length b with
  | some (status :: lines, body) => (lines.mapM readHdr).map fun hdrs => ⟨status, hdrs, body⟩
  | _ => none

/-- The text stays on its line, and the name ends where the line says. -/
def CleanHdr (h : Bytes × Bytes) : Prop := ¬ crlf <:+: h.1 ∧ ¬ crlf <:+: h.2 ∧ 58 ∉ h.1

instance (h : Bytes × Bytes) : Decidable (CleanHdr h) := inferInstanceAs (Decidable (_ ∧ _ ∧ _))

theorem cstr_free {s : Bytes} (h : ¬ crlf <:+: s) : ¬ crlf <:+: cstr s := fun hi =>
  h (hi.trans (List.takeWhile_prefix _).isInfix)

theorem hdrLine_shape (h : Bytes × Bytes) : hdrLine h = h.1 ++ 58 :: 32 :: h.2 := by
  simp [hdrLine, ascii]

theorem hdrLine_free {h : Bytes × Bytes} (clean : CleanHdr h) : hdrLine h ≠ [] ∧ ¬ crlf <:+: hdrLine h := by
  have colon : ¬ crlf <:+: [58, 32] ++ h.2 := crlf_free_start (by decide) clean.2.1
  rw [hdrLine_shape]
  exact ⟨by simp, crlf_free_append clean.1 colon (by simp)⟩

theorem readHdr_hdrLine {h : Bytes × Bytes} (clean : CleanHdr h) : readHdr (hdrLine h) = some h := by
  rw [hdrLine_shape, readHdr, strchr_some.mpr ⟨rfl, clean.2.2⟩]
  rfl

theorem readHdr_clean {line : Bytes} {h : Bytes × Bytes} (free : ¬ crlf <:+: line)
    (read : readHdr line = some h) : CleanHdr h := by
  obtain ⟨⟨pre, post⟩, hcut, rfl⟩ := Option.map_eq_some_iff.mp read
  obtain ⟨rfl, colon⟩ := strchr_some.mp hcut
  refine ⟨fun hi => free (hi.trans (List.prefix_append pre _).isInfix), fun hi => ?_, colon⟩
  have tail : dropSpace post <:+ post := by
    unfold dropSpace
    split
    · exact List.suffix_cons _ _
    · exact List.suffix_refl _
  have whole : post <:+ pre ++ 58 :: post := (List.suffix_cons 58 post).trans (List.suffix_append pre _)
  exact free (hi.trans (tail.trans whole).isInfix)

theorem mapM_readHdr_hdrLine {hs : List (Bytes × Bytes)} (clean : ∀ h ∈ hs, CleanHdr h) :
    (hs.map hdrLine).mapM readHdr = some hs := by
  induction hs with
  | nil => rfl
  | cons h hs ih =>
    rw [List.map_cons, List.mapM_cons, readHdr_hdrLine (clean h List.mem_cons_self),
      ih fun k hk => clean k (List.mem_cons_of_mem h hk)]
    rfl

theorem mapM_readHdr_clean {lines : List Bytes} {hs : List (Bytes × Bytes)}
    (free : ∀ l ∈ lines, ¬ crlf <:+: l) (read : lines.mapM readHdr = some hs) :
    ∀ h ∈ hs, CleanHdr h := by
  induction lines generalizing hs with
  | nil =>
    cases read
    simp
  | cons line lines ih =>
    rw [List.mapM_cons] at read
    obtain ⟨h, hh, read⟩ := Option.bind_eq_some_iff.mp read
    obtain ⟨ks, hks, same⟩ := Option.bind_eq_some_iff.mp read
    cases same
    rintro k (_ | ⟨_, hk⟩)
    · exact readHdr_clean (free line List.mem_cons_self) hh
    · exact ih (fun l hl => free l (List.mem_cons_of_mem line hl)) hks k hk

/-- The headers that `conn_start_response` adds to those of the handler. -/
def fixedHeaders (r : Req) (isHead close : Bool) : List (Bytes × Bytes) :=
  let noBody := isHead || r.status == 204 || r.status == 304
  (if !haveHdr r (ascii "content-type") && !noBody then
    [(ascii "Content-Type", ascii "text/html; charset=utf-8")] else []) ++
  (if !haveHdr r (ascii "content-length") && r.status != 304 then
    [(ascii "Content-Length", decimal r.resp.data.length)] else []) ++
  (if !haveHdr r (ascii "connection") then
    [(ascii "Connection", if close then ascii "close" else ascii "keep-alive")] else []) ++
  [(ascii "X-Content-Type-Options", ascii "nosniff"),
    (ascii "Referrer-Policy", ascii "strict-origin-when-cross-origin"), (ascii "Server", ascii "cerco")]

theorem startReply_lines (r : Req) (isHead close : Bool) :
    (startReply r isHead close).lines = statusLine r.status (statusText r.status) ::
      (r.respHdrs ++ fixedHeaders r isHead close).map hdrLine := by
  have type : hdrLine (ascii "Content-Type", ascii "text/html; charset=utf-8") =
      ascii "Content-Type: text/html; charset=utf-8" := by decide
  have length : hdrLine (ascii "Content-Length", decimal r.resp.data.length) =
      lengthLine r.resp.data.length := rfl
  have connection : hdrLine (ascii "Connection", if close then ascii "close" else ascii "keep-alive") =
      if close then ascii "Connection: close" else ascii "Connection: keep-alive" := by cases close <;> decide
  have last : [(ascii "X-Content-Type-Options", ascii "nosniff"),
      (ascii "Referrer-Policy", ascii "strict-origin-when-cross-origin"), (ascii "Server", ascii "cerco")].map hdrLine =
      [ascii "X-Content-Type-Options: nosniff", ascii "Referrer-Policy: strict-origin-when-cross-origin",
        ascii "Server: cerco"] := by decide
  unfold startReply fixedHeaders
  simp only [List.map_append, last, List.append_assoc, apply_ite (List.map hdrLine), List.map_cons, List.map_nil,
    type, length, connection]
  rfl

theorem fixedHeaders_clean (r : Req) (isHead close : Bool) :
    ∀ h ∈ fixedHeaders r isHead close, CleanHdr h := by
  have name : ¬ crlf <:+: ascii "Content-Length" ∧ 58 ∉ ascii "Content-Length" := by decide
  have length : CleanHdr (ascii "Content-Length", decimal r.resp.data.length) :=
    ⟨name.1, crlf_free_of_not_mem (decimal_free _), name.2⟩
  have connection : CleanHdr (ascii "Connection", if close then ascii "close" else ascii "keep-alive") := by
    cases close <;> decide
  intro h hm
  simp only [fixedHeaders, List.mem_append] at hm
  obtain ((hm | hm) | hm) | hm := hm
  · split at hm
    · rw [List.mem_singleton.mp hm]
      decide
    · cases hm
  · split at hm
    · rw [List.mem_singleton.mp hm]
      exact length
    · cases hm
  · split at hm
    · rw [List.mem_singleton.mp hm]
      exact connection
    · cases hm
  · have fixed : ∀ k ∈ [(ascii "X-Content-Type-Options", ascii "nosniff"),
        (ascii "Referrer-Policy", ascii "strict-origin-when-cross-origin"),
        (ascii "Server", ascii "cerco")], CleanHdr k := by decide
    exact fixed h hm

/-- The head that the handler's headers stand for. -/
def intendedHead (r : Req) (isHead close : Bool) : Head :=
  ⟨statusLine r.status (statusText r.status), r.respHdrs ++ fixedHeaders r isHead close,
    (startReply r isHead close).body⟩

theorem readHead_startReply (r : Req) (isHead close : Bool) :
    readHead (startReply r isHead close).bytes = some (intendedHead r isHead close) ↔
      ∀ h ∈ r.respHdrs, CleanHdr h := by
  constructor
  · intro read h hh
    unfold readHead at read
    split at read
    · rename_i status lines body hl
      obtain ⟨hs, hhs, same⟩ := Option.map_eq_some_iff.mp read
      have free := headLines_free hl
      have headers : hs = r.respHdrs ++ fixedHeaders r isHead close := congrArg Head.headers same
      refine mapM_readHdr_clean (fun l hl => free l (List.mem_cons_of_mem status hl)) hhs h ?_
      rw [headers]
      exact List.mem_append_left _ hh
    · cases read
  · intro clean
    have all : ∀ h ∈ r.respHdrs ++ fixedHeaders r isHead close, CleanHdr h := by
      intro h hm
      obtain hm | hm := List.mem_append.mp hm
      · exact clean h hm
      · exact fixedHeaders_clean r isHead close h hm
    have free : ∀ l ∈ (startReply r isHead close).lines, l ≠ [] ∧ ¬ crlf <:+: l := by
      rw [startReply_lines]
      rintro l (_ | ⟨_, hl⟩)
      · exact statusLine_free r.status (statusText_free _)
      · obtain ⟨h, hh, rfl⟩ := List.mem_map.mp hl
        exact hdrLine_free (all h hh)
    have lines : headLines (startReply r isHead close).bytes.length (startReply r isHead close).bytes =
        some ((startReply r isHead close).lines, (startReply r isHead close).body) :=
      headLines_lines free _ headLines_long
    rw [startReply_lines] at lines
    unfold readHead
    rw [lines]
    dsimp only
    rw [mapM_readHdr_hdrLine all]
    rfl

/-- The strings that the call takes cannot leave the line they go to. -/
def HeadCall.Clean : HeadCall → Prop
  | .status _ => True
  | .setHeader name value => CleanHdr (cstr name, cstr value)
  | .addHeader name value => CleanHdr (cstr name, cstr value)
  | .setCookie name value _ path _ => ¬ crlf <:+: cstr name ∧ ¬ crlf <:+: cstr value ∧
      ¬ crlf <:+: cstr (path.getD (ascii "/"))
  | .contentType ct => ¬ crlf <:+: cstr ct
  | .redirect location => ¬ crlf <:+: cstr location

instance (call : HeadCall) : Decidable call.Clean := by
  cases call <;> unfold HeadCall.Clean <;> infer_instance

theorem cookieFlags_free (flags : ℕ) :
    13 ∉ cookieFlags.flatMap fun f => if flags.testBit f.1 then f.2 else [] := by
  intro h
  obtain ⟨f, hf, hm⟩ := List.mem_flatMap.mp h
  split at hm
  · have fixed : ∀ f ∈ cookieFlags, 13 ∉ f.2 := by decide
    exact fixed f hf hm
  · cases hm

theorem cookieFlags_head (flags : ℕ) :
    (cookieFlags.flatMap fun f => if flags.testBit f.1 then f.2 else []).head? ≠ some 10 := by
  intro h
  obtain ⟨f, hf, hm⟩ := List.mem_flatMap.mp (List.mem_of_head? h)
  split at hm
  · have fixed : ∀ f ∈ cookieFlags, 10 ∉ f.2 := by decide
    exact fixed f hf hm
  · cases hm

theorem maxAge_free (maxAge : ℤ) :
    13 ∉ (if 0 ≤ maxAge then ascii "; Max-Age=" ++ decimal maxAge.toNat else []) ∧
    (if 0 ≤ maxAge then ascii "; Max-Age=" ++ decimal maxAge.toNat else []).head? ≠ some 10 := by
  split
  · refine ⟨?_, by simp [ascii]⟩
    simp only [List.mem_append, not_or]
    exact ⟨by decide, decimal_free _⟩
  · simp

theorem cookieText_free {name value : Bytes} {path : Option Bytes} (hn : ¬ crlf <:+: cstr name)
    (hv : ¬ crlf <:+: cstr value) (hp : ¬ crlf <:+: cstr (path.getD (ascii "/"))) (maxAge : ℤ)
    (flags : ℕ) : ¬ crlf <:+: cookieText name value maxAge path flags := by
  have value_free : ¬ crlf <:+: cstr name ++ (ascii "=" ++ cstr value) :=
    crlf_free_append hn (crlf_free_start (by decide) hv) (by simp [ascii])
  have age_free := crlf_free_append value_free (crlf_free_of_not_mem (maxAge_free maxAge).1)
    (maxAge_free maxAge).2
  have path_free : ¬ crlf <:+: ascii "; Path=" ++ cstr (path.getD (ascii "/")) :=
    crlf_free_start (by decide) hp
  have flags_free := crlf_free_append (crlf_free_append age_free path_free (by simp [ascii]))
    (crlf_free_of_not_mem (cookieFlags_free flags)) (cookieFlags_head flags)
  simpa [cookieText, List.append_assoc] using flags_free

theorem replaceHdr_clean {name value : Bytes} (hv : ¬ crlf <:+: value) {hs ks : List (Bytes × Bytes)}
    (clean : ∀ h ∈ hs, CleanHdr h) (hr : replaceHdr name value hs = some ks) :
    ∀ h ∈ ks, CleanHdr h := by
  induction hs generalizing ks with
  | nil => cases hr
  | cons h hs ih =>
    have here := clean h List.mem_cons_self
    have tail : ∀ k ∈ hs, CleanHdr k := fun k hk => clean k (List.mem_cons_of_mem h hk)
    rw [replaceHdr] at hr
    split at hr
    · cases hr
      rintro k (_ | ⟨_, hk⟩)
      · exact ⟨here.1, hv, here.2.2⟩
      · exact tail k hk
    · obtain ⟨js, hjs, same⟩ := Option.map_eq_some_iff.mp hr
      cases same
      rintro k (_ | ⟨_, hk⟩)
      · exact here
      · exact ih tail hjs k hk

theorem respHdrAdd_clean {name value : Bytes} (new : CleanHdr (cstr name, cstr value)) (a : Arena)
    {r : Req} (clean : ∀ h ∈ r.respHdrs, CleanHdr h) :
    ∀ h ∈ (respHdrAdd a r name value).2.respHdrs, CleanHdr h := by
  unfold respHdrAdd
  split
  · exact clean
  · split
    · exact clean
    · dsimp only
      split
      · rename_i n v hn hv
        intro h hm
        obtain hm | hm := List.mem_append.mp hm
        · exact clean h hm
        · rw [List.mem_singleton.mp hm, ← arenaStrdup_some hn, ← arenaStrdup_some hv]
          exact new
      · exact clean

theorem setHeader_clean {name value : Bytes} (new : CleanHdr (cstr name, cstr value)) (a : Arena)
    {r : Req} (clean : ∀ h ∈ r.respHdrs, CleanHdr h) :
    ∀ h ∈ (setHeader a r name value).2.respHdrs, CleanHdr h := by
  unfold setHeader
  split
  · rename_i hs hr
    refine replaceHdr_clean ?_ clean hr
    cases hv : (arenaStrdup a value).1 with
    | none => decide
    | some v =>
      rw [Option.getD_some, ← arenaStrdup_some hv]
      exact new.2.1
  · exact respHdrAdd_clean new a clean

theorem apiRun_clean {call : HeadCall} (hc : call.Clean) (a : Arena) {r : Req}
    (clean : ∀ h ∈ r.respHdrs, CleanHdr h) : ∀ h ∈ (apiRun call.api a r).2.respHdrs, CleanHdr h := by
  cases call with
  | status code =>
    simp only [HeadCall.api, apiRun]
    split <;> exact clean
  | setHeader name value => exact setHeader_clean hc a clean
  | addHeader name value => exact respHdrAdd_clean hc a clean
  | setCookie name value maxAge path flags =>
    refine respHdrAdd_clean ?_ a clean
    have name_free : ¬ crlf <:+: cstr (ascii "Set-Cookie") ∧ 58 ∉ cstr (ascii "Set-Cookie") := by decide
    exact ⟨name_free.1, cstr_free (cookieText_free hc.1 hc.2.1 hc.2.2 maxAge flags), name_free.2⟩
  | contentType ct =>
    have name_free : ¬ crlf <:+: cstr (ascii "Content-Type") ∧ 58 ∉ cstr (ascii "Content-Type") := by
      decide
    exact setHeader_clean ⟨name_free.1, hc, name_free.2⟩ a clean
  | redirect location =>
    have name_free : ¬ crlf <:+: cstr (ascii "Location") ∧ 58 ∉ cstr (ascii "Location") := by decide
    exact setHeader_clean (r := { r with status := if strcaseeq (reqMethod r) (ascii "POST") then 303
      else 302 }) ⟨name_free.1, hc, name_free.2⟩ a clean

theorem handlerRun_clean {calls : List HeadCall} (hc : ∀ call ∈ calls, call.Clean) (a : Arena) {r : Req}
    (clean : ∀ h ∈ r.respHdrs, CleanHdr h) :
    ∀ h ∈ (handlerRun (calls.map HeadCall.api) a r).2.respHdrs, CleanHdr h := by
  induction calls generalizing a r with
  | nil => exact clean
  | cons call calls ih =>
    exact ih (fun c hm => hc c (List.mem_cons_of_mem call hm)) _
      (apiRun_clean (hc call List.mem_cons_self) a clean)

/-- Whether a client reads the head that a handler meant: exactly when every header it
staged is clean, and clean arguments stage clean headers. -/
theorem response_head_integrity (calls : List HeadCall) (a : Arena) (r : Req) (fresh : r.respHdrs = [])
    (isHead close : Bool) :
    (readHead (startReply (handlerRun (calls.map HeadCall.api) a r).2 isHead close).bytes =
        some (intendedHead (handlerRun (calls.map HeadCall.api) a r).2 isHead close) ↔
      ∀ h ∈ (handlerRun (calls.map HeadCall.api) a r).2.respHdrs, CleanHdr h) ∧
    ((∀ call ∈ calls, call.Clean) →
      ∀ h ∈ (handlerRun (calls.map HeadCall.api) a r).2.respHdrs, CleanHdr h) := by
  refine ⟨readHead_startReply _ isHead close, fun hc => handlerRun_clean hc a fun h hm => ?_⟩
  rw [fresh] at hm
  cases hm

def replyArena : Arena := arenaInit (Arena.zero fun k _ => some (65536 * (k + 1))) 4096 0

def loginCalls : List HeadCall :=
  [.setCookie (ascii "sid") (ascii "1f") 3600 none 5, .redirect (ascii "/home")]

theorem response_head_integrity_login :
    readHead (startReply (handlerRun (loginCalls.map HeadCall.api) replyArena (reqSetup 0)).2
      false false).bytes =
    some (intendedHead (handlerRun (loginCalls.map HeadCall.api) replyArena (reqSetup 0)).2
      false false) :=
  have whole := response_head_integrity loginCalls replyArena (reqSetup 0) rfl false false
  whole.1.mpr (whole.2 (by decide))

/-- A value taken from the request, as `cerco_query_get` hands it out. -/
def echoCalls : List HeadCall := [.setHeader (ascii "X-Name") (ascii "ada\r\nSet-Cookie: sid=0")]

/-- The handler staged one header and the client reads two. -/
theorem value_adds_header :
    (handlerRun (echoCalls.map HeadCall.api) replyArena (reqSetup 0)).2.respHdrs =
      [(ascii "X-Name", ascii "ada\r\nSet-Cookie: sid=0")] ∧
    (readHead (startReply (handlerRun (echoCalls.map HeadCall.api) replyArena (reqSetup 0)).2
        false false).bytes).map (fun hd => hd.headers.take 2) =
      some [(ascii "X-Name", ascii "ada"), (ascii "Set-Cookie", ascii "sid=0")] ∧
    readHead (startReply (handlerRun (echoCalls.map HeadCall.api) replyArena (reqSetup 0)).2
        false false).bytes ≠
      some (intendedHead (handlerRun (echoCalls.map HeadCall.api) replyArena (reqSetup 0)).2
        false false) := by
  have staged : (handlerRun (echoCalls.map HeadCall.api) replyArena (reqSetup 0)).2.respHdrs =
      [(ascii "X-Name", ascii "ada\r\nSet-Cookie: sid=0")] := by decide +kernel
  have read : (readHead (startReply (handlerRun (echoCalls.map HeadCall.api) replyArena (reqSetup 0)).2
      false false).bytes).map (fun hd => hd.headers.take 2) =
      some [(ascii "X-Name", ascii "ada"), (ascii "Set-Cookie", ascii "sid=0")] := by decide +kernel
  refine ⟨staged, read, fun same => ?_⟩
  rw [same, Option.map_some, intendedHead, staged] at read
  have first := congrArg List.head? (Option.some.inj read)
  exact absurd first (by decide)

end Cerco.ResponseHead
