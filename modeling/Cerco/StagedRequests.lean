import Cerco.ClientScratch

set_option autoImplicit false

/-!
# What is fetched and what was asked

A request takes its table entry first and copies its strings afterwards, whether
they fit or not. The URL of a server function is copied twice, and the first copy
has room for three digits.
-/
namespace Cerco.StagedRequests
open Cerco.BlockRuns Cerco.ByteMemory Cerco.CString Cerco.ClientBody Cerco.ClientDigits Cerco.ClientFetch
open Cerco.ClientScratch
open Cerco.Dispatch (sfPrefix sfIdLoop sfIsSfPath)
open Cerco.Response (decimal)
open Cerco.SfIds (sfPath_digits sfPrefix_nulFree)
open Cerco.ServerFunctions (CStr sfBodyMax)

def sfUrl (id : UInt32) : Bytes := sfPrefix ++ decimal id.toNat

theorem sfUrl_length (id : UInt32) : (sfUrl id).length = 12 + (decimal id.toNat).length :=
  List.length_append

theorem sfUrl_nulFree (id : UInt32) : 0 ∉ sfUrl id :=
  fun h => (List.mem_append.mp h).elim sfPrefix_nulFree (decimal_digits id.toNat).nulFree

theorem sfUrl_short (id : UInt32) : (sfUrl id).length ≤ 22 := by
  have digits := decimal_length_word id.toNat_lt
  rw [sfUrl_length]
  omega

theorem sfUrl_fits (id : UInt32) : (sfUrl id).length + 1 ≤ 16 ↔ id.toNat < 1000 := by
  have digits := @decimal_length_le id.toNat 3 (by decide)
  rw [sfUrl_length]
  omega

theorem sfUrlFor_room {s : Scratch} (id : UInt32) (h : Room s 13) :
    sfUrlFor s id = (some s.addr, { s.skip 13 with
      mem := (s.mem.write s.addr (sfPrefix ++ [0])).write (s.addr + 12) (decimal id.toNat ++ [0]) }) := by
  rw [sfUrlFor, scratchStrdup_room (.text sfUrlPrefix) h]
  dsimp only
  rw [tmpDigits_decimal id.toNat_lt]
  rfl

theorem sfUrlFor_full {s : Scratch} (id : UInt32) (h : ¬ Room s 13) : sfUrlFor s id = (none, s) := by
  rw [sfUrlFor, scratchStrdup_full (.text sfUrlPrefix) h]

structure Stands (m : Mem) (p : ℕ) (t : Bytes) : Prop where
  text : m.load p t.length = t
  stop : m (p + t.length) = 0

theorem sfUrl_stands (m : Mem) (p : ℕ) (id : UInt32) :
    Stands ((m.write p (sfPrefix ++ [0])).write (p + 12) (decimal id.toNat ++ [0])) p (sfUrl id) := by
  have front : ((m.write p (sfPrefix ++ [0])).write (p + 12) (decimal id.toNat ++ [0])).load p 12 = sfPrefix :=
    (load_congr fun x _ hi => write_outside _ _ (.inl hi)).trans (load_write_part m p [] sfPrefix [0])
  have back := load_write_part (m.write p (sfPrefix ++ [0])) (p + 12) [] (decimal id.toNat) [0]
  have stop := load_write_part (m.write p (sfPrefix ++ [0])) (p + 12) (decimal id.toNat) [0] []
  constructor
  · rw [sfUrl_length, load_append, front]
    exact congrArg (sfPrefix ++ ·) back
  · rw [sfUrl_length, ← Nat.add_assoc]
    exact (List.cons.inj stop).1

theorem Stands.congr {m m' : Mem} {p : ℕ} {t : Bytes} (h : Stands m p t)
    (same : ∀ x, p ≤ x → x ≤ p + t.length → m' x = m x) : Stands m' p t :=
  ⟨(load_congr fun x lo hi => same x lo (by omega)).trans h.text,
    (same _ (by omega) (Nat.le_refl _)).trans h.stop⟩

theorem Stands.strlen {m : Mem} {p : ℕ} {id : UInt32} (h : Stands m p (sfUrl id)) :
    strlen m p = (sfUrl id).length := by
  have short := sfUrl_short id
  exact strlen_text h.text (sfUrl_nulFree id) h.stop (by omega)

theorem Stands.ne_zero {m : Mem} {p j : ℕ} {t : Bytes} (h : Stands m p t) (free : 0 ∉ t)
    (inside : j < t.length) : m (p + j) ≠ 0 := by
  intro zero
  refine free ?_
  rw [← h.text]
  exact mem_load.mpr ⟨j, inside, zero⟩

def sfSent (s : Scratch) (id : UInt32) (data : Option Bytes) (len : ℤ) : Option Bytes :=
  sentUrl (sfUrlFor s id).2 (.ptr (sfUrlFor s id).1) data len

theorem readBlock_length {m : Mem} {p : Option ℕ} {n : ℕ} {t : Bytes} (h : readBlock m p n = some t) :
    t.length = n := by
  obtain ⟨q, _, e⟩ := Option.map_eq_some_iff.mp h
  rw [← e]
  exact load_length m q n

/-- Without the first copy, what stands at address 0 is copied, and it is shorter than a URL. -/
theorem sfSent_null {s : Scratch} {id : UInt32} (h : ¬ Room s 13) (data : Option Bytes) (len : ℤ) :
    sfSent s id data len ≠ some (sfUrl id) := by
  have long := sfUrl_length id
  intro sent
  rw [sfSent, sfUrlFor_full id h, sentUrl] at sent
  dsimp only at sent
  by_cases room : Room s (strlen s.mem 0 + 1)
  · have low := room.low
    have short : strlen s.mem 0 < 8 := by
      have fits := (room_iff.mp room).2
      have full : ¬ s.off + rounded 13 ≤ 65536 := fun fits => h (room_iff.mpr ⟨room.1, fits⟩)
      unfold rounded at fits full
      omega
    let t : Scratch := { s.skip (strlen s.mem 0 + 1) with mem := s.mem.copyUp s.addr 0 (strlen s.mem 0 + 1) }
    have after : t.addr = s.addr + rounded (strlen s.mem 0 + 1) := addr_skip s _
    have low' : ∀ x < 16, (copyBody t data len).2.mem x = s.mem x := fun x hx =>
      (copyBody_below t data len (by omega)).trans (copyUp_outside s.mem (.inl (by omega)))
    rw [scratchStrdup_room (.ptr none) room] at sent
    have size : (sfUrl id).length = strlen (copyBody t data len).2.mem 0 := readBlock_length sent
    rw [strlen_congr (by omega) fun x _ hi => low' x (by omega)] at size
    omega
  · rw [scratchStrdup_full (.ptr none) room] at sent
    cases sent

/-- Behind the two copies; `m` is the memory between them. -/
def copied (s : Scratch) (id : UInt32) (m : Mem) : Scratch :=
  { (s.skip 13).skip ((sfUrl id).length + 1) with
    mem := m.copyUp (s.addr + 16) s.addr ((sfUrl id).length + 1) }

theorem copied_addr (s : Scratch) (id : UInt32) (m : Mem) :
    (copied s id m).addr = s.addr + 16 + rounded ((sfUrl id).length + 1) := by
  change ((s.skip 13).skip ((sfUrl id).length + 1)).addr = _
  rw [addr_skip, addr_skip]
  rfl

theorem sfUrl_copied {s : Scratch} (id : UInt32) (h : Room s 13) :
    ∃ m, Stands m s.addr (sfUrl id) ∧ (sfUrlFor s id).1 = some s.addr ∧
      (Room (s.skip 13) ((sfUrl id).length + 1) →
        scratchStrdup (sfUrlFor s id).2 (.ptr (some s.addr)) = (some (s.addr + 16), copied s id m)) ∧
      (¬ Room (s.skip 13) ((sfUrl id).length + 1) →
        (scratchStrdup (sfUrlFor s id).2 (.ptr (some s.addr))).1 = none) := by
  rw [sfUrlFor_room id h]
  let m := (s.mem.write s.addr (sfPrefix ++ [0])).write (s.addr + 12) (decimal id.toNat ++ [0])
  let t : Scratch := { s.skip 13 with mem := m }
  have after : t.addr = s.addr + 16 := addr_skip s 13
  have stands : Stands m s.addr (sfUrl id) := sfUrl_stands s.mem s.addr id
  have len : Src.strlen m (.ptr (some s.addr)) = (sfUrl id).length := stands.strlen
  refine ⟨m, stands, rfl, fun room => ?_, fun full => ?_⟩
  · have second := scratchStrdup_room (s := t) (.ptr (some s.addr)) (by rw [len]; exact room)
    change scratchStrdup t (.ptr (some s.addr)) = _
    rw [second, after, len]
    rfl
  · have second := scratchStrdup_full (s := t) (.ptr (some s.addr)) (by rw [len]; exact full)
    change (scratchStrdup t (.ptr (some s.addr))).1 = _
    rw [second]

theorem copied_staged {s : Scratch} {id : UInt32} {m : Mem} (stands : Stands m s.addr (sfUrl id))
    (small : id.toNat < 1000) : Staged (copied s id m) (.ptr (some s.addr)) (s.addr + 16) (sfUrl id) := by
  have fits := (sfUrl_fits id).mpr small
  have space := le_rounded ((sfUrl id).length + 1)
  have stop := copied_addr s id m
  refine ⟨?_, by omega, fun m' same => ?_⟩
  · exact (load_copyUp m (by omega) (by omega)).trans stands.text
  · refine (stands.congr fun x lo hi => ?_).strlen
    exact (same x (by omega)).trans (copyUp_outside m (.inl (by omega)))

/-- The second copy begins on the NUL of the first one, so the first one has no end there. -/
theorem copied_overlaps {s : Scratch} {id : UInt32} {m m' : Mem} (stands : Stands m s.addr (sfUrl id))
    (large : ¬ id.toNat < 1000) (same : ∀ x < (copied s id m).addr, m' x = (copied s id m).mem x) :
    32 ≤ strlen m' s.addr := by
  have long : ¬ (sfUrl id).length + 1 ≤ 16 := fun fits => large ((sfUrl_fits id).mp fits)
  have free := sfUrl_nulFree id
  have space := le_rounded ((sfUrl id).length + 1)
  have stop := copied_addr s id m
  refine le_strlen (fun j hj => ?_) (by omega)
  rw [same _ (by unfold rounded at stop; omega)]
  -- the first 16 bytes are those of the URL, the next 16 are their copies
  by_cases first : j < 16
  · have kept : (copied s id m).mem (s.addr + j) = m (s.addr + j) := copyUp_outside m (.inl (by omega))
    rw [kept]
    exact stands.ne_zero free (by omega)
  · obtain ⟨i, rfl⟩ := Nat.exists_eq_add_of_le (Nat.le_of_not_lt first)
    have moved : (copied s id m).mem (s.addr + 16 + i) = m (s.addr + i) :=
      copyUp_inside m (by omega) (by omega)
    rw [← Nat.add_assoc, moved]
    exact stands.ne_zero free (by omega)

theorem room_first {s : Scratch} {n : ℕ} (h : Room (s.skip 13) n) : Room s 13 := by
  have fits := (room_iff.mp h).2
  change s.off + rounded 13 + rounded n ≤ 65536 at fits
  exact room_iff.mpr ⟨h.1, by omega⟩

/-- The host reads the URL of the function exactly when both copies fit and the id has three digits. -/
theorem sfSent_iff (s : Scratch) (id : UInt32) (data : Option Bytes) (len : ℤ) :
    sfSent s id data len = some (sfUrl id) ↔
      id.toNat < 1000 ∧ Room (s.skip 13) ((sfUrl id).length + 1) := by
  by_cases h : Room s 13
  · obtain ⟨m, stands, first, second, full⟩ := sfUrl_copied id h
    rw [sfSent, first, sentUrl]
    by_cases room : Room (s.skip 13) ((sfUrl id).length + 1)
    · rw [second room]
      by_cases small : id.toNat < 1000
      · exact ⟨fun _ => ⟨small, room⟩, fun _ => (copied_staged stands small).read data len⟩
      · refine ⟨fun sent => ?_, fun h => absurd h.1 small⟩
        have size := readBlock_length sent
        have short := sfUrl_short id
        have ends : 32 ≤ strlen (copyBody (copied s id m) data len).2.mem s.addr :=
          copied_overlaps stands small fun x hx => copyBody_below _ data len hx
        have same : (sfUrl id).length = strlen (copyBody (copied s id m) data len).2.mem s.addr := size
        omega
    · rw [full room]
      refine ⟨fun sent => ?_, fun h => absurd h.2 room⟩
      cases sent
  · exact ⟨fun sent => absurd sent (sfSent_null h data len), fun fits => absurd (room_first fits.2) h⟩

/-- The call is not turned away: there are a slot, room in front of the arguments and a table entry. -/
structure Accepted (s : StageSt) : Prop where
  slot : freeSlot s.pending ≠ none
  fits : s.body.len + 4 ≤ sfBodyMax
  entry : fetchReserve s.fetches ≠ none

/-- The URL is the prefix with the digits of the id, and the server reads the id back from it. -/
structure RoundTrip (id : UInt32) (c : HostCall) : Prop where
  text : c.url = some (sfPrefix ++ decimal id.toNat)
  back : ∀ url, c.url = some url → sfIsSfPath url = true ∧ sfIdLoop (url.drop 12) 0 = (id.toNat, [])

theorem roundTrip_iff {id : UInt32} {c : HostCall} : RoundTrip id c ↔ c.url = some (sfUrl id) := by
  refine ⟨fun h => h.text, fun h => ⟨h, fun url same => ?_⟩⟩
  obtain rfl : sfUrl id = url := Option.some.inj (h.symm.trans same)
  obtain ⟨_, path, rest⟩ := sfPath_digits (decimal_digits id.toNat)
  refine ⟨path, ?_⟩
  rw [sfUrl, rest]
  exact sfIdLoop_decimal id.toNat_lt

theorem post_calls {s : StageSt} {id : ℕ} (h : fetchReserve s.fetches = some id) (url : Src)
    (data : Option Bytes) (len : ℤ) (f : PendingFetch) :
    (cercoHttpPost s url data len f).calls = s.calls ++
      [⟨id, ascii "POST", sentUrl s.scratch url data len, sentBody s.scratch url data len⟩] := by
  unfold cercoHttpPost
  rw [h]
  rfl

theorem post_full {s : StageSt} (h : fetchReserve s.fetches = none) (url : Src) (data : Option Bytes) (len : ℤ)
    (f : PendingFetch) : cercoHttpPost s url data len f = s := by
  rw [cercoHttpPost, h]

theorem submit_calls {s : StageSt} (h : Accepted s) (cb : Option ℕ) (user : ℕ) (want : UInt8) :
    ∃ id, (cercoSfSubmitRaw s cb user want).calls = s.calls ++
      [⟨id, ascii "POST", sfSent s.scratch s.body.id (some (frameHeader s.body).frame) (frameHeader s.body).len,
        sentBody (sfUrlFor s.scratch s.body.id).2 (.ptr (sfUrlFor s.scratch s.body.id).1)
          (some (frameHeader s.body).frame) (frameHeader s.body).len⟩] := by
  obtain ⟨slot, hslot⟩ := Option.ne_none_iff_exists'.mp h.slot
  obtain ⟨id, hid⟩ := Option.ne_none_iff_exists'.mp h.entry
  have fits := h.fits
  have given : sfSubmitRaw s.pending s.body cb user want =
      some (slot, frameHeader s.body, s.pending.set slot ⟨cb, user, want⟩) := by
    rw [sfSubmitRaw, hslot]
    exact if_neg (by omega)
  refine ⟨id, ?_⟩
  unfold cercoSfSubmitRaw
  rw [given]
  exact post_calls (s := ⟨(sfUrlFor s.scratch s.body.id).2, _, _, _, _⟩) hid _ _ _ _

/-- The URL arrives and is read back exactly when its two copies fit and the id has at most three digits. -/
theorem sf_url_iff (s : StageSt) (h : Accepted s) (cb : Option ℕ) (user : ℕ) (want : UInt8) :
    ∃ c, (cercoSfSubmitRaw s cb user want).calls = s.calls ++ [c] ∧
      (RoundTrip s.body.id c ↔ s.body.id.toNat < 1000 ∧
        Room (s.scratch.skip 13) (sfPrefix ++ decimal s.body.id.toNat ++ [0]).length) := by
  obtain ⟨id, sent⟩ := submit_calls h cb user want
  refine ⟨_, sent, ?_⟩
  rw [roundTrip_iff, List.length_append]
  exact sfSent_iff _ _ _ _

/-- At the start of an event, with nothing in flight. -/
def idle (id : UInt32) : StageSt where
  scratch := ⟨fun _ => 0, some ⟨131072, by decide⟩, 0⟩
  body := ClientBody.sfBegin (fun _ => 0) id 0
  pending := List.replicate sfPendingMax ⟨none, 0, 0⟩
  fetches := List.replicate maxPendingFetches none
  calls := []

theorem idle_accepted (id : UInt32) : Accepted (idle id) :=
  ⟨fun full => Option.some_ne_none 0 full, Nat.le_of_ble_eq_true rfl, fun full => Option.some_ne_none 0 full⟩

theorem sf_url_iff_seven :
    ∃ c, (cercoSfSubmitRaw (idle 7) (some 1) 0 4).calls = (idle 7).calls ++ [c] ∧
      (RoundTrip (idle 7).body.id c ↔ (idle 7).body.id.toNat < 1000 ∧
        Room ((idle 7).scratch.skip 13) (sfPrefix ++ decimal (idle 7).body.id.toNat ++ [0]).length) :=
  sf_url_iff (idle 7) (idle_accepted 7) (some 1) 0 4

/-- The host is given 33 bytes for the function 1000. -/
theorem four_digits_overlap : Accepted (idle 1000) ∧
    ∃ c, (cercoSfSubmitRaw (idle 1000) (some 1) 0 4).calls = [c] ∧
      c.url = some (ascii "/__cerco/sf/1000/" ++ List.replicate 16 0) ∧ ¬ RoundTrip 1000 c := by
  refine ⟨idle_accepted 1000, ⟨0, ascii "POST", some (ascii "/__cerco/sf/1000/" ++ List.replicate 16 0),
    [0, 0, 0, 0]⟩, by decide +kernel, rfl, fun h => ?_⟩
  have text := h.text
  revert text
  decide

/-- URL and body that a call asks the host for. -/
def asked (s : StageSt) : StageOp → Option (Bytes × Bytes)
  | .get url _ => some (url.1, [])
  | .post url data len _ _ => some (url.1, bodyOf data len)
  | .sfSubmit _ _ _ => some (sfUrl s.body.id, (frameHeader s.body).frame)
  | .query _ | .sfBegin _ _ | .sfArg _ => none

def Stageable (s : Scratch) (url body : Bytes) : Prop :=
  Room s (url.length + 1) ∧ (body = [] ∨ Room (s.skip (url.length + 1)) body.length)

/-- The host is given this request or none, and none if it cannot be staged. -/
structure Served (s s' : StageSt) (url body : Bytes) : Prop where
  sent : s'.calls = s.calls ∨ ∃ id method, s'.calls = s.calls ++ [⟨id, method, some url, body⟩]
  refused : ¬ Stageable s.scratch url body → s'.calls = s.calls ∧ s'.fetches = s.fetches

def Faithful (s : StageSt) (op : StageOp) : Prop :=
  match asked s op with
  | none => (op.run s).calls = s.calls
  | some r => Served s (op.run s) r.1 r.2

/-- A request is turned away for want of a table entry, or all that the code copies for it fits. -/
def Fitting (s : StageSt) : StageOp → Prop
  | .get url _ => fetchReserve s.fetches = none ∨ Stageable s.scratch url.1 []
  | .post url data len _ _ => fetchReserve s.fetches = none ∨ Stageable s.scratch url.1 (bodyOf data len)
  | .sfSubmit _ _ _ => ¬ Accepted s ∨
      s.body.id.toNat < 1000 ∧ Stageable (s.scratch.skip 13) (sfUrl s.body.id) (frameHeader s.body).frame
  | .query _ | .sfBegin _ _ | .sfArg _ => True

theorem served_quiet {s s' : StageSt} (calls : s'.calls = s.calls) (fetches : s'.fetches = s.fetches)
    (url body : Bytes) : Served s s' url body :=
  ⟨.inl calls, fun _ => ⟨calls, fetches⟩⟩

theorem served_call {s s' : StageSt} {c : HostCall} {url body : Bytes} (h : s'.calls = s.calls ++ [c]) :
    Served s s' url body ↔ c.url = some url ∧ c.body = body ∧ Stageable s.scratch url body := by
  have more : s'.calls ≠ s.calls := by
    rw [h]
    simp
  constructor
  · intro served
    have staged : Stageable s.scratch url body :=
      Classical.not_not.mp fun none => more (served.refused none).1
    obtain quiet | ⟨id, method, e⟩ := served.sent
    · exact absurd quiet more
    · obtain rfl : c = ⟨id, method, some url, body⟩ := by simpa using h.symm.trans e
      exact ⟨rfl, rfl, staged⟩
  · rintro ⟨hurl, hbody, staged⟩
    refine ⟨.inr ⟨c.entry, c.method, ?_⟩, fun none => absurd staged none⟩
    rw [h, ← hurl, ← hbody]

theorem get_calls {s : StageSt} {id : ℕ} (h : fetchReserve s.fetches = some id) (url : CStr) (f : PendingFetch) :
    (cercoHttpGet s url f).calls = s.calls ++
      [⟨id, ascii "GET", sentUrl s.scratch (.text url) none 0, sentBody s.scratch (.text url) none 0⟩] := by
  unfold cercoHttpGet
  rw [h]
  rfl

theorem get_full {s : StageSt} (h : fetchReserve s.fetches = none) (url : CStr) (f : PendingFetch) :
    cercoHttpGet s url f = s := by
  rw [cercoHttpGet, h]

theorem sent_text {s : Scratch} {t : CStr} {data : Option Bytes} {len : ℤ} (room : ∀ d ∈ data, len ≤ d.length) :
    (sentUrl s (.text t) data len = some t.1 ∧ sentBody s (.text t) data len = bodyOf data len) ↔
      Stageable s t.1 (bodyOf data len) := by
  by_cases h : Room s (t.1.length + 1)
  · have read := (staged_text h).read data len
    have body := copyBody_read (s := (scratchStrdup s (.text t)).2) room
    have first := scratchStrdup_room (.text t) h
    have url : sentUrl s (.text t) data len = some t.1 := by
      rw [sentUrl, first]
      rwa [first] at read
    have rest : sentBody s (.text t) data len = bodyOf data len ↔
        bodyOf data len = [] ∨ Room (s.skip (t.1.length + 1)) (bodyOf data len).length := by
      rw [first] at body
      rw [sentBody, first]
      exact body
    rw [rest]
    exact ⟨fun sent => ⟨h, sent.2⟩, fun staged => ⟨url, staged.2⟩⟩
  · refine ⟨fun sent => ?_, fun staged => absurd staged.1 h⟩
    rw [sentUrl, scratchStrdup_full (.text t) h] at sent
    cases sent.1

theorem Stageable.earlier {s : Scratch} {k : ℕ} {url body : Bytes} (h : Stageable (s.skip k) url body) :
    Stageable s url body := by
  refine ⟨h.1.mono rfl (Nat.le_add_right _ _), h.2.imp_right fun room => room.mono rfl ?_⟩
  change s.off + rounded (url.length + 1) ≤ s.off + rounded k + rounded (url.length + 1)
  omega

theorem sent_sf (s : Scratch) (b : SfBuf) :
    (sfSent s b.id (some b.frame) b.len = some (sfUrl b.id) ∧
        sentBody (sfUrlFor s b.id).2 (.ptr (sfUrlFor s b.id).1) (some b.frame) b.len = b.frame) ↔
      b.id.toNat < 1000 ∧ Stageable (s.skip 13) (sfUrl b.id) b.frame := by
  have whole : bodyOf (some b.frame) b.len = b.frame := by
    rw [bodyOf, Option.getD_some, Int.toNat_natCast]
    exact List.take_of_length_le (Nat.le_of_eq (load_length _ _ _))
  rw [sfSent_iff, and_assoc]
  refine and_congr_right fun _ => and_congr_right fun room => ?_
  obtain ⟨m, _, first, second, _⟩ := sfUrl_copied b.id (room_first room)
  have read := @copyBody_read (copied s b.id m) (some b.frame) b.len (by
    intro d hd
    rw [← Option.some.inj hd]
    exact Int.ofNat_le.mpr (Nat.le_of_eq (load_length _ _ _).symm))
  rw [whole] at read
  rw [first, sentBody, second room]
  exact read

theorem text_served {s s' : StageSt} {url : CStr} {data : Option Bytes} {len : ℤ} {method : Bytes}
    (room : ∀ d ∈ data, len ≤ d.length) (quiet : fetchReserve s.fetches = none → s' = s)
    (sent : ∀ id, fetchReserve s.fetches = some id → s'.calls = s.calls ++
      [⟨id, method, sentUrl s.scratch (.text url) data len, sentBody s.scratch (.text url) data len⟩]) :
    Served s s' url.1 (bodyOf data len) ↔
      fetchReserve s.fetches = none ∨ Stageable s.scratch url.1 (bodyOf data len) := by
  cases h : fetchReserve s.fetches with
  | none =>
    rw [quiet h]
    exact ⟨fun _ => .inl rfl, fun _ => served_quiet (by rfl) (by rfl) _ _⟩
  | some id =>
    rw [served_call (sent id h), ← and_assoc, sent_text room]
    constructor
    · exact fun served => .inr served.2
    · rintro (none | staged)
      · cases none
      · exact ⟨staged, staged⟩

theorem submit_served (s : StageSt) (cb : Option ℕ) (user : ℕ) (want : UInt8) :
    Served s (cercoSfSubmitRaw s cb user want) (sfUrl s.body.id) (frameHeader s.body).frame ↔
      ¬ Accepted s ∨ s.body.id.toNat < 1000 ∧
        Stageable (s.scratch.skip 13) (sfUrl s.body.id) (frameHeader s.body).frame := by
  by_cases h : Accepted s
  · obtain ⟨id, sent⟩ := submit_calls h cb user want
    have whole := sent_sf s.scratch (frameHeader s.body)
    change (sfSent s.scratch s.body.id _ _ = _ ∧ _) ↔ _ at whole
    rw [served_call sent, ← and_assoc]
    constructor
    · exact fun served => .inr (whole.mp served.1)
    · rintro (refused | fits)
      · exact absurd h refused
      · exact ⟨whole.mpr fits, fits.2.earlier⟩
  · refine ⟨fun _ => .inl h, fun _ => ?_⟩
    unfold cercoSfSubmitRaw
    cases submitted : sfSubmitRaw s.pending s.body cb user want with
    | none => exact served_quiet (by rfl) (by rfl) _ _
    | some r =>
      have full : fetchReserve s.fetches = none := by
        by_contra entry
        unfold sfSubmitRaw at submitted
        split at submitted
        · cases submitted
        · rename_i slot free
          split at submitted
          · cases submitted
          · exact h ⟨by rw [free]; exact Option.some_ne_none slot, by omega, entry⟩
      obtain ⟨slot, body, pending⟩ := r
      dsimp only
      rw [post_full (by exact full)]
      exact served_quiet (by rfl) (by rfl) _ _

theorem faithful_iff (s : StageSt) (op : StageOp) : Faithful s op ↔ Fitting s op := by
  cases op with
  | get url f =>
    exact @text_served s (cercoHttpGet s url f) url none 0 _ (fun d hd => by cases hd) (fun none => get_full none url f)
      fun id h => get_calls h url f
  | post url data len room f =>
    exact text_served room (fun none => post_full none (.text url) data len f)
      fun id h => post_calls h (.text url) data len f
  | query selector => exact ⟨fun _ => trivial, fun _ => rfl⟩
  | sfBegin id nargs => exact ⟨fun _ => trivial, fun _ => rfl⟩
  | sfArg call => exact ⟨fun _ => trivial, fun _ => rfl⟩
  | sfSubmit cb user want => exact submit_served s cb user want

/-- The host is asked for what the application asked for exactly as long as everything that is
copied into the region fits. -/
theorem fetched_iff_asked (s : StageSt) (ops : List StageOp) :
    EachStep StageOp.run Faithful s ops ↔ EachStep StageOp.run Fitting s ops :=
  eachStep_congr faithful_iff s ops

def fill (n : ℕ) : CStr := ⟨List.replicate n 97, fun h => absurd (List.eq_of_mem_replicate h) (by decide)⟩

def slash : CStr := ⟨ascii "/", by decide⟩

theorem get_null {s : StageSt} {id : ℕ} (h : fetchReserve s.fetches = some id) {url : CStr}
    (full : ¬ Room s.scratch (url.1.length + 1)) (f : PendingFetch) :
    (cercoHttpGet s url f).calls = s.calls ++ [⟨id, ascii "GET", none, []⟩] := by
  rw [get_calls h, sentUrl, scratchStrdup_full (.text url) full]
  rfl

theorem query_fill {n : ℕ} (h : Room (idle 0).scratch (n + 1)) :
    (cercoQuery (idle 0) (fill n)).scratch.off = rounded (n + 1) := by
  have len : (fill n).1.length = n := List.length_replicate
  have room : Room (idle 0).scratch ((fill n).1.length + 1) := by rwa [len]
  rw [cercoQuery, scratchStrdup_room (.text (fill n)) room]
  change 0 + rounded ((fill n).1.length + 1) = _
  rw [len, Nat.zero_add]

/-- After a selector of 65535 bytes, a request is sent without its URL and keeps its entry. -/
theorem null_url_fetched :
    (cercoHttpGet (cercoQuery (idle 0) (fill 65535)) slash ⟨.app none, 0⟩).calls =
        [⟨0, ascii "GET", none, []⟩] ∧
      (cercoHttpGet (cercoQuery (idle 0) (fill 65535)) slash ⟨.app none, 0⟩).fetches[0]? =
        some (some ⟨.app none, 0⟩) ∧
      ¬ ∀ (s : StageSt) (ops : List StageOp), EachStep StageOp.run Faithful s ops := by
  have off : (cercoQuery (idle 0) (fill 65535)).scratch.off = 65536 := query_fill (by decide)
  have full : ¬ Room (cercoQuery (idle 0) (fill 65535)).scratch (slash.1.length + 1) := by
    intro room
    have fits := (room_iff.mp room).2
    have two : rounded (slash.1.length + 1) = 8 := rfl
    omega
  have entry : fetchReserve (cercoQuery (idle 0) (fill 65535)).fetches = some 0 := rfl
  refine ⟨get_null entry full _, rfl, fun all => ?_⟩
  have step := (all (idle 0) [.query (fill 65535), .get slash ⟨.app none, 0⟩]).2.1
  obtain none | staged := (faithful_iff _ _).mp step
  · exact absurd (none.symm.trans entry) (by simp)
  · exact full staged.1

end Cerco.StagedRequests
