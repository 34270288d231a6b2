import Cerco.ByteMemory
import Cerco.BlockRuns
import Cerco.ClientDigits
import Cerco.ClientFetch
import Cerco.ClientReply

set_option autoImplicit false

/-!
# Staging requests in the scratch region

Outbound strings are copied into one region, one behind the other, until an event
is over. The copies are rounded up to eight bytes. Strings of the application are
values here, and its own memory is left out.
-/
namespace Cerco.ClientScratch
open Cerco.BlockRuns Cerco.ByteMemory Cerco.CString Cerco.ClientBody Cerco.ClientDigits Cerco.ClientFetch
open Cerco.Dispatch (sfPrefix sfIdLoop)
open Cerco.Response (decimal)
open Cerco.SfIds (sfPrefix_nulFree)
open Cerco.ClientReply (scratchFits scratchSize)
open Cerco.ServerFunctions (CStr sfBodyMax)

/-- `base` is NULL when the heap had no room for the region; `cerco_alloc` returns multiples of 16. -/
structure Scratch where
  mem : Mem
  base : Option { b : ℕ // 16 ≤ b }
  off : ℕ

def rounded (n : ℕ) : ℕ := (n + 7) / 8 * 8

def scratchAlloc (s : Scratch) (n : ℕ) : Option ℕ × Scratch :=
  match s.base with
  | none => (none, s)
  | some b =>
    if scratchFits s.off n then (some (b.1 + s.off), { s with off := s.off + rounded n }) else (none, s)

def strlen (m : Mem) (p : ℕ) : ℕ := ((m.string p (2 ^ 32)).map List.length).getD (2 ^ 32)

/-- A string of the application, or the pointer that `sf_url_for` returns. -/
inductive Src
  | text (t : CStr)
  | ptr (p : Option ℕ)

def Src.strlen (m : Mem) : Src → ℕ
  | .text t => t.1.length
  | .ptr p => ClientScratch.strlen m (p.getD 0)

/-- `memcpy` of the string with its NUL. -/
def Src.memcpy (m : Mem) (d n : ℕ) : Src → Mem
  | .text t => m.write d (t.1 ++ [0])
  | .ptr p => m.copyUp d (p.getD 0) n

def scratchStrdup (s : Scratch) (src : Src) : Option ℕ × Scratch :=
  let n := src.strlen s.mem + 1
  match scratchAlloc s n with
  | (none, s) => (none, s)
  | (some d, s) => (some d, { s with mem := src.memcpy s.mem d n })

def sfUrlPrefix : CStr := ⟨sfPrefix, sfPrefix_nulFree⟩

/-- `sf_url_for`: the digits go behind the copy of the prefix, which has 16 bytes. -/
def sfUrlFor (s : Scratch) (id : UInt32) : Option ℕ × Scratch :=
  match scratchStrdup s (.text sfUrlPrefix) with
  | (none, s) => (none, s)
  | (some url, s) =>
    (some url, { s with mem := s.mem.write (url + 12) ((tmpDigits id.toNat).reverse ++ [0]) })

/-- What `host_fetch` is given, as the host reads it; there is no URL behind a NULL pointer. -/
structure HostCall where
  entry : ℕ
  method : Bytes
  url : Option Bytes
  body : Bytes
deriving DecidableEq

structure StageSt where
  scratch : Scratch
  body : SfBuf
  pending : List Pending
  fetches : List (Option PendingFetch)
  calls : List HostCall

/-- The staged copy of a request body; `data` is NULL or has `len` bytes. -/
def copyBody (s : Scratch) (data : Option Bytes) (len : ℤ) : Option ℕ × Scratch :=
  match data with
  | none => (none, s)
  | some d =>
    if 0 < len then
      match scratchAlloc s len.toNat with
      | (none, s) => (none, s)
      | (some b, s) => (some b, { s with mem := s.mem.write b (d.take len.toNat) })
    else (none, s)

def readBlock (m : Mem) (p : Option ℕ) (n : ℕ) : Option Bytes := p.map fun p => m.load p n

def cercoHttpPost (s : StageSt) (url : Src) (data : Option Bytes) (len : ℤ) (f : PendingFetch) : StageSt :=
  match fetchReserve s.fetches with
  | none => s
  | some id =>
    let u := scratchStrdup s.scratch url
    let b := copyBody u.2 data len
    { s with
      scratch := b.2
      fetches := s.fetches.set id (some f)
      calls := s.calls ++ [⟨id, ascii "POST", readBlock b.2.mem u.1 (url.strlen b.2.mem),
        (readBlock b.2.mem b.1 len.toNat).getD []⟩] }

def cercoHttpGet (s : StageSt) (url : CStr) (f : PendingFetch) : StageSt :=
  match fetchReserve s.fetches with
  | none => s
  | some id =>
    let u := scratchStrdup s.scratch (.text url)
    { s with
      scratch := u.2
      fetches := s.fetches.set id (some f)
      calls := s.calls ++ [⟨id, ascii "GET", readBlock u.2.mem u.1 url.1.length, []⟩] }

/-- `cerco_query` as far as the region goes. -/
def cercoQuery (s : StageSt) (selector : CStr) : StageSt :=
  { s with scratch := (scratchStrdup s.scratch (.text selector)).2 }

def cercoSfSubmitRaw (s : StageSt) (cb : Option ℕ) (user : ℕ) (want : UInt8) : StageSt :=
  match sfSubmitRaw s.pending s.body cb user want with
  | none => s
  | some (slot, body, pending) =>
    let url := sfUrlFor s.scratch body.id
    cercoHttpPost { s with body, pending, scratch := url.2 } (.ptr url.1) (some body.frame) body.len ⟨.sfDone, slot⟩

inductive StageOp
  | get (url : CStr) (f : PendingFetch)
  | post (url : CStr) (data : Option Bytes) (len : ℤ) (room : ∀ d ∈ data, len ≤ d.length) (f : PendingFetch)
  | query (selector : CStr)
  | sfBegin (id nargs : UInt32)
  | sfArg (call : ArgCall)
  | sfSubmit (cb : Option ℕ) (user : ℕ) (want : UInt8)

def StageOp.run (s : StageSt) : StageOp → StageSt
  | .get url f => cercoHttpGet s url f
  | .post url data len _ f => cercoHttpPost s (.text url) data len f
  | .query selector => cercoQuery s selector
  | .sfBegin id nargs => { s with body := ClientBody.sfBegin s.body.mem id nargs }
  | .sfArg call => { s with body := call.run s.body }
  | .sfSubmit cb user want => cercoSfSubmitRaw s cb user want

/-- `cerco_scratch_alloc` does not return NULL. -/
def Room (s : Scratch) (n : ℕ) : Prop := s.base.isSome = true ∧ scratchFits s.off n = true

instance (s : Scratch) (n : ℕ) : Decidable (Room s n) := inferInstanceAs (Decidable (_ ∧ _))

def Scratch.addr (s : Scratch) : ℕ := (s.base.map (·.1)).getD 0 + s.off

def Scratch.skip (s : Scratch) (n : ℕ) : Scratch := { s with off := s.off + rounded n }

@[simp] theorem addr_skip (s : Scratch) (n : ℕ) : (s.skip n).addr = s.addr + rounded n :=
  (Nat.add_assoc _ _ _).symm

theorem le_rounded (n : ℕ) : n ≤ rounded n := by
  unfold rounded
  omega

theorem room_iff {s : Scratch} {n : ℕ} :
    Room s n ↔ s.base.isSome = true ∧ s.off + rounded n ≤ 65536 := by
  unfold Room scratchFits rounded scratchSize
  rw [decide_eq_true_iff]

theorem Room.low {s : Scratch} {n : ℕ} (h : Room s n) : 16 ≤ s.addr := by
  obtain ⟨b, hb⟩ := Option.isSome_iff_exists.mp h.1
  have base := b.2
  unfold Scratch.addr
  rw [hb]
  exact Nat.le_add_right_of_le base

theorem Room.mono {s s' : Scratch} {n : ℕ} (h : Room s n) (base : s.base = s'.base) (off : s'.off ≤ s.off) :
    Room s' n := by
  have fits := (room_iff.mp h).2
  exact room_iff.mpr ⟨base ▸ h.1, by omega⟩

theorem scratchAlloc_room {s : Scratch} {n : ℕ} (h : Room s n) :
    scratchAlloc s n = (some s.addr, s.skip n) := by
  obtain ⟨given, fits⟩ := h
  obtain ⟨mem, base, off⟩ := s
  cases base with
  | none => cases given
  | some b => exact if_pos fits

theorem scratchAlloc_full {s : Scratch} {n : ℕ} (h : ¬ Room s n) : scratchAlloc s n = (none, s) := by
  unfold scratchAlloc
  cases hb : s.base with
  | none => rfl
  | some b => exact if_neg fun fits => h ⟨by rw [hb]; rfl, fits⟩

theorem scratchStrdup_room {s : Scratch} (src : Src) (h : Room s (src.strlen s.mem + 1)) :
    scratchStrdup s src = (some s.addr, { s.skip (src.strlen s.mem + 1) with
      mem := src.memcpy s.mem s.addr (src.strlen s.mem + 1) }) := by
  unfold scratchStrdup
  dsimp only
  rw [scratchAlloc_room h]
  rfl

theorem scratchStrdup_full {s : Scratch} (src : Src) (h : ¬ Room s (src.strlen s.mem + 1)) :
    scratchStrdup s src = (none, s) := by
  unfold scratchStrdup
  dsimp only
  rw [scratchAlloc_full h]

theorem strlen_text {m : Mem} {p : ℕ} {t : Bytes} (text : m.load p t.length = t) (free : 0 ∉ t)
    (stop : m (p + t.length) = 0) (short : t.length < 2 ^ 32) : strlen m p = t.length := by
  rw [strlen, string_eq_some.mpr ⟨short, text, free, stop⟩]
  rfl

theorem le_strlen {m : Mem} {p n : ℕ} (h : ∀ j < n, m (p + j) ≠ 0) (hn : n ≤ 2 ^ 32) : n ≤ strlen m p := by
  rw [strlen]
  cases ht : m.string p (2 ^ 32) with
  | none => exact hn
  | some t =>
    have stop := (string_eq_some.mp ht).2.2.2
    exact Nat.le_of_not_lt fun inside => h t.length inside stop

theorem strlen_congr {m m' : Mem} {p : ℕ} (short : strlen m p < 2 ^ 32)
    (h : ∀ x, p ≤ x → x ≤ p + strlen m p → m' x = m x) : strlen m' p = strlen m p := by
  cases ht : m.string p (2 ^ 32) with
  | none =>
    rw [strlen, ht] at short
    exact absurd short (Nat.lt_irrefl _)
  | some t =>
    have len : strlen m p = t.length := by rw [strlen, ht]; rfl
    obtain ⟨small, text, free, stop⟩ := string_eq_some.mp ht
    rw [len] at h ⊢
    refine strlen_text ?_ free ((h _ (by omega) (Nat.le_refl _)).trans stop) small
    exact (load_congr fun x lo hi => h x lo (by omega)).trans text

def bodyOf (data : Option Bytes) (len : ℤ) : Bytes := (data.getD []).take len.toNat

/-- The URL that `cerco_http_post` hands on, as the host reads it. -/
def sentUrl (s : Scratch) (url : Src) (data : Option Bytes) (len : ℤ) : Option Bytes :=
  let u := scratchStrdup s url
  let b := copyBody u.2 data len
  readBlock b.2.mem u.1 (url.strlen b.2.mem)

def sentBody (s : Scratch) (url : Src) (data : Option Bytes) (len : ℤ) : Bytes :=
  let b := copyBody (scratchStrdup s url).2 data len
  (readBlock b.2.mem b.1 len.toNat).getD []

/-- The copy at `p` is `t`, below what is still free, and the string that was copied has its length. -/
structure Staged (s : Scratch) (src : Src) (p : ℕ) (t : Bytes) : Prop where
  text : s.mem.load p t.length = t
  below : p + t.length ≤ s.addr
  length : ∀ m : Mem, (∀ x < s.addr, m x = s.mem x) → src.strlen m = t.length

theorem copyBody_room {s : Scratch} {d : Bytes} {len : ℤ} (pos : 0 < len) (h : Room s len.toNat) :
    copyBody s (some d) len = (some s.addr, { s.skip len.toNat with mem := s.mem.write s.addr (d.take len.toNat) }) := by
  unfold copyBody
  dsimp only
  rw [if_pos pos, scratchAlloc_room h]
  rfl

theorem copyBody_full {s : Scratch} {data : Option Bytes} {len : ℤ}
    (h : data = none ∨ ¬ 0 < len ∨ ¬ Room s len.toNat) : copyBody s data len = (none, s) := by
  unfold copyBody
  cases data with
  | none => rfl
  | some d =>
    dsimp only
    split
    · rename_i pos
      have full : ¬ Room s len.toNat := by
        obtain none | short | full := h
        · cases none
        · exact absurd pos short
        · exact full
      rw [scratchAlloc_full full]
    · rfl

theorem copyBody_below (s : Scratch) (data : Option Bytes) (len : ℤ) {x : ℕ} (h : x < s.addr) :
    (copyBody s data len).2.mem x = s.mem x := by
  cases data with
  | none => rw [copyBody_full (.inl rfl)]
  | some d =>
    by_cases pos : 0 < len
    · by_cases room : Room s len.toNat
      · rw [copyBody_room pos room]
        exact write_outside _ _ (.inl h)
      · rw [copyBody_full (.inr (.inr room))]
    · rw [copyBody_full (.inr (.inl pos))]

theorem Staged.read {s : Scratch} {src : Src} {p : ℕ} {t : Bytes} (h : Staged s src p t)
    (data : Option Bytes) (len : ℤ) :
    readBlock (copyBody s data len).2.mem (some p) (src.strlen (copyBody s data len).2.mem) = some t := by
  have same : ∀ x < s.addr, (copyBody s data len).2.mem x = s.mem x := fun x hx => copyBody_below s data len hx
  have below := h.below
  rw [h.length _ same]
  refine congrArg some ((load_congr fun x _ hi => same x ?_).trans h.text)
  omega

/-- The host reads the body that was passed, or nothing where the region has no room for it. -/
theorem copyBody_read {s : Scratch} {data : Option Bytes} {len : ℤ} (room : ∀ d ∈ data, len ≤ d.length) :
    (readBlock (copyBody s data len).2.mem (copyBody s data len).1 len.toNat).getD [] = bodyOf data len ↔
      bodyOf data len = [] ∨ Room s (bodyOf data len).length := by
  unfold bodyOf
  cases data with
  | none =>
    rw [copyBody_full (.inl rfl), Option.getD_none, List.take_nil]
    exact ⟨fun _ => .inl rfl, fun _ => rfl⟩
  | some d =>
    have long := room d rfl
    rw [Option.getD_some]
    by_cases pos : 0 < len
    · have size : (d.take len.toNat).length = len.toNat := by
        rw [List.length_take]
        omega
      have filled : d.take len.toNat ≠ [] := by
        intro none
        rw [none, List.length_nil] at size
        omega
      rw [size]
      by_cases fits : Room s len.toNat
      · rw [copyBody_room pos fits]
        have stored := load_write s.mem s.addr (d.take len.toNat)
        rw [size] at stored
        exact ⟨fun _ => .inr fits, fun _ => stored⟩
      · rw [copyBody_full (.inr (.inr fits))]
        exact ⟨fun none => absurd none.symm filled, fun h => (h.elim filled fits).elim⟩
    · have none : d.take len.toNat = [] := by
        rw [Int.toNat_of_nonpos (by omega), List.take_zero]
      rw [copyBody_full (.inr (.inl pos)), none]
      exact ⟨fun _ => .inl rfl, fun _ => rfl⟩

theorem staged_text {s : Scratch} {t : CStr} (h : Room s (t.1.length + 1)) :
    Staged (scratchStrdup s (.text t)).2 (.text t) s.addr t.1 := by
  have space := le_rounded (t.1.length + 1)
  rw [scratchStrdup_room (.text t) h]
  refine ⟨?_, ?_, fun _ _ => rfl⟩
  · change (s.mem.write s.addr (t.1 ++ [0])).load s.addr t.1.length = t.1
    exact load_write_part s.mem s.addr [] t.1 [0]
  · change s.addr + t.1.length ≤ (s.skip (t.1.length + 1)).addr
    rw [addr_skip]
    omega

end Cerco.ClientScratch
