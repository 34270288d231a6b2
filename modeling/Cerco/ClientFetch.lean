import Cerco.ByteMemory
import Cerco.ClientBody
import Cerco.TransitionRuns
import Mathlib.Data.List.Nodup

set_option autoImplicit false

/-!
# Requests in flight on the client

Server functions and navigations share one table of pending fetches. The host
keeps its own list of outstanding requests and answers each once, in any order,
naming the table entry. `num` numbers the requests, and with `shown`, `lastNav`
and `delivered` it is history: the client stores none of it. What a callback does
is left to later steps, as it runs last.
-/
namespace Cerco.ClientFetch
open Cerco.ByteMemory Cerco.CString Cerco.ClientBody Cerco.TransitionRuns

/-- `strstr`: the text before the needle and the text behind it. -/
def strstr (needle : Bytes) : Bytes → Option (Bytes × Bytes)
  | [] => if needle = [] then some ([], []) else none
  | c :: s =>
    if needle.isPrefixOf (c :: s) then some ([], (c :: s).drop needle.length)
    else (strstr needle s).map fun cut => (c :: cut.1, cut.2)

def pageStart : Bytes := ascii "<!--cerco:page-->"
def pageEnd : Bytes := ascii "<!--cerco:/page-->"

/-- `extract_between`; nothing when a marker is missing. -/
def extractBetween (html start stop : Bytes) : Bytes :=
  match strstr start html with
  | none => []
  | some (_, s) =>
    match strstr stop s with
    | none => []
    | some (region, _) => region

/-- What the host reports of a request: status and body, or a failure of its own. -/
structure Response where
  status : Int
  body : Bytes
  swapped : Bool
deriving DecidableEq

/-- `nav_page_done` up to the swap; the scratch region is empty when it runs.
`swapped` is the answer of the host's `swap_page`. -/
def navSwaps (r : Response) : Bool :=
  let region := extractBetween (cstr r.body) pageStart pageEnd
  r.status == 200 && r.body.length != 0 && region.length != 0 && region.length ≤ 60000 && r.swapped

inductive HttpCb
  | sfDone
  | navPageDone
  | app (cb : Option ℕ)
deriving DecidableEq

structure PendingFetch where
  cb : HttpCb
  user : ℕ
deriving DecidableEq

inductive Issue
  | sf (slot : ℕ) (cb : Option ℕ) (user : ℕ)
  | nav
  | app (cb : Option ℕ) (user : ℕ)
deriving DecidableEq

structure HostFetch where
  id : ℕ
  num : ℕ
  url : Bytes
  issue : Issue
deriving DecidableEq

structure Delivered where
  req : HostFetch
  cb : ℕ
  user : ℕ
deriving DecidableEq

structure ClientSt where
  fetches : List (Option PendingFetch)
  pending : List Pending
  path : Bytes
  inflight : List HostFetch
  count : ℕ
  lastNav : ℕ
  shown : ℕ × Bytes
  delivered : List Delivered
  reloaded : Bool
deriving DecidableEq

def maxPendingFetches : ℕ := 32
def sfPendingMax : ℕ := 32
def pathRoom : ℕ := 511

/-- After `cerco_boot` at this location. -/
def boot (location : Bytes) : ClientSt :=
  { fetches := List.replicate maxPendingFetches none
    pending := List.replicate sfPendingMax ⟨none, 0, 0⟩
    path := location.take pathRoom
    inflight := []
    count := 1
    lastNav := 0
    shown := (0, location)
    delivered := []
    reloaded := false }

def fetchReserve (fetches : List (Option PendingFetch)) : Option ℕ := fetches.findIdx? (·.isNone)

/-- `cerco_http_get` and `cerco_http_post`: without a free entry nothing is sent. -/
def httpStart (s : ClientSt) (url : Bytes) (f : PendingFetch) (issue : Issue) : ClientSt :=
  match fetchReserve s.fetches with
  | none => { s with count := s.count + 1 }
  | some id =>
    { s with
      fetches := s.fetches.set id (some f)
      inflight := s.inflight ++ [⟨id, s.count, url, issue⟩]
      count := s.count + 1 }

/-- `cerco_sf_submit_raw` with a body that fits. -/
def sfSubmit (s : ClientSt) (url : Bytes) (cb : Option ℕ) (user : ℕ) (want : UInt8) : ClientSt :=
  match freeSlot s.pending with
  | none => s
  | some slot =>
    httpStart { s with pending := s.pending.set slot ⟨cb, user, want⟩ } url ⟨.sfDone, slot⟩
      (.sf slot cb user)

/-- A call of `cerco_navigate`: memory when it is made, the string that `path` points to, the place of
`g_current_path`, and the block that `cerco_scratch_strdup` gets, which is NULL when there is no room. -/
structure NavCall where
  mem : Mem
  path : ℕ
  text : Bytes
  current : ℕ
  copy : Option ℕ
  string : mem.string path (2 ^ 32) = some text

/-- The string at `p`. -/
def textAt (m : Mem) (p : ℕ) : Bytes := (m.string p (2 ^ 32)).getD []

/-- Memory with the path copied to `g_current_path`. -/
def NavCall.kept (c : NavCall) : Mem :=
  let n := min (textAt c.mem c.path).length pathRoom
  (c.mem.copyUp c.current c.path n).set (c.current + n) 0

/-- Memory with the path copied to the block. The scratch region was reset, so the block is the front of the
region, wherever the path lies. -/
def NavCall.staged (c : NavCall) : Mem :=
  match c.copy with
  | none => c.kept
  | some u => c.kept.copyUp u c.path ((textAt c.kept c.path).length + 1)

/-- What the host reads: the block, with the length that the path has by then. -/
def NavCall.url (c : NavCall) : Bytes := c.staged.load (c.copy.getD 0) (textAt c.staged c.path).length

/-- `cerco_navigate`, without the heap and the event slots. The block lies in the heap, behind `g_current_path`. -/
def cercoNavigate (s : ClientSt) (c : NavCall) : ClientSt :=
  httpStart { s with path := textAt c.kept c.current, lastNav := s.count } c.url ⟨.navPageDone, 0⟩ .nav

/-- `sf_done_common` as far as the slot goes. -/
def sfDone (s : ClientSt) (h : HostFetch) (slot : ℕ) : ClientSt :=
  match s.pending[slot]? with
  | none => s
  | some p =>
    let s := { s with pending := s.pending.set slot { p with cb := none } }
    match p.cb with
    | none => s
    | some cb => { s with delivered := s.delivered ++ [⟨h, cb, p.user⟩] }

/-- `cerco_fetch_done` for a request of the host. -/
def fetchDone (s : ClientSt) (h : HostFetch) (r : Response) : ClientSt :=
  match s.fetches[h.id]? with
  | some (some f) =>
    let s := { s with fetches := s.fetches.set h.id none }
    match f.cb with
    | .sfDone => sfDone s h f.user
    | .navPageDone => if navSwaps r then { s with shown := (h.num, h.url) } else { s with reloaded := true }
    | .app _ => s
  | _ => s

inductive Event
  | submit (url : Bytes) (cb : Option ℕ) (user : ℕ) (want : UInt8)
  | navigate (c : NavCall)
  | http (url : Bytes) (cb : Option ℕ) (user : ℕ)
  | respond (num : ℕ) (r : Response)

/-- The host has this request outstanding. -/
def outstanding (s : ClientSt) (num : ℕ) : Option HostFetch := s.inflight.find? fun h => h.num == num

def clientStep (s : ClientSt) (e : Event) : Option ClientSt :=
  -- a reload ends the life of the instance
  if s.reloaded then none
  else
    match e with
    | .submit url cb user want => some (sfSubmit s url cb user want)
    | .navigate c => some (cercoNavigate s c)
    | .http url cb user => some (httpStart s url ⟨.app cb, user⟩ (.app cb user))
    | .respond num r =>
      match outstanding s num with
      | none => none
      | some h => some (fetchDone { s with inflight := s.inflight.filter fun k => k.num != num } h r)

def clientSystem : System ClientSt Event where
  start s := ∃ location, s = boot location
  step := clientStep

/-- The entry that the call of a request leaves in `g_fetches`. -/
def Issue.entry : Issue → PendingFetch
  | .sf slot _ _ => ⟨.sfDone, slot⟩
  | .nav => ⟨.navPageDone, 0⟩
  | .app cb user => ⟨.app cb, user⟩

structure Tables (s : ClientSt) : Prop where
  entry : ∀ h ∈ s.inflight, s.fetches[h.id]? = some (some h.issue.entry)
  ids : ∀ h ∈ s.inflight, ∀ k ∈ s.inflight, h.id = k.id → h = k
  nums : ∀ h ∈ s.inflight, ∀ k ∈ s.inflight, h.num = k.num → h = k
  fresh : ∀ h ∈ s.inflight, h.num < s.count
  past : ∀ d ∈ s.delivered, d.req.num < s.count
  apart : ∀ d ∈ s.delivered, ∀ h ∈ s.inflight, d.req.num ≠ h.num
  once : (s.delivered.map fun d => d.req.num).Nodup

theorem fetchReserve_some {fetches : List (Option PendingFetch)} {id : ℕ}
    (h : fetchReserve fetches = some id) : fetches[id]? = some none := by
  obtain ⟨lt, free, _⟩ := List.findIdx?_eq_some_iff_getElem.mp h
  rw [List.getElem?_eq_getElem lt, Option.isNone_iff_eq_none.mp free]

theorem freeSlot_some {pending : List Pending} {slot : ℕ} (h : freeSlot pending = some slot) :
    ∃ p, pending[slot]? = some p ∧ p.cb = none := by
  obtain ⟨lt, free, _⟩ := List.findIdx?_eq_some_iff_getElem.mp h
  exact ⟨_, List.getElem?_eq_getElem lt, Option.isNone_iff_eq_none.mp free⟩

theorem outstanding_some {s : ClientSt} {num : ℕ} {h : HostFetch} (ho : outstanding s num = some h) :
    h ∈ s.inflight ∧ h.num = num :=
  ⟨List.mem_of_find?_eq_some ho, by simpa using List.find?_some ho⟩

theorem httpStart_cases (s : ClientSt) (url : Bytes) (f : PendingFetch) (issue : Issue) :
    httpStart s url f issue = { s with count := s.count + 1 } ∨
    ∃ id, s.fetches[id]? = some none ∧ httpStart s url f issue = { s with
      fetches := s.fetches.set id (some f)
      inflight := s.inflight ++ [⟨id, s.count, url, issue⟩]
      count := s.count + 1 } := by
  cases hr : fetchReserve s.fetches with
  | none => exact .inl (by rw [httpStart, hr])
  | some id => exact .inr ⟨id, fetchReserve_some hr, by rw [httpStart, hr]⟩

theorem Tables.httpStart {s : ClientSt} (h : Tables s) (url : Bytes) (issue : Issue) :
    Tables (httpStart s url issue.entry issue) := by
  obtain e | ⟨id, free, e⟩ := httpStart_cases s url issue.entry issue
  · rw [e]
    exact ⟨h.entry, h.ids, h.nums, fun k hk => Nat.lt_succ_of_lt (h.fresh k hk),
      fun d hd => Nat.lt_succ_of_lt (h.past d hd), h.apart, h.once⟩
  · have other : ∀ k ∈ s.inflight, k.id ≠ id := by
      intro k hk same
      have used := h.entry k hk
      rw [same, free] at used
      cases used
    have bound : id < s.fetches.length := (List.getElem?_eq_some_iff.mp free).1
    rw [e]
    refine ⟨?_, ?_, ?_, ?_, fun d hd => Nat.lt_succ_of_lt (h.past d hd), ?_, h.once⟩
    · intro k hk
      obtain hk | hk := List.mem_append.mp hk
      · change (s.fetches.set id (some issue.entry))[k.id]? = _
        rw [List.getElem?_set_ne (Ne.symm (other k hk))]
        exact h.entry k hk
      · rw [List.mem_singleton.mp hk]
        exact List.getElem?_set_self bound
    · intro k hk l hl same
      obtain hk | hk := List.mem_append.mp hk <;> obtain hl | hl := List.mem_append.mp hl
      · exact h.ids k hk l hl same
      · rw [List.mem_singleton.mp hl] at same
        exact absurd same (other k hk)
      · rw [List.mem_singleton.mp hk] at same
        exact absurd same.symm (other l hl)
      · rw [List.mem_singleton.mp hk, List.mem_singleton.mp hl]
    · intro k hk l hl same
      obtain hk | hk := List.mem_append.mp hk <;> obtain hl | hl := List.mem_append.mp hl
      · exact h.nums k hk l hl same
      · rw [List.mem_singleton.mp hl] at same
        exact absurd same (Nat.ne_of_lt (h.fresh k hk))
      · rw [List.mem_singleton.mp hk] at same
        exact absurd same.symm (Nat.ne_of_lt (h.fresh l hl))
      · rw [List.mem_singleton.mp hk, List.mem_singleton.mp hl]
    · intro k hk
      obtain hk | hk := List.mem_append.mp hk
      · exact Nat.lt_succ_of_lt (h.fresh k hk)
      · rw [List.mem_singleton.mp hk]
        exact Nat.lt_succ_self _
    · intro d hd k hk
      obtain hk | hk := List.mem_append.mp hk
      · exact h.apart d hd k hk
      · rw [List.mem_singleton.mp hk]
        exact Nat.ne_of_lt (h.past d hd)

/-- The state in which the answer to `h` is handled: it is no longer outstanding, and
its entry is free. -/
def released (s : ClientSt) (h : HostFetch) : ClientSt :=
  { s with
    inflight := s.inflight.filter fun k => k.num != h.num
    fetches := s.fetches.set h.id none }

theorem released_mem {s : ClientSt} {h k : HostFetch} (hk : k ∈ (released s h).inflight) :
    k ∈ s.inflight ∧ k.num ≠ h.num := by
  obtain ⟨mem, ne⟩ := List.mem_filter.mp hk
  exact ⟨mem, by simpa using ne⟩

theorem Tables.release {s : ClientSt} (h : Tables s) {k : HostFetch} (hk : k ∈ s.inflight) :
    Tables (released s k) := by
  refine ⟨?_, ?_, ?_, ?_, h.past, ?_, h.once⟩
  · intro l hl
    obtain ⟨mem, ne⟩ := released_mem hl
    change (s.fetches.set k.id none)[l.id]? = _
    rw [List.getElem?_set_ne]
    · exact h.entry l mem
    · intro same
      exact ne (by rw [h.ids k hk l mem same])
  · intro l hl m hm
    exact h.ids l (released_mem hl).1 m (released_mem hm).1
  · intro l hl m hm
    exact h.nums l (released_mem hl).1 m (released_mem hm).1
  · intro l hl
    exact h.fresh l (released_mem hl).1
  · intro d hd l hl
    exact h.apart d hd l (released_mem hl).1

theorem respond_eq {s : ClientSt} (h : Tables s) {k : HostFetch} (hk : k ∈ s.inflight) (r : Response) :
    fetchDone { s with inflight := s.inflight.filter fun l => l.num != k.num } k r =
      match k.issue with
      | .sf slot _ _ => sfDone (released s k) k slot
      | .nav => if navSwaps r then { released s k with shown := (k.num, k.url) }
          else { released s k with reloaded := true }
      | .app _ _ => released s k := by
  have used := h.entry k hk
  unfold fetchDone
  dsimp only
  rw [used]
  cases k.issue <;> rfl

theorem sfDone_cases (s : ClientSt) (h : HostFetch) (slot : ℕ) :
    sfDone s h slot = s ∨
    ∃ p, s.pending[slot]? = some p ∧
      (p.cb = none ∧ sfDone s h slot = { s with pending := s.pending.set slot { p with cb := none } } ∨
      ∃ cb, p.cb = some cb ∧ sfDone s h slot = { s with
        pending := s.pending.set slot { p with cb := none }
        delivered := s.delivered ++ [⟨h, cb, p.user⟩] }) := by
  unfold sfDone
  cases hp : s.pending[slot]? with
  | none => exact .inl rfl
  | some p =>
    refine .inr ⟨p, rfl, ?_⟩
    cases hc : p.cb with
    | none => exact .inl ⟨rfl, by simp only [hc]⟩
    | some cb => exact .inr ⟨cb, rfl, by simp only [hc]⟩

theorem Tables.delivered {s : ClientSt} (h : Tables s) {k : HostFetch} (hk : k ∈ s.inflight)
    (pending : List Pending) (cb user : ℕ) :
    Tables { released s k with
      pending := pending
      delivered := s.delivered ++ [⟨k, cb, user⟩] } := by
  have base := h.release hk
  refine ⟨base.entry, base.ids, base.nums, base.fresh, ?_, ?_, ?_⟩
  · intro d hd
    obtain hd | hd := List.mem_append.mp hd
    · exact h.past d hd
    · rw [List.mem_singleton.mp hd]
      exact h.fresh k hk
  · intro d hd l hl
    obtain hd | hd := List.mem_append.mp hd
    · exact base.apart d hd l hl
    · rw [List.mem_singleton.mp hd]
      exact Ne.symm (released_mem hl).2
  · change (List.map (fun d => d.req.num) (s.delivered ++ [(⟨k, cb, user⟩ : Delivered)])).Nodup
    rw [List.map_append, List.nodup_append]
    refine ⟨h.once, List.nodup_singleton _, ?_⟩
    intro a ha b hb
    obtain ⟨d, hd, rfl⟩ := List.mem_map.mp ha
    rw [List.mem_singleton.mp hb]
    exact h.apart d hd k hk

theorem Tables.respond {s : ClientSt} (h : Tables s) {k : HostFetch} (hk : k ∈ s.inflight)
    (r : Response) :
    Tables (fetchDone { s with inflight := s.inflight.filter fun l => l.num != k.num } k r) := by
  have base := h.release hk
  rw [respond_eq h hk]
  split
  · rename_i slot cb user _
    obtain e | ⟨p, _, ⟨_, e⟩ | ⟨cb, _, e⟩⟩ := sfDone_cases (released s k) k slot
    · rwa [e]
    · rw [e]
      exact ⟨base.entry, base.ids, base.nums, base.fresh, base.past, base.apart, base.once⟩
    · rw [e]
      exact h.delivered hk _ cb p.user
  · split
    · exact ⟨base.entry, base.ids, base.nums, base.fresh, base.past, base.apart, base.once⟩
    · exact ⟨base.entry, base.ids, base.nums, base.fresh, base.past, base.apart, base.once⟩
  · exact base

theorem boot_tables (location : Bytes) : Tables (boot location) := by
  refine ⟨?_, ?_, ?_, ?_, ?_, ?_, List.nodup_nil⟩
  all_goals intro k hk; cases hk

theorem clientStep_cases {s t : ClientSt} {e : Event} (h : clientStep s e = some t) :
    (∃ url cb user want, e = .submit url cb user want ∧ t = sfSubmit s url cb user want) ∨
    (∃ c, e = .navigate c ∧ t = cercoNavigate s c) ∨
    (∃ url cb user, e = .http url cb user ∧ t = httpStart s url ⟨.app cb, user⟩ (.app cb user)) ∨
    ∃ k r, e = .respond k.num r ∧ k ∈ s.inflight ∧
      t = fetchDone { s with inflight := s.inflight.filter fun l => l.num != k.num } k r := by
  unfold clientStep at h
  split at h
  · cases h
  · cases e with
    | submit url cb user want => exact .inl ⟨url, cb, user, want, rfl, (Option.some.inj h).symm⟩
    | navigate c => exact .inr (.inl ⟨c, rfl, (Option.some.inj h).symm⟩)
    | http url cb user => exact .inr (.inr (.inl ⟨url, cb, user, rfl, (Option.some.inj h).symm⟩))
    | respond num r =>
      dsimp only at h
      split at h
      · cases h
      · rename_i k ho
        obtain ⟨mem, rfl⟩ := outstanding_some ho
        exact .inr (.inr (.inr ⟨k, r, rfl, mem, (Option.some.inj h).symm⟩))

theorem sfSubmit_cases (s : ClientSt) (url : Bytes) (cb : Option ℕ) (user : ℕ) (want : UInt8) :
    sfSubmit s url cb user want = s ∨
    ∃ slot, freeSlot s.pending = some slot ∧ sfSubmit s url cb user want =
      httpStart { s with pending := s.pending.set slot ⟨cb, user, want⟩ } url
        (Issue.sf slot cb user).entry (.sf slot cb user) := by
  unfold sfSubmit
  cases hf : freeSlot s.pending with
  | none => exact .inl rfl
  | some slot => exact .inr ⟨slot, rfl, rfl⟩

theorem Tables.step {s t : ClientSt} {e : Event} (h : Tables s) (hs : clientStep s e = some t) :
    Tables t := by
  have same : ∀ (pending : List Pending) (path : Bytes) (lastNav : ℕ),
      Tables { s with pending := pending, path := path, lastNav := lastNav } := fun _ _ _ =>
    ⟨h.entry, h.ids, h.nums, h.fresh, h.past, h.apart, h.once⟩
  obtain ⟨url, cb, user, want, _, rfl⟩ | ⟨c, _, rfl⟩ | ⟨url, cb, user, _, rfl⟩ |
    ⟨k, r, _, hk, rfl⟩ := clientStep_cases hs
  · obtain e | ⟨slot, _, e⟩ := sfSubmit_cases s url cb user want
    · rwa [e]
    · rw [e]
      exact (same _ s.path s.lastNav).httpStart url (.sf slot cb user)
  · exact (same s.pending _ _).httpStart c.url .nav
  · exact h.httpStart url (.app cb user)
  · exact h.respond hk r

theorem reach_tables {ok : ClientSt → Event → Prop} {s : ClientSt} (h : Reach clientSystem ok s) :
    Tables s :=
  h.invariant (fun _ ⟨location, e⟩ => e ▸ boot_tables location) fun _ _ _ ht _ hs => ht.step hs

def HoldsSlot (h : HostFetch) (slot : ℕ) : Prop := ∃ cb user, h.issue = .sf slot cb user

/-- The slot that a submission takes is not that of an earlier call that passed a NULL
callback and waits for its reply. -/
def slotFree (s : ClientSt) : Event → Prop
  | .submit _ _ _ _ => ∀ h ∈ s.inflight, ∀ slot user, h.issue = .sf slot none user →
      freeSlot s.pending ≠ some slot
  | _ => True

structure Slots (s : ClientSt) : Prop where
  held : ∀ h ∈ s.inflight, ∀ slot cb user, h.issue = .sf slot cb user →
    ∃ w, s.pending[slot]? = some ⟨cb, user, w⟩
  slots : ∀ h ∈ s.inflight, ∀ k ∈ s.inflight, ∀ slot, HoldsSlot h slot → HoldsSlot k slot → h = k
  own : ∀ d ∈ s.delivered, ∃ slot, d.req.issue = .sf slot (some d.cb) d.user

theorem Slots.start {s : ClientSt} (h : Slots s) (url : Bytes) (f : PendingFetch) {issue : Issue}
    (other : ∀ slot cb user, issue ≠ .sf slot cb user) : Slots (httpStart s url f issue) := by
  obtain e | ⟨id, _, e⟩ := httpStart_cases s url f issue
  · rw [e]
    exact ⟨h.held, h.slots, h.own⟩
  · have new : ∀ slot, ¬ HoldsSlot ⟨id, s.count, url, issue⟩ slot := by
      rintro slot ⟨cb, user, e⟩
      exact other slot cb user e
    rw [e]
    refine ⟨?_, ?_, h.own⟩
    · intro k hk slot cb user hi
      obtain hk | hk := List.mem_append.mp hk
      · exact h.held k hk slot cb user hi
      · rw [List.mem_singleton.mp hk] at hi
        exact absurd ⟨cb, user, hi⟩ (new slot)
    · intro k hk l hl slot hks hls
      obtain hk | hk := List.mem_append.mp hk
      · obtain hl | hl := List.mem_append.mp hl
        · exact h.slots k hk l hl slot hks hls
        · rw [List.mem_singleton.mp hl] at hls
          exact absurd hls (new slot)
      · rw [List.mem_singleton.mp hk] at hks
        exact absurd hks (new slot)

theorem Slots.submit {s : ClientSt} (h : Slots s) {url : Bytes} {cb : Option ℕ} {user : ℕ} {want : UInt8}
    (ok : slotFree s (.submit url cb user want)) : Slots (sfSubmit s url cb user want) := by
  obtain e | ⟨slot, hf, e⟩ := sfSubmit_cases s url cb user want
  · rwa [e]
  · obtain ⟨p, hp, free⟩ := freeSlot_some hf
    have bound : slot < s.pending.length := (List.getElem?_eq_some_iff.mp hp).1
    have untouched : ∀ k ∈ s.inflight, ¬ HoldsSlot k slot := by
      rintro k hk ⟨c, u, hi⟩
      obtain ⟨w, hw⟩ := h.held k hk slot c u hi
      rw [hp] at hw
      cases hw
      cases free
      exact ok k hk slot u hi hf
    have held : ∀ k ∈ s.inflight, ∀ sl c u, k.issue = .sf sl c u →
        ∃ w, (s.pending.set slot ⟨cb, user, want⟩)[sl]? = some ⟨c, u, w⟩ := by
      intro k hk sl c u hi
      rw [List.getElem?_set_ne]
      · exact h.held k hk sl c u hi
      · rintro rfl
        exact untouched k hk ⟨c, u, hi⟩
    rw [e]
    obtain e | ⟨id, _, e⟩ := httpStart_cases { s with pending := s.pending.set slot ⟨cb, user, want⟩ } url
      (Issue.sf slot cb user).entry (.sf slot cb user)
    · rw [e]
      exact ⟨held, h.slots, h.own⟩
    · rw [e]
      refine ⟨?_, ?_, h.own⟩
      · intro k hk sl c u hi
        obtain hk | hk := List.mem_append.mp hk
        · exact held k hk sl c u hi
        · rw [List.mem_singleton.mp hk] at hi
          cases hi
          exact ⟨want, List.getElem?_set_self bound⟩
      · intro k hk l hl sl hks hls
        obtain hk | hk := List.mem_append.mp hk <;> obtain hl | hl := List.mem_append.mp hl
        · exact h.slots k hk l hl sl hks hls
        · rw [List.mem_singleton.mp hl] at hls
          obtain ⟨c, u, hi⟩ := hls
          cases hi
          exact absurd hks (untouched k hk)
        · rw [List.mem_singleton.mp hk] at hks
          obtain ⟨c, u, hi⟩ := hks
          cases hi
          exact absurd hls (untouched l hl)
        · rw [List.mem_singleton.mp hk, List.mem_singleton.mp hl]

theorem Slots.respond {s : ClientSt} (ht : Tables s) (h : Slots s) {k : HostFetch} (hk : k ∈ s.inflight)
    (r : Response) :
    Slots (fetchDone { s with inflight := s.inflight.filter fun l => l.num != k.num } k r) := by
  have rest : Slots (released s k) :=
    ⟨fun l hl => h.held l (released_mem hl).1,
      fun l hl m hm => h.slots l (released_mem hl).1 m (released_mem hm).1, h.own⟩
  rw [respond_eq ht hk]
  split
  · rename_i slot cb user hi
    obtain ⟨w, hw⟩ := h.held k hk slot cb user hi
    have held : ∀ p : Pending, ∀ l ∈ (released s k).inflight, ∀ sl c u, l.issue = .sf sl c u →
        ∃ w, (s.pending.set slot p)[sl]? = some ⟨c, u, w⟩ := by
      intro p l hl sl c u hli
      obtain ⟨mem, ne⟩ := released_mem hl
      rw [List.getElem?_set_ne]
      · exact h.held l mem sl c u hli
      · rintro rfl
        exact ne (by rw [h.slots l mem k hk slot ⟨c, u, hli⟩ ⟨cb, user, hi⟩])
    obtain e | ⟨p, hp, ⟨_, e⟩ | ⟨f, hc, e⟩⟩ := sfDone_cases (released s k) k slot
    · rwa [e]
    · rw [e]
      exact ⟨held _, rest.slots, rest.own⟩
    · rw [e]
      refine ⟨held _, rest.slots, ?_⟩
      intro d hd
      obtain hd | hd := List.mem_append.mp hd
      · exact h.own d hd
      · rw [List.mem_singleton.mp hd]
        change s.pending[slot]? = some p at hp
        rw [hw] at hp
        cases hp
        cases hc
        exact ⟨slot, hi⟩
  · split
    · exact ⟨rest.held, rest.slots, rest.own⟩
    · exact ⟨rest.held, rest.slots, rest.own⟩
  · exact rest

theorem Slots.step {s t : ClientSt} {e : Event} (ht : Tables s) (h : Slots s) (ok : slotFree s e)
    (hs : clientStep s e = some t) : Slots t := by
  obtain ⟨url, cb, user, want, rfl, rfl⟩ | ⟨c, _, rfl⟩ | ⟨url, cb, user, _, rfl⟩ |
    ⟨k, r, _, hk, rfl⟩ := clientStep_cases hs
  · exact h.submit ok
  · have same : Slots { s with path := textAt c.kept c.current, lastNav := s.count } := ⟨h.held, h.slots, h.own⟩
    refine same.start c.url _ ?_
    intro slot cb user e
    cases e
  · refine h.start url _ ?_
    intro slot cb user e
    cases e
  · exact h.respond ht hk r

def hasCallback (_ : ClientSt) : Event → Prop
  | .submit _ cb _ _ => cb.isSome
  | _ => True

def NoNull (s : ClientSt) : Prop :=
  ∀ h ∈ s.inflight, ∀ slot user, h.issue ≠ .sf slot none user

theorem NoNull.start {s : ClientSt} (h : NoNull s) (url : Bytes) (f : PendingFetch) {issue : Issue}
    (ok : ∀ slot user, issue ≠ .sf slot none user) : NoNull (httpStart s url f issue) := by
  obtain e | ⟨id, _, e⟩ := httpStart_cases s url f issue
  · rw [e]
    exact h
  · rw [e]
    intro k hk
    obtain hk | hk := List.mem_append.mp hk
    · exact h k hk
    · rw [List.mem_singleton.mp hk]
      exact ok

theorem NoNull.step {s t : ClientSt} {e : Event} (ht : Tables s) (h : NoNull s) (ok : hasCallback s e)
    (hs : clientStep s e = some t) : NoNull t := by
  obtain ⟨url, cb, user, want, rfl, rfl⟩ | ⟨c, _, rfl⟩ | ⟨url, cb, user, _, rfl⟩ |
    ⟨k, r, _, hk, rfl⟩ := clientStep_cases hs
  · obtain e | ⟨slot, _, e⟩ := sfSubmit_cases s url cb user want
    · rwa [e]
    · rw [e]
      have same : NoNull { s with pending := s.pending.set slot ⟨cb, user, want⟩ } := h
      refine same.start url _ ?_
      intro sl u hi
      cases hi
      cases ok
  · have same : NoNull { s with path := textAt c.kept c.current, lastNav := s.count } := h
    refine same.start c.url _ ?_
    intro slot user e
    cases e
  · refine h.start url _ ?_
    intro slot user e
    cases e
  · have rest : NoNull (released s k) := fun l hl => h l (released_mem hl).1
    rw [respond_eq ht hk]
    split
    · rename_i slot _ _ _
      obtain e | ⟨p, _, ⟨_, e⟩ | ⟨f, _, e⟩⟩ := sfDone_cases (released s k) k slot <;> rw [e] <;> exact rest
    · split <;> exact rest
    · exact rest

def callUrl : Bytes := ascii "/__cerco/sf/1"

def emptyReply : Response := ⟨200, [], false⟩

def twoCalls : List Event :=
  [.submit callUrl (some 7) 1 0, .submit callUrl (some 8) 2 0, .respond 2 emptyReply, .respond 1 emptyReply]

def answered : ClientSt := (exec clientSystem (boot []) twoCalls).getD (boot [])

/-- Once no page is outstanding, the one shown is that of the last navigation. -/
def Agrees (s : ClientSt) : Prop :=
  s.lastNav ≠ 0 → (∀ h ∈ s.inflight, h.issue ≠ .nav) → s.shown = (s.lastNav, s.path)

/-- The path fits, and neither of the two copies lands on it, unless it stands right there: it does not lie inside
`g_current_path` or inside the scratch region, behind the front of either. -/
def NavCall.Clear (c : NavCall) : Prop :=
  c.text.length ≤ pathRoom ∧ CopySafe c.current c.path (c.text.length + 1) ∧
    match c.copy with
    | none => False
    | some u => CopySafe u c.path (c.text.length + 1)

instance (c : NavCall) : Decidable c.Clear := by
  unfold NavCall.Clear
  cases c.copy <;> infer_instance

theorem textAt_string {m : Mem} {p : ℕ} {text : Bytes} (h : m.string p (2 ^ 32) = some text) : textAt m p = text := by
  rw [textAt, h]
  rfl

theorem NavCall.Clear.kept {c : NavCall} (h : c.Clear) :
    textAt c.kept c.current = c.text ∧ c.kept.string c.path (2 ^ 32) = some c.text := by
  obtain ⟨fits, apart, _⟩ := h
  have size : min (textAt c.mem c.path).length pathRoom = c.text.length := by
    rw [textAt_string c.string]
    exact Nat.min_eq_left fits
  have whole : c.kept = c.mem.copyUp c.current c.path (c.text.length + 1) := by
    funext x
    have front : CopySafe c.current c.path c.text.length := by
      unfold CopySafe at *
      omega
    unfold NavCall.kept
    rw [size, copyUp_safe c.mem apart]
    unfold Mem.set
    rw [copyUp_safe c.mem front]
    by_cases last : x = c.current + c.text.length
    · rw [if_pos last, if_pos (by omega), last, Nat.add_sub_cancel_left]
      exact ((string_eq_some.mp c.string).2.2.2).symm
    · rw [if_neg last]
      by_cases inside : c.current ≤ x ∧ x < c.current + c.text.length
      · rw [if_pos inside, if_pos (by omega)]
      · rw [if_neg inside, if_neg (by omega)]
  rw [whole]
  obtain ⟨there, here⟩ := string_copyUp c.string apart
  exact ⟨textAt_string there, here⟩

theorem NavCall.Clear.url {c : NavCall} (h : c.Clear) : c.url = c.text := by
  have kept := h.kept.2
  obtain ⟨_, _, apart⟩ := h
  cases hc : c.copy with
  | none =>
    rw [hc] at apart
    exact apart.elim
  | some u =>
    rw [hc] at apart
    obtain ⟨there, here⟩ := string_copyUp kept apart
    have staged : c.staged = c.kept.copyUp u c.path (c.text.length + 1) := by
      rw [NavCall.staged, hc]
      dsimp only
      rw [textAt_string kept]
    rw [NavCall.url, staged, hc, textAt_string here]
    exact (string_eq_some.mp there).2.1

/-- A navigation finds a free entry and its path can be copied; a page can be swapped in, and a
superseded one arrives before the page of the last navigation. -/
def pagesInOrder (s : ClientSt) : Event → Prop
  | .navigate c => fetchReserve s.fetches ≠ none ∧ c.Clear
  | .respond num r => ∀ h ∈ s.inflight, h.num = num → h.issue = .nav →
      navSwaps r = true ∧ (num = s.lastNav ∨ ∃ k ∈ s.inflight, k.num = s.lastNav)
  | _ => True

instance (s : ClientSt) (e : Event) : Decidable (pagesInOrder s e) := by
  cases e <;> unfold pagesInOrder <;> infer_instance

structure LastPage (s : ClientSt) : Prop where
  past : s.lastNav < s.count
  pos : ∀ h ∈ s.inflight, h.num ≠ 0
  last : ∀ h ∈ s.inflight, h.num = s.lastNav → h.issue = .nav ∧ h.url = s.path
  here : s.lastNav = 0 ∨ (∃ h ∈ s.inflight, h.num = s.lastNav) ∨ s.shown = (s.lastNav, s.path)

theorem boot_lastPage (location : Bytes) : LastPage (boot location) := by
  refine ⟨Nat.zero_lt_one, ?_, ?_, .inl rfl⟩
  all_goals intro k hk; cases hk

theorem LastPage.start {s : ClientSt} (h : LastPage s) (url : Bytes) (f : PendingFetch) (issue : Issue) :
    LastPage (httpStart s url f issue) := by
  have past := h.past
  obtain e | ⟨id, _, e⟩ := httpStart_cases s url f issue
  · rw [e]
    exact ⟨Nat.lt_succ_of_lt h.past, h.pos, h.last, h.here⟩
  · rw [e]
    refine ⟨Nat.lt_succ_of_lt h.past, ?_, ?_, ?_⟩
    · intro k hk
      obtain hk | hk := List.mem_append.mp hk
      · exact h.pos k hk
      · rw [List.mem_singleton.mp hk]
        change s.count ≠ 0
        omega
    · intro k hk same
      obtain hk | hk := List.mem_append.mp hk
      · exact h.last k hk same
      · rw [List.mem_singleton.mp hk] at same
        change s.count = s.lastNav at same
        omega
    · obtain zero | ⟨k, hk, same⟩ | shown := h.here
      · exact .inl zero
      · exact .inr (.inl ⟨k, List.mem_append_left _ hk, same⟩)
      · exact .inr (.inr shown)

theorem LastPage.navigate {s : ClientSt} (ht : Tables s) (h : LastPage s) {c : NavCall}
    (ok : pagesInOrder s (.navigate c)) : LastPage (cercoNavigate s c) := by
  obtain ⟨free, clear⟩ := ok
  have past := h.past
  obtain ⟨id, hr⟩ := Option.ne_none_iff_exists'.mp free
  have e : cercoNavigate s c = { s with
      path := textAt c.kept c.current
      lastNav := s.count
      fetches := s.fetches.set id (some ⟨.navPageDone, 0⟩)
      inflight := s.inflight ++ [⟨id, s.count, c.url, .nav⟩]
      count := s.count + 1 } := by
    unfold cercoNavigate httpStart
    dsimp only
    rw [hr]
  rw [e]
  refine ⟨Nat.lt_succ_self _, ?_, ?_, .inr (.inl ⟨_, List.mem_append_right _ (List.mem_singleton_self _), rfl⟩)⟩
  · intro k hk
    obtain hk | hk := List.mem_append.mp hk
    · exact h.pos k hk
    · rw [List.mem_singleton.mp hk]
      change s.count ≠ 0
      omega
  · intro k hk same
    obtain hk | hk := List.mem_append.mp hk
    · exact absurd same (Nat.ne_of_lt (ht.fresh k hk))
    · rw [List.mem_singleton.mp hk]
      exact ⟨rfl, clear.url.trans clear.kept.1.symm⟩

theorem LastPage.respond {s : ClientSt} (ht : Tables s) (h : LastPage s) {k : HostFetch}
    (hk : k ∈ s.inflight) {r : Response} (ok : pagesInOrder s (.respond k.num r)) :
    LastPage (fetchDone { s with inflight := s.inflight.filter fun l => l.num != k.num } k r) := by
  have pos : ∀ l ∈ (released s k).inflight, l.num ≠ 0 := fun l hl => h.pos l (released_mem hl).1
  have last : ∀ l ∈ (released s k).inflight, l.num = s.lastNav → l.issue = .nav ∧ l.url = s.path :=
    fun l hl => h.last l (released_mem hl).1
  have waits : ∀ l ∈ s.inflight, l.num = s.lastNav → k.num ≠ s.lastNav →
      ∃ m ∈ (released s k).inflight, m.num = s.lastNav := by
    intro l hl same other
    refine ⟨l, List.mem_filter.mpr ⟨hl, ?_⟩, same⟩
    rw [same]
    simpa using Ne.symm other
  by_cases page : k.issue = .nav
  · obtain ⟨swaps, turn⟩ := ok k hk rfl page
    rw [respond_eq ht hk, page]
    dsimp only
    rw [if_pos swaps]
    refine ⟨h.past, pos, last, ?_⟩
    by_cases newest : k.num = s.lastNav
    · refine .inr (.inr ?_)
      rw [newest, (h.last k hk newest).2]
      rfl
    · obtain e | ⟨l, hl, same⟩ := turn
      · exact absurd e newest
      · exact .inr (.inl (waits l hl same newest))
  · have other : k.num ≠ s.lastNav := fun e => page (h.last k hk e).1
    have here : s.lastNav = 0 ∨ (∃ m ∈ (released s k).inflight, m.num = s.lastNav) ∨
        s.shown = (s.lastNav, s.path) := by
      obtain zero | ⟨l, hl, same⟩ | shown := h.here
      · exact .inl zero
      · exact .inr (.inl (waits l hl same other))
      · exact .inr (.inr shown)
    rw [respond_eq ht hk]
    split
    · rename_i slot _ _ _
      obtain e | ⟨p, _, ⟨_, e⟩ | ⟨f, _, e⟩⟩ := sfDone_cases (released s k) k slot <;> rw [e] <;>
        exact ⟨h.past, pos, last, here⟩
    · rename_i nav
      exact absurd nav page
    · exact ⟨h.past, pos, last, here⟩

theorem LastPage.step {s t : ClientSt} {e : Event} (ht : Tables s) (h : LastPage s)
    (ok : pagesInOrder s e) (hs : clientStep s e = some t) : LastPage t := by
  obtain ⟨url, cb, user, want, rfl, rfl⟩ | ⟨c, rfl, rfl⟩ | ⟨url, cb, user, _, rfl⟩ |
    ⟨k, r, rfl, hk, rfl⟩ := clientStep_cases hs
  · obtain e | ⟨slot, _, e⟩ := sfSubmit_cases s url cb user want
    · rwa [e]
    · rw [e]
      have same : LastPage { s with pending := s.pending.set slot ⟨cb, user, want⟩ } :=
        ⟨h.past, h.pos, h.last, h.here⟩
      exact same.start url _ _
  · exact h.navigate ht ok
  · exact h.start url _ _
  · exact h.respond ht hk ok

/-- When pages arrive in order, the page shown is that of the last navigation as soon as
no page is outstanding. -/
theorem last_navigation_wins {s : ClientSt} (h : Reach clientSystem pagesInOrder s) : Agrees s := by
  have last : LastPage s :=
    h.invariant_with (fun _ => reach_tables) (fun _ ⟨location, e⟩ => e ▸ boot_lastPage location)
      fun _ _ _ ht hi ok hs => hi.step ht ok hs
  intro some quiet
  obtain zero | ⟨k, hk, same⟩ | shown := last.here
  · exact absurd zero some
  · exact absurd (last.last k hk same).1 (quiet k hk)
  · exact shown

def aPage : Response := ⟨200, ascii "<!--cerco:page-->a<!--cerco:/page-->", true⟩
def bPage : Response := ⟨200, ascii "<!--cerco:page-->b<!--cerco:/page-->", true⟩

/-- A path in the data of the program: the statics lie from 1024 on, and the scratch region from 65536 on. -/
def literalPath (text : Bytes) (fits : text.length < 2 ^ 32) (nulFree : 0 ∉ text) : NavCall where
  mem := Mem.write (fun _ => 0) 2048 text
  path := 2048
  text := text
  current := 1024
  copy := some 65536
  string := string_eq_some.mpr ⟨fits, load_write _ _ text, nulFree, write_outside _ text (.inr (Nat.le_refl _))⟩

/-- The path lies two bytes into the scratch region: its own copy ends it. -/
example : (NavCall.mk (Mem.write (fun _ => 0) 65538 (ascii "/a")) 65538 (ascii "/a") 1024 (some 65536)
    (by decide +kernel)).url = [] := by decide +kernel

def toA : NavCall := literalPath (ascii "/a") (by decide) (by decide)
def toB : NavCall := literalPath (ascii "/b") (by decide) (by decide)

def twoClicks : List Event := [.navigate toA, .navigate toB, .respond 1 aPage, .respond 2 bPage]

def visited : ClientSt := (exec clientSystem (boot [47]) twoClicks).getD (boot [47])

theorem last_navigation_wins_clicks : Agrees visited :=
  last_navigation_wins (execWhile_reach twoClicks (.start ⟨[47], rfl⟩) (by decide +kernel))

def swappedClicks : List Event :=
  [.navigate toA, .navigate toB, .respond 2 bPage, .respond 1 aPage]

def stale : ClientSt := (exec clientSystem (boot [47]) swappedClicks).getD (boot [47])

/-- The path is that of the second click and the page that of the first. -/
theorem superseded_page_shown : Reach clientSystem anyStep stale ∧ stale.inflight = [] ∧
    stale.path = ascii "/b" ∧ stale.shown = (1, ascii "/a") ∧ ¬ Agrees stale := by
  have quiet : stale.inflight = [] := by decide +kernel
  have shown : stale.shown = (1, ascii "/a") := by decide +kernel
  have nav : stale.lastNav = 2 := by decide +kernel
  refine ⟨exec_reach swappedClicks (.start ⟨[47], rfl⟩) (fun _ _ _ => trivial) (by decide +kernel),
    quiet, by decide +kernel, shown, fun h => ?_⟩
  have agree := h (by rw [nav]; decide) (by rw [quiet]; intro k hk; cases hk)
  rw [shown, nav] at agree
  exact absurd (congrArg Prod.fst agree) (by decide)

end Cerco.ClientFetch
