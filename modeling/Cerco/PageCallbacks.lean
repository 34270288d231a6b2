import Cerco.ClientFetch
import Cerco.ClientHeap

set_option autoImplicit false

/-!
# Callbacks and the page they belong to

The heap and the request tables of one client. A navigation rewinds the heap and
leaves both tables alone, so a request of the page that is left can still be
answered. `given`, `issued`, `rewinds` and `invoked` are history: the blocks page
code got, which request filled a slot, what each rewind gave up, and the callbacks
that ran.
-/
namespace Cerco.PageCallbacks
open Cerco.BumpRegions Cerco.TransitionRuns Cerco.ClientFetch
open Cerco.ClientHeap (HeapSt heapInit heapStep)
open Cerco.ClientBody (freeSlot)

/-- A rewind: how many requests had been made, and the blocks of page code. -/
structure Rewind where
  count : ℕ
  given : List Region

/-- A callback that ran: the request it was passed with, its user pointer, and the
rewinds before it. -/
structure Invoked where
  num : ℕ
  user : ℕ
  rewinds : List Rewind

structure PageSt where
  heap : HeapSt
  client : ClientSt
  given : List Region
  issued : ℕ → ℕ
  rewinds : List Rewind
  invoked : List Invoked

inductive Event
  | heap (e : ClientHeap.Event)
  | client (e : ClientFetch.Event)

def givenAfter (s : PageSt) : ClientHeap.Event → List Region
  | .alloc n grants =>
    match ClientHeap.cercoAlloc s.heap grants none n with
    | some _ => ⟨s.heap.heapPtr, n⟩ :: s.given
    | none => s.given
  | _ => s.given

/-- The request and user pointer of the callback that `cerco_fetch_done` runs for `h`,
through `sf_done_common` for a server function. -/
def callback (s : PageSt) (h : HostFetch) : Option (ℕ × ℕ) :=
  match s.client.fetches[h.id]? with
  | some (some ⟨.app (some _), user⟩) => some (h.num, user)
  | some (some ⟨.sfDone, slot⟩) =>
    match s.client.pending[slot]? with
    | some ⟨some _, user, _⟩ => some (s.issued slot, user)
    | _ => none
  | _ => none

def afterClient (s : PageSt) (c : ClientSt) : ClientFetch.Event → PageSt
  | .submit _ _ _ _ =>
    match freeSlot s.client.pending with
    | none => { s with client := c }
    | some slot =>
      { s with
        client := c
        heap := ClientHeap.httpStart s.heap
        issued := Function.update s.issued slot s.client.count }
  | .http _ _ _ => { s with client := c, heap := ClientHeap.httpStart s.heap }
  | .navigate _ =>
    { s with
      client := c
      heap := ClientHeap.cercoNavigate s.heap
      rewinds := ⟨s.client.count, s.given⟩ :: s.rewinds }
  | .respond num _ =>
    match outstanding s.client num with
    | none => { s with client := c }
    | some h =>
      { s with
        client := c
        heap := ClientHeap.fetchDone s.heap h.id
        invoked := s.invoked ++
          (callback s h).toList.map fun call => ⟨call.1, call.2, s.rewinds⟩ }

def ownStep : ClientHeap.Event → Bool
  | .httpStart => false
  | .fetchDone _ => false
  | .navigate => false
  | _ => true

def pageStep (s : PageSt) : Event → Option PageSt
  | .heap e =>
    if ownStep e then
      (heapStep s.heap e).map fun heap => { s with heap := heap, given := givenAfter s e }
    else none
  | .client e => (clientStep s.client e).map fun c => afterClient s c e

def bootPage (heapBase pages : ℕ) (location : List UInt8) : PageSt :=
  { heap := heapInit heapBase pages
    client := boot location
    given := []
    issued := fun _ => 0
    rewinds := []
    invoked := [] }

def pageSystem : System PageSt Event where
  start s := ∃ heapBase pages location, s = bootPage heapBase pages location
  step := pageStep

def Within (u : ℕ) (r : Region) : Prop := r.base ≤ u ∧ u < r.stop

/-- The request was made before this rewind, and its user pointer goes into memory that
page code had got by then. -/
def Outlives (num user : ℕ) (w : Rewind) : Prop := num < w.count ∧ ∃ r ∈ w.given, Within user r

/-- No callback ran after a rewind that it outlived. -/
def NoLateCallback (s : PageSt) : Prop := ∀ i ∈ s.invoked, ∀ w ∈ i.rewinds, ¬ Outlives i.num i.user w

/-- A page is only left when no outstanding request has a callback, in either table,
whose user pointer goes into a block of page code. -/
def Settled (s : PageSt) : Event → Prop
  | .client (.navigate _) => ∀ h ∈ s.client.inflight, ∀ call ∈ callback s h, ∀ r ∈ s.given,
      ¬ Within call.2 r
  | _ => True

structure PageInv (s : PageSt) : Prop where
  tables : Tables s.client
  past : ∀ w ∈ s.rewinds, w.count ≤ s.client.count
  waiting : ∀ h ∈ s.client.inflight, ∀ call, callback s h = some call →
    ∀ w ∈ s.rewinds, ¬ Outlives call.1 call.2 w
  ran : NoLateCallback s

def owed (pending : List ClientBody.Pending) (issued : ℕ → ℕ) (h : HostFetch) : Option (ℕ × ℕ) :=
  match h.issue with
  | .app (some _) user => some (h.num, user)
  | .sf slot _ _ =>
    match pending[slot]? with
    | some ⟨some _, user, _⟩ => some (issued slot, user)
    | _ => none
  | _ => none

theorem callback_eq {s : PageSt} {h : HostFetch} (tables : Tables s.client)
    (hh : h ∈ s.client.inflight) : callback s h = owed s.client.pending s.issued h := by
  unfold callback owed
  rw [tables.entry h hh]
  cases h.issue with
  | sf slot cb user => rfl
  | nav => rfl
  | app cb user => cases cb <;> rfl

/-- A new entry of the pending table is owed to its own request; the others are as before. -/
theorem owed_set {pending : List ClientBody.Pending} {issued : ℕ → ℕ} {slot num : ℕ}
    {p : ClientBody.Pending} (bound : slot < pending.length) {h : HostFetch} {call : ℕ × ℕ}
    (hc : owed (pending.set slot p) (Function.update issued slot num) h = some call) :
    owed pending issued h = some call ∨ call.1 = num := by
  unfold owed at hc ⊢
  split at hc
  · exact .inl hc
  · rename_i other cb user hi
    by_cases same : other = slot
    · subst same
      rw [List.getElem?_set_self bound, Function.update_self] at hc
      split at hc
      · exact .inr (congrArg Prod.fst (Option.some.inj hc)).symm
      · cases hc
    · rw [List.getElem?_set_ne (Ne.symm same), Function.update_of_ne same] at hc
      exact .inl hc
  · cases hc

theorem owed_clear {pending : List ClientBody.Pending} {issued : ℕ → ℕ} {slot : ℕ}
    {p : ClientBody.Pending} (bound : slot < pending.length) {h : HostFetch} {call : ℕ × ℕ}
    (hc : owed (pending.set slot { p with cb := none }) issued h = some call) :
    owed pending issued h = some call := by
  unfold owed at hc ⊢
  split at hc
  · exact hc
  · rename_i other cb user hi
    by_cases same : other = slot
    · subst same
      rw [List.getElem?_set_self bound] at hc
      cases hc
    · rwa [List.getElem?_set_ne (Ne.symm same)] at hc
  · cases hc

theorem PageInv.frame {s t : PageSt} (h : PageInv s) (tables : Tables t.client)
    (count : s.client.count ≤ t.client.count) (rewinds : t.rewinds = s.rewinds)
    (ran : NoLateCallback t)
    (calls : ∀ k ∈ t.client.inflight, ∀ call, owed t.client.pending t.issued k = some call →
      (k ∈ s.client.inflight ∧ owed s.client.pending s.issued k = some call) ∨
        s.client.count ≤ call.1) : PageInv t := by
  refine ⟨tables, fun w hw => ?_, fun k hk call hc w hw outlives => ?_, ran⟩
  · rw [rewinds] at hw
    exact (h.past w hw).trans count
  · rw [rewinds] at hw
    rw [callback_eq tables hk] at hc
    rcases calls k hk call hc with ⟨old, owedBefore⟩ | new
    · exact h.waiting k old call ((callback_eq h.tables old).trans owedBefore) w hw outlives
    · exact absurd outlives.1 (Nat.not_lt.mpr ((h.past w hw).trans new))

theorem httpStart_inflight {s : ClientSt} {url : List UInt8} {f : PendingFetch} {issue : Issue}
    {k : HostFetch} (hk : k ∈ (httpStart s url f issue).inflight) :
    k ∈ s.inflight ∨ k.num = s.count ∧ k.issue = issue := by
  obtain e | ⟨id, _, e⟩ := httpStart_cases s url f issue
  · rw [e] at hk
    exact .inl hk
  · rw [e] at hk
    rcases List.mem_append.mp hk with old | new
    · exact .inl old
    · rw [List.mem_singleton.mp new]
      exact .inr ⟨rfl, rfl⟩

theorem httpStart_frame (s : ClientSt) (url : List UInt8) (f : PendingFetch) (issue : Issue) :
    (httpStart s url f issue).pending = s.pending ∧
      (httpStart s url f issue).count = s.count + 1 := by
  obtain e | ⟨id, _, e⟩ := httpStart_cases s url f issue <;> (rw [e]; exact ⟨rfl, rfl⟩)

theorem PageInv.submit {s : PageSt} (h : PageInv s) {url : List UInt8} {cb : Option ℕ} {user : ℕ}
    {want : UInt8} (tables : Tables (sfSubmit s.client url cb user want)) :
    PageInv (afterClient s (sfSubmit s.client url cb user want) (.submit url cb user want)) := by
  unfold afterClient
  cases hf : freeSlot s.client.pending with
  | none =>
    have same : sfSubmit s.client url cb user want = s.client := by rw [sfSubmit, hf]
    rw [same]
    exact h
  | some slot =>
    obtain ⟨p, hp, _⟩ := freeSlot_some hf
    have bound : slot < s.client.pending.length := (List.getElem?_eq_some_iff.mp hp).1
    have sent : sfSubmit s.client url cb user want = httpStart
        { s.client with pending := s.client.pending.set slot ⟨cb, user, want⟩ } url ⟨.sfDone, slot⟩
        (.sf slot cb user) := by rw [sfSubmit, hf]
    obtain ⟨pending, count⟩ := httpStart_frame
      { s.client with pending := s.client.pending.set slot ⟨cb, user, want⟩ } url ⟨.sfDone, slot⟩
      (.sf slot cb user)
    rw [← sent] at pending count
    refine h.frame tables (by rw [count]; exact Nat.le_succ _) rfl h.ran fun k hk call hc => ?_
    dsimp only at hk hc
    rw [pending] at hc
    rcases owed_set bound hc with old | new
    · rw [sent] at hk
      rcases httpStart_inflight hk with mem | ⟨num, issue⟩
      · exact .inl ⟨mem, old⟩
      · -- the new request is owed its own entry
        right
        unfold owed at hc
        rw [issue] at hc
        dsimp only at hc
        rw [List.getElem?_set_self bound, Function.update_self] at hc
        split at hc
        · exact Nat.le_of_eq (congrArg Prod.fst (Option.some.inj hc))
        · cases hc
    · exact .inr (Nat.le_of_eq new.symm)

theorem PageInv.http {s : PageSt} (h : PageInv s) {url : List UInt8} {cb : Option ℕ} {user : ℕ}
    (tables : Tables (httpStart s.client url ⟨.app cb, user⟩ (.app cb user))) :
    PageInv (afterClient s (httpStart s.client url ⟨.app cb, user⟩ (.app cb user))
      (.http url cb user)) := by
  obtain ⟨pending, count⟩ := httpStart_frame s.client url ⟨.app cb, user⟩ (.app cb user)
  refine h.frame tables (by rw [afterClient, count]; exact Nat.le_succ _) rfl h.ran
    fun k hk call hc => ?_
  simp only [afterClient] at hk hc
  rw [pending] at hc
  rcases httpStart_inflight hk with mem | ⟨num, issue⟩
  · exact .inl ⟨mem, hc⟩
  · right
    unfold owed at hc
    rw [issue] at hc
    cases cb with
    | none => cases hc
    | some cb =>
      rw [← Option.some.inj hc, num]

theorem PageInv.navigate {s : PageSt} (h : PageInv s) {path : NavCall}
    (settled : Settled s (.client (.navigate path))) (tables : Tables (cercoNavigate s.client path)) :
    PageInv (afterClient s (cercoNavigate s.client path) (.navigate path)) := by
  obtain ⟨pending, count⟩ := httpStart_frame
    { s.client with path := textAt path.kept path.current, lastNav := s.client.count } path.url ⟨.navPageDone, 0⟩ .nav
  have grown : s.client.count ≤ (cercoNavigate s.client path).count :=
    Nat.le_of_lt (Nat.lt_of_lt_of_eq (Nat.lt_succ_self _) count.symm)
  refine ⟨tables, fun w hw => ?_, fun k hk call hc w hw outlives => ?_, h.ran⟩
  · rcases List.mem_cons.mp hw with rfl | old
    · exact grown
    · exact (h.past w old).trans grown
  · have owes := (callback_eq tables hk).symm.trans hc
    change owed (cercoNavigate s.client path).pending s.issued k = some call at owes
    rw [show (cercoNavigate s.client path).pending = s.client.pending from pending] at owes
    rcases httpStart_inflight hk with mem | ⟨_, issue⟩
    · have before := (callback_eq h.tables mem).trans owes
      rcases List.mem_cons.mp hw with rfl | old
      · obtain ⟨_, r, hr, within⟩ := outlives
        exact settled k mem call before r hr within
      · exact h.waiting k mem call before w old outlives
    · unfold owed at owes
      rw [issue] at owes
      cases owes

theorem fetchDone_frame {s : ClientSt} (tables : Tables s) {k : HostFetch} (hk : k ∈ s.inflight)
    (r : Response) {c : ClientSt}
    (hc : fetchDone { s with inflight := s.inflight.filter fun l => l.num != k.num } k r = c) :
    c.inflight = (released s k).inflight ∧ c.count = s.count ∧
      (c.pending = s.pending ∨ ∃ slot p, s.pending[slot]? = some p ∧
        c.pending = s.pending.set slot { p with cb := none }) := by
  subst hc
  rw [respond_eq tables hk]
  split
  · obtain e | ⟨p, hp, ⟨_, e⟩ | ⟨_, _, e⟩⟩ := sfDone_cases (released s k) k _
    · rw [e]
      exact ⟨rfl, rfl, .inl rfl⟩
    · rw [e]
      exact ⟨rfl, rfl, .inr ⟨_, p, hp, rfl⟩⟩
    · rw [e]
      exact ⟨rfl, rfl, .inr ⟨_, p, hp, rfl⟩⟩
  · split
    · exact ⟨rfl, rfl, .inl rfl⟩
    · exact ⟨rfl, rfl, .inl rfl⟩
  · exact ⟨rfl, rfl, .inl rfl⟩

theorem PageInv.respond {s : PageSt} (h : PageInv s) {k : HostFetch} (hk : k ∈ s.client.inflight)
    (found : outstanding s.client k.num = some k) {r : Response} {c : ClientSt}
    (hc : fetchDone { s.client with
      inflight := s.client.inflight.filter fun l => l.num != k.num } k r = c) (tables : Tables c) :
    PageInv (afterClient s c (.respond k.num r)) := by
  obtain ⟨inflight, count, pending⟩ := fetchDone_frame h.tables hk r hc
  simp only [afterClient, found]
  refine h.frame tables (Nat.le_of_eq count.symm) rfl ?_ fun l hl call owes => ?_
  · intro i hi w hw
    rcases List.mem_append.mp hi with old | new
    · exact h.ran i old w hw
    · obtain ⟨call, ran, rfl⟩ := List.mem_map.mp new
      exact h.waiting k hk call (Option.mem_toList.mp ran) w hw
  · dsimp only at hl owes
    rw [inflight] at hl
    refine .inl ⟨(released_mem hl).1, ?_⟩
    rcases pending with same | ⟨slot, p, hp, cleared⟩
    · rwa [same] at owes
    · rw [cleared] at owes
      exact owed_clear (List.getElem?_eq_some_iff.mp hp).1 owes

theorem pageStep_inv {s t : PageSt} {e : Event} (h : PageInv s) (settled : Settled s e)
    (hs : pageStep s e = some t) : PageInv t := by
  cases e with
  | heap e =>
    have kept : t.client = s.client ∧ t.issued = s.issued ∧ t.rewinds = s.rewinds ∧
        t.invoked = s.invoked := by
      rw [pageStep] at hs
      split at hs
      · obtain ⟨heap, _, rfl⟩ := Option.map_eq_some_iff.mp hs
        exact ⟨rfl, rfl, rfl, rfl⟩
      · cases hs
    obtain ⟨client, issued, rewinds, invoked⟩ := kept
    refine h.frame (by rw [client]; exact h.tables) (Nat.le_of_eq (by rw [client])) rewinds ?_
      fun k hk call hc => ?_
    · unfold NoLateCallback
      rw [invoked]
      exact h.ran
    · rw [client] at hk hc
      rw [issued] at hc
      exact .inl ⟨hk, hc⟩
  | client e =>
    obtain ⟨c, hc, rfl⟩ := Option.map_eq_some_iff.mp hs
    have tables := h.tables.step hc
    obtain ⟨url, cb, user, want, rfl, rfl⟩ | ⟨path, rfl, rfl⟩ | ⟨url, cb, user, rfl, rfl⟩ |
      ⟨k, r, rfl, hk, done⟩ := clientStep_cases hc
    · exact h.submit tables
    · exact h.navigate settled tables
    · exact h.http tables
    · have found : outstanding s.client k.num = some k := by
        cases ho : outstanding s.client k.num with
        | none =>
          have miss := List.find?_eq_none.mp ho k hk
          simp at miss
        | some l =>
          obtain ⟨hl, same⟩ := outstanding_some ho
          rw [h.tables.nums l hl k hk same]
      exact h.respond hk found done.symm tables

theorem bootPage_inv (heapBase pages : ℕ) (location : List UInt8) :
    PageInv (bootPage heapBase pages location) := by
  refine ⟨boot_tables location, ?_, ?_, ?_⟩
  · intro w hw
    cases hw
  · intro k hk
    cases hk
  · intro i hi
    cases hi

/-- When every page is settled before it is left, no callback outlives its page. -/
theorem no_late_callback {s : PageSt} (h : Reach pageSystem Settled s) : NoLateCallback s := by
  have inv : PageInv s := h.invariant
    (by
      rintro _ ⟨heapBase, pages, location, rfl⟩
      exact bootPage_inv heapBase pages location)
    fun _ _ _ hi settled hs => pageStep_inv hi settled hs
  exact inv.ran

instance (u : ℕ) (r : Region) : Decidable (Within u r) := inferInstanceAs (Decidable (_ ∧ _))

instance (s : PageSt) : (e : Event) → Decidable (Settled s e)
  | .heap _ => .isTrue trivial
  | .client (.submit _ _ _ _) => .isTrue trivial
  | .client (.http _ _ _) => .isTrue trivial
  | .client (.respond _ _) => .isTrue trivial
  | .client (.navigate _) => inferInstanceAs (Decidable
      (∀ h ∈ s.client.inflight, ∀ call ∈ callback s h, ∀ r ∈ s.given, ¬ Within call.2 r))

instance (num user : ℕ) (w : Rewind) : Decidable (Outlives num user w) :=
  inferInstanceAs (Decidable (_ ∧ ∃ r ∈ w.given, Within user r))

instance (s : PageSt) : Decidable (NoLateCallback s) :=
  inferInstanceAs (Decidable (∀ i ∈ s.invoked, ∀ w ∈ i.rewinds, ¬ Outlives i.num i.user w))

def itemsUrl : List UInt8 := CString.ascii "/items"

def toItems : NavCall := literalPath itemsUrl (by decide) (by decide)

/-- A page that waits for the answer to its request before it is left. -/
def patientRun : List Event :=
  [.heap (.alloc 16 0), .client (.http itemsUrl (some 7) 66560), .client (.respond 1 emptyReply),
    .client (.navigate toItems), .heap (.alloc 16 0)]

theorem no_late_callback_patient :
    (execWhile pageSystem Settled (bootPage 66560 2 []) patientRun).isSome ∧
      ∀ s, execWhile pageSystem Settled (bootPage 66560 2 []) patientRun = some s →
        NoLateCallback s :=
  ⟨by decide +kernel, fun _ hs =>
    no_late_callback (execWhile_reach patientRun (.start ⟨66560, 2, [], rfl⟩) hs)⟩

def hastyRun : List Event :=
  [.heap (.alloc 16 0), .client (.http itemsUrl (some 7) 66560), .client (.navigate toItems),
    .heap (.alloc 16 0), .client (.respond 1 emptyReply)]

theorem callback_outlives_page : ¬ ∀ s, Reach pageSystem anyStep s → NoLateCallback s := by
  intro all
  obtain ⟨s, hs⟩ : ∃ s, exec pageSystem (bootPage 66560 2 []) hastyRun = some s :=
    Option.isSome_iff_exists.mp (by decide +kernel)
  have fine := all s
    (exec_reach hastyRun (.start ⟨66560, 2, [], rfl⟩) (fun _ _ _ => trivial) hs)
  have late : (exec pageSystem (bootPage 66560 2 []) hastyRun).map
      (fun s => decide (NoLateCallback s)) = some false := by decide +kernel
  rw [hs] at late
  exact of_decide_eq_false (Option.some.inj late) fine

end Cerco.PageCallbacks
