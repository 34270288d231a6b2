import Cerco.DomStream
import Cerco.TransitionRuns
import Mathlib.Logic.Function.Basic

set_option autoImplicit false

/-!
# Event slots and listeners

The client keeps the registered functions in a table whose length a navigation
resets, while the host keeps the slot numbers in its own map, from which it drops
only what it finds detached. The browser's document is known by which elements it
connects and contains; every change of it is part of the step that makes it.
`reg` and `calls` are history. What a handler does is left to later steps, as it
runs last; events on elements outside the document are left out.
-/
namespace Cerco.ClientEvents
open Cerco.TransitionRuns
open Cerco.DomStream (Cmd maxEventSlots)

abbrev Elem := ℕ

structure Dom where
  connected : Elem → Bool
  contains : Elem → Elem → Bool

structure Handler where
  fn : ℕ
  user : ℕ
deriving DecidableEq

/-- A slot number that is under way or in the map of the host, with the handler that
`cerco_on` was called with. -/
structure Entry where
  slot : ℕ
  reg : Handler
deriving DecidableEq

/-- A command in the buffer; `ADD_EVENT` keeps the handler it was made for. -/
inductive Queued
  | addEvent (id : ℕ) (type : List Char) (entry : Entry)
  | other (c : Cmd)
deriving DecidableEq

/-- A listener that `addEventListener` has put on an element. -/
structure Listener where
  elem : Elem
  id : ℕ
  type : List Char
deriving DecidableEq

/-- What `cerco_event` invoked, if anything, for an entry. -/
structure Call where
  entry : Entry
  got : Option Handler
deriving DecidableEq

/-- `slots` are `g_slots` up to `g_slot_count`. -/
structure PageSt where
  slots : List Handler
  pending : List Queued
  registry : ℕ → Option Elem
  handlers : ℕ → List Char → Option (List Entry)
  listeners : List Listener
  nextNodeId : ℕ
  dom : Dom
  calls : List Call

def body : Elem := 0

/-- The host after loading, before the roots are scanned. -/
def bootPage (dom : Dom) : PageSt :=
  { slots := []
    pending := []
    registry := fun id => if id = 1 then some body else none
    handlers := fun _ _ => none
    listeners := []
    nextNodeId := 10
    dom := dom
    calls := [] }

def cercoOn (s : PageSt) (node : ℕ) (type : List Char) (h : Handler) : PageSt :=
  if maxEventSlots ≤ s.slots.length then s
  else
    { s with
      slots := s.slots ++ [h]
      pending := s.pending ++ [.addEvent node type ⟨s.slots.length, h⟩] }

/-- `cerco_event_dispatch`: the handler it invokes. -/
def eventDispatch (s : PageSt) (slot : ℕ) : Option Handler := s.slots[slot]?

/-- `cerco_navigate` as far as the slots go. -/
def cercoNavigate (s : PageSt) : PageSt := { s with slots := [] }

def setHandlers (handlers : ℕ → List Char → Option (List Entry)) (id : ℕ) (type : List Char)
    (entries : List Entry) : ℕ → List Char → Option (List Entry) :=
  fun id' type' => if id' = id ∧ type' = type then some entries else handlers id' type'

def register (s : PageSt) (id : ℕ) (el : Elem) : PageSt :=
  { s with registry := Function.update s.registry id (some el) }

def addEvent (s : PageSt) (id : ℕ) (type : List Char) (entry : Entry) : PageSt :=
  match s.registry id with
  | none => s
  | some el =>
    match s.handlers id type with
    | none =>
      { s with
        handlers := setHandlers s.handlers id type [entry]
        listeners := s.listeners ++ [⟨el, id, type⟩] }
    | some entries => { s with handlers := setHandlers s.handlers id type (entries ++ [entry]) }

/-- The case `SET_INNER_HTML`, after the assignment has changed the document. -/
def setInnerHtml (s : PageSt) (id : ℕ) : PageSt :=
  match s.registry id with
  | none => s
  | some el =>
    { s with handlers := fun nid type =>
        match s.registry nid with
        | none => s.handlers nid type
        | some n => if n ≠ el ∧ s.dom.contains el n then none else s.handlers nid type }

/-- The other cases, as far as the registry and the map go; `made` is the element that
`createElement` returns. -/
def otherCommand (s : PageSt) (c : Cmd) (made : Elem) : PageSt :=
  match c with
  | .create id _ _ => register s id made
  | .removeNode id => { s with registry := Function.update s.registry id none }
  | .setInnerHtml id _ => setInnerHtml s id
  | _ => s

def sweepDetached (s : PageSt) : PageSt :=
  { s with
    handlers := fun id type =>
      match s.registry id with
      | none => s.handlers id type
      | some el => if 1 < id ∧ s.dom.connected el = false then none else s.handlers id type
    registry := fun id =>
      match s.registry id with
      | none => none
      | some el => if 2 ≤ id ∧ s.dom.connected el = false then none else some el }

/-- The id of an element that `query` found or that is a root. -/
def assignId (s : PageSt) (el : Elem) : PageSt :=
  { register s s.nextNodeId el with nextNodeId := s.nextNodeId + 1 }

/-- The listener calls `cerco_event` with the number at this place of its list. -/
def callSlot (s : PageSt) (l : Listener) (i : ℕ) : Option PageSt :=
  if l ∈ s.listeners ∧ s.dom.connected l.elem then
    match ((s.handlers l.id l.type).getD [])[i]? with
    | none => none
    | some entry => some { s with calls := s.calls ++ [⟨entry, eventDispatch s entry.slot⟩] }
  else none

/-- `command` is any other operation of `dom.c`. `process` is the host at the next command
of a flush, and `mutate` a change of the document by the browser or another script. -/
inductive Event
  | on (node : ℕ) (type : List Char) (h : Handler)
  | command (c : Cmd)
  | process (dom : Dom) (made : Elem)
  | query (found : Elem)
  | hydrateRoots (els : List Elem)
  | navigate
  | swapPage (dom : Dom)
  | mutate (dom : Dom)
  | event (l : Listener) (i : ℕ)

/-- `processCommand` on the next command. -/
def processCommand (s : PageSt) (dom : Dom) (made : Elem) : Option PageSt :=
  match s.pending with
  | [] => none
  | .addEvent id type entry :: rest => some (addEvent { s with pending := rest } id type entry)
  | .other c :: rest => some (otherCommand { s with pending := rest, dom := dom } c made)

def pageStep (s : PageSt) : Event → Option PageSt
  | .on node type h => some (cercoOn s node type h)
  | .command (.addEvent _ _ _) => none
  | .command c => some { s with pending := s.pending ++ [.other c] }
  | .process dom made => processCommand s dom made
  | .query found => some (assignId s found)
  | .hydrateRoots els => some (els.foldl assignId s)
  | .navigate => some (cercoNavigate s)
  | .swapPage dom => some (sweepDetached { s with dom := dom })
  | .mutate dom => some { s with dom := dom }
  | .event l i => callSlot s l i

def pageSystem : System PageSt Event where
  start s := ∃ dom, s = bootPage dom
  step := pageStep

def Queued.entry : Queued → Option Entry
  | .addEvent _ _ e => some e
  | .other _ => none

def entriesUnderway (s : PageSt) : List Entry := s.pending.filterMap Queued.entry

def entriesOf (s : PageSt) (l : Listener) : List Entry := (s.handlers l.id l.type).getD []

def Live (s : PageSt) (e : Entry) : Prop :=
  ∃ l ∈ s.listeners, s.dom.connected l.elem = true ∧ e ∈ entriesOf s l

def Current (s : PageSt) (e : Entry) : Prop :=
  eventDispatch s e.slot = none ∨ eventDispatch s e.slot = some e.reg

def NumberFree (s : PageSt) (h : Handler) : Prop :=
  s.slots.length < maxEventSlots →
    (∀ e ∈ entriesUnderway s, e.slot = s.slots.length → e.reg = h) ∧
    ∀ l ∈ s.listeners, s.dom.connected l.elem = true →
      ∀ e ∈ entriesOf s l, e.slot = s.slots.length → e.reg = h

def JoinsCurrent (s : PageSt) (dom : Dom) : Prop :=
  ∀ l ∈ s.listeners, s.dom.connected l.elem = false → dom.connected l.elem = true →
    ∀ e ∈ entriesOf s l, Current s e

/-- No number is handed out while another handler's listener carries it. -/
def Unshadowed (s : PageSt) : Event → Prop
  | .on _ _ h => NumberFree s h
  | .process dom _ => JoinsCurrent s dom
  | .swapPage dom => JoinsCurrent s dom
  | .mutate dom => JoinsCurrent s dom
  | _ => True

structure PageInv (s : PageSt) : Prop where
  underway : ∀ e ∈ entriesUnderway s, Current s e
  live : ∀ e, Live s e → Current s e
  calls : ∀ c ∈ s.calls, c.got = none ∨ c.got = some c.entry.reg

theorem PageInv.of_sub {s t : PageSt} (h : PageInv s) (slots : t.slots = s.slots)
    (under : ∀ e ∈ entriesUnderway t, e ∈ entriesUnderway s)
    (live : ∀ e, Live t e → Live s e ∨ Current s e) (calls : t.calls = s.calls) : PageInv t := by
  have current : ∀ e, Current s e → Current t e := by
    intro e he
    unfold Current eventDispatch
    rw [slots]
    exact he
  refine ⟨?_, ?_, ?_⟩
  · intro e he
    exact current e (h.underway e (under e he))
  · intro e he
    obtain old | now := live e he
    · exact current e (h.live e old)
    · exact current e now
  · rw [calls]
    exact h.calls

theorem live_of_joins {s : PageSt} {dom : Dom} (joins : JoinsCurrent s dom) {e : Entry}
    (h : Live { s with dom := dom } e) : Live s e ∨ Current s e := by
  obtain ⟨l, mem, on, he⟩ := h
  cases hc : s.dom.connected l.elem with
  | true => exact .inl ⟨l, mem, hc, he⟩
  | false => exact .inr (joins l mem hc on e he)

theorem PageInv.mutate {s : PageSt} (h : PageInv s) {dom : Dom} (joins : JoinsCurrent s dom) :
    PageInv { s with dom := dom } :=
  h.of_sub rfl (fun _ he => he) (fun _ he => live_of_joins joins he) rfl

theorem mem_entriesOf {s : PageSt} {l : Listener} {e : Entry} :
    e ∈ entriesOf s l ↔ ∃ entries, s.handlers l.id l.type = some entries ∧ e ∈ entries := by
  unfold entriesOf
  cases s.handlers l.id l.type with
  | none => simp
  | some entries => simp

theorem PageInv.drop {s t : PageSt} (h : PageInv s) (slots : t.slots = s.slots)
    (pending : ∀ e ∈ entriesUnderway t, e ∈ entriesUnderway s)
    (listeners : t.listeners = s.listeners)
    (handlers : ∀ id type entries, t.handlers id type = some entries → s.handlers id type = some entries)
    (dom : t.dom = s.dom) (calls : t.calls = s.calls) : PageInv t := by
  refine h.of_sub slots pending ?_ calls
  rintro e ⟨l, mem, on, he⟩
  rw [listeners] at mem
  rw [dom] at on
  obtain ⟨entries, hh, hin⟩ := mem_entriesOf.mp he
  exact .inl ⟨l, mem, on, mem_entriesOf.mpr ⟨entries, handlers _ _ _ hh, hin⟩⟩

theorem PageInv.register {s : PageSt} (h : PageInv s) (id : ℕ) (el : Elem) :
    PageInv (register s id el) :=
  h.drop rfl (fun _ hq => hq) rfl (fun _ _ _ he => he) rfl rfl

theorem PageInv.assignId {s : PageSt} (h : PageInv s) (el : Elem) : PageInv (assignId s el) :=
  h.drop rfl (fun _ hq => hq) rfl (fun _ _ _ he => he) rfl rfl

theorem PageInv.hydrateRoots {s : PageSt} (h : PageInv s) (els : List Elem) :
    PageInv (els.foldl ClientEvents.assignId s) := by
  induction els generalizing s with
  | nil => exact h
  | cons el els ih => exact ih (h.assignId el)

theorem PageInv.sweep {s : PageSt} (h : PageInv s) : PageInv (sweepDetached s) := by
  refine h.drop rfl (fun _ hq => hq) rfl ?_ rfl rfl
  intro id type entries he
  simp only [sweepDetached] at he
  split at he
  · exact he
  · split at he
    · cases he
    · exact he

theorem PageInv.setInnerHtml {s : PageSt} (h : PageInv s) (id : ℕ) : PageInv (setInnerHtml s id) := by
  unfold ClientEvents.setInnerHtml
  split
  · exact h
  · refine h.drop rfl (fun _ hq => hq) rfl ?_ rfl rfl
    intro nid type entries he
    dsimp only at he
    split at he
    · exact he
    · split at he
      · cases he
      · exact he

theorem PageInv.otherCommand {s : PageSt} (h : PageInv s) (c : Cmd) (made : Elem) :
    PageInv (otherCommand s c made) := by
  unfold ClientEvents.otherCommand
  split
  · exact h.register _ made
  · exact h.drop rfl (fun _ hq => hq) rfl (fun _ _ _ he => he) rfl rfl
  · exact h.setInnerHtml _
  · exact h

theorem setHandlers_some {handlers : ℕ → List Char → Option (List Entry)} {id id' : ℕ}
    {type type' : List Char} {entries entries' : List Entry}
    (h : setHandlers handlers id type entries id' type' = some entries') :
    (id' = id ∧ type' = type ∧ entries' = entries) ∨ handlers id' type' = some entries' := by
  unfold setHandlers at h
  split at h
  · rename_i same
    exact .inl ⟨same.1, same.2, (Option.some.inj h).symm⟩
  · exact .inr h

theorem addEvent_live {s : PageSt} {id : ℕ} {type : List Char} {new e : Entry}
    (h : Live (addEvent s id type new) e) : e = new ∨ Live s e := by
  unfold addEvent at h
  split at h
  · exact .inr h
  · split at h
    · rename_i vacant
      obtain ⟨l, mem, on, he⟩ := h
      obtain ⟨entries, hh, hin⟩ := mem_entriesOf.mp he
      obtain ⟨_, _, rfl⟩ | old := setHandlers_some hh
      · exact .inl (List.mem_singleton.mp hin)
      · obtain mem | mem := List.mem_append.mp mem
        · exact .inr ⟨l, mem, on, mem_entriesOf.mpr ⟨entries, old, hin⟩⟩
        · rw [List.mem_singleton.mp mem, vacant] at old
          cases old
    · rename_i entries present
      obtain ⟨l, mem, on, he⟩ := h
      obtain ⟨entries', hh, hin⟩ := mem_entriesOf.mp he
      obtain ⟨sameId, sameType, rfl⟩ | old := setHandlers_some hh
      · obtain hin | hin := List.mem_append.mp hin
        · refine .inr ⟨l, mem, on, mem_entriesOf.mpr ⟨entries, ?_, hin⟩⟩
          rw [sameId, sameType]
          exact present
        · exact .inl (List.mem_singleton.mp hin)
      · exact .inr ⟨l, mem, on, mem_entriesOf.mpr ⟨entries', old, hin⟩⟩

theorem addEvent_fields (s : PageSt) (id : ℕ) (type : List Char) (new : Entry) :
    (addEvent s id type new).slots = s.slots ∧ (addEvent s id type new).pending = s.pending ∧
      (addEvent s id type new).calls = s.calls := by
  unfold addEvent
  split
  · exact ⟨rfl, rfl, rfl⟩
  · split
    · exact ⟨rfl, rfl, rfl⟩
    · exact ⟨rfl, rfl, rfl⟩

theorem PageInv.process {s t : PageSt} (h : PageInv s) {dom : Dom} {made : Elem}
    (joins : JoinsCurrent s dom) (ht : processCommand s dom made = some t) : PageInv t := by
  unfold processCommand at ht
  split at ht
  · cases ht
  · rename_i id type new rest queue
    cases Option.some.inj ht
    have under : entriesUnderway s = new :: rest.filterMap Queued.entry := by
      unfold entriesUnderway
      rw [queue]
      rfl
    obtain ⟨slots, pending, calls⟩ := addEvent_fields { s with pending := rest } id type new
    refine h.of_sub slots ?_ ?_ calls
    · intro e he
      unfold entriesUnderway at he
      rw [pending] at he
      exact under ▸ List.mem_cons_of_mem _ he
    · intro e he
      obtain rfl | old := addEvent_live he
      · exact .inr (h.underway e (under ▸ List.mem_cons_self))
      · exact .inl old
  · rename_i c rest queue
    cases Option.some.inj ht
    have under : entriesUnderway s = rest.filterMap Queued.entry := by
      unfold entriesUnderway
      rw [queue]
      rfl
    refine PageInv.otherCommand ?_ c made
    exact (h.mutate joins).drop rfl (fun e he => under ▸ he) rfl (fun _ _ _ he => he) rfl rfl

theorem current_push {s : PageSt} {hd : Handler} {e : Entry} (h : Current s e)
    (free : e.slot = s.slots.length → e.reg = hd) (pending : List Queued) :
    Current { s with slots := s.slots ++ [hd], pending := pending } e := by
  unfold Current eventDispatch at h ⊢
  rw [List.getElem?_append]
  split
  · exact h
  · rename_i above
    by_cases new : e.slot = s.slots.length
    · rw [new, Nat.sub_self, free new]
      exact .inr rfl
    · exact .inl (List.getElem?_eq_none (by simp only [List.length_singleton]; omega))

theorem PageInv.on {s : PageSt} (h : PageInv s) {node : ℕ} {type : List Char} {hd : Handler}
    (free : NumberFree s hd) : PageInv (cercoOn s node type hd) := by
  unfold cercoOn
  split
  · exact h
  · rename_i room
    obtain ⟨under, live⟩ := free (Nat.lt_of_not_le room)
    refine ⟨?_, ?_, h.calls⟩
    · intro e he
      change e ∈ (s.pending ++ [Queued.addEvent node type ⟨s.slots.length, hd⟩]).filterMap
        Queued.entry at he
      rw [List.filterMap_append] at he
      obtain he | he := List.mem_append.mp he
      · exact current_push (h.underway e he) (under e he) _
      · cases List.mem_singleton.mp he
        exact .inr (List.getElem?_concat_length)
    · rintro e ⟨l, mem, on, he⟩
      exact current_push (h.live e ⟨l, mem, on, he⟩) (live l mem on e he) _

theorem PageInv.call {s t : PageSt} (h : PageInv s) {l : Listener} {i : ℕ}
    (ht : callSlot s l i = some t) : PageInv t := by
  unfold callSlot at ht
  split at ht
  · rename_i fires
    split at ht
    · cases ht
    · rename_i entry at_i
      cases Option.some.inj ht
      refine ⟨h.underway, h.live, ?_⟩
      intro c hc
      obtain hc | hc := List.mem_append.mp hc
      · exact h.calls c hc
      · rw [List.mem_singleton.mp hc]
        exact h.live entry ⟨l, fires.1, fires.2, List.mem_of_getElem? at_i⟩
  · cases ht

theorem bootPage_inv (dom : Dom) : PageInv (bootPage dom) := by
  refine ⟨?_, ?_, ?_⟩
  · intro e he
    cases he
  · rintro e ⟨l, mem, _⟩
    cases mem
  · intro c hc
    cases hc

theorem pageStep_inv {s t : PageSt} {e : Event} (h : PageInv s) (ok : Unshadowed s e)
    (hs : pageStep s e = some t) : PageInv t := by
  cases e with
  | on node type hd =>
    cases Option.some.inj hs
    exact h.on ok
  | command c =>
    have queued : t = { s with pending := s.pending ++ [.other c] } := by
      cases c <;> cases hs <;> rfl
    subst queued
    refine h.drop rfl ?_ rfl (fun _ _ _ he => he) rfl rfl
    intro e he
    change e ∈ (s.pending ++ [Queued.other c]).filterMap Queued.entry at he
    rw [List.filterMap_append] at he
    obtain he | he := List.mem_append.mp he
    · exact he
    · cases he
  | process dom made => exact h.process ok hs
  | query found =>
    cases Option.some.inj hs
    exact h.assignId found
  | hydrateRoots els =>
    cases Option.some.inj hs
    exact h.hydrateRoots els
  | navigate =>
    cases Option.some.inj hs
    exact ⟨fun _ _ => .inl rfl, fun _ _ => .inl rfl, h.calls⟩
  | swapPage dom =>
    cases Option.some.inj hs
    exact (h.mutate ok).sweep
  | mutate dom =>
    cases Option.some.inj hs
    exact h.mutate ok
  | event l i => exact h.call hs

theorem reach_inv {s : PageSt} (h : Reach pageSystem Unshadowed s) : PageInv s :=
  h.invariant
    (by
      rintro _ ⟨dom, rfl⟩
      exact bootPage_inv dom)
    fun _ _ _ hi hok hs => pageStep_inv hi hok hs

instance (s : PageSt) (e : Entry) : Decidable (Current s e) := inferInstanceAs (Decidable (_ ∨ _))

instance (s : PageSt) (h : Handler) : Decidable (NumberFree s h) :=
  inferInstanceAs (Decidable (_ → _))

instance (s : PageSt) (dom : Dom) : Decidable (JoinsCurrent s dom) :=
  inferInstanceAs (Decidable (∀ _ ∈ _, _))

instance (s : PageSt) : (e : Event) → Decidable (Unshadowed s e)
  | .on _ _ h => inferInstanceAs (Decidable (NumberFree s h))
  | .process dom _ => inferInstanceAs (Decidable (JoinsCurrent s dom))
  | .swapPage dom => inferInstanceAs (Decidable (JoinsCurrent s dom))
  | .mutate dom => inferInstanceAs (Decidable (JoinsCurrent s dom))
  | .command _ => .isTrue trivial
  | .query _ => .isTrue trivial
  | .hydrateRoots _ => .isTrue trivial
  | .navigate => .isTrue trivial
  | .event _ _ => .isTrue trivial

end Cerco.ClientEvents
