import Cerco.ClientFetch

set_option autoImplicit false

/-!
# The slots of server functions

`cerco_sf_submit_raw` takes a slot before `cerco_http_post` looks for an entry of
`g_fetches`, and the slot is given back by the answer. A call whose body does not
fit touches neither table.
-/
namespace Cerco.SfSlots
open Cerco.CString Cerco.ClientBody Cerco.ClientFetch Cerco.TransitionRuns

variable {pending : List Pending} {fetches : List (Option PendingFetch)}

def waiting (slot : ℕ) : Option PendingFetch := some ⟨.sfDone, slot⟩

/-- `g_sf_pending[slot].cb` is set. -/
def Occupied (pending : List Pending) (slot : ℕ) : Prop := ∃ p, pending[slot]? = some p ∧ p.cb.isSome = true

/-- A fetch with this slot as its user value is in flight in `g_fetches`. -/
def InFlight (fetches : List (Option PendingFetch)) (slot : ℕ) : Prop :=
  ∃ id : ℕ, fetches[id]? = some (waiting slot)

structure Paired (pending : List Pending) (fetches : List (Option PendingFetch)) : Prop where
  agree : ∀ slot, Occupied pending slot ↔ InFlight fetches slot
  one : ∀ slot i j : ℕ, fetches[i]? = some (waiting slot) → fetches[j]? = some (waiting slot) → i = j

theorem occupied_set_ne {slot other : ℕ} (h : slot ≠ other) (p : Pending) :
    Occupied (pending.set slot p) other ↔ Occupied pending other := by
  unfold Occupied
  rw [List.getElem?_set_ne h]

theorem fetches_set {id : ℕ} {old : Option PendingFetch} (h : fetches[id]? = some old)
    (new : Option PendingFetch) (slot i : ℕ) :
    (fetches.set id new)[i]? = some (waiting slot) ↔
      (i = id ∧ new = waiting slot) ∨ (i ≠ id ∧ fetches[i]? = some (waiting slot)) := by
  by_cases here : i = id
  · subst here
    rw [List.getElem?_set_self (List.getElem?_eq_some_iff.mp h).1, Option.some.injEq]
    exact ⟨fun e => .inl ⟨rfl, e⟩, fun e => (e.resolve_right fun far => far.1 rfl).2⟩
  · rw [List.getElem?_set_ne (Ne.symm here)]
    exact ⟨fun e => .inr ⟨here, e⟩, fun e => (e.resolve_left fun same => here same.1).2⟩

theorem Paired.other (h : Paired pending fetches) {id : ℕ} {old new : Option PendingFetch}
    (was : fetches[id]? = some old) (plain : ∀ slot, old ≠ waiting slot) (other : ∀ slot, new ≠ waiting slot) :
    Paired pending (fetches.set id new) := by
  have same : ∀ slot i : ℕ, (fetches.set id new)[i]? = some (waiting slot) ↔
      fetches[i]? = some (waiting slot) := by
    intro slot i
    rw [fetches_set was]
    constructor
    · rintro (⟨_, e⟩ | ⟨_, e⟩)
      · exact absurd e (other slot)
      · exact e
    · intro e
      refine .inr ⟨?_, e⟩
      rintro rfl
      rw [was, Option.some.injEq] at e
      exact plain slot e
  refine ⟨fun slot => (h.agree slot).trans (exists_congr fun i => (same slot i).symm), ?_⟩
  intro slot i j hi hj
  exact h.one slot i j ((same slot i).mp hi) ((same slot j).mp hj)

theorem Paired.take (h : Paired pending fetches) {slot id : ℕ} {p q : Pending} (hp : pending[slot]? = some p)
    (vacant : p.cb = none) (free : fetches[id]? = some none) (set : q.cb.isSome = true) :
    Paired (pending.set slot q) (fetches.set id (waiting slot)) := by
  have unused : ¬ InFlight fetches slot := by
    intro flying
    obtain ⟨r, hr, some⟩ := (h.agree slot).mpr flying
    rw [hp, Option.some.injEq] at hr
    rw [← hr, vacant] at some
    cases some
  refine ⟨fun other => ?_, ?_⟩
  · by_cases here : slot = other
    · subst here
      refine ⟨fun _ => ⟨id, (fetches_set free _ slot id).mpr (.inl ⟨rfl, rfl⟩)⟩, fun _ => ?_⟩
      exact ⟨q, List.getElem?_set_self (List.getElem?_eq_some_iff.mp hp).1, set⟩
    · rw [occupied_set_ne here, h.agree other]
      constructor
      · rintro ⟨i, hi⟩
        refine ⟨i, (fetches_set free _ other i).mpr (.inr ⟨?_, hi⟩)⟩
        rintro rfl
        rw [free] at hi
        cases hi
      · rintro ⟨i, hi⟩
        obtain ⟨_, e⟩ | ⟨_, hi⟩ := (fetches_set free _ other i).mp hi
        · cases e
          exact absurd rfl here
        · exact ⟨i, hi⟩
  · intro other i j hi hj
    obtain ⟨ei, e⟩ | ⟨_, hi⟩ := (fetches_set free _ other i).mp hi
    · obtain ⟨ej, _⟩ | ⟨_, hj⟩ := (fetches_set free _ other j).mp hj
      · rw [ei, ej]
      · cases e
        exact absurd ⟨j, hj⟩ unused
    · obtain ⟨_, e⟩ | ⟨_, hj⟩ := (fetches_set free _ other j).mp hj
      · cases e
        exact absurd ⟨i, hi⟩ unused
      · exact h.one other i j hi hj

theorem Paired.release (h : Paired pending fetches) {slot id : ℕ} (was : fetches[id]? = some (waiting slot))
    {p q : Pending} (hp : pending[slot]? = some p) (cleared : q.cb = none) :
    Paired (pending.set slot q) (fetches.set id none) := by
  have gone : ∀ other i : ℕ, (fetches.set id none)[i]? = some (waiting other) ↔
      i ≠ id ∧ fetches[i]? = some (waiting other) := by
    intro other i
    rw [fetches_set was]
    refine or_iff_right ?_
    rintro ⟨_, e⟩
    cases e
  refine ⟨fun other => ?_, ?_⟩
  · by_cases here : slot = other
    · subst here
      constructor
      · rintro ⟨r, hr, some⟩
        rw [List.getElem?_set_self (List.getElem?_eq_some_iff.mp hp).1, Option.some.injEq] at hr
        rw [← hr, cleared] at some
        cases some
      · rintro ⟨i, hi⟩
        obtain ⟨far, hi⟩ := (gone slot i).mp hi
        exact absurd (h.one slot i id hi was) far
    · rw [occupied_set_ne here, h.agree other]
      constructor
      · rintro ⟨i, hi⟩
        refine ⟨i, (gone other i).mpr ⟨?_, hi⟩⟩
        rintro rfl
        rw [was] at hi
        cases hi
        exact here rfl
      · rintro ⟨i, hi⟩
        exact ⟨i, ((gone other i).mp hi).2⟩
  · intro other i j hi hj
    exact h.one other i j ((gone other i).mp hi).2 ((gone other j).mp hj).2

/-- The slots and the fetches of a state agree. -/
def InStep (s : ClientSt) : Prop := ∀ slot, Occupied s.pending slot ↔ InFlight s.fetches slot

/-- A submission passes a callback, and if it finds a slot it also finds an entry of `g_fetches`. -/
def entryLeft (s : ClientSt) : Event → Prop
  | .submit _ cb _ _ => cb.isSome = true ∧ (freeSlot s.pending ≠ none → fetchReserve s.fetches ≠ none)
  | _ => True

theorem boot_paired (location : Bytes) : Paired (boot location).pending (boot location).fetches := by
  have entries : ∀ (i : ℕ) (f : Option PendingFetch), (boot location).fetches[i]? = some f → f = none := by
    intro i f h
    exact (List.mem_replicate.mp (List.mem_of_getElem? h)).2
  refine ⟨fun slot => ⟨?_, ?_⟩, ?_⟩
  · rintro ⟨p, hp, some⟩
    rw [(List.mem_replicate.mp (List.mem_of_getElem? hp)).2] at some
    cases some
  · rintro ⟨id, h⟩
    cases entries id _ h
  · intro slot i j hi
    cases entries i _ hi

theorem httpStart_paired {s : ClientSt} (h : Paired s.pending s.fetches) (url : Bytes) {f : PendingFetch}
    (issue : Issue) (other : ∀ slot, some f ≠ waiting slot) :
    Paired (httpStart s url f issue).pending (httpStart s url f issue).fetches := by
  obtain e | ⟨id, free, e⟩ := httpStart_cases s url f issue
  · rwa [e]
  · rw [e]
    refine h.other free (fun slot e => ?_) other
    cases e

theorem sfSubmit_paired {s : ClientSt} (h : Paired s.pending s.fetches) {url : Bytes} {cb : Option ℕ}
    {user : ℕ} {want : UInt8} (ok : entryLeft s (.submit url cb user want)) :
    Paired (sfSubmit s url cb user want).pending (sfSubmit s url cb user want).fetches := by
  obtain e | ⟨slot, hf, e⟩ := sfSubmit_cases s url cb user want
  · rwa [e]
  · obtain ⟨id, hid⟩ := Option.ne_none_iff_exists'.mp (ok.2 (by rw [hf]; exact Option.some_ne_none slot))
    obtain ⟨p, hp, vacant⟩ := freeSlot_some hf
    have both := h.take (q := ⟨cb, user, want⟩) hp vacant (fetchReserve_some hid) ok.1
    simp only [e, httpStart, hid]
    exact both

theorem fetchDone_paired {s : ClientSt} (h : Paired s.pending s.fetches) (k : HostFetch) (r : Response) :
    Paired (fetchDone s k r).pending (fetchDone s k r).fetches := by
  unfold fetchDone
  split
  · rename_i f was
    dsimp only
    obtain ⟨cb, user⟩ := f
    cases cb with
    | sfDone =>
      obtain ⟨p, hp, _⟩ := (h.agree user).mpr ⟨k.id, was⟩
      have both := h.release (q := { p with cb := none }) was hp rfl
      dsimp only
      rw [sfDone]
      dsimp only
      rw [hp]
      dsimp only
      split <;> exact both
    | navPageDone =>
      have rest := h.other was (fun slot e => by cases e) (fun slot (e : none = waiting slot) => by cases e)
      dsimp only
      split <;> exact rest
    | app cb =>
      exact h.other was (fun slot e => by cases e) (fun slot (e : none = waiting slot) => by cases e)
  · exact h

theorem clientStep_paired {s t : ClientSt} {e : Event} (h : Paired s.pending s.fetches) (ok : entryLeft s e)
    (hs : clientStep s e = some t) : Paired t.pending t.fetches := by
  obtain ⟨url, cb, user, want, rfl, rfl⟩ | ⟨path, _, rfl⟩ | ⟨url, cb, user, _, rfl⟩ |
    ⟨k, r, _, _, rfl⟩ := clientStep_cases hs
  · exact sfSubmit_paired h ok
  · refine httpStart_paired (s := { s with path := textAt path.kept path.current, lastNav := s.count }) h path.url
      .nav ?_
    intro slot e
    cases e
  · refine httpStart_paired h url (.app cb user) ?_
    intro slot e
    cases e
  · exact fetchDone_paired (s := { s with inflight := s.inflight.filter fun l => l.num != k.num }) h k r

/-- As long as each submission finds room in both tables, no slot is lost and none is
freed early. -/
theorem slots_in_step {s : ClientSt} (h : Reach clientSystem entryLeft s) : InStep s := by
  have paired : Paired s.pending s.fetches :=
    h.invariant (I := fun s => Paired s.pending s.fetches)
      (by
        rintro _ ⟨location, rfl⟩
        exact boot_paired location)
      fun _ _ _ hi ok hs => clientStep_paired hi ok hs
  exact paired.agree

instance (s : ClientSt) : (e : Event) → Decidable (entryLeft s e)
  | .submit _ cb _ _ =>
    inferInstanceAs (Decidable (cb.isSome = true ∧ (freeSlot s.pending ≠ none → fetchReserve s.fetches ≠ none)))
  | .navigate _ => .isTrue trivial
  | .http _ _ _ => .isTrue trivial
  | .respond _ _ => .isTrue trivial

def mixedRun : List Event :=
  [.submit callUrl (some 7) 1 0, .http callUrl (some 8) 0, .submit callUrl (some 9) 2 0, .respond 1 emptyReply]

def mixed : ClientSt := (execWhile clientSystem entryLeft (boot []) mixedRun).getD (boot [])

theorem slots_in_step_mixed : Occupied mixed.pending 1 ∧ InStep mixed := by
  refine ⟨⟨⟨some 9, 2, 0⟩, by decide +kernel, rfl⟩, slots_in_step ?_⟩
  exact execWhile_reach mixedRun (.start ⟨[], rfl⟩) (by decide +kernel)

/-- All entries of `g_fetches` are taken by other requests, and a call is made. -/
def crowdedRun : List Event := List.replicate 32 (.http callUrl (some 8) 0) ++ [.submit callUrl (some 7) 1 0]

def crowded : ClientSt := (exec clientSystem (boot []) crowdedRun).getD (boot [])

/-- The call is refused, and its slot stays taken. -/
theorem refused_call_keeps_slot : Reach clientSystem anyStep crowded ∧
    Occupied crowded.pending 0 ∧ ¬ InFlight crowded.fetches 0 ∧ ¬ InStep crowded := by
  have run : Reach clientSystem anyStep crowded :=
    exec_reach crowdedRun (.start ⟨[], rfl⟩) (fun _ _ _ => trivial) (by decide +kernel)
  have occupied : Occupied crowded.pending 0 := ⟨⟨some 7, 1, 0⟩, by decide +kernel, rfl⟩
  have others : ∀ f ∈ crowded.fetches, f ≠ waiting 0 := by decide +kernel
  have landed : ¬ InFlight crowded.fetches 0 := by
    rintro ⟨id, h⟩
    exact others _ (List.mem_of_getElem? h) rfl
  exact ⟨run, occupied, landed, fun agree => landed ((agree 0).mp occupied)⟩

end Cerco.SfSlots
